import Oprofile.Library.ByteMem
import Oprofile.Library.IndexChain
import Oprofile.Libdb.Sequences
import Oprofile.Libdb.SampleCounts
import Oprofile.Libdb.OdbOpen
import Oprofile.Operf.HeaderRoundTrip
import Oprofile.Operf.PipeReader
import Oprofile.Operf.RecordedData
import Oprofile.Operf.FastPath
import Oprofile.Operf.KernelLookup
import Oprofile.Operf.ForkNames
import Oprofile.Operf.Attribution
import Oprofile.Operf.Ledger
import Oprofile.Operf.FileIdentity
import Oprofile.SampleNames.DaemonNames
import Oprofile.Daemon.SfileIdentity
import Oprofile.JitDump.RoundTrip
import Oprofile.JitDump.AgentLocks
import Oprofile.JitDump.ParseInside
import Oprofile.Libop.AllocCounter
import Oprofile.Opjitconv.DebugLineRows
import Oprofile.Libpp.ProcessTree
import Oprofile.Opjitconv.ElfContents
import Oprofile.Opjitconv.SymbolNames
import Oprofile.Libpp.CountedOnce
import Oprofile.Libpp.ArcAttribution
import Oprofile.Libpp.XmlReport
import Oprofile.Libabi.ImportFaithful
import Oprofile.PeUtils.SpecAgreement
import Oprofile.Daemon.IbsTrans
import Oprofile.Daemon.IbsLaws
import Oprofile.Operf.RingBuffer
import Oprofile.PeCounting.OcountReports
import Oprofile.PeCounting.ColumnPadding
import Oprofile.Libop.NetburstEncoding
import Oprofile.PeUtils.EventCodes
import Oprofile.PeUtils.EdgeLeak
import Oprofile.Operf.WindowedReader
import Oprofile.Operf.ApplicationName
import Oprofile.Operf.HypervisorMappings
import Oprofile.Operf.HypervisorRuns
import Oprofile.Daemon.Anon
import Oprofile.Daemon.Trans
import Oprofile.Daemon.IbsRecords
import Oprofile.Libop.UnitMasks
import Oprofile.SampleNames.PathEnds
import Oprofile.Libpp.Ratio
import Oprofile.Libpp.ArcThresholds
import Oprofile.Library.Joins
import Oprofile.Libpp.DiffContainer
import Oprofile.Libpp.ProfileSamples
import Oprofile.Libpp.ClassAxes
import Oprofile.Library.XmlText
import Oprofile.Library.CStrings
import Oprofile.Libop.XmlOut
import Oprofile.Libop.XmlOutRuns
import Oprofile.Library.Histogram
import Oprofile.Pp.Opgprof
import Oprofile.Pp.GmonCounts
import Oprofile.Library.Interning
import Oprofile.Libpp.XmlSymbols
import Oprofile.Libpp.XmlReferences
import Oprofile.Library.Crc
import Oprofile.Libutil.OpFileio
import Oprofile.Libutil.Crc32
import Oprofile.Libutilpp.DebugFile
import Oprofile.Library.TextLines
import Oprofile.Libutil.LineReading
import Oprofile.SampleNames.Joining
import Oprofile.Libpp.InvertProfiles
import Oprofile.Libpp.ProfileSpec
import Oprofile.Libpp.SpecExclusion
import Oprofile.Libpp.SpecTags
import Oprofile.Libutilpp.PathFilter
import Oprofile.Libutilpp.PathComponents
import Oprofile.Libregex.DemangleJava
import Oprofile.Libregex.JavaGrammar
import Oprofile.Libutilpp.ChildReader
import Oprofile.Libutilpp.ChildLines
import Oprofile.Libutilpp.BuildIdNotes
import Oprofile.Libdb.SharedData
import Oprofile.Libdb.OpenHandles
import Oprofile.Library.DoublyLinked
import Oprofile.Daemon.SfileLru
import Oprofile.Daemon.LruIntegrity
import Oprofile.Opjitconv.Leb128Codec
import Oprofile.Daemon.AnonCache
import Oprofile.Libop.UnitMaskFiles
import Oprofile.Libop.UnitMaskBounds
import Oprofile.Libop.EventsFile
import Oprofile.Libop.EventsText
import Oprofile.Libop.LoadEvents
import Oprofile.Daemon.SampleSteps
import Oprofile.Daemon.ContextCache
import Oprofile.Daemon.LivePointers
import Oprofile.Daemon.AnonEviction
import Oprofile.Daemon.BufferRecords
import Oprofile.Daemon.PrivilegeContext
import Oprofile.Daemon.IbsTransparency
import Oprofile.Daemon.IbsAttribution
import Oprofile.Library.Turns
import Oprofile.JitDump.SharedDump
import Oprofile.JitDump.DumpCopies
import Oprofile.Operf.Launch
import Oprofile.Opjitconv.Conversion
import Oprofile.Daemon.SampleFiles
import Oprofile.Libpp.StoredReport
import Oprofile.Library.Memo
import Oprofile.Daemon.Cookies

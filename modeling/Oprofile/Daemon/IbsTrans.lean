import Mathlib.Data.List.Basic

/-! The translation of IBS samples into derived events (`opd_ibs.h`, `opd_ibs_macro.h`, `opd_ibs_trans.c`). -/
namespace Oprofile.Daemon

/-- `struct ibs_fetch_sample` -/
structure IbsFetchSample where
  rip : UInt64
  ibsFetchCtlLow : UInt32
  ibsFetchCtlHigh : UInt32
  ibsFetchLinAddrLow : UInt32
  ibsFetchLinAddrHigh : UInt32
  ibsFetchPhysAddrLow : UInt32
  ibsFetchPhysAddrHigh : UInt32
  deriving DecidableEq

/-- `struct ibs_op_sample` -/
structure IbsOpSample where
  rip : UInt64
  ibsOpLinAddrLow : UInt32
  ibsOpLinAddrHigh : UInt32
  ibsOpData1Low : UInt32
  ibsOpData1High : UInt32
  ibsOpData2Low : UInt32
  ibsOpData2High : UInt32
  ibsOpData3Low : UInt32
  ibsOpData3High : UInt32
  ibsOpLdstLinaddrLow : UInt32
  ibsOpLdstLinaddrHigh : UInt32
  ibsOpPhysAddrLow : UInt32
  ibsOpPhysAddrHigh : UInt32
  ibsOpBrtgtAddr : UInt64
  deriving DecidableEq

/-- The derived events, `DE_IBS_` and the name. -/
inductive DerivedEvent
  | fetchAll | fetchKilled | fetchAttempted | fetchCompleted | fetchAborted
  | l1ItlbHit | itlbL1mL2h | itlbL1mL2m | icMiss | icHit
  | fetch4kPage | fetch2mPage | fetch1gPage | fetchXxPage | fetchLatency
  | opAll | opTagToRetire | opCompToRetire | branchRetired | branchMisp
  | branchTaken | branchMispTaken | ret | returnMisp | resync
  | lsAllOp | lsLoadOp | lsStoreOp | lsDtlbL1h | lsDtlbL1mL2h | lsDtlbL1mL2m
  | lsDcMiss | lsDcHit | lsMisaligned | lsBnkConfLoad | lsBnkConfStore
  | lsStlForwarded | lsStlCancelled | lsUcMemAccess | lsWcMemAccess | lsLockedOp
  | lsMabHit | lsL1Dtlb4k | lsL1Dtlb2m | lsL1Dtlb1g | lsL1DtlbRes
  | lsL2Dtlb4k | lsL2Dtlb2m | lsL2Dtlb1g | lsL2DtlbRes2 | lsDcLoadLat
  | nbLocal | nbRemote | nbLocalL3 | nbLocalCache | nbRemoteCache
  | nbLocalDram | nbRemoteDram | nbLocalOther | nbRemoteOther
  | nbCacheStateM | nbCacheStateO | nbLocalLatency | nbRemoteLatency
  deriving DecidableEq

/-- The four groups, each with a selection flag of its own. -/
inductive IbsGroup
  | fetch | op | opLs | opNb
  deriving DecidableEq

/-- `IBS_FETCH_BASE`, `IBS_OP_BASE`, `IBS_OP_LS_BASE` and `IBS_OP_NB_BASE`. -/
def IbsGroup.base : IbsGroup → UInt32
  | .fetch => 0xf000
  | .op => 0xf100
  | .opLs => 0xf200
  | .opNb => 0xf240

/-- The group of an event and its place there. -/
def DerivedEvent.place : DerivedEvent → IbsGroup × UInt32
  | .fetchAll => (.fetch, 0) | .fetchKilled => (.fetch, 1) | .fetchAttempted => (.fetch, 2)
  | .fetchCompleted => (.fetch, 3) | .fetchAborted => (.fetch, 4) | .l1ItlbHit => (.fetch, 5)
  | .itlbL1mL2h => (.fetch, 6) | .itlbL1mL2m => (.fetch, 7) | .icMiss => (.fetch, 8) | .icHit => (.fetch, 9)
  | .fetch4kPage => (.fetch, 10) | .fetch2mPage => (.fetch, 11) | .fetch1gPage => (.fetch, 12)
  | .fetchXxPage => (.fetch, 13) | .fetchLatency => (.fetch, 14)
  | .opAll => (.op, 0) | .opTagToRetire => (.op, 1) | .opCompToRetire => (.op, 2) | .branchRetired => (.op, 3)
  | .branchMisp => (.op, 4) | .branchTaken => (.op, 5) | .branchMispTaken => (.op, 6) | .ret => (.op, 7)
  | .returnMisp => (.op, 8) | .resync => (.op, 9)
  | .lsAllOp => (.opLs, 0) | .lsLoadOp => (.opLs, 1) | .lsStoreOp => (.opLs, 2) | .lsDtlbL1h => (.opLs, 3)
  | .lsDtlbL1mL2h => (.opLs, 4) | .lsDtlbL1mL2m => (.opLs, 5) | .lsDcMiss => (.opLs, 6) | .lsDcHit => (.opLs, 7)
  | .lsMisaligned => (.opLs, 8) | .lsBnkConfLoad => (.opLs, 9) | .lsBnkConfStore => (.opLs, 10)
  | .lsStlForwarded => (.opLs, 11) | .lsStlCancelled => (.opLs, 12) | .lsUcMemAccess => (.opLs, 13)
  | .lsWcMemAccess => (.opLs, 14) | .lsLockedOp => (.opLs, 15) | .lsMabHit => (.opLs, 16)
  | .lsL1Dtlb4k => (.opLs, 17) | .lsL1Dtlb2m => (.opLs, 18) | .lsL1Dtlb1g => (.opLs, 19)
  | .lsL1DtlbRes => (.opLs, 20) | .lsL2Dtlb4k => (.opLs, 21) | .lsL2Dtlb2m => (.opLs, 22)
  | .lsL2Dtlb1g => (.opLs, 23) | .lsL2DtlbRes2 => (.opLs, 24) | .lsDcLoadLat => (.opLs, 25)
  | .nbLocal => (.opNb, 0) | .nbRemote => (.opNb, 1) | .nbLocalL3 => (.opNb, 2) | .nbLocalCache => (.opNb, 3)
  | .nbRemoteCache => (.opNb, 4) | .nbLocalDram => (.opNb, 5) | .nbRemoteDram => (.opNb, 6)
  | .nbLocalOther => (.opNb, 7) | .nbRemoteOther => (.opNb, 8) | .nbCacheStateM => (.opNb, 9)
  | .nbCacheStateO => (.opNb, 10) | .nbLocalLatency => (.opNb, 11) | .nbRemoteLatency => (.opNb, 12)

/-- The event select value. -/
def DerivedEvent.select (e : DerivedEvent) : UInt32 := e.place.1.base + e.place.2

/-- `ibs_fetch_selected_flag`, `ibs_op_selected_flag`, `ibs_op_ls_selected_flag` and `ibs_op_nb_selected_flag`. -/
abbrev SelectedFlags := IbsGroup → UInt32

/-- `CHECK_FETCH_SELECTED_FLAG` and its siblings. -/
def isSelected (flags : SelectedFlags) (e : DerivedEvent) : Bool := flags e.place.1 &&& (1 <<< e.place.2) != 0

/-- One block of a translator: an event, when it is logged if it is selected, and with which count. -/
structure Block where
  event : DerivedEvent
  when : Bool
  count : UInt32

/-- `AGG_IBS_EVENT` behind its condition. -/
def aggIbsEvent (event : DerivedEvent) (when : Bool) : Block := ⟨event, when, 1⟩

/-- `AGG_IBS_COUNT` behind its condition. -/
def aggIbsCount (event : DerivedEvent) (when : Bool) (count : UInt32) : Block := ⟨event, when, count⟩

/-- What is passed to `sfile_log_sample_count`. -/
abbrev Logged := List (DerivedEvent × UInt32)

/-- The blocks of a translator, one after the other. -/
def runBlocks (flags : SelectedFlags) (blocks : List Block) : Logged :=
  blocks.filterMap fun b => if isSelected flags b.event && b.when then some (b.event, b.count) else none

/-- Whether a word has one of the bits of a mask. -/
def bits (word mask : UInt32) : Bool := word &&& mask != 0

namespace IbsFetchSample

variable (x : IbsFetchSample)

def fetchLatency : UInt32 := x.ibsFetchCtlHigh &&& 0x0000ffff
def fetchCompletion : Bool := bits x.ibsFetchCtlHigh 0x00040000
def instCacheMiss : Bool := bits x.ibsFetchCtlHigh 0x00080000
def physAddrValid : Bool := bits x.ibsFetchCtlHigh 0x00100000
def tlbPageSize : UInt32 := (x.ibsFetchCtlHigh >>> 21) &&& 0x3
def tlbPageSize4k : Bool := x.tlbPageSize == 0
def tlbPageSize2m : Bool := x.tlbPageSize == 1
def tlbPageSize1g : Bool := x.tlbPageSize == 2
def mL1TlbMiss : Bool := bits x.ibsFetchCtlHigh 0x00800000
def l2TlbMiss : Bool := bits x.ibsFetchCtlHigh 0x01000000

/-- None of the bits of `FETCH_MASK_KILLED`. -/
def killed : Bool :=
  !bits x.ibsFetchCtlHigh (0x00800000 ||| 0x01000000 ||| 0x00100000 ||| 0x00040000 ||| 0x00080000)

def instCacheHit : Bool := x.fetchCompletion && !x.instCacheMiss
def l1TlbHit : Bool := !x.mL1TlbMiss && x.physAddrValid
def itlbL1mL2h : Bool := x.mL1TlbMiss && !x.l2TlbMiss
def itlbL1mL2m : Bool := x.mL1TlbMiss && x.l2TlbMiss

end IbsFetchSample

namespace IbsOpSample

variable (x : IbsOpSample)

def comToRetireCycles : UInt32 := x.ibsOpData1Low &&& 0x0000ffff
def tagToRetireCycles : UInt32 := (x.ibsOpData1Low >>> 16) &&& 0x0000ffff
def branchResync : Bool := bits x.ibsOpData1High 0x00000001
def return_ : Bool := bits x.ibsOpData1High 0x00000004
def branchTaken : Bool := bits x.ibsOpData1High 0x00000008
def branchMispredict : Bool := bits x.ibsOpData1High 0x00000010
def branchRetired : Bool := bits x.ibsOpData1High 0x00000020
def ripInvalid : Bool := bits x.ibsOpData1High 0x00000040
def nbIbsCacheHitSt : Bool := bits x.ibsOpData2Low 0x00000020
def nbIbsReqDstProc : Bool := bits x.ibsOpData2Low 0x00000010
def nbIbsReqSrc : UInt32 := x.ibsOpData2Low &&& 0x00000007
def nbIbsReqSrc01 : Bool := x.nbIbsReqSrc == 1
def nbIbsReqSrc02 : Bool := x.nbIbsReqSrc == 2
def nbIbsReqSrc03 : Bool := x.nbIbsReqSrc == 3
def nbIbsReqSrc07 : Bool := x.nbIbsReqSrc == 7
def dcMissLatency : UInt32 := x.ibsOpData3High &&& 0xffff
def ibsLdOp : Bool := bits x.ibsOpData3Low 0x00000001
def ibsStOp : Bool := bits x.ibsOpData3Low 0x00000002
def ibsDcL1TlbMiss : Bool := bits x.ibsOpData3Low 0x00000004
def ibsDcL2TlbMiss : Bool := bits x.ibsOpData3Low 0x00000008
def ibsDcL1TlbHit2mb : Bool := bits x.ibsOpData3Low 0x00000010
def ibsDcL1TlbHit1gb : Bool := bits x.ibsOpData3Low 0x00000020
def ibsDcL2TlbHit2mb : Bool := bits x.ibsOpData3Low 0x00000040
def ibsDcMiss : Bool := bits x.ibsOpData3Low 0x00000080
def ibsDcMissAcc : Bool := bits x.ibsOpData3Low 0x00000100
def ibsDcLdBnkCon : Bool := bits x.ibsOpData3Low 0x00000200
def ibsDcStBnkCon : Bool := bits x.ibsOpData3Low 0x00000400
def ibsDcStToLdFwd : Bool := bits x.ibsOpData3Low 0x00000800
def ibsDcStToLdCan : Bool := bits x.ibsOpData3Low 0x00001000
def ibsDcWcMemAcc : Bool := bits x.ibsOpData3Low 0x00002000
def ibsDcUcMemAcc : Bool := bits x.ibsOpData3Low 0x00004000
def ibsLockedOp : Bool := bits x.ibsOpData3Low 0x00008000
def ibsDcMabHit : Bool := bits x.ibsOpData3Low 0x00010000
def ibsDcLinAddrValid : Bool := bits x.ibsOpData3Low 0x00020000
def ibsDcL2TlbHit1gb : Bool := bits x.ibsOpData3Low 0x00080000

end IbsOpSample

/-- The blocks of `trans_ibs_fetch`. -/
def fetchBlocks (x : IbsFetchSample) : List Block :=
  [ aggIbsEvent .fetchAll true
  , aggIbsEvent .fetchKilled x.killed
  , aggIbsEvent .fetchAttempted true
  , aggIbsEvent .fetchCompleted x.fetchCompletion
  , aggIbsEvent .fetchAborted (!x.fetchCompletion)
  , aggIbsEvent .l1ItlbHit x.l1TlbHit
  , aggIbsEvent .itlbL1mL2h x.itlbL1mL2h
  , aggIbsEvent .itlbL1mL2m x.itlbL1mL2m
  , aggIbsEvent .icMiss x.instCacheMiss
  , aggIbsEvent .icHit x.instCacheHit
  , aggIbsEvent .fetch4kPage (x.physAddrValid && x.tlbPageSize4k)
  , aggIbsEvent .fetch2mPage (x.physAddrValid && x.tlbPageSize2m)
  , aggIbsEvent .fetch1gPage (x.physAddrValid && x.tlbPageSize1g)
  , aggIbsEvent .fetchXxPage false
  , aggIbsCount .fetchLatency (x.fetchLatency != 0) x.fetchLatency ]

/-- `trans_ibs_fetch` -/
def transIbsFetch (flags : SelectedFlags) (x : IbsFetchSample) : Logged :=
  if flags .fetch = 0 then [] else runBlocks flags (fetchBlocks x)

/-- The blocks of `trans_ibs_op`. -/
def opBlocks (x : IbsOpSample) : List Block :=
  [ aggIbsEvent .opAll true
  , aggIbsCount .opTagToRetire (x.tagToRetireCycles != 0) x.tagToRetireCycles
  , aggIbsCount .opCompToRetire (x.comToRetireCycles != 0) x.comToRetireCycles
  , aggIbsEvent .branchRetired x.branchRetired
  , aggIbsEvent .branchMisp (x.branchRetired && x.branchMispredict)
  , aggIbsEvent .branchTaken (x.branchRetired && x.branchTaken)
  , aggIbsEvent .branchMispTaken (x.branchRetired && x.branchTaken && x.branchMispredict)
  , aggIbsEvent .ret (x.branchRetired && x.return_)
  , aggIbsEvent .returnMisp (x.branchRetired && x.return_ && x.branchMispredict)
  , aggIbsEvent .resync x.branchResync ]

/-- `trans_ibs_op` -/
def transIbsOp (flags : SelectedFlags) (x : IbsOpSample) : Logged :=
  if flags .op = 0 then [] else runBlocks flags (opBlocks x)

/-- The blocks of `trans_ibs_op_ls`. -/
def opLsBlocks (x : IbsOpSample) : List Block :=
  [ aggIbsEvent .lsAllOp true
  , aggIbsEvent .lsLoadOp x.ibsLdOp
  , aggIbsEvent .lsStoreOp x.ibsStOp
  , aggIbsEvent .lsDtlbL1h (x.ibsDcLinAddrValid && !x.ibsDcL1TlbMiss)
  , aggIbsEvent .lsDtlbL1mL2h (x.ibsDcLinAddrValid && x.ibsDcL1TlbMiss && !x.ibsDcL2TlbMiss)
  , aggIbsEvent .lsDtlbL1mL2m (x.ibsDcLinAddrValid && x.ibsDcL1TlbMiss && x.ibsDcL2TlbMiss)
  , aggIbsEvent .lsDcMiss x.ibsDcMiss
  , aggIbsEvent .lsDcHit (!x.ibsDcMiss)
  , aggIbsEvent .lsMisaligned x.ibsDcMissAcc
  , aggIbsEvent .lsBnkConfLoad x.ibsDcLdBnkCon
  , aggIbsEvent .lsBnkConfStore x.ibsDcStBnkCon
  , aggIbsEvent .lsStlForwarded (x.ibsLdOp && x.ibsDcStToLdFwd)
  , aggIbsEvent .lsStlCancelled (x.ibsLdOp && x.ibsDcStToLdCan)
  , aggIbsEvent .lsUcMemAccess x.ibsDcUcMemAcc
  , aggIbsEvent .lsWcMemAccess x.ibsDcWcMemAcc
  , aggIbsEvent .lsLockedOp x.ibsLockedOp
  , aggIbsEvent .lsMabHit x.ibsDcMabHit
  , aggIbsEvent .lsL1Dtlb4k
      (x.ibsDcLinAddrValid && !x.ibsDcL1TlbMiss && !x.ibsDcL1TlbHit2mb && !x.ibsDcL1TlbHit1gb)
  , aggIbsEvent .lsL1Dtlb2m (x.ibsDcLinAddrValid && !x.ibsDcL1TlbMiss && x.ibsDcL1TlbHit2mb)
  , aggIbsEvent .lsL1Dtlb1g
      (x.ibsDcLinAddrValid && !x.ibsDcL1TlbMiss && !x.ibsDcL1TlbHit2mb && x.ibsDcL1TlbHit1gb)
  , aggIbsEvent .lsL1DtlbRes false
  , aggIbsEvent .lsL2Dtlb4k
      (x.ibsDcLinAddrValid && x.ibsDcL1TlbMiss && !x.ibsDcL2TlbMiss && !x.ibsDcL2TlbHit2mb && !x.ibsDcL2TlbHit1gb)
  , aggIbsEvent .lsL2Dtlb2m
      (x.ibsDcLinAddrValid && x.ibsDcL1TlbMiss && !x.ibsDcL2TlbMiss && x.ibsDcL2TlbHit2mb && !x.ibsDcL2TlbHit1gb)
  , aggIbsEvent .lsL2Dtlb1g
      (x.ibsDcLinAddrValid && x.ibsDcL1TlbMiss && !x.ibsDcL2TlbMiss && !x.ibsDcL2TlbHit2mb && x.ibsDcL2TlbHit1gb)
  , aggIbsEvent .lsL2DtlbRes2 false
  , aggIbsCount .lsDcLoadLat (x.ibsLdOp && x.ibsDcMiss) x.dcMissLatency ]

/-- `trans_ibs_op_ls` -/
def transIbsOpLs (flags : SelectedFlags) (x : IbsOpSample) : Logged :=
  if !x.ibsLdOp && !x.ibsStOp then []
  else if flags .opLs = 0 then []
  else runBlocks flags (opLsBlocks x)

/-- The blocks of `trans_ibs_op_nb`. -/
def opNbBlocks (x : IbsOpSample) : List Block :=
  [ aggIbsEvent .nbLocal (!x.nbIbsReqDstProc)
  , aggIbsEvent .nbRemote x.nbIbsReqDstProc
  , aggIbsEvent .nbLocalL3 (!x.nbIbsReqDstProc && x.nbIbsReqSrc01)
  , aggIbsEvent .nbLocalCache (!x.nbIbsReqDstProc && x.nbIbsReqSrc02)
  , aggIbsEvent .nbRemoteCache (x.nbIbsReqDstProc && x.nbIbsReqSrc02)
  , aggIbsEvent .nbLocalDram (!x.nbIbsReqDstProc && x.nbIbsReqSrc03)
  , aggIbsEvent .nbRemoteDram (x.nbIbsReqDstProc && x.nbIbsReqSrc03)
  , aggIbsEvent .nbLocalOther (!x.nbIbsReqDstProc && x.nbIbsReqSrc07)
  , aggIbsEvent .nbRemoteOther (x.nbIbsReqDstProc && x.nbIbsReqSrc07)
  , aggIbsEvent .nbCacheStateM (x.nbIbsReqSrc02 && !x.nbIbsCacheHitSt)
  , aggIbsEvent .nbCacheStateO (x.nbIbsReqSrc02 && x.nbIbsCacheHitSt)
  , aggIbsCount .nbLocalLatency (!x.nbIbsReqDstProc) x.dcMissLatency
  , aggIbsCount .nbRemoteLatency x.nbIbsReqDstProc x.dcMissLatency ]

/-- `trans_ibs_op_nb` -/
def transIbsOpNb (flags : SelectedFlags) (x : IbsOpSample) : Logged :=
  if flags .opNb = 0 then []
  else if !x.ibsLdOp then []
  else if !x.ibsDcMiss then []
  else if x.nbIbsReqSrc = 0 then []
  else runBlocks flags (opNbBlocks x)

/-- `trans_ibs_op_mask_reserved` -/
def transIbsOpMaskReserved (family : UInt32) (x : IbsOpSample) : IbsOpSample :=
  if family = 0x10 then { x with ibsOpData1High := x.ibsOpData1High &&& ~~~0x00000040 }
  else if family = 0x12 then
    { x with ibsOpData2Low := x.ibsOpData2Low &&& ~~~0x00000010 &&& ~~~0x00000020 }
  else if family = 0x14 then
    { x with
      ibsOpData2Low := x.ibsOpData2Low &&& ~~~0x00000010 &&& ~~~0x00000020
      ibsOpData3Low := x.ibsOpData3Low &&& ~~~0x00000020 &&& ~~~0x00000200 &&& ~~~0x00000400 &&& ~~~0x00001000 &&&
        ~~~0x00080000 }
  else x

/-- `opd_log_ibs_fetch` -/
def opdLogIbsFetch (flags : SelectedFlags) (x : IbsFetchSample) : Logged := transIbsFetch flags x

/-- `opd_log_ibs_op` without the lines of the memory access and branch target logs. -/
def opdLogIbsOp (family : UInt32) (flags : SelectedFlags) (x : IbsOpSample) : Logged :=
  let x := transIbsOpMaskReserved family x
  if x.ripInvalid then []
  else transIbsOp flags x ++ transIbsOpLs flags x ++ transIbsOpNb flags x

/-- A sample of either kind. -/
inductive IbsSample
  | fetch (x : IbsFetchSample)
  | op (x : IbsOpSample)
  deriving DecidableEq

def logSample (family : UInt32) (flags : SelectedFlags) : IbsSample → Logged
  | .fetch x => opdLogIbsFetch flags x
  | .op x => opdLogIbsOp family flags x

end Oprofile.Daemon

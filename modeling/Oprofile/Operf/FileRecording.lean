import Oprofile.Operf.HeaderRoundTrip
import Oprofile.Operf.PipeReader

/-! Recording to a file and reading its records back (`operf_counter.h`, `operf_counter.cpp`,
`operf_utils.cpp`). -/
namespace Oprofile.Operf

open ByteMem Records

variable {n : Nat}

/-- What an `operf_record` that writes to a file keeps. -/
structure OperfRecord (n : Nat) where
  opHeader : OpHeader n
  outputFd : OutFd
  totalBytesRecorded : UInt32

/-- The `int` that `op_write_output` returns. -/
def bytesWritten (bs : List UInt8) : Int32 := Int32.ofNat bs.length

/-- `add_to_total`. -/
def addToTotal (r : OperfRecord n) (num : Int32) : OperfRecord n :=
  { r with totalBytesRecorded := r.totalBytesRecorded + num.toUInt32 }

/-- The `int` that `_write_header_to_file` returns. -/
def headerTotal (evtsSize : Nat) (h : OpHeader n) : Int32 :=
  let total := (List.range evtsSize).foldl
    (fun total i => total + bytesWritten (u64.encodeAll (h.hAttrs i).ids)) 0
  let total := (List.range evtsSize).foldl
    (fun total i => total + bytesWritten ((fileAttrFormat n).encode (fileAttr h i))) total
  total + Int32.ofNat sizeofFileHeader

/-- `write_op_header_info`. -/
def writeOpHeaderInfo (opMagic : UInt64) (evtsSize : Nat) (r : OperfRecord n) : OperfRecord n :=
  let (h, o) := writeHeaderToFile opMagic evtsSize r.opHeader r.outputFd
  addToTotal { r with opHeader := h, outputFd := o } (headerTotal evtsSize r.opHeader)

/-- `add_to_total(op_write_output(output_fd, bs))`, as for every record. -/
def recordBytes (r : OperfRecord n) (bs : List UInt8) : OperfRecord n :=
  addToTotal { r with outputFd := opWriteOutput r.outputFd bs } (bytesWritten bs)

/-- `~operf_record`. -/
def finishRecord (opMagic : UInt64) (evtsSize : Nat) (r : OperfRecord n) : OperfRecord n :=
  let r := { r with opHeader := { r.opHeader with dataSize := r.totalBytesRecorded.toUInt64 } }
  if r.totalBytesRecorded ≠ 0 then writeOpHeaderInfo opMagic evtsSize r else r

/-- The file of a whole run, once the ids and attributes of `h` are registered: `chunks` is what is
written after the header, piece by piece. -/
def recordedFile (opMagic : UInt64) (evtsSize : Nat) (h : OpHeader n) (chunks : List (List UInt8)) : File :=
  let r : OperfRecord n :=
    { opHeader := { h with dataSize := 0 }, outputFd := ⟨File.empty, 0⟩, totalBytesRecorded := 0 }
  (finishRecord opMagic evtsSize (chunks.foldl recordBytes
    (writeOpHeaderInfo opMagic evtsSize r))).outputFd.file

/-! The reader. -/

/-- How the file is mapped: `MMAP_WINDOW_SZ` and the page size. The window takes any record behind
less than a page. -/
structure Mapping where
  windowSz : Nat
  pgSz : Nat
  pgSz_pos : 0 < pgSz
  fits : pgSz + 65535 ≤ windowSz

/-- `mmap_size`. -/
def mmapSize (mp : Mapping) (fileDataSize : Nat) : Nat :=
  if fileDataSize < mp.windowSz then fileDataSize else mp.windowSz

/-- The moving fields of an `mmap_info`. -/
structure MmapInfo where
  offset : Nat
  head : Nat

/-- The pages in front of `head` are left out of the mapping. -/
def MmapInfo.shift (pgSz : Nat) (info : MmapInfo) : MmapInfo :=
  let shift := pgSz * (info.head / pgSz)
  { offset := info.offset + shift, head := info.head - shift }

/-- `_get_perf_event_from_file`; nothing when it maps the file more than `fuel` times. -/
def getPerfEventFromFile (mp : Mapping) (f : File) (fileDataSize : Nat) :
    Nat → MmapInfo → Option (Option (List UInt8) × MmapInfo)
  | 0, _ => none
  | fuel + 1, info =>
    if fileDataSize < info.offset + info.head + sizeofPerfEventHeader then some (none, info)
    else
      let size := headerSize f.byte (info.offset + info.head)
      if info.head + sizeofPerfEventHeader ≤ mmapSize mp fileDataSize ∧
          info.head + size ≤ mmapSize mp fileDataSize then
        some (some (load f.byte (info.offset + info.head) size), { info with head := info.head + size })
      else getPerfEventFromFile mp f fileDataSize fuel (info.shift mp.pgSz)

/-- The events up to the first `NULL`; nothing when that does not come within `k` calls. A call maps
the file once more at most. -/
def eventsFromFile (mp : Mapping) (f : File) (fileDataSize : Nat) :
    Nat → MmapInfo → Option (List (List UInt8))
  | 0, _ => none
  | k + 1, info =>
    match getPerfEventFromFile mp f fileDataSize 2 info with
    | none => none
    | some (none, _) => some []
    | some (some event, info) => (eventsFromFile mp f fileDataSize k info).map (event :: ·)

/-- The events that `convertPerfData` reads from a file with the header `h`. -/
def convertPerfDataFile (mp : Mapping) (f : File) (h : OpHeader n) : Option (List (List UInt8)) :=
  let info : MmapInfo := { offset := 0, head := h.dataOffset }
  eventsFromFile mp f h.dataSize.toNat (f.size + 1) (info.shift mp.pgSz)

end Oprofile.Operf

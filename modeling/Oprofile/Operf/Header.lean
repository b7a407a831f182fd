import Oprofile.Library.Records
import Oprofile.Library.Pipe

/-! The header of the profile data, as operf writes and reads it (`operf_counter.cpp`,
`operf_event.h`). -/
namespace Oprofile.Operf

open ByteMem Records Pipe

def opMaxNumEvents : Nat := 512

structure OpFileSection where
  size : UInt64
  offset : UInt64
  deriving DecidableEq, Inhabited

/-- A `perf_event_attr` is copied as it lies in memory; `n` is its size. -/
abbrev PerfEventAttr (n : Nat) := { bs : List UInt8 // bs.length = n }

structure OpFileAttr (n : Nat) where
  attr : PerfEventAttr n
  ids : OpFileSection

structure OpFileHeader where
  magic : UInt64
  size : UInt64
  attrSize : UInt64
  attrs : OpFileSection
  data : OpFileSection

structure OpHeaderEvtInfo (n : Nat) where
  attr : PerfEventAttr n
  ids : List UInt64
  idOffset : Nat

/-- `h_attrs` has `OP_MAX_NUM_EVENTS` elements; entries past them are never looked at. -/
structure OpHeader (n : Nat) where
  hAttrs : Nat → OpHeaderEvtInfo n
  attrOffset : Nat
  dataOffset : Nat
  dataSize : UInt64

/-! The structures as they lie in memory. -/

def sectionFormat : Format OpFileSection :=
  (u64.pair u64).map (fun p => ⟨p.1, p.2⟩) (fun s => (s.size, s.offset)) fun _ => rfl

def fileAttrFormat (n : Nat) : Format (OpFileAttr n) :=
  ((raw n).pair sectionFormat).map (fun p => ⟨p.1, p.2⟩) (fun a => (a.attr, a.ids)) fun _ => rfl

def fileHeaderFormat : Format OpFileHeader :=
  (u64.pair (u64.pair (u64.pair (sectionFormat.pair sectionFormat)))).map
    (fun p => ⟨p.1, p.2.1, p.2.2.1, p.2.2.2.1, p.2.2.2.2⟩)
    (fun h => (h.magic, h.size, h.attrSize, h.attrs, h.data)) fun _ => rfl

def sizeofFileHeader : Nat := fileHeaderFormat.width

def sizeofFileAttr (n : Nat) : Nat := (fileAttrFormat n).width

variable {n : Nat}

/-- The output file and the position of the next write. -/
structure OutFd where
  file : File
  pos : Nat

/-- `op_write_output` goes on until everything is written. -/
def opWriteOutput (o : OutFd) (bs : List UInt8) : OutFd := ⟨pwrite o.file o.pos bs, o.pos + bs.length⟩

def lseek (o : OutFd) (pos : Nat) : OutFd := { o with pos := pos }

/-- One round of the loop that writes the ids and notes where they start. -/
def writeEventIds (s : OpHeader n × OutFd) (i : Nat) : OpHeader n × OutFd :=
  ({ s.1 with
      hAttrs := fun j =>
        if j = i then { s.1.hAttrs j with idOffset := s.2.pos } else s.1.hAttrs j },
    opWriteOutput s.2 (u64.encodeAll (s.1.hAttrs i).ids))

/-- The attribute record of an event in the file. -/
def fileAttr (h : OpHeader n) (i : Nat) : OpFileAttr n where
  attr := (h.hAttrs i).attr
  ids :=
    { size := UInt64.ofNat ((h.hAttrs i).ids.length * 8)
      offset := UInt64.ofNat (h.hAttrs i).idOffset }

def writeEventAttr (h : OpHeader n) (o : OutFd) (i : Nat) : OutFd :=
  opWriteOutput o ((fileAttrFormat n).encode (fileAttr h i))

/-- `_write_header_to_file`: ids, attributes, and last the header in front of them. -/
def writeHeaderToFile (opMagic : UInt64) (evtsSize : Nat) (h : OpHeader n) (o : OutFd) :
    OpHeader n × OutFd :=
  let o := lseek o sizeofFileHeader
  let (h, o) := (List.range evtsSize).foldl writeEventIds (h, o)
  let h := { h with attrOffset := o.pos }
  let o := (List.range evtsSize).foldl (writeEventAttr h) o
  let h := { h with dataOffset := o.pos }
  let fHeader : OpFileHeader :=
    { magic := opMagic
      size := UInt64.ofNat sizeofFileHeader
      attrSize := UInt64.ofNat (sizeofFileAttr n)
      attrs :=
        { size := UInt64.ofNat (evtsSize * sizeofFileAttr n)
          offset := UInt64.ofNat h.attrOffset }
      data := { size := h.dataSize, offset := UInt64.ofNat h.dataOffset } }
  let o := opWriteOutput (lseek o 0) (fileHeaderFormat.encode fHeader)
  (h, lseek o (h.dataOffset + h.dataSize.toNat))

/-- `_write_header_to_pipe`. The offsets are never set: `attrsOffset`, `dataOffset` and
`idsOffset` are what the stack happens to hold. -/
def writeHeaderToPipe (opMagic attrsOffset dataOffset idsOffset : UInt64) (evtsSize : Nat)
    (h : OpHeader n) : List UInt8 :=
  let fHeader : OpFileHeader :=
    { magic := opMagic
      size := UInt64.ofNat sizeofFileHeader
      attrSize := UInt64.ofNat (sizeofFileAttr n)
      attrs := { size := UInt64.ofNat (evtsSize * sizeofFileAttr n), offset := attrsOffset }
      data := { size := 0, offset := dataOffset } }
  let fAttr (i : Nat) : OpFileAttr n :=
    { attr := (h.hAttrs i).attr
      ids := { size := UInt64.ofNat ((h.hAttrs i).ids.length * 8), offset := idsOffset } }
  fileHeaderFormat.encode fHeader ++ (fileAttrFormat n).encodeAll ((List.range evtsSize).map fAttr) ++
    (List.range evtsSize).flatMap fun i => u64.encodeAll (h.hAttrs i).ids

/-- `OP_PERF_HANDLED_ERROR`, by the message printed; `outOfBounds` is an access past `h_attrs`. -/
inductive HeaderError
  | notEnoughData
  | notHeaderData
  | binaryIncompatibility
  | unexpectedEnd
  | readingHeader
  | readingFileAttr
  | readingPerfId
  | outOfBounds
  deriving DecidableEq

/-- Rounds of `for (int i = 0; i < num; i++)` where `num` is an `int` set from `v`: none when it
comes out negative. -/
def intRounds (v : Nat) : Nat := if v % 2 ^ 32 < 2 ^ 31 then v % 2 ^ 32 else 0

def pushIds (h : OpHeader n) (i : Nat) (ids : List UInt64) : OpHeader n :=
  { h with
    hAttrs := fun j =>
      if j = i then { h.hAttrs j with ids := (h.hAttrs j).ids ++ ids } else h.hAttrs j }

def setAttr (h : OpHeader n) (i : Nat) (attr : PerfEventAttr n) : OpHeader n :=
  { h with hAttrs := fun j => if j = i then { h.hAttrs j with attr := attr } else h.hAttrs j }

/-- The ids of one event, read one by one from a position of the file. -/
def readFileIds (f : File) : Nat → Nat → Except HeaderError (List UInt64)
  | 0, _ => .ok []
  | k + 1, pos =>
    let bs := pread f pos 8
    if bs.length ≠ 8 then .error .unexpectedEnd
    else (readFileIds f k (pos + 8)).map (u64.decode bs :: ·)

/-- One round of the loop over the attributes; the position is that of the next attribute. -/
def readFileAttr (f : File) (s : OpHeader n × Nat) (i : Nat) :
    Except HeaderError (OpHeader n × Nat) :=
  let bs := pread f s.2 (sizeofFileAttr n)
  if bs.length ≠ sizeofFileAttr n then .error .unexpectedEnd
  else if opMaxNumEvents ≤ i then .error .outOfBounds
  else
    let fAttr := (fileAttrFormat n).decode bs
    match readFileIds f (intRounds (fAttr.ids.size / 8).toNat) fAttr.ids.offset.toNat with
    | .error e => .error e
    | .ok ids => .ok (pushIds (setAttr s.1 i fAttr.attr) i ids, s.2 + sizeofFileAttr n)

/-- `_read_header_info_with_ifstream`. -/
def readHeaderInfoWithIfstream (opMagic : UInt64) (f : File) (h : OpHeader n) :
    Except HeaderError (OpHeader n) :=
  let bs := pread f 0 sizeofFileHeader
  if bs.length ≠ sizeofFileHeader then .error .notEnoughData
  else
    let fheader := fileHeaderFormat.decode bs
    if fheader.magic ≠ opMagic then .error .notHeaderData
    else
      let h := { h with
        attrOffset := fheader.attrs.offset.toNat
        dataOffset := fheader.data.offset.toNat
        dataSize := fheader.data.size }
      if UInt64.ofNat (sizeofFileAttr n) ≠ fheader.attrSize then .error .binaryIncompatibility
      else
        let numFattrs := intRounds (fheader.attrs.size / fheader.attrSize).toNat
        ((List.range numFattrs).foldlM (readFileAttr f) (h, h.attrOffset)).map Prod.fst

/-- A `read` from the pipe that has to deliver all of `k` bytes. -/
def readPipe (e : HeaderError) (p : ReadEnd) (k : Nat) :
    Except HeaderError (List UInt8 × ReadEnd) :=
  match Pipe.read p k with
  | (.data bs, p) => if bs.length ≠ k then .error e else .ok (bs, p)
  | _ => .error e

/-- One round of the loop over the attributes, which also keeps them in `f_attr_cache`. -/
def readPipeAttr (s : OpHeader n × List (OpFileAttr n) × ReadEnd) (i : Nat) :
    Except HeaderError (OpHeader n × List (OpFileAttr n) × ReadEnd) :=
  match readPipe .readingFileAttr s.2.2 (sizeofFileAttr n) with
  | .error e => .error e
  | .ok (bs, p) =>
    if opMaxNumEvents ≤ i then .error .outOfBounds
    else
      let fAttr := (fileAttrFormat n).decode bs
      .ok (setAttr s.1 i fAttr.attr, s.2.1 ++ [fAttr], p)

def readPipeIds : Nat → ReadEnd → Except HeaderError (List UInt64 × ReadEnd)
  | 0, p => .ok ([], p)
  | k + 1, p =>
    match readPipe .readingPerfId p 8 with
    | .error e => .error e
    | .ok (bs, p) => (readPipeIds k p).map fun r => (u64.decode bs :: r.1, r.2)

/-- One round of the loop over the ids. The iterator starts over at `f_attr_cache.begin()` in
each round, so `fAttr` is always the first event's attribute. -/
def readPipeEventIds (fAttr : OpFileAttr n) (s : OpHeader n × ReadEnd) (i : Nat) :
    Except HeaderError (OpHeader n × ReadEnd) :=
  match readPipeIds (intRounds (fAttr.ids.size / 8).toNat) s.2 with
  | .error e => .error e
  | .ok (ids, p) => .ok (pushIds s.1 i ids, p)

/-- `_read_perf_header_from_pipe`. -/
def readPerfHeaderFromPipe (opMagic : UInt64) (p : ReadEnd) (h : OpHeader n) :
    Except HeaderError (OpHeader n × ReadEnd) :=
  match readPipe .readingHeader p sizeofFileHeader with
  | .error e => .error e
  | .ok (bs, p) =>
    let fheader := fileHeaderFormat.decode bs
    if fheader.magic ≠ opMagic then .error .notHeaderData
    else if UInt64.ofNat (sizeofFileAttr n) ≠ fheader.attrSize then .error .binaryIncompatibility
    else
      let numFattrs := intRounds (fheader.attrs.size / fheader.attrSize).toNat
      match (List.range numFattrs).foldlM readPipeAttr (h, [], p) with
      | .error e => .error e
      | .ok (h, [], p) => .ok (h, p)
      | .ok (h, fAttr :: _, p) => (List.range numFattrs).foldlM (readPipeEventIds fAttr) (h, p)

/-- `get_eventnum_by_perf_event_id`. -/
def getEventnumByPerfEventId (evtsSize : Nat) (h : OpHeader n) (id : UInt64) : Int :=
  match (List.range evtsSize).find? fun i => (h.hAttrs i).ids.contains id with
  | some i => i
  | none => -1

/-- The `opHeader` of a new `operf_read`: no ids, attributes not set. -/
def OpHeader.Fresh (h : OpHeader n) : Prop := ∀ i, (h.hAttrs i).ids = []

/-- The header read has the attributes and the ids of the one written. -/
def Restored (evtsSize : Nat) (h h' : OpHeader n) : Prop :=
  ∀ i, i < evtsSize →
    (h'.hAttrs i).attr = (h.hAttrs i).attr ∧ (h'.hAttrs i).ids = (h.hAttrs i).ids

/-- No id belongs to two events. -/
def IdsDistinct (evtsSize : Nat) (h : OpHeader n) : Prop :=
  ∀ i j, i < evtsSize → j < evtsSize → ∀ id, id ∈ (h.hAttrs i).ids → id ∈ (h.hAttrs j).ids → i = j

/-- Every id leads back to the event it was registered for. -/
def IdsResolved (evtsSize : Nat) (h h' : OpHeader n) : Prop :=
  IdsDistinct evtsSize h → ∀ k, k < evtsSize → ∀ id, id ∈ (h.hAttrs k).ids →
    getEventnumByPerfEventId evtsSize h' id = k

end Oprofile.Operf

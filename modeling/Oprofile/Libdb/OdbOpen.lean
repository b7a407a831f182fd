import Oprofile.Libdb.Sequences

/-! Opening a file again, and what a growth that fails leaves for it (`db_manage.c`). -/
namespace Oprofile.Libdb

open ByteMem IndexChain

variable {d e : OdbData} {i b : Nat} {io : GrowOutcome}

def EIO : Nat := 5

/-- `enum odb_rw` -/
inductive OdbRw
  | rdonly
  | rdwr
  deriving DecidableEq

/-- The `errno` of each system call of `odb_open` that fails. -/
structure OpenErrors where
  openFile : Option Nat
  fstat : Option Nat
  ftruncate : Option Nat
  mmap : Option Nat

def OpenErrors.noError : OpenErrors := ⟨none, none, none, none⟩

/-- The node count that `odb_open` computes from the length of the file. The subtraction is made in `off_t`,
the division in `size_t`, and the result kept in an `unsigned int`. -/
def nodesOfLength (stSize offsetNode : Nat) : Nat :=
  (stSize + 2 ^ 64 - offsetNode) % 2 ^ 64 / (sizeofIndex * bucketFactor + sizeofNode) % 2 ^ 32

/-- `odb_open` of a file that the process has not open yet. -/
def odbOpen (errors : OpenErrors) (rw : OdbRw) (file : File) (sizeofHeader : Nat) : Except Nat OdbData :=
  match errors.openFile, errors.fstat with
  | some err, _ => .error err
  | none, some err => .error err
  | none, none =>
    if file.size = 0 then
      if rw = .rdonly then .error EIO
      else
        match errors.ftruncate, errors.mmap with
        | some err, _ => .error err
        | none, some err => .error err
        | none, none => .ok (odbOpenNew sizeofHeader)
    else
      match errors.mmap with
      | some err => .error err
      | none =>
        let d : OdbData :=
          { file, sizeofHeader, offsetNode := sizeofHeader + sizeofDescr,
            descr := 0, nodeBase := 0, hashBase := 0, hashMask := 0 }
        let d := { d with descr := odbToDescr d }
        if nodesOfLength file.size d.offsetNode ≠ d.size then .error EINVAL
        else
          let d := { d with hashBase := odbToHashBase d }
          let d := { d with nodeBase := odbToNodeBase d }
          .ok { d with hashMask := d.size * bucketFactor - 1 }

/-- A store whose pointers, mask and file length are those of its node count, of whatever size. -/
structure Placed (d : OdbData) : Prop where
  offset : d.offsetNode = d.sizeofHeader + 32
  descr : d.descr = d.sizeofHeader
  node : d.nodeBase = d.offsetNode
  hash : d.hashBase = d.offsetNode + d.size * 16
  mask : d.hashMask = d.size - 1
  size_pos : 0 < d.size
  file : d.file.size = tablesSize d d.size

theorem Layout.placed (h : Layout d) : Placed d :=
  ⟨h.offset, h.descr, h.node, h.hash, h.mask, h.size_pos, h.file.trans (tablesSize_eq h.limit).symm⟩

/-- The sizes of a growth: neither wraps, and the file gets longer. -/
structure SizesExact (d : OdbData) : Prop where
  old : tablesSize d d.size = d.offsetNode + d.size * 20
  new : tablesSize d (d.size * 2 % 2 ^ 32) = d.offsetNode + d.size * 2 * 20
  longer : tablesSize d d.size < tablesSize d (d.size * 2 % 2 ^ 32)

/-- `d'` has the descriptor, the nodes, the hash table and the mask of `d`. -/
structure SameTables (d d' : OdbData) : Prop where
  size : d'.size = d.size
  currentSize : d'.currentSize = d.currentSize
  hashMask : d'.hashMask = d.hashMask
  node : ∀ i, i < d.size → d'.key i = d.key i ∧ d'.value i = d.value i ∧ d'.next i = d.next i
  bucket : ∀ b, b < d.size → d'.bucket b = d.bucket b

theorem SameTables.refl (d : OdbData) : SameTables d d :=
  ⟨rfl, rfl, rfl, fun _ _ => ⟨rfl, rfl, rfl⟩, fun _ _ => rfl⟩

/-- A growth that fails says so, changes nothing in memory, and leaves a file that another process opens with
everything in it. -/
structure FailsHarmlessly (io : GrowOutcome) (d : OdbData) : Prop where
  reported : (odbGrowHashtable io d).1 ≠ 0
  unchanged : SameTables d (odbGrowHashtable io d).2
  reopened : ∀ rw, ∃ d', odbOpen .noError rw (odbGrowHashtable io d).2.file d.sizeofHeader = .ok d' ∧ SameTables d d'

theorem nodesOfLength_eq {offsetNode n : Nat} (h : offsetNode + n * 20 < 2 ^ 32) :
    nodesOfLength (offsetNode + n * 20) offsetNode = n := by
  have hsub : (offsetNode + n * 20 + 2 ^ 64 - offsetNode) % 2 ^ 64 = n * 20 := by omega
  rw [nodesOfLength, hsub]
  simp only [sizeofIndex, bucketFactor, sizeofNode]
  omega

/-- The store that `odb_open` makes of a file which a placed store left behind. -/
theorem odbOpen_existing (h : Placed d) {file : File} (hfile : file.size ≠ 0) (mode : OdbRw) :
    odbOpen .noError mode file d.sizeofHeader =
      if nodesOfLength file.size d.offsetNode ≠ get32 file.byte d.descr then .error EINVAL
      else .ok
        { file, sizeofHeader := d.sizeofHeader, offsetNode := d.offsetNode, descr := d.descr
          nodeBase := d.offsetNode, hashBase := d.offsetNode + get32 file.byte d.descr * 16
          hashMask := get32 file.byte d.descr - 1 } := by
  have ho := h.offset
  have hd := h.descr
  rw [hd, ho, odbOpen]
  simp only [OpenErrors.noError, hfile, if_false]
  have hmask : get32 file.byte d.sizeofHeader * bucketFactor - 1 = get32 file.byte d.sizeofHeader - 1 := by
    rw [bucketFactor, Nat.mul_one]
  rw [← hmask]
  rfl

/-- A file with the length and the bytes of a store gives that store again. -/
theorem odbOpen_self (h : Placed d) (hlim : d.offsetNode + d.size * 20 < 2 ^ 32) (mode : OdbRw) :
    odbOpen .noError mode d.file d.sizeofHeader = .ok d := by
  have hf : d.file.size = d.offsetNode + d.size * 20 := h.file.trans (tablesSize_eq hlim)
  have hp := h.size_pos
  have hsize : get32 d.file.byte d.descr = d.size := rfl
  rw [odbOpen_existing h (by omega) mode, hf, nodesOfLength_eq hlim, hsize, if_neg (not_not.mpr rfl)]
  obtain ⟨file, sizeofHeader, offsetNode, descr, nodeBase, hashBase, hashMask⟩ := d
  have hn : nodeBase = offsetNode := h.node
  have hh : hashBase = offsetNode + OdbData.size ⟨file, sizeofHeader, offsetNode, descr, nodeBase, hashBase, hashMask⟩ * 16 :=
    h.hash
  have hm : hashMask = OdbData.size ⟨file, sizeofHeader, offsetNode, descr, nodeBase, hashBase, hashMask⟩ - 1 := h.mask
  congr 2
  · exact hn.symm
  · exact hh.symm
  · exact hm.symm

/-- The file of a half-finished growth is twice as long as its descriptor says. -/
theorem odbOpen_halfGrown (h : Placed d) (hg : CanGrow d) (mode : OdbRw) :
    odbOpen .noError mode (odbGrowHashtable .mremapFails d).2.file d.sizeofHeader = .error EINVAL := by
  have hlim : d.offsetNode + d.size * 2 * 20 < 2 ^ 32 := hg
  have hp := h.size_pos
  have ho := h.offset
  have hd := h.descr
  have hnew : tablesSize d (d.size * 2 % 2 ^ 32) = d.offsetNode + d.size * 2 * 20 := by
    rw [Nat.mod_eq_of_lt (by omega), tablesSize_eq hlim]
  have hfile : (odbGrowHashtable .mremapFails d).2.file = d.file.truncate (d.offsetNode + d.size * 2 * 20) := by
    rw [odbGrowHashtable, hnew]
  have hold : d.file.size = d.offsetNode + d.size * 20 := h.file.trans (tablesSize_eq (by omega))
  have hdescr : get32 (d.file.truncate (d.offsetNode + d.size * 2 * 20)).byte d.descr = d.size := by
    apply get32_congr
    intro x hx hlt
    exact File.truncate_byte_of_lt (by omega) (by omega)
  rw [hfile, odbOpen_existing h (by rw [File.truncate_size]; omega) mode, File.truncate_size,
    nodesOfLength_eq hlim, hdescr, if_pos (by omega)]

theorem SizesExact.canGrow (h : SizesExact d) : CanGrow d := by
  have hlt : tablesSize d (d.size * 2 % 2 ^ 32) < 2 ^ 32 := Nat.mod_lt _ (by decide)
  have hnew := h.new
  unfold CanGrow
  omega

theorem CanGrow.sizesExact (hg : CanGrow d) (hp : 0 < d.size) : SizesExact d := by
  have hlim : d.offsetNode + d.size * 2 * 20 < 2 ^ 32 := hg
  have hold : tablesSize d d.size = d.offsetNode + d.size * 20 := tablesSize_eq (by omega)
  have hnew : tablesSize d (d.size * 2 % 2 ^ 32) = d.offsetNode + d.size * 2 * 20 := by
    rw [Nat.mod_eq_of_lt (by omega), tablesSize_eq hlim]
  exact ⟨hold, hnew, by omega⟩

theorem ftruncate_failsHarmlessly (h : Placed d) (hg : CanGrow d) : FailsHarmlessly .ftruncateFails d := by
  have hlim : d.offsetNode + d.size * 2 * 20 < 2 ^ 32 := hg
  refine ⟨Nat.one_ne_zero, SameTables.refl d, ?_⟩
  intro mode
  exact ⟨d, odbOpen_self h (by omega) mode, SameTables.refl d⟩

/-- A growth has exact sizes, and is harmless if it fails, if and only if the new length has 32 bits and it is
not `mremap` that fails. -/
theorem growth_exact_iff (d : OdbData) (h : Placed d) (io : GrowOutcome) :
    (SizesExact d ∧ (io ≠ .ok → FailsHarmlessly io d)) ↔ CanGrow d ∧ io ≠ .mremapFails := by
  constructor
  · rintro ⟨hsizes, hfails⟩
    refine ⟨hsizes.canGrow, ?_⟩
    rintro rfl
    obtain ⟨d', hd', -⟩ := (hfails nofun).reopened .rdwr
    rw [odbOpen_halfGrown h hsizes.canGrow .rdwr] at hd'
    cases hd'
  · rintro ⟨hg, hio⟩
    refine ⟨hg.sizesExact h.size_pos, ?_⟩
    intro hok
    cases io with
    | ok => exact absurd rfl hok
    | mremapFails => exact absurd rfl hio
    | ftruncateFails => exact ftruncate_failsHarmlessly h hg

theorem growth_exact_iff_new_file :
    SizesExact (odbOpenNew 40) ∧ FailsHarmlessly .ftruncateFails (odbOpenNew 40) := by
  have hlim : 40 + sizeofDescr + defaultNodeNr * 20 < 2 ^ 32 := by decide
  have hs := (odbOpenNew_size hlim).1
  have hg : CanGrow (odbOpenNew 40) := by
    unfold CanGrow
    rw [hs]
    decide
  obtain ⟨hsizes, hfails⟩ :=
    (growth_exact_iff (odbOpenNew 40) (odbOpenNew_rep hlim).layout.placed .ftruncateFails).mpr ⟨hg, nofun⟩
  exact ⟨hsizes, hfails nofun⟩

/-- When `mremap` fails, the file of 128 nodes has room for 256 and no process opens it again. From 2^27 nodes,
twenty doublings on, the new length wraps and the file would get shorter. -/
theorem growth_leaves_unreadable_file :
    odbOpen .noError .rdonly (odbGrowHashtable .mremapFails (odbOpenNew 40)).2.file 40 = .error EINVAL ∧
    tablesSize (odbOpenNew 40) (2 ^ 27 * 2 % 2 ^ 32) < tablesSize (odbOpenNew 40) (2 ^ 27) := by
  have hlim : 40 + sizeofDescr + defaultNodeNr * 20 < 2 ^ 32 := by decide
  have hs := (odbOpenNew_size hlim).1
  have hg : CanGrow (odbOpenNew 40) := by
    unfold CanGrow
    rw [hs]
    decide
  exact ⟨odbOpen_halfGrown (odbOpenNew_rep hlim).layout.placed hg .rdonly, by decide⟩

end Oprofile.Libdb

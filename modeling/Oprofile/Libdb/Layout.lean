import Oprofile.Libdb.Odb

/-! Where the parts of the store lie in the file, and what each write leaves alone. -/
namespace Oprofile.Libdb

open ByteMem IndexChain

variable {d : OdbData} {i j b c v : Nat}

/-- The pointers, the mask and the file length follow from the header size and the node count. -/
structure Layout (d : OdbData) : Prop where
  offset : d.offsetNode = d.sizeofHeader + 32
  descr : d.descr = d.sizeofHeader
  node : d.nodeBase = d.offsetNode
  hash : d.hashBase = d.offsetNode + d.size * 16
  mask : d.hashMask = d.size - 1
  size_pos : 0 < d.size
  file : d.file.size = d.offsetNode + d.size * 20
  limit : d.offsetNode + d.size * 20 < 2 ^ 32

theorem currentSize_lt (d : OdbData) : d.currentSize < 2 ^ 32 := get32_lt _ _

theorem key_lt (d : OdbData) (i : Nat) : d.key i < 2 ^ 64 := get64_lt _ _

theorem odbDoHash_lt (h : Layout d) (k : Nat) : odbDoHash d k < d.size := by
  have hle : odbDoHash d k ≤ d.hashMask := Nat.and_le_right
  have hm := h.mask
  have hp := h.size_pos
  omega

/-! Node words against node words: no bound on the indices is needed. -/

@[simp] theorem key_setKey_self : (d.setKey i v).key i = v % 2 ^ 64 :=
  get64_put64_self

theorem key_setKey_ne (h : i ≠ j) : (d.setKey i v).key j = d.key j :=
  get64_put64_disjoint (b := d.nodeBase + j * sizeofNode) (by simp only [sizeofNode]; omega)

@[simp] theorem key_setValue : (d.setValue i v).key j = d.key j :=
  get64_put32_disjoint (b := d.nodeBase + j * sizeofNode) (by simp only [sizeofNode]; omega)

@[simp] theorem key_setNext : (d.setNext i v).key j = d.key j :=
  get64_put32_disjoint (b := d.nodeBase + j * sizeofNode) (by simp only [sizeofNode]; omega)

@[simp] theorem value_setValue_self : (d.setValue i v).value i = v % 2 ^ 32 :=
  get32_put32_self

theorem value_setValue_ne (h : i ≠ j) : (d.setValue i v).value j = d.value j :=
  get32_put32_disjoint (b := d.nodeBase + j * sizeofNode + 8) (by simp only [sizeofNode]; omega)

@[simp] theorem value_setKey : (d.setKey i v).value j = d.value j :=
  get32_put64_disjoint (b := d.nodeBase + j * sizeofNode + 8) (by simp only [sizeofNode]; omega)

@[simp] theorem value_setNext : (d.setNext i v).value j = d.value j :=
  get32_put32_disjoint (b := d.nodeBase + j * sizeofNode + 8) (by simp only [sizeofNode]; omega)

@[simp] theorem next_setNext_self : (d.setNext i v).next i = v % 2 ^ 32 :=
  get32_put32_self

theorem next_setNext_ne (h : i ≠ j) : (d.setNext i v).next j = d.next j :=
  get32_put32_disjoint (b := d.nodeBase + j * sizeofNode + 12) (by simp only [sizeofNode]; omega)

@[simp] theorem next_setKey : (d.setKey i v).next j = d.next j :=
  get32_put64_disjoint (b := d.nodeBase + j * sizeofNode + 12) (by simp only [sizeofNode]; omega)

@[simp] theorem next_setValue : (d.setValue i v).next j = d.next j :=
  get32_put32_disjoint (b := d.nodeBase + j * sizeofNode + 12) (by simp only [sizeofNode]; omega)

@[simp] theorem bucket_setBucket_self : (d.setBucket b v).bucket b = v % 2 ^ 32 :=
  get32_put32_self

theorem bucket_setBucket_ne (h : b ≠ c) : (d.setBucket b v).bucket c = d.bucket c :=
  get32_put32_disjoint (b := d.hashBase + c * sizeofIndex) (by simp only [sizeofIndex]; omega)

/-! The hash table lies behind the last node and the descriptor before the first. -/

namespace Layout

theorem key_setBucket (h : Layout d) (hj : j < d.size) :
    (d.setBucket b v).key j = d.key j := by
  have hh := h.hash
  have hn := h.node
  exact get64_put32_disjoint (b := d.nodeBase + j * sizeofNode) (by simp only [sizeofNode]; omega)

theorem value_setBucket (h : Layout d) (hj : j < d.size) :
    (d.setBucket b v).value j = d.value j := by
  have hh := h.hash
  have hn := h.node
  exact get32_put32_disjoint (b := d.nodeBase + j * sizeofNode + 8)
    (by simp only [sizeofNode]; omega)

theorem next_setBucket (h : Layout d) (hj : j < d.size) :
    (d.setBucket b v).next j = d.next j := by
  have hh := h.hash
  have hn := h.node
  exact get32_put32_disjoint (b := d.nodeBase + j * sizeofNode + 12)
    (by simp only [sizeofNode]; omega)

theorem bucket_setKey (h : Layout d) (hi : i < d.size) :
    (d.setKey i v).bucket b = d.bucket b := by
  have hh := h.hash
  have hn := h.node
  exact get32_put64_disjoint (b := d.hashBase + b * sizeofIndex) (by simp only [sizeofNode]; omega)

theorem bucket_setValue (h : Layout d) (hi : i < d.size) :
    (d.setValue i v).bucket b = d.bucket b := by
  have hh := h.hash
  have hn := h.node
  exact get32_put32_disjoint (b := d.hashBase + b * sizeofIndex) (by simp only [sizeofNode]; omega)

theorem bucket_setNext (h : Layout d) (hi : i < d.size) :
    (d.setNext i v).bucket b = d.bucket b := by
  have hh := h.hash
  have hn := h.node
  exact get32_put32_disjoint (b := d.hashBase + b * sizeofIndex) (by simp only [sizeofNode]; omega)

/-- The bytes of the descriptor are out of reach of every node and bucket write. -/
theorem descr_write32 (h : Layout d) {a : Nat} (ha : d.nodeBase ≤ a) :
    (d.write32 a v).size = d.size ∧ (d.write32 a v).currentSize = d.currentSize := by
  have ho := h.offset
  have hd := h.descr
  have hn := h.node
  exact ⟨get32_put32_disjoint (b := d.descr) (by omega),
    get32_put32_disjoint (b := d.descr + 4) (by omega)⟩

theorem descr_write64 (h : Layout d) {a : Nat} (ha : d.nodeBase ≤ a) :
    (d.write64 a v).size = d.size ∧ (d.write64 a v).currentSize = d.currentSize := by
  have ho := h.offset
  have hd := h.descr
  have hn := h.node
  exact ⟨get32_put64_disjoint (b := d.descr) (by omega),
    get32_put64_disjoint (b := d.descr + 4) (by omega)⟩

theorem write32 (h : Layout d) {a : Nat} (ha : d.nodeBase ≤ a) : Layout (d.write32 a v) := by
  have hs := (h.descr_write32 (v := v) ha).1
  exact ⟨h.offset, h.descr, h.node, hs ▸ h.hash, hs ▸ h.mask, hs ▸ h.size_pos, hs ▸ h.file,
    hs ▸ h.limit⟩

theorem write64 (h : Layout d) {a : Nat} (ha : d.nodeBase ≤ a) : Layout (d.write64 a v) := by
  have hs := (h.descr_write64 (v := v) ha).1
  exact ⟨h.offset, h.descr, h.node, hs ▸ h.hash, hs ▸ h.mask, hs ▸ h.size_pos, hs ▸ h.file,
    hs ▸ h.limit⟩

theorem nodeBase_le_hash (h : Layout d) : d.nodeBase ≤ d.hashBase + b * sizeofIndex := by
  have hh := h.hash
  have hn := h.node
  omega

theorem setKey (h : Layout d) : Layout (d.setKey i v) := h.write64 (Nat.le_add_right _ _)

theorem setValue (h : Layout d) : Layout (d.setValue i v) := h.write32 (by omega)

theorem setNext (h : Layout d) : Layout (d.setNext i v) := h.write32 (by omega)

theorem setBucket (h : Layout d) : Layout (d.setBucket b v) := h.write32 h.nodeBase_le_hash

theorem size_setKey (h : Layout d) : (d.setKey i v).size = d.size :=
  (h.descr_write64 (Nat.le_add_right _ _)).1

theorem size_setValue (h : Layout d) : (d.setValue i v).size = d.size :=
  (h.descr_write32 (by omega)).1

theorem size_setNext (h : Layout d) : (d.setNext i v).size = d.size :=
  (h.descr_write32 (by omega)).1

theorem size_setBucket (h : Layout d) : (d.setBucket b v).size = d.size :=
  (h.descr_write32 h.nodeBase_le_hash).1

theorem currentSize_setKey (h : Layout d) : (d.setKey i v).currentSize = d.currentSize :=
  (h.descr_write64 (Nat.le_add_right _ _)).2

theorem currentSize_setValue (h : Layout d) : (d.setValue i v).currentSize = d.currentSize :=
  (h.descr_write32 (by omega)).2

theorem currentSize_setNext (h : Layout d) : (d.setNext i v).currentSize = d.currentSize :=
  (h.descr_write32 (by omega)).2

theorem currentSize_setBucket (h : Layout d) : (d.setBucket b v).currentSize = d.currentSize :=
  (h.descr_write32 h.nodeBase_le_hash).2

/-! Committing a node writes the descriptor only. -/

theorem size_setCurrentSize : (d.setCurrentSize v).size = d.size :=
  get32_put32_disjoint (b := d.descr) (by omega)

theorem currentSize_setCurrentSize : (d.setCurrentSize v).currentSize = v % 2 ^ 32 :=
  get32_put32_self

theorem setCurrentSize (h : Layout d) : Layout (d.setCurrentSize v) := by
  have hs : (d.setCurrentSize v).size = d.size := size_setCurrentSize
  exact ⟨h.offset, h.descr, h.node, hs ▸ h.hash, hs ▸ h.mask, hs ▸ h.size_pos, hs ▸ h.file,
    hs ▸ h.limit⟩

theorem key_setCurrentSize (h : Layout d) : (d.setCurrentSize v).key j = d.key j := by
  have ho := h.offset
  have hd := h.descr
  have hn := h.node
  exact get64_put32_disjoint (b := d.nodeBase + j * sizeofNode) (by omega)

theorem value_setCurrentSize (h : Layout d) : (d.setCurrentSize v).value j = d.value j := by
  have ho := h.offset
  have hd := h.descr
  have hn := h.node
  exact get32_put32_disjoint (b := d.nodeBase + j * sizeofNode + 8) (by omega)

theorem next_setCurrentSize (h : Layout d) : (d.setCurrentSize v).next j = d.next j := by
  have ho := h.offset
  have hd := h.descr
  have hn := h.node
  exact get32_put32_disjoint (b := d.nodeBase + j * sizeofNode + 12) (by omega)

theorem bucket_setCurrentSize (h : Layout d) : (d.setCurrentSize v).bucket b = d.bucket b := by
  have ho := h.offset
  have hd := h.descr
  have hn := h.node
  have hh := h.hash
  exact get32_put32_disjoint (b := d.hashBase + b * sizeofIndex) (by omega)

end Layout

/-- The hash only looks at the mask. -/
theorem odbDoHash_congr {d d' : OdbData} (h : d.hashMask = d'.hashMask) (k : Nat) :
    odbDoHash d k = odbDoHash d' k := by
  simp only [odbDoHash, h]

end Oprofile.Libdb

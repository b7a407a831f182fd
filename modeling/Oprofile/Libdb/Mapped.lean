import Oprofile.Libdb.Store

/-! A store whose file is longer than its tables. A growth that stops between its two system calls leaves
it so, and the calls that follow do not see the difference. -/
namespace Oprofile.Libdb

open ByteMem IndexChain Tally

variable {d e : OdbData} {i k v x : Nat}

/-- The store in the part of the file that its tables take. -/
def OdbData.mapped (d : OdbData) : OdbData :=
  { d with file := ⟨d.offsetNode + d.size * 20, d.file.byte⟩ }

/-- A store between two calls; behind its tables the file may go on with zeros. -/
structure Kept (d : OdbData) : Prop where
  rep : Rep d.mapped
  covers : d.offsetNode + d.size * 20 ≤ d.file.size
  zeros : ∀ x, d.offsetNode + d.size * 20 ≤ x → x < d.file.size → d.file.byte x = 0

theorem Rep.mapped_eq (h : Rep d) : d.mapped = d := by
  have hf := h.layout.file
  rw [OdbData.mapped, ← hf]

theorem Rep.kept (h : Rep d) : Kept d := by
  have hf := h.layout.file
  refine ⟨by rwa [h.mapped_eq], le_of_eq hf.symm, ?_⟩
  intro x hx hlt
  omega

/-- The same store over other bytes. -/
def OdbData.withBytes (d : OdbData) (byte : Bytes) : OdbData :=
  { d with file := ⟨d.file.size, byte⟩ }

section Reads

variable {byte : Bytes} (h : Rep d) (hb : ∀ x, x < d.offsetNode + d.size * 20 → byte x = d.file.byte x)
include h hb

theorem withBytes_descr :
    (d.withBytes byte).size = d.size ∧ (d.withBytes byte).currentSize = d.currentSize := by
  have ho := h.layout.offset
  have hd := h.layout.descr
  constructor
  · apply get32_congr (a := d.descr)
    intro x hx hlt
    exact hb x (by omega)
  · apply get32_congr (a := d.descr + 4)
    intro x hx hlt
    exact hb x (by omega)

theorem withBytes_node (hi : i < d.size) : (d.withBytes byte).key i = d.key i ∧
    (d.withBytes byte).value i = d.value i ∧ (d.withBytes byte).next i = d.next i := by
  have hn := h.layout.node
  refine ⟨?_, ?_, ?_⟩
  · apply get64_congr (a := d.nodeBase + i * 16)
    intro x hx hlt
    exact hb x (by omega)
  · apply get32_congr (a := d.nodeBase + i * 16 + 8)
    intro x hx hlt
    exact hb x (by omega)
  · apply get32_congr (a := d.nodeBase + i * 16 + 12)
    intro x hx hlt
    exact hb x (by omega)

theorem withBytes_bucket {b : Nat} (hi : b < d.size) : (d.withBytes byte).bucket b = d.bucket b := by
  have hh := h.layout.hash
  apply get32_congr (a := d.hashBase + b * 4)
  intro x hx hlt
  exact hb x (by omega)

theorem withBytes_rep : Rep (d.withBytes byte) := by
  obtain ⟨hs, hc⟩ := withBytes_descr h hb
  have hle := h.cur_le
  have hl := h.layout
  refine ⟨⟨hl.offset, hl.descr, hl.node, hs ▸ hl.hash, hs ▸ hl.mask, hs ▸ hl.size_pos, hs ▸ hl.file,
    hs ▸ hl.limit⟩, hc ▸ h.cur_pos, by omega, ?_, ?_⟩
  · rw [hc]
    intro b hbs
    rw [hs] at hbs
    obtain ⟨xs, hchain, hx⟩ := h.linked b hbs
    refine ⟨xs, ?_, ?_⟩
    · rw [withBytes_bucket h hb hbs]
      apply chain_congr hchain
      intro j hj
      obtain ⟨-, hjc, -⟩ := (hx j).mp hj
      exact (withBytes_node h hb (by omega)).2.2
    · intro j
      rw [hx j]
      constructor
      · rintro ⟨hj, hjc, hjh⟩
        exact ⟨hj, hjc, by rw [(withBytes_node h hb (by omega)).1]; exact hjh⟩
      · rintro ⟨hj, hjc, hjh⟩
        rw [(withBytes_node h hb (by omega)).1] at hjh
        exact ⟨hj, hjc, hjh⟩
  · intro i j hi hic hj hjc hkey
    rw [hc] at hic hjc
    rw [(withBytes_node h hb (by omega)).1, (withBytes_node h hb (by omega)).1] at hkey
    exact h.distinct i j hi hic hj hjc hkey

theorem withBytes_entries : odbEntries (d.withBytes byte) = odbEntries d := by
  obtain ⟨-, hc⟩ := withBytes_descr h hb
  have hle := h.cur_le
  refine odbEntries_eq (by rw [odbEntries_length, hc]) ?_
  intro i hi
  rw [odbEntries_length] at hi
  obtain ⟨hkey, hval, -⟩ := withBytes_node h hb (i := i + 1) (by omega)
  rw [odbEntries_getElem? (by omega), hkey, hval]

end Reads

/-! What a call does to the store is what it does to the tables. -/

/-- A store that is another one behind a longer file. -/
theorem Kept.of_tables (h : Kept d) {e e' : OdbData} (he : e = { e' with file := ⟨d.file.size, e'.file.byte⟩ })
    (hrep : Rep e') (hsize : e'.size = d.size) (hoff : e'.offsetNode = d.offsetNode)
    (hout : ∀ x, d.offsetNode + d.size * 20 ≤ x → e'.file.byte x = d.file.byte x) :
    Kept e ∧ odbEntries e = odbEntries e' := by
  have hmapped : e.mapped = e' := by
    rw [← hrep.mapped_eq, he]
    rfl
  have hs : e.size = d.size := by
    rw [he]
    exact hsize
  have ho : e.offsetNode = d.offsetNode := by
    rw [he]
    exact hoff
  have hf : e.file = ⟨d.file.size, e'.file.byte⟩ := by rw [he]
  refine ⟨⟨by rwa [hmapped], ?_, ?_⟩, ?_⟩
  · rw [hs, ho, hf]
    exact h.covers
  · rw [hs, ho, hf]
    intro x hx hlt
    exact (hout x hx).trans (h.zeros x hx hlt)
  · rw [he]
    rfl

theorem setValue_outside (h : Layout d) (hi : i < d.size) (hx : d.offsetNode + d.size * 20 ≤ x) :
    (d.setValue i v).file.byte x = d.file.byte x := by
  have hn := h.node
  apply put32_byte_ne
  simp only [sizeofNode]
  omega

/-- Filling and linking a free node stays inside the tables. -/
theorem addFreeNode_outside (h : Rep d) (hfree : d.currentSize < d.size)
    (hx : d.offsetNode + d.size * 20 ≤ x) : (addFreeNode d k v).file.byte x = d.file.byte x := by
  have ho := h.layout.offset
  have hd := h.layout.descr
  have hn := h.layout.node
  have hh := h.layout.hash
  have hm := h.layout.mask
  have hwrite : ∀ b i : Nat, i < d.size →
      (odbCommitReservation ((((d.setValue d.currentSize v).setKey d.currentSize k).setNext d.currentSize
        b).setBucket i d.currentSize)).file.byte x = d.file.byte x := by
    intro b i hi
    have hcommit : d.descr + 4 + 4 ≤ x := by omega
    have hbucket : d.hashBase + i * 4 + 4 ≤ x := by omega
    have hnext : d.nodeBase + d.currentSize * 16 + 12 + 4 ≤ x := by omega
    have hkey : d.nodeBase + d.currentSize * 16 + 8 ≤ x := by omega
    have hvalue : d.nodeBase + d.currentSize * 16 + 8 + 4 ≤ x := by omega
    refine (put32_byte_ne (Or.inr hcommit)).trans ?_
    refine (put32_byte_ne (Or.inr hbucket)).trans ?_
    refine (put32_byte_ne (Or.inr hnext)).trans ?_
    refine (put32_byte_ne (a := d.nodeBase + d.currentSize * 16 + 4) (Or.inr (by omega))).trans ?_
    refine (put32_byte_ne (a := d.nodeBase + d.currentSize * 16) (Or.inr (by omega))).trans ?_
    exact put32_byte_ne (Or.inr hvalue)
  apply hwrite
  have hle : ∀ e : OdbData, e.hashMask = d.hashMask → odbDoHash e k ≤ d.hashMask := by
    intro e he
    rw [← he]
    exact Nat.and_le_right
  have hhash := hle ((d.setValue d.currentSize v).setKey d.currentSize k) rfl
  have hpos := h.layout.size_pos
  exact Nat.lt_of_le_of_lt hhash (by omega)

/-- Growing only reads the tables: it starts by giving the file its new length. -/
theorem odbRemap_mapped (h : Kept d) : odbRemap d.mapped = odbRemap d := by
  have hfile : ∀ n, d.mapped.file.truncate n = d.file.truncate n := by
    intro n
    refine congrArg (File.mk n) (funext fun x => ?_)
    have hc := h.covers
    change (if x < d.offsetNode + d.size * 20 ∧ x < n then d.file.byte x else 0) =
      if x < d.file.size ∧ x < n then d.file.byte x else 0
    by_cases hx : x < d.offsetNode + d.size * 20
    · have hlt : x < d.file.size := by omega
      simp only [hx, hlt]
    · by_cases hlt : x < d.file.size ∧ x < n
      · rw [if_neg (fun hn => hx hn.1), if_pos hlt, h.zeros x (Nat.le_of_not_lt hx) hlt.1]
      · rw [if_neg (fun hn => hx hn.1), if_neg hlt]
  have hsize : d.mapped.size = d.size := rfl
  have htables : ∀ n, tablesSize d.mapped n = tablesSize d n := fun _ => rfl
  have hdef : ∀ e : OdbData, odbRemap e =
      let t := { e with file := e.file.truncate (tablesSize e (e.size * 2 % 2 ^ 32)), descr := odbToDescr e }
      let s := t.setSize (t.size * 2 % 2 ^ 32)
      { s with
        nodeBase := odbToNodeBase s, hashBase := odbToHashBase { s with nodeBase := odbToNodeBase s }
        hashMask := s.size * bucketFactor - 1 } := fun _ => rfl
  rw [hdef, hdef, hfile, hsize, htables]
  rfl

/-- After a growth that stopped between its two calls, the tables are as they were. -/
theorem halfGrown_kept (h : Kept d) (hg : CanGrow d) :
    Kept { d with file := d.file.truncate (tablesSize d (d.size * 2 % 2 ^ 32)) } ∧
      odbEntries { d with file := d.file.truncate (tablesSize d (d.size * 2 % 2 ^ 32)) } = odbEntries d := by
  have hlim : d.offsetNode + d.size * 2 * 20 < 2 ^ 32 := hg
  have hts : tablesSize d (d.size * 2 % 2 ^ 32) = d.offsetNode + d.size * 2 * 20 := by
    rw [Nat.mod_eq_of_lt (by omega), tablesSize_eq hlim]
  rw [hts]
  have hb : ∀ x, x < d.mapped.offsetNode + d.mapped.size * 20 →
      (d.file.truncate (d.offsetNode + d.size * 2 * 20)).byte x = d.mapped.file.byte x := by
    intro x hx
    have hc := h.covers
    have hx' : x < d.offsetNode + d.size * 20 := hx
    exact File.truncate_byte_of_lt (by omega) (by omega)
  obtain ⟨hs, -⟩ := withBytes_descr h.rep hb
  have hrep := withBytes_rep h.rep hb
  have hentries := withBytes_entries h.rep hb
  generalize he : ({ d with file := d.file.truncate (d.offsetNode + d.size * 2 * 20) } : OdbData) = e
  have hsize : e.size = d.size := by
    rw [← he]
    exact hs
  have hoff : e.offsetNode = d.offsetNode := by rw [← he]
  have hfile : e.file = d.file.truncate (d.offsetNode + d.size * 2 * 20) := by rw [← he]
  have hmapped : e.mapped = d.mapped.withBytes (d.file.truncate (d.offsetNode + d.size * 2 * 20)).byte := by
    rw [OdbData.mapped, hsize, hoff, hfile, ← he]
    rfl
  refine ⟨⟨hmapped ▸ hrep, ?_, ?_⟩, ?_⟩
  · rw [hsize, hoff, hfile, File.truncate_size]
    omega
  · rw [hsize, hoff, hfile]
    intro x hx _
    by_cases hlt : x < d.file.size
    · by_cases hxn : x < d.offsetNode + d.size * 2 * 20
      · rw [File.truncate_byte_of_lt hlt hxn]
        exact h.zeros x hx hlt
      · exact if_neg (fun hn => hxn hn.2)
    · exact File.truncate_byte_of_le (Nat.le_of_not_lt hlt)
  · rw [← he]
    exact hentries

/-- `add_node` of a new key, with any outcome of the growth that a full table needs. -/
theorem addNode_kept (h : Kept d) (io : GrowOutcome) (hk : k < 2 ^ 64)
    (hnew : ∀ i, 0 < i → i < d.currentSize → d.key i ≠ k)
    (hgrow : d.size ≤ d.currentSize → io ≠ .ftruncateFails → CanGrow d) :
    Kept (addNode io d k v).2 ∧ odbEntries (addNode io d k v).2 =
      if d.size ≤ d.currentSize ∧ io ≠ .ok then odbEntries d else odbEntries d ++ [(k, v % 2 ^ 32)] := by
  by_cases hfull : d.size ≤ d.currentSize
  · rw [addNode, if_pos hfull]
    cases io with
    | ftruncateFails => exact ⟨h, by simp [odbGrowHashtable, hfull]⟩
    | mremapFails =>
      rw [if_pos ⟨hfull, by decide⟩]
      exact halfGrown_kept h (hgrow hfull (by decide))
    | ok =>
      have heq : d.mapped.currentSize = d.mapped.size := le_antisymm h.rep.cur_le hfull
      obtain ⟨d', hd', hrep, hent, -⟩ :=
        addNode_rep (v := v) h.rep hk hnew (fun _ => hgrow hfull (by decide))
      rw [addNode, if_pos (ge_of_eq heq), odbGrowHashtable, odbRemap_mapped h] at hd'
      rw [if_neg (fun hn => hn.2 rfl), odbGrowHashtable]
      have hd'' : addFreeNode (odbRebuild (odbRemap d)) k v = d' := congrArg Prod.snd hd'
      simp only [hd'']
      exact ⟨hrep.kept, hent⟩
  · have hfree : d.mapped.currentSize < d.mapped.size := Nat.lt_of_not_le hfull
    obtain ⟨hrep, hs, -, ho, -⟩ := addFreeNode_rep (v := v) h.rep hfree hk hnew
    have hent := addFreeNode_entries (v := v) h.rep.tables hfree hk
    rw [addNode, if_neg hfull, if_neg (fun hn => hfull hn.1)]
    obtain ⟨hkept, hentries⟩ := h.of_tables (e := addFreeNode d k v) rfl hrep hs ho
      (fun x hx => addFreeNode_outside h.rep hfree hx)
    exact ⟨hkept, hentries.trans hent⟩

/-- Rewriting the count of a node in use. -/
theorem setValue_kept (h : Kept d) (hi : i + 1 < d.currentSize) :
    Kept (d.setValue (i + 1) v) ∧
      odbEntries (d.setValue (i + 1) v) = (odbEntries d).set i (d.key (i + 1), v % 2 ^ 32) := by
  obtain ⟨hrep, hs, -⟩ := setValue_rep (v := v) h.rep hi
  have hle : d.currentSize ≤ d.size := h.rep.cur_le
  obtain ⟨hkept, hentries⟩ := h.of_tables (e := d.setValue (i + 1) v) rfl hrep hs rfl
    (fun x hx => setValue_outside h.rep.layout (show i + 1 < d.size by omega) hx)
  exact ⟨hkept, hentries.trans (setValue_entries h.rep hi)⟩

end Oprofile.Libdb

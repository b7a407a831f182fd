import Oprofile.Libdb.Layout

/-! The hash chains of the store: what linking one node does, and the rebuild after growing. -/
namespace Oprofile.Libdb

open ByteMem IndexChain

variable {d : OdbData} {p v : Nat}

/-- The chains hold exactly the nodes `1 .. p-1`, each in the bucket its key hashes to. -/
def Linked (d : OdbData) (p : Nat) : Prop :=
  ∀ b, b < d.size → ∃ xs, Chain d.next (d.bucket b) xs ∧
    ∀ i, i ∈ xs ↔ 0 < i ∧ i < p ∧ odbDoHash d (d.key i) = b

/-- The representation invariant of the store between two calls. -/
structure Rep (d : OdbData) : Prop where
  layout : Layout d
  cur_pos : 0 < d.currentSize
  cur_le : d.currentSize ≤ d.size
  linked : Linked d d.currentSize
  distinct : ∀ i j, 0 < i → i < d.currentSize → 0 < j → j < d.currentSize →
    d.key i = d.key j → i = j

/-- The part of it that says nothing about the keys: two nodes may hold the same one. -/
structure Tables (d : OdbData) : Prop where
  layout : Layout d
  cur_pos : 0 < d.currentSize
  cur_le : d.currentSize ≤ d.size
  linked : Linked d d.currentSize

theorem Rep.tables (h : Rep d) : Tables d := ⟨h.layout, h.cur_pos, h.cur_le, h.linked⟩

/-- Linking reads and writes nothing but one `next` word and one bucket. -/
theorem odbRelink_frame (h : Layout d) :
    Layout (odbRelink d p) ∧ (odbRelink d p).size = d.size ∧
      (odbRelink d p).currentSize = d.currentSize ∧
      (∀ j, j < d.size → (odbRelink d p).key j = d.key j) ∧
      (∀ j, j < d.size → (odbRelink d p).value j = d.value j) := by
  have h1 : Layout (d.setNext p (d.bucket (odbDoHash d (d.key p)))) := h.setNext
  have hs := h.size_setNext (i := p) (v := d.bucket (odbDoHash d (d.key p)))
  refine ⟨h1.setBucket, ?_, ?_, ?_, ?_⟩
  · exact h1.size_setBucket.trans hs
  · exact h1.currentSize_setBucket.trans h.currentSize_setNext
  · intro j hj
    exact (h1.key_setBucket (by omega)).trans key_setNext
  · intro j hj
    exact (h1.value_setBucket (by omega)).trans value_setNext

/-- The `next` words after linking `p`: only that of `p` changes, to the old bucket head. -/
theorem odbRelink_next (h : Layout d) (hp : p < d.size) {j : Nat} (hj : j < d.size) :
    (odbRelink d p).next j =
      if j = p then d.bucket (odbDoHash d (d.key p)) else d.next j := by
  have h1 : Layout (d.setNext p (d.bucket (odbDoHash d (d.key p)))) := h.setNext
  have hs := h.size_setNext (i := p) (v := d.bucket (odbDoHash d (d.key p)))
  have hb : (odbRelink d p).next j = (d.setNext p (d.bucket (odbDoHash d (d.key p)))).next j :=
    h1.next_setBucket (by omega)
  rw [hb]
  split_ifs with he
  · subst he
    rw [next_setNext_self]
    exact Nat.mod_eq_of_lt (get32_lt _ _)
  · exact next_setNext_ne (Ne.symm he)

theorem odbRelink_bucket (h : Layout d) (hp : p < d.size) (b : Nat) :
    (odbRelink d p).bucket b = if b = odbDoHash d (d.key p) then p else d.bucket b := by
  have hlim := h.limit
  split_ifs with he
  · subst he
    have hb : (odbRelink d p).bucket (odbDoHash d (d.key p)) = p % 2 ^ 32 :=
      bucket_setBucket_self
    rw [hb]
    exact Nat.mod_eq_of_lt (by omega)
  · exact (bucket_setBucket_ne (Ne.symm he)).trans (h.bucket_setNext hp)

theorem odbRelink_hash (k : Nat) : odbDoHash (odbRelink d p) k = odbDoHash d k :=
  odbDoHash_congr rfl k

/-- One iteration of the rebuild loop, and the linking done by `add_node`: the next free index
joins the chain of its bucket and every other chain stays. -/
theorem linked_relink (h : Layout d) (hl : Linked d p) (h0 : 0 < p) (hp : p < d.size) :
    Linked (odbRelink d p) (p + 1) := by
  obtain ⟨-, hsize, -, hkey, -⟩ := odbRelink_frame (p := p) h
  intro b hb
  rw [hsize] at hb
  obtain ⟨xs, hc, hm⟩ := hl b hb
  have hold : Chain (odbRelink d p).next (d.bucket b) xs := by
    refine chain_congr hc ?_
    intro j hj
    obtain ⟨_, hjp, _⟩ := (hm j).mp hj
    rw [odbRelink_next h hp (by omega), if_neg (by omega)]
  have hmem : ∀ i, i < p → (odbDoHash (odbRelink d p) ((odbRelink d p).key i) = b ↔
      odbDoHash d (d.key i) = b) := by
    intro i hi
    rw [odbRelink_hash, hkey i (by omega)]
  have hpmem : odbDoHash (odbRelink d p) ((odbRelink d p).key p) = odbDoHash d (d.key p) := by
    rw [odbRelink_hash, hkey p hp]
  by_cases he : b = odbDoHash d (d.key p)
  · subst he
    refine ⟨p :: xs, ?_, ?_⟩
    · rw [odbRelink_bucket h hp, if_pos rfl]
      refine .cons (by omega) ?_
      rwa [odbRelink_next h hp hp, if_pos rfl]
    · intro i
      rw [List.mem_cons, hm i]
      constructor
      · rintro (rfl | ⟨hi, hip, hih⟩)
        · exact ⟨h0, by omega, hpmem⟩
        · exact ⟨hi, by omega, (hmem i hip).mpr hih⟩
      · rintro ⟨hi, hip, hih⟩
        by_cases hipe : i = p
        · exact Or.inl hipe
        · exact Or.inr ⟨hi, by omega, (hmem i (by omega)).mp hih⟩
  · refine ⟨xs, ?_, ?_⟩
    · rwa [odbRelink_bucket h hp, if_neg he]
    · intro i
      rw [hm i]
      constructor
      · rintro ⟨hi, hip, hih⟩
        exact ⟨hi, by omega, (hmem i hip).mpr hih⟩
      · rintro ⟨hi, hip, hih⟩
        by_cases hipe : i = p
        · subst hipe
          exact (he (hih.symm.trans hpmem)).elim
        · exact ⟨hi, by omega, (hmem i (by omega)).mp hih⟩

/-- What the rebuild loop keeps while it links the nodes `p .. p+n-1`. -/
theorem odbRelink_foldl (n : Nat) (h : Layout d) (hl : Linked d p) (h0 : 0 < p)
    (hn : p + n ≤ d.size) :
    Layout ((List.range' p n).foldl odbRelink d) ∧
      Linked ((List.range' p n).foldl odbRelink d) (p + n) ∧
      ((List.range' p n).foldl odbRelink d).size = d.size ∧
      ((List.range' p n).foldl odbRelink d).currentSize = d.currentSize ∧
      (∀ j, j < d.size → ((List.range' p n).foldl odbRelink d).key j = d.key j) ∧
      (∀ j, j < d.size → ((List.range' p n).foldl odbRelink d).value j = d.value j) := by
  induction n generalizing d p with
  | zero => exact ⟨h, hl, rfl, rfl, fun _ _ => rfl, fun _ _ => rfl⟩
  | succ n ih =>
    have hp : p < d.size := by omega
    obtain ⟨hlay, hsize, hcur, hkey, hval⟩ := odbRelink_frame (p := p) h
    have hlink := linked_relink h hl h0 hp
    obtain ⟨i1, i2, i3, i4, i5, i6⟩ :=
      ih hlay hlink (by omega) (by rw [hsize]; omega)
    simp only [List.range'_succ, List.foldl_cons]
    refine ⟨i1, ?_, i3.trans hsize, i4.trans hcur, ?_, ?_⟩
    · rwa [show p + (n + 1) = p + 1 + n by omega]
    · intro j hj
      exact (i5 j (by rw [hsize]; exact hj)).trans (hkey j hj)
    · intro j hj
      exact (i6 j (by rw [hsize]; exact hj)).trans (hval j hj)

/-! Growing: the descriptor and the nodes keep their bytes, the new hash table starts zeroed. -/

/-- Twice as many nodes still fit below the 32-bit file size. -/
def CanGrow (d : OdbData) : Prop := d.offsetNode + d.size * 2 * 20 < 2 ^ 32

theorem tablesSize_eq {n : Nat} (h : d.offsetNode + n * 20 < 2 ^ 32) :
    tablesSize d n = d.offsetNode + n * 20 := by
  simp only [tablesSize, sizeofIndex, bucketFactor, sizeofNode]
  omega

/-- The file `odbRemap` leaves: the old one, extended, with the node count rewritten. -/
theorem odbRemap_file_eq (d : OdbData) :
    let t := (d.file.truncate (tablesSize d (d.size * 2 % 2 ^ 32)))
    (odbRemap d).file = ⟨tablesSize d (d.size * 2 % 2 ^ 32),
      put32 t.byte d.sizeofHeader (get32 t.byte d.sizeofHeader * 2 % 2 ^ 32)⟩ := rfl

/-- The file after the truncation keeps every byte of the old tables and has zeros behind. -/
theorem odbRemap_file (h : Layout d) (hg : CanGrow d) :
    (odbRemap d).file.size = d.offsetNode + d.size * 2 * 20 ∧
      (∀ x, d.nodeBase ≤ x → x < d.offsetNode + d.size * 20 →
        (odbRemap d).file.byte x = d.file.byte x) ∧
      (∀ x, d.offsetNode + d.size * 20 ≤ x → (odbRemap d).file.byte x = 0) ∧
      (odbRemap d).currentSize = d.currentSize ∧ (odbRemap d).size = d.size * 2 := by
  unfold CanGrow at hg
  have hfile := h.file
  have ho := h.offset
  have hd := h.descr
  have hn := h.node
  have hts : tablesSize d (d.size * 2 % 2 ^ 32) = d.offsetNode + d.size * 2 * 20 := by
    rw [Nat.mod_eq_of_lt (by omega), tablesSize_eq (by omega)]
  have heq := odbRemap_file_eq d
  rw [hts] at heq
  have hcs : (odbRemap d).currentSize = get32 (odbRemap d).file.byte (d.sizeofHeader + 4) := rfl
  have hss : (odbRemap d).size = get32 (odbRemap d).file.byte d.sizeofHeader := rfl
  rw [hcs, hss, heq]
  have hold : ∀ x, x < d.file.size →
      (d.file.truncate (d.offsetNode + d.size * 2 * 20)).byte x = d.file.byte x :=
    fun x hx => File.truncate_byte_of_lt hx (by omega)
  have hnew : ∀ x, d.file.size ≤ x →
      (d.file.truncate (d.offsetNode + d.size * 2 * 20)).byte x = 0 :=
    fun x hx => File.truncate_byte_of_le hx
  have hsz : get32 (d.file.truncate (d.offsetNode + d.size * 2 * 20)).byte d.sizeofHeader =
      d.size := by
    rw [← hd]
    exact get32_congr fun x _ hx => hold x (by omega)
  have hcur : get32 (d.file.truncate (d.offsetNode + d.size * 2 * 20)).byte (d.sizeofHeader + 4) =
      d.currentSize := by
    rw [← hd]
    exact get32_congr fun x _ hx => hold x (by omega)
  refine ⟨rfl, ?_, ?_, ?_, ?_⟩
  · intro x hx1 hx2
    exact (put32_byte_ne (by omega)).trans (hold x (by omega))
  · intro x hx
    exact (put32_byte_ne (by omega)).trans (hnew x (by omega))
  · exact (get32_put32_disjoint (by omega)).trans hcur
  · change get32 (put32 _ d.sizeofHeader _) d.sizeofHeader = _
    rw [get32_put32_self, hsz]
    omega

theorem odbRemap_layout (h : Layout d) (hg : CanGrow d) : Layout (odbRemap d) := by
  obtain ⟨hfile, -, -, -, hsize⟩ := odbRemap_file h hg
  have hp := h.size_pos
  unfold CanGrow at hg
  refine ⟨h.offset, rfl, rfl, rfl, ?_, by omega, by rw [hsize]; exact hfile, ?_⟩
  · change (odbRemap d).size * bucketFactor - 1 = _
    rw [bucketFactor, Nat.mul_one]
  · rw [hsize]
    exact hg

/-- The table that the rebuild fills without clearing it is all zero: it lies behind the end of
the old file, because a node is larger than the index words it may be replaced by. -/
theorem odbRemap_bucket (h : Layout d) (hg : CanGrow d) (b : Nat) : (odbRemap d).bucket b = 0 := by
  obtain ⟨-, -, hzero, -, hsize⟩ := odbRemap_file h hg
  have hh := (odbRemap_layout h hg).hash
  have ho : (odbRemap d).offsetNode = d.offsetNode := rfl
  refine get32_eq_zero ?_
  intro x hx _
  exact hzero x (by omega)

theorem odbRemap_key (h : Layout d) (hg : CanGrow d) {j : Nat} (hj : j < d.size) :
    (odbRemap d).key j = d.key j ∧ (odbRemap d).value j = d.value j := by
  obtain ⟨-, hold, -⟩ := odbRemap_file h hg
  have hb : (odbRemap d).nodeBase = d.nodeBase := h.node.symm
  have hn := h.node
  simp only [OdbData.key, OdbData.value, hb, sizeofNode]
  exact ⟨get64_congr fun x h1 h2 => hold x (by omega) (by omega),
    get32_congr fun x h1 h2 => hold x (by omega) (by omega)⟩

theorem linked_zero (h : ∀ b, d.bucket b = 0) : Linked d 1 := by
  intro b _
  refine ⟨[], by rw [h b]; exact .nil, ?_⟩
  intro i
  simp only [List.not_mem_nil, false_iff]
  omega

/-- `odb_grow_hashtable` keeps the nodes and restores the chains under the new mask. -/
theorem odbGrowHashtable_tables (h : Tables d) (hg : CanGrow d) :
    ∃ d', odbGrowHashtable .ok d = (0, d') ∧ Tables d' ∧ d'.size = d.size * 2 ∧
      d'.currentSize = d.currentSize ∧ d'.offsetNode = d.offsetNode ∧
      (∀ j, j < d.size → d'.key j = d.key j ∧ d'.value j = d.value j) := by
  obtain ⟨-, -, -, hcur, hsize⟩ := odbRemap_file h.layout hg
  have hlay := odbRemap_layout h.layout hg
  have hpos := h.cur_pos
  have hle := h.cur_le
  obtain ⟨i1, i2, i3, i4, i5, i6⟩ := odbRelink_foldl (p := 1) ((odbRemap d).currentSize - 1) hlay
    (linked_zero (odbRemap_bucket h.layout hg)) (by omega) (by omega)
  have hfold : (odbRebuild (odbRemap d)).currentSize = d.currentSize := i4.trans hcur
  have hgrown : (odbRebuild (odbRemap d)).size = d.size * 2 := i3.trans hsize
  refine ⟨odbRebuild (odbRemap d), rfl, ⟨i1, ?_, ?_, ?_⟩, hgrown, hfold, ?_, ?_⟩
  · rw [hfold]
    exact hpos
  · rw [hfold, hgrown]
    omega
  · rw [hfold]
    rw [show 1 + ((odbRemap d).currentSize - 1) = d.currentSize by omega] at i2
    exact i2
  · have hoff : ∀ (l : List Nat) (e : OdbData), (l.foldl odbRelink e).offsetNode = e.offsetNode := by
      intro l
      induction l with
      | nil => intro e; rfl
      | cons p l ih => intro e; exact ih _
    exact hoff _ _
  · intro j hj
    exact ⟨(i5 j (by omega)).trans (odbRemap_key h.layout hg hj).1,
      (i6 j (by omega)).trans (odbRemap_key h.layout hg hj).2⟩

theorem odbGrowHashtable_rep (h : Rep d) (hg : CanGrow d) :
    ∃ d', odbGrowHashtable .ok d = (0, d') ∧ Rep d' ∧ d'.size = d.size * 2 ∧
      d'.currentSize = d.currentSize ∧ d'.offsetNode = d.offsetNode ∧
      (∀ j, j < d.size → d'.key j = d.key j ∧ d'.value j = d.value j) := by
  obtain ⟨d', hd', ht, hsize, hcur, hoff, hold⟩ := odbGrowHashtable_tables h.tables hg
  have hle := h.cur_le
  refine ⟨d', hd', ⟨ht.layout, ht.cur_pos, ht.cur_le, ht.linked, ?_⟩, hsize, hcur, hoff, hold⟩
  intro i j hi hic hj hjc he
  rw [hcur] at hic hjc
  rw [(hold i (by omega)).1, (hold j (by omega)).1] at he
  exact h.distinct i j hi hic hj hjc he

end Oprofile.Libdb

import Oprofile.Daemon.SfileLru

/-! The LRU list stays well formed as long as no path has to be created in vain. -/
namespace Oprofile.Daemon

open DoublyLinked

variable {o : Options} {anons : Nat → Option AnonMapping} {t : Transient} {ks : KernelImages} {cmd : Cmdline}
  {tbl tbl' : SfileTable} {r : Found} {s s' : LruState} {held done todo order xs ys : List Nat} {a b : Nat}
  {func : SfileFields → Bool}

/-- The list holds every live sfile once, in some order, except those that have been taken off. -/
structure OnList (s : LruState) (held order : List Nat) : Prop where
  ring : Ring s.lru none (order.map some)
  live : (held ++ order).Perm (s.table.hashes.map Sfile.addr)
  nodup : (held ++ order).Nodup
  fresh : ∀ sf ∈ s.table.hashes, sf.addr < s.table.nextSfile

theorem onList_init : OnList .init [] [] where
  ring := ⟨⟨rfl, rfl⟩, List.nodup_singleton none⟩
  live := List.Perm.refl _
  nodup := List.nodup_nil
  fresh := by
    intro sf hsf
    cases hsf

/-! ### What the functions do to the table -/

/-- What a selection leaves of an sfile. -/
def Sfile.cut (func : SfileFields → Bool) (addrs : List Nat) (sf : Sfile) : Option Sfile :=
  if sf.addr ∈ addrs then
    if func sf.toSfileFields then none else some { sf with cgHash := sf.cgHash.filter fun cg => !func cg }
  else some sf

/-- What is left when the sfiles at some addresses have been visited. -/
def SfileTable.cut (tbl : SfileTable) (func : SfileFields → Bool) (addrs : List Nat) : SfileTable :=
  { tbl with hashes := tbl.hashes.filterMap (Sfile.cut func addrs) }

theorem Sfile.cut_addr {sf sf' : Sfile} {addrs : List Nat} (h : sf.cut func addrs = some sf') : sf'.addr = sf.addr := by
  rw [Sfile.cut] at h
  split_ifs at h
  · cases h
    rfl
  · cases h
    rfl

theorem Sfile.cut_other {sf : Sfile} {addrs : List Nat} (h : sf.addr ∉ addrs) : sf.cut func addrs = some sf := if_neg h

theorem Sfile.cut_dead {sf : Sfile} {addrs : List Nat} (h : sf.addr ∈ addrs) (hdead : func sf.toSfileFields = true) :
    sf.cut func addrs = none := by
  rw [Sfile.cut, if_pos h, if_pos hdead]

theorem Sfile.cut_alive {sf : Sfile} {addrs : List Nat} (h : sf.addr ∈ addrs) (halive : ¬func sf.toSfileFields = true) :
    sf.cut func addrs = some { sf with cgHash := sf.cgHash.filter fun cg => !func cg } := by
  rw [Sfile.cut, if_pos h, if_neg halive]

theorem cut_nil (tbl : SfileTable) (func : SfileFields → Bool) : tbl.cut func [] = tbl := by
  have hcut : Sfile.cut func [] = some := by
    funext sf
    exact Sfile.cut_other List.not_mem_nil
  rw [SfileTable.cut, hcut, List.filterMap_some]

theorem cut_cons (tbl : SfileTable) (hnot : a ∉ todo) : (tbl.cut func [a]).cut func todo = tbl.cut func (a :: todo) := by
  have hcut : ∀ sf : Sfile, (sf.cut func [a]).bind (Sfile.cut func todo) = sf.cut func (a :: todo) := by
    intro sf
    by_cases haddr : sf.addr = a
    · have hone : sf.addr ∈ [a] := List.mem_singleton.mpr haddr
      have hall : sf.addr ∈ a :: todo := by
        rw [haddr]
        exact List.mem_cons_self
      have hlater : sf.addr ∉ todo := by rwa [haddr]
      by_cases hdead : func sf.toSfileFields = true
      · rw [Sfile.cut_dead hone hdead, Sfile.cut_dead hall hdead]
        rfl
      · rw [Sfile.cut_alive hone hdead, Sfile.cut_alive hall hdead]
        exact Sfile.cut_other hlater
    · have hone : sf.addr ∉ [a] := fun hmem => haddr (List.mem_singleton.mp hmem)
      rw [Sfile.cut_other hone, Option.bind_some, Sfile.cut, Sfile.cut]
      simp only [List.mem_cons, haddr, false_or]
  rw [SfileTable.cut, SfileTable.cut, SfileTable.cut, List.filterMap_filterMap, funext hcut]

/-- The sfiles at other addresses stay as they are. -/
theorem cut_at (hnot : a ∉ todo) : (tbl.cut func todo).at a = tbl.at a := by
  show (tbl.hashes.filterMap (Sfile.cut func todo)).find? (·.addr = a) = tbl.hashes.find? (·.addr = a)
  induction tbl.hashes with
  | nil => rfl
  | cons sf rest ih =>
    by_cases haddr : sf.addr = a
    · have hcut : sf.cut func todo = some sf := Sfile.cut_other (by rwa [haddr])
      rw [List.filterMap_cons_some hcut]
      simp [haddr]
    · cases hcut : sf.cut func todo with
      | none =>
        rw [List.filterMap_cons_none hcut, ih]
        simp [haddr]
      | some sf' =>
        have haddr' : sf'.addr ≠ a := by rwa [Sfile.cut_addr hcut]
        rw [List.filterMap_cons_some hcut]
        simp [haddr, haddr', ih]

/-- What is left of the addresses when one sfile has been visited. -/
theorem cut_one_addrs (func : SfileFields → Bool) {sf : Sfile} (hnodup : (tbl.hashes.map Sfile.addr).Nodup) (hmem : sf ∈ tbl.hashes) :
    (tbl.cut func [sf.addr]).hashes.map Sfile.addr =
      if func sf.toSfileFields then (tbl.hashes.map Sfile.addr).erase sf.addr else tbl.hashes.map Sfile.addr := by
  show (tbl.hashes.filterMap (Sfile.cut func [sf.addr])).map Sfile.addr = _
  generalize tbl.hashes = sfiles at hnodup hmem
  induction sfiles with
  | nil => cases hmem
  | cons x rest ih =>
    rw [List.map_cons] at hnodup ⊢
    obtain ⟨hx, hrest⟩ := List.nodup_cons.mp hnodup
    by_cases haddr : x.addr = sf.addr
    · have hsame : x = sf := by
        rcases List.mem_cons.mp hmem with heq | hlater
        · exact heq.symm
        · exact absurd (haddr ▸ List.mem_map_of_mem hlater) hx
      subst x
      have hothers : rest.filterMap (Sfile.cut func [sf.addr]) = rest := by
        have hcut : ∀ y ∈ rest, Sfile.cut func [sf.addr] y = some y := by
          intro y hy
          apply Sfile.cut_other
          intro hone
          rw [← List.mem_singleton.mp hone] at hx
          exact hx (List.mem_map_of_mem hy)
        rw [List.filterMap_congr hcut, List.filterMap_some]
      have hone : sf.addr ∈ [sf.addr] := List.mem_singleton.mpr rfl
      by_cases hdead : func sf.toSfileFields = true
      · rw [List.filterMap_cons_none (Sfile.cut_dead hone hdead), hothers, if_pos hdead, List.erase_cons_head]
      · rw [List.filterMap_cons_some (Sfile.cut_alive hone hdead), hothers, if_neg hdead, List.map_cons]
    · have hne : sf ≠ x := fun heq => haddr (congrArg Sfile.addr heq.symm)
      have hlater := (List.mem_cons.mp hmem).resolve_left hne
      have hone : x.addr ∉ [sf.addr] := fun hmem => haddr (List.mem_singleton.mp hmem)
      rw [List.filterMap_cons_some (Sfile.cut_other hone), List.map_cons, ih hrest hlater,
        List.erase_cons_tail (by simpa using haddr)]
      split_ifs <;> rfl

/-! ### One visit -/

theorem held_perm : (a :: held ++ (xs ++ ys)).Perm (held ++ (xs ++ a :: ys)) := by
  rw [← List.append_assoc, ← List.append_assoc, List.cons_append, List.cons_append]
  exact List.perm_middle.symm

theorem released_perm : (held ++ (order ++ [a])).Perm (a :: held ++ order) := by
  rw [← List.append_assoc]
  exact List.perm_append_singleton a (held ++ order)

/-- What `sfile_get` and `sfile_put` do to the list. -/
theorem OnList.hold (h : OnList s held (xs ++ a :: ys)) : OnList (s.sfileGet (some a)) (a :: held) (xs ++ ys) where
  ring := by
    have hring := h.ring
    rw [List.map_append, List.map_cons] at hring
    rw [List.map_append]
    exact hring.delete
  live := held_perm.trans h.live
  nodup := held_perm.nodup_iff.mpr h.nodup
  fresh := h.fresh

theorem OnList.release (h : OnList s (a :: held) order) : OnList (s.sfilePut (some a)) held (order ++ [a]) where
  ring := by
    rw [List.map_append]
    apply h.ring.addTail
    intro hmem
    rcases List.mem_cons.mp hmem with hnone | hmem
    · cases hnone
    · obtain ⟨b, hb, heq⟩ := List.mem_map.mp hmem
      cases heq
      exact (List.nodup_cons.mp h.nodup).1 (List.mem_append_right held hb)
  live := released_perm.trans h.live
  nodup := released_perm.nodup_iff.mpr h.nodup
  fresh := h.fresh

theorem OnList.distinct (h : OnList s held order) : (s.table.hashes.map Sfile.addr).Nodup :=
  h.live.nodup_iff.mp h.nodup

theorem OnList.at_eq {sf : Sfile} (h : OnList s held order) (hmem : sf ∈ s.table.hashes) :
    s.table.at sf.addr = some sf := by
  cases hat : s.table.at sf.addr with
  | none =>
    have hnone := List.find?_eq_none.mp hat sf hmem
    simp at hnone
  | some sf' =>
    have haddr : sf'.addr = sf.addr := by simpa using List.find?_some hat
    rw [List.inj_on_of_nodup_map h.distinct (List.mem_of_find?_eq_some hat) hmem haddr]

theorem OnList.cut_fresh (h : OnList s held order) : ∀ sf ∈ (s.table.cut func todo).hashes, sf.addr < s.table.nextSfile := by
  intro sf hsf
  obtain ⟨x, hx, hcut⟩ := List.mem_filterMap.mp hsf
  rw [Sfile.cut_addr hcut]
  exact h.fresh x hx

/-- `for_one_sfile` on an entry of the list. -/
theorem forOneSfile_spec (func : SfileFields → Bool) (h : OnList s held (xs ++ a :: ys)) :
    ∃ s', s.forOneSfile func a = .ok s' ∧ s'.table = s.table.cut func [a] ∧
      (OnList s' held (xs ++ ys) ∨ OnList s' held (xs ++ a :: ys)) := by
  have hmem : a ∈ s.table.hashes.map Sfile.addr :=
    h.live.subset (List.mem_append_right held (List.mem_append_right xs List.mem_cons_self))
  obtain ⟨sf, hsf, rfl⟩ := List.mem_map.mp hmem
  have hsame : ∀ x ∈ s.table.hashes, x.addr = sf.addr → x = sf := by
    intro x hx haddr
    exact List.inj_on_of_nodup_map h.distinct hx hsf haddr
  have hone : sf.addr ∈ [sf.addr] := List.mem_singleton.mpr rfl
  have haddrs := cut_one_addrs func h.distinct hsf
  rw [LruState.forOneSfile, h.at_eq hsf]
  dsimp only
  by_cases hdead : func sf.toSfileFields = true
  · have htable : s.table.clear (fun x => x.addr = sf.addr) = s.table.cut func [sf.addr] := by
      have hcut : ∀ x ∈ s.table.hashes,
          x.cut func [sf.addr] = Option.guard (fun x => !decide (x.addr = sf.addr)) x := by
        intro x hx
        by_cases haddr : x.addr = sf.addr
        · rw [hsame x hx haddr, Sfile.cut_dead hone hdead]
          simp [Option.guard]
        · rw [Sfile.cut_other (fun hmem => haddr (List.mem_singleton.mp hmem))]
          simp [Option.guard, haddr]
      rw [SfileTable.clear, SfileTable.cut, List.filterMap_congr hcut, List.filterMap_eq_filter]
    rw [if_pos hdead]
    refine ⟨_, rfl, htable, Or.inl ?_⟩
    rw [if_pos hdead] at haddrs
    constructor
    · have hring := h.ring
      rw [List.map_append, List.map_cons] at hring
      rw [List.map_append]
      exact hring.delete
    · show (held ++ (xs ++ ys)).Perm ((s.table.clear fun x => x.addr = sf.addr).hashes.map Sfile.addr)
      rw [htable, haddrs]
      exact (List.cons_perm_iff_perm_erase.mp (held_perm.trans h.live)).2
    · exact (List.nodup_cons.mp (held_perm.nodup_iff.mpr h.nodup)).2
    · show ∀ x ∈ (s.table.clear fun x => x.addr = sf.addr).hashes, x.addr < s.table.nextSfile
      rw [htable]
      exact h.cut_fresh
  · have htable : ({ s.table with hashes := s.table.hashes.map fun x =>
        if x.addr = sf.addr then { x with cgHash := x.cgHash.filter fun cg => !func cg } else x } : SfileTable) =
          s.table.cut func [sf.addr] := by
      have hcut : ∀ x ∈ s.table.hashes, x.cut func [sf.addr] =
          some (if x.addr = sf.addr then { x with cgHash := x.cgHash.filter fun cg => !func cg } else x) := by
        intro x hx
        by_cases haddr : x.addr = sf.addr
        · rw [if_pos haddr, hsame x hx haddr, Sfile.cut_alive hone hdead]
        · rw [if_neg haddr, Sfile.cut_other (fun hmem => haddr (List.mem_singleton.mp hmem))]
      rw [SfileTable.cut, List.filterMap_congr hcut, List.filterMap_eq_map']
    rw [if_neg hdead]
    refine ⟨_, rfl, htable, Or.inr ?_⟩
    rw [if_neg hdead] at haddrs
    rw [htable]
    exact ⟨h.ring, haddrs ▸ h.live, h.nodup, h.cut_fresh⟩

/-! ### The walks -/

/-- Where the walk goes on after an entry of the list. -/
theorem OnList.next_eq (h : OnList s held (xs ++ a :: ys)) : s.lru.next (some a) = ys.head? := by
  have hring := h.ring
  rw [List.map_append, List.map_cons] at hring
  rw [hring.next_eq]
  cases ys with
  | nil => rfl
  | cons b ys => rfl

theorem OnList.first_eq (h : OnList s held order) : s.lru.next none = order.head? := by
  rw [h.ring.first_eq]
  cases order with
  | nil => rfl
  | cons b order => rfl

/-- The walk of `for_each_sfile` ends, and visits what is on the list. -/
theorem forEachLoop_spec (func : SfileFields → Bool) (done : List Nat) (h : OnList s held (done ++ todo)) :
    ∃ s' order, LruState.forEachLoop func todo.length todo.head? s = .ok s' ∧ s'.table = s.table.cut func todo ∧
      OnList s' held order := by
  induction todo generalizing done s with
  | nil => exact ⟨s, done ++ [], rfl, (cut_nil s.table func).symm, h⟩
  | cons a todo ih =>
    obtain ⟨s₁, hone, htable, hlist⟩ := forOneSfile_spec func h
    have hnot : a ∉ todo := by
      have hnodup := ((List.nodup_append.mp h.nodup).2.1)
      exact (List.nodup_cons.mp (List.nodup_append.mp hnodup).2.1).1
    have hrest : ∃ s' order, LruState.forEachLoop func todo.length todo.head? s₁ = .ok s' ∧
        s'.table = s₁.table.cut func todo ∧ OnList s' held order := by
      rcases hlist with hlist | hlist
      · exact ih _ hlist
      · rw [← List.singleton_append, ← List.append_assoc] at hlist
        exact ih _ hlist
    obtain ⟨s', order, hloop, htable', hlist'⟩ := hrest
    refine ⟨s', order, ?_, ?_, hlist'⟩
    · rw [List.length_cons, List.head?_cons, LruState.forEachLoop, h.next_eq, hone]
      exact hloop
    · rw [htable', htable, cut_cons s.table hnot]

/-- The walk of `sfile_lru_clear`, over as much of the list as it may visit. -/
theorem lruClearLoop_spec (amount : Nat) (done : List Nat) (h : OnList s held (done ++ todo)) :
    ∃ s' order, LruState.lruClearLoop amount todo.head? s = .ok s' ∧ OnList s' held order ∧
      ∀ a ∈ held, s'.table.at a = s.table.at a := by
  induction amount generalizing done todo s with
  | zero =>
    cases todo with
    | nil => exact ⟨s, _, rfl, h, fun _ _ => rfl⟩
    | cons a todo => exact ⟨s, _, rfl, h, fun _ _ => rfl⟩
  | succ amount ih =>
    cases todo with
    | nil => exact ⟨s, _, rfl, h, fun _ _ => rfl⟩
    | cons a todo =>
      rw [List.head?_cons, LruState.lruClearLoop, h.next_eq]
      by_cases hbreak : amount = 0
      · rw [if_pos hbreak]
        exact ⟨s, _, rfl, h, fun _ _ => rfl⟩
      · rw [if_neg hbreak]
        obtain ⟨s₁, hone, htable, hlist⟩ := forOneSfile_spec (fun _ => true) h
        have hrest : ∃ s' order, LruState.lruClearLoop amount todo.head? s₁ = .ok s' ∧ OnList s' held order ∧
            ∀ a ∈ held, s'.table.at a = s₁.table.at a := by
          rcases hlist with hlist | hlist
          · exact ih _ hlist
          · rw [← List.singleton_append, ← List.append_assoc] at hlist
            exact ih _ hlist
        obtain ⟨s', order, hloop, hlist', hkept⟩ := hrest
        refine ⟨s', order, ?_, hlist', ?_⟩
        · rw [hone]
          exact hloop
        · intro b hb
          have hne : b ∉ [a] := by
            intro hmem
            obtain rfl := List.mem_singleton.mp hmem
            exact (List.nodup_append.mp h.nodup).2.2 b hb b (List.mem_append_right done List.mem_cons_self) rfl
          rw [hkept b hb, htable, cut_at hne]

/-! ### The functions -/

/-- `for_each_sfile` visits every live sfile. -/
theorem forEachSfile_spec (func : SfileFields → Bool) (h : OnList s [] order) :
    ∃ s' order', s.forEachSfile func = .ok s' ∧ s'.table = s.table.forEach func ∧ OnList s' [] order' := by
  have hlength : s.table.hashes.length = order.length := (List.length_map Sfile.addr).symm.trans h.live.length_eq.symm
  have hall : s.table.cut func order = s.table.forEach func := by
    have hcut : ∀ sf ∈ s.table.hashes, sf.cut func order =
        (Option.guard (fun sf : Sfile => !func sf.toSfileFields) sf).map fun sf =>
          { sf with cgHash := sf.cgHash.filter fun cg => !func cg } := by
      intro sf hsf
      have hmem : sf.addr ∈ order := h.live.symm.subset (List.mem_map_of_mem hsf)
      by_cases hdead : func sf.toSfileFields = true
      · rw [Sfile.cut_dead hmem hdead]
        simp [Option.guard, hdead]
      · rw [Sfile.cut_alive hmem hdead]
        simp [Option.guard, hdead]
    rw [SfileTable.cut, List.filterMap_congr hcut, ← List.map_filterMap, List.filterMap_eq_filter]
    rfl
  rw [LruState.forEachSfile, hlength, h.first_eq, ← hall]
  exact forEachLoop_spec func [] h

theorem sfileLruClear_spec (h : OnList s held order) :
    ∃ full s' order', s.sfileLruClear = .ok (full, s') ∧ OnList s' held order' ∧
      ∀ a ∈ held, s'.table.at a = s.table.at a := by
  rw [LruState.sfileLruClear]
  by_cases hempty : s.lru.next none = none
  · rw [if_pos hempty]
    exact ⟨1, s, order, rfl, h, fun _ _ => rfl⟩
  · rw [if_neg hempty, h.first_eq]
    obtain ⟨s', order', hloop, hlist, hkept⟩ := lruClearLoop_spec LruState.lruAmount [] h
    refine ⟨0, s', order', ?_, hlist, hkept⟩
    rw [hloop]
    rfl

/-- The attempts end, unless the program is aborted, and what has been taken off the list stays as it is. -/
theorem retryLoop_spec (emfiles : Nat) (h : OnList s held order) :
    LruState.retryLoop emfiles s = .error .aborted ∨
      ∃ s' order', LruState.retryLoop emfiles s = .ok s' ∧ OnList s' held order' ∧
        ∀ a ∈ held, s'.table.at a = s.table.at a := by
  induction emfiles generalizing s order with
  | zero => exact Or.inr ⟨s, order, rfl, h, fun _ _ => rfl⟩
  | succ emfiles ih =>
    obtain ⟨full, s₁, order₁, hclear, hlist, hkept⟩ := sfileLruClear_spec h
    have hloop : LruState.retryLoop (emfiles + 1) s =
        if full ≠ 0 then .error .aborted else LruState.retryLoop emfiles s₁ := by
      rw [LruState.retryLoop, hclear]
      rfl
    rw [hloop]
    by_cases hfull : full ≠ 0
    · rw [if_pos hfull]
      exact Or.inl rfl
    · rw [if_neg hfull]
      rcases ih hlist with haborted | ⟨s', order', hrest, hlist', hkept'⟩
      · exact Or.inl haborted
      · refine Or.inr ⟨s', order', hrest, hlist', ?_⟩
        intro a ha
        rw [hkept' a ha, hkept a ha]

/-- An sfile on the list is taken off and put back. -/
theorem OnList.renew (h : OnList s held order) (ha : a ∈ order) :
    ∃ order', OnList ((s.sfileGet (some a)).sfilePut (some a)) held order' := by
  obtain ⟨xs, ys, rfl⟩ := List.append_of_mem ha
  exact ⟨_, h.hold.release⟩

theorem sfileFind_result (hfind : Daemon.sfileFind o anons t ks cmd tbl = some (r, tbl')) :
    (r = .lost ∨ ∃ sf ∈ tbl.hashes, r = .hit sf.addr) ∧ tbl'.hashes = tbl.hashes ∧ tbl'.nextSfile = tbl.nextSfile ∨
      ∃ sf, r = .created tbl.nextSfile ∧ sf.addr = tbl.nextSfile ∧ tbl'.hashes = sf :: tbl.hashes ∧
        tbl'.nextSfile = tbl.nextSfile + 1 := by
  obtain ⟨cmdlines, heq⟩ := sfileFind_eq o anons t ks cmd tbl
  rw [heq] at hfind
  by_cases hlost : discards ks tbl.kernelCmdlines t cmd = true
  · rw [if_pos hlost] at hfind
    cases hfind
    exact Or.inl ⟨Or.inl rfl, rfl, rfl⟩
  · rw [if_neg hlost, findSfile] at hfind
    obtain ⟨hash, -, hfound⟩ := Option.map_eq_some_iff.mp hfind
    dsimp only at hfound
    split at hfound
    · rename_i sf hsf
      cases hfound
      exact Or.inl ⟨Or.inr ⟨sf, List.mem_of_find?_eq_some hsf, rfl⟩, rfl, rfl⟩
    · cases hfound
      exact Or.inr ⟨createSfile o t tbl.nextSfile hash (locate ks t), rfl, rfl, rfl, rfl⟩

theorem sfileHash_isSome (hanon : ∀ a, t.anon = some a → (anons a).isSome) (ki : Option (Nat × KernelImage)) :
    ∃ hash, sfileHash o anons t ki = some hash := by
  rw [sfileHash]
  dsimp only
  cases (if t.inKernel ≠ 0 then ki else none) with
  | some image => exact ⟨_, rfl⟩
  | none =>
    by_cases hcookie : t.cookie ≠ noCookie
    · simp only [if_pos hcookie]
      exact ⟨_, rfl⟩
    · simp only [if_neg hcookie]
      cases ha : t.anon with
      | none => exact ⟨_, rfl⟩
      | some a =>
        obtain ⟨m, hm⟩ := Option.isSome_iff_exists.mp (hanon a ha)
        simp only [hm]
        exact ⟨_, rfl⟩

theorem sfileFind_isSome (o : Options) (ks : KernelImages) (cmd : Cmdline) (tbl : SfileTable)
    (hanon : ∀ a, t.anon = some a → (anons a).isSome) :
    ∃ r tbl', Daemon.sfileFind o anons t ks cmd tbl = some (r, tbl') := by
  obtain ⟨cmdlines, heq⟩ := sfileFind_eq o anons t ks cmd tbl
  rw [heq]
  split_ifs
  · exact ⟨_, _, rfl⟩
  · obtain ⟨hash, hhash⟩ := sfileHash_isSome (o := o) hanon (locate ks t)
    rw [findSfile, hhash]
    exact ⟨_, _, rfl⟩

theorem OnList.setTable (h : OnList s held order) (hhashes : tbl'.hashes = s.table.hashes)
    (hnext : tbl'.nextSfile = s.table.nextSfile) : OnList { s with table := tbl' } held order where
  ring := h.ring
  live := by
    rw [hhashes]
    exact h.live
  nodup := h.nodup
  fresh := by
    rw [hhashes, hnext]
    exact h.fresh

/-- A new sfile is not on the list yet. -/
theorem OnList.create {sf : Sfile} (h : OnList s [] order) (haddr : sf.addr = s.table.nextSfile)
    (hhashes : tbl'.hashes = sf :: s.table.hashes) (hnext : tbl'.nextSfile = s.table.nextSfile + 1) :
    OnList { s with table := tbl' } [s.table.nextSfile] order where
  ring := h.ring
  live := by
    rw [hhashes, List.map_cons, haddr]
    exact h.live.cons s.table.nextSfile
  nodup := by
    refine List.nodup_cons.mpr ⟨?_, h.nodup⟩
    intro hmem
    obtain ⟨x, hx, hxaddr⟩ := List.mem_map.mp (h.live.subset hmem)
    exact Nat.ne_of_lt (h.fresh x hx) hxaddr
  fresh := by
    rw [hhashes, hnext]
    intro x hx
    rcases List.mem_cons.mp hx with rfl | hx
    · rw [haddr]
      exact Nat.lt_succ_self _
    · exact Nat.lt_succ_of_lt (h.fresh x hx)

/-- `sfile_find` keeps the list, and puts a new sfile on it. -/
theorem lruFind_spec (h : OnList s [] order) (hanon : ∀ a, t.anon = some a → (anons a).isSome) :
    ∃ s' order', s.sfileFind o anons t ks cmd = .ok s' ∧ OnList s' [] order' := by
  obtain ⟨r, tbl', hfind⟩ := sfileFind_isSome o ks cmd s.table hanon
  rw [LruState.sfileFind, hfind]
  rcases sfileFind_result hfind with ⟨hr, hhashes, hnext⟩ | ⟨sf, rfl, haddr, hhashes, hnext⟩
  · have hlist := h.setTable hhashes hnext
    rcases hr with rfl | ⟨sf, hsf, rfl⟩
    · exact ⟨_, order, rfl, hlist⟩
    · have hmem : sf.addr ∈ order := h.live.symm.subset (List.mem_map_of_mem hsf)
      obtain ⟨order', hrenewed⟩ := hlist.renew hmem
      exact ⟨_, order', rfl, hrenewed⟩
  · exact ⟨_, _, rfl, (h.create haddr hhashes hnext).release⟩

theorem OnList.reorder {held' : List Nat} (h : OnList s held order) (hperm : held'.Perm held) : OnList s held' order where
  ring := h.ring
  live := (hperm.append_right order).trans h.live
  nodup := (hperm.append_right order).nodup_iff.mpr h.nodup
  fresh := h.fresh

theorem OnList.mem_order {x : Sfile} (h : OnList s held order) (hat : s.table.at a = some x) (hfree : a ∉ held) :
    a ∈ order := by
  have haddr : x.addr = a := by simpa using List.find?_some hat
  have hmem : a ∈ held ++ order := by
    rw [← haddr]
    exact h.live.symm.subset (List.mem_map_of_mem (List.mem_of_find?_eq_some hat))
  exact (List.mem_append.mp hmem).resolve_left hfree

theorem OnList.get (h : OnList s held order) (ha : a ∈ order) :
    ∃ order', OnList (s.sfileGet (some a)) (a :: held) order' := by
  obtain ⟨xs, ys, rfl⟩ := List.append_of_mem ha
  exact ⟨_, h.hold⟩

/-- Nothing is done for `last` when there is none, or when it is the sfile itself. -/
theorem ite_last {sf : Nat} {last : Option Nat} {f : Option Nat → LruState} (hother : ¬∃ l, last = some l ∧ l ≠ sf)
    (hnone : last = none → f last = s) : (if some sf ≠ last then f last else s) = s := by
  cases last with
  | none => rw [if_pos (Option.some_ne_none sf), hnone rfl]
  | some l =>
    have hl : l = sf := by
      by_contra hne
      exact hother ⟨l, rfl, hne⟩
    rw [hl]
    exact if_neg fun hne => hne rfl

/-- `opd_open_sample_file`, once the path exists, leaves both sfiles as they are and puts them back on the list. -/
theorem opdOpenSampleFile_spec {sf : Nat} {last : Option Nat} {x : Sfile} (emfiles : Nat) (h : OnList s [] order)
    (hsf : s.table.at sf = some x) (hlast : ∀ l, last = some l → ∃ y, s.table.at l = some y) :
    s.opdOpenSampleFile sf last true true emfiles = .error .aborted ∨
      ∃ s' order', s.opdOpenSampleFile sf last true true emfiles = .ok s' ∧ OnList s' [] order' ∧
        s'.table.at sf = s.table.at sf ∧ ∀ l, last = some l → s'.table.at l = s.table.at l := by
  obtain ⟨order₁, h₁⟩ := h.get (h.mem_order hsf List.not_mem_nil)
  by_cases hother : ∃ l, last = some l ∧ l ≠ sf
  · obtain ⟨l, rfl, hne⟩ := hother
    obtain ⟨y, hy⟩ := hlast l rfl
    obtain ⟨order₂, h₂⟩ := h₁.get (h₁.mem_order hy (by simpa using hne))
    have hcond : some sf ≠ some l := fun heq => hne (Option.some_inj.mp heq).symm
    have hopen : s.opdOpenSampleFile sf (some l) true true emfiles =
        (LruState.retryLoop emfiles ((s.sfileGet (some sf)).sfileGet (some l))).map fun s =>
          (s.sfilePut (some sf)).sfilePut (some l) := by
      rw [LruState.opdOpenSampleFile]
      simp only [LruState.putBoth, if_pos hcond]
      rfl
    rw [hopen]
    rcases retryLoop_spec emfiles h₂ with haborted | ⟨s', order', hretry, hlist, hkept⟩
    · rw [haborted]
      exact Or.inl rfl
    · rw [hretry]
      have hback := (hlist.reorder (List.Perm.swap l sf [])).release.release
      refine Or.inr ⟨_, _, rfl, hback, ?_, ?_⟩
      · exact hkept sf (List.mem_cons_of_mem l List.mem_cons_self)
      · rintro l' hl'
        cases hl'
        exact hkept l List.mem_cons_self
  · have hsame : ∀ s : LruState, (if some sf ≠ last then s.sfileGet last else s) = s :=
      fun s => ite_last hother (by rintro rfl; rfl)
    have hsamePut : ∀ s : LruState, (if some sf ≠ last then s.sfilePut last else s) = s :=
      fun s => ite_last hother (by rintro rfl; rfl)
    have hopen : s.opdOpenSampleFile sf last true true emfiles =
        (LruState.retryLoop emfiles (s.sfileGet (some sf))).map fun s => s.sfilePut (some sf) := by
      rw [LruState.opdOpenSampleFile]
      simp only [LruState.putBoth, hsame, hsamePut]
      rfl
    rw [hopen]
    rcases retryLoop_spec emfiles h₁ with haborted | ⟨s', order', hretry, hlist, hkept⟩
    · rw [haborted]
      exact Or.inl rfl
    · rw [hretry]
      refine Or.inr ⟨_, _, rfl, hlist.release, hkept sf List.mem_cons_self, ?_⟩
      rintro l rfl
      have hl : l = sf := by
        by_contra hne
        exact hother ⟨l, rfl, hne⟩
      rw [hl]
      exact hkept sf List.mem_cons_self

/-! ### Runs -/

/-- A call of one of the functions. -/
inductive LruOp
  | find (anons : Nat → Option AnonMapping) (t : Transient) (ks : KernelImages) (cmd : Cmdline)
  | openFile (sf : Nat) (last : Option Nat) (mangled created : Bool) (emfiles : Nat)
  | lruClear
  | clearKernel
  | clearAnon (anon : Nat)

namespace LruState

variable (o : Options)

def step (s : LruState) : LruOp → Except LruStop LruState
  | .find anons t ks cmd => s.sfileFind o anons t ks cmd
  | .openFile sf last mangled created emfiles => s.opdOpenSampleFile sf last mangled created emfiles
  | .lruClear => s.sfileLruClear.map Prod.snd
  | .clearKernel => s.sfileClearKernel
  | .clearAnon anon => s.sfileClearAnon anon

/-- The pointers that a call is given lead to what is live. -/
def Given (s : LruState) : LruOp → Prop
  | .find anons t _ _ => ∀ a, t.anon = some a → (anons a).isSome
  | .openFile sf last _ _ _ => (∃ x, s.table.at sf = some x) ∧ ∀ l, last = some l → ∃ y, s.table.at l = some y
  | _ => True

/-- No path is created in vain. -/
def PathCreated : LruOp → Prop
  | .openFile _ _ mangled created _ => mangled = true → created = true
  | _ => True

/-- `lru_list` is well formed and has every live sfile once. -/
def WellFormed (s : LruState) : Prop :=
  ∃ order : List Nat, Ring s.lru none (order.map some) ∧ order.Perm (s.table.hashes.map Sfile.addr)

/-- The sfile that is opened and `last` stay what they are. -/
def Keeps (s s' : LruState) : LruOp → Prop
  | .openFile sf last _ _ _ => s'.table.at sf = s.table.at sf ∧ ∀ l, last = some l → s'.table.at l = s.table.at l
  | _ => True

/-- A run whose calls are given live pointers. -/
def RunsGiven (s : LruState) : List LruOp → Prop
  | [] => True
  | op :: ops => s.Given op ∧ ∀ s', s.step o op = .ok s' → RunsGiven s' ops

/-- Every call of a run returns unless it aborts the program, and the list is well formed between the calls. -/
def RunsKept (s : LruState) : List LruOp → Prop
  | [] => s.WellFormed
  | op :: ops =>
    s.WellFormed ∧
      match s.step o op with
      | .error stop => stop = .aborted
      | .ok s' => s.Keeps s' op ∧ RunsKept s' ops

end LruState

variable {op : LruOp} {ops : List LruOp}

theorem step_onList (h : OnList s [] order) (hgiven : s.Given op) (hcreated : LruState.PathCreated op) :
    s.step o op = .error .aborted ∨ ∃ s' order', s.step o op = .ok s' ∧ OnList s' [] order' ∧ s.Keeps s' op := by
  cases op with
  | find anons t ks cmd =>
    obtain ⟨s', order', hstep, hlist⟩ := lruFind_spec h hgiven
    exact Or.inr ⟨s', order', hstep, hlist, trivial⟩
  | openFile sf last mangled created emfiles =>
    obtain ⟨⟨x, hsf⟩, hlast⟩ := hgiven
    cases mangled with
    | false => exact Or.inr ⟨s, order, rfl, h, rfl, fun _ _ => rfl⟩
    | true =>
      obtain rfl : created = true := hcreated rfl
      exact opdOpenSampleFile_spec emfiles h hsf hlast
  | lruClear =>
    obtain ⟨full, s', order', hclear, hlist, -⟩ := sfileLruClear_spec h
    refine Or.inr ⟨s', order', ?_, hlist, trivial⟩
    rw [LruState.step, hclear]
    rfl
  | clearKernel =>
    obtain ⟨s', order', hclear, -, hlist⟩ := forEachSfile_spec (fun sf => sf.kernel.isSome) h
    exact Or.inr ⟨s', order', hclear, hlist, trivial⟩
  | clearAnon anon =>
    obtain ⟨s', order', hclear, -, hlist⟩ := forEachSfile_spec (fun sf => sf.anon = some anon) h
    exact Or.inr ⟨s', order', hclear, hlist, trivial⟩

theorem OnList.wellFormed (h : OnList s [] order) : s.WellFormed := ⟨order, h.ring, h.live⟩

theorem runsKept_of_onList (h : OnList s [] order) (hgiven : s.RunsGiven o ops)
    (hcreated : ∀ op ∈ ops, LruState.PathCreated op) : s.RunsKept o ops := by
  induction ops generalizing s order with
  | nil => exact h.wellFormed
  | cons op ops ih =>
    refine ⟨h.wellFormed, ?_⟩
    rcases step_onList h hgiven.1 (hcreated op List.mem_cons_self) with haborted | ⟨s', order', hstep, hlist, hkeeps⟩
    · rw [haborted]
    · rw [hstep]
      exact ⟨hkeeps, ih hlist (hgiven.2 s' hstep) fun op hop => hcreated op (List.mem_cons_of_mem _ hop)⟩

/-- In every run in which no path is created in vain, the list stays well formed, and nothing that is being opened is
freed. -/
theorem lruList_kept (o : Options) (ops : List LruOp) (hgiven : LruState.init.RunsGiven o ops)
    (hcreated : ∀ op ∈ ops, LruState.PathCreated op) : LruState.init.RunsKept o ops :=
  runsKept_of_onList onList_init hgiven hcreated

/-- The idle task's sample is looked for. -/
def findIdle : LruOp := .find (fun _ => none) (kernelSample 0) (World.init false smallVmlinux noXen).images .present

def withIdle : LruState := LruState.sfilePut ⟨idleTable, LruState.init.lru⟩ (some 0)

theorem step_findIdle : LruState.init.step unseparated findIdle = .ok withIdle := by
  have hfind : Daemon.sfileFind unseparated (fun _ => none) (kernelSample 0)
      (World.init false smallVmlinux noXen).images .present LruState.init.table = some (.created 0, idleTable) := idle_found
  rw [findIdle, LruState.step, LruState.sfileFind, hfind]
  rfl

theorem findIdle_given (op : LruOp) (hop : withIdle.Given op) : LruState.init.RunsGiven unseparated [findIdle, op] := by
  refine ⟨fun a ha => (by cases ha), fun s' hs' => ?_⟩
  rw [step_findIdle] at hs'
  cases hs'
  exact ⟨hop, fun s'' hs'' => trivial⟩

theorem withIdle_at : ∃ x, withIdle.table.at 0 = some x := ⟨_, rfl⟩

theorem lruList_opened : LruState.init.RunsKept unseparated [findIdle, .openFile 0 none true true 0] := by
  apply lruList_kept unseparated [findIdle, .openFile 0 none true true 0]
  · exact findIdle_given _ ⟨withIdle_at, fun l hl => (by cases hl)⟩
  · intro op hop
    rcases List.mem_cons.mp hop with rfl | hop
    · trivial
    · obtain rfl := List.mem_singleton.mp hop
      exact fun _ => rfl

/-- The path for the sample file cannot be created: its sfile is put on the list twice. -/
theorem lruList_path :
    LruState.init.RunsGiven unseparated [findIdle, .openFile 0 none true false 0] ∧
      ¬LruState.init.RunsKept unseparated [findIdle, .openFile 0 none true false 0] := by
  refine ⟨findIdle_given _ ⟨withIdle_at, fun l hl => (by cases hl)⟩, fun hrun => ?_⟩
  rw [LruState.RunsKept, step_findIdle] at hrun
  obtain ⟨order, hring, hperm⟩ : (withIdle.putBoth 0 none).WellFormed := hrun.2.2.2.2
  have hone : order.Perm [0] := hperm
  obtain rfl := List.perm_singleton.mp hone
  have hnext : (withIdle.putBoth 0 none).lru.next (some 0) = some 0 := rfl
  have hend : (withIdle.putBoth 0 none).lru.next (some 0) = none := hring.path.2.1
  rw [hnext] at hend
  cases hend

end Oprofile.Daemon

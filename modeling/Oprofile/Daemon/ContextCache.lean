import Oprofile.Daemon.SampleSteps
import Oprofile.Daemon.IbsRecords

/-! The sfile and the anonymous mapping that the transient caches, and samples attributed without them. -/
namespace Oprofile.Daemon

variable {o : Setup} {opts : Options} {sur : Surroundings} {tbl tbl' : SfileTable} {t : Transient}
  {anons : Nat → Option AnonMapping} {a c : Nat} {buffer buffer' : Buffer}

/-! ### A second lookup -/

/-- What a search finds first it still finds first when others are gone. -/
theorem find?_of_sublist {α : Type} {p : α → Bool} {l l' : List α} {x : α} (h : l'.Sublist l) (hnodup : l.Nodup)
    (hfind : l.find? p = some x) (hx : x ∈ l') : l'.find? p = some x := by
  induction h with
  | slnil => exact hfind
  | @cons l' l y hsub ih =>
    obtain ⟨hy, hrest⟩ := List.nodup_cons.mp hnodup
    apply ih hrest _ hx
    by_cases hp : p y = true
    · rw [List.find?_cons_of_pos hp, Option.some_inj] at hfind
      subst hfind
      exact (hy (hsub.subset hx)).elim
    · rwa [List.find?_cons_of_neg hp] at hfind
  | @cons_cons l' l y hsub ih =>
    by_cases hp : p y = true
    · rw [List.find?_cons_of_pos hp] at hfind ⊢
      exact hfind
    · rw [List.find?_cons_of_neg hp] at hfind ⊢
      apply ih (List.nodup_cons.mp hnodup).2 hfind
      rcases List.mem_cons.mp hx with rfl | hmem
      · exact (hp (List.find?_some hfind)).elim
      · exact hmem

/-- A lookup in user mode would return this sfile, which is in the table. -/
def Hits (o : Options) (anons : Nat → Option AnonMapping) (t : Transient) (tbl : SfileTable) (c : Nat) : Prop :=
  ∃ hash fields, sfileHash o anons t none = some hash ∧
    tbl.cores.find? (fun x => decide (x.2.hashval = hash) && transMatch o t x.2 none) = some (c, fields)

theorem Hits.findSfile (h : Hits opts anons t tbl c) : findSfile opts anons t none tbl = some (.hit c, tbl) := by
  obtain ⟨hash, fields, hhash, hfind⟩ := h
  rw [SfileTable.cores, List.find?_map] at hfind
  obtain ⟨sf, hsf, hcore⟩ := Option.map_eq_some_iff.mp hfind
  rw [Oprofile.Daemon.findSfile, hhash, Option.map_some]
  have hsame : tbl.hashes.find? (fun sf => decide (sf.hashval = hash) && transMatch opts t sf.toSfileFields none) =
      some sf := hsf
  simp only [Option.map_none, hsame]
  rw [show sf.addr = c from congrArg Prod.fst hcore]

/-- What a lookup has returned would be returned again. -/
theorem hits_of_findSfile {r : Found} (hoffset : t.embeddedOffset = unusedEmbeddedOffset) (huser : t.inKernel = 0)
    (h : findSfile opts anons t none tbl = some (r, tbl')) : ∃ c, r.sfile = some c ∧ Hits opts anons t tbl' c := by
  rw [Oprofile.Daemon.findSfile] at h
  obtain ⟨hash, hhash, hfound⟩ := Option.map_eq_some_iff.mp h
  split at hfound
  · next sf hsf =>
    cases hfound
    refine ⟨sf.addr, rfl, hash, sf.toSfileFields, hhash, ?_⟩
    rw [SfileTable.cores, List.find?_map]
    exact Option.map_eq_some_iff.mpr ⟨sf, hsf, rfl⟩
  · cases hfound
    refine ⟨tbl.nextSfile, rfl, hash, (createSfile opts t tbl.nextSfile hash none).toSfileFields, hhash, ?_⟩
    rw [SfileTable.cores, List.map_cons, List.find?_cons_of_pos]
    · rfl
    · have hkey : (createSfile opts t tbl.nextSfile hash none).key opts = t.key opts none :=
        createSfile_key hoffset fun _ => huser
      rw [Bool.and_eq_true]
      exact ⟨decide_eq_true rfl, transMatch_iff.mpr hkey⟩

theorem Hits.mem (h : Hits opts anons t tbl c) : ∃ fields, (c, fields) ∈ tbl.cores := by
  obtain ⟨hash, fields, -, hfind⟩ := h
  exact ⟨fields, List.mem_of_find?_eq_some hfind⟩

theorem Hits.thinned (h : Hits opts anons t tbl c) (hthin : Thinned tbl tbl') (hnodup : tbl.cores.Nodup)
    (hkept : ∀ x ∈ tbl.cores, x.1 = c → x ∈ tbl'.cores) : Hits opts anons t tbl' c := by
  obtain ⟨hash, fields, hhash, hfind⟩ := h
  exact ⟨hash, fields, hhash, find?_of_sublist hthin.cores hnodup hfind
    (hkept _ (List.mem_of_find?_eq_some hfind) rfl)⟩

theorem sfileFind_user {ks : KernelImages} {cmd : Cmdline} (huser : t.inKernel = 0)
    (hplaced : ¬(t.cookie = noCookie ∧ t.anon = none)) :
    sfileFind opts anons t ks cmd tbl = findSfile opts anons t none tbl := by
  rw [sfileFind, if_neg (by omega), if_neg (not_not.mpr huser), if_neg hplaced]

theorem sfileFind_nowhere {ks : KernelImages} {cmd : Cmdline} (huser : t.inKernel = 0)
    (hnowhere : t.cookie = noCookie ∧ t.anon = none) :
    sfileFind opts anons t ks cmd tbl = some (.lost, tbl) := by
  rw [sfileFind, if_neg (by omega), if_neg (not_not.mpr huser), if_pos hnowhere]

namespace DaemonState

variable {s s' s₁ s₂ : DaemonState}

/-! ### What is in memory -/

/-- What lies at the address of an sfile is that sfile, and addresses are not given out twice. -/
structure Stored (s : DaemonState) : Prop where
  memory : ∀ x ∈ s.table.cores, s.memory.sfiles x.1 = x.2
  addrs : (s.table.cores.map Prod.fst).Nodup
  fresh : ∀ x ∈ s.table.cores, x.1 < s.table.nextSfile

theorem Stored.nodup (h : Stored s) : s.table.cores.Nodup := h.addrs.of_map

theorem Stored.thinned (h : Stored s) (hthin : Thinned s.table s'.table)
    (hmemory : s'.memory.sfiles = s.memory.sfiles) : Stored s' := by
  refine ⟨fun x hx => ?_, h.addrs.sublist (hthin.cores.map _), fun x hx => ?_⟩
  · rw [hmemory]
    exact h.memory x (hthin.cores.subset hx)
  · rw [hthin.next]
    exact h.fresh x (hthin.cores.subset hx)

theorem Stored.at_eq {sf : Sfile} (h : Stored s) (hat : s.table.at a = some sf) :
    s.memory.sfiles a = sf.toSfileFields := by
  have haddr : sf.addr = a := of_decide_eq_true (List.find?_some (p := fun sf : Sfile => decide (sf.addr = a)) hat)
  have hmem := h.memory sf.core (List.mem_map_of_mem (List.mem_of_find?_eq_some hat))
  rw [← haddr]
  exact hmem

/-- Nothing changes in memory for an sfile that was there. -/
theorem Stored.setFound_hit (h : Stored s) (hc : c = a) :
    s.setFound (.hit c, s.table) = { s with trans := { s.trans with current := some a } } := by
  have hsame : (fun addr => ((s.table.at addr).map Sfile.toSfileFields).getD (s.memory.sfiles addr)) =
      s.memory.sfiles := by
    funext addr
    cases hat : s.table.at addr with
    | none => rfl
    | some sf => exact (h.at_eq hat).symm
  subst hc
  rw [setFound]
  simp only [hsame]
  rfl

/-- What a lookup does to the table. -/
theorem sfileFind_cores {ks : KernelImages} {cmd : Cmdline} {found : Found × SfileTable}
    (h : sfileFind opts anons t ks cmd tbl = some found) :
    (found.2.cores = tbl.cores ∧ found.2.nextSfile = tbl.nextSfile) ∨
      (∃ fields, found.2.cores = (tbl.nextSfile, fields) :: tbl.cores) ∧ found.2.nextSfile = tbl.nextSfile + 1 := by
  obtain ⟨cmdlines, heq⟩ := sfileFind_eq opts anons t ks cmd tbl
  rw [heq] at h
  split_ifs at h with hlost
  · cases h
    exact .inl ⟨rfl, rfl⟩
  · obtain ⟨hash, -, hcases⟩ := findSfile_cases h
    rcases hcases with ⟨sf, -, -, -, -, htbl⟩ | ⟨-, -, htbl⟩
    · rw [htbl]
      exact .inl ⟨rfl, rfl⟩
    · rw [htbl]
      exact .inr ⟨⟨_, rfl⟩, rfl⟩

theorem mem_of_cores {tbl : SfileTable} {x : Nat × SfileFields} (hx : x ∈ tbl.cores)
    (haddrs : (tbl.cores.map Prod.fst).Nodup) : (tbl.at x.1).map Sfile.toSfileFields = some x.2 := by
  obtain ⟨sf, hsf, haddr, hfields⟩ := SfileTable.mem_cores.mp hx
  have hfound : tbl.at x.1 = some sf := by
    rw [SfileTable.at, List.find?_eq_some_iff_append]
    obtain ⟨before, after, hsplit⟩ := List.append_of_mem hsf
    refine ⟨decide_eq_true haddr, before, after, hsplit, fun y hy => ?_⟩
    have hnodup : (tbl.hashes.map Sfile.addr).Nodup := by
      rw [SfileTable.cores, List.map_map] at haddrs
      exact haddrs
    rw [hsplit, List.map_append, List.map_cons] at hnodup
    have hout := (List.nodup_append.mp hnodup).2.2 y.addr (List.mem_map_of_mem hy) sf.addr List.mem_cons_self
    rw [← haddr]
    simpa using hout
  rw [hfound, Option.map_some, hfields]

/-- The sfile that a lookup has made is in memory. -/
theorem Stored.setFound {ks : KernelImages} {cmd : Cmdline} {found : Found × SfileTable} (h : Stored s)
    (hfind : sfileFind opts anons t ks cmd s.table = some found) : Stored (s.setFound found) := by
  have haddrs : (found.2.cores.map Prod.fst).Nodup ∧ ∀ x ∈ found.2.cores, x.1 < found.2.nextSfile := by
    rcases sfileFind_cores hfind with ⟨hcores, hnext⟩ | ⟨⟨fields, hcores⟩, hnext⟩
    · rw [hcores, hnext]
      exact ⟨h.addrs, h.fresh⟩
    · rw [hcores, hnext]
      refine ⟨List.nodup_cons.mpr ⟨fun hmem => ?_, h.addrs⟩, fun x hx => ?_⟩
      · obtain ⟨x, hx, haddr⟩ := List.mem_map.mp hmem
        have hlt := h.fresh x hx
        rw [haddr] at hlt
        exact Nat.lt_irrefl _ hlt
      · rcases List.mem_cons.mp hx with rfl | hmem
        · exact Nat.lt_succ_self _
        · exact Nat.lt_succ_of_lt (h.fresh x hmem)
  refine ⟨fun x hx => ?_, haddrs.1, haddrs.2⟩
  have hat : (found.2.at x.1).map Sfile.toSfileFields = some x.2 := mem_of_cores hx haddrs.1
  show ((found.2.at x.1).map Sfile.toSfileFields).getD (s.memory.sfiles x.1) = x.2
  rw [hat]
  rfl

/-! ### The cached context -/

/-- The mapping in which a sample lies is the cached one, if it is known and an sfile is cached. -/
def ContextFits (s : DaemonState) : Prop :=
  s.trans.inKernel = 0 → s.trans.cookie = noCookie → s.trans.current.isSome = true →
    ∀ a, s.lookUpAnon = some a → s.trans.anon = some a

/-- The mapping that is cached in user mode is the first of its chain. -/
structure Mapped (s : DaemonState) : Prop where
  stored : Stored s
  offset : s.trans.embeddedOffset = unusedEmbeddedOffset
  mode : s.trans.inKernel = 0 → s.trans.cookie ≠ noCookie → s.trans.anon = none
  front : s.trans.inKernel = 0 → ∀ a, s.trans.anon = some a →
    ∃ rest, s.anons.hashes (hashAnon s.trans.tgid s.trans.appCookie) = a :: rest

/-- What is cached in user mode is what would be found. -/
structure Cached (o : Setup) (s : DaemonState) : Prop extends Mapped s where
  placed : s.trans.inKernel = 0 → s.trans.current.isSome = true → ¬(s.trans.cookie = noCookie ∧ s.trans.anon = none)
  hits : s.trans.inKernel = 0 → ∀ c, s.trans.current = some c →
    Hits o.toOptions s.anons.anons s.trans s.table c

/-- What is not cached. -/
theorem clearTransCurrent_eq (hcurrent : s.trans.current = none) (hanon : s.trans.anon = none) :
    s.clearTransCurrent = s := by
  obtain ⟨t, memory, images, nextImage, anons, table, mapsRead, modulesRead, ibsSamples, stats, translated, logged⟩ := s
  obtain ⟨tracing, current, last, anon, lastAnon⟩ := t
  dsimp only at hcurrent hanon
  subst hcurrent hanon
  rfl

/-- Another lookup of the sfile finds the cached one and changes nothing. -/
theorem Cached.recompute (h : Cached o s) (huser : s.trans.inKernel = 0) (hcurrent : s.trans.current = some c) :
    { s with trans := { s.trans with current := none } }.findCurrent o.toOptions sur = some s := by
  have hfind : sfileFind o.toOptions s.anons.anons { s.trans with current := none } s.images
      (sur.cmdline s.trans.tgid) s.table = some (.hit c, s.table) := by
    have hhits : Hits o.toOptions s.anons.anons { s.trans with current := none } s.table c := h.hits huser c hcurrent
    rw [← hhits.findSfile]
    exact sfileFind_user huser (h.placed huser (by rw [hcurrent]; rfl))
  have hset : Stored { s with trans := { s.trans with current := none } } :=
    ⟨h.stored.memory, h.stored.addrs, h.stored.fresh⟩
  rw [findCurrent, if_neg (by simp)]
  dsimp only
  rw [hfind, Option.map_some, hset.setFound_hit rfl, ← hcurrent]

theorem toFront_eq {x : AnonMaps} {hash : UInt64} {rest : List Nat} (h : x.hashes hash = a :: rest) :
    x.toFront hash a = x := by
  have hsame : (fun i => if i = hash then a :: (x.hashes i).erase a else x.hashes i) = x.hashes := by
    funext i
    split_ifs with hi
    · rw [hi, h, List.erase_cons_head]
    · rfl
  rw [AnonMaps.toFront, hsame]

/-- Without a cached mapping, a mapping that is known is found. -/
theorem findAnonMapping_known (sur : Surroundings) (hnone : s.trans.anon = none) (hlook : s.lookUpAnon = some a) :
    s.findAnonMapping sur = (some a, s.foundAnon a) := by
  rw [findAnonMapping, if_neg (by simp [hnone]), hlook]

/-- Without a cached mapping, the maps are read again if no mapping is known. -/
theorem findAnonMapping_read (sur : Surroundings) (hnone : s.trans.anon = none) (hlook : s.lookUpAnon = none)
    (hread : s.clearAnonMaps.getAnonMaps sur = s') :
    (∀ a, s'.lookUpAnon = some a → s.findAnonMapping sur = (some a, s'.foundAnon a)) ∧
      (s'.lookUpAnon = none → s.findAnonMapping sur = (none, s')) := by
  rw [findAnonMapping, if_neg (by simp [hnone]), hlook]
  dsimp only
  rw [hread]
  exact ⟨fun a ha => by rw [ha], fun ha => by rw [ha]⟩

/-- The search for the mapping without the cached one. -/
theorem Cached.findAnon_eq (h : Cached o s) (huser : s.trans.inKernel = 0) (hcookie : s.trans.cookie = noCookie)
    (hfits : ContextFits s) :
    (setAnon (s.findAnonMapping sur) = s ∧ setAnon (s.clearTransCurrent.findAnonMapping sur) =
      { s with trans := { s.trans with current := none } }) ∨
      setAnon (s.findAnonMapping sur) = setAnon (s.clearTransCurrent.findAnonMapping sur) := by
  rcases findAnonMapping_cases s sur with ⟨a, hanon, hmatch, hfind⟩ | ⟨hnot, a, hlook, hfind⟩ |
      ⟨-, hlook, s', -, hs', hcases⟩
  · obtain ⟨rest, hfront⟩ := h.front huser a hanon
    have hlook : s.lookUpAnon = some a := by
      rw [lookUpAnon, hfront, List.find?_cons_of_pos hmatch]
    have hsame : s.clearTransCurrent.foundAnon a = s.clearTransCurrent := by
      have hkeep := toFront_eq hfront
      rw [foundAnon]
      show { s.clearTransCurrent with
        anons := s.anons.toFront (hashAnon s.trans.tgid s.trans.appCookie) a } = s.clearTransCurrent
      rw [hkeep]
      rfl
    left
    rw [hfind, findAnonMapping_known (s := s.clearTransCurrent) sur rfl hlook, hsame]
    constructor
    · rw [setAnon, ← hanon]
    · rw [setAnon, clearTransCurrent]
      dsimp only
      rw [← hanon]
  · right
    rw [hfind, findAnonMapping_known (s := s.clearTransCurrent) sur rfl hlook]
    have hnone : s.trans.current = none := by
      by_contra hsome
      have hanon := hfits huser hcookie (Option.isSome_iff_ne_none.mpr hsome) a hlook
      have hmatch := List.find?_some hlook
      rw [hanon] at hnot
      exact hnot hmatch
    simp only [setAnon, foundAnon, clearTransCurrent, hnone]
  · right
    obtain ⟨hknown, hunknown⟩ := findAnonMapping_read sur (s := s.clearTransCurrent) rfl hlook hs'.symm
    rcases hcases with ⟨a, hlater, hfind⟩ | ⟨hlater, hfind⟩
    · rw [hfind, hknown a hlater]
    · rw [hfind, hunknown hlater]

/-- The context that is found with what is cached is the one found without. -/
theorem Cached.findContext_eq (sur : Surroundings) (h : Cached o s) (hfits : ContextFits s) :
    s.findContext o.toOptions sur = s.clearTransCurrent.findContext o.toOptions sur := by
  rw [findContext, findContext]
  rcases findAnon_cases s sur with ⟨hkernel, hfind⟩ | ⟨huser, hcookie, hfind⟩ | ⟨huser, hcookie, hfind⟩
  · rcases findAnon_cases s.clearTransCurrent sur with ⟨-, hclear⟩ | ⟨huser, -⟩ | ⟨huser, -⟩
    · rw [hfind, hclear]
      rfl
    · exact (hkernel huser).elim
    · exact (hkernel huser).elim
  · have hclear : s.clearTransCurrent.dropCached.findAnon sur = s.clearTransCurrent := by
      rcases findAnon_cases s.clearTransCurrent sur with ⟨hkernel, -⟩ | ⟨-, -, hclear⟩ | ⟨-, hnone, -⟩
      · exact (hkernel huser).elim
      · exact hclear
      · exact (hcookie hnone).elim
    rw [hfind, hclear]
    have hanon := h.mode huser hcookie
    cases hcurrent : s.trans.current with
    | none => rw [clearTransCurrent_eq hcurrent hanon]
    | some c =>
      have hcached : s.findCurrent o.toOptions sur = some s := by
        rw [findCurrent, if_pos (by rw [hcurrent]; rfl)]
      have hdrop : s.clearTransCurrent = { s with trans := { s.trans with current := none } } := by
        rw [clearTransCurrent, ← hanon]
      rw [hcached, hdrop, h.recompute huser hcurrent]
  · have hclear : s.clearTransCurrent.dropCached.findAnon sur = setAnon (s.clearTransCurrent.findAnonMapping sur) := by
      rcases findAnon_cases s.clearTransCurrent sur with ⟨hkernel, -⟩ | ⟨-, hsome, -⟩ | ⟨-, -, hclear⟩
      · exact (hkernel huser).elim
      · exact (hsome hcookie).elim
      · exact hclear
    rw [hfind, hclear]
    rcases h.findAnon_eq huser hcookie hfits with ⟨hcached, hfresh⟩ | hsame
    · rw [hcached, hfresh]
      cases hcurrent : s.trans.current with
      | none => rw [← hcurrent]
      | some c =>
        rw [h.recompute huser hcurrent, findCurrent, if_pos (by rw [hcurrent]; rfl)]
    · rw [hsame]

/-! ### What is cached after an item -/

theorem mapped_of_none (h : Stored s) (hoffset : s.trans.embeddedOffset = unusedEmbeddedOffset)
    (hanon : s.trans.anon = none) : Mapped s :=
  ⟨h, hoffset, fun _ _ => hanon, fun _ a ha => (by rw [hanon] at ha; cases ha)⟩

theorem cached_of_none (h : Stored s) (hoffset : s.trans.embeddedOffset = unusedEmbeddedOffset)
    (hanon : s.trans.anon = none) (hcurrent : s.trans.current = none) : Cached o s :=
  ⟨mapped_of_none h hoffset hanon, fun _ hsome => (by rw [hcurrent] at hsome; cases hsome),
    fun _ c hc => (by rw [hcurrent] at hc; cases hc)⟩

theorem mapped_foundAnon (h : Stored s) (hoffset : s.trans.embeddedOffset = unusedEmbeddedOffset)
    (hcookie : s.trans.cookie = noCookie) (a : Nat) : Mapped (setAnon (some a, s.foundAnon a)) := by
  refine ⟨⟨h.memory, h.addrs, h.fresh⟩, hoffset, fun _ hsome => (hsome hcookie).elim, fun _ a' ha' => ?_⟩
  cases ha'
  exact ⟨_, if_pos rfl⟩

theorem Stored.steps (h : Stored s) (hsteps : AnonSteps s s') : Stored s' := h.thinned hsteps.thinned hsteps.sfiles

theorem SameButLast.offset {t t' : Transient} (h : SameButLast t t') : t'.embeddedOffset = t.embeddedOffset := by rw [h]

theorem SameButLast.cookie {t t' : Transient} (h : SameButLast t t') : t'.cookie = t.cookie := by rw [h]

theorem Stored.clearTransCurrent (h : Stored s) : Stored s.clearTransCurrent := ⟨h.memory, h.addrs, h.fresh⟩

/-- The search for a mapping from a transient without one. -/
theorem mapped_findAnon (sur : Surroundings) (h : Stored s) (hoffset : s.trans.embeddedOffset = unusedEmbeddedOffset) :
    Mapped (s.clearTransCurrent.dropCached.findAnon sur) ∧
      (s.clearTransCurrent.dropCached.findAnon sur).trans.current = none := by
  rcases findAnon_cases s.clearTransCurrent sur with ⟨-, hfind⟩ | ⟨-, -, hfind⟩ | ⟨-, hcookie, hfind⟩
  · rw [hfind]
    exact ⟨mapped_of_none h.clearTransCurrent hoffset rfl, rfl⟩
  · rw [hfind]
    exact ⟨mapped_of_none h.clearTransCurrent hoffset rfl, rfl⟩
  · rw [hfind]
    rcases findAnonMapping_cases s.clearTransCurrent sur with ⟨a, hanon, -, -⟩ | ⟨-, a, -, hmapping⟩ |
        ⟨-, -, s', hsteps, -, ⟨a, -, hmapping⟩ | ⟨-, hmapping⟩⟩
    · cases hanon
    · rw [hmapping]
      exact ⟨mapped_foundAnon h.clearTransCurrent hoffset hcookie a, rfl⟩
    · rw [hmapping]
      have htrans : SameButLast s.clearTransCurrent.clearTransCurrent.trans s'.trans := hsteps.trans_eq
      have hstored : Stored s' := h.clearTransCurrent.clearTransCurrent.steps hsteps
      exact ⟨mapped_foundAnon hstored (htrans.offset.trans hoffset) (htrans.cookie.trans hcookie) a, htrans.current⟩
    · rw [hmapping]
      have htrans : SameButLast s.clearTransCurrent.clearTransCurrent.trans s'.trans := hsteps.trans_eq
      have hstored : Stored s' := h.clearTransCurrent.clearTransCurrent.steps hsteps
      have hset : Stored (setAnon (none, s')) := ⟨hstored.memory, hstored.addrs, hstored.fresh⟩
      exact ⟨mapped_of_none hset (htrans.offset.trans hoffset) rfl, htrans.current⟩

/-- The sfile that has been found is cached. -/
theorem Mapped.setFound {found : Found × SfileTable} (h : Mapped s)
    (hfind : sfileFind o.toOptions s.anons.anons s.trans s.images (sur.cmdline s.trans.tgid) s.table = some found) :
    Cached o (s.setFound found) := by
  have hplaced : s.trans.inKernel = 0 → found.1.sfile.isSome = true →
      ¬(s.trans.cookie = noCookie ∧ s.trans.anon = none) := by
    intro huser hsome hnowhere
    rw [sfileFind_nowhere huser hnowhere] at hfind
    cases hfind
    cases hsome
  refine ⟨⟨h.stored.setFound hfind, h.offset, h.mode, h.front⟩, hplaced, fun huser c hc => ?_⟩
  have huser : s.trans.inKernel = 0 := huser
  have hc : found.1.sfile = some c := hc
  rw [sfileFind_user huser (hplaced huser (by rw [hc]; rfl))] at hfind
  obtain ⟨c', hc', hhits⟩ := hits_of_findSfile h.offset huser hfind
  obtain rfl : c' = c := Option.some_inj.mp (hc'.symm.trans hc)
  exact hhits

theorem cached_findContext (h : Stored s) (hoffset : s.trans.embeddedOffset = unusedEmbeddedOffset)
    (hcontext : s.clearTransCurrent.findContext o.toOptions sur = some s₁) : Cached o s₁ := by
  obtain ⟨hmapped, hnone⟩ := mapped_findAnon sur h hoffset
  rcases findCurrent_cases hcontext with ⟨hsome, -⟩ | ⟨-, found, hfind, rfl⟩
  · rw [hnone] at hsome
    cases hsome
  · exact hmapped.setFound hfind

theorem Cached.stays (h : Cached o s) (hstays : Stays s s') : Cached o s' := by
  obtain ⟨htrans, hmemory, hanons, -, -, hthin, hkept⟩ := hstays
  have hstored : Stored s' := h.stored.thinned hthin (by rw [hmemory])
  refine ⟨⟨hstored, ?_, ?_, ?_⟩, ?_, ?_⟩
  · rw [htrans]
    exact h.offset
  · rw [htrans]
    exact h.mode
  · rw [htrans, hanons]
    exact h.front
  · rw [htrans]
    exact h.placed
  · rw [htrans, hanons]
    intro huser c hc
    have hhits : Hits o.toOptions s.anons.anons s.trans s'.table c :=
      (h.hits huser c hc).thinned hthin h.stored.nodup fun x hx heq => hkept x hx (.inl (heq ▸ hc))
    exact hhits

theorem Cached.finishSample (h : Cached o s) : Cached o s.finishSample := by
  unfold DaemonState.finishSample
  dsimp only
  split
  all_goals exact ⟨⟨⟨h.stored.memory, h.stored.addrs, h.stored.fresh⟩, h.offset, h.mode, h.front⟩, h.placed, h.hits⟩

theorem Cached.begin {pc event : UInt64} {inKernel : Int} {stats : DaemonStat → Nat} {samples : Nat} (h : Cached o s)
    (hkernel : inKernel = s.trans.inKernel ∨ inKernel = 1) : Cached o (s.beginAs pc event inKernel stats samples) := by
  have hstored : Stored (s.beginAs pc event inKernel stats samples) := ⟨h.stored.memory, h.stored.addrs, h.stored.fresh⟩
  rcases hkernel with rfl | rfl
  · exact ⟨⟨hstored, h.offset, h.mode, h.front⟩, h.placed, h.hits⟩
  · refine ⟨⟨hstored, h.offset, ?_, ?_⟩, ?_, ?_⟩
    all_goals
      intro huser
      cases huser

theorem opdRereadModuleInfo_kept (s : DaemonState) (sur : Surroundings) :
    Thinned s.table (s.opdRereadModuleInfo sur).table ∧
      (s.opdRereadModuleInfo sur).memory.sfiles = s.memory.sfiles ∧ (s.opdRereadModuleInfo sur).trans = s.trans := by
  have hcreate : ∀ (images : List KernelImage) (s : DaemonState), (images.foldl opdCreateModule s).table = s.table ∧
      (images.foldl opdCreateModule s).memory.sfiles = s.memory.sfiles ∧
        (images.foldl opdCreateModule s).trans = s.trans := by
    intro images
    induction images with
    | nil => exact fun s => ⟨rfl, rfl, rfl⟩
    | cons image images ih => exact fun s => ih (s.opdCreateModule image)
  rw [opdRereadModuleInfo]
  split_ifs
  · exact ⟨.refl _, rfl, rfl⟩
  · obtain ⟨htable, hsfiles, htrans⟩ := hcreate (sur.modules s.modulesRead)
      { s.opdClearModules with modulesRead := s.modulesRead + 1 }
    rw [htable, hsfiles, htrans]
    exact ⟨thinned_forEach _ _, rfl, rfl⟩

/-- An item at which the cached context fits keeps it so. -/
theorem Cached.step (h : Cached o s) (hfits : ∀ s₀, LooksUp o s buffer s₀ → ContextFits s₀)
    (hstep : ItemStep o sur s buffer s') : Cached o s' := by
  cases hstep with
  | counted pc stats samples => exact h.begin (.inl rfl)
  | switched t stats hcurrent hanon hlast hoffset =>
    exact cached_of_none ⟨h.stored.memory, h.stored.addrs, h.stored.fresh⟩ (hoffset.trans h.offset) hanon hcurrent
  | modules =>
    obtain ⟨hthin, hsfiles, htrans⟩ := opdRereadModuleInfo_kept s sur
    have hstored : Stored (s.opdRereadModuleInfo sur) := h.stored.thinned hthin hsfiles
    refine cached_of_none ⟨hstored.memory, hstored.addrs, hstored.fresh⟩ ?_ rfl rfl
    exact (congrArg Transient.embeddedOffset htrans).trans h.offset
  | trace => exact ⟨⟨⟨h.stored.memory, h.stored.addrs, h.stored.fresh⟩, h.offset, h.mode, h.front⟩, h.placed, h.hits⟩
  | xen =>
    refine ⟨⟨⟨h.stored.memory, h.stored.addrs, h.stored.fresh⟩, h.offset, ?_, ?_⟩, ?_, ?_⟩
    all_goals
      intro huser
      cases huser
  | @sample s₀ s₁ s₂ hlooks hcontext hlog =>
    obtain ⟨pc, event, inKernel, stats, samples, hkernel, heq⟩ := hlooks.begins
    have hbegin : Cached o s₀ := heq ▸ h.begin hkernel
    rw [hbegin.findContext_eq sur (hfits s₀ hlooks)] at hcontext
    exact ((cached_findContext hbegin.stored hbegin.offset hcontext).stays hlog.stays).finishSample

/-! ### What stays true of memory -/

theorem Stored.findContext (h : Stored s) (hcontext : s.findContext opts sur = some s₁) : Stored s₁ := by
  have hanon : Stored (s.dropCached.findAnon sur) := by
    rcases findAnon_cases s sur with ⟨-, hfind⟩ | ⟨-, -, hfind⟩ | ⟨-, -, hfind⟩
    · rw [hfind]
      exact h.clearTransCurrent
    · rw [hfind]
      exact h
    · rw [hfind]
      rcases findAnonMapping_cases s sur with ⟨a, -, -, hmapping⟩ | ⟨-, a, -, hmapping⟩ |
          ⟨-, -, s', hsteps, -, ⟨a, -, hmapping⟩ | ⟨-, hmapping⟩⟩
      · rw [hmapping]
        exact ⟨h.memory, h.addrs, h.fresh⟩
      · rw [hmapping]
        exact ⟨h.memory, h.addrs, h.fresh⟩
      all_goals
        have hstored : Stored s' := h.clearTransCurrent.steps hsteps
        rw [hmapping]
        exact ⟨hstored.memory, hstored.addrs, hstored.fresh⟩
  rw [DaemonState.findContext, findCurrent] at hcontext
  split_ifs at hcontext
  · cases hcontext
    exact hanon
  · obtain ⟨found, hfind, rfl⟩ := Option.map_eq_some_iff.mp hcontext
    exact hanon.setFound hfind

theorem Stored.step (h : Stored s) (hstep : ItemStep o sur s buffer s') : Stored s' := by
  cases hstep with
  | counted => exact ⟨h.memory, h.addrs, h.fresh⟩
  | switched => exact ⟨h.memory, h.addrs, h.fresh⟩
  | modules =>
    obtain ⟨hthin, hsfiles, -⟩ := opdRereadModuleInfo_kept s sur
    have hstored : Stored (s.opdRereadModuleInfo sur) := h.thinned hthin hsfiles
    exact ⟨hstored.memory, hstored.addrs, hstored.fresh⟩
  | trace => exact ⟨h.memory, h.addrs, h.fresh⟩
  | xen => exact ⟨h.memory, h.addrs, h.fresh⟩
  | @sample s₀ s₁ s₂ hlooks hcontext hlog =>
    obtain ⟨pc, event, inKernel, stats, samples, -, rfl⟩ := hlooks.begins
    have hbegin : Stored (s.beginAs pc event inKernel stats samples) := ⟨h.memory, h.addrs, h.fresh⟩
    have hstays := hlog.stays
    have hlogged : Stored s₂ := (hbegin.findContext hcontext).thinned hstays.thinned (by rw [hstays.memory])
    unfold DaemonState.finishSample
    dsimp only
    split
    all_goals exact ⟨hlogged.memory, hlogged.addrs, hlogged.fresh⟩

theorem Stored.processLoop {rounds : Nat} (h : Stored s) (hloop : processLoop o sur rounds s buffer = some s') :
    Stored s' :=
  processLoop_keeps (fun hstep h => h.step hstep) h hloop

/-- The states between buffers. -/
inductive Reached (o : Setup) (sur : Surroundings) : DaemonState → Prop
  | init (images : KernelImages) : Reached o sur (.init images)
  | buffer {s s' : DaemonState} {buffer : Buffer} (hs : Reached o sur s)
      (hbuffer : s.opdProcessSamples o sur buffer = some s') : Reached o sur s'

theorem stored_init (images : KernelImages) : Stored (.init images) :=
  ⟨fun _ hx => (by cases hx), List.nodup_nil, fun _ hx => (by cases hx)⟩

theorem Reached.stored (h : Reached o sur s) : Stored s := by
  induction h with
  | init images => exact stored_init images
  | @buffer s s' buffer _ hbuffer ih =>
    have hstart : Stored s.startBuffer := ⟨ih.memory, ih.addrs, ih.fresh⟩
    exact hstart.processLoop hbuffer

theorem Reached.cached_startBuffer (h : Reached o sur s) : Cached o s.startBuffer :=
  cached_of_none ⟨h.stored.memory, h.stored.addrs, h.stored.fresh⟩ rfl rfl rfl

/-! ### Translation without what is cached -/

/-- One round of a translator that looks up the context of every sample again. -/
def referenceItem (o : Setup) (sur : Surroundings) (s : DaemonState) : Buffer → Handled
  | pc :: event :: buffer =>
    if isEscapeCode o pc then s.processItem o sur (pc :: event :: buffer)
    else s.clearTransCurrent.processItem o sur (pc :: event :: buffer)
  | buffer => s.processItem o sur buffer

/-- So many rounds of the loop of `opd_process_samples`. -/
def rounds (item : DaemonState → Buffer → Handled) : Nat → DaemonState → Buffer → Handled
  | 0, s, buffer => some (s, buffer)
  | _ + 1, s, [] => some (s, [])
  | n + 1, s, code :: buffer => do
    let (s, buffer) ← item s (code :: buffer)
    rounds item n s buffer

/-- What has been logged outside call traces, each sample with its sfile and its offset. -/
def samplesLogged (s : DaemonState) : List LogEntry := s.logged.filter fun entry => entry.last.isNone

/-- After any number of rounds the samples outside call traces have been logged as without what is cached. -/
def Transparent (o : Setup) (sur : Surroundings) (s : DaemonState) (buffer : Buffer) : Prop :=
  ∀ n, (rounds (fun s => s.processItem o sur) n s.startBuffer buffer).map (fun x => samplesLogged x.1) =
    (rounds (referenceItem o sur) n s.startBuffer buffer).map fun x => samplesLogged x.1

/-- The cached context fits at every sample of the run. -/
def AlwaysFits (o : Setup) (sur : Surroundings) (s : DaemonState) (buffer : Buffer) : Prop :=
  ∀ n s' buffer', rounds (fun s => s.processItem o sur) n s buffer = some (s', buffer') →
    ∀ s₀, LooksUp o s' buffer' s₀ → ContextFits s₀

theorem Cached.item_eq (h : Cached o s) (hfits : ∀ s₀, LooksUp o s buffer s₀ → ContextFits s₀) :
    s.processItem o sur buffer = referenceItem o sur s buffer := by
  match buffer with
  | [] => rfl
  | [_] => rfl
  | pc :: event :: rest =>
    rw [referenceItem]
    by_cases hesc : isEscapeCode o pc = true
    · rw [if_pos hesc]
    · rw [if_neg hesc, processItem.eq_def, processItem.eq_def]
      dsimp only
      rw [if_neg hesc, if_neg hesc]
      have hbegin : Cached o (s.beginSample pc event) := h.begin (.inl rfl)
      have hcontext := hbegin.findContext_eq sur (hfits _ (.sample (Bool.eq_false_iff.mpr hesc)))
      rw [opdPutSample, opdPutSample, hcontext]
      rfl

theorem Cached.rounds_eq {n : Nat} (h : Cached o s) (hfits : AlwaysFits o sur s buffer) :
    rounds (fun s => s.processItem o sur) n s buffer = rounds (referenceItem o sur) n s buffer := by
  induction n generalizing s buffer with
  | zero => rfl
  | succ n ih =>
    cases buffer with
    | nil => rfl
    | cons code rest =>
      have hfirst := hfits 0 s (code :: rest) rfl
      rw [rounds, rounds, h.item_eq hfirst]
      cases hitem : referenceItem o sur s (code :: rest) with
      | none => rfl
      | some x =>
        obtain ⟨s₁, buffer₁⟩ := x
        rw [← h.item_eq hfirst] at hitem
        refine ih (h.step hfirst (processItem_step hitem)) fun k s' buffer' hk => ?_
        refine hfits (k + 1) s' buffer' ?_
        rw [rounds, hitem]
        exact hk

/-- Samples are attributed as if nothing were cached in a buffer at whose samples the cached context fits. -/
theorem samples_transparent (o : Setup) (sur : Surroundings) (s : DaemonState) (buffer : Buffer)
    (hs : Reached o sur s) (hfits : AlwaysFits o sur s.startBuffer buffer) : Transparent o sur s buffer := by
  intro n
  rw [hs.cached_startBuffer.rounds_eq hfits]

/-- Two anonymous mappings of every process. -/
def twoMappings : Surroundings :=
  { plainSurroundings with maps := fun _ _ => [⟨0x1000, 0x2000, none⟩, ⟨0x3000, 0x4000, none⟩] }

/-- A process in user mode without a cookie. -/
def anonProcess : Buffer :=
  [escapeCode, ctxSwitchCode, 100, 5, 0, 0, 100, escapeCode, cookieSwitchCode, noCookie, escapeCode, userEnterSwitchCode]

theorem rounds_end {item : DaemonState → Buffer → Handled} {n k : Nat} (h : rounds item n s buffer = some (s', [])) :
    rounds item (n + k) s buffer = some (s', []) := by
  induction n generalizing s buffer with
  | zero =>
    cases h
    cases k <;> simp [rounds]
  | succ n ih =>
    cases buffer with
    | nil =>
      cases h
      rw [Nat.succ_add]
      rfl
    | cons code rest =>
      obtain ⟨⟨s₁, buffer₁⟩, hitem, hrest⟩ := Option.bind_eq_some_iff.mp h
      rw [Nat.succ_add, rounds, hitem]
      exact ih hrest

/-- Two samples in one mapping. -/
theorem samples_transparent_one_mapping :
    Transparent plainSetup twoMappings (.init smallImages) (anonProcess ++ [0x1800, 0, 0x1900, 0]) := by
  apply samples_transparent _ _ _ _ (.init smallImages)
  have hcheck : ∀ n < 6, (rounds (fun s => s.processItem plainSetup twoMappings) n
      (DaemonState.init smallImages).startBuffer (anonProcess ++ [0x1800, 0, 0x1900, 0])).all (fun x =>
        match x.2 with
        | pc :: event :: _ => isEscapeCode plainSetup pc && event != ibsFetchCode && event != ibsOpCode ||
            !isEscapeCode plainSetup pc && (x.1.trans.current.isNone ||
              decide ((x.1.beginSample pc event).lookUpAnon = x.1.trans.anon))
        | _ => true) = true := by
    decide
  have hend : (rounds (fun s => s.processItem plainSetup twoMappings) 5 (DaemonState.init smallImages).startBuffer
      (anonProcess ++ [0x1800, 0, 0x1900, 0])).map Prod.snd = some [] := by
    decide
  intro n s' buffer' hrounds s₀ hlooks
  by_cases hn : n < 6
  · have hfit := hcheck n hn
    rw [hrounds, Option.all_some] at hfit
    cases hlooks with
    | sample hcode =>
      simp only [hcode, Bool.false_and, Bool.false_or, Bool.not_false, Bool.true_and, Bool.or_eq_true,
        decide_eq_true_eq] at hfit
      intro _ _ hsome a ha
      rcases hfit with hnone | hsame
      · rw [Option.isNone_iff_eq_none] at hnone
        exact absurd hsome (by simp [beginSample, hnone])
      · rw [ha] at hsame
        exact hsame.symm
    | fetch hesc => simp [hesc] at hfit
    | op hesc => simp [hesc] at hfit
  · obtain ⟨⟨s₁, buffer₁⟩, hrun, hnil⟩ := Option.map_eq_some_iff.mp hend
    obtain rfl : buffer₁ = [] := hnil
    have hlater := rounds_end (k := n - 5) hrun
    rw [show 5 + (n - 5) = n by omega, hrounds] at hlater
    cases hlater
    cases hlooks

/-- A sample in one mapping and then one in another, which is logged for the first. -/
theorem second_mapping_misattributed : Reached plainSetup twoMappings (DaemonState.init smallImages) ∧
    ¬Transparent plainSetup twoMappings (DaemonState.init smallImages) (anonProcess ++ [0x1800, 0, 0x3900, 0]) := by
  refine ⟨.init smallImages, fun h => ?_⟩
  have hsame := h 5
  revert hsame
  decide

end DaemonState
end Oprofile.Daemon

import Oprofile.Daemon.IbsTrans
import Mathlib.Algebra.BigOperators.Group.List.Basic
import Mathlib.Tactic.Linarith

/-! The partition laws of the derived events, over whole sequences of IBS samples. -/
namespace Oprofile.Daemon

/-- `CHECK_…_SELECTED_FLAG` holds of every event. -/
def AllSelected (flags : SelectedFlags) : Prop := ∀ e, isSelected flags e = true

/-- What `sfile_log_sample_count` was passed for an event, taken together. -/
def total (e : DerivedEvent) (log : Logged) : Nat := ((log.filter (·.1 = e)).map (·.2.toNat)).sum

theorem total_append (e : DerivedEvent) (l₁ l₂ : Logged) : total e (l₁ ++ l₂) = total e l₁ + total e l₂ := by
  simp [total]

/-- The samples of a sequence, one after the other. -/
def logSamples (family : UInt32) (flags : SelectedFlags) (samples : List IbsSample) : Logged :=
  samples.flatMap (logSample family flags)

/-- The register words of an op sample do not have both L2 page bits. -/
def IbsSample.WellFormed : IbsSample → Prop
  | .fetch _ => True
  | .op x => ¬(x.ibsDcL2TlbHit2mb = true ∧ x.ibsDcL2TlbHit1gb = true)

/-- The laws between the totals of the op events. -/
structure OpLaws (t : DerivedEvent → Nat) : Prop where
  lsAllOp : t .lsAllOp = t .lsDcHit + t .lsDcMiss
  lsDtlbL1h : t .lsDtlbL1h = t .lsL1Dtlb4k + t .lsL1Dtlb2m + t .lsL1Dtlb1g
  lsDtlbL1mL2h : t .lsDtlbL1mL2h = t .lsL2Dtlb4k + t .lsL2Dtlb2m + t .lsL2Dtlb1g
  nbCache : t .nbLocalCache + t .nbRemoteCache = t .nbCacheStateM + t .nbCacheStateO
  nbLocal : t .nbLocalL3 + t .nbLocalCache + t .nbLocalDram + t .nbLocalOther ≤ t .nbLocal
  branchMispTaken : t .branchMispTaken ≤ t .branchMisp
  branchMisp : t .branchMisp ≤ t .branchRetired
  returnMisp : t .returnMisp ≤ t .ret

/-- All the laws. -/
structure PartitionLaws (t : DerivedEvent → Nat) : Prop extends OpLaws t where
  fetchAll : t .fetchAll = t .fetchKilled + t .fetchAttempted

namespace OpLaws

theorem zero : OpLaws fun _ => 0 := by constructor <;> simp

theorem add {t u : DerivedEvent → Nat} (ht : OpLaws t) (hu : OpLaws u) : OpLaws fun e => t e + u e := by
  obtain ⟨t₁, t₂, t₃, t₄, t₅, t₆, t₇, t₈⟩ := ht
  obtain ⟨u₁, u₂, u₃, u₄, u₅, u₆, u₇, u₈⟩ := hu
  constructor <;> omega

end OpLaws

/-! ### A translator as its blocks -/

@[simp] theorem runBlocks_nil (flags : SelectedFlags) : runBlocks flags [] = [] := rfl

theorem runBlocks_cons (flags : SelectedFlags) (b : Block) (bs : List Block) :
    runBlocks flags (b :: bs) =
      (if isSelected flags b.event && b.when then [(b.event, b.count)] else []) ++ runBlocks flags bs := by
  unfold runBlocks
  rw [List.filterMap_cons]
  cases isSelected flags b.event && b.when <;> rfl

theorem runBlocks_append (flags : SelectedFlags) (as bs : List Block) :
    runBlocks flags (as ++ bs) = runBlocks flags as ++ runBlocks flags bs := List.filterMap_append

/-- With no event of its group selected a translator logs nothing anyway: its early return changes nothing. -/
theorem runBlocks_group {flags : SelectedFlags} {g : IbsGroup} {blocks : List Block}
    (hg : ∀ b ∈ blocks, b.event.place.1 = g) :
    (if flags g = 0 then [] else runBlocks flags blocks) = runBlocks flags blocks := by
  split
  · rename_i h
    symm
    rw [runBlocks, List.filterMap_eq_nil_iff]
    intro b hb
    simp [isSelected, hg b hb, h]
  · rfl

theorem fetchBlocks_group (x : IbsFetchSample) : ∀ b ∈ fetchBlocks x, b.event.place.1 = .fetch := by
  simp [fetchBlocks, aggIbsEvent, aggIbsCount, DerivedEvent.place]

theorem opBlocks_group (x : IbsOpSample) : ∀ b ∈ opBlocks x, b.event.place.1 = .op := by
  simp [opBlocks, aggIbsEvent, aggIbsCount, DerivedEvent.place]

theorem opLsBlocks_group (x : IbsOpSample) : ∀ b ∈ opLsBlocks x, b.event.place.1 = .opLs := by
  simp [opLsBlocks, aggIbsEvent, aggIbsCount, DerivedEvent.place]

theorem opNbBlocks_group (x : IbsOpSample) : ∀ b ∈ opNbBlocks x, b.event.place.1 = .opNb := by
  simp [opNbBlocks, aggIbsEvent, aggIbsCount, DerivedEvent.place]

/-- The load-store blocks a sample goes through. -/
def lsRun (x : IbsOpSample) : List Block := if x.ibsLdOp || x.ibsStOp then opLsBlocks x else []

/-- The northbridge blocks a sample goes through. -/
def nbRun (x : IbsOpSample) : List Block :=
  if x.ibsLdOp && x.ibsDcMiss && x.nbIbsReqSrc != 0 then opNbBlocks x else []

theorem lsRun_group (x : IbsOpSample) : ∀ b ∈ lsRun x, b.event.place.1 = .opLs := by
  unfold lsRun
  split
  · exact opLsBlocks_group x
  · simp

theorem nbRun_group (x : IbsOpSample) : ∀ b ∈ nbRun x, b.event.place.1 = .opNb := by
  unfold nbRun
  split
  · exact opNbBlocks_group x
  · simp

/-- The blocks a sample goes through, whatever is selected. -/
def blocksOf (family : UInt32) : IbsSample → List Block
  | .fetch x => fetchBlocks x
  | .op x =>
    let x := transIbsOpMaskReserved family x
    if x.ripInvalid then [] else opBlocks x ++ lsRun x ++ nbRun x

theorem transIbsOpLs_eq (flags : SelectedFlags) (x : IbsOpSample) : transIbsOpLs flags x = runBlocks flags (lsRun x) := by
  unfold transIbsOpLs lsRun
  rw [runBlocks_group (opLsBlocks_group x)]
  cases x.ibsLdOp <;> cases x.ibsStOp <;> rfl

theorem transIbsOpNb_eq (flags : SelectedFlags) (x : IbsOpSample) : transIbsOpNb flags x = runBlocks flags (nbRun x) := by
  rw [← runBlocks_group (nbRun_group x)]
  unfold transIbsOpNb nbRun
  by_cases hs : x.nbIbsReqSrc = 0
  · cases x.ibsLdOp <;> cases x.ibsDcMiss <;> simp [hs]
  · cases x.ibsLdOp <;> cases x.ibsDcMiss <;> simp [hs]

/-- A sample is logged by running its blocks. -/
theorem logSample_eq (family : UInt32) (flags : SelectedFlags) (s : IbsSample) :
    logSample family flags s = runBlocks flags (blocksOf family s) := by
  cases s with
  | fetch x => exact runBlocks_group (fetchBlocks_group x)
  | op x =>
    simp only [logSample, opdLogIbsOp, blocksOf]
    split
    · rfl
    · rw [transIbsOpLs_eq, transIbsOpNb_eq, runBlocks_append, runBlocks_append, transIbsOp,
        runBlocks_group (opBlocks_group _)]

/-! ### The selection -/

/-- The entries of one event depend on its own flag only. -/
theorem filter_runBlocks (flags : SelectedFlags) (e : DerivedEvent) (blocks : List Block) :
    (runBlocks flags blocks).filter (·.1 = e) =
      if isSelected flags e then (blocks.filter fun b => b.event = e ∧ b.when = true).map fun b => (b.event, b.count)
      else [] := by
  induction blocks with
  | nil => simp
  | cons b bs ih =>
    rw [runBlocks_cons, List.filter_append, ih]
    by_cases he : b.event = e
    · subst he
      cases isSelected flags b.event <;> cases hw : b.when <;> simp [hw]
    · have skip : (if isSelected flags b.event && b.when then [(b.event, b.count)] else []).filter (·.1 = e) = [] := by
        split <;> simp [he]
      rw [skip]
      simp [he]

/-- What a block adds to the total of an event. -/
def Block.adds (e : DerivedEvent) (b : Block) : Nat := if b.event = e ∧ b.when = true then b.count.toNat else 0

/-- In a list with one block for each event the sum is the event's own block's. -/
theorem adds_find {blocks : List Block} (hn : (blocks.map Block.event).Nodup) {e : DerivedEvent} {b : Block}
    (hb : blocks.find? (·.event = e) = some b) : (blocks.map (Block.adds e)).sum = b.adds e := by
  induction blocks with
  | nil => cases hb
  | cons c cs ih =>
    rw [List.map_cons, List.nodup_cons] at hn
    rw [List.map_cons, List.sum_cons]
    by_cases hc : c.event = e
    · have own : (c :: cs).find? (·.event = e) = some c := List.find?_cons_of_pos (by simpa using hc)
      rw [own] at hb
      cases hb
      have rest : (cs.map (Block.adds e)).sum = 0 := by
        rw [List.sum_eq_zero]
        intro n hm
        obtain ⟨d, hd, rfl⟩ := List.mem_map.mp hm
        apply if_neg
        rintro ⟨he, -⟩
        exact hn.1 (hc.trans he.symm ▸ List.mem_map_of_mem hd)
      omega
    · have other : (c :: cs).find? (·.event = e) = cs.find? (·.event = e) := List.find?_cons_of_neg (by simpa using hc)
      rw [other] at hb
      have skip : c.adds e = 0 := if_neg fun h => hc h.1
      rw [skip, ih hn.2 hb, Nat.zero_add]

theorem total_runBlocks {flags : SelectedFlags} (h : AllSelected flags) (e : DerivedEvent) (blocks : List Block) :
    total e (runBlocks flags blocks) = (blocks.map (Block.adds e)).sum := by
  rw [total, filter_runBlocks, if_pos (h e)]
  induction blocks with
  | nil => rfl
  | cons b bs ih =>
    by_cases hb : b.event = e ∧ b.when = true
    · simp [hb, Block.adds, ← ih]
    · simp [hb, Block.adds, ← ih]

/-- An event of another group gets nothing. -/
theorem adds_group {e : DerivedEvent} {g : IbsGroup} {blocks : List Block}
    (hg : ∀ b ∈ blocks, b.event.place.1 = g) (he : e.place.1 ≠ g) : (blocks.map (Block.adds e)).sum = 0 := by
  rw [List.sum_eq_zero]
  intro n hn
  obtain ⟨b, hb, rfl⟩ := List.mem_map.mp hn
  apply if_neg
  rintro ⟨rfl, -⟩
  exact he (hg b hb)

/-! ### The totals of one sample -/

variable {flags : SelectedFlags}

section Sample

variable (h : AllSelected flags) (family : UInt32) (x : IbsOpSample)
  (hv : (transIbsOpMaskReserved family x).ripInvalid = false)

include h hv

theorem total_parts (e : DerivedEvent) :
    total e (logSample family flags (.op x)) =
      ((opBlocks (transIbsOpMaskReserved family x)).map (Block.adds e)).sum +
      ((lsRun (transIbsOpMaskReserved family x)).map (Block.adds e)).sum +
      ((nbRun (transIbsOpMaskReserved family x)).map (Block.adds e)).sum := by
  simp [logSample_eq, blocksOf, hv, total_runBlocks h, Nat.add_assoc]

theorem total_op {e : DerivedEvent} (he : e.place.1 = .op) :
    total e (logSample family flags (.op x)) = ((opBlocks (transIbsOpMaskReserved family x)).map (Block.adds e)).sum := by
  have hls := adds_group (e := e) (lsRun_group (transIbsOpMaskReserved family x)) (by simp [he])
  have hnb := adds_group (e := e) (nbRun_group (transIbsOpMaskReserved family x)) (by simp [he])
  rw [total_parts h family x hv, hls, hnb]
  rfl

theorem total_ls {e : DerivedEvent} (he : e.place.1 = .opLs) :
    total e (logSample family flags (.op x)) = ((lsRun (transIbsOpMaskReserved family x)).map (Block.adds e)).sum := by
  have hop := adds_group (e := e) (opBlocks_group (transIbsOpMaskReserved family x)) (by simp [he])
  have hnb := adds_group (e := e) (nbRun_group (transIbsOpMaskReserved family x)) (by simp [he])
  rw [total_parts h family x hv, hop, hnb]
  omega

theorem total_nb {e : DerivedEvent} (he : e.place.1 = .opNb) :
    total e (logSample family flags (.op x)) = ((nbRun (transIbsOpMaskReserved family x)).map (Block.adds e)).sum := by
  have hop := adds_group (e := e) (opBlocks_group (transIbsOpMaskReserved family x)) (by simp [he])
  have hls := adds_group (e := e) (lsRun_group (transIbsOpMaskReserved family x)) (by simp [he])
  rw [total_parts h family x hv, hop, hls]
  omega

end Sample

/-- Masking words keeps the bits of a mask clear. -/
theorem bits_and_left {word keep mask : UInt32} (h : bits (word &&& keep) mask = true) : bits word mask = true := by
  unfold bits at *
  rw [bne_iff_ne] at *
  intro hw
  apply h
  rw [UInt32.and_assoc, UInt32.and_comm keep, ← UInt32.and_assoc, hw, UInt32.zero_and]

/-- Of the third data register the masks of the families clear bits only. -/
theorem masked_data3 (family : UInt32) (x : IbsOpSample) :
    ∃ keep, (transIbsOpMaskReserved family x).ibsOpData3Low = x.ibsOpData3Low &&& keep := by
  have same : x.ibsOpData3Low = x.ibsOpData3Low &&& -1 := by simp
  unfold transIbsOpMaskReserved
  split
  · exact ⟨_, same⟩
  · split
    · exact ⟨_, same⟩
    · split
      · refine ⟨~~~0x00000020 &&& ~~~0x00000200 &&& ~~~0x00000400 &&& ~~~0x00001000 &&& ~~~0x00080000, ?_⟩
        simp only [UInt32.and_assoc]
      · exact ⟨_, same⟩

theorem masked_wellFormed (family : UInt32) {x : IbsOpSample} (h : (IbsSample.op x).WellFormed) :
    (IbsSample.op (transIbsOpMaskReserved family x)).WellFormed := by
  obtain ⟨keep, hk⟩ := masked_data3 family x
  rintro ⟨h2, h1⟩
  rw [IbsOpSample.ibsDcL2TlbHit2mb, hk] at h2
  rw [IbsOpSample.ibsDcL2TlbHit1gb, hk] at h1
  exact h ⟨bits_and_left h2, bits_and_left h1⟩

/-! ### The laws of the blocks -/

/-- What the op blocks add to an event. -/
abbrev opAdds (x : IbsOpSample) (e : DerivedEvent) : Nat := ((opBlocks x).map (Block.adds e)).sum

abbrev lsAdds (x : IbsOpSample) (e : DerivedEvent) : Nat := ((lsRun x).map (Block.adds e)).sum

abbrev nbAdds (x : IbsOpSample) (e : DerivedEvent) : Nat := ((nbRun x).map (Block.adds e)).sum

theorem fetchAdds_eq (x : IbsFetchSample) {e : DerivedEvent} {when : Bool}
    (hb : (fetchBlocks x).find? (·.event = e) = some (aggIbsEvent e when)) :
    ((fetchBlocks x).map (Block.adds e)).sum = when.toNat := by
  have hn : ((fetchBlocks x).map Block.event).Nodup := by
    simp only [fetchBlocks, aggIbsEvent, aggIbsCount, List.map_cons, List.map_nil]
    decide
  rw [adds_find hn hb]
  cases when <;> simp [Block.adds, aggIbsEvent]

theorem opAdds_eq (x : IbsOpSample) {e : DerivedEvent} {when : Bool}
    (hb : (opBlocks x).find? (·.event = e) = some (aggIbsEvent e when)) : opAdds x e = when.toNat := by
  have hn : ((opBlocks x).map Block.event).Nodup := by
    simp only [opBlocks, aggIbsEvent, aggIbsCount, List.map_cons, List.map_nil]
    decide
  rw [opAdds, adds_find hn hb]
  cases when <;> simp [Block.adds, aggIbsEvent]

theorem lsAdds_eq (x : IbsOpSample) {e : DerivedEvent} {when : Bool}
    (hb : (opLsBlocks x).find? (·.event = e) = some (aggIbsEvent e when)) :
    lsAdds x e = ((x.ibsLdOp || x.ibsStOp) && when).toNat := by
  have hn : ((opLsBlocks x).map Block.event).Nodup := by
    simp only [opLsBlocks, aggIbsEvent, aggIbsCount, List.map_cons, List.map_nil]
    decide
  unfold lsAdds lsRun
  split
  · rename_i hrun
    rw [adds_find hn hb, hrun]
    cases when <;> simp [Block.adds, aggIbsEvent]
  · rename_i hrun
    simp [hrun]

theorem nbAdds_eq (x : IbsOpSample) {e : DerivedEvent} {when : Bool}
    (hb : (opNbBlocks x).find? (·.event = e) = some (aggIbsEvent e when)) :
    nbAdds x e = (x.ibsLdOp && x.ibsDcMiss && x.nbIbsReqSrc != 0 && when).toNat := by
  have hn : ((opNbBlocks x).map Block.event).Nodup := by
    simp only [opNbBlocks, aggIbsEvent, aggIbsCount, List.map_cons, List.map_nil]
    decide
  unfold nbAdds nbRun
  split
  · rename_i hrun
    rw [adds_find hn hb, hrun]
    cases when <;> simp [Block.adds, aggIbsEvent]
  · rename_i hrun
    rw [Bool.not_eq_true] at hrun
    rw [hrun]
    rfl

theorem lsAllOp_law (x : IbsOpSample) : lsAdds x .lsAllOp = lsAdds x .lsDcHit + lsAdds x .lsDcMiss := by
  rw [lsAdds_eq x (e := .lsAllOp) rfl, lsAdds_eq x (e := .lsDcHit) rfl, lsAdds_eq x (e := .lsDcMiss) rfl]
  cases x.ibsLdOp || x.ibsStOp <;> cases x.ibsDcMiss <;> rfl

theorem lsDtlbL1h_law (x : IbsOpSample) :
    lsAdds x .lsDtlbL1h = lsAdds x .lsL1Dtlb4k + lsAdds x .lsL1Dtlb2m + lsAdds x .lsL1Dtlb1g := by
  rw [lsAdds_eq x (e := .lsDtlbL1h) rfl, lsAdds_eq x (e := .lsL1Dtlb4k) rfl, lsAdds_eq x (e := .lsL1Dtlb2m) rfl,
    lsAdds_eq x (e := .lsL1Dtlb1g) rfl]
  -- the 1G block asks that the 2M bit is clear, so the three are disjoint with both bits set too
  cases x.ibsLdOp || x.ibsStOp <;> cases x.ibsDcLinAddrValid && !x.ibsDcL1TlbMiss <;>
    cases x.ibsDcL1TlbHit2mb <;> cases x.ibsDcL1TlbHit1gb <;> rfl

theorem lsDtlbL1mL2h_law {x : IbsOpSample} (hx : (IbsSample.op x).WellFormed) :
    lsAdds x .lsDtlbL1mL2h = lsAdds x .lsL2Dtlb4k + lsAdds x .lsL2Dtlb2m + lsAdds x .lsL2Dtlb1g := by
  rw [lsAdds_eq x (e := .lsDtlbL1mL2h) rfl, lsAdds_eq x (e := .lsL2Dtlb4k) rfl, lsAdds_eq x (e := .lsL2Dtlb2m) rfl,
    lsAdds_eq x (e := .lsL2Dtlb1g) rfl]
  simp only [IbsSample.WellFormed] at hx
  generalize x.ibsDcL2TlbHit2mb = two at hx
  generalize x.ibsDcL2TlbHit1gb = one at hx
  cases x.ibsLdOp || x.ibsStOp <;> cases x.ibsDcLinAddrValid && x.ibsDcL1TlbMiss && !x.ibsDcL2TlbMiss <;>
    cases two <;> cases one <;> simp at hx ⊢

theorem nbCache_law (x : IbsOpSample) :
    nbAdds x .nbLocalCache + nbAdds x .nbRemoteCache = nbAdds x .nbCacheStateM + nbAdds x .nbCacheStateO := by
  rw [nbAdds_eq x (e := .nbLocalCache) rfl, nbAdds_eq x (e := .nbRemoteCache) rfl,
    nbAdds_eq x (e := .nbCacheStateM) rfl, nbAdds_eq x (e := .nbCacheStateO) rfl]
  cases x.nbIbsReqDstProc <;> cases x.nbIbsCacheHitSt <;> simp

/-- A request is served by one source. -/
theorem reqSrc_le_one (x : IbsOpSample) :
    x.nbIbsReqSrc01.toNat + x.nbIbsReqSrc02.toNat + x.nbIbsReqSrc03.toNat + x.nbIbsReqSrc07.toNat ≤ 1 := by
  unfold IbsOpSample.nbIbsReqSrc01 IbsOpSample.nbIbsReqSrc02 IbsOpSample.nbIbsReqSrc03 IbsOpSample.nbIbsReqSrc07
  by_cases h1 : x.nbIbsReqSrc = 1
  · simp [h1]
  · by_cases h2 : x.nbIbsReqSrc = 2
    · simp [h2]
    · by_cases h3 : x.nbIbsReqSrc = 3
      · simp [h3]
      · simp [beq_eq_false_iff_ne.mpr h1, beq_eq_false_iff_ne.mpr h2, beq_eq_false_iff_ne.mpr h3, Bool.toNat_le]

theorem nbLocal_law (x : IbsOpSample) :
    nbAdds x .nbLocalL3 + nbAdds x .nbLocalCache + nbAdds x .nbLocalDram + nbAdds x .nbLocalOther ≤ nbAdds x .nbLocal := by
  rw [nbAdds_eq x (e := .nbLocalL3) rfl, nbAdds_eq x (e := .nbLocalCache) rfl, nbAdds_eq x (e := .nbLocalDram) rfl,
    nbAdds_eq x (e := .nbLocalOther) rfl, nbAdds_eq x (e := .nbLocal) rfl]
  have one := reqSrc_le_one x
  cases x.ibsLdOp && x.ibsDcMiss && x.nbIbsReqSrc != 0
  · simp
  · cases x.nbIbsReqDstProc
    · simpa using one
    · simp

theorem branch_laws (x : IbsOpSample) :
    opAdds x .branchMispTaken ≤ opAdds x .branchMisp ∧ opAdds x .branchMisp ≤ opAdds x .branchRetired ∧
      opAdds x .returnMisp ≤ opAdds x .ret := by
  rw [opAdds_eq x (e := .branchMispTaken) rfl, opAdds_eq x (e := .branchMisp) rfl,
    opAdds_eq x (e := .branchRetired) rfl, opAdds_eq x (e := .returnMisp) rfl, opAdds_eq x (e := .ret) rfl]
  cases x.branchRetired <;> cases x.branchMispredict <;> cases x.branchTaken <;> cases x.return_ <;> decide

/-! ### The laws of a run -/

variable (family : UInt32)

theorem opLaws_sample (h : AllSelected flags) {s : IbsSample} (hs : s.WellFormed) :
    OpLaws fun e => total e (logSample family flags s) := by
  cases s with
  | fetch x =>
    have none {e : DerivedEvent} (he : e.place.1 ≠ .fetch) : total e (logSample family flags (.fetch x)) = 0 := by
      rw [logSample_eq, total_runBlocks h]
      exact adds_group (fetchBlocks_group x) he
    constructor <;> simp (disch := decide) [none]
  | op x =>
    cases hv : (transIbsOpMaskReserved family x).ripInvalid with
    | true =>
      have none (e : DerivedEvent) : total e (logSample family flags (.op x)) = 0 := by
        simp [logSample_eq, blocksOf, hv, total]
      simpa only [none] using OpLaws.zero
    | false =>
      have op {e : DerivedEvent} (he : e.place.1 = .op) := total_op h family x hv he
      have ls {e : DerivedEvent} (he : e.place.1 = .opLs) := total_ls h family x hv he
      have nb {e : DerivedEvent} (he : e.place.1 = .opNb) := total_nb h family x hv he
      generalize hy : transIbsOpMaskReserved family x = y at op ls nb
      have hwf : (IbsSample.op y).WellFormed := hy ▸ masked_wellFormed family hs
      obtain ⟨mispTaken, misp, returnMisp⟩ := branch_laws y
      constructor
      · rw [ls rfl, ls rfl, ls rfl]
        exact lsAllOp_law y
      · rw [ls rfl, ls rfl, ls rfl, ls rfl]
        exact lsDtlbL1h_law y
      · rw [ls rfl, ls rfl, ls rfl, ls rfl]
        exact lsDtlbL1mL2h_law hwf
      · rw [nb rfl, nb rfl, nb rfl, nb rfl]
        exact nbCache_law y
      · rw [nb rfl, nb rfl, nb rfl, nb rfl, nb rfl]
        exact nbLocal_law y
      · rw [op rfl, op rfl]
        exact mispTaken
      · rw [op rfl, op rfl]
        exact misp
      · rw [op rfl, op rfl]
        exact returnMisp

theorem total_logSamples_cons (e : DerivedEvent) (s : IbsSample) (samples : List IbsSample) :
    total e (logSamples family flags (s :: samples)) =
      total e (logSample family flags s) + total e (logSamples family flags samples) := by
  rw [logSamples, List.flatMap_cons, total_append]
  rfl

theorem opLaws_run (h : AllSelected flags) {samples : List IbsSample} (hs : ∀ s ∈ samples, s.WellFormed) :
    OpLaws fun e => total e (logSamples family flags samples) := by
  induction samples with
  | nil => exact OpLaws.zero
  | cons s samples ih =>
    have step := OpLaws.add (opLaws_sample family h (hs s List.mem_cons_self))
      (ih fun t ht => hs t (List.mem_cons_of_mem s ht))
    simpa only [total_logSamples_cons] using step

/-- How often a sample is a killed fetch. -/
def IbsSample.kills : IbsSample → Nat
  | .fetch x => x.killed.toNat
  | .op _ => 0

/-- Every fetch counts as attempted, and the killed ones count as killed too. -/
theorem fetch_totals (h : AllSelected flags) (s : IbsSample) :
    total .fetchAll (logSample family flags s) = total .fetchAttempted (logSample family flags s) ∧
      total .fetchKilled (logSample family flags s) = s.kills := by
  cases s with
  | fetch x =>
    have own {e : DerivedEvent} {when : Bool}
        (hb : (fetchBlocks x).find? (·.event = e) = some (aggIbsEvent e when)) :
        total e (logSample family flags (.fetch x)) = when.toNat := by
      rw [logSample_eq, total_runBlocks h]
      exact fetchAdds_eq x hb
    exact ⟨(own rfl).trans (own rfl).symm, own rfl⟩
  | op x =>
    have none {e : DerivedEvent} (he : e.place.1 = .fetch) : total e (logSample family flags (.op x)) = 0 := by
      cases hv : (transIbsOpMaskReserved family x).ripInvalid with
      | true => simp [logSample_eq, blocksOf, hv, total]
      | false =>
        rw [total_parts h family x hv, adds_group (opBlocks_group _) (by simp [he]),
          adds_group (lsRun_group _) (by simp [he]), adds_group (nbRun_group _) (by simp [he])]
    exact ⟨(none rfl).trans (none rfl).symm, none rfl⟩

theorem fetch_totals_run (h : AllSelected flags) (samples : List IbsSample) :
    total .fetchAll (logSamples family flags samples) = total .fetchAttempted (logSamples family flags samples) ∧
      total .fetchKilled (logSamples family flags samples) = (samples.map IbsSample.kills).sum := by
  induction samples with
  | nil => exact ⟨rfl, rfl⟩
  | cons s samples ih =>
    obtain ⟨attempted, killed⟩ := fetch_totals family h s
    simp only [total_logSamples_cons, List.map_cons, List.sum_cons, attempted, killed, ih, and_self]

/-! ### The laws hold of the runs without a killed fetch -/

/-- What is logged of an event depends on its own flag, not on the others. -/
def SelectionIndependent (family : UInt32) (s : IbsSample) : Prop :=
  ∀ (e : DerivedEvent) (flags₁ flags₂ : SelectedFlags), isSelected flags₁ e = isSelected flags₂ e →
    (logSample family flags₁ s).filter (·.1 = e) = (logSample family flags₂ s).filter (·.1 = e)

theorem selectionIndependent (family : UInt32) (s : IbsSample) : SelectionIndependent family s := by
  intro e flags₁ flags₂ he
  rw [logSample_eq, logSample_eq, filter_runBlocks, filter_runBlocks, he]

theorem kills_sum_eq_zero (samples : List IbsSample) :
    (samples.map IbsSample.kills).sum = 0 ↔ ∀ x, IbsSample.fetch x ∈ samples → x.killed = false := by
  rw [List.sum_eq_zero_iff_forall_eq_nat]
  constructor
  · intro h x hx
    have hk := h _ (List.mem_map_of_mem hx)
    simpa [IbsSample.kills] using hk
  · intro h n hn
    obtain ⟨s, hs, rfl⟩ := List.mem_map.mp hn
    cases s with
    | fetch x => simp [IbsSample.kills, h x hs]
    | op x => rfl

/-- A killed fetch is logged as attempted as well; without one every law holds. -/
theorem partitionLaws_iff (family : UInt32) (flags : SelectedFlags) (samples : List IbsSample)
    (h : AllSelected flags) (hs : ∀ s ∈ samples, s.WellFormed) :
    (PartitionLaws (fun e => total e (logSamples family flags samples)) ∧
        ∀ s ∈ samples, SelectionIndependent family s) ↔
      ∀ x, IbsSample.fetch x ∈ samples → x.killed = false := by
  rw [← kills_sum_eq_zero]
  obtain ⟨attempted, killed⟩ := fetch_totals_run family h samples
  constructor
  · rintro ⟨laws, -⟩
    have law := laws.fetchAll
    omega
  · intro none
    refine ⟨⟨opLaws_run family h hs, ?_⟩, fun s _ => selectionIndependent family s⟩
    omega

/-- A fetch with `FETCH_MASK_COMPLETE`. -/
def completedFetch : IbsFetchSample := ⟨0x400000, 0, 0x00040000, 0, 0, 0, 0⟩

/-- A fetch with no flag. -/
def killedFetch : IbsFetchSample := ⟨0x400000, 0, 0, 0, 0, 0, 0⟩

theorem allSelected_ones : AllSelected fun _ => 0xffffffff := by
  intro e
  cases e <;> rfl

/-- A load that misses the data cache and the L1 DTLB, finds a 2M page in the L2 DTLB, and is served by a local
cache; and a branch that is taken, mispredicted and retired. -/
def missedLoad : IbsOpSample := ⟨0x400010, 0, 0, 0, 0, 0x22, 0, 0x200c5, 0, 0, 0, 0, 0, 0⟩

def mispredictedBranch : IbsOpSample := ⟨0x400020, 0, 0, 0, 0x38, 0, 0, 0, 0, 0, 0, 0, 0, 0⟩

def laterSamples : List IbsSample := [.fetch completedFetch, .op missedLoad, .op mispredictedBranch]

theorem partitionLaws_iff_completed :
    PartitionLaws (fun e => total e (logSamples 0x10 (fun _ => 0xffffffff) laterSamples)) ∧
      [DerivedEvent.fetchAll, .lsDcMiss, .lsL2Dtlb2m, .nbLocalCache, .branchMispTaken].map
        (fun e => total e (logSamples 0x10 (fun _ => 0xffffffff) laterSamples)) = [1, 1, 1, 1, 1] := by
  have wf : ∀ s ∈ laterSamples, s.WellFormed := by
    simp only [laterSamples, List.mem_cons, List.not_mem_nil, or_false]
    rintro s (rfl | rfl | rfl)
    · trivial
    · exact fun hboth => absurd hboth.2 (by decide)
    · exact fun hboth => absurd hboth.2 (by decide)
  refine ⟨((partitionLaws_iff 0x10 _ _ allSelected_ones wf).mpr ?_).1, by decide⟩
  simp only [laterSamples, List.mem_cons, List.not_mem_nil, or_false]
  rintro x (hx | hx | hx)
  · cases hx
    rfl
  · cases hx
  · cases hx

/-- One killed fetch is one fetch, one killed fetch and one attempted fetch. -/
theorem killed_fetch_attempted : AllSelected (fun _ => 0xffffffff) ∧
    (∀ s ∈ [IbsSample.fetch killedFetch], s.WellFormed) ∧
    ¬PartitionLaws fun e => total e (logSamples 0x10 (fun _ => 0xffffffff) [.fetch killedFetch]) := by
  refine ⟨allSelected_ones, fun s hs => ?_, fun h => ?_⟩
  · rw [List.mem_singleton.mp hs]
    trivial
  · have law := h.fetchAll
    revert law
    decide

end Oprofile.Daemon

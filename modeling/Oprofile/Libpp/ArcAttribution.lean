import Oprofile.Libpp.ArcRecorder
import Oprofile.Libpp.ArcSamples

/-! When every sample of a call-graph profile is in the arc of its own two symbols. -/
namespace Oprofile.Libpp

open Libutilpp Ranges

section

variable {bfd callerBfd calleeBfd : OpBfd} {boffset coff doff : UInt32} {sort : CalleeSort} {profile : Profile}
  {samples : List Sample} {i : Nat}

/-- No arc is recorded without samples. -/
theorem arcsOf_ne_nil {samples : List Sample} {arcs : List (Nat × List Sample)}
    (h : arcsOf bfd boffset samples = some arcs) : ∀ arc ∈ arcs, arc.2 ≠ [] := by
  match samples with
  | [] =>
    rw [arcsOf] at h
    cases h
    exact fun arc harc => absurd harc List.not_mem_nil
  | t :: samples =>
    rw [arcsOf] at h
    split at h
    · cases h
    · exact arcsOf_ne_nil h
    · split at h
      · cases h
      · rename_i taken rest haccumulate
        obtain ⟨arcs', harcs', rfl⟩ := Option.map_eq_some_iff.mp h
        have hlength := accumulateCallee_length haccumulate
        rintro arc harc
        rcases List.mem_cons.mp harc with rfl | harc
        · exact (accumulateCallee_some haccumulate).2.2
        · exact arcsOf_ne_nil harcs' arc harc
termination_by samples.length

theorem mem_attributions {calls : List ArcCall} {i j : Nat} {s : Sample} :
    (i, j, s) ∈ attributions calls ↔ ∃ call ∈ calls, call.caller = i ∧ call.callee = j ∧ s ∈ call.samples := by
  rw [attributions, List.mem_flatMap]
  refine exists_congr fun call => and_congr_right fun _ => ?_
  rw [List.mem_map]
  constructor
  · rintro ⟨s', hs', heq⟩
    cases heq
    exact ⟨rfl, rfl, hs'⟩
  · rintro ⟨rfl, rfl, hs⟩
    exact ⟨s, hs, rfl⟩

/-- The samples of one caller's arcs are attributed once if they are samples of the caller once. -/
theorem attributions_arcs_nodup {arcs : List (Nat × List Sample)} (hsub : (arcs.flatMap Prod.snd).Sublist samples)
    (hnodup : samples.Nodup) : (attributions (arcs.map fun arc => ⟨i, arc.1, arc.2⟩)).Nodup := by
  refine List.Nodup.of_map (fun a => a.2.2) ?_
  have hsnd : (attributions (arcs.map fun arc => ⟨i, arc.1, arc.2⟩)).map (fun a => a.2.2) =
      arcs.flatMap Prod.snd := by
    rw [attributions, List.flatMap_map, List.map_flatMap]
    refine List.flatMap_congr fun arc _ => ?_
    rw [List.map_map]
    exact List.map_id _
  rw [hsnd]
  exact hnodup.sublist hsub

/-- What the loop over the callers records, unless there are samples and no callee at all. -/
theorem callerArcs_spec (sort : CalleeSort) (coff doff : UInt32) (hzero : profile.startOffset = 0) (hanon : callerBfd.anonObj = false)
    (hcallee : TableOk calleeBfd.syms) (syms : List OpBfdSymbol) (i : Nat)
    (hfits : ∀ sym ∈ syms, sym.filepos.toNat + sym.symbSize.toNat < 2 ^ 32)
    (hsome : calleeBfd.syms ≠ [] ∨ ∀ sym ∈ syms, callerSamples sort profile callerBfd coff sym = some []) :
    ∃ calls, callerArcs sort profile callerBfd calleeBfd coff doff i syms = some calls ∧
      (∀ call ∈ calls, call.samples ≠ []) ∧ (attributions calls).Nodup ∧
      ∀ k j s, (k, j, s) ∈ attributions calls ↔ i ≤ k ∧ ∃ sym samples, syms[k - i]? = some sym ∧
        callerSamples sort profile callerBfd coff sym = some samples ∧ s ∈ samples ∧
        FoundBy calleeBfd.syms doff samples j s := by
  induction syms generalizing i with
  | nil =>
    refine ⟨[], rfl, (fun call hcall => nomatch hcall), List.nodup_nil, fun k j s => ⟨(fun h => nomatch h), ?_⟩⟩
    rintro ⟨-, sym, samples, hsym, -⟩
    cases hsym
  | cons sym syms ih =>
    obtain ⟨samples, hsamples, hsorted, hnodup, -⟩ :=
      callerSamples_spec sort coff hzero hanon (hfits sym List.mem_cons_self)
    obtain ⟨arcs, harcs, hsub, hmem⟩ : ∃ arcs, arcsOf calleeBfd doff samples = some arcs ∧
        (arcs.flatMap Prod.snd).Sublist samples ∧ ∀ j s, (∃ arc ∈ arcs, arc.1 = j ∧ s ∈ arc.2) ↔
          s ∈ samples ∧ FoundBy calleeBfd.syms doff samples j s := by
      rcases hsome with hne | hnone
      · exact arcsOf_spec hcallee hne samples hsorted
      · obtain rfl := Option.some.inj (hsamples.symm.trans (hnone sym List.mem_cons_self))
        refine ⟨[], by rw [arcsOf], List.Sublist.refl _, fun j s => ⟨?_, (fun h => nomatch h.1)⟩⟩
        rintro ⟨arc, harc, -⟩
        cases harc
    obtain ⟨calls, hcalls, hnonempty, hcallsNodup, hcallsMem⟩ := ih (i + 1)
      (fun s hs => hfits s (List.mem_cons_of_mem sym hs))
      (hsome.imp_right fun hnone s hs => hnone s (List.mem_cons_of_mem sym hs))
    have happend : attributions (arcs.map (fun arc => ⟨i, arc.1, arc.2⟩) ++ calls) =
        attributions (arcs.map fun arc => ⟨i, arc.1, arc.2⟩) ++ attributions calls := List.flatMap_append
    have hfirst : ∀ k j s, (k, j, s) ∈ attributions (arcs.map fun arc => ⟨i, arc.1, arc.2⟩) ↔
        k = i ∧ s ∈ samples ∧ FoundBy calleeBfd.syms doff samples j s := by
      intro k j s
      rw [mem_attributions, ← hmem]
      constructor
      · rintro ⟨call, hcall, rfl, rfl, hs⟩
        obtain ⟨arc, harc, rfl⟩ := List.mem_map.mp hcall
        exact ⟨rfl, arc, harc, rfl, hs⟩
      · rintro ⟨rfl, arc, harc, rfl, hs⟩
        exact ⟨_, List.mem_map_of_mem harc, rfl, rfl, hs⟩
    refine ⟨arcs.map (fun arc => ⟨i, arc.1, arc.2⟩) ++ calls, ?_, ?_, ?_, fun k j s => ?_⟩
    · rw [callerArcs, hsamples]
      simp only [Option.bind_eq_bind, Option.bind_some, harcs, hcalls]
    · intro call hcall
      rcases List.mem_append.mp hcall with hcall | hcall
      · obtain ⟨arc, harc, rfl⟩ := List.mem_map.mp hcall
        exact arcsOf_ne_nil harcs arc harc
      · exact hnonempty call hcall
    · rw [happend, List.nodup_append]
      refine ⟨attributions_arcs_nodup hsub hnodup, hcallsNodup, ?_⟩
      rintro ⟨k, j, s⟩ hk _ hk' rfl
      obtain ⟨rfl, -⟩ := (hfirst k j s).mp hk
      have hlt := ((hcallsMem k j s).mp hk').1
      omega
    · rw [happend, List.mem_append, hfirst, hcallsMem]
      constructor
      · rintro (⟨rfl, hs, hfound⟩ | ⟨hle, sym', samples', hsym', h⟩)
        · refine ⟨Nat.le_refl _, sym, samples, ?_, hsamples, hs, hfound⟩
          rw [Nat.sub_self]
          rfl
        · refine ⟨by omega, sym', samples', ?_, h⟩
          rw [show k - i = (k - (i + 1)) + 1 by omega]
          exact hsym'
      · rintro ⟨hle, sym', samples', hsym', hsamples', h⟩
        rcases Nat.eq_or_lt_of_le hle with rfl | hlt
        · rw [Nat.sub_self] at hsym'
          obtain rfl := Option.some.inj hsym'
          obtain rfl := Option.some.inj (hsamples.symm.trans hsamples')
          exact Or.inl ⟨rfl, h⟩
        · rw [show k - i = (k - (i + 1)) + 1 by omega] at hsym'
          exact Or.inr ⟨hlt, sym', samples', hsym', hsamples', h⟩

/-- Without callees the first sample that is selected makes the loop abort. -/
theorem callerArcs_abort (hcallee : calleeBfd.syms = []) {syms : List OpBfdSymbol} {calls : List ArcCall}
    (h : callerArcs sort profile callerBfd calleeBfd coff doff i syms = some calls) :
    ∀ sym ∈ syms, callerSamples sort profile callerBfd coff sym = some [] := by
  induction syms generalizing i calls with
  | nil => exact fun sym hsym => nomatch hsym
  | cons sym syms ih =>
    rw [callerArcs] at h
    obtain ⟨samples, hsamples, h⟩ := Option.bind_eq_some_iff.mp h
    obtain ⟨arcs, harcs, h⟩ := Option.bind_eq_some_iff.mp h
    obtain ⟨rest, hrest, -⟩ := Option.bind_eq_some_iff.mp h
    rintro sym' hsym'
    rcases List.mem_cons.mp hsym' with rfl | hsym'
    · cases samples with
      | nil => exact hsamples
      | cons t samples =>
        have habort : calleeSym calleeBfd doff (keyToCallee t.1) = .abort := by
          rw [calleeSym, hcallee]
          rfl
        rw [arcsOf] at harcs
        simp only [habort] at harcs
        cases harcs
    · exact ih hrest sym' hsym'

end

/-- What `callgraph_container::add` is given. -/
structure CgInput where
  profile : Profile
  callerBfd : OpBfd
  callerBfdOk : Bool
  calleeBfd : OpBfd

namespace CgInput

variable (input : CgInput)

/-- The file position of a sample's caller, and that of its callee. -/
def callerPos (s : Sample) : Nat := callerOf s.1 + (callerOffset input.profile input.callerBfd).toNat

def calleePos (s : Sample) : Nat := calleeOf s.1 + (calleeOffset input.profile input.calleeBfd).toNat

def InCaller (i : Nat) (s : Sample) : Prop :=
  ∃ a, input.callerBfd.syms[i]? = some a ∧ a.FileHas (input.callerPos s)

def InCallee (j : Nat) (s : Sample) : Prop :=
  ∃ b, input.calleeBfd.syms[j]? = some b ∧ b.FileHas (input.calleePos s)

/-- The profile has the sample, and its two offsets lie in these symbols. -/
def Belongs (i j : Nat) (s : Sample) : Prop :=
  s ∈ input.profile.orderedSamples ∧ input.InCaller i s ∧ input.InCallee j s

/-- A kernel profile without its binary. -/
def NoKernel : Prop := input.profile.fileHeader.isKernel ≠ 0 ∧ input.callerBfdOk = false

/-- A sample in a caller that starts behind the start offset. -/
def Selected (i : Nat) (s : Sample) : Prop :=
  s ∈ input.profile.orderedSamples ∧ ∃ a, input.callerBfd.syms[i]? = some a ∧
    (callerOffset input.profile input.callerBfd).toNat < a.filepos.toNat ∧ a.FileHas (input.callerPos s)

/-- No caller of an arc starts at the start offset or before it, no sample of the other callers has its
callee before the first symbol, and no callee is hidden behind an empty symbol inside it from all samples
that come first. -/
structure ArcsFindable : Prop where
  callers : ∀ i j s, input.Belongs i j s → input.Selected i s
  first : ∀ i s, input.Selected i s → ∃ b, input.calleeBfd.syms[0]? = some b ∧ b.filepos.toNat ≤ input.calleePos s
  visible : ∀ i j s, input.Selected i s → input.InCallee j s →
    ∃ t, input.Selected i t ∧ input.calleePos t ≤ input.calleePos s ∧ input.InCallee j t ∧
      ∀ k b, j < k → input.calleeBfd.syms[k]? = some b → input.calleePos t < b.filepos.toNat

/-- Each sample whose offsets lie in two symbols goes once, and to the arc of the two; no other sample goes
anywhere, and the recorder counts what it is called with. -/
def FullyAttributed (sort : CalleeSort) : Prop :=
  ∃ calls, arcCalls sort input.profile input.callerBfd input.callerBfdOk input.calleeBfd = some calls ∧
    (∀ call ∈ calls, call.samples ≠ []) ∧ (attributions calls).Nodup ∧
    (∀ i j s, (i, j, s) ∈ attributions calls ↔ input.Belongs i j s) ∧
    ∀ pclass callers callees symMap, ∃ symMap',
      callgraphAdd sort input.profile input.callerBfd input.callerBfdOk input.calleeBfd pclass callers callees symMap =
        some symMap' ∧
      ∀ caller callee c,
        calleesCount symMap' caller callee c = calleesCount symMap caller callee c +
          (if c = pclass then arcTotal callers callees caller callee (attributions calls) else 0) ∧
        callersCount symMap' caller callee c = callersCount symMap caller callee c +
          (if c = pclass then arcTotal callers callees caller callee (attributions calls) else 0)

variable {input}

theorem Selected.inCaller {i : Nat} {s : Sample} (h : input.Selected i s) :
    s ∈ input.profile.orderedSamples ∧ input.InCaller i s := by
  obtain ⟨hs, a, ha, -, hhas⟩ := h
  exact ⟨hs, a, ha, hhas⟩

section

variable {sort : CalleeSort} (hzero : input.profile.startOffset = 0) (hanon : input.callerBfd.anonObj = false)
  (hcaller : TableOk input.callerBfd.syms) (hcallee : TableOk input.calleeBfd.syms)
include hzero hanon hcaller

/-- The samples of a caller are the selected ones. -/
theorem callerSamples_selected {i : Nat} {sym : OpBfdSymbol} {samples : List Sample}
    (hsym : input.callerBfd.syms[i]? = some sym)
    (hsamples : callerSamples sort input.profile input.callerBfd (callerOffset input.profile input.callerBfd) sym =
      some samples) (s : Sample) : s ∈ samples ↔ input.Selected i s := by
  obtain ⟨samples', hsamples', -, -, hmem⟩ := callerSamples_spec sort
    (callerOffset input.profile input.callerBfd) hzero hanon
    (hcaller.fits sym (List.mem_of_getElem? hsym))
  obtain rfl := Option.some.inj (hsamples'.symm.trans hsamples)
  rw [hmem]
  constructor
  · rintro ⟨hstart, hs, hhas⟩
    exact ⟨hs, sym, hsym, hstart, hhas⟩
  · rintro ⟨hs, a, ha, hstart, hhas⟩
    obtain rfl := Option.some.inj (hsym.symm.trans ha)
    exact ⟨hstart, hs, hhas⟩

include hcallee

/-- What the loop over the callers records, in terms of the selected samples. -/
theorem callerArcs_recorded (sort : CalleeSort)
    (hsome : input.calleeBfd.syms ≠ [] ∨ ∀ i s, ¬input.Selected i s) :
    ∃ calls, callerArcs sort input.profile input.callerBfd input.calleeBfd
        (callerOffset input.profile input.callerBfd) (calleeOffset input.profile input.calleeBfd) 0
        input.callerBfd.syms = some calls ∧
      (∀ call ∈ calls, call.samples ≠ []) ∧ (attributions calls).Nodup ∧
      ∀ i j s, (i, j, s) ∈ attributions calls ↔ input.Selected i s ∧
        ∃ t, input.Selected i t ∧ input.calleePos t ≤ input.calleePos s ∧
          Nearest input.calleeBfd.syms (input.calleePos t) j ∧
          ∃ b, input.calleeBfd.syms[j]? = some b ∧ input.calleePos s < b.filepos.toNat + b.symbSize.toNat := by
  have hsamples : ∀ sym ∈ input.callerBfd.syms, ∃ samples,
      callerSamples sort input.profile input.callerBfd (callerOffset input.profile input.callerBfd) sym =
        some samples := by
    intro sym hsym
    obtain ⟨samples, hsamples, -⟩ := callerSamples_spec sort
      (callerOffset input.profile input.callerBfd) hzero hanon (hcaller.fits sym hsym)
    exact ⟨samples, hsamples⟩
  obtain ⟨calls, hcalls, hne, hnodup, hmem⟩ := callerArcs_spec sort
    (callerOffset input.profile input.callerBfd) (calleeOffset input.profile input.calleeBfd) hzero hanon hcallee input.callerBfd.syms 0 hcaller.fits (hsome.imp_right fun hnone sym hsym => by
      obtain ⟨i, hi⟩ := List.mem_iff_getElem?.mp hsym
      obtain ⟨samples, hsym⟩ := hsamples sym hsym
      rw [hsym, List.eq_nil_iff_forall_not_mem.mpr fun s hs =>
        hnone i s ((callerSamples_selected hzero hanon hcaller hi hsym s).mp hs)])
  refine ⟨calls, hcalls, hne, hnodup, fun i j s => ?_⟩
  rw [hmem, Nat.sub_zero]
  constructor
  · rintro ⟨-, sym, samples, hsym, hsome, hs, t, ht, hle, hnearest, b, hb, hin⟩
    have hselected := callerSamples_selected hzero hanon hcaller hsym hsome
    exact ⟨(hselected s).mp hs, t, (hselected t).mp ht, Nat.add_le_add_right hle _, hnearest, b, hb, hin⟩
  · rintro ⟨hs, t, ht, hle, hnearest, b, hb, hin⟩
    have hs' := hs
    obtain ⟨-, sym, hsym, -⟩ := hs'
    obtain ⟨samples, hsome⟩ := hsamples sym (List.mem_of_getElem? hsym)
    have hselected := callerSamples_selected hzero hanon hcaller hsym hsome
    exact ⟨Nat.zero_le i, sym, samples, hsym, hsome, (hselected s).mpr hs, t, (hselected t).mpr ht,
      Nat.le_of_add_le_add_right hle, hnearest, b, hb, hin⟩

end

/-- The recorder's part holds whatever the calls are. -/
theorem fullyAttributed_of_calls {sort : CalleeSort} {calls : List ArcCall}
    (hcalls : arcCalls sort input.profile input.callerBfd input.callerBfdOk input.calleeBfd = some calls)
    (hne : ∀ call ∈ calls, call.samples ≠ []) (hnodup : (attributions calls).Nodup)
    (hmem : ∀ i j s, (i, j, s) ∈ attributions calls ↔ input.Belongs i j s) : input.FullyAttributed sort := by
  refine ⟨calls, hcalls, hne, hnodup, hmem, fun pclass callers callees symMap => ?_⟩
  rw [callgraphAdd, hcalls]
  refine ⟨_, rfl, fun caller callee c => ⟨?_, ?_⟩⟩
  · exact count_calls (calleesCount · caller callee c) (fun _ _ _ _ => calleesCount_recordArc) calls symMap
  · exact count_calls (callersCount · caller callee c) (fun _ _ _ _ => callersCount_recordArc) calls symMap

end CgInput

open CgInput in
/-- The arcs are fully attributed exactly when no caller, callee or binary of an arc is overlooked. -/
theorem fullyAttributed_iff (sort : CalleeSort) (input : CgInput) (hzero : input.profile.startOffset = 0)
    (hanon : input.callerBfd.anonObj = false) (hcaller : TableOk input.callerBfd.syms)
    (hcallee : TableOk input.calleeBfd.syms) :
    input.FullyAttributed sort ↔
      (input.NoKernel → ∀ i j s, ¬input.Belongs i j s) ∧ (¬input.NoKernel → input.ArcsFindable) := by
  by_cases hkernel : input.NoKernel
  · have hcalls : arcCalls sort input.profile input.callerBfd input.callerBfdOk input.calleeBfd = some [] :=
      if_pos hkernel
    constructor
    · rintro ⟨calls, hcalls', -, -, hmem, -⟩
      obtain rfl := Option.some.inj (hcalls.symm.trans hcalls')
      refine ⟨fun _ i j s hs => ?_, fun hnot => absurd hkernel hnot⟩
      exact nomatch (hmem i j s).mpr hs
    · intro h
      refine fullyAttributed_of_calls hcalls (fun _ hcall => nomatch hcall) List.nodup_nil fun i j s => ?_
      exact ⟨(fun hs => nomatch hs), fun hs => absurd hs (h.1 hkernel i j s)⟩
  · have harcs : arcCalls sort input.profile input.callerBfd input.callerBfdOk input.calleeBfd =
        callerArcs sort input.profile input.callerBfd input.calleeBfd
          (callerOffset input.profile input.callerBfd) (calleeOffset input.profile input.calleeBfd) 0
          input.callerBfd.syms := if_neg hkernel
    constructor
    · rintro ⟨calls, hcalls, -, -, hmem, -⟩
      refine ⟨fun h => absurd h hkernel, fun _ => ?_⟩
      rw [harcs] at hcalls
      -- a table without symbols has aborted the loop unless nothing was selected
      have hsome : input.calleeBfd.syms ≠ [] ∨ ∀ i s, ¬input.Selected i s := by
        by_contra hnot
        obtain ⟨hempty, hselected⟩ := not_or.mp hnot
        have hnone := callerArcs_abort (not_not.mp hempty) hcalls
        refine hselected fun i s hs => ?_
        have hs' := hs
        obtain ⟨-, sym, hsym, -⟩ := hs'
        exact nomatch (callerSamples_selected hzero hanon hcaller hsym
          (hnone sym (List.mem_of_getElem? hsym)) s).mpr hs
      obtain ⟨calls', hcalls', -, -, hrecorded⟩ := callerArcs_recorded hzero hanon hcaller hcallee sort hsome
      obtain rfl := Option.some.inj (hcalls'.symm.trans hcalls)
      have hfirst : ∀ i s, input.Selected i s →
          ∃ b, input.calleeBfd.syms[0]? = some b ∧ b.filepos.toNat ≤ input.calleePos s := by
        intro i s hs
        have hne : input.calleeBfd.syms ≠ [] := hsome.resolve_right fun hnone => hnone i s hs
        obtain ⟨b, syms, hsyms⟩ := List.exists_cons_of_ne_nil hne
        have hb : input.calleeBfd.syms[0]? = some b := by
          rw [hsyms]
          rfl
        refine ⟨b, hb, ?_⟩
        by_contra hbefore
        -- the nearest symbol of an offset before the first one is the first one
        have hnearest : Nearest input.calleeBfd.syms (input.calleePos s) 0 := by
          refine ⟨fun h => absurd h (Nat.lt_irrefl 0), fun k d hk hd => ?_, b, hb, by omega⟩
          have hle := UInt64.le_iff_toNat_le.mp (pairwise_iff.mp hcallee.sorted 0 k b d hk hb hd)
          omega
        obtain ⟨-, -, d, hd, hhas⟩ := (hmem i 0 s).mp
          ((hrecorded i 0 s).mpr ⟨hs, s, hs, Nat.le_refl _, hnearest, b, hb, by omega⟩)
        obtain rfl := Option.some.inj (hb.symm.trans hd)
        exact hbefore hhas.1
      refine ⟨fun i j s hs => ((hrecorded i j s).mp ((hmem i j s).mpr hs)).1, hfirst, fun i j s hs hj => ?_⟩
      obtain ⟨-, t, ht, hle, hnearest, -⟩ := (hrecorded i j s).mp
        ((hmem i j s).mpr ⟨hs.1, hs.inCaller.2, hj⟩)
      obtain ⟨b, hb, hin⟩ := hnearest.inEnd
      have hstart : b.filepos.toNat ≤ input.calleePos t := by
        rcases Nat.eq_zero_or_pos j with rfl | hpos
        · obtain ⟨d, hd, hstart⟩ := hfirst i t ht
          obtain rfl := Option.some.inj (hb.symm.trans hd)
          exact hstart
        · exact hnearest.start hpos b hb
      exact ⟨t, ht, hle, ⟨b, hb, hstart, hin⟩, hnearest.last⟩
    · intro h
      obtain ⟨hcallers, hfirst, hvisible⟩ := h.2 hkernel
      have hsome : input.calleeBfd.syms ≠ [] ∨ ∀ i s, ¬input.Selected i s := by
        by_contra hnot
        obtain ⟨hempty, hselected⟩ := not_or.mp hnot
        refine hselected fun i s hs => ?_
        obtain ⟨b, hb, -⟩ := hfirst i s hs
        rw [not_not.mp hempty] at hb
        cases hb
      obtain ⟨calls, hcalls, hne, hnodup, hrecorded⟩ :=
        callerArcs_recorded hzero hanon hcaller hcallee sort hsome
      refine fullyAttributed_of_calls (harcs.trans hcalls) hne hnodup fun i j s => (hrecorded i j s).trans ⟨?_, ?_⟩
      · rintro ⟨hs, t, ht, hle, hnearest, b, hb, hin⟩
        refine ⟨hs.1, hs.inCaller.2, b, hb, ?_, hin⟩
        rcases Nat.eq_zero_or_pos j with rfl | hpos
        · obtain ⟨d, hd, hstart⟩ := hfirst i t ht
          obtain rfl := Option.some.inj (hb.symm.trans hd)
          exact Nat.le_trans hstart hle
        · exact Nat.le_trans (hnearest.start hpos b hb) hle
      · intro hbelongs
        have hs := hcallers i j s hbelongs
        obtain ⟨t, ht, hle, ⟨d, hd, hhas⟩, hlast⟩ := hvisible i j s hs hbelongs.2.2
        obtain ⟨b, hb, hhas'⟩ := hbelongs.2.2
        refine ⟨hs, t, ht, hle, ⟨fun _ e he => ?_, hlast, d, hd, hhas.2⟩, b, hb, hhas'.2⟩
        obtain rfl := Option.some.inj (hd.symm.trans he)
        exact hhas.1

/-- One symbol of 16 bytes from `start` on, which calls itself once, from its offset 5 to its offset 7. -/
def recursionInput (start : UInt64) : CgInput where
  profile := ⟨⟨0, 0, false, 0, 0, 0⟩, [(0x500000007, 1)], 0, List.pairwise_singleton _ _⟩
  callerBfd := ⟨['a'], [OpBfdSymbol.artificial start 0x10 ['f']], false, 0, [], 0, fun _ _ => none⟩
  callerBfdOk := true
  calleeBfd := ⟨['a'], [OpBfdSymbol.artificial start 0x10 ['f']], false, 0, [], 0, fun _ _ => none⟩

theorem recursionInput_tableOk {start : UInt64} (hstart : start.toNat + 16 < 2 ^ 32) :
    TableOk (recursionInput start).callerBfd.syms := by
  refine ⟨List.pairwise_singleton _ _, List.pairwise_singleton _ _, fun s hs => ?_⟩
  obtain rfl := List.mem_singleton.mp hs
  change (start + 0).toNat + 16 < 2 ^ 32
  rwa [UInt64.add_zero]

/-- Two symbols with a gap between them. -/
def pairSymbols : List OpBfdSymbol := [OpBfdSymbol.artificial 1 0x10 ['f'], OpBfdSymbol.artificial 0x20 0x10 ['g']]

/-- `f` calls itself, an address in the gap, and `g`, which calls `f`. -/
def pairSamples : List Sample := [(0x500000007, 1), (0x500000014, 2), (0x500000028, 3), (0x2300000007, 4)]

theorem pairSamples_ordered : pairSamples.Pairwise fun a b => a.1 < b.1 := by decide

def pairInput : CgInput where
  profile := ⟨⟨0, 0, false, 0, 0, 0⟩, pairSamples, 0, pairSamples_ordered⟩
  callerBfd := ⟨['a'], pairSymbols, false, 0, [], 0, fun _ _ => none⟩
  callerBfdOk := true
  calleeBfd := ⟨['a'], pairSymbols, false, 0, [], 0, fun _ _ => none⟩

theorem pairSymbols_tableOk : TableOk pairSymbols where
  sorted := by decide
  disjoint := by
    refine List.pairwise_pair.mpr fun x => ?_
    rintro ⟨hf, hg⟩
    have hend : x < 17 := hf.2
    have hstart : 32 ≤ x := hg.1
    omega
  fits := by decide

/-- All but the sample of the gap are attributed. -/
theorem fullyAttributed_iff_gap : pairInput.FullyAttributed
    (Sorting.insertion _ (fun _ _ => UInt32.le_total _ _) fun _ _ _ => UInt32.le_trans) := by
  refine (fullyAttributed_iff _ _ rfl rfl pairSymbols_tableOk pairSymbols_tableOk).mpr
    ⟨fun h => absurd rfl h.1, fun _ => ⟨?_, ?_, ?_⟩⟩
  · rintro i j s ⟨hs, ⟨a, ha, hhas⟩, -⟩
    have hbehind : ∀ a ∈ pairSymbols, 0 < a.filepos.toNat := by decide
    exact ⟨hs, a, ha, hbehind a (List.mem_of_getElem? ha), hhas⟩
  · rintro i s ⟨hs, -⟩
    refine ⟨_, rfl, ?_⟩
    simp only [pairInput, pairSamples, List.mem_cons, List.not_mem_nil, or_false] at hs
    rcases hs with rfl | rfl | rfl | rfl <;> decide
  · rintro i j s hs ⟨b, hb, hhas⟩
    refine ⟨s, hs, Nat.le_refl _, ⟨b, hb, hhas⟩, fun k d hk hd => ?_⟩
    -- only `g` is behind another symbol
    have hlt : k < 2 := (List.getElem?_eq_some_iff.mp hd).1
    obtain ⟨rfl, rfl⟩ : j = 0 ∧ k = 1 := by omega
    obtain rfl := Option.some.inj hb
    obtain rfl := Option.some.inj hd
    have hend : pairInput.calleePos s < 17 := hhas.2
    exact Nat.lt_trans hend (by decide)

/-- A symbol that starts exactly at the start offset loses it. -/
theorem placeholder_arc_lost : TableOk (recursionInput 0).callerBfd.syms ∧ TableOk (recursionInput 0).calleeBfd.syms ∧
    ∀ sort, ¬(recursionInput 0).FullyAttributed sort := by
  refine ⟨recursionInput_tableOk (by decide), recursionInput_tableOk (by decide), fun sort => ?_⟩
  rintro ⟨calls, hcalls, -, -, hmem, -⟩
  have hnone : arcCalls sort (recursionInput 0).profile (recursionInput 0).callerBfd
      (recursionInput 0).callerBfdOk (recursionInput 0).calleeBfd = some [] := by
    change (arcsOf _ _ []).bind _ = _
    rw [arcsOf]
    rfl
  obtain rfl := Option.some.inj (hnone.symm.trans hcalls)
  refine List.not_mem_nil ((hmem 0 0 (0x500000007, 1)).mpr ?_)
  exact ⟨List.mem_singleton.mpr rfl, ⟨_, rfl, by decide, by decide⟩, ⟨_, rfl, by decide, by decide⟩⟩

end Oprofile.Libpp

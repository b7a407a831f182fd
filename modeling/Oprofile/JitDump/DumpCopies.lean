import Oprofile.JitDump.SharedDump
import Oprofile.JitDump.RoundTrip

/-! What threads that share a dump leave in it, and what the copies of `opjitconv` hold. -/
namespace Oprofile.JitDump

open Records Turns

/-- The thread has the stream lock. -/
def WriterPlace.HoldsStream : WriterPlace → Prop
  | .inside _ _ _ => True
  | .flushed => True
  | _ => False

/-- The thread is between its calls on the stream. -/
def WriterPlace.IsInside (place : WriterPlace) : Prop := ∃ call prog rest, place = .inside call prog rest

/-- What calls leave that are made one after another. -/
def leave (calls : List (CallEnv × AgentCall)) (d : DumpFile) : DumpFile :=
  calls.foldl (fun d call => (call.2.run call.1 d).2) d

def progs (calls : List (CallEnv × AgentCall)) : List StreamProg := calls.filterMap fun call => call.2.prog call.1

/-- The unload of a method. -/
def unloadCall : CallEnv × AgentCall := (.fine 2, .unloadNativeCode 4096)

theorem unloadCall_started :
    Started unloadCall (.put (unloadFormat.encode (unloadRecord 4096 2)) (.ret 0 true)) := ⟨rfl, rfl⟩

namespace SharedDump

variable {T : Type} {d : DumpFile} {s s' : SharedDump T} {t u : T} {call : CallEnv × AgentCall}
  {prog rest : StreamProg} {spills : Stream → Nat → Prop}

/-- Who holds the stream lock, and that the calls on the stream are made in turn. -/
structure InOrder (d : DumpFile) (s : SharedDump T) : Prop where
  stream : s.stream.start ≤ s.stream.disk.length
  flocked : ∀ t call prog, s.place t = .flocked call prog → Started call prog
  holds : ∀ t, (s.place t).HoldsStream → ∃ n, s.streamLock = some (t, n)
  started : ∀ call ∈ s.ended, ∃ prog, Started call prog
  inside : ∀ t call prog rest, s.place t = .inside call prog rest →
    Started call prog ∧ rest.SeeksInside s.stream.dump ∧
      Serial StreamProg.step d (progs s.ended) (some (prog, rest)) s.stream.dump
  outside : (∀ t, ¬(s.place t).IsInside) → Serial StreamProg.step d (progs s.ended) none s.stream.dump

theorem InOrder.holder_unique (h : InOrder d s) (ht : (s.place t).HoldsStream) (hu : (s.place u).HoldsStream) :
    t = u := by
  obtain ⟨n, hn⟩ := h.holds t ht
  obtain ⟨m, hm⟩ := h.holds u hu
  rw [hn] at hm
  cases hm
  rfl

theorem holdsStream_of_inside (h : s.place t = .inside call prog rest) : (s.place t).HoldsStream := by
  rw [h]
  trivial

theorem opened_inOrder (hd : d.Inside) : InOrder d (opened d : SharedDump T) where
  stream := hd
  flocked := by
    intro t call prog h
    cases h
  holds := fun t h => h.elim
  started := by
    intro call hmem
    cases hmem
  inside := by
    intro t call prog rest h
    cases h
  outside := by
    intro _
    have hdump : (opened d : SharedDump T).stream.dump = d := put_nil _
    rw [hdump]
    exact .free .nil

variable [DecidableEq T]

theorem placed_cases {f : T → WriterPlace} {place place' : WriterPlace} (h : Function.update f t place u = place') :
    (u = t ∧ place = place') ∨ (u ≠ t ∧ f u = place') := by
  rcases eq_or_ne u t with rfl | hne
  · exact Or.inl ⟨rfl, (Function.update_self ..).symm.trans h⟩
  · exact Or.inr ⟨hne, (Function.update_of_ne hne ..).symm.trans h⟩

/-- A thread that is not inside moves to where it is not inside either. -/
theorem InOrder.moved (h : InOrder d s) {place : WriterPlace} (fileLock : FileLock) (streamLock : Option (T × Nat))
    (hold : ¬(s.place t).IsInside) (hnew : ¬place.IsInside)
    (hflocked : ∀ call prog, place = .flocked call prog → Started call prog)
    (hholds : ∀ u, (Function.update s.place t place u).HoldsStream → ∃ n, streamLock = some (u, n)) :
    InOrder d { s with fileLock := fileLock, streamLock := streamLock, place := Function.update s.place t place } where
  stream := h.stream
  flocked := by
    intro u call prog hu
    rcases placed_cases hu with ⟨-, hplace⟩ | ⟨-, hu⟩
    · exact hflocked call prog hplace
    · exact h.flocked u call prog hu
  holds := hholds
  started := h.started
  inside := by
    intro u call prog rest hu
    rcases placed_cases hu with ⟨-, hplace⟩ | ⟨-, hu⟩
    · exact absurd ⟨call, prog, rest, hplace⟩ hnew
    · exact h.inside u call prog rest hu
  outside := by
    intro hall
    apply h.outside
    intro u
    rcases eq_or_ne u t with rfl | hne
    · exact hold
    · have hu := hall u
      dsimp only at hu
      rwa [Function.update_of_ne hne] at hu

/-- Only the thread that has the stream lock has it after that thread moves. -/
theorem InOrder.holds_update (h : InOrder d s) (ht : (s.place t).HoldsStream) {place : WriterPlace}
    (hu : (Function.update s.place t place u).HoldsStream) : u = t := by
  by_contra hne
  rw [Function.update_of_ne hne] at hu
  exact hne (h.holder_unique hu ht)

theorem InOrder.flock (h : InOrder d s) (hout : s.place t = .out) (hstarted : Started call prog) :
    InOrder d { s with fileLock := .agent, place := Function.update s.place t (.flocked call prog) } := by
  refine h.moved .agent s.streamLock ?_ ?_ ?_ ?_
  · rintro ⟨call', prog', rest', hin⟩
    rw [hout] at hin
    cases hin
  · rintro ⟨call', prog', rest', hin⟩
    cases hin
  · intro call' prog' heq
    cases heq
    exact hstarted
  · intro u hu
    rcases eq_or_ne u t with rfl | hne
    · rw [Function.update_self] at hu
      exact hu.elim
    · rw [Function.update_of_ne hne] at hu
      exact h.holds u hu

/-- The thread that takes the stream lock is alone inside, and starts its program. -/
theorem InOrder.flockfile (h : InOrder d s) (ht : s.place t = .flocked call prog)
    (hfree : ∀ u n, s.streamLock = some (u, n) → u = t) :
    InOrder d { s with streamLock := takeStream t s.streamLock,
                       place := Function.update s.place t (.inside call prog prog) } := by
  have hstarted := h.flocked t call prog ht
  have hnone : ∀ u, ¬(s.place u).HoldsStream := by
    intro u hu
    obtain ⟨n, hn⟩ := h.holds u hu
    have heq : u = t := hfree u n hn
    rw [heq, ht] at hu
    exact hu
  have hserial := h.outside fun u hu => by
    obtain ⟨call', prog', rest', hin⟩ := hu
    exact hnone u (holdsStream_of_inside hin)
  have hothers : ∀ u place, Function.update s.place t (.inside call prog prog) u = place →
      place.HoldsStream → u = t := by
    intro u place hu hplace
    by_contra hne
    rw [Function.update_of_ne hne] at hu
    exact hnone u (by rwa [hu])
  constructor
  · exact h.stream
  · intro u call' prog' hu
    rcases placed_cases hu with ⟨-, hplace⟩ | ⟨-, hu⟩
    · cases hplace
    · exact h.flocked u call' prog' hu
  · intro u hu
    rw [hothers u _ rfl hu]
    cases hlock : s.streamLock with
    | none => exact ⟨0, rfl⟩
    | some owner =>
      obtain ⟨v, n⟩ := owner
      rw [hfree v n hlock]
      exact ⟨n + 1, rfl⟩
  · exact h.started
  · intro u call' prog' rest' hu
    have heq := hothers u _ hu trivial
    rcases placed_cases hu with ⟨-, hplace⟩ | ⟨hne, -⟩
    · cases hplace
      exact ⟨hstarted, hstarted.seeksInside (dump_inside h.stream), hserial.enter prog⟩
    · exact absurd heq hne
  · intro hall
    have ht' := hall t
    dsimp only at ht'
    rw [Function.update_self] at ht'
    exact absurd ⟨call, prog, prog, rfl⟩ ht'

theorem InOrder.access (h : InOrder d s) {rest' : StreamProg} {stream : Stream}
    (ht : s.place t = .inside call prog rest) (haccess : rest.access s.stream = some (rest', stream)) :
    InOrder d { s with stream := stream, place := Function.update s.place t (.inside call prog rest') } := by
  obtain ⟨hstarted, hseeks, hserial⟩ := h.inside t call prog rest ht
  obtain ⟨hstep, hstream⟩ := StreamProg.access_step h.stream hseeks haccess
  have hholds : (s.place t).HoldsStream := holdsStream_of_inside ht
  constructor
  · exact hstream
  · intro u call' prog' hu
    rcases placed_cases hu with ⟨-, hplace⟩ | ⟨-, hu⟩
    · cases hplace
    · exact h.flocked u call' prog' hu
  · intro u hu
    rw [h.holds_update hholds hu]
    exact h.holds t hholds
  · exact h.started
  · intro u call' prog' rest'' hu
    rcases placed_cases hu with ⟨-, hplace⟩ | ⟨hne, hu⟩
    · cases hplace
      exact ⟨hstarted, hseeks.step hstep, hserial.access hstep⟩
    · exact absurd (h.holder_unique (holdsStream_of_inside hu) hholds) hne
  · intro hall
    have ht' := hall t
    dsimp only at ht'
    rw [Function.update_self] at ht'
    exact absurd ⟨call, prog, rest', rfl⟩ ht'

theorem progs_append (hprog : Started call prog) (calls : List (CallEnv × AgentCall)) :
    progs (calls ++ [call]) = progs calls ++ [prog] := by
  rw [progs, progs, List.filterMap_append]
  congr 1
  exact List.filterMap_cons_some (f := fun call : CallEnv × AgentCall => call.2.prog call.1) hprog.prog_eq

/-- A program that has come to its end leaves the stream to the others. -/
theorem InOrder.ends (h : InOrder d s) {rc : Int} {unlocks : Bool} {place : WriterPlace} (stream : Stream)
    (ht : s.place t = .inside call prog (.ret rc unlocks)) (hplace : ¬place.IsInside)
    (hflocked : ∀ call prog, place ≠ .flocked call prog) (hstream : stream.start ≤ stream.disk.length)
    (hdump : stream.dump = s.stream.dump) :
    InOrder d { s with stream := stream, place := Function.update s.place t place, ended := s.ended ++ [call] } := by
  obtain ⟨hstarted, -, hserial⟩ := h.inside t call prog _ ht
  have hholds : (s.place t).HoldsStream := holdsStream_of_inside ht
  constructor
  · exact hstream
  · intro u call' prog' hu
    rcases placed_cases hu with ⟨-, hplace⟩ | ⟨-, hu⟩
    · exact absurd hplace (hflocked call' prog')
    · exact h.flocked u call' prog' hu
  · intro u hu
    rw [h.holds_update hholds hu]
    exact h.holds t hholds
  · intro call' hmem
    rcases List.mem_append.mp hmem with hold | hnew
    · exact h.started call' hold
    · rw [List.mem_singleton.mp hnew]
      exact ⟨prog, hstarted⟩
  · intro u call' prog' rest' hu
    rcases placed_cases hu with ⟨-, heq⟩ | ⟨hne, hu⟩
    · exact absurd ⟨call', prog', rest', heq⟩ hplace
    · exact absurd (h.holder_unique (holdsStream_of_inside hu) hholds) hne
  · intro _
    rw [progs_append hstarted, hdump]
    exact hserial.leave rfl

theorem InOrder.funlockfile (h : InOrder d s) (ht : s.place t = .flushed) :
    InOrder d { s with streamLock := giveStream s.streamLock, place := Function.update s.place t .unlocked } := by
  have hholds : (s.place t).HoldsStream := by
    rw [ht]
    trivial
  refine h.moved s.fileLock (giveStream s.streamLock) ?_ ?_ ?_ ?_
  · rintro ⟨call', prog', rest', hin⟩
    rw [ht] at hin
    cases hin
  · rintro ⟨call', prog', rest', hin⟩
    cases hin
  · intro call' prog' heq
    cases heq
  · intro u hu
    rw [h.holds_update hholds hu, Function.update_self] at hu
    exact hu.elim

theorem InOrder.unflock (h : InOrder d s) (ht : s.place t = .unlocked) :
    InOrder d { s with fileLock := giveFile s.fileLock, place := Function.update s.place t .out } := by
  refine h.moved (giveFile s.fileLock) s.streamLock ?_ ?_ ?_ ?_
  · rintro ⟨call', prog', rest', hin⟩
    rw [ht] at hin
    cases hin
  · rintro ⟨call', prog', rest', hin⟩
    cases hin
  · intro call' prog' heq
    cases heq
  · intro u hu
    rcases eq_or_ne u t with rfl | hne
    · rw [Function.update_self] at hu
      exact hu.elim
    · rw [Function.update_of_ne hne] at hu
      exact h.holds u hu

theorem InOrder.step (h : InOrder d s) (hstep : Step spills s s') : InOrder d s' := by
  cases hstep with
  | flock hout hlocked _ hprog => exact h.flock hout ⟨hlocked, hprog⟩
  | flockfile ht hfree => exact h.flockfile ht hfree
  | access ht haccess => exact h.access ht haccess
  | spill _ =>
    obtain ⟨hdump, hstream⟩ := spill_dump h.stream _
    refine ⟨hstream, h.flocked, h.holds, h.started, ?_, ?_⟩
    · dsimp only
      rw [hdump]
      exact h.inside
    · dsimp only
      rw [hdump]
      exact h.outside
  | fflush ht =>
    obtain ⟨hdump, hstream⟩ := spill_dump h.stream s.stream.buffer.length
    refine h.ends _ ht ?_ (by simp) hstream hdump
    rintro ⟨call', prog', rest', hin⟩
    cases hin
  | keepLocks ht =>
    refine h.ends s.stream ht ?_ (by simp) h.stream rfl
    rintro ⟨call', prog', rest', hin⟩
    cases hin
  | funlockfile ht => exact h.funlockfile ht
  | unflock ht => exact h.unflock ht
  | lockCopy _ _ => exact ⟨h.stream, h.flocked, h.holds, h.started, h.inside, h.outside⟩
  | readCopy k _ _ => exact ⟨h.stream, h.flocked, h.holds, h.started, h.inside, h.outside⟩
  | closeCopy _ _ => exact ⟨h.stream, h.flocked, h.holds, h.started, h.inside, h.outside⟩

theorem Reachable.inOrder (hd : d.Inside) (h : Reachable spills d s) : InOrder d s := by
  induction h with
  | refl => exact opened_inOrder hd
  | tail _ hstep ih => exact ih.step hstep

/-- Programs that have run in turn leave what their calls leave one after another. -/
theorem inTurn_leave {calls : List (CallEnv × AgentCall)} {d' : DumpFile}
    (hstarted : ∀ call ∈ calls, ∃ prog, Started call prog) (h : InTurn StreamProg.step d (progs calls) d') :
    d' = leave calls d := by
  have hfold := h.eq_foldl (fun prog d => (prog.run d).2)
    (fun _ _ _ _ hstep => congrArg Prod.snd (StreamProg.step_run hstep)) fun _ _ => StreamProg.run_end
  rw [hfold]
  clear hfold h
  induction calls generalizing d with
  | nil => rfl
  | cons call calls ih =>
    obtain ⟨prog, hprog⟩ := hstarted call List.mem_cons_self
    have hcons : progs (call :: calls) = prog :: progs calls :=
      List.filterMap_cons_some (f := fun call : CallEnv × AgentCall => call.2.prog call.1) hprog.prog_eq
    rw [hcons, List.foldl_cons, hprog.run_eq]
    exact ih fun call' hmem => hstarted call' (List.mem_cons_of_mem _ hmem)

omit [DecidableEq T] in
theorem InOrder.dump_eq (h : InOrder d s) (hout : ∀ t, ¬(s.place t).IsInside) : s.stream.dump = leave s.ended d := by
  cases h.outside hout with
  | free hturn => exact inTurn_leave h.started hturn

/-- However the threads move, their calls on the stream do not mix: at most one has the stream, what it has
written stands behind what the finished calls leave when they are made one after another, and without it there is
nothing else. -/
theorem threads_write_in_turn (hd : d.Inside) (h : Reachable spills d s) :
    (∀ t u, (s.place t).HoldsStream → (s.place u).HoldsStream → t = u) ∧
    ((∀ t, ¬(s.place t).IsInside) → s.stream.dump = leave s.ended d) ∧
    ∀ t call prog rest, s.place t = .inside call prog rest →
      call.2.prog call.1 = some prog ∧ Comes StreamProg.step prog (leave s.ended d) rest s.stream.dump := by
  have horder := Reachable.inOrder hd h
  refine ⟨fun t u ht hu => horder.holder_unique ht hu, horder.dump_eq, ?_⟩
  intro t call prog rest ht
  obtain ⟨hstarted, -, hserial⟩ := horder.inside t call prog rest ht
  refine ⟨hstarted.prog_eq, ?_⟩
  cases hserial with
  | busy hturn hcomes =>
    rw [← inTurn_leave horder.started hturn]
    exact hcomes

/-- One of two threads has ended a call, waits with the next one for the stream, and the other is inside, its
record written. -/
theorem threads_write_in_turn_unload : ∃ s : SharedDump Bool, Reachable (fun _ _ => True) ⟨[], 0⟩ s ∧
    s.ended = [unloadCall] ∧ (∃ prog, s.place false = .flocked unloadCall prog) ∧ ∃ prog rest,
      s.place true = .inside unloadCall prog rest ∧
        Comes StreamProg.step prog (leave s.ended ⟨[], 0⟩) rest s.stream.dump := by
  have h₁ : Relation.ReflTransGen (Step fun _ _ => True) (opened ⟨[], 0⟩ : SharedDump Bool) _ :=
    .single (.flock (t := false) rfl unloadCall_started.locked (by simp [opened]) unloadCall_started.prog_eq)
  have h₂ := h₁.tail (.flockfile (t := false) rfl (by simp [opened]))
  have h₃ := h₂.tail (.access (t := false) rfl rfl)
  have h₄ := h₃.tail (.flock (t := true) rfl unloadCall_started.locked (by simp) unloadCall_started.prog_eq)
  have h₅ := h₄.tail (.fflush (t := false) rfl)
  have h₆ := h₅.tail (.funlockfile (t := false) rfl)
  have h₇ := h₆.tail (.flockfile (t := true) rfl (by simp [opened, takeStream, giveStream]))
  have h₈ := h₇.tail (.unflock (t := false) rfl)
  have h₉ := h₈.tail (.access (t := true) rfl rfl)
  have h₁₀ := h₉.tail (.flock (t := false) rfl unloadCall_started.locked (by simp [giveFile])
    unloadCall_started.prog_eq)
  exact ⟨_, h₁₀, rfl, ⟨_, rfl⟩, _, _, rfl,
    ((threads_write_in_turn (d := ⟨[], 0⟩) (Nat.le_refl 0) h₁₀).2.2 true _ _ _ rfl).2⟩

/-! Calls that do not overlap. -/

/-- No two threads are in a call at a time. -/
def Alone (s : SharedDump T) : Prop := ∀ t u, s.place t ≠ .out → s.place u ≠ .out → t = u

/-- The states that are come to without two calls at a time. -/
def ReachableAlone (spills : Stream → Nat → Prop) (d : DumpFile) (s : SharedDump T) : Prop :=
  Relation.ReflTransGen (fun s s' => Step spills s s' ∧ Alone s') (opened d) s

theorem ReachableAlone.reachable (h : ReachableAlone spills d s) : Reachable spills d s := by
  induction h with
  | refl => exact .refl
  | tail _ hlast ih => exact .tail ih hlast.1

theorem ReachableAlone.alone (h : ReachableAlone spills d s) : Alone s := by
  cases h with
  | refl => exact fun t u ht _ => absurd rfl ht
  | tail _ hlast => exact hlast.2

/-- The lock of `flock` keeps the copying process away from every call, and all is flushed when it is free. -/
structure Undisturbed (d : DumpFile) (s : SharedDump T) : Prop where
  flushed : s.fileLock ≠ .agent → s.stream.buffer = []
  settled : ∀ t, s.place t = .flushed ∨ s.place t = .unlocked → s.stream.buffer = []
  locked : ∀ t, s.place t ≠ .out → s.fileLock = .agent
  copying : ∀ got, s.copying = some got → s.fileLock = .converter ∧ got <+: s.stream.disk
  notCopying : s.copying = none → s.fileLock ≠ .converter
  copies : ∀ copy ∈ s.copies, ∃ calls, calls <+: s.ended ∧ copy = (leave calls d).bytes

omit [DecidableEq T] in
theorem opened_undisturbed : Undisturbed d (opened d : SharedDump T) where
  flushed := fun _ => rfl
  settled := fun _ _ => rfl
  locked := fun t h => absurd rfl h
  copying := by
    intro got h
    cases h
  notCopying := by
    intro _ h
    cases h
  copies := by
    intro copy hmem
    cases hmem

omit [DecidableEq T] in
/-- While a call is made, nothing is copied. -/
theorem Undisturbed.notCopying_of_busy (h : Undisturbed d s) (ht : s.place t ≠ .out) : s.copying = none := by
  cases hcopying : s.copying with
  | none => rfl
  | some got =>
    have hconverter := (h.copying got hcopying).1
    rw [h.locked t ht] at hconverter
    cases hconverter

/-- A thread in a call moves within it. -/
theorem Undisturbed.moved (h : Undisturbed d s) (halone : Alone s) {place : WriterPlace} (stream : Stream)
    (streamLock : Option (T × Nat)) {ended : List (CallEnv × AgentCall)} (ht : s.place t ≠ .out)
    (hsettled : place = .flushed ∨ place = .unlocked → stream.buffer = []) (hended : s.ended <+: ended) :
    Undisturbed d { s with stream := stream, streamLock := streamLock, place := Function.update s.place t place,
                           ended := ended } where
  flushed := fun hlock => absurd (h.locked t ht) hlock
  settled := by
    intro u hu
    rcases eq_or_ne u t with rfl | hne
    · dsimp only at hu
      rw [Function.update_self] at hu
      exact hsettled hu
    · dsimp only at hu
      rw [Function.update_of_ne hne] at hu
      refine absurd (halone u t ?_ ht) hne
      rintro hout
      rw [hout] at hu
      rcases hu with hu | hu <;> cases hu
  locked := fun _ _ => h.locked t ht
  copying := by
    intro got hgot
    cases (h.notCopying_of_busy ht).symm.trans hgot
  notCopying := h.notCopying
  copies := by
    intro copy hmem
    obtain ⟨calls, hinit, heq⟩ := h.copies copy hmem
    exact ⟨calls, hinit.trans hended, heq⟩

theorem Undisturbed.flock (h : Undisturbed d s) (hlock : s.fileLock ≠ .converter)
    (halone' : Alone { s with fileLock := .agent, place := Function.update s.place t (.flocked call prog) }) :
    Undisturbed d { s with fileLock := .agent, place := Function.update s.place t (.flocked call prog) } where
  flushed := fun hne => absurd rfl hne
  settled := by
    intro u hu
    have heq : u = t := by
      apply halone' u t
      · intro hout
        rw [hout] at hu
        rcases hu with hu | hu <;> cases hu
      · dsimp only
        rw [Function.update_self]
        intro hout
        cases hout
    rw [heq] at hu
    dsimp only at hu
    rw [Function.update_self] at hu
    rcases hu with hu | hu <;> cases hu
  locked := fun _ _ => rfl
  copying := by
    intro got hgot
    exact absurd (h.copying got hgot).1 hlock
  notCopying := by
    intro _ heq
    cases heq
  copies := h.copies

theorem Undisturbed.unflock (h : Undisturbed d s) (halone : Alone s) (ht : s.place t = .unlocked) :
    Undisturbed d { s with fileLock := giveFile s.fileLock, place := Function.update s.place t .out } := by
  have hbusy : s.place t ≠ .out := by
    rw [ht]
    intro hout
    cases hout
  have hothers : ∀ u, Function.update s.place t .out u = .out := by
    intro u
    rcases eq_or_ne u t with rfl | hne
    · exact Function.update_self ..
    · rw [Function.update_of_ne hne]
      by_contra hu
      exact hne (halone u t hu hbusy)
  have hlock : giveFile s.fileLock = .free := by
    rw [h.locked t hbusy]
    rfl
  constructor
  · exact fun _ => h.settled t (Or.inr ht)
  · exact fun _ _ => h.settled t (Or.inr ht)
  · exact fun u hu => absurd (hothers u) hu
  · intro got hgot
    cases (h.notCopying_of_busy hbusy).symm.trans hgot
  · intro _ heq
    rw [hlock] at heq
    cases heq
  · exact h.copies

theorem Undisturbed.step (h : Undisturbed d s) (horder : InOrder d s) (halone : Alone s) (hstep : Step spills s s')
    (halone' : Alone s') : Undisturbed d s' := by
  have hbusy : ∀ {t place}, s.place t = place → place ≠ .out → s.place t ≠ .out := by
    intro t place ht hne
    rwa [ht]
  cases hstep with
  | flock _ _ hlock _ => exact h.flock hlock halone'
  | flockfile ht _ => exact h.moved halone s.stream _ (hbusy ht (by simp)) (by simp) (List.prefix_refl _)
  | access ht _ => exact h.moved halone _ s.streamLock (hbusy ht (by simp)) (by simp) (List.prefix_refl _)
  | fflush ht =>
    exact h.moved halone _ s.streamLock (hbusy ht (by simp)) (fun _ => List.drop_length) (List.prefix_append ..)
  | keepLocks ht =>
    exact h.moved halone s.stream s.streamLock (hbusy ht (by simp)) (by simp) (List.prefix_append ..)
  | funlockfile ht =>
    exact h.moved halone s.stream _ (hbusy ht (by simp)) (fun _ => h.settled _ (Or.inl ht)) (List.prefix_refl _)
  | unflock ht => exact h.unflock halone ht
  | spill _ =>
    have hempty : ∀ {stream : Stream} {k : Nat}, stream.buffer = [] → (stream.spill k).buffer = [] := by
      intro stream k hbuffer
      rw [Stream.spill, hbuffer, List.drop_nil]
    refine ⟨fun hlock => hempty (h.flushed hlock), fun t ht => hempty (h.settled t ht), h.locked, ?_, h.notCopying,
      h.copies⟩
    intro got hgot
    obtain ⟨hlock, hinit⟩ := h.copying got hgot
    have hbuffer : s.stream.buffer = [] := h.flushed (by rw [hlock]; simp)
    refine ⟨hlock, ?_⟩
    dsimp only [Stream.spill]
    rw [hbuffer, List.take_nil, put_nil]
    exact hinit
  | lockCopy hcopying hfree =>
    have hflushed : s.stream.buffer = [] := h.flushed (by rw [hfree]; simp)
    refine ⟨fun _ => hflushed, h.settled, ?_, ?_, ?_, h.copies⟩
    · intro t ht
      have hlock := h.locked t ht
      rw [hfree] at hlock
      cases hlock
    · intro got hgot
      cases hgot
      exact ⟨rfl, List.nil_prefix⟩
    · intro hnone
      cases hnone
  | readCopy k hgot hlt =>
    obtain ⟨hlock, hinit⟩ := h.copying _ hgot
    refine ⟨h.flushed, h.settled, h.locked, ?_, ?_, h.copies⟩
    · intro got' hgot'
      cases hgot'
      refine ⟨hlock, ?_⟩
      obtain ⟨rest, hdisk⟩ := hinit
      dsimp only
      rw [← hdisk, List.drop_left]
      exact (List.prefix_append_right_inj _).mpr (List.take_prefix ..)
    · intro hnone
      cases hnone
  | closeCopy hgot hle =>
    obtain ⟨hlock, hinit⟩ := h.copying _ hgot
    have hflushed : s.stream.buffer = [] := h.flushed (by rw [hlock]; simp)
    have hout : ∀ t, s.place t = .out := by
      intro t
      by_contra hne
      have hagent := h.locked t hne
      rw [hlock] at hagent
      cases hagent
    refine ⟨fun _ => hflushed, h.settled, fun t ht => absurd (hout t) ht, ?_, ?_, ?_⟩
    · intro got' hgot'
      cases hgot'
    · intro _ hconverter
      cases hconverter
    · intro copy hmem
      rcases List.mem_append.mp hmem with hold | hnew
      · exact h.copies copy hold
      · refine ⟨s.ended, List.prefix_refl _, ?_⟩
        rw [List.mem_singleton.mp hnew, hinit.eq_of_length_le hle, ← horder.dump_eq]
        · rw [Stream.dump, hflushed, put_nil]
        · rintro t ⟨call, prog, rest, hin⟩
          rw [hout t] at hin
          cases hin

theorem ReachableAlone.undisturbed (hd : d.Inside) (h : ReachableAlone spills d s) : Undisturbed d s := by
  induction h with
  | refl => exact opened_undisturbed
  | tail hbefore hlast ih =>
    exact ih.step (Reachable.inOrder hd (ReachableAlone.reachable hbefore)) (ReachableAlone.alone hbefore) hlast.1
      hlast.2

end SharedDump

/-- Whatever a call returns, it has worked. -/
def AgentCall.Succeeds (env : CallEnv) (call : AgentCall) : Prop := ∀ d, (call.run env d).1 = 0

section Copies

variable {T : Type} [DecidableEq T] {d : DumpFile} {s : SharedDump T} {calls : List (CallEnv × AgentCall)}

theorem runCalls_leave (h : ∀ call ∈ calls, call.2.Succeeds call.1) (d : DumpFile) :
    runCalls calls d = some (leave calls d) := by
  induction calls generalizing d with
  | nil => rfl
  | cons call calls ih =>
    have hrun : succeeded (call.2.run call.1 d) = some (call.2.run call.1 d).2 :=
      if_pos (h call List.mem_cons_self d)
    rw [runCalls, hrun]
    exact ih (fun call' hmem => h call' (List.mem_cons_of_mem _ hmem)) _

/-- A dump that ends with a whole record is read to its end. -/
theorem roundTrip_of_records (target : AgentTarget) (openEnv : CallEnv) {endTime t : UInt64} {file : List UInt8}
    (hbytes : file = headerBytes target t openEnv.junk ++ (recordsOf calls).flatMap Record.bytes)
    (ht : NotAtEnd endTime calls) (hheld : Holdable target calls) (hfit : SizesFit calls) :
    RoundTrip file endTime calls := by
  have hat : At file (headerBytes target t openEnv.junk).length ((recordsOf calls).flatMap Record.bytes) :=
    at_of_eq (hbytes.trans (by rw [List.append_nil]))
  have hlen := congrArg List.length hbytes
  rw [List.length_append] at hlen
  have hcount := records_length_le (recordsOf calls)
  obtain ⟨k, hk⟩ : ∃ k, file.length + 1 = (recordsOf calls).length + (k + 1) :=
    ⟨file.length - (recordsOf calls).length, by omega⟩
  obtain ⟨st, hrun, htells⟩ := parseEntries_records (k + 1) hat hheld.held (sizesFit_iff.mp hfit) ht.of_calls
    tells_start
  refine ⟨st, ?_, htells.rc, ?_, ?_⟩
  · rw [parseAll, parseHeader_headerBytes hheld.1 hbytes]
    change parseEntries file endTime (file.length + 1) _ _ = _
    rw [hk, hrun, parseEntries, if_neg (by omega)]
  · exact map_eq_map (fun _ _ hx => hx.1) htells.entries
  · exact map_eq_map (fun _ _ hx => hx) htells.lines

/-- While no two threads are in a call at a time, a copy is the dump that some of the first calls have left, whole;
where these calls work, their sizes fit and no unload among them bears the end time, the converter accepts the copy
and finds what they wrote. -/
theorem copies_hold_whole_calls {spills : Stream → Nat → Prop} {target : AgentTarget} {openEnv : CallEnv}
    (endTime : UInt64) (hopen : opOpenAgent openEnv target = some d) (h : s.ReachableAlone spills d) :
    ∀ copy ∈ s.copies, ∃ calls, calls <+: s.ended ∧ copy = (leave calls d).bytes ∧
      (Holdable target calls → SizesFit calls → NotAtEnd endTime calls →
        (∀ call ∈ calls, call.2.Succeeds call.1) → RoundTrip copy endTime calls) := by
  obtain ⟨time, hbytes, hend⟩ := opOpenAgent_bytes hopen
  have hinside : d.Inside := Nat.le_of_eq hend
  intro copy hmem
  obtain ⟨calls, hinit, rfl⟩ := (SharedDump.ReachableAlone.undisturbed hinside h).copies copy hmem
  refine ⟨calls, hinit, rfl, ?_⟩
  intro hheld hfit ht hsucceeds
  have happ := runCalls_appended hend (runCalls_leave hsucceeds d) hheld.whole
  refine roundTrip_of_records target openEnv (t := time) ?_ ht hheld hfit
  rw [happ.1, hbytes]

/-! Threads that make calls. -/

/-- Whatever a program does, it ends in this way. -/
def StreamProg.AllEnds (Q : Int → Bool → Prop) : StreamProg → Prop
  | .ret rc unlocks => Q rc unlocks
  | .put _ next => next.AllEnds Q
  | .tell next => ∀ pos, (next pos).AllEnds Q
  | .seek _ next => next.AllEnds Q

namespace StreamProg

variable {Q : Int → Bool → Prop} {env : CallEnv} {i : Nat} {bs : List UInt8} {ok fail prog : StreamProg}

theorem allEnds_fwrite (hok : ok.AllEnds Q) (hfail : fail.AllEnds Q) : (fwrite env i bs ok fail).AllEnds Q := by
  rw [fwrite]
  cases env.short i with
  | none => exact hok
  | some k => exact hfail

theorem allEnds_fseek {pos : Nat} (hok : ok.AllEnds Q) (hfail : fail.AllEnds Q) :
    (fseek env i pos ok fail).AllEnds Q := by
  rw [fseek]
  split_ifs
  · exact hfail
  · exact hok

theorem allEnds_ftell {next : Nat → StreamProg} (hok : ∀ pos, (next pos).AllEnds Q) (hfail : fail.AllEnds Q) :
    (ftell env i next fail).AllEnds Q := by
  rw [ftell]
  split_ifs
  · exact hfail
  · exact hok

theorem allEnds_writeEntries {entries : List DebugLineInfo} (hok : ok.AllEnds Q) (hfail : fail.AllEnds Q) :
    (writeEntries env i entries ok fail).AllEnds Q := by
  induction entries generalizing i with
  | nil => exact hok
  | cons entry entries ih =>
    exact allEnds_fwrite (allEnds_fwrite (allEnds_fwrite ih hfail) hfail) hfail

end StreamProg

/-- A call that returns zero gives its locks back. -/
theorem Started.givesBack {call : CallEnv × AgentCall} {prog : StreamProg} (h : Started call prog) :
    prog.AllEnds fun rc unlocks => rc = 0 → unlocks = true := by
  have hgood : (StreamProg.ret 0 true).AllEnds fun rc unlocks => rc = 0 → unlocks = true := fun _ => rfl
  have hbad : ∀ unlocks, (StreamProg.ret (-1) unlocks).AllEnds fun rc unlocks => rc = 0 → unlocks = true := by
    intro unlocks hzero
    cases hzero
  obtain ⟨time, -, ⟨nc, -, rfl⟩ | ⟨vma, -, rfl⟩ | ⟨codeAddr, compileMap, -, -, rfl⟩⟩ := prog_cases h.prog_eq
  · refine StreamProg.allEnds_fwrite (StreamProg.allEnds_fwrite ?_ (hbad _)) (hbad _)
    have hpadding : (if nc.paddingCount ≠ 0
        then StreamProg.fwrite call.1 3 (padBytes nc.paddingCount) (.ret 0 true) (.ret 0 true)
        else .ret 0 true : StreamProg).AllEnds fun rc unlocks => rc = 0 → unlocks = true := by
      split_ifs
      · exact StreamProg.allEnds_fwrite hgood hgood
      · exact hgood
    cases nc.codeBytes with
    | none => exact hpadding
    | some code => exact StreamProg.allEnds_fwrite hpadding hpadding
  · exact StreamProg.allEnds_fwrite hgood (hbad _)
  · refine StreamProg.allEnds_ftell (fun curPos => ?_) hgood
    refine StreamProg.allEnds_fwrite (StreamProg.allEnds_writeEntries ?_ hgood) hgood
    refine StreamProg.allEnds_ftell (fun lastPos => ?_) hgood
    have hrecord : ∀ (bs : List UInt8) (pos : Nat), (StreamProg.fseek call.1 0 curPos
        (StreamProg.fwrite call.1 (1 + 3 * compileMap.length + 1) bs
          (StreamProg.fseek call.1 1 pos (.ret 0 true) (.ret 0 true)) (.ret 0 true)) (.ret 0 true)).AllEnds
          fun rc unlocks => rc = 0 → unlocks = true := fun bs pos =>
      StreamProg.allEnds_fseek (StreamProg.allEnds_fwrite (StreamProg.allEnds_fseek hgood hgood) hgood) hgood
    rw [StreamProg.patchRecord]
    split_ifs
    · exact StreamProg.allEnds_fwrite (hrecord ..) hgood
    · exact hrecord ..

namespace SharedDump

variable {s' : SharedDump T} {t u : T} {call : CallEnv × AgentCall} {prog rest : StreamProg}
  {spills : Stream → Nat → Prop}

/-- At most this thread is in a call. -/
def Solo (t : T) (place : T → WriterPlace) : Prop := ∀ u, u ≠ t → place u = .out

omit [DecidableEq T] in
theorem Solo.alone (h : Solo t s.place) : Alone s := by
  have hself : ∀ u, s.place u ≠ .out → u = t := fun u hu => by
    by_contra hne
    exact hu (h u hne)
  intro u v hu hv
  rw [hself u hu, hself v hv]

theorem Solo.update {f : T → WriterPlace} (h : Solo t f) (place : WriterPlace) :
    Solo t (Function.update f t place) := by
  intro u hu
  rw [Function.update_of_ne hu]
  exact h u hu

/-- The state when a thread has come to the end of its program. -/
def atEnd (s : SharedDump T) (t : T) (call : CallEnv × AgentCall) (prog : StreamProg) (stream : Stream) (rc : Int)
    (unlocks : Bool) : SharedDump T :=
  { s with stream := stream, place := Function.update s.place t (.inside call prog (.ret rc unlocks)) }

/-- The thread can go on to the end of its program while nothing else moves. -/
def RunsToEnd (spills : Stream → Nat → Prop) (Q : Int → Bool → Prop) (s : SharedDump T) (t : T)
    (call : CallEnv × AgentCall) (prog rest : StreamProg) : Prop :=
  ∃ rc unlocks stream, Q rc unlocks ∧ rest.run s.stream.dump = (rc, stream.dump) ∧
    stream.start ≤ stream.disk.length ∧
    Relation.ReflTransGen (fun s s' => Step spills s s' ∧ Alone s') s (atEnd s t call prog stream rc unlocks)

theorem RunsToEnd.access {Q : Int → Bool → Prop} {rest' : StreamProg} {stream : Stream} (h : InOrder d s)
    (hsolo : Solo t s.place) (ht : s.place t = .inside call prog rest)
    (haccess : rest.access s.stream = some (rest', stream))
    (hrest : RunsToEnd spills Q
      { s with stream := stream, place := Function.update s.place t (.inside call prog rest') } t call prog rest') :
    RunsToEnd spills Q s t call prog rest := by
  obtain ⟨-, hseeks, -⟩ := h.inside t call prog rest ht
  have hstep := (StreamProg.access_step h.stream hseeks haccess).1
  obtain ⟨rc, unlocks, stream', hQ, hrun, hstart, hsteps⟩ := hrest
  refine ⟨rc, unlocks, stream', hQ, (StreamProg.step_run hstep).trans hrun, hstart,
    .head ⟨.access ht haccess, (hsolo.update _).alone⟩ ?_⟩
  rw [atEnd] at hsteps ⊢
  dsimp only at hsteps
  rwa [Function.update_idem] at hsteps

theorem runs_to_end (spills : Stream → Nat → Prop) {Q : Int → Bool → Prop} (h : InOrder d s) (hsolo : Solo t s.place)
    (ht : s.place t = .inside call prog rest) (hends : rest.AllEnds Q) :
    RunsToEnd spills Q s t call prog rest := by
  induction rest generalizing s with
  | ret rc unlocks =>
    refine ⟨rc, unlocks, s.stream, hends, rfl, h.stream, ?_⟩
    rw [atEnd, ← ht, Function.update_eq_self]
  | put bs next ih =>
    have haccess : (StreamProg.put bs next).access s.stream = some (next, s.stream.write bs) := rfl
    exact .access h hsolo ht haccess
      (ih (h.access ht haccess) (hsolo.update _) (Function.update_self ..) hends)
  | tell next ih =>
    have haccess : (StreamProg.tell next).access s.stream = some (next s.stream.dump.pos, s.stream) := rfl
    exact .access h hsolo ht haccess
      (ih _ (h.access ht haccess) (hsolo.update _) (Function.update_self ..) (hends _))
  | seek pos next ih =>
    have haccess : (StreamProg.seek pos next).access s.stream = some (next, s.stream.seek pos) := rfl
    exact .access h hsolo ht haccess
      (ih (h.access ht haccess) (hsolo.update _) (Function.update_self ..) hends)

/-- No call is made, and nothing is copied. -/
structure Quiet (s : SharedDump T) : Prop where
  place : ∀ t, s.place t = .out
  fileLock : s.fileLock = .free
  streamLock : s.streamLock = none
  copying : s.copying = none

/-- A thread makes a whole call. -/
theorem call_made (h : ReachableAlone spills d s) (hd : d.Inside) (hq : Quiet s) (t : T) (hstarted : Started call prog)
    (hok : call.2.Succeeds call.1) : ∃ s' : SharedDump T, ReachableAlone spills d s' ∧ Quiet s' ∧
      s'.ended = s.ended ++ [call] ∧ s'.copies = s.copies := by
  have hsolo : Solo t s.place := fun u _ => hq.place u
  have h₁ := h.tail ⟨.flock (t := t) (hq.place t) hstarted.locked (by rw [hq.fileLock]; simp) hstarted.prog_eq,
    (hsolo.update _).alone⟩
  have h₂ := h₁.tail ⟨.flockfile (t := t) (Function.update_self ..) (by simp [hq.streamLock]),
    ((hsolo.update _).update _).alone⟩
  obtain ⟨rc, unlocks, stream, hQ, hrun, -, h₃⟩ :=
    runs_to_end spills (Reachable.inOrder hd (ReachableAlone.reachable h₂))
      ((hsolo.update _).update _) (Function.update_self ..) hstarted.givesBack
  have hzero : rc = 0 := by
    rw [hstarted.run_eq] at hrun
    exact (congrArg Prod.fst hrun).symm.trans (hok _)
  obtain rfl := hQ hzero
  have hsolo := ((hsolo.update (.flocked call prog)).update (.inside call prog prog)).update
    (.inside call prog (.ret rc true))
  have h₄ := (h₂.trans h₃).tail ⟨.fflush (t := t) (Function.update_self ..), (hsolo.update _).alone⟩
  have h₅ := h₄.tail ⟨.funlockfile (t := t) (Function.update_self ..), ((hsolo.update _).update _).alone⟩
  have h₆ := h₅.tail ⟨.unflock (t := t) (Function.update_self ..), (((hsolo.update _).update _).update _).alone⟩
  refine ⟨_, h₆, ⟨fun u => ?_, rfl, ?_, hq.copying⟩, rfl, rfl⟩
  · rcases eq_or_ne u t with rfl | hne
    · exact Function.update_self ..
    · exact (((hsolo.update _).update _).update _) u hne
  · dsimp only [atEnd]
    rw [hq.streamLock]
    rfl

/-- Threads make whole calls one after another. -/
theorem calls_made {writes : List (T × CallEnv × AgentCall)} (hd : d.Inside) (h : ReachableAlone spills d s)
    (hq : Quiet s) (hwrites : ∀ w ∈ writes, (∃ prog, Started w.2 prog) ∧ w.2.2.Succeeds w.2.1) :
    ∃ s' : SharedDump T, ReachableAlone spills d s' ∧ Quiet s' ∧ s'.ended = s.ended ++ writes.map Prod.snd ∧
      s'.copies = s.copies := by
  induction writes generalizing s with
  | nil => exact ⟨s, h, hq, by simp, rfl⟩
  | cons w writes ih =>
    obtain ⟨⟨prog, hstarted⟩, hok⟩ := hwrites w List.mem_cons_self
    obtain ⟨s₁, h₁, hq₁, hended₁, hcopies₁⟩ := call_made h hd hq w.1 hstarted hok
    obtain ⟨s', h', hq', hended, hcopies⟩ := ih h₁ hq₁ fun w' hw' => hwrites w' (List.mem_cons_of_mem _ hw')
    exact ⟨s', h', hq', by rw [hended, hended₁, List.map_cons, List.append_assoc]; rfl, hcopies.trans hcopies₁⟩

/-- The process copies what the file holds, and no thread moves. -/
theorem copies_disk (spills : Stream → Nat → Prop) (hcopying : s.copying = none) (hfree : s.fileLock = .free) (hne : s.stream.disk ≠ []) :
    Relation.ReflTransGen (fun s₁ s₂ => Step spills s₁ s₂ ∧ s₂.place = s.place) s
      { s with fileLock := .free, copying := none, copies := s.copies ++ [s.stream.disk] } := by
  have hpos := List.length_pos_iff.mpr hne
  have h₁ := Relation.ReflTransGen.single (r := fun s₁ s₂ => Step spills s₁ s₂ ∧ s₂.place = s.place)
    ⟨Step.lockCopy hcopying hfree, rfl⟩
  have h₂ := h₁.tail ⟨.readCopy (s.stream.disk.length - 1) rfl hpos, rfl⟩
  have hall : ([] : List UInt8) ++ (s.stream.disk.drop ([] : List UInt8).length).take (s.stream.disk.length - 1 + 1) =
      s.stream.disk := by
    rw [List.length_nil, List.drop_zero, List.nil_append, List.take_of_length_le (by omega)]
  rw [hall] at h₂
  exact h₂.tail ⟨.closeCopy rfl (Nat.le_refl _), rfl⟩

/-- What calls made one after another have left can be copied. -/
theorem copy_made (hd : d.Inside) (h : ReachableAlone spills d s) (hq : Quiet s)
    (hne : (leave s.ended d).bytes ≠ []) : ∃ s' : SharedDump T, ReachableAlone spills d s' ∧
      s'.ended = s.ended ∧ s'.copies = s.copies ++ [(leave s.ended d).bytes] := by
  have hbuffer := (ReachableAlone.undisturbed hd h).flushed (by rw [hq.fileLock]; simp)
  have hdisk : s.stream.disk = (leave s.ended d).bytes := by
    rw [← (Reachable.inOrder hd (ReachableAlone.reachable h)).dump_eq, Stream.dump, hbuffer, put_nil]
    rintro t ⟨call, prog, rest, hin⟩
    rw [hq.place t] at hin
    cases hin
  rw [← hdisk] at hne ⊢
  have halone : ∀ s' : SharedDump T, s'.place = s.place → Alone s' := by
    intro s' hplace t _ ht
    rw [hplace] at ht
    exact absurd (hq.place t) ht
  have hcopied := copies_disk spills hq.copying hq.fileLock hne
  exact ⟨_, Relation.ReflTransGen.trans h (Relation.ReflTransGen.mono
    (fun _ s₂ hstep => ⟨hstep.1, halone s₂ hstep.2⟩) _ _ hcopied), rfl, rfl⟩

end SharedDump

theorem AgentCall.ObtainsLock.started {env : CallEnv} {call : AgentCall} (h : call.ObtainsLock env) :
    ∃ prog, Started (env, call) prog := by
  obtain ⟨time, htime⟩ := Option.isSome_iff_exists.mp h.time
  cases call with
  | writeNativeCode nc => exact ⟨_, h.locked, by rw [AgentCall.prog, htime]⟩
  | unloadNativeCode vma => exact ⟨_, h.locked, by rw [AgentCall.prog, htime]⟩
  | writeDebugLineInfo codeAddr compileMap =>
    refine ⟨.writeDebugLineInfo env codeAddr compileMap time, h.locked, ?_⟩
    rw [AgentCall.prog, htime]
    exact if_neg (h.entries _ _ rfl)

/-! Calls that overlap. -/

namespace SharedDump

variable {s' : SharedDump T} {t u : T} {call : CallEnv × AgentCall} {prog rest : StreamProg}

/-- The stream writes its buffer out by itself when it is full. -/
def Full (cap : Nat) (stream : Stream) (k : Nat) : Prop := k = cap ∧ cap ≤ stream.buffer.length

end SharedDump

end Copies

theorem smallCalls_succeed : ∀ call ∈ smallCalls, (∃ prog, Started call prog) ∧ call.2.Succeeds call.1 := by
  have hlock : ∀ call ∈ smallCalls, call.2.ObtainsLock call.1 := by
    intro call hmem
    simp only [smallCalls, List.mem_cons, List.not_mem_nil, or_false] at hmem
    rcases hmem with rfl | rfl | rfl
    · exact ⟨rfl, rfl, fun _ _ h => by cases h⟩
    · refine ⟨rfl, rfl, fun _ _ h => ?_⟩
      cases h
      exact List.cons_ne_nil _ _
    · exact ⟨rfl, rfl, fun _ _ h => by cases h⟩
  intro call hmem
  refine ⟨(hlock call hmem).started, fun d => ?_⟩
  simp only [smallCalls, List.mem_cons, List.not_mem_nil, or_false] at hmem
  rcases hmem with rfl | rfl | rfl
  · rfl
  · simp only [AgentCall.run, opWriteDebugLineInfo, CallEnv.fine, List.cons_ne_nil, if_false, not_true]
    split <;> rfl
  · rfl

/-- Two threads in turn write code and a table and unload the code, and the dump is copied. -/
theorem copies_hold_whole_calls_small : ∃ d, opOpenAgent (.fine 1) targetX86 = some d ∧
    ∃ s : SharedDump Bool, s.ReachableAlone (SharedDump.Full 4096) d ∧ s.ended = smallCalls ∧
      ∃ copy, s.copies = [copy] ∧ RoundTrip copy 6 smallCalls := by
  have hgrows : (opOpenAgent (.fine 1) targetX86).map (fun d => (List.range 3).all fun n =>
      decide ((leave (smallCalls.take n) d).bytes.length < (leave smallCalls d).bytes.length)) = some true := by
    decide +kernel
  obtain ⟨d, hd, hgrows⟩ := Option.map_eq_some_iff.mp hgrows
  have hgrows : ∀ n < 3, (leave (smallCalls.take n) d).bytes.length < (leave smallCalls d).bytes.length :=
    fun n hn => of_decide_eq_true (List.all_eq_true.mp hgrows n (List.mem_range.mpr hn))
  obtain ⟨time, -, hend⟩ := opOpenAgent_bytes hd
  have hinside : d.Inside := Nat.le_of_eq hend
  have hopened : SharedDump.ReachableAlone (SharedDump.Full 4096) d (SharedDump.opened d : SharedDump Bool) := .refl
  have hsucceed : ∀ w ∈ [true, false, true].zip smallCalls, (∃ prog, Started w.2 prog) ∧ w.2.2.Succeeds w.2.1 :=
    fun w hw => smallCalls_succeed w.2 (List.of_mem_zip hw).2
  obtain ⟨s₁, hs₁, hquiet, hended₁, hcopies₁⟩ := SharedDump.calls_made hinside hopened
    ⟨fun _ => rfl, rfl, rfl, rfl⟩ hsucceed
  have hended₁ : s₁.ended = smallCalls := hended₁
  obtain ⟨s, hs, hended, hcopies⟩ := SharedDump.copy_made hinside hs₁ hquiet (by
    rw [hended₁]
    exact List.ne_nil_of_length_pos (Nat.zero_lt_of_lt (hgrows 0 (by decide))))
  rw [hended₁] at hended hcopies
  rw [hcopies₁] at hcopies
  refine ⟨d, hd, s, hs, hended, _, hcopies, ?_⟩
  have hmem : (leave smallCalls d).bytes ∈ s.copies := by
    rw [hcopies]
    exact List.mem_singleton_self _
  obtain ⟨calls, hinit, hcopy, hround⟩ := copies_hold_whole_calls 6 hd hs _ hmem
  rw [hended] at hinit
  have hall : calls = smallCalls := by
    refine hinit.eq_of_length_le (Nat.not_lt.mp fun hlt => ?_)
    have hless := hgrows calls.length hlt
    rw [← List.prefix_iff_eq_take.mp hinit, hcopy] at hless
    exact Nat.lt_irrefl _ hless
  subst hall
  exact hround smallCalls_holdable smallCalls_fit smallCalls_notAtEnd fun call hmem => (smallCalls_succeed call hmem).2

end Oprofile.JitDump

import Mathlib.Logic.Relation
import Oprofile.Operf.Header

/-! The handshake that starts the program to be measured, in operf (`operf.cpp`) and ocount (`ocount.cpp`). -/
namespace Oprofile.Launch

/-- The process that becomes the program (`run_app`). -/
inductive AppPlace
  | starting
  | waiting
  | starts
  | running
  | exited
  deriving DecidableEq

/-- What the program's process shares with its parent: the two pipes between them, and the counters that are open
on it, each enabled or not. -/
structure AppSide where
  place : AppPlace
  appReady : List Int
  startApp : List Int
  counters : List Bool

/-- `run_app`, where nothing fails; the counters are enabled on exec. -/
inductive AppMove : AppSide → AppSide → Prop
  | writesReady {a : AppSide} : a.place = .starting →
      AppMove a { a with place := .waiting, appReady := a.appReady ++ [1] }
  | readsStart {a : AppSide} {startme : Int} {rest : List Int} : a.place = .waiting → a.startApp = startme :: rest →
      AppMove a { a with place := if startme = 1 then .starts else .exited, startApp := rest }
  | execs {a : AppSide} : a.place = .starts →
      AppMove a { a with place := .running, counters := a.counters.map fun _ => true }

/-- The program's process fails in one of its calls, ends or is killed. -/
inductive AppFault : AppSide → AppSide → Prop
  | exits {a : AppSide} : a.place ≠ .exited → AppFault a { a with place := .exited }

/-- The process that invoked `start_profiling`. -/
inductive ParentPlace
  | forking
  | readsApp
  | readsRecord
  | aborts
  | starts
  | returned (rc : Int)
  | gone
  deriving DecidableEq

/-- The operf-record process; where it has come to its end, whether it had announced itself before. -/
inductive RecordPlace
  | unforked
  | opening
  | writing
  | ready
  | recording
  | failing
  | exited (announced : Bool)
  deriving DecidableEq

/-- What operf-record has to set up: the counters of so many events, and a header with the id of each counter, which
goes to a file (`--lazy-conversion`) or to `sample_data_pipe`, which holds `pipeBytes` bytes and which nobody reads
before `start_profiling` has returned. `attrBytes` is the size of a `perf_event_attr`. -/
structure Setup where
  events : Nat
  counters : Nat
  lazyConversion : Bool
  attrBytes : Nat
  pipeBytes : Nat

/-- What `_write_header_to_pipe` writes. -/
def Setup.headerBytes (c : Setup) : Nat :=
  Operf.sizeofFileHeader + c.events * Operf.sizeofFileAttr c.attrBytes + 8 * c.counters

/-- The header can be written without a reader. -/
def Setup.Fits (c : Setup) : Prop := c.lazyConversion = true ∨ c.headerBytes ≤ c.pipeBytes

/-- operf while it launches a program. -/
structure OperfLaunch where
  app : AppSide
  parent : ParentPlace
  record : RecordPlace
  recordReady : List Int

/-- The program's process has been forked. -/
def OperfLaunch.init : OperfLaunch where
  app := ⟨.starting, [], [], []⟩
  parent := .forking
  record := .unforked
  recordReady := []

/-- The end of operf-record, which closes its counters. -/
def OperfLaunch.recordEnds (s : OperfLaunch) (announced : Bool) : OperfLaunch :=
  { s with app := { s.app with counters := [] }, record := .exited announced }

/-- `start_profiling` where no system call fails. The parent has closed its write end of `operf_record_ready_pipe`, and
holds the write ends of the others. -/
inductive ParentMove : OperfLaunch → OperfLaunch → Prop
  | forks {s : OperfLaunch} : s.parent = .forking → ParentMove s { s with parent := .readsApp, record := .opening }
  | readsApp {s : OperfLaunch} {startup : Int} {rest : List Int} : s.parent = .readsApp →
      s.app.appReady = startup :: rest →
      ParentMove s { s with app := { s.app with appReady := rest },
                            parent := if startup = 1 then .readsRecord else .returned (-1) }
  | readsRecord {s : OperfLaunch} {recorderReady : Int} {rest : List Int} : s.parent = .readsRecord →
      s.recordReady = recorderReady :: rest →
      ParentMove s { s with recordReady := rest, parent := if recorderReady = 1 then .starts else .aborts }
  | readsEnd {s : OperfLaunch} {announced : Bool} : s.parent = .readsRecord → s.recordReady = [] →
      s.record = .exited announced → ParentMove s { s with parent := .aborts }
  | aborts {s : OperfLaunch} : s.parent = .aborts →
      ParentMove s { s with app := { s.app with startApp := s.app.startApp ++ [0] }, parent := .returned (-1) }
  | starts {s : OperfLaunch} : s.parent = .starts →
      ParentMove s { s with app := { s.app with startApp := s.app.startApp ++ [1] }, parent := .returned 0 }
  | leaves {s : OperfLaunch} : s.parent = .returned (-1) → ParentMove s { s with parent := .gone }

/-- operf-record where no system call fails, but for the setup, which may find that it cannot profile. Without the
parent nobody could ever read its pipes, and it gives up. -/
inductive RecordMove (c : Setup) : OperfLaunch → OperfLaunch → Prop
  | opens {s : OperfLaunch} : s.record = .opening → s.app.counters.length < c.counters →
      RecordMove c s { s with app := { s.app with counters := s.app.counters ++ [false] } }
  | setUpFails {s : OperfLaunch} : s.record = .opening → RecordMove c s { s with record := .failing }
  -- `prepareToRecord`, which enables all counters
  | prepared {s : OperfLaunch} : s.record = .opening → s.app.counters.length = c.counters →
      RecordMove c s { s with app := { s.app with counters := s.app.counters.map fun _ => true }, record := .writing }
  | writesHeader {s : OperfLaunch} : s.record = .writing →
      c.lazyConversion = true ∨ c.headerBytes ≤ c.pipeBytes ∧ s.parent ≠ .gone →
      RecordMove c s { s with record := .ready }
  | announces {s : OperfLaunch} : s.record = .ready → s.parent ≠ .gone →
      RecordMove c s { s with record := .recording, recordReady := s.recordReady ++ [1] }
  | declines {s : OperfLaunch} : s.record = .failing → s.parent ≠ .gone →
      RecordMove c s { s.recordEnds false with recordReady := s.recordReady ++ [0] }
  | unheard {s : OperfLaunch} :
      s.record = .ready ∨ s.record = .failing ∨ s.record = .writing ∧ c.lazyConversion = false →
      s.parent = .gone → RecordMove c s (s.recordEnds false)

/-- A step of one of the processes where nothing fails. -/
inductive Move (c : Setup) : OperfLaunch → OperfLaunch → Prop
  | app {s : OperfLaunch} {a : AppSide} : AppMove s.app a → Move c s { s with app := a }
  | parent {s s' : OperfLaunch} : ParentMove s s' → Move c s s'
  | record {s s' : OperfLaunch} : RecordMove c s s' → Move c s s'

/-- A system call fails or a process is killed. -/
inductive Fault : OperfLaunch → OperfLaunch → Prop
  | app {s : OperfLaunch} {a : AppSide} : AppFault s.app a → Fault s { s with app := a }
  | parentFails {s : OperfLaunch} : s.parent ≠ .gone → (∀ rc, s.parent ≠ .returned rc) →
      Fault s { s with parent := .returned (-1) }
  | parentKilled {s : OperfLaunch} : s.parent ≠ .gone → Fault s { s with parent := .gone }
  | record {s : OperfLaunch} : s.record ≠ .unforked → (∀ announced, s.record ≠ .exited announced) →
      Fault s (s.recordEnds (decide (s.record = .recording)))

/-- The state after `k` steps, each a move or a fault. -/
inductive Takes (c : Setup) : Nat → OperfLaunch → Prop
  | init : Takes c 0 .init
  | move {k : Nat} {s s' : OperfLaunch} : Takes c k s → Move c s s' → Takes c (k + 1) s'
  | fault {k : Nat} {s s' : OperfLaunch} : Takes c k s → Fault s s' → Takes c (k + 1) s'

variable {c : Setup} {k : Nat} {s s' : OperfLaunch}

/-! What holds in every run. -/

/-- What is ordered before the program starts: the counters are open and enabled before the recorder says so, the
parent passes that on, and only then the program goes on. -/
structure Ordered (c : Setup) (s : OperfLaunch) : Prop where
  counted : s.app.counters.length ≤ c.counters
  opened : s.record = .writing ∨ s.record = .ready ∨ s.record = .recording →
    s.app.counters.length = c.counters ∧ ∀ b ∈ s.app.counters, b = true
  closed : ∀ announced, s.record = .exited announced → s.app.counters = []
  announced : 1 ∈ s.recordReady → s.record = .recording ∨ s.record = .exited true
  told : s.parent = .starts ∨ s.parent = .returned 0 → s.record = .recording ∨ s.record = .exited true
  begun : 1 ∈ s.app.startApp ∨ s.app.place = .starts ∨ s.app.place = .running →
    (s.record = .recording ∨ s.record = .exited true) ∧ (s.parent = .returned 0 ∨ s.parent = .gone)

/-- Until the parent reads it, the message of the program's process is in its pipe. -/
structure ReadyPosted (s : OperfLaunch) : Prop where
  ready : ∀ m ∈ s.app.appReady, m = 1
  appUnread : s.parent = .forking ∨ s.parent = .readsApp →
    s.app.place = .starting ∨ s.app.place = .exited ∨ s.app.appReady ≠ []
  appSent : s.app.appReady ≠ [] → s.app.place ≠ .starting

/-- Until the parent reads it, the message of operf-record is in its pipe. -/
structure RecordPosted (s : OperfLaunch) : Prop where
  unforked : s.parent = .forking → s.record = .unforked
  forked : s.parent = .readsApp ∨ s.parent = .readsRecord → s.record ≠ .unforked
  recordUnread : s.parent = .readsApp ∨ s.parent = .readsRecord → s.record = .recording → 0 < s.recordReady.length

/-- Until the program's process reads it, the message of the parent is in its pipe. -/
structure StartPosted (s : OperfLaunch) : Prop where
  silent : (∀ rc, s.parent ≠ .returned rc) → s.parent ≠ .gone → s.app.startApp = []
  startSent : s.parent = .returned 0 → s.app.startApp = [1] ∨
    s.app.startApp = [] ∧ (s.app.place = .starts ∨ s.app.place = .running ∨ s.app.place = .exited)
  returned : ∀ rc, s.parent = .returned rc → rc = 0 ∨ rc = -1

/-- The program starts last, and no message is lost. -/
structure Handshake (c : Setup) (s : OperfLaunch) : Prop extends
  Ordered c s, ReadyPosted s, RecordPosted s, StartPosted s

theorem handshake_init : Handshake c .init := by
  constructor <;> constructor <;> simp [OperfLaunch.init]

namespace Handshake

/-- The program's process sends its message, or goes on only when it is told to. -/
theorem appMove {a : AppSide} (h : Handshake c s) (happ : AppMove s.app a) : Handshake c { s with app := a } := by
  obtain ⟨⟨hcounted, hopened, hclosed, hannounced, htold, hbegun⟩, ⟨hready, happUnread, happSent⟩,
    ⟨hunforked, hforked, hrecordUnread⟩, ⟨hsilent, hstartSent, hreturned⟩⟩ := h
  cases happ <;> constructor <;> constructor <;> grind

theorem appEnds {a : AppSide} (h : Handshake c s) (happ : AppFault s.app a) : Handshake c { s with app := a } := by
  obtain ⟨⟨hcounted, hopened, hclosed, hannounced, htold, hbegun⟩, ⟨hready, happUnread, happSent⟩, hrecordPosted,
    ⟨hsilent, hstartSent, hreturned⟩⟩ := h
  cases happ
  refine ⟨?_, ?_, ⟨hrecordPosted.unforked, hrecordPosted.forked, hrecordPosted.recordUnread⟩, ?_⟩
  all_goals constructor <;> grind

/-- The parent takes a message out of a pipe before it sends one. -/
theorem parentMove (h : Handshake c s) (hparent : ParentMove s s') : Handshake c s' := by
  obtain ⟨⟨hcounted, hopened, hclosed, hannounced, htold, hbegun⟩, ⟨hready, happUnread, happSent⟩,
    ⟨hunforked, hforked, hrecordUnread⟩, ⟨hsilent, hstartSent, hreturned⟩⟩ := h
  cases hparent <;> constructor <;> constructor <;> grind

/-- A parent that fails before it has sent its message has told nobody to start. -/
theorem parentFails (h : Handshake c s) (hgone : s.parent ≠ .gone) (hplace : ∀ rc, s.parent ≠ .returned rc) :
    Handshake c { s with parent := .returned (-1) } := by
  obtain ⟨⟨hcounted, hopened, hclosed, hannounced, htold, hbegun⟩, ⟨hready, happUnread, happSent⟩,
    ⟨hunforked, hforked, hrecordUnread⟩, ⟨hsilent, hstartSent, hreturned⟩⟩ := h
  constructor <;> constructor <;> grind

theorem parentKilled (h : Handshake c s) : Handshake c { s with parent := .gone } := by
  obtain ⟨⟨hcounted, hopened, hclosed, hannounced, htold, hbegun⟩, ⟨hready, happUnread, happSent⟩,
    ⟨hunforked, hforked, hrecordUnread⟩, ⟨hsilent, hstartSent, hreturned⟩⟩ := h
  constructor <;> constructor <;> grind

/-- An operf-record that has not announced itself, or was recording, may end. -/
theorem recordEnds {announced : Bool} (h : Handshake c s) (hunforked : s.record ≠ .unforked)
    (hexited : ∀ announced, s.record ≠ .exited announced) (hannounced : s.record = .recording ↔ announced = true) :
    Handshake c (s.recordEnds announced) := by
  obtain ⟨⟨hcounted, hopened, hclosed, hannounced, htold, hbegun⟩, hreadyPosted,
    ⟨hunforked, hforked, hrecordUnread⟩, hstartPosted⟩ := h
  refine ⟨?_, ⟨hreadyPosted.ready, hreadyPosted.appUnread, hreadyPosted.appSent⟩, ?_,
    ⟨hstartPosted.silent, hstartPosted.startSent, hstartPosted.returned⟩⟩
  · constructor <;> grind [OperfLaunch.recordEnds]
  · constructor <;> grind [OperfLaunch.recordEnds]

/-- Before operf-record has announced itself nobody has been told, and it announces itself with all its counters. -/
theorem recordMove (h : Handshake c s) (hrecord : RecordMove c s s') : Handshake c s' := by
  obtain ⟨⟨hcounted, hopened, hclosed, hannounced, htold, hbegun⟩, ⟨hready, happUnread, happSent⟩,
    ⟨hunforked, hforked, hrecordUnread⟩, ⟨hsilent, hstartSent, hreturned⟩⟩ := h
  cases hrecord <;> constructor <;> constructor <;> grind [OperfLaunch.recordEnds]

theorem move (h : Handshake c s) (hmove : Move c s s') : Handshake c s' := by
  cases hmove with
  | app happ => exact h.appMove happ
  | parent hparent => exact h.parentMove hparent
  | record hrecord => exact h.recordMove hrecord

theorem fault (h : Handshake c s) (hfault : Fault s s') : Handshake c s' := by
  cases hfault with
  | app happ => exact h.appEnds happ
  | parentFails hgone hplace => exact h.parentFails hgone hplace
  | parentKilled => exact h.parentKilled
  | record hunforked hexited => exact h.recordEnds hunforked hexited (by simp)

end Handshake

theorem Takes.handshake (h : Takes c k s) : Handshake c s := by
  induction h with
  | init => exact handshake_init
  | move _ hmove ih => exact ih.move hmove
  | fault _ hfault ih => exact ih.fault hfault

/-- However the processes interleave and whatever fails: a program that is about to exec or runs has a parent that does
not report failure, and an operf-record that records with every counter open and enabled, or that ended after it had
announced them; and a parent that reports success has told the program to start, with such an operf-record. -/
theorem app_starts_last (h : Takes c k s) :
    (s.app.place = .starts ∨ s.app.place = .running → s.parent ≠ .returned (-1) ∧
      (s.record = .recording ∧ s.app.counters = List.replicate c.counters true ∨ s.record = .exited true)) ∧
    (s.parent = .returned 0 →
      (s.record = .recording ∧ s.app.counters = List.replicate c.counters true ∨ s.record = .exited true) ∧
      (s.app.startApp = [1] ∨ s.app.place = .starts ∨ s.app.place = .running ∨ s.app.place = .exited)) := by
  have hall := h.handshake
  have henabled : s.record = .recording ∨ s.record = .exited true →
      s.record = .recording ∧ s.app.counters = List.replicate c.counters true ∨ s.record = .exited true := by
    rintro (hrecord | hrecord)
    · exact Or.inl ⟨hrecord, List.eq_replicate_iff.mpr (hall.opened (Or.inr (Or.inr hrecord)))⟩
    · exact Or.inr hrecord
  refine ⟨fun hplace => ?_, fun hreturned => ⟨henabled (hall.told (Or.inr hreturned)), ?_⟩⟩
  · obtain ⟨hrecord, hparent⟩ := hall.begun (Or.inr hplace)
    refine ⟨fun hfailed => ?_, henabled hrecord⟩
    rw [hfailed] at hparent
    rcases hparent with hparent | hparent <;> cases hparent
  · rcases hall.startSent hreturned with hstart | ⟨-, hplace⟩
    · exact Or.inl hstart
    · exact Or.inr hplace

/-- One counter, and a pipe of 64 KiB. -/
def oneCounter : Setup where
  events := 1
  counters := 1
  lazyConversion := false
  attrBytes := 96
  pipeBytes := 65536

/-- The program runs, its counter open. -/
theorem oneCounter_running : Relation.ReflTransGen (Move oneCounter) .init
    ⟨⟨.running, [], [], [true]⟩, .returned 0, .recording, []⟩ := by
  have hforked := Relation.ReflTransGen.single (Move.parent (c := oneCounter) (.forks (s := .init) rfl))
  have hready := hforked.tail (.app (.writesReady rfl))
  have hheard := hready.tail (.parent (.readsApp rfl rfl))
  have hopened := hheard.tail (.record (.opens rfl (by decide)))
  have hprepared := hopened.tail (.record (.prepared rfl rfl))
  have hwritten := hprepared.tail (.record (.writesHeader rfl (Or.inr ⟨by decide, by decide⟩)))
  have hannounced := hwritten.tail (.record (.announces rfl (by decide)))
  have hrecording := hannounced.tail (.parent (.readsRecord rfl rfl))
  have htold := hrecording.tail (.parent (.starts rfl))
  have hstarts := htold.tail (.app (.readsStart rfl rfl))
  exact hstarts.tail (.app (.execs rfl))

theorem takes_of_moves (h : Relation.ReflTransGen (Move c) .init s) : ∃ k, Takes c k s := by
  induction h with
  | refl => exact ⟨0, .init⟩
  | tail _ hmove ih =>
    obtain ⟨k, hk⟩ := ih
    exact ⟨k + 1, .move hk hmove⟩

/-- operf-record is killed while the program runs. -/
theorem app_starts_last_one : ∃ k s, Takes oneCounter k s ∧ s.app.place = .running ∧ s.app.counters = [] ∧
    s.parent ≠ .returned (-1) ∧
    (s.record = .recording ∧ s.app.counters = List.replicate oneCounter.counters true ∨ s.record = .exited true) := by
  obtain ⟨k, hk⟩ := takes_of_moves oneCounter_running
  have hkilled := Takes.fault hk (.record (by decide) (by simp))
  exact ⟨k + 1, _, hkilled, rfl, rfl, (app_starts_last hkilled).1 (Or.inr rfl)⟩

/-! The handshake comes to an end. -/

def ParentPlace.left : ParentPlace → Nat
  | .forking => 5
  | .readsApp => 4
  | .readsRecord => 3
  | .aborts => 2
  | .starts => 2
  | .returned _ => 1
  | .gone => 0

def AppPlace.left : AppPlace → Nat
  | .starting => 4
  | .waiting => 3
  | .starts => 2
  | .running => 1
  | .exited => 0

def RecordPlace.left (n opened : Nat) : RecordPlace → Nat
  | .unforked => n + 5
  | .opening => n - opened + 4
  | .writing => 3
  | .ready => 2
  | .failing => 2
  | .recording => 1
  | .exited _ => 0

/-- The steps that the processes can still take. -/
def OperfLaunch.left (n : Nat) (s : OperfLaunch) : Nat :=
  s.parent.left + s.app.place.left + s.record.left n s.app.counters.length

theorem left_app {a : AppSide} (happ : AppMove s.app a) :
    ({ s with app := a } : OperfLaunch).left c.counters < s.left c.counters := by
  cases happ with
  | writesReady hplace => simp [OperfLaunch.left, hplace, AppPlace.left]
  | readsStart hplace hmessage =>
    simp only [OperfLaunch.left, hplace]
    split_ifs <;> simp [AppPlace.left]
  | execs hplace => simp [OperfLaunch.left, hplace, AppPlace.left]

theorem left_parent (h : RecordPosted s) (hparent : ParentMove s s') : s'.left c.counters < s.left c.counters := by
  cases hparent with
  | forks hparent =>
    simp only [OperfLaunch.left, hparent, h.unforked hparent, ParentPlace.left, RecordPlace.left]
    omega
  | readsApp hparent hmessage =>
    simp only [OperfLaunch.left, hparent]
    split_ifs <;> simp [ParentPlace.left]
  | readsRecord hparent hmessage =>
    simp only [OperfLaunch.left, hparent]
    split_ifs <;> simp [ParentPlace.left]
  | readsEnd hparent hempty hrecord => simp [OperfLaunch.left, hparent, ParentPlace.left]
  | aborts hparent => simp [OperfLaunch.left, hparent, ParentPlace.left]
  | starts hparent => simp [OperfLaunch.left, hparent, ParentPlace.left]
  | leaves hparent => simp [OperfLaunch.left, hparent, ParentPlace.left]

theorem left_record (hrecord : RecordMove c s s') : s'.left c.counters < s.left c.counters := by
  cases hrecord with
  | opens hrecord hlt =>
    simp only [OperfLaunch.left, hrecord, RecordPlace.left, List.length_append, List.length_singleton]
    omega
  | setUpFails hrecord =>
    simp only [OperfLaunch.left, hrecord, RecordPlace.left]
    omega
  | prepared hrecord hlen =>
    simp only [OperfLaunch.left, hrecord, RecordPlace.left]
    omega
  | writesHeader hrecord hfits => simp [OperfLaunch.left, hrecord, RecordPlace.left]
  | announces hrecord hparent => simp [OperfLaunch.left, hrecord, RecordPlace.left]
  | declines hrecord hparent => simp [OperfLaunch.left, OperfLaunch.recordEnds, hrecord, RecordPlace.left]
  | unheard hrecord hparent =>
    rcases hrecord with hrecord | hrecord | ⟨hrecord, -⟩ <;>
      simp [OperfLaunch.left, OperfLaunch.recordEnds, hrecord, RecordPlace.left]

theorem left_move (h : RecordPosted s) (hmove : Move c s s') : s'.left c.counters < s.left c.counters := by
  cases hmove with
  | app happ => exact left_app happ
  | parent hparent => exact left_parent h hparent
  | record hrecord => exact left_record hrecord

theorem left_fault (hfault : Fault s s') : s'.left c.counters < s.left c.counters := by
  cases hfault with
  | app happ =>
    cases happ with
    | exits hplace =>
      simp only [OperfLaunch.left]
      cases hp : s.app.place <;> simp_all [AppPlace.left]
  | parentFails hgone hreturns =>
    simp only [OperfLaunch.left]
    cases hp : s.parent <;> simp_all [ParentPlace.left]
  | parentKilled hgone =>
    simp only [OperfLaunch.left]
    cases hp : s.parent <;> simp_all [ParentPlace.left]
  | record hunforked hexited =>
    simp only [OperfLaunch.left, OperfLaunch.recordEnds]
    cases hr : s.record <;> simp_all [RecordPlace.left]

theorem Takes.le (h : Takes c k s) : k + s.left c.counters ≤ c.counters + 14 := by
  induction h with
  | init => simp [OperfLaunch.left, OperfLaunch.init, ParentPlace.left, AppPlace.left, RecordPlace.left]; omega
  | move hbefore hmove ih =>
    have hlt := left_move hbefore.handshake.toRecordPosted hmove
    omega
  | fault _ hfault ih =>
    have hlt := left_fault (c := c) hfault
    omega

/-- No process can go on by itself. -/
def Settled (c : Setup) (s : OperfLaunch) : Prop := ∀ s', ¬Move c s s'

/-- The counters are opened one after the other. -/
theorem Takes.opens {app : AppSide} {parent : ParentPlace} {recordReady : List Int} {l : Nat}
    (h : Takes c k ⟨app, parent, .opening, recordReady⟩) (hl : app.counters.length + l ≤ c.counters) :
    Takes c (k + l) ⟨{ app with counters := app.counters ++ List.replicate l false }, parent, .opening,
      recordReady⟩ := by
  induction l with
  | zero => simpa using h
  | succ l ih =>
    have hlt : (app.counters ++ List.replicate l false).length < c.counters := by
      simp only [List.length_append, List.length_replicate]
      omega
    have hopened := Takes.move (ih (by omega)) (.record (.opens rfl hlt))
    rwa [List.append_assoc, ← List.replicate_succ'] at hopened

/-- The states that are come to without a fault. -/
def FaultFree (c : Setup) (s : OperfLaunch) : Prop := Relation.ReflTransGen (Move c) .init s

theorem FaultFree.takes (h : FaultFree c s) : ∃ k, Takes c k s := takes_of_moves h

/-- Parent, recorder and program agree on whether the program starts. -/
structure Agreed (s : OperfLaunch) : Prop where
  exited : s.app.place = .exited → s.parent = .returned (-1) ∨ s.parent = .gone
  begins : s.parent = .forking ∨ s.parent = .readsApp → s.app.place = .starting ∨ s.app.place = .waiting
  waits : s.parent = .readsRecord ∨ s.parent = .aborts ∨ s.parent = .starts → s.app.place = .waiting
  refused : s.parent = .returned (-1) ∨ s.parent = .gone →
    s.app.place = .waiting ∧ s.app.startApp = [0] ∨ s.app.place = .exited
  accepted : s.parent = .returned 0 → s.app.place = .waiting ∧ s.app.startApp = [1] ∨
    s.app.place = .starts ∨ s.app.place = .running
  recording : s.parent = .starts ∨ s.parent = .returned 0 → s.record = .recording
  declined : s.parent = .aborts ∨ s.parent = .returned (-1) ∨ s.parent = .gone → s.record = .exited false
  messages : ∀ m ∈ s.recordReady, m = 1 ∧ s.record = .recording ∨ m = 0 ∧ s.record = .exited false
  unannounced : s.record ≠ .exited true

theorem Agreed.move (h : Agreed s) (hall : Handshake c s) (hmove : Move c s s') : Agreed s' := by
  obtain ⟨hexited, hbegins, hwaits, hrefused, haccepted, hrecording, hdeclined, hmessages, hunannounced⟩ := h
  obtain ⟨-, ⟨hone, happUnread, happSent⟩, ⟨hunforked, -, -⟩, ⟨hsilent, -, hreturned⟩⟩ := hall
  cases hmove with
  | app happ => cases happ <;> constructor <;> grind
  | parent hparent =>
    cases hparent with
    | @readsApp startup rest hparent hmessage =>
      have hstartup : startup = 1 := hone startup (hmessage ▸ List.mem_cons_self)
      have hwaiting : s.app.place = .waiting :=
        (hbegins (Or.inr hparent)).resolve_left (happSent (by simp [hmessage]))
      constructor <;> grind
    | @readsRecord recorderReady rest hparent hmessage =>
      have hwaiting := hwaits (Or.inl hparent)
      have hmessage' := hmessages recorderReady (hmessage ▸ List.mem_cons_self)
      constructor <;> grind
    | @readsEnd announced hparent hempty hrecord =>
      -- the recorder has not announced its counters, so it has declined
      have hdeclined' : announced = false := by
        cases announced with
        | false => rfl
        | true => exact absurd hrecord hunannounced
      subst hdeclined'
      constructor <;> grind
    | _ => constructor <;> grind
  | record hrecord => cases hrecord <;> constructor <;> grind [OperfLaunch.recordEnds]

/-- The process that invoked `start_counting`. -/
inductive CountPlace
  | readsApp
  | starts
  | opening
  | returned (ret : Bool)
  deriving DecidableEq

/-- ocount while it launches a program. -/
structure OcountLaunch where
  app : AppSide
  parent : CountPlace

/-- The program's process has been forked. -/
def OcountLaunch.init : OcountLaunch := ⟨⟨.starting, [], [], []⟩, .readsApp⟩

/-- `start_counting`, then `start_counting_app_process` and `setup`, with `n` events: the parent opens the counters
itself, after it has told the program to start. The program may exec another one later, which enables the counters that
are open then. -/
inductive CountMove (n : Nat) : OcountLaunch → OcountLaunch → Prop
  | app {s : OcountLaunch} {a : AppSide} : AppMove s.app a → CountMove n s { s with app := a }
  | execsAgain {s : OcountLaunch} : s.app.place = .running →
      CountMove n s { s with app := { s.app with counters := s.app.counters.map fun _ => true } }
  | readsApp {s : OcountLaunch} {startup : Int} {rest : List Int} : s.parent = .readsApp →
      s.app.appReady = startup :: rest →
      CountMove n s { app := { s.app with appReady := rest },
                      parent := if startup = 1 then .starts else .returned false }
  | starts {s : OcountLaunch} : s.parent = .starts →
      CountMove n s { app := { s.app with startApp := s.app.startApp ++ [1] }, parent := .opening }
  | opens {s : OcountLaunch} : s.parent = .opening → s.app.counters.length < n →
      CountMove n s { s with app := { s.app with counters := s.app.counters ++ [false] } }
  | setUpFails {s : OcountLaunch} : s.parent = .opening → CountMove n s { s with parent := .returned false }
  | prepared {s : OcountLaunch} : s.parent = .opening → s.app.counters.length = n →
      CountMove n s { s with parent := .returned true }

/-- The states that `start_counting` comes to. -/
def CountRun (n : Nat) (s : OcountLaunch) : Prop := Relation.ReflTransGen (CountMove n) .init s

/-- The counters that were open at the exec are enabled, those opened later are not. -/
structure PartlyEnabled (n : Nat) (s : OcountLaunch) : Prop where
  disabled : s.app.place ≠ .running → ∀ c ∈ s.app.counters, c = false
  counters : ∃ k l, s.app.counters = List.replicate k true ++ List.replicate l false
  returned : s.parent = .returned true → s.app.counters.length = n

variable {n : Nat} {o o' : OcountLaunch}

theorem PartlyEnabled.move (h : PartlyEnabled n o) (hmove : CountMove n o o') : PartlyEnabled n o' := by
  obtain ⟨hdisabled, ⟨k, l, hcounters⟩, hreturned⟩ := h
  cases hmove with
  | app happ =>
    cases happ with
    | writesReady hplace => exact ⟨fun _ => hdisabled (by simp [hplace]), ⟨k, l, hcounters⟩, hreturned⟩
    | readsStart hplace hmessage => exact ⟨fun _ => hdisabled (by simp [hplace]), ⟨k, l, hcounters⟩, hreturned⟩
    | execs hplace =>
      refine ⟨fun h => absurd rfl h, ⟨o.app.counters.length, 0, ?_⟩, fun h => ?_⟩
      · simp [List.map_const']
      · simpa using hreturned h
  | execsAgain hplace =>
    refine ⟨fun h => absurd hplace h, ⟨o.app.counters.length, 0, ?_⟩, fun h => ?_⟩
    · simp [List.map_const']
    · simpa using hreturned h
  | readsApp hparent hmessage =>
    refine ⟨hdisabled, ⟨k, l, hcounters⟩, fun h => ?_⟩
    simp only at h
    split_ifs at h
    cases h
  | starts hparent => exact ⟨hdisabled, ⟨k, l, hcounters⟩, fun h => by cases h⟩
  | opens hparent hlt =>
    refine ⟨fun hplace b hb => ?_, ⟨k, l + 1, ?_⟩, fun h => ?_⟩
    · rcases List.mem_append.mp hb with hb | hb
      · exact hdisabled hplace b hb
      · exact List.mem_singleton.mp hb
    · simp [hcounters, List.replicate_succ']
    · rw [hparent] at h
      cases h
  | setUpFails hparent => exact ⟨hdisabled, ⟨k, l, hcounters⟩, fun h => by cases h⟩
  | prepared hparent hlen => exact ⟨hdisabled, ⟨k, l, hcounters⟩, fun _ => hlen⟩

theorem CountRun.partlyEnabled (h : CountRun n o) : PartlyEnabled n o := by
  induction h with
  | refl => exact ⟨fun _ => by simp [OcountLaunch.init], ⟨0, 0, rfl⟩, fun h => by cases h⟩
  | tail _ hmove ih => exact ih.move hmove

/-- The counters are opened one after the other. -/
theorem CountRun.opens {app : AppSide} {l : Nat} (h : CountRun n ⟨app, .opening⟩)
    (hl : app.counters.length + l ≤ n) :
    CountRun n ⟨{ app with counters := app.counters ++ List.replicate l false }, .opening⟩ := by
  induction l with
  | zero => simpa using h
  | succ l ih =>
    have hlt : (app.counters ++ List.replicate l false).length < n := by
      simp only [List.length_append, List.length_replicate]
      omega
    have hopened := (ih (by omega)).tail (.opens rfl hlt)
    rwa [List.append_assoc, ← List.replicate_succ'] at hopened

/-- The program is told to start before its counters are opened, and it may exec between any two of them: ocount can
report success, the program running, with the first `k` of its counters enabled and the others not, for every `k` up
to the number of its events, and with no other counters. -/
theorem counting_misses_events (counters : List Bool) :
    (∃ o, CountRun n o ∧ o.parent = .returned true ∧ o.app.place = .running ∧ o.app.counters = counters) ↔
      ∃ k ≤ n, counters = List.replicate k true ++ List.replicate (n - k) false := by
  constructor
  · rintro ⟨o, hrun, hreturned, -, rfl⟩
    obtain ⟨-, ⟨k, l, hcounters⟩, hlength⟩ := hrun.partlyEnabled
    have hlen := hlength hreturned
    rw [hcounters, List.length_append, List.length_replicate, List.length_replicate] at hlen
    refine ⟨k, by omega, ?_⟩
    rw [hcounters, show n - k = l by omega]
  · rintro ⟨k, hk, rfl⟩
    have hready : CountRun n _ := .single (.app (.writesReady rfl))
    have hheard : CountRun n _ := hready.tail (.readsApp rfl rfl)
    have htold : CountRun n ⟨⟨.waiting, [], [1], []⟩, .opening⟩ := hheard.tail (.starts rfl)
    have hfirst := CountRun.opens (l := k) htold (by simpa using hk)
    have hstarts : CountRun n _ := hfirst.tail (.app (.readsStart rfl rfl))
    have hrunning : CountRun n ⟨⟨.running, [], [], List.replicate k true⟩, .opening⟩ := by
      have hexeced := hstarts.tail (.app (.execs rfl))
      simpa [CountRun] using hexeced
    have hlast := CountRun.opens (l := n - k) hrunning (by simp; omega)
    exact ⟨_, hlast.tail (.prepared rfl (by simp; omega)), rfl, rfl, rfl⟩

end Oprofile.Launch

import Oprofile.Operf.EventIds

/-! The names forked processes are given before the second pass. -/
namespace Oprofile.Operf

variable {t t' : Processes} {p q : ProcessInfo} {pid par root src : UInt32}

/-- A forked process that no COMM record has named. -/
def Unnamed (p : ProcessInfo) : Prop := p.forked = true ∧ p.valid = false

/-- The link from an unnamed process to its parent. -/
structure ForkedFrom (t : Processes) (pid par : UInt32) : Prop where
  child : ∃ p, t.find pid = some p ∧ Unnamed p ∧ p.parentOfFork = some par
  parent : ∃ q, t.find par = some q

/-- A process that is not unnamed. -/
def Named (t : Processes) (pid : UInt32) : Prop := ∃ p, t.find pid = some p ∧ ¬ Unnamed p

/-- The nearest ancestor that is not unnamed, or the process itself. -/
inductive NearestNamed (t : Processes) : UInt32 → UInt32 → Prop
  | self {i : UInt32} (h : Named t i) : NearestNamed t i i
  | parent {i j k : UInt32} (h : ForkedFrom t i j) (hj : NearestNamed t j k) : NearestNamed t i k

/-- Every unnamed process has such an ancestor: no chain of forks returns to where it was. -/
def Forest (t : Processes) : Prop := ∀ pid p, t.find pid = some p → ∃ root, NearestNamed t pid root

/-- Where the loop takes the name of a process from: up the chain of forks, as far as the pids of
the parents are the smaller ones. -/
inductive NameFrom (t : Processes) : UInt32 → UInt32 → Prop
  | self {i : UInt32} (h : Named t i) : NameFrom t i i
  | unsettled {i j : UInt32} (h : ForkedFrom t i j) (hlt : pidLt i j = true) : NameFrom t i j
  | settled {i j k : UInt32} (h : ForkedFrom t i j) (hlt : pidLt j i = true) (hj : NameFrom t j k) :
      NameFrom t i k

def appnameOf (t : Processes) (pid : UInt32) : Option CString := (t.find pid).map (·.appname)

theorem ForkedFrom.unique {par' : UInt32} (h : ForkedFrom t pid par) (h' : ForkedFrom t pid par') :
    par = par' := by
  obtain ⟨p, hp, -, hpar⟩ := h.child
  obtain ⟨p', hp', -, hpar'⟩ := h'.child
  rw [hp, Option.some_inj] at hp'
  rw [hp', hpar', Option.some_inj] at hpar
  exact hpar.symm

theorem ForkedFrom.not_named (h : ForkedFrom t pid par) : ¬ Named t pid := by
  rintro ⟨p, hp, hnot⟩
  obtain ⟨p', hp', hun, -⟩ := h.child
  rw [hp, Option.some_inj] at hp'
  exact hnot (hp' ▸ hun)

theorem NameFrom.unique {src' : UInt32} (h : NameFrom t pid src) (h' : NameFrom t pid src') :
    src = src' := by
  induction h with
  | self hn =>
    cases h' with
    | self _ => rfl
    | unsettled hf _ => exact (hf.not_named hn).elim
    | settled hf _ _ => exact (hf.not_named hn).elim
  | unsettled hf hlt =>
    cases h' with
    | self hn => exact (hf.not_named hn).elim
    | unsettled hf' _ => exact hf.unique hf'
    | settled hf' hlt' _ =>
      rw [hf.unique hf', pidLt_asymm hlt'] at hlt
      cases hlt
  | settled hf hlt _ ih =>
    cases h' with
    | self hn => exact (hf.not_named hn).elim
    | unsettled hf' hlt' =>
      rw [hf.unique hf', pidLt_asymm hlt'] at hlt
      cases hlt
    | settled hf' _ hj =>
      obtain rfl := hf.unique hf'
      exact ih hj

theorem NearestNamed.not_own_parent (h : NearestNamed t pid root) : ¬ ForkedFrom t pid pid := by
  induction h with
  | self hn => exact fun hf => hf.not_named hn
  | parent hf _ ih =>
    intro hf'
    obtain rfl := hf.unique hf'
    exact ih hf'

theorem NameFrom.found (h : NameFrom t pid src) : ∃ name, appnameOf t src = some name := by
  induction h with
  | self hn =>
    obtain ⟨r, hr, -⟩ := hn
    exact ⟨r.appname, by rw [appnameOf, hr, Option.map_some]⟩
  | unsettled hf _ =>
    obtain ⟨r, hr⟩ := hf.parent
    exact ⟨r.appname, by rw [appnameOf, hr, Option.map_some]⟩
  | settled _ _ _ ih => exact ih

/-- The name one step of the loop leaves a process with. -/
def settledName (t : Processes) (p : ProcessInfo) : Option CString :=
  if p.valid = false ∧ p.forked = true then (p.parentOfFork.bind t.find).map (·.appname)
  else some p.appname

/-- One step of the loop changes one process only. -/
theorem settleProcess_spec (hk : Keyed t) (hp : t.find pid = some p) {name : CString}
    (hname : settledName t p = some name) :
    ∃ t', settleProcess t pid = some t' ∧ Keyed t' ∧ (∀ j, j ≠ pid → t'.find j = t.find j) ∧
      appnameOf t' pid = some name := by
  have hpid := hk pid p hp
  -- once the process is valid, only the flag of its name is left to set
  have hmark : ∀ (t₁ : Processes) (p₁ : ProcessInfo), Keyed t₁ → t₁.find pid = some p₁ →
      p₁.appname = name → (∀ j, j ≠ pid → t₁.find j = t.find j) → settleValid t p = some t₁ →
      ∃ t', settleProcess t pid = some t' ∧ Keyed t' ∧ (∀ j, j ≠ pid → t'.find j = t.find j) ∧
        appnameOf t' pid = some name := by
    intro t₁ p₁ hk₁ hp₁ hn₁ hrest hset
    refine ⟨t₁.set { p₁ with appnameValid := true }, ?_, keyed_set hk₁ _, fun j hj => ?_, ?_⟩
    · simp [settleProcess, hp, hset, hp₁]
    · have hother : (t₁.set { p₁ with appnameValid := true }).find j = t₁.find j :=
        find_set_of_ne t₁ (hk₁ pid p₁ hp₁) hj
      rw [hother, hrest j hj]
    · have hself : (t₁.set { p₁ with appnameValid := true }).find pid = _ :=
        find_set_of_pid t₁ (hk₁ pid p₁ hp₁)
      rw [appnameOf, hself, Option.map_some, hn₁]
  cases hv : p.valid with
  | true =>
    rw [settledName, if_neg (by simp [hv]), Option.some_inj] at hname
    exact hmark t p hk hp hname (fun _ _ => rfl) (by simp [settleValid, hv])
  | false =>
    by_cases hf : p.forked = true
    · rw [settledName, if_pos ⟨hv, hf⟩, Option.map_eq_some_iff] at hname
      obtain ⟨q, hq, rfl⟩ := hname
      obtain ⟨par, hpar, hq⟩ := Option.bind_eq_some_iff.mp hq
      refine hmark (t.set { p with
        valid := true, appname := q.appname, appBasename := opBasename q.appname,
        appnameValid := true }) _ (keyed_set hk _) (find_set_of_pid t hpid) rfl
        (fun j hj => find_set_of_ne t hpid hj) ?_
      simp [settleValid, hv, hf, Processes.connectForkedProcessToParent, hpar, hq]
    · rw [settledName, if_neg (fun h => hf h.2), Option.some_inj] at hname
      refine hmark (t.set { p with valid := true }) _ (keyed_set hk _) (find_set_of_pid t hpid) hname
        (fun j hj => find_set_of_ne t hpid hj) ?_
      simp [settleValid, hv, hf]

/-- A part of the loop: the processes done have their names, the others are as they were. -/
structure Settling (t t₁ : Processes) (todo : List UInt32) : Prop where
  keyed : Keyed t₁
  rest : ∀ j ∈ todo, t₁.find j = t.find j
  named : ∀ j p, t.find j = some p → j ∉ todo → ∃ src, NameFrom t j src ∧ appnameOf t₁ j = appnameOf t src

theorem named_or_forkedFrom (hforest : Forest t) (hp : t.find pid = some p) :
    (¬ Unnamed p ∧ Named t pid) ∨ (Unnamed p ∧ ∃ par, ForkedFrom t pid par) := by
  obtain ⟨root, hroot⟩ := hforest pid p hp
  cases hroot with
  | self hn =>
    obtain ⟨p', hp', hnot⟩ := hn
    rw [hp, Option.some_inj] at hp'
    rw [hp']
    exact Or.inl ⟨hnot, p', by rw [hp, hp'], hnot⟩
  | parent hf _ =>
    obtain ⟨p', hp', hun, hpar⟩ := hf.child
    rw [hp, Option.some_inj] at hp'
    rw [hp']
    exact Or.inr ⟨hun, _, hf⟩

/-- One step of the loop. -/
theorem settling_step {t₁ : Processes} {todo : List UInt32} (hforest : Forest t)
    (hall : ∀ j p, t.find j = some p → pidLt pid j = true → j ∈ todo)
    (hafter : ∀ j ∈ todo, pidLt pid j = true) (hp : t.find pid = some p)
    (h : Settling t t₁ (pid :: todo)) :
    ∃ t₂, settleProcess t₁ pid = some t₂ ∧ Settling t t₂ todo := by
  have hp₁ : t₁.find pid = some p := (h.rest pid List.mem_cons_self).trans hp
  have hnotin : pid ∉ todo := by
    intro hmem
    have hself := hafter pid hmem
    rw [pidLt_strictOrder.irrefl] at hself
    cases hself
  have hname : ∃ name src, settledName t₁ p = some name ∧ NameFrom t pid src ∧
      appnameOf t src = some name := by
    rcases named_or_forkedFrom hforest hp with ⟨hnot, hn⟩ | ⟨hun, par, hf⟩
    · refine ⟨p.appname, pid, if_neg fun hun => hnot ⟨hun.2, hun.1⟩, .self hn, ?_⟩
      rw [appnameOf, hp, Option.map_some]
    · obtain ⟨p', hp', -, hpar⟩ := hf.child
      rw [hp, Option.some_inj] at hp'
      obtain ⟨q, hq⟩ := hf.parent
      have hne : par ≠ pid := by
        rintro rfl
        obtain ⟨root, hroot⟩ := hforest par p hp
        exact hroot.not_own_parent hf
      have hsettled : settledName t₁ p = (t₁.find par).map (·.appname) := by
        rw [settledName, if_pos ⟨hun.2, hun.1⟩, hp', hpar, Option.bind_some]
      by_cases hmem : par ∈ todo
      · refine ⟨q.appname, par, ?_, .unsettled hf (hafter par hmem), ?_⟩
        · rw [hsettled, h.rest par (List.mem_cons_of_mem _ hmem), hq, Option.map_some]
        · rw [appnameOf, hq, Option.map_some]
      · have hlt : pidLt par pid = true := by
          apply pidLt_strictOrder.total _ _ (Ne.symm hne)
          exact Bool.eq_false_iff.mpr fun hlt => hmem (hall par q hq hlt)
        obtain ⟨src, hsrc, heq⟩ := h.named par q hq (List.mem_cons.not.mpr (not_or.mpr ⟨hne, hmem⟩))
        obtain ⟨name, hname⟩ := hsrc.found
        refine ⟨name, src, ?_, .settled hf hlt hsrc, hname⟩
        rw [hsettled, ← hname, ← heq, appnameOf]
  obtain ⟨name, src, hname, hsrc, hsrcName⟩ := hname
  obtain ⟨t₂, hstep, hk₂, hrest, happ⟩ := settleProcess_spec h.keyed hp₁ hname
  refine ⟨t₂, hstep, hk₂, fun j hj => ?_, fun j q hq hj => ?_⟩
  · have hne : j ≠ pid := fun heq => hnotin (heq ▸ hj)
    rw [hrest j hne, h.rest j (List.mem_cons_of_mem _ hj)]
  · by_cases hjp : j = pid
    · subst hjp
      exact ⟨src, hsrc, by rw [happ, hsrcName]⟩
    · obtain ⟨src', hsrc', heq⟩ := h.named j q hq (List.mem_cons.not.mpr (not_or.mpr ⟨hjp, hj⟩))
      exact ⟨src', hsrc', by rw [← heq, appnameOf, appnameOf, hrest j hjp]⟩

theorem settling_fold {todo : List UInt32} {t₁ : Processes} (hforest : Forest t)
    (hkeys : ∀ j ∈ todo, ∃ p, t.find j = some p)
    (hsorted : todo.Pairwise fun a b => pidLt a b = true)
    (hafter : ∀ i ∈ todo, ∀ j p, t.find j = some p → pidLt i j = true → j ∈ todo)
    (h : Settling t t₁ todo) : ∃ t₂, todo.foldlM settleProcess t₁ = some t₂ ∧ Settling t t₂ [] := by
  induction todo generalizing t₁ with
  | nil => exact ⟨t₁, rfl, h⟩
  | cons pid todo ih =>
    obtain ⟨hlt, hsorted'⟩ := List.pairwise_cons.mp hsorted
    obtain ⟨p, hp⟩ := hkeys pid List.mem_cons_self
    have hrest : ∀ i ∈ pid :: todo, ∀ j q, t.find j = some q → pidLt i j = true → j ≠ pid → j ∈ todo := by
      intro i hi j q hq hij hne
      exact (List.mem_cons.mp (hafter i hi j q hq hij)).resolve_left hne
    have hne : ∀ {i j : UInt32}, pidLt i j = true → (i = pid ∨ i ∈ todo) → j ≠ pid := by
      rintro i j hij (rfl | hi) rfl
      · rw [pidLt_strictOrder.irrefl] at hij
        cases hij
      · rw [pidLt_asymm (hlt i hi)] at hij
        cases hij
    obtain ⟨t₂, hstep, h₂⟩ := settling_step hforest
      (fun j q hq hij => hrest pid List.mem_cons_self j q hq hij (hne hij (Or.inl rfl))) hlt hp h
    obtain ⟨t₃, hfold, h₃⟩ := ih (fun j hj => hkeys j (List.mem_cons_of_mem _ hj)) hsorted'
      (fun i hi j q hq hij => hrest i (List.mem_cons_of_mem _ hi) j q hq hij (hne hij (Or.inr hi))) h₂
    refine ⟨t₃, ?_, h₃⟩
    simp [List.foldlM_cons, hstep, hfold]

/-- After the loop a process has the name of its nearest named ancestor exactly when the chain of
forks goes down in pids, or the name it is copied from on the way is the same. -/
theorem forked_process_named_after_ancestor (s : OperfState) (hk : Keyed s.procs)
    (hsorted : KeyMap.Sorted pidLt s.procs.processMap) (hforest : Forest s.procs) :
    ∃ s', settleProcesses s = some s' ∧
      ∀ pid p root, s.procs.find pid = some p → Unnamed p → NearestNamed s.procs pid root →
        (appnameOf s'.procs pid = appnameOf s.procs root ↔
          ∃ src, NameFrom s.procs pid src ∧ appnameOf s.procs src = appnameOf s.procs root) := by
  have hmem : ∀ j p, s.procs.find j = some p ↔ (j, p) ∈ s.procs.processMap := fun j p =>
    KeyMap.find_eq_some_iff pidLt_strictOrder hsorted
  have hkeys : ∀ j, j ∈ s.procs.processMap.map Prod.fst → ∃ p, s.procs.find j = some p := by
    intro j hj
    obtain ⟨⟨j, p⟩, hjp, rfl⟩ := List.mem_map.mp hj
    exact ⟨p, (hmem j p).mpr hjp⟩
  have hin : ∀ j p, s.procs.find j = some p → j ∈ s.procs.processMap.map Prod.fst :=
    fun j p hp => List.mem_map_of_mem ((hmem j p).mp hp)
  obtain ⟨t, hfold, ht⟩ := settling_fold hforest hkeys (List.pairwise_map.mpr hsorted)
    (fun _ _ j p hp _ => hin j p hp)
    ⟨hk, fun _ _ => rfl, fun j p hp hj => (hj (hin j p hp)).elim⟩
  refine ⟨s.setProcs t, by simp [settleProcesses, hfold], fun pid p root hp _ _ => ?_⟩
  obtain ⟨src, hsrc, heq⟩ := ht.named pid p hp List.not_mem_nil
  rw [OperfState.setProcs, heq]
  constructor
  · intro h
    exact ⟨src, hsrc, h⟩
  · rintro ⟨src', hsrc', h⟩
    rw [hsrc.unique hsrc', h]

/-- Process 10 forks 20, and that forks 15, whose pid comes after the pids have wrapped around. -/
def wrappedForks : List Event := [.comm ⟨10, 10, ['a']⟩, .fork ⟨20, 10⟩, .fork ⟨15, 20⟩]

/-- No link to the executable can be read any more. -/
def goneEnv : Env := { quietEnv with readlink := fun _ _ => none }

structure ProcessView where
  pid : UInt32
  forked : Bool
  valid : Bool
  parentOfFork : Option UInt32
  appname : CString
  deriving DecidableEq

def processView (kv : UInt32 × ProcessInfo) : UInt32 × ProcessView :=
  (kv.1, ⟨kv.2.pid, kv.2.forked, kv.2.valid, kv.2.parentOfFork, kv.2.appname⟩)

/-- The processes after these records. -/
structure WrappedForks (s : OperfState) : Prop where
  keyed : Keyed s.procs
  sorted : KeyMap.Sorted pidLt s.procs.processMap
  parent : Named s.procs 10 ∧ appnameOf s.procs 10 = some ['a']
  child : ForkedFrom s.procs 20 10 ∧ appnameOf s.procs 20 = some unknownName
  grandchild : ForkedFrom s.procs 15 20 ∧ ∃ p, s.procs.find 15 = some p ∧ Unnamed p
  others : ∀ pid p, s.procs.find pid = some p → pid = 10 ∨ pid = 15 ∨ pid = 20

theorem wrappedForks_processes : ∃ s, writeEvents twoEvents goneEnv wrappedForks
    (initialState noVmlinux) = some (0, s) ∧ WrappedForks s := by
  have hrun : ((writeEvents twoEvents goneEnv wrappedForks (initialState noVmlinux)).map fun r =>
      (r.1, r.2.procs.processMap.map processView)) = some (0,
        [(10, ⟨10, false, true, none, ['a']⟩), (15, ⟨15, true, false, some 20, unknownName⟩),
          (20, ⟨20, true, false, some 10, unknownName⟩)]) := by
    decide
  simp only [Option.map_eq_some_iff, Prod.mk.injEq, List.map_eq_cons_iff, List.map_eq_nil_iff] at hrun
  obtain ⟨⟨rc, s⟩, hs, rfl, ⟨_, a⟩, _, hmap, ha, ⟨_, b⟩, _, rfl, hb, ⟨_, c⟩, _, rfl, hc, rfl⟩ := hrun
  simp only [processView, Prod.mk.injEq, ProcessView.mk.injEq] at ha hb hc
  obtain ⟨rfl, ha, haf, hav, -, han⟩ := ha
  obtain ⟨rfl, hb, hbf, hbv, hbp, hbn⟩ := hb
  obtain ⟨rfl, hc, hcf, hcv, hcp, hcn⟩ := hc
  have h10 : s.procs.find 10 = some a := by rw [Processes.find, hmap]; rfl
  have h15 : s.procs.find 15 = some b := by rw [Processes.find, hmap]; rfl
  have h20 : s.procs.find 20 = some c := by rw [Processes.find, hmap]; rfl
  have hfind : ∀ pid p, s.procs.find pid = some p →
      (pid = 10 ∧ p = a) ∨ (pid = 15 ∧ p = b) ∨ (pid = 20 ∧ p = c) := by
    intro pid p hp
    rw [Processes.find, hmap] at hp
    simp only [KeyMap.find] at hp
    split_ifs at hp with h1 h2 h3
    · exact Or.inl ⟨h1.symm, (Option.some_inj.mp hp).symm⟩
    · exact Or.inr (Or.inl ⟨h2.symm, (Option.some_inj.mp hp).symm⟩)
    · exact Or.inr (Or.inr ⟨h3.symm, (Option.some_inj.mp hp).symm⟩)
  refine ⟨s, hs, ?_, ?_, ⟨⟨a, h10, ?_⟩, ?_⟩, ⟨⟨⟨c, h20, ⟨hcf, hcv⟩, hcp⟩, a, h10⟩, ?_⟩,
    ⟨⟨⟨b, h15, ⟨hbf, hbv⟩, hbp⟩, c, h20⟩, b, h15, hbf, hbv⟩, ?_⟩
  · intro pid p hp
    rcases hfind pid p hp with ⟨rfl, rfl⟩ | ⟨rfl, rfl⟩ | ⟨rfl, rfl⟩
    · exact ha
    · exact hb
    · exact hc
  · rw [hmap]
    simp only [KeyMap.Sorted, List.pairwise_cons, List.mem_cons, List.not_mem_nil, or_false,
      forall_eq_or_imp, forall_eq, List.Pairwise.nil, and_true]
    exact ⟨⟨by decide, by decide⟩, by decide, fun _ h => h.elim⟩
  · intro hun
    exact absurd (haf.symm.trans hun.1) Bool.false_ne_true
  · rw [appnameOf, h10, Option.map_some, han]
  · rw [appnameOf, h20, Option.map_some, hcn]
  · intro pid p hp
    rcases hfind pid p hp with ⟨rfl, -⟩ | ⟨rfl, -⟩ | ⟨rfl, -⟩
    · exact Or.inl rfl
    · exact Or.inr (Or.inl rfl)
    · exact Or.inr (Or.inr rfl)

namespace WrappedForks

variable {s : OperfState}

theorem nearestNamed (h : WrappedForks s) :
    NearestNamed s.procs 10 10 ∧ NearestNamed s.procs 20 10 ∧ NearestNamed s.procs 15 10 :=
  ⟨.self h.parent.1, .parent h.child.1 (.self h.parent.1),
    .parent h.grandchild.1 (.parent h.child.1 (.self h.parent.1))⟩

theorem forest (h : WrappedForks s) : Forest s.procs := by
  intro pid p hp
  obtain ⟨h10, h20, h15⟩ := h.nearestNamed
  rcases h.others pid p hp with rfl | rfl | rfl
  · exact ⟨10, h10⟩
  · exact ⟨10, h15⟩
  · exact ⟨10, h20⟩

/-- The name of process 15 is taken from process 20, which has none yet. -/
theorem nameFrom (h : WrappedForks s) : NameFrom s.procs 15 20 :=
  .unsettled h.grandchild.1 (by decide)

end WrappedForks

/-- Process 20 gets the name of process 10, and process 15 does not. -/
theorem forked_process_named_after_ancestor_wrapped : ∃ s s',
    writeEvents twoEvents goneEnv wrappedForks (initialState noVmlinux) = some (0, s) ∧
    settleProcesses s = some s' ∧ appnameOf s.procs 10 = some ['a'] ∧
    appnameOf s'.procs 20 = some ['a'] ∧ appnameOf s'.procs 15 ≠ some ['a'] := by
  obtain ⟨s, hs, hw⟩ := wrappedForks_processes
  obtain ⟨s', hsettle, hnames⟩ :=
    forked_process_named_after_ancestor s hw.keyed hw.sorted hw.forest
  obtain ⟨c, hc, hcun, -⟩ := hw.child.1.child
  obtain ⟨b, hb, hbun⟩ := hw.grandchild.2
  have h20 := hnames 20 c 10 hc hcun hw.nearestNamed.2.1
  have h15 := hnames 15 b 10 hb hbun hw.nearestNamed.2.2
  rw [hw.parent.2] at h20 h15
  refine ⟨s, s', hs, hsettle, hw.parent.2, h20.mpr ⟨10, ?_, hw.parent.2⟩, fun heq => ?_⟩
  · exact .settled hw.child.1 (by decide) (.self hw.parent.1)
  · obtain ⟨src, hsrc, hname⟩ := h15.mp heq
    rw [← hw.nameFrom.unique hsrc, hw.child.2] at hname
    exact absurd hname (by decide)

/-- A name is copied before it is known. -/
theorem name_copied_too_early : ∃ s s', Keyed s.procs ∧
    KeyMap.Sorted pidLt s.procs.processMap ∧ Forest s.procs ∧ settleProcesses s = some s' ∧
    ∃ p, s.procs.find 15 = some p ∧ Unnamed p ∧ NearestNamed s.procs 15 10 ∧
      appnameOf s'.procs 15 ≠ appnameOf s.procs 10 := by
  obtain ⟨s, hs, hw⟩ := wrappedForks_processes
  have hrun : ((writeEvents twoEvents goneEnv wrappedForks (initialState noVmlinux)).bind fun r =>
      (settleProcesses r.2).map fun s' => appnameOf s'.procs 15) = some (some unknownName) := by
    decide
  rw [hs, Option.bind_some, Option.map_eq_some_iff] at hrun
  obtain ⟨s', hsettle, hname⟩ := hrun
  obtain ⟨b, hb, hbun⟩ := hw.grandchild.2
  refine ⟨s, s', hw.keyed, hw.sorted, hw.forest, hsettle, b, hb, hbun, hw.nearestNamed.2.2, fun heq => ?_⟩
  rw [hname, hw.parent.2] at heq
  exact absurd heq (by decide)

end Oprofile.Operf

import Oprofile.Libdb.SharedData

/-! Which runs of opens and closes keep the reference counts right. -/
namespace Oprofile.Libdb

open Sharing OdbState

/-- The chains hold the live data, each file once. -/
structure OdbState.Chained {H : Type} (s : OdbState H) : Prop where
  mem_iff : ∀ b a, a ∈ s.filesHash b ↔ ∃ data, s.data a = some data ∧ filesHashOf data.filename = b
  nodup : ∀ b, (s.filesHash b).Nodup
  named : ∀ a a' data data', s.data a = some data → s.data a' = some data' → data.filename = data'.filename → a = a'
  fresh : ∀ a, s.next ≤ a → s.data a = none

namespace OdbState

variable {H : Type} {s : OdbState H} {a : Nat} {data : SharedData} {filename : List UInt8} {handle : H → Option Nat}

theorem chained_init : (init : OdbState H).Chained where
  mem_iff := by
    intro b a
    constructor
    · intro hmem
      cases hmem
    · rintro ⟨data, hdata, -⟩
      cases hdata
  nodup := fun _ => List.nodup_nil
  named := by
    intro a a' data data' hdata
    cases hdata
  fresh := fun _ _ => rfl

theorem Chained.setHandle (hc : s.Chained) : Chained { s with handle := handle } :=
  ⟨hc.mem_iff, hc.nodup, hc.named, hc.fresh⟩

/-- Data is replaced by data of the same file. -/
theorem Chained.replace (hc : s.Chained) (data' : SharedData) (hdata : s.data a = some data)
    (hname : data'.filename = data.filename) :
    Chained { s with data := Function.update s.data a (some data') } := by
  have hlook : ∀ b x, Function.update s.data a (some data') b = some x → ∃ y, s.data b = some y ∧ x.filename = y.filename := by
    intro b x hx
    by_cases hb : b = a
    · subst b
      rw [Function.update_self, Option.some_inj] at hx
      subst x
      exact ⟨data, hdata, hname⟩
    · rw [Function.update_of_ne hb] at hx
      exact ⟨x, hx, rfl⟩
  have hback : ∀ b y, s.data b = some y → ∃ x, Function.update s.data a (some data') b = some x ∧ x.filename = y.filename := by
    intro b y hy
    by_cases hb : b = a
    · subst b
      rw [hdata, Option.some_inj] at hy
      subst y
      exact ⟨data', Function.update_self .., hname⟩
    · exact ⟨y, by rw [Function.update_of_ne hb, hy], rfl⟩
  constructor
  · intro bucket b
    rw [hc.mem_iff bucket b]
    constructor
    · rintro ⟨y, hy, hbucket⟩
      obtain ⟨x, hx, hsame⟩ := hback b y hy
      exact ⟨x, hx, by rw [hsame, hbucket]⟩
    · rintro ⟨x, hx, hbucket⟩
      obtain ⟨y, hy, hsame⟩ := hlook b x hx
      exact ⟨y, hy, by rw [← hsame, hbucket]⟩
  · exact hc.nodup
  · intro b b' x x' hx hx' hsame
    obtain ⟨y, hy, hyname⟩ := hlook b x hx
    obtain ⟨y', hy', hyname'⟩ := hlook b' x' hx'
    exact hc.named b b' y y' hy hy' (by rw [← hyname, ← hyname', hsame])
  · intro b hb
    have hne : b ≠ a := by
      rintro rfl
      rw [hc.fresh b hb] at hdata
      cases hdata
    show Function.update s.data a (some data') b = none
    rw [Function.update_of_ne hne]
    exact hc.fresh b hb

/-- Data is freed. -/
theorem Chained.free (hc : s.Chained) (a : Nat) :
    Chained { s with data := Function.update s.data a none, filesHash := fun b => (s.filesHash b).erase a } := by
  have hlook : ∀ b x, Function.update s.data a none b = some x → b ≠ a ∧ s.data b = some x := by
    intro b x hx
    by_cases hb : b = a
    · subst b
      rw [Function.update_self] at hx
      cases hx
    · rw [Function.update_of_ne hb] at hx
      exact ⟨hb, hx⟩
  constructor
  · intro bucket b
    rw [(hc.nodup bucket).mem_erase_iff, hc.mem_iff bucket b]
    constructor
    · rintro ⟨hne, x, hx, hbucket⟩
      exact ⟨x, (Function.update_of_ne hne ..).trans hx, hbucket⟩
    · rintro ⟨x, hx, hbucket⟩
      obtain ⟨hne, hx⟩ := hlook b x hx
      exact ⟨hne, x, hx, hbucket⟩
  · intro bucket
    exact (hc.nodup bucket).erase a
  · intro b b' x x' hx hx' hsame
    exact hc.named b b' x x' (hlook b x hx).2 (hlook b' x' hx').2 hsame
  · intro b hb
    show Function.update s.data a none b = none
    by_cases hne : b = a
    · subst b
      exact Function.update_self ..
    · rw [Function.update_of_ne hne]
      exact hc.fresh b hb

/-- A chain of live data is searched for a file to its end. -/
theorem findInChain_spec (chain : List Nat) (hlive : ∀ a ∈ chain, ∃ data, s.data a = some data) :
    (∃ a ∈ chain, ∃ data, s.data a = some data ∧ data.filename = filename ∧ s.findInChain filename chain = some (some a)) ∨
      (∀ a ∈ chain, ∀ data, s.data a = some data → data.filename ≠ filename) ∧ s.findInChain filename chain = some none := by
  induction chain with
  | nil =>
    refine Or.inr ⟨?_, rfl⟩
    intro a ha
    cases ha
  | cons b chain ih =>
    obtain ⟨x, hx⟩ := hlive b List.mem_cons_self
    rw [findInChain, hx]
    dsimp only
    by_cases hname : x.filename = filename
    · rw [if_pos hname]
      exact Or.inl ⟨b, List.mem_cons_self, x, hx, hname, rfl⟩
    · rw [if_neg hname]
      rcases ih fun a ha => hlive a (List.mem_cons_of_mem b ha) with ⟨a, ha, hfound⟩ | ⟨hothers, hfound⟩
      · exact Or.inl ⟨a, List.mem_cons_of_mem b ha, hfound⟩
      · refine Or.inr ⟨?_, hfound⟩
        intro a ha data hdata
        rcases List.mem_cons.mp ha with rfl | ha
        · rw [hx, Option.some_inj] at hdata
          subst x
          exact hname
        · exact hothers a ha data hdata

/-- `find_samples_data` finds the data of a file, if there is any. -/
theorem Chained.findSamplesData_spec (hc : s.Chained) (filename : List UInt8) :
    (∃ a data, s.data a = some data ∧ data.filename = filename ∧ s.findSamplesData filename = some (some a)) ∨
      (∀ a data, s.data a = some data → data.filename ≠ filename) ∧ s.findSamplesData filename = some none := by
  have hlive : ∀ a ∈ s.filesHash (filesHashOf filename), ∃ data, s.data a = some data := by
    intro a ha
    obtain ⟨data, hdata, -⟩ := (hc.mem_iff _ a).mp ha
    exact ⟨data, hdata⟩
  rcases findInChain_spec (s.filesHash (filesHashOf filename)) hlive with ⟨a, -, hfound⟩ | ⟨hothers, hfound⟩
  · exact Or.inl ⟨a, hfound⟩
  · refine Or.inr ⟨?_, hfound⟩
    intro a data hdata hname
    exact hothers a ((hc.mem_iff _ a).mpr ⟨data, hdata, by rw [hname]⟩) data hdata hname

/-- Data of a file that has none is put in front of its chain. -/
theorem Chained.alloc (hc : s.Chained) (data : SharedData)
    (hnew : ∀ a x, s.data a = some x → x.filename ≠ data.filename) :
    Chained { s with
      data := Function.update s.data s.next (some data)
      next := s.next + 1
      filesHash := Function.update s.filesHash (filesHashOf data.filename)
        (s.next :: s.filesHash (filesHashOf data.filename)) } := by
  have hlook : ∀ b x, Function.update s.data s.next (some data) b = some x →
      b = s.next ∧ x = data ∨ b ≠ s.next ∧ s.data b = some x := by
    intro b x hx
    by_cases hb : b = s.next
    · subst b
      rw [Function.update_self, Option.some_inj] at hx
      exact Or.inl ⟨rfl, hx.symm⟩
    · rw [Function.update_of_ne hb] at hx
      exact Or.inr ⟨hb, hx⟩
  have hold : ∀ b x, s.data b = some x → b ≠ s.next := by
    rintro b x hx rfl
    rw [hc.fresh s.next (Nat.le_refl _)] at hx
    cases hx
  have hnotin : ∀ bucket, s.next ∉ s.filesHash bucket := by
    intro bucket hmem
    obtain ⟨x, hx, -⟩ := (hc.mem_iff bucket s.next).mp hmem
    exact hold s.next x hx rfl
  constructor
  · intro bucket b
    have hmem : b ∈ Function.update s.filesHash (filesHashOf data.filename)
        (s.next :: s.filesHash (filesHashOf data.filename)) bucket ↔
          b = s.next ∧ filesHashOf data.filename = bucket ∨ b ∈ s.filesHash bucket := by
      by_cases hbucket : bucket = filesHashOf data.filename
      · subst bucket
        rw [Function.update_self, List.mem_cons]
        simp
      · rw [Function.update_of_ne hbucket]
        simp [Ne.symm hbucket]
    rw [hmem, hc.mem_iff bucket b]
    constructor
    · rintro (⟨rfl, hbucket⟩ | ⟨x, hx, hbucket⟩)
      · exact ⟨data, Function.update_self .., hbucket⟩
      · exact ⟨x, (Function.update_of_ne (hold b x hx) ..).trans hx, hbucket⟩
    · rintro ⟨x, hx, hbucket⟩
      rcases hlook b x hx with ⟨rfl, rfl⟩ | ⟨-, hx⟩
      · exact Or.inl ⟨rfl, hbucket⟩
      · exact Or.inr ⟨x, hx, hbucket⟩
  · intro bucket
    show (Function.update s.filesHash (filesHashOf data.filename) _ bucket).Nodup
    by_cases hbucket : bucket = filesHashOf data.filename
    · subst bucket
      rw [Function.update_self]
      exact List.nodup_cons.mpr ⟨hnotin _, hc.nodup _⟩
    · rw [Function.update_of_ne hbucket]
      exact hc.nodup bucket
  · intro b b' x x' hx hx' hsame
    rcases hlook b x hx with ⟨hb, hxdata⟩ | ⟨-, hxold⟩
    · rcases hlook b' x' hx' with ⟨hb', -⟩ | ⟨-, hxold'⟩
      · rw [hb, hb']
      · exact absurd (by rw [← hsame, hxdata]) (hnew b' x' hxold')
    · rcases hlook b' x' hx' with ⟨-, hxdata'⟩ | ⟨-, hxold'⟩
      · exact absurd (by rw [hsame, hxdata']) (hnew b x hxold)
      · exact hc.named b b' x x' hxold hxold' hsame
  · intro b hb
    have hne : b ≠ s.next := Nat.ne_of_gt hb
    show Function.update s.data s.next (some data) b = none
    rw [Function.update_of_ne hne]
    exact hc.fresh b (Nat.le_of_lt hb)

end OdbState

/-- A call on a handle. -/
inductive HandleOp (H : Type)
  | openCount (h : H)
  | openFile (h : H) (filename : List UInt8) (errors : OpenErrors) (rw : OdbRw) (file : ByteMem.File) (sizeofHeader : Nat)
  | update (h : H) (change : OdbData → OdbData)
  | close (h : H)

/-- The state, and the handles that are open: a successful `odb_open` opens one, `odb_close` closes it. -/
structure Tracked (H : Type) where
  state : OdbState H
  opened : Finset H

namespace Tracked

variable {H : Type} (t : Tracked H)

def init : Tracked H := ⟨OdbState.init, ∅⟩

/-- What the daemon tests before: it opens a handle when `odb_open_count` is 0, and updates when it is not. It closes
at any time. -/
def InOrder : HandleOp H → Prop
  | .openFile h .. => t.state.odbOpenCount h = some 0
  | .update h _ => t.state.odbOpenCount h ≠ some 0
  | _ => True

/-- The reference counts are right: data is live while handles are open on it, and counts them. -/
structure Sound : Prop where
  counted : ∀ a data, t.state.data a = some data →
    data.refCount = users t.opened t.state.handle a ∧ 0 < data.refCount
  live : ∀ h ∈ t.opened, ∃ a data, t.state.handle h = some a ∧ t.state.data a = some data

/-- The handle was closed while another was open on its data, and still points there. -/
def Lingers (h : H) : Prop := h ∉ t.opened ∧ t.state.handle h ≠ none

/-- A handle that lingers is not closed, and not used unless another one is open on its data; and `open` does not fail
for a file that is not open yet. -/
def Meets : HandleOp H → Prop
  | .openCount h => t.Lingers h → ∃ g ∈ t.opened, t.state.handle g = t.state.handle h
  | .openFile _ filename errors .. =>
    errors.openFile = none ∨ ∃ a data, t.state.data a = some data ∧ data.filename = filename
  | .update h _ => t.Lingers h → ∃ g ∈ t.opened, t.state.handle g = t.state.handle h
  | .close h => ¬t.Lingers h

/-- The counts are right, and handles point to addresses that have been given out. -/
structure Inv : Prop extends t.Sound where
  chains : t.state.Chained
  pointed : ∀ h a, t.state.handle h = some a → a < t.state.next

section

variable [DecidableEq H]

/-- One call; nothing when it touches freed memory. -/
def step : HandleOp H → Option (Tracked H)
  | .openCount h => (t.state.odbOpenCount h).map fun _ => t
  | .openFile h filename errors rw file sizeofHeader =>
    (t.state.odbOpen h filename errors rw file sizeofHeader).map fun r =>
      match r.1 with
      | .ok () => ⟨r.2, insert h t.opened⟩
      | .error _ => ⟨r.2, t.opened⟩
  | .update h change => (t.state.odbUpdate h change).map fun s => ⟨s, t.opened⟩
  | .close h => (t.state.odbClose h).map fun s => ⟨s, t.opened.erase h⟩

/-- Where a run ends. -/
def run (t : Tracked H) (ops : List (HandleOp H)) : Option (Tracked H) := ops.foldlM (fun t op => t.step op) t

/-- A run in the order of the daemon. -/
def RunsInOrder (t : Tracked H) : List (HandleOp H) → Prop
  | [] => True
  | op :: ops => t.InOrder op ∧ ∀ t', t.step op = some t' → RunsInOrder t' ops

/-- No call of a run touches freed memory, and the counts are right all the time. -/
def RunsSound (t : Tracked H) : List (HandleOp H) → Prop
  | [] => t.Sound
  | op :: ops => t.Sound ∧ ∃ t', t.step op = some t' ∧ RunsSound t' ops

def RunsMeeting (t : Tracked H) : List (HandleOp H) → Prop
  | [] => True
  | op :: ops => t.Meets op ∧ ∀ t', t.step op = some t' → RunsMeeting t' ops

end

variable {t} {h : H} {a : Nat} {data : SharedData} {filename : List UInt8}

theorem inv_init : (init : Tracked H).Inv where
  counted := by
    intro a data hdata
    cases hdata
  live := by
    intro h hopen
    cases hopen
  chains := chained_init
  pointed := by
    intro h a hpoints
    cases hpoints

/-- Where a handle points, there is something unless it lingers alone. -/
theorem Sound.reads_iff (hs : t.Sound) (hpoints : t.state.handle h = some a) :
    (∃ data, t.state.data a = some data) ↔ (t.Lingers h → ∃ g ∈ t.opened, t.state.handle g = t.state.handle h) := by
  constructor
  · rintro ⟨data, hdata⟩ -
    obtain ⟨hcount, hpos⟩ := hs.counted a data hdata
    rw [hcount] at hpos
    rw [hpoints]
    exact users_pos_iff.mp hpos
  · intro hshared
    obtain ⟨g, hg, hsame⟩ : ∃ g ∈ t.opened, t.state.handle g = some a := by
      by_cases hopen : h ∈ t.opened
      · exact ⟨h, hopen, hpoints⟩
      · have hlingers : t.Lingers h := ⟨hopen, by rw [hpoints]; exact Option.some_ne_none a⟩
        rw [← hpoints]
        exact hshared hlingers
    obtain ⟨b, data, hb, hdata⟩ := hs.live g hg
    rw [hsame, Option.some_inj] at hb
    subst b
    exact ⟨data, hdata⟩

/-- A handle that points nowhere is not open. -/
theorem Sound.closed (hs : t.Sound) (hnone : t.state.handle h = none) : h ∉ t.opened := by
  intro hopen
  obtain ⟨a, data, hpoints, -⟩ := hs.live h hopen
  rw [hnone] at hpoints
  cases hpoints

theorem Sound.openCount_zero (hs : t.Sound) (hcount : t.state.odbOpenCount h = some 0) : t.state.handle h = none := by
  rw [odbOpenCount] at hcount
  cases hpoints : t.state.handle h with
  | none => rfl
  | some a =>
    rw [hpoints] at hcount
    obtain ⟨data, hdata, hzero⟩ := Option.map_eq_some_iff.mp hcount
    have hpos := (hs.counted a data hdata).2
    omega

/-- Data is replaced by data of the same file and count. -/
theorem Inv.replace {data' : SharedData} (hi : t.Inv) (hdata : t.state.data a = some data)
    (hname : data'.filename = data.filename) (hcount : data'.refCount = data.refCount) :
    Inv ⟨{ t.state with data := Function.update t.state.data a (some data') }, t.opened⟩ where
  counted := by
    intro b x hx
    dsimp only at hx ⊢
    by_cases hb : b = a
    · subst b
      rw [Function.update_self, Option.some_inj] at hx
      rw [← hx, hcount]
      exact hi.counted a data hdata
    · rw [Function.update_of_ne hb] at hx
      exact hi.counted b x hx
  live := by
    intro g hg
    obtain ⟨b, y, hpoints, hy⟩ := hi.live g hg
    by_cases hb : b = a
    · subst b
      exact ⟨a, data', hpoints, Function.update_self ..⟩
    · exact ⟨b, y, hpoints, by rw [← hy]; exact Function.update_of_ne hb ..⟩
  chains := hi.chains.replace data' hdata hname
  pointed := hi.pointed

/-! ### One call -/

variable [DecidableEq H]

theorem openCount_iff (hs : t.Sound) : (∃ t', t.step (.openCount h) = some t' ∧ t'.Sound) ↔ t.Meets (.openCount h) := by
  rw [step, Meets]
  cases hpoints : t.state.handle h with
  | none =>
    rw [odbOpenCount, hpoints]
    exact iff_of_true ⟨t, rfl, hs⟩ fun hl => absurd hpoints hl.2
  | some a =>
    rw [← hpoints, ← hs.reads_iff hpoints, odbOpenCount, hpoints]
    constructor
    · rintro ⟨t', hstep, -⟩
      obtain ⟨count, hcount, -⟩ := Option.map_eq_some_iff.mp hstep
      obtain ⟨data, hdata, -⟩ := Option.map_eq_some_iff.mp hcount
      exact ⟨data, hdata⟩
    · rintro ⟨data, hdata⟩
      refine ⟨t, ?_, hs⟩
      dsimp only
      rw [hdata]
      rfl

theorem openCount_inv {t' : Tracked H} (hi : t.Inv) (hstep : t.step (.openCount h) = some t') : t'.Inv := by
  obtain ⟨count, -, rfl⟩ := Option.map_eq_some_iff.mp hstep
  exact hi

theorem update_inv {change : OdbData → OdbData} {t' : Tracked H} (hi : t.Inv)
    (hstep : t.step (.update h change) = some t') : t'.Inv := by
  obtain ⟨s, hupdate, rfl⟩ := Option.map_eq_some_iff.mp hstep
  rw [odbUpdate] at hupdate
  cases hpoints : t.state.handle h with
  | none =>
    rw [hpoints] at hupdate
    cases hupdate
  | some a =>
    rw [hpoints] at hupdate
    obtain ⟨data, hdata, rfl⟩ := Option.map_eq_some_iff.mp hupdate
    exact hi.replace hdata rfl rfl

theorem update_iff {change : OdbData → OdbData} (hi : t.Inv) (horder : t.InOrder (.update h change)) :
    (∃ t', t.step (.update h change) = some t' ∧ t'.Sound) ↔ t.Meets (.update h change) := by
  rw [Meets]
  cases hpoints : t.state.handle h with
  | none =>
    refine absurd ?_ horder
    rw [odbOpenCount, hpoints]
  | some a =>
    rw [← hpoints, ← hi.reads_iff hpoints]
    constructor
    · rintro ⟨t', hstep, -⟩
      rw [step, odbUpdate, hpoints] at hstep
      obtain ⟨s, hupdate, -⟩ := Option.map_eq_some_iff.mp hstep
      obtain ⟨data, hdata, -⟩ := Option.map_eq_some_iff.mp hupdate
      exact ⟨data, hdata⟩
    · rintro ⟨data, hdata⟩
      have hstep : t.step (.update h change) = some ⟨{ t.state with
          data := Function.update t.state.data a (some { data with store := data.store.map change }) }, t.opened⟩ := by
        rw [step, odbUpdate, hpoints]
        dsimp only
        rw [hdata]
        rfl
      exact ⟨_, hstep, (update_inv hi hstep).toSound⟩

/-- A handle that lingers is closed once more: the count falls without an open handle less. -/
theorem close_lingering (hl : t.Lingers h) : ¬∃ t', t.step (.close h) = some t' ∧ t'.Sound ∧ t.Sound := by
  rintro ⟨t', hstep, hs', hs⟩
  obtain ⟨s, hclose, rfl⟩ := Option.map_eq_some_iff.mp hstep
  obtain ⟨a, hpoints⟩ := Option.ne_none_iff_exists'.mp hl.2
  rw [odbClose, hpoints] at hclose
  obtain ⟨data, hdata, hstate⟩ := Option.map_eq_some_iff.mp hclose
  obtain ⟨hcount, hpos⟩ := hs.counted a data hdata
  have hsame : t.opened.erase h = t.opened := Finset.erase_eq_of_notMem hl.1
  rw [hsame] at hs'
  by_cases hlast : data.refCount - 1 = 0
  · rw [if_pos hlast] at hstate
    subst s
    -- another handle is open on what has been freed
    rw [hcount] at hpos
    obtain ⟨g, hg, hgpoints⟩ := users_pos_iff.mp hpos
    have hne : g ≠ h := by
      rintro rfl
      exact hl.1 hg
    obtain ⟨b, x, hb, hx⟩ := hs'.live g hg
    dsimp only at hb hx
    rw [Function.update_of_ne hne, hgpoints, Option.some_inj] at hb
    subst b
    rw [Function.update_self] at hx
    cases hx
  · rw [if_neg hlast] at hstate
    subst s
    obtain ⟨hcount', -⟩ := hs'.counted a { data with refCount := data.refCount - 1 } (Function.update_self ..)
    dsimp only at hcount'
    omega

/-- The last handle on data is closed. -/
theorem Inv.closeLast (hi : t.Inv) (hopen : h ∈ t.opened) (hpoints : t.state.handle h = some a)
    (hlast : users t.opened t.state.handle a = 1) :
    Inv ⟨{ t.state with
      data := Function.update t.state.data a none
      filesHash := fun b => (t.state.filesHash b).erase a
      handle := Function.update t.state.handle h none }, t.opened.erase h⟩ := by
  have hnone : users (t.opened.erase h) t.state.handle a = 0 := by
    have hless := users_erase hopen hpoints
    omega
  have hothers : ∀ g ∈ t.opened.erase h, Function.update t.state.handle h none g = t.state.handle g := by
    intro g hg
    exact Function.update_of_ne (Finset.ne_of_mem_erase hg) ..
  constructor
  · constructor
    · intro b x hx
      have hb : b ≠ a := by
        rintro rfl
        dsimp only at hx
        rw [Function.update_self] at hx
        cases hx
      dsimp only at hx ⊢
      rw [Function.update_of_ne hb] at hx
      rw [users_congr hothers, users_erase_other (by rw [hpoints]; exact fun heq => hb (Option.some_inj.mp heq).symm)]
      exact hi.counted b x hx
    · intro g hg
      obtain ⟨b, x, hgpoints, hx⟩ := hi.live g (Finset.mem_of_mem_erase hg)
      have hb : b ≠ a := by
        rintro rfl
        have hpos : 0 < users (t.opened.erase h) t.state.handle b := users_pos_iff.mpr ⟨g, hg, hgpoints⟩
        omega
      exact ⟨b, x, (hothers g hg).trans hgpoints, (Function.update_of_ne hb ..).trans hx⟩
  · exact (hi.chains.free a).setHandle
  · intro g b hb
    dsimp only at hb
    by_cases hne : g = h
    · subst g
      rw [Function.update_self] at hb
      cases hb
    · rw [Function.update_of_ne hne] at hb
      exact hi.pointed g b hb

/-- One of several handles on data is closed. -/
theorem Inv.closeShared (hi : t.Inv) (hopen : h ∈ t.opened) (hpoints : t.state.handle h = some a)
    (hdata : t.state.data a = some data) (hshared : data.refCount - 1 ≠ 0) :
    Inv ⟨{ t.state with
      data := Function.update t.state.data a (some { data with refCount := data.refCount - 1 }) }, t.opened.erase h⟩ := by
  have hless := users_erase hopen hpoints
  obtain ⟨hcount, -⟩ := hi.counted a data hdata
  constructor
  · constructor
    · intro b x hx
      dsimp only at hx ⊢
      by_cases hb : b = a
      · subst b
        rw [Function.update_self, Option.some_inj] at hx
        subst x
        dsimp only
        omega
      · rw [Function.update_of_ne hb] at hx
        rw [users_erase_other (by rw [hpoints]; exact fun heq => hb (Option.some_inj.mp heq).symm)]
        exact hi.counted b x hx
    · intro g hg
      obtain ⟨b, x, hgpoints, hx⟩ := hi.live g (Finset.mem_of_mem_erase hg)
      by_cases hb : b = a
      · subst b
        exact ⟨a, _, hgpoints, Function.update_self ..⟩
      · exact ⟨b, x, hgpoints, (Function.update_of_ne hb ..).trans hx⟩
  · exact hi.chains.replace _ hdata rfl
  · exact hi.pointed

/-- A handle that is open, or points nowhere, is closed. -/
theorem close_inv (hi : t.Inv) (hl : ¬t.Lingers h) : ∃ t', t.step (.close h) = some t' ∧ t'.Inv := by
  rw [step, odbClose]
  cases hpoints : t.state.handle h with
  | none =>
    refine ⟨t, ?_, hi⟩
    dsimp only [Option.map_some]
    rw [Finset.erase_eq_of_notMem (hi.closed hpoints)]
  | some a =>
    have hopen : h ∈ t.opened := by
      by_contra hclosed
      exact hl ⟨hclosed, by rw [hpoints]; exact Option.some_ne_none a⟩
    obtain ⟨b, data, hb, hdata⟩ := hi.live h hopen
    rw [hpoints, Option.some_inj] at hb
    subst b
    obtain ⟨hcount, hpos⟩ := hi.counted a data hdata
    dsimp only
    rw [hdata]
    by_cases hlast : data.refCount - 1 = 0
    · refine ⟨_, by rw [Option.map_some, if_pos hlast]; rfl, hi.closeLast hopen hpoints (by omega)⟩
    · refine ⟨_, by rw [Option.map_some, if_neg hlast]; rfl, hi.closeShared hopen hpoints hdata hlast⟩

theorem close_iff (hi : t.Inv) : (∃ t', t.step (.close h) = some t' ∧ t'.Sound) ↔ t.Meets (.close h) := by
  rw [Meets]
  constructor
  · rintro ⟨t', hstep, hs'⟩ hl
    exact close_lingering hl ⟨t', hstep, hs', hi.toSound⟩
  · intro hl
    obtain ⟨t', hstep, hi'⟩ := close_inv hi hl
    exact ⟨t', hstep, hi'.toSound⟩

/-- A file that is open is opened on another handle. -/
theorem Inv.share (hi : t.Inv) (hclosed : h ∉ t.opened) (hdata : t.state.data a = some data) :
    Inv ⟨{ t.state with
      data := Function.update t.state.data a (some { data with refCount := data.refCount + 1 })
      handle := Function.update t.state.handle h (some a) }, insert h t.opened⟩ := by
  have hothers : ∀ g ∈ t.opened, Function.update t.state.handle h (some a) g = t.state.handle g := by
    intro g hg
    apply Function.update_of_ne
    rintro rfl
    exact hclosed hg
  constructor
  · constructor
    · intro b x hx
      dsimp only at hx ⊢
      by_cases hb : b = a
      · subst b
        rw [Function.update_self, Option.some_inj] at hx
        subst x
        obtain ⟨hcount, -⟩ := hi.counted a data hdata
        rw [users_open hclosed]
        exact ⟨congrArg (· + 1) hcount, Nat.succ_pos _⟩
      · rw [Function.update_of_ne hb] at hx
        rw [users_open_other hclosed hb]
        exact hi.counted b x hx
    · intro g hg
      dsimp only
      rcases Finset.mem_insert.mp hg with rfl | hg
      · exact ⟨a, _, Function.update_self .., Function.update_self ..⟩
      · obtain ⟨b, x, hgpoints, hx⟩ := hi.live g hg
        by_cases hb : b = a
        · subst b
          exact ⟨a, _, (hothers g hg).trans hgpoints, Function.update_self ..⟩
        · exact ⟨b, x, (hothers g hg).trans hgpoints, (Function.update_of_ne hb ..).trans hx⟩
  · exact (hi.chains.replace { data with refCount := data.refCount + 1 } hdata rfl).setHandle
  · intro g b hb
    dsimp only at hb
    by_cases hne : g = h
    · subst g
      rw [Function.update_self, Option.some_inj] at hb
      subst b
      by_contra hlate
      have hfresh := hi.chains.fresh a (Nat.le_of_not_lt hlate)
      rw [hdata] at hfresh
      cases hfresh
    · rw [Function.update_of_ne hne] at hb
      exact hi.pointed g b hb

/-- A file that is not open is opened. -/
theorem Inv.openNew (hi : t.Inv) (hclosed : h ∉ t.opened) (store : OdbData)
    (hnew : ∀ a x, t.state.data a = some x → x.filename ≠ filename) :
    Inv ⟨{
      data := Function.update t.state.data t.state.next (some ⟨filename, 1, some store⟩)
      next := t.state.next + 1
      filesHash := Function.update t.state.filesHash (filesHashOf filename)
        (t.state.next :: t.state.filesHash (filesHashOf filename))
      handle := Function.update t.state.handle h (some t.state.next) }, insert h t.opened⟩ := by
  have hothers : ∀ g ∈ t.opened, Function.update t.state.handle h (some t.state.next) g = t.state.handle g := by
    intro g hg
    apply Function.update_of_ne
    rintro rfl
    exact hclosed hg
  have hunused : users t.opened t.state.handle t.state.next = 0 := by
    by_contra hused
    obtain ⟨g, -, hg⟩ := users_pos_iff.mp (Nat.pos_of_ne_zero hused)
    exact Nat.lt_irrefl _ (hi.pointed g _ hg)
  constructor
  · constructor
    · intro b x hx
      dsimp only at hx ⊢
      by_cases hb : b = t.state.next
      · subst b
        rw [Function.update_self, Option.some_inj] at hx
        subst x
        rw [users_open hclosed, hunused]
        exact ⟨rfl, Nat.one_pos⟩
      · rw [Function.update_of_ne hb] at hx
        rw [users_open_other hclosed hb]
        exact hi.counted b x hx
    · intro g hg
      dsimp only
      rcases Finset.mem_insert.mp hg with rfl | hg
      · exact ⟨t.state.next, _, Function.update_self .., Function.update_self ..⟩
      · obtain ⟨b, x, hgpoints, hx⟩ := hi.live g hg
        have hb : b ≠ t.state.next := Nat.ne_of_lt (hi.pointed g b hgpoints)
        exact ⟨b, x, (hothers g hg).trans hgpoints, (Function.update_of_ne hb ..).trans hx⟩
  · exact (hi.chains.alloc ⟨filename, 1, some store⟩ hnew).setHandle
  · intro g b hb
    dsimp only at hb ⊢
    by_cases hne : g = h
    · subst g
      rw [Function.update_self, Option.some_inj] at hb
      omega
    · rw [Function.update_of_ne hne] at hb
      exact Nat.lt_succ_of_lt (hi.pointed g b hb)

/-- An open that fails after `open` leaves everything but the next address, since the handle pointed nowhere before. -/
theorem Inv.openFails (hi : t.Inv) (hnone : t.state.handle h = none) :
    Inv ⟨{ t.state with next := t.state.next + 1, handle := Function.update t.state.handle h none }, t.opened⟩ := by
  have hsame : Function.update t.state.handle h none = t.state.handle := by
    rw [← hnone]
    exact Function.update_eq_self h _
  rw [hsame]
  exact
    { counted := hi.counted
      live := hi.live
      chains := ⟨hi.chains.mem_iff, hi.chains.nodup, hi.chains.named, fun a ha => hi.chains.fresh a (Nat.le_of_succ_le ha)⟩
      pointed := fun g a hg => Nat.lt_succ_of_lt (hi.pointed g a hg) }

variable {errors : OpenErrors} {rw : OdbRw} {file : ByteMem.File} {sizeofHeader : Nat}

/-- A file is opened on a handle that points nowhere. -/
theorem openFile_inv (hi : t.Inv) (hnone : t.state.handle h = none)
    (hmeets : t.Meets (.openFile h filename errors rw file sizeofHeader)) :
    ∃ t', t.step (.openFile h filename errors rw file sizeofHeader) = some t' ∧ t'.Inv := by
  have hclosed := hi.closed hnone
  rw [step, OdbState.odbOpen]
  rcases hi.chains.findSamplesData_spec filename with ⟨a, data, hdata, -, hfound⟩ | ⟨hnew, hfound⟩
  · rw [hfound]
    dsimp only
    rw [hdata]
    exact ⟨_, rfl, hi.share hclosed hdata⟩
  · rw [hfound]
    dsimp only
    rcases hmeets with hopens | ⟨a, data, hdata, hname⟩
    · rw [hopens]
      dsimp only
      cases Libdb.odbOpen errors rw file sizeofHeader with
      | error err => exact ⟨_, rfl, hi.openFails hnone⟩
      | ok store => exact ⟨_, rfl, hi.openNew hclosed store hnew⟩
    · exact absurd hname (hnew a data hdata)

/-- What `open` fails for is never freed. -/
theorem openFile_leaks (hi : t.Inv) {t' : Tracked H}
    (hmeets : ¬t.Meets (.openFile h filename errors rw file sizeofHeader))
    (hstep : t.step (.openFile h filename errors rw file sizeofHeader) = some t') : ¬t'.Sound := by
  rw [Meets, not_or] at hmeets
  obtain ⟨herr, hnew⟩ := hmeets
  obtain ⟨err, herr⟩ := Option.ne_none_iff_exists'.mp herr
  rw [step, OdbState.odbOpen] at hstep
  rcases hi.chains.findSamplesData_spec filename with ⟨a, data, hdata, hname, -⟩ | ⟨-, hfound⟩
  · exact absurd ⟨a, data, hdata, hname⟩ hnew
  · rw [hfound, herr] at hstep
    dsimp only [Option.map_some] at hstep
    rw [Option.some_inj] at hstep
    subst t'
    intro hs'
    obtain ⟨hcount, hpos⟩ := hs'.counted t.state.next ⟨filename, 1, none⟩ (Function.update_self ..)
    rw [hcount] at hpos
    obtain ⟨g, -, hg⟩ := users_pos_iff.mp hpos
    exact Nat.lt_irrefl _ (hi.pointed g _ hg)

theorem openFile_iff (hi : t.Inv) (horder : t.InOrder (.openFile h filename errors rw file sizeofHeader)) :
    (∃ t', t.step (.openFile h filename errors rw file sizeofHeader) = some t' ∧ t'.Sound) ↔
      t.Meets (.openFile h filename errors rw file sizeofHeader) := by
  constructor
  · rintro ⟨t', hstep, hs'⟩
    by_contra hmeets
    exact openFile_leaks hi hmeets hstep hs'
  · intro hmeets
    obtain ⟨t', hstep, hi'⟩ := openFile_inv hi (hi.openCount_zero horder) hmeets
    exact ⟨t', hstep, hi'.toSound⟩

/-! ### Runs -/

variable {op : HandleOp H} {ops : List (HandleOp H)}

theorem step_iff (hi : t.Inv) (horder : t.InOrder op) : (∃ t', t.step op = some t' ∧ t'.Sound) ↔ t.Meets op := by
  cases op with
  | openCount h => exact openCount_iff hi.toSound
  | openFile h filename errors rw file sizeofHeader => exact openFile_iff hi horder
  | update h change => exact update_iff hi horder
  | close h => exact close_iff hi

theorem step_inv {t' : Tracked H} (hi : t.Inv) (horder : t.InOrder op) (hmeets : t.Meets op)
    (hstep : t.step op = some t') : t'.Inv := by
  cases op with
  | openCount h => exact openCount_inv hi hstep
  | openFile h filename errors rw file sizeofHeader =>
    obtain ⟨t₁, hstep₁, hi₁⟩ := openFile_inv hi (hi.openCount_zero horder) hmeets
    rw [hstep₁, Option.some_inj] at hstep
    rwa [← hstep]
  | update h change => exact update_inv hi hstep
  | close h =>
    obtain ⟨t₁, hstep₁, hi₁⟩ := close_inv hi hmeets
    rw [hstep₁, Option.some_inj] at hstep
    rwa [← hstep]

theorem runsSound_iff (hi : t.Inv) (horder : t.RunsInOrder ops) : t.RunsSound ops ↔ t.RunsMeeting ops := by
  induction ops generalizing t with
  | nil => exact iff_of_true hi.toSound trivial
  | cons op ops ih =>
    rw [RunsSound, RunsMeeting]
    constructor
    · rintro ⟨-, t', hstep, hrest⟩
      have hsound : t'.Sound := by
        cases ops with
        | nil => exact hrest
        | cons op' ops => exact hrest.1
      have hmeets := (step_iff hi horder.1).mp ⟨t', hstep, hsound⟩
      refine ⟨hmeets, ?_⟩
      intro t₁ hstep₁
      obtain rfl : t' = t₁ := Option.some_inj.mp (hstep.symm.trans hstep₁)
      exact (ih (step_inv hi horder.1 hmeets hstep) (horder.2 t' hstep)).mp hrest
    · rintro ⟨hmeets, hrest⟩
      obtain ⟨t', hstep, -⟩ := (step_iff hi horder.1).mpr hmeets
      refine ⟨hi.toSound, t', hstep, ?_⟩
      exact (ih (step_inv hi horder.1 hmeets hstep) (horder.2 t' hstep)).mpr (hrest t' hstep)

/-- In every run in the order of the daemon, the counts stay right and nothing freed is touched just when no call is
made on a handle left behind by its close. -/
theorem referenceCounts_iff (ops : List (HandleOp H)) (horder : (init : Tracked H).RunsInOrder ops) :
    (init : Tracked H).RunsSound ops ↔ (init : Tracked H).RunsMeeting ops :=
  runsSound_iff inv_init horder

/-- Two handles are opened on one new file, as `get_file` does it. -/
def openBoth : List (HandleOp Bool) :=
  [.openCount false, .openFile false [102] .noError .rdwr .empty 0, .openCount true,
    .openFile true [102] .noError .rdwr .empty 0]

theorem openBoth_inOrder {ops : List (HandleOp Bool)} (h : ∀ t : Tracked Bool, t.RunsInOrder ops) :
    (init : Tracked Bool).RunsInOrder (openBoth ++ ops) := by
  refine ⟨trivial, fun t₁ h₁ => ?_⟩
  obtain rfl := Option.some_inj.mp h₁
  refine ⟨rfl, fun t₂ h₂ => ?_⟩
  obtain rfl := Option.some_inj.mp h₂
  refine ⟨trivial, fun t₃ h₃ => ?_⟩
  obtain rfl := Option.some_inj.mp h₃
  exact ⟨rfl, fun t₄ _ => h t₄⟩

/-- One of them is closed, then the other. -/
theorem referenceCounts_closed : (init : Tracked Bool).RunsSound (openBoth ++ [.close true, .close false]) := by
  refine (referenceCounts_iff (openBoth ++ [.close true, .close false]) ?_).mpr ?_
  · exact openBoth_inOrder fun _ => ⟨trivial, fun _ _ => ⟨trivial, fun _ _ => trivial⟩⟩
  · refine ⟨fun hl => absurd rfl hl.2, fun t₁ h₁ => ?_⟩
    obtain rfl := Option.some_inj.mp h₁
    refine ⟨Or.inl rfl, fun t₂ h₂ => ?_⟩
    obtain rfl := Option.some_inj.mp h₂
    refine ⟨fun hl => absurd rfl hl.2, fun t₃ h₃ => ?_⟩
    obtain rfl := Option.some_inj.mp h₃
    refine ⟨Or.inl rfl, fun t₄ h₄ => ?_⟩
    obtain rfl := Option.some_inj.mp h₄
    refine ⟨fun hl => hl.1 (Finset.mem_insert_self ..), fun t₅ h₅ => ?_⟩
    obtain rfl := Option.some_inj.mp h₅
    exact ⟨fun hl => hl.1 (by decide), fun t₆ h₆ => trivial⟩

theorem RunsSound.completes (h : t.RunsSound ops) : ∃ t', t.run ops = some t' := by
  induction ops generalizing t with
  | nil => exact ⟨t, rfl⟩
  | cons op ops ih =>
    obtain ⟨-, t', hstep, hrest⟩ := h
    obtain ⟨t₁, hrun⟩ := ih hrest
    refine ⟨t₁, ?_⟩
    rw [run, List.foldlM_cons, hstep]
    exact hrun

/-- All handles are closed on a signal, and the first is tested at the next sample. -/
theorem referenceCounts_sighup :
    (init : Tracked Bool).RunsInOrder (openBoth ++ [.close false, .close true, .openCount false]) ∧
      ¬(init : Tracked Bool).RunsSound (openBoth ++ [.close false, .close true, .openCount false]) := by
  refine ⟨?_, fun hrun => ?_⟩
  · exact openBoth_inOrder fun _ => ⟨trivial, fun _ _ => ⟨trivial, fun _ _ => ⟨trivial, fun _ _ => trivial⟩⟩⟩
  · obtain ⟨t', ht'⟩ := hrun.completes
    have hstops : (init : Tracked Bool).run (openBoth ++ [.close false, .close true, .openCount false]) = none := rfl
    rw [hstops] at ht'
    cases ht'

end Tracked

end Oprofile.Libdb

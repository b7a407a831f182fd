import Oprofile.Library.Memo
import Oprofile.Daemon.Sfile

/-! The cache of the names of cookies (`opd_cookie.c`) under what the daemon asks it (`opd_mangling.c`, `opd_sfile.c`). -/
namespace Oprofile.Daemon.Cookies

open SampleNames (Text MangleValues MangleFlags mangleAnon opMangleFilename)
open Memo

/-- `struct cookie_entry`, without its value. -/
structure CookieEntry where
  name : Option Text
  ignored : Bool
  deriving DecidableEq

/-- `hashes` -/
abbrev Hashes := Table UInt64 CookieEntry UInt64

/-- What asks the cache. -/
abbrev Asks := Client UInt64 CookieEntry

/-- The two cookies that are none. -/
def isReserved (cookie : UInt64) : Bool := cookie = invalidCookie || cookie = noCookie

/-- `hash_cookie` -/
def hashCookie (cookie : UInt64) : UInt64 := (cookie >>> dcookieShift) &&& 511

/-- `create_cookie`, where the system call that is the `n`th gives a name or fails. -/
def createCookie (o : Options) (lookupDcookie : Nat → UInt64 → Option Text) (n : Nat) (cookie : UInt64) : CookieEntry :=
  match lookupDcookie n cookie with
  | none => ⟨none, false⟩
  | some name => ⟨some name, o.isImageIgnored name⟩

/-- `find_cookie` -/
def findCookie (cookie : UInt64) : Asks (Option Text) :=
  if isReserved cookie then .done none else .ask cookie fun entry => .done entry.name

/-- `is_cookie_ignored` -/
def isCookieIgnored (cookie : UInt64) : Asks Bool :=
  if isReserved cookie then .done true else .ask cookie fun entry => .done entry.ignored

/-- `verbose_cookie`; it makes no entry. -/
def verboseCookie (hashes : Hashes) (cookie : UInt64) : Text :=
  if cookie = invalidCookie then "invalid".toList
  else if cookie = noCookie then "anonymous".toList
  else
    match hashes.kept hashCookie cookie with
    | some entry => entry.name.getD "failed lookup".toList
    | none => "not hashed".toList

/-! The functions of the daemon that ask. -/

/-- `get_dep_name` -/
def getDepName (o : Options) (sf : SampleNames.Sfile) : Asks (Option Text) :=
  if sf.anon.isSome then findCookie sf.appCookie
  else if sf.cookie = sf.appCookie then .done none
  else if ¬ o.separateKernel ∧ ¬ (o.separateLib ∧ sf.kernel.isNone) then .done none
  else if sf.appCookie = 0 then .done none
  else findCookie sf.appCookie

/-- The name by which a side is recorded. -/
def sideName (sf : SampleNames.Sfile) : Asks (Option Text) :=
  match sf.kernel, sf.anon with
  | some kernel, _ => .done (some kernel)
  | none, some anon => .done (some (mangleAnon anon))
  | none, none => findCookie sf.cookie

/-- The values of `mangle_filename` before the names are known. -/
def valuesOf (o : Options) (event : SampleNames.OpdEvent) (last sf : SampleNames.Sfile) (cg : Bool)
    (imageName depName : Text) : MangleValues :=
  { flags :=
      { cpu := o.separateCpu, tgid := o.separateThread, tid := o.separateThread, kernel := sf.kernel.isSome,
        callgraph := cg, anon := sf.isAnonSide, cgAnon := cg && last.isAnonSide }
    imageName, depName
    anonName := if sf.isAnonSide then sf.anon.map (·.name) else none
    cgImageName := none
    eventName := event.name
    count := event.count.toUInt32.toInt32
    unitMask := event.um.toUInt32
    tgid := sf.tgid, tid := sf.tid, cpu := sf.cpu }

/-- `mangle_filename` -/
def mangleFilename (o : Options) (sessionDir : Text) (event : SampleNames.OpdEvent) (last sf : SampleNames.Sfile)
    (cg : Bool) : Asks (Option Text) := do
  let imageName ← sideName sf
  let depName ← getDepName o sf
  match imageName with
  | none => return none
  | some imageName =>
    let values := valuesOf o event last sf cg imageName (depName.getD imageName)
    if cg then
      match ← sideName last with
      | none => return none
      | some cgImageName =>
        return some (opMangleFilename sessionDir { values with
          cgImageName := some cgImageName
          anonName := if last.isAnonSide then last.anon.map (·.name) else values.anonName })
    else return some (opMangleFilename sessionDir values)

/-- `is_sf_ignored`, from the name of the kernel image. -/
def isSfIgnored (o : Options) (kernel : Option Text) (anon : Option Nat) (cookie appCookie : UInt64) : Asks Bool :=
  match kernel with
  | some name => if o.isImageIgnored name then isCookieIgnored appCookie else .done false
  | none => do
    if anon.isSome then isCookieIgnored appCookie
    else
      if ← isCookieIgnored cookie then isCookieIgnored appCookie else return false

/-- What the daemon asks in the course of a run. -/
inductive Question
  | mangleFilename (sessionDir : Text) (event : SampleNames.OpdEvent) (last sf : SampleNames.Sfile) (cg : Bool)
  | isSfIgnored (kernel : Option Text) (anon : Option Nat) (cookie appCookie : UInt64)
  | findCookie (cookie : UInt64)
  | verboseCookie (cookie : UInt64)

inductive Answer
  | name (name : Option Text)
  | ignored (ignored : Bool)
  | text (text : Text)
  deriving DecidableEq

/-- A question put to the cache, unless it only looks. -/
def Question.asks (o : Options) : Question → Asks Answer
  | .mangleFilename sessionDir event last sf cg => .name <$> Cookies.mangleFilename o sessionDir event last sf cg
  | .isSfIgnored kernel anon cookie appCookie => .ignored <$> Cookies.isSfIgnored o kernel anon cookie appCookie
  | .findCookie cookie => .name <$> Cookies.findCookie cookie
  | .verboseCookie _ => .done (.text [])

/-- The answer, with the cache after it. -/
def answer (o : Options) (lookupDcookie : Nat → UInt64 → Option Text) (hashes : Hashes) : Question → Answer × Hashes
  | .verboseCookie cookie => (.text (Cookies.verboseCookie hashes cookie), hashes)
  | question => Table.run hashCookie (createCookie o lookupDcookie) (question.asks o) hashes

/-- The answers of a run. -/
def answers (o : Options) (lookupDcookie : Nat → UInt64 → Option Text) : List Question → Hashes → List Answer × Hashes
  | [], hashes => ([], hashes)
  | question :: questions, hashes =>
    let first := answer o lookupDcookie hashes question
    let rest := answers o lookupDcookie questions first.2
    (first.1 :: rest.1, rest.2)

/-! The same with one naming of the cookies. -/

variable (names : UInt64 → Option Text)

/-- The options of a daemon whose cookies have these names. -/
def named (o : Options) : Options :=
  { o with
    findCookie := fun cookie => if isReserved cookie then none else names cookie
    isCookieIgnored := fun cookie => if isReserved cookie then true else (names cookie).any o.isImageIgnored }

/-- The entry of a cookie with its name. -/
def entryOf (o : Options) (cookie : UInt64) : CookieEntry := ⟨names cookie, (names cookie).any o.isImageIgnored⟩

/-- The cookies that a question is about. -/
def Question.cookies (o : Options) (question : Question) : List UInt64 := (question.asks o).keys (entryOf names o)

/-- The answer without a cache, when some cookies have been asked for. -/
def plainAnswer (o : Options) (asked : List UInt64) : Question → Answer
  | .mangleFilename sessionDir event last sf cg =>
    .name (SampleNames.mangleFilename (named names o).toDaemon sessionDir event last sf cg)
  | .isSfIgnored kernel anon cookie appCookie => .ignored (Daemon.isSfIgnored (named names o) kernel anon cookie appCookie)
  | .findCookie cookie => .name ((named names o).findCookie cookie)
  | .verboseCookie cookie => .text <|
    if cookie = invalidCookie then "invalid".toList
    else if cookie = noCookie then "anonymous".toList
    else if cookie ∈ asked then (names cookie).getD "failed lookup".toList
    else "not hashed".toList

def plainAnswers (o : Options) : List Question → List UInt64 → List Answer
  | [], _ => []
  | question :: questions, asked =>
    plainAnswer names o asked question :: plainAnswers o questions (asked ++ question.cookies names o)

section

variable {names} {o : Options} {cookie : UInt64}

@[simp] theorem eval_findCookie : (findCookie cookie).eval (entryOf names o) = (named names o).findCookie cookie := by
  rw [findCookie, Client.eval_ite]
  rfl

@[simp] theorem eval_isCookieIgnored :
    (isCookieIgnored cookie).eval (entryOf names o) = (named names o).isCookieIgnored cookie := by
  rw [isCookieIgnored, Client.eval_ite]
  rfl

theorem eval_getDepName (sf : SampleNames.Sfile) :
    (getDepName o sf).eval (entryOf names o) = SampleNames.getDepName (named names o).toDaemon sf := by
  simp only [getDepName, Client.eval_ite, eval_findCookie, Client.eval_done, SampleNames.getDepName]
  rfl

theorem eval_sideName (sf : SampleNames.Sfile) :
    (sideName sf).eval (entryOf names o) = SampleNames.sideName (named names o).toDaemon sf := by
  unfold sideName SampleNames.sideName
  cases sf.kernel with
  | some kernel => rfl
  | none =>
    cases sf.anon with
    | some anon => rfl
    | none => exact eval_findCookie

theorem eval_mangleFilename (sessionDir : Text) (event : SampleNames.OpdEvent) (last sf : SampleNames.Sfile) (cg : Bool) :
    (mangleFilename o sessionDir event last sf cg).eval (entryOf names o) =
      SampleNames.mangleFilename (named names o).toDaemon sessionDir event last sf cg := by
  rw [mangleFilename, Client.eval_bind, Client.eval_bind, eval_sideName, eval_getDepName, SampleNames.mangleFilename,
    SampleNames.mangleValues]
  cases hname : SampleNames.sideName (named names o).toDaemon sf with
  | none => rfl
  | some imageName =>
    simp only [Option.bind_eq_bind, Option.bind_some]
    cases cg with
    | false => rfl
    | true =>
      simp only [if_true, Client.eval_bind, eval_sideName]
      cases SampleNames.sideName (named names o).toDaemon last <;> rfl

theorem eval_isSfIgnored (kernel : Option Text) (anon : Option Nat) (cookie appCookie : UInt64) :
    (isSfIgnored o kernel anon cookie appCookie).eval (entryOf names o) =
      Daemon.isSfIgnored (named names o) kernel anon cookie appCookie := by
  cases kernel with
  | some name =>
    simp only [isSfIgnored, Daemon.isSfIgnored, Client.eval_ite, eval_isCookieIgnored, Client.eval_done]
    rfl
  | none =>
    cases anon with
    | some anon => simp [isSfIgnored, Daemon.isSfIgnored]
    | none => simp [isSfIgnored, Daemon.isSfIgnored]

/-- What is asked of the table is answered as without one. -/
theorem eval_asks (asked : List UInt64) {question : Question} (hlooks : ∀ cookie, question ≠ .verboseCookie cookie) :
    (question.asks o).eval (entryOf names o) = plainAnswer names o asked question := by
  cases question with
  | mangleFilename sessionDir event last sf cg =>
    exact (Client.eval_map _ _).trans (congrArg Answer.name (eval_mangleFilename sessionDir event last sf cg))
  | isSfIgnored kernel anon cookie appCookie =>
    exact (Client.eval_map _ _).trans (congrArg Answer.ignored (eval_isSfIgnored kernel anon cookie appCookie))
  | findCookie cookie => exact (Client.eval_map _ _).trans (congrArg Answer.name eval_findCookie)
  | verboseCookie cookie => exact absurd rfl (hlooks cookie)

end

/-- What the daemon has looked up in the end: each cookie that a question was about, once, and none of the reserved
ones; its name is what the system call said then. -/
structure LookedUpOnce (lookupDcookie : Nat → UInt64 → Option Text) (asked computed : List UInt64) : Prop where
  once : computed.Nodup
  needed : ∀ cookie, cookie ∈ computed ↔ cookie ∈ asked
  real : ∀ cookie ∈ computed, cookie ≠ noCookie ∧ cookie ≠ invalidCookie
  first : ∀ i cookie, computed[i]? = some cookie → names cookie = lookupDcookie i cookie

section

variable {names} {o : Options} {lookupDcookie : Nat → UInt64 → Option Text} {hashes hashes' : Hashes}
  {question : Question} {questions : List Question}

/-- The names of a table. -/
def Agrees (names : UInt64 → Option Text) (o : Options) (hashes : Hashes) : Prop :=
  ∀ cookie entry, hashes.kept hashCookie cookie = some entry → entryOf names o cookie = entry

theorem sound_answer (h : Table.Sound hashCookie (createCookie o lookupDcookie) hashes) :
    Table.Sound hashCookie (createCookie o lookupDcookie) (answer o lookupDcookie hashes question).2 := by
  cases question with
  | verboseCookie cookie => exact h
  | mangleFilename | isSfIgnored | findCookie => exact h.run _

theorem extends_answer : Table.Extends hashCookie hashes (answer o lookupDcookie hashes question).2 := by
  cases question with
  | verboseCookie cookie => exact .refl hashes
  | mangleFilename | isSfIgnored | findCookie => exact Table.extends_run _

theorem extends_answers (questions : List Question) (hashes : Hashes) :
    Table.Extends hashCookie hashes (answers o lookupDcookie questions hashes).2 := by
  induction questions generalizing hashes with
  | nil => exact .refl hashes
  | cons question questions ih => exact extends_answer.trans (ih _)

theorem sound_answers (h : Table.Sound hashCookie (createCookie o lookupDcookie) hashes) :
    Table.Sound hashCookie (createCookie o lookupDcookie) (answers o lookupDcookie questions hashes).2 := by
  induction questions generalizing hashes with
  | nil => exact h
  | cons question questions ih => exact ih (sound_answer h)

/-- One question. -/
theorem answer_eq {asked : List UInt64} (h : Table.Sound hashCookie (createCookie o lookupDcookie) hashes)
    (hasked : ∀ cookie, cookie ∈ hashes.computed ↔ cookie ∈ asked)
    (hnames : Agrees names o (answer o lookupDcookie hashes question).2) :
    (answer o lookupDcookie hashes question).1 = plainAnswer names o asked question ∧
      ∀ cookie, cookie ∈ (answer o lookupDcookie hashes question).2.computed ↔
        cookie ∈ asked ++ question.cookies names o := by
  have hask : (∀ cookie, question ≠ .verboseCookie cookie) →
      answer o lookupDcookie hashes question =
        Table.run hashCookie (createCookie o lookupDcookie) (question.asks o) hashes := by
    intro hlooks
    cases question with
    | verboseCookie cookie => exact absurd rfl (hlooks cookie)
    | mangleFilename | isSfIgnored | findCookie => rfl
  by_cases hlooks : ∀ cookie, question ≠ .verboseCookie cookie
  · rw [hask hlooks] at hnames ⊢
    refine ⟨(Table.run_eval _ hnames).trans (eval_asks asked hlooks), ?_⟩
    intro cookie
    rw [Table.mem_computed_run h _ hnames, hasked, List.mem_append, or_comm]
    rfl
  · push Not at hlooks
    obtain ⟨cookie, rfl⟩ := hlooks
    refine ⟨?_, fun c => by simp [answer, hasked, Question.cookies, Question.asks]⟩
    have hkept : (hashes.kept hashCookie cookie).isSome ↔ cookie ∈ asked := (h.kept_iff cookie).trans (hasked cookie)
    simp only [answer, plainAnswer, verboseCookie]
    cases hentry : hashes.kept hashCookie cookie with
    | none =>
      rw [hentry] at hkept
      have hnot : cookie ∉ asked := fun hmem => by simpa using hkept.mpr hmem
      rw [if_neg hnot]
    | some entry =>
      rw [hentry] at hkept
      rw [if_pos (hkept.mp rfl), ← hnames cookie entry hentry]
      rfl

theorem answers_eq {asked : List UInt64} (h : Table.Sound hashCookie (createCookie o lookupDcookie) hashes)
    (hasked : ∀ cookie, cookie ∈ hashes.computed ↔ cookie ∈ asked)
    (hnames : Agrees names o (answers o lookupDcookie questions hashes).2) :
    (answers o lookupDcookie questions hashes).1 = plainAnswers names o questions asked ∧
      ∀ cookie, cookie ∈ (answers o lookupDcookie questions hashes).2.computed ↔
        cookie ∈ asked ++ questions.flatMap (Question.cookies names o) := by
  induction questions generalizing hashes asked with
  | nil => exact ⟨rfl, fun cookie => by simpa [answers] using hasked cookie⟩
  | cons question questions ih =>
    have hfirst : Agrees names o (answer o lookupDcookie hashes question).2 :=
      fun cookie entry he => hnames cookie entry (extends_answers questions _ cookie entry he)
    obtain ⟨hanswer, hmem⟩ := answer_eq h hasked hfirst
    obtain ⟨hrest, hall⟩ := ih (sound_answer h) hmem hnames
    refine ⟨?_, fun cookie => ?_⟩
    · rw [answers, plainAnswers, hanswer, hrest]
    · rw [List.flatMap_cons, ← List.append_assoc]
      exact hall cookie

theorem keys_findCookie {f : UInt64 → CookieEntry} {cookie c : UInt64} (h : c ∈ (findCookie cookie).keys f) :
    isReserved c = false := by
  rw [findCookie, Client.keys_ite] at h
  split at h
  · cases h
  · rename_i hreal
    obtain rfl := List.mem_singleton.mp h
    exact Bool.eq_false_iff.mpr hreal

theorem keys_isCookieIgnored {f : UInt64 → CookieEntry} {cookie c : UInt64} (h : c ∈ (isCookieIgnored cookie).keys f) :
    isReserved c = false := by
  rw [isCookieIgnored, Client.keys_ite] at h
  split at h
  · cases h
  · rename_i hreal
    obtain rfl := List.mem_singleton.mp h
    exact Bool.eq_false_iff.mpr hreal

theorem keys_sideName {f : UInt64 → CookieEntry} {sf : SampleNames.Sfile} {c : UInt64} (h : c ∈ (sideName sf).keys f) :
    isReserved c = false := by
  unfold sideName at h
  split at h
  · cases h
  · cases h
  · exact keys_findCookie h

theorem keys_getDepName {f : UInt64 → CookieEntry} {sf : SampleNames.Sfile} {c : UInt64}
    (h : c ∈ (getDepName o sf).keys f) : isReserved c = false := by
  unfold getDepName at h
  split_ifs at h
  · exact keys_findCookie h
  · cases h
  · cases h
  · cases h
  · exact keys_findCookie h

/-- No question is about a reserved cookie. -/
theorem cookies_real {c : UInt64} (h : c ∈ question.cookies names o) : isReserved c = false := by
  cases question with
  | verboseCookie cookie => cases h
  | findCookie cookie =>
    rw [Question.cookies, Question.asks, Client.keys_map] at h
    exact keys_findCookie h
  | isSfIgnored kernel anon cookie appCookie =>
    rw [Question.cookies, Question.asks, Client.keys_map] at h
    unfold isSfIgnored at h
    cases kernel with
    | some name =>
      dsimp only at h
      split at h
      · exact keys_isCookieIgnored h
      · cases h
    | none =>
      dsimp only at h
      split at h
      · exact keys_isCookieIgnored h
      · rw [Client.keys_bind, List.mem_append] at h
        rcases h with h | h
        · exact keys_isCookieIgnored h
        · split at h
          · exact keys_isCookieIgnored h
          · cases h
  | mangleFilename sessionDir event last sf cg =>
    rw [Question.cookies, Question.asks, Client.keys_map, mangleFilename, Client.keys_bind, Client.keys_bind,
      List.mem_append, List.mem_append] at h
    rcases h with h | h | h
    · exact keys_sideName h
    · exact keys_getDepName h
    · split at h
      · cases h
      · split at h
        · rw [Client.keys_bind, List.mem_append] at h
          rcases h with h | h
          · exact keys_sideName h
          · split at h <;> cases h
        · cases h

end

/-- All answers of a run are those of one naming of the cookies, whatever the system call says when; each cookie is
looked up once. -/
theorem cookies_have_one_name (o : Options) (lookupDcookie : Nat → UInt64 → Option Text) (questions : List Question) :
    ∃ names : UInt64 → Option Text,
      (answers o lookupDcookie questions Table.empty).1 = plainAnswers names o questions [] ∧
      LookedUpOnce names lookupDcookie (questions.flatMap (Question.cookies names o))
        (answers o lookupDcookie questions Table.empty).2.computed := by
  have hsound : Table.Sound hashCookie (createCookie o lookupDcookie)
      (answers o lookupDcookie questions Table.empty).2 := sound_answers Table.sound_empty
  -- a cookie is named by what is kept for it in the end
  let names : UInt64 → Option Text := fun cookie =>
    ((answers o lookupDcookie questions Table.empty).2.kept hashCookie cookie).bind CookieEntry.name
  have hcomputed : ∀ cookie entry,
      (answers o lookupDcookie questions Table.empty).2.kept hashCookie cookie = some entry →
      ∃ i, (answers o lookupDcookie questions Table.empty).2.computed[i]? = some cookie ∧
        createCookie o lookupDcookie i cookie = entry := by
    intro cookie entry hentry
    have hmem := (hsound.kept_iff cookie).mp (by rw [hentry]; rfl)
    obtain ⟨i, hi⟩ := List.getElem?_of_mem hmem
    exact ⟨i, hi, Option.some.inj ((hsound.answer i cookie hi).symm.trans hentry)⟩
  have hagrees : Agrees names o (answers o lookupDcookie questions Table.empty).2 := by
    intro cookie entry hentry
    obtain ⟨i, -, rfl⟩ := hcomputed cookie entry hentry
    have hname : names cookie = (createCookie o lookupDcookie i cookie).name := by
      simp only [names, hentry, Option.bind_some]
    rw [entryOf, hname, createCookie]
    cases lookupDcookie i cookie <;> rfl
  have hnone : ∀ cookie, cookie ∈ (Table.empty : Hashes).computed ↔ cookie ∈ ([] : List UInt64) := fun _ => Iff.rfl
  obtain ⟨hanswers, hasked⟩ := answers_eq Table.sound_empty hnone hagrees
  refine ⟨names, hanswers, hsound.once, fun cookie => by simpa using hasked cookie, ?_, ?_⟩
  · intro cookie hmem
    obtain ⟨question, -, hc⟩ := List.mem_flatMap.mp (by simpa using (hasked cookie).mp hmem)
    have hreal := cookies_real hc
    simp only [isReserved, Bool.or_eq_false_iff, decide_eq_false_iff_not] at hreal
    exact ⟨hreal.2, hreal.1⟩
  · intro i cookie hi
    have hname : names cookie = (createCookie o lookupDcookie i cookie).name := by
      simp only [names, hsound.answer i cookie hi, Option.bind_some]
    rw [hname, createCookie]
    cases lookupDcookie i cookie <;> rfl

end Oprofile.Daemon.Cookies

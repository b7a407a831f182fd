import Oprofile.Daemon.Sfile
import Mathlib.Data.List.Nodup
import Mathlib.Tactic.Common

/-! What tells the sfiles of a table apart. -/
namespace Oprofile.Daemon

/-- The fields that the flags select. -/
structure SfileKey where
  kernel : Option Nat
  thread : Option (Int32 × Int32)
  cpu : Option UInt32
  app : Option UInt64
  image : Option (Option Nat × UInt64)
  deriving DecidableEq

def selected (o : Options) (ki anon : Option Nat) (cookie appCookie : UInt64) (tgid tid : Int32)
    (cpu : UInt32) : SfileKey where
  kernel := ki
  thread := if o.separateThread then some (tid, tgid) else none
  cpu := if o.separateCpu then some cpu else none
  app := if separatesApp o anon ki then some appCookie else none
  image := if ki.isSome then none else some (anon, cookie)

/-- The selected fields of a transient whose sample lies in the kernel image `ki`, if in any. -/
def Transient.key (o : Options) (t : Transient) (ki : Option Nat) : SfileKey :=
  selected o ki t.anon t.cookie t.appCookie t.tgid t.tid t.cpu.toUInt32

def SfileFields.key (o : Options) (sf : SfileFields) : SfileKey :=
  selected o sf.kernel sf.anon sf.cookie sf.appCookie sf.tgid sf.tid sf.cpu

section

variable {o : Options} {anons : Nat → Option AnonMapping} {t t' : Transient} {sf : SfileFields}
  {tbl : SfileTable}

theorem separatesApp_kernel (o : Options) (anon anon' : Option Nat) (k : Nat) :
    separatesApp o anon (some k) = separatesApp o anon' (some k) := by
  simp [separatesApp]

/-- A field is compared when its flag is set. -/
theorem select_eq_iff {α : Type} (c : Bool) (x y : α) :
    ((if c then some x else none) = if c then some y else none) ↔ (c = true → x = y) := by
  cases c <;> simp

theorem select_pair_iff {α β : Type} (c : Bool) (x x' : α) (y y' : β) :
    ((if c then some (x, y) else none) = if c then some (x', y') else none) ↔
      ¬ (c = true ∧ (x ≠ x' ∨ y ≠ y')) := by
  rw [select_eq_iff, Prod.mk.injEq]
  constructor
  · rintro h ⟨hc, hne⟩
    rcases hne with hne | hne
    · exact hne (h hc).1
    · exact hne (h hc).2
  · intro h hc
    by_contra hne
    rcases not_and_or.mp hne with hx | hy
    · exact h ⟨hc, Or.inl hx⟩
    · exact h ⟨hc, Or.inr hy⟩

theorem select_ne_iff {α : Type} (c : Bool) (x y : α) :
    ((if c then some x else none) = if c then some y else none) ↔ ¬ (c = true ∧ x ≠ y) := by
  rw [select_eq_iff, not_and, not_not]

/-- `do_match` finds no difference exactly when the selected fields agree. -/
theorem doMatch_iff {cookie appCookie : UInt64} {ki anon : Option Nat} {tgid tid : Int32}
    {cpu : UInt32} : doMatch o sf cookie appCookie ki anon tgid tid cpu = true ↔
      sf.key o = selected o ki anon cookie appCookie tgid tid cpu := by
  simp only [SfileFields.key, selected, SfileKey.mk.injEq]
  constructor
  · intro h
    rw [doMatch] at h
    split_ifs at h with hk ht hc ha hki hanon
    · obtain rfl := not_not.mp hk
      obtain ⟨k, hk⟩ := Option.isSome_iff_exists.mp hki
      refine ⟨rfl, (select_pair_iff ..).mpr ht, (select_ne_iff ..).mpr hc, ?_,
        by rw [if_pos hki, if_pos hki]⟩
      rw [hk] at ha ⊢
      rw [separatesApp_kernel o sf.anon anon k]
      exact (select_ne_iff ..).mpr ha
    · obtain rfl := not_not.mp hk
      obtain rfl := not_not.mp hanon
      refine ⟨rfl, (select_pair_iff ..).mpr ht, (select_ne_iff ..).mpr hc,
        (select_ne_iff ..).mpr ha, ?_⟩
      rw [of_decide_eq_true h]
  · rintro ⟨rfl, ht, hc, ha, himage⟩
    rw [doMatch, if_neg (not_not.mpr rfl), if_neg ((select_pair_iff ..).mp ht),
      if_neg ((select_ne_iff ..).mp hc)]
    by_cases hki : sf.kernel.isSome = true
    · obtain ⟨k, hk⟩ := Option.isSome_iff_exists.mp hki
      rw [hk] at ha ⊢
      rw [separatesApp_kernel o sf.anon anon k] at ha
      rw [if_neg ((select_ne_iff ..).mp ha)]
      rfl
    · rw [if_neg hki, if_neg hki, Option.some_inj, Prod.mk.injEq] at himage
      obtain ⟨rfl, rfl⟩ := himage
      rw [if_neg ((select_ne_iff ..).mp ha), if_neg hki, if_neg (not_not.mpr rfl)]
      exact decide_eq_true rfl

theorem transMatch_iff {ki : Option Nat} : transMatch o t sf ki = true ↔ sf.key o = t.key o ki :=
  doMatch_iff

/-- A new sfile matches the transient it is made for. -/
theorem createSfile_key {addr : Nat} {hash : UInt64} {ki : Option (Nat × KernelImage)}
    (hoff : t.embeddedOffset = unusedEmbeddedOffset) (huser : ki = none → t.inKernel = 0) :
    (createSfile o t addr hash ki).key o = t.key o (ki.map Prod.fst) := by
  simp only [SfileFields.key, Transient.key, selected, createSfile, SfileKey.mk.injEq, hoff,
    ne_eq, not_true_eq_false, if_false, true_and]
  refine ⟨?_, ?_, ?_, ?_⟩
  · rw [select_eq_iff]
    intro hc
    rw [if_pos hc, if_pos (Or.inl hc)]
  · rw [select_eq_iff]
    intro hc
    rw [if_pos hc]
  · rw [select_eq_iff]
    intro hc
    rw [if_pos hc]
  · cases ki with
    | some ki => rfl
    | none =>
      rw [huser rfl]
      rfl

end

end Oprofile.Daemon

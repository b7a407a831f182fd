import Oprofile.Operf.Sfile
import Mathlib.Data.List.Nodup

/-! `operf_sfile_find` as a lookup by key. -/
namespace Oprofile.Operf

/-- What `do_match` compares. -/
structure FileKey where
  kernel : Option Nat
  tid : UInt32
  tgid : UInt32
  isAnon : Bool
  appLen : Nat
  imageLen : Nat
  cpu : Option UInt32
  imageName : Option CString
  deriving DecidableEq

def fileKey (separateCpu : Bool) (ki : Option (Nat × KernelImage)) (isAnon : Bool)
    (imageName : CString) (appLen : Nat) (tgid tid cpu : UInt32) : FileKey where
  kernel := ki.map Prod.fst
  tid := tid
  tgid := tgid
  isAnon := isAnon
  appLen := appLen
  imageLen := imageName.length
  cpu := if separateCpu then some cpu else none
  imageName := if ki.isSome then none else some imageName

def OperfSfile.key (separateCpu : Bool) (sf : OperfSfile) : FileKey :=
  fileKey separateCpu sf.kernel sf.isAnon sf.imageName sf.appLen sf.tgid sf.tid sf.cpu

variable {separateCpu : Bool} {sf : OperfSfile} {sfs : Sfiles} {ki : Option (Nat × KernelImage)}
  {isAnon : Bool} {imageName : CString} {imageLen appLen : Nat} {tgid tid cpu : UInt32}
  {trans : OperfTransient}

theorem isSome_of_fst_eq {a b : Option (Nat × KernelImage)} (h : a.map Prod.fst = b.map Prod.fst) :
    a.isSome = b.isSome := by
  rw [← Option.isSome_map (f := Prod.fst), h, Option.isSome_map]

theorem cpu_iff (separateCpu : Bool) (c c' : UInt32) :
    ¬ (separateCpu = true ∧ c ≠ c') ↔
      (if separateCpu then some c else none) = (if separateCpu then some c' else none) := by
  cases separateCpu <;> simp

/-- Names of one length are compared whole. -/
theorem doMatch_iff (hsf : sf.imageLen = sf.imageName.length) (hlen : imageLen = imageName.length) :
    doMatch separateCpu sf ki isAnon imageName imageLen appLen tgid tid cpu = true ↔
      sf.key separateCpu = fileKey separateCpu ki isAnon imageName appLen tgid tid cpu := by
  simp only [doMatch, OperfSfile.key, fileKey, FileKey.mk.injEq, hsf, hlen]
  constructor
  · intro h
    split_ifs at h with hk ht ha hl hc hki
    · simp only [not_or, not_not] at hk ht ha hl
      refine ⟨hk, ht.1, ht.2, ha, hl.1, hl.2, (cpu_iff _ _ _).mp hc, ?_⟩
      rw [isSome_of_fst_eq hk, if_pos hki, if_pos hki]
    · simp only [not_or, not_not] at hk ht ha hl
      refine ⟨hk, ht.1, ht.2, ha, hl.1, hl.2, (cpu_iff _ _ _).mp hc, ?_⟩
      rw [isSome_of_fst_eq hk, if_neg hki, if_neg hki, Option.some_inj]
      rw [hl.2, Nat.min_self, List.take_length, beq_iff_eq, ← hl.2, List.take_length] at h
      exact h
  · rintro ⟨hk, ht, htg, ha, hal, hil, hc, hn⟩
    rw [if_neg (not_not.mpr hk), if_neg (not_or.mpr ⟨not_not.mpr ht, not_not.mpr htg⟩),
      if_neg (not_not.mpr ha), if_neg (not_or.mpr ⟨not_not.mpr hal, not_not.mpr hil⟩),
      if_neg ((cpu_iff _ _ _).mpr hc)]
    rw [isSome_of_fst_eq hk] at hn
    split_ifs at hn ⊢ with hki
    · rfl
    · rw [Option.some_inj] at hn
      rw [hn, beq_iff_eq]

/-- The hash lists hold no two files that a lookup cannot tell apart. -/
structure SfilesOk (separateCpu : Bool) (sfs : Sfiles) : Prop where
  lens : ∀ sf ∈ sfs.hashes, sf.imageLen = sf.imageName.length
  fresh : ∀ sf ∈ sfs.hashes, sf.id < sfs.nextSfile
  distinct : (sfs.hashes.map fun sf => (sf.hashval, sf.key separateCpu)).Nodup

theorem sfilesOk_nil (separateCpu : Bool) : SfilesOk separateCpu { hashes := [], nextSfile := 0 } :=
  ⟨by simp, by simp, List.nodup_nil⟩

/-- Closing files leaves the rest as they are. -/
theorem SfilesOk.filter (h : SfilesOk separateCpu sfs) (keep : OperfSfile → Bool) :
    SfilesOk separateCpu { sfs with hashes := sfs.hashes.filter keep } where
  lens := fun sf hsf => h.lens sf (List.mem_filter.mp hsf).1
  fresh := fun sf hsf => h.fresh sf (List.mem_filter.mp hsf).1
  distinct := h.distinct.sublist ((List.filter_sublist).map _)

/-- The bucket of a transient. -/
def transHash (separateCpu : Bool) (trans : OperfTransient) (imageName : CString)
    (ki : Option (Nat × KernelImage)) : UInt64 :=
  sfileHash separateCpu trans.tgid trans.cpu trans.isAnon trans.startAddr trans.endAddr
    trans.appFilename imageName (ki.map Prod.snd)

/-- The key of a transient. -/
def transKey (separateCpu : Bool) (trans : OperfTransient) (imageName : CString)
    (ki : Option (Nat × KernelImage)) : FileKey :=
  fileKey separateCpu ki trans.isAnon imageName trans.appLen trans.tgid trans.tid trans.cpu

/-- A file of the right bucket and key is returned, or there is none and one is made. -/
theorem sfileFind_cases (ki : Option (Nat × KernelImage)) (h : SfilesOk separateCpu sfs) (hlen : trans.imageLen = imageName.length) :
    (∃ sf ∈ sfs.hashes, sf.hashval = transHash separateCpu trans imageName ki ∧
      sf.key separateCpu = transKey separateCpu trans imageName ki ∧
      sfileFind separateCpu sfs trans imageName ki = (sf, sfs)) ∨
    ((∀ sf ∈ sfs.hashes, sf.hashval = transHash separateCpu trans imageName ki →
        sf.key separateCpu ≠ transKey separateCpu trans imageName ki) ∧
      sfileFind separateCpu sfs trans imageName ki =
        (createSfile separateCpu sfs.nextSfile (transHash separateCpu trans imageName ki) trans imageName ki,
          { hashes := createSfile separateCpu sfs.nextSfile (transHash separateCpu trans imageName ki)
              trans imageName ki :: sfs.hashes
            nextSfile := sfs.nextSfile + 1 })) := by
  cases hfind : (sfs.hashes.filter (·.hashval = transHash separateCpu trans imageName ki)).find? fun sf =>
      doMatch separateCpu sf ki trans.isAnon imageName trans.imageLen trans.appLen trans.tgid trans.tid
        trans.cpu with
  | some sf =>
    have hmem := List.mem_filter.mp (List.mem_of_find?_eq_some hfind)
    have hmatch := List.find?_some hfind
    rw [doMatch_iff (h.lens sf hmem.1) hlen] at hmatch
    refine Or.inl ⟨sf, hmem.1, of_decide_eq_true hmem.2, hmatch, ?_⟩
    rw [transHash] at hfind
    simp only [sfileFind, hfind]
  | none =>
    have hno := List.find?_eq_none.mp hfind
    refine Or.inr ⟨fun sf hmem hhash hkey => ?_, ?_⟩
    · refine hno sf (List.mem_filter.mpr ⟨hmem, decide_eq_true hhash⟩) ?_
      exact (doMatch_iff (h.lens sf hmem) hlen).mpr hkey
    · rw [transHash] at hfind
      simp only [sfileFind, hfind, transHash]

theorem createSfile_key (id : Nat) (hash : UInt64) :
    (createSfile separateCpu id hash trans imageName ki).key separateCpu =
      transKey separateCpu trans imageName ki := by
  cases separateCpu <;> rfl

/-- What a lookup returns is in the table, with the key and in the bucket asked for. -/
theorem sfileFind_spec (ki : Option (Nat × KernelImage)) (h : SfilesOk separateCpu sfs) (hlen : trans.imageLen = imageName.length) :
    SfilesOk separateCpu (sfileFind separateCpu sfs trans imageName ki).2 ∧
    (sfileFind separateCpu sfs trans imageName ki).1 ∈
      (sfileFind separateCpu sfs trans imageName ki).2.hashes ∧
    (sfileFind separateCpu sfs trans imageName ki).1.key separateCpu =
      transKey separateCpu trans imageName ki := by
  rcases sfileFind_cases ki h hlen with ⟨sf, hmem, -, hkey, heq⟩ | ⟨hnone, heq⟩
  · rw [heq]
    exact ⟨h, hmem, hkey⟩
  · rw [heq]
    refine ⟨⟨?_, ?_, ?_⟩, List.mem_cons_self, createSfile_key _ _⟩
    · rintro sf (_ | ⟨_, hmem⟩)
      · exact hlen
      · exact h.lens sf hmem
    · rintro sf (_ | ⟨_, hmem⟩)
      · exact Nat.lt_succ_self _
      · exact Nat.lt_succ_of_lt (h.fresh sf hmem)
    · refine List.nodup_cons.mpr ⟨fun hmem => ?_, h.distinct⟩
      obtain ⟨sf, hsf, heq⟩ := List.mem_map.mp hmem
      simp only [createSfile_key, Prod.mk.injEq] at heq
      exact hnone sf hsf heq.1 heq.2

/-- A lookup returns a given file of the table exactly when it asks for its bucket and key. -/
theorem sfileFind_eq_iff (h : SfilesOk separateCpu sfs) (hlen : trans.imageLen = imageName.length)
    (hsf : sf ∈ sfs.hashes) :
    (sfileFind separateCpu sfs trans imageName ki).1 = sf ↔
      transHash separateCpu trans imageName ki = sf.hashval ∧
        transKey separateCpu trans imageName ki = sf.key separateCpu := by
  rcases sfileFind_cases ki h hlen with ⟨sf', hmem, hhash, hkey, heq⟩ | ⟨hnone, heq⟩
  · rw [heq]
    constructor
    · rintro rfl
      exact ⟨hhash.symm, hkey.symm⟩
    · rintro ⟨hhash', hkey'⟩
      refine List.inj_on_of_nodup_map h.distinct hmem hsf ?_
      rw [hhash, hkey, hhash', hkey']
  · rw [heq]
    constructor
    · intro hnew
      have hid := h.fresh sf hsf
      rw [← hnew] at hid
      exact absurd hid (Nat.lt_irrefl _)
    · rintro ⟨hhash, hkey⟩
      exact (hnone sf hsf hhash.symm hkey.symm).elim

end Oprofile.Operf

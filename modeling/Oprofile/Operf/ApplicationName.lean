import Oprofile.Operf.Events
import Oprofile.Operf.ProcessNames

/-! The application name that a process gets from its COMM record and its mappings, when the link to its executable is
gone. -/
namespace Oprofile.Operf.ApplicationName

open ProcessInfo

/-- A process that is not forked, with its mappings by their start. -/
structure Process where
  info : ProcessInfo
  mmappings : List (UInt64 × OperfMmap)

/-- The members of a new `operf_process_info`. -/
def freshInfo (tgid : UInt32) (isValid : Bool) : ProcessInfo where
  pid := tgid
  appname := []
  valid := isValid
  appnameValid := false
  lookForAppnameMatch := false
  forked := false
  appnameIsFullname := .notFullname
  appBasename := []
  numAppCharsMatched := -1
  mmappings := []
  mmappingsFromParent := fun _ => false
  forkedProcesses := []
  parentOfFork := none

/-- The constructor, for a process whose name nobody knows in full. -/
def newProcess (tgid : UInt32) (appname : Option CString) (isValid : Bool) : Process where
  info := (freshInfo tgid isValid).setAppname none [] appname false
  mmappings := []

/-- `process_mapping`, for an MMAP record. -/
def receiveMmap (s : Process) (m : OperfMmap) : Process where
  info :=
    if !s.info.appnameValid && !s.info.forked then
      if s.info.lookForAppnameMatch then s.info.checkMappingForAppname m
      else s.info.setAppname none (s.mmappings.map Prod.snd) none false
    else s.info
  mmappings := KeyMap.insert addrLt m.startAddr m s.mmappings

/-- A COMM record of a process that was made for an MMAP record. -/
def receiveComm (s : Process) (comm : CString) : Process :=
  if !s.info.valid then
    { s with info :=
        { s.info with valid := true }.setAppname none (s.mmappings.map Prod.snd) (some comm) false }
  else if !s.info.isAppnameValid then
    { s with info := s.info.setAppname none (s.mmappings.map Prod.snd) (some comm) false }
  else s

/-- The first record makes the process. -/
def upToComm (tgid : UInt32) (before : List OperfMmap) (comm : CString) : Process :=
  match before with
  | [] => newProcess tgid (some comm) true
  | before => receiveComm (before.foldl receiveMmap (newProcess tgid none false)) comm

/-- MMAP records, the COMM record and MMAP records again. -/
def received (tgid : UInt32) (before : List OperfMmap) (comm : CString) (after : List OperfMmap) : Process :=
  after.foldl receiveMmap (upToComm tgid before comm)

/-! ### The process in `process_map` -/

/-- The members that the choice of a name does not touch. -/
def withTables (p : ProcessInfo) (ids : List (UInt64 × MmapId)) (fromParent : UInt64 → Bool) : ProcessInfo :=
  { p with mmappings := ids, mmappingsFromParent := fromParent, forkedProcesses := [] }

section Tables

variable (p : ProcessInfo) (ids : List (UInt64 × MmapId)) (fromParent : UInt64 → Bool)

theorem check_withTables (m : OperfMmap) :
    (withTables p ids fromParent).checkMappingForAppname m = withTables (p.checkMappingForAppname m) ids fromParent := by
  have hnum : (withTables p ids fromParent).getNumMatchingChars m.filename = p.getNumMatchingChars m.filename := rfl
  have hmatched : (withTables p ids fromParent).numAppCharsMatched = p.numAppCharsMatched := rfl
  have hbase : (withTables p ids fromParent).appBasename = p.appBasename := rfl
  unfold checkMappingForAppname
  rw [hnum, hmatched, hbase]
  by_cases hfull : p.getNumMatchingChars m.filename = p.appBasename.length
  · simp only [if_pos hfull]
    split_ifs <;> rfl
  · simp only [if_neg hfull]
    split_ifs <;> rfl

theorem findBest_withTables (ms : List OperfMmap) :
    (withTables p ids fromParent).findBestMatchAppnameAllMappings ms =
      withTables (p.findBestMatchAppnameAllMappings ms) ids fromParent := by
  have hfold : ∀ p : ProcessInfo, ms.foldl checkMappingForAppname (withTables p ids fromParent) =
      withTables (ms.foldl checkMappingForAppname p) ids fromParent := by
    induction ms with
    | nil => exact fun _ => rfl
    | cons m ms ih =>
      intro p
      rw [List.foldl_cons, List.foldl_cons, check_withTables, ih]
  unfold findBestMatchAppnameAllMappings
  rw [hfold, apply_ite (withTables · ids fromParent)]
  rfl

theorem setAppname_withTables (ms : List OperfMmap) (appname : Option CString) :
    (withTables p ids fromParent).setAppname none ms appname false =
      withTables (p.setAppname none ms appname false) ids fromParent := by
  have hfrom : (withTables p ids fromParent).nameFrom none appname false =
      withTables (p.nameFrom none appname false) ids fromParent := by
    cases appname with
    | none => rfl
    | some name =>
      simp only [nameFrom, Bool.false_eq_true, if_false]
      split_ifs <;> rfl
  simp only [setAppname, hfrom, apply_ite (withTables · ids fromParent), ← findBest_withTables]
  rfl

end Tables

theorem mapM_of_map {t : Processes} {ids : List (UInt64 × MmapId)} {kms : List (UInt64 × OperfMmap)}
    (h : ids.map (fun kv => (kv.1, t.mmaps kv.2)) = kms.map fun km => (km.1, some km.2)) :
    (ids.mapM fun kv => t.mmaps kv.2) = some (kms.map Prod.snd) := by
  induction ids generalizing kms with
  | nil =>
    cases kms with
    | nil => rfl
    | cons km kms => cases h
  | cons kv ids ih =>
    cases kms with
    | nil => cases h
    | cons km kms =>
      rw [List.map_cons, List.map_cons, List.cons.injEq, Prod.mk.injEq] at h
      obtain ⟨⟨-, hkv⟩, hrest⟩ := h
      rw [List.mapM_cons, hkv, ih hrest]
      rfl

/-- The entry of `process_map` that `s` stands for; it has no children. -/
structure Tracks (t : Processes) (pid : UInt32) (s : Process) : Prop where
  pid_eq : s.info.pid = pid
  entry : ∃ ids fromParent, t.find pid = some (withTables s.info ids fromParent) ∧
    ids.map (fun kv => (kv.1, t.mmaps kv.2)) = s.mmappings.map fun km => (km.1, some km.2)

section Tracks

variable {env : Env} {t : Processes} {pid : UInt32} {s : Process} {p : ProcessInfo} {m : OperfMmap} {id : MmapId}
  {ids : List (UInt64 × MmapId)} {kms : List (UInt64 × OperfMmap)} {fromParent : UInt64 → Bool}

theorem setAppname_tracked (henv : ∀ k j, env.readlink k j = none) (fromParent : UInt64 → Bool)
    (appname : Option CString) (hpid : p.pid = pid)
    (hmaps : ids.map (fun kv => (kv.1, t.mmaps kv.2)) = kms.map fun km => (km.1, some km.2)) :
    ∃ t', t.setAppname env (withTables p ids fromParent) appname false = some t' ∧ t'.mmaps = t.mmaps ∧
      t'.find pid = some (withTables (p.setAppname none (kms.map Prod.snd) appname false) ids fromParent) := by
  have hmappings : t.mappingsOf (withTables p ids fromParent) = some (kms.map Prod.snd) := mapM_of_map hmaps
  have hset : t.setAppname env (withTables p ids fromParent) appname false =
      some { t.set (withTables (p.setAppname none (kms.map Prod.snd) appname false) ids fromParent) with
        readlinkCalls := t.readlinkCalls + 1 } := by
    rw [Processes.setAppname, hmappings, ← setAppname_withTables, ← henv t.readlinkCalls p.pid]
    rfl
  refine ⟨_, hset, rfl, ?_⟩
  exact find_set_of_pid t ((setAppname_pid p none (kms.map Prod.snd) appname false).trans hpid)

/-- `process_mapping` of the process in the map is that of the process alone. -/
theorem processMapping_tracks (henv : ∀ k j, env.readlink k j = none) (ht : Tracks t pid s)
    (hm : t.mmaps id = some m) :
    ∃ t', t.processMapping env pid id false = some t' ∧ Tracks t' pid (receiveMmap s m) := by
  obtain ⟨hpid, ids, fromParent, hfind, hmaps⟩ := ht
  -- the name first
  have hname : ∃ t₁, t.nameFromMapping env (withTables s.info ids fromParent) m = some t₁ ∧ t₁.mmaps = t.mmaps ∧
      t₁.find pid = some (withTables (receiveMmap s m).info ids fromParent) ∧ (receiveMmap s m).info.pid = pid := by
    have hvalid : (withTables s.info ids fromParent).appnameValid = s.info.appnameValid := rfl
    have hforked : (withTables s.info ids fromParent).forked = s.info.forked := rfl
    have hlook : (withTables s.info ids fromParent).lookForAppnameMatch = s.info.lookForAppnameMatch := rfl
    unfold Processes.nameFromMapping receiveMmap
    rw [hvalid, hforked, hlook]
    split
    · split
      · refine ⟨_, rfl, rfl, ?_, (checkMappingForAppname_pid _ m).trans hpid⟩
        rw [check_withTables]
        exact find_set_of_pid t ((checkMappingForAppname_pid _ m).trans hpid)
      · obtain ⟨t₁, hset, hmmaps, hfind⟩ := setAppname_tracked henv fromParent none hpid hmaps
        exact ⟨t₁, hset, hmmaps, hfind, (setAppname_pid ..).trans hpid⟩
    · exact ⟨t, rfl, rfl, hfind, hpid⟩
  obtain ⟨t₁, hname, hmmaps, hfind₁, hpid₁⟩ := hname
  rw [Processes.processMapping, hfind, hm]
  simp only [Option.bind_eq_bind, Option.bind_some, hname, Processes.depth, Processes.setNewMappingRecursive,
    hfind₁, hmmaps, hm]
  refine ⟨_, rfl, hpid₁, KeyMap.insert addrLt m.startAddr id ids, _, find_set_of_pid t₁ hpid₁, ?_⟩
  change (KeyMap.insert addrLt m.startAddr id ids).map (fun kv => (kv.1, t₁.mmaps kv.2)) = _
  rw [hmmaps, KeyMap.map_insert, hmaps, hm]
  exact (KeyMap.map_insert some).symm

/-- So is what is done with a COMM record. -/
theorem commKnownProcess_tracks (henv : ∀ k j, env.readlink k j = none) (ht : Tracks t pid s)
    (hforked : s.info.forked = false) (comm : CString) :
    ∃ p t', t.find pid = some p ∧ commKnownProcess env t p ⟨pid, pid, comm⟩ = some t' ∧
      Tracks t' pid (receiveComm s comm) := by
  obtain ⟨hpid, ids, fromParent, hfind, hmaps⟩ := ht
  have hfork : (withTables s.info ids fromParent).forked = false := hforked
  cases hvalid : s.info.valid with
  | false =>
    obtain ⟨t', hset, hmmaps, hfind'⟩ := setAppname_tracked
      (t := t.set (withTables { s.info with valid := true } ids fromParent)) henv fromParent (some comm)
      (p := { s.info with valid := true }) hpid hmaps
    refine ⟨_, t', hfind, ?_, ?_⟩
    · have hvalid' : (withTables s.info ids fromParent).valid = false := hvalid
      unfold commKnownProcess
      rw [hvalid']
      exact (if_pos rfl).trans ((if_pos rfl).trans ((if_neg (by rw [hfork]; exact Bool.false_ne_true)).trans hset))
    · simp only [receiveComm, hvalid, Bool.not_false, if_true]
      refine ⟨(setAppname_pid ..).trans hpid, ids, fromParent, hfind', ?_⟩
      rw [hmmaps]
      exact hmaps
  | true =>
    have hvalid' : (withTables s.info ids fromParent).valid = true := hvalid
    cases hname : s.info.isAppnameValid with
    | false =>
      obtain ⟨t', hset, hmmaps, hfind'⟩ := setAppname_tracked henv fromParent (some comm) hpid hmaps
      refine ⟨_, t', hfind, ?_, ?_⟩
      · have hname' : (withTables s.info ids fromParent).isAppnameValid = false := hname
        simp only [commKnownProcess, hname', hvalid', Bool.not_true, Bool.false_eq_true, if_false, not_false_eq_true,
          and_self, if_true]
        exact hset
      · simp only [receiveComm, hvalid, hname, Bool.not_true, Bool.false_eq_true, if_false, Bool.not_false, if_true]
        refine ⟨(setAppname_pid ..).trans hpid, ids, fromParent, hfind', ?_⟩
        rw [hmmaps]
        exact hmaps
    | true =>
      refine ⟨_, t, hfind, ?_, ?_⟩
      · have hname' : (withTables s.info ids fromParent).isAppnameValid = true := hname
        simp [commKnownProcess, hname', hvalid']
      · simp only [receiveComm, hvalid, hname, Bool.not_true, Bool.false_eq_true, if_false]
        exact ⟨hpid, ids, fromParent, hfind, hmaps⟩

end Tracks

/-! ### What the name should be -/

/-- The mappings of files. -/
def fileMappings (ms : List OperfMmap) : List OperfMmap := ms.filter (! ·.isAnonMapping)

def basenameOf (m : OperfMmap) : CString := opBasename m.filename

/-- The mapping of a file whose name starts with the COMM name gives its path; without one, a mapping that has most
of it. -/
structure NamedByBest (comm : CString) (ms : List OperfMmap) (appname : CString) : Prop where
  full : (∃ m ∈ fileMappings ms, comm <+: basenameOf m) →
    ∃ m ∈ fileMappings ms, comm <+: basenameOf m ∧ appname = m.filename
  longest : fileMappings ms ≠ [] → (¬ ∃ m ∈ fileMappings ms, comm <+: basenameOf m) →
    ∃ m ∈ fileMappings ms, appname = m.filename ∧
      ∀ m' ∈ fileMappings ms, matchingChars comm (basenameOf m') ≤ matchingChars comm (basenameOf m)

/-- A mapping that is compared with the COMM name and has something of it. -/
def Admissible (comm : CString) (m : OperfMmap) : Prop :=
  m.isAnonMapping = false ∧ comm.length ≤ (basenameOf m).length ∧ matchingChars comm (basenameOf m) ≠ 0

instance (comm : CString) (m : OperfMmap) : Decidable (Admissible comm m) :=
  inferInstanceAs (Decidable (_ ∧ _))

/-- The mappings at the time of the COMM record. -/
def held (before : List OperfMmap) : List OperfMmap :=
  (before.foldl (fun ms m => KeyMap.insert addrLt m.startAddr m ms) []).map Prod.snd

/-- The mappings in the order they are looked at. -/
def considered (before : List OperfMmap) (comm : CString) (after : List OperfMmap) : List OperfMmap :=
  (if comm = unknownName then [] else held before) ++ after

/-- No file has more of the COMM name than the first that is compared with it and has something of it. -/
def FirstIsBest (comm : CString) (looked ms : List OperfMmap) : Prop :=
  fileMappings ms = [] ∨
    match looked.find? (Admissible comm) with
    | some first => ∀ m ∈ fileMappings ms, matchingChars comm (basenameOf m) ≤ matchingChars comm (basenameOf first)
    | none => ∃ best ∈ fileMappings ms, best.filename = comm ∧
        ∀ m ∈ fileMappings ms, matchingChars comm (basenameOf m) ≤ matchingChars comm (basenameOf best)

/-! ### Characters in common -/

variable {a b c comm : CString} {p : ProcessInfo} {m : OperfMmap} {ms seen before after : List OperfMmap}
  {n : Nat} {tgid : UInt32} {s : Process}

theorem matchingChars_le (a b : CString) : matchingChars a b ≤ a.length := by
  induction a generalizing b with
  | nil => simp [matchingChars]
  | cons x a ih =>
    cases b with
    | nil => simp [matchingChars]
    | cons y b =>
      rw [matchingChars]
      split
      · exact Nat.succ_le_succ (ih b)
      · exact Nat.zero_le _

theorem matchingChars_eq_length : matchingChars a b = a.length ↔ a <+: b := by
  induction a generalizing b with
  | nil => simp [matchingChars]
  | cons x a ih =>
    cases b with
    | nil => simp [matchingChars]
    | cons y b =>
      rw [matchingChars, List.cons_prefix_cons, ← ih]
      split
      · rename_i hxy
        simp [hxy]
      · rename_i hxy
        simp [hxy]

/-- What has more in common with `b` than `b` has with `c` has as much in common with `c`. -/
theorem matchingChars_of_lt {b' : CString} (h : matchingChars c b < matchingChars b b') :
    matchingChars c b' = matchingChars c b := by
  induction c generalizing b b' with
  | nil => simp [matchingChars]
  | cons x c ih =>
    cases b with
    | nil => simp [matchingChars] at h
    | cons y b =>
      cases b' with
      | nil => simp [matchingChars] at h
      | cons z b' =>
        have hyz : y = z := by
          by_contra hne
          rw [matchingChars.eq_1 y b z b', if_neg hne] at h
          exact Nat.not_lt_zero _ h
        subst hyz
        rw [matchingChars, matchingChars, if_pos rfl] at h
        rw [matchingChars, matchingChars]
        split
        · rename_i hxy
          rw [if_pos hxy] at h
          rw [ih (Nat.lt_of_succ_lt_succ h)]
        · rfl

/-! ### One mapping -/

/-- Nothing has been found for the COMM name. -/
structure Unmatched (comm : CString) (p : ProcessInfo) : Prop where
  appname : p.appname = comm
  appBasename : p.appBasename = comm
  fullname : p.appnameIsFullname = .notFullname
  matched : p.numAppCharsMatched = -1
  appnameValid : p.appnameValid = false
  look : p.lookForAppnameMatch = true
  forked : p.forked = false

/-- The name is that of a file of `ms` that has `n` characters of the COMM name. -/
structure Matched (comm : CString) (n : Nat) (ms : List OperfMmap) (p : ProcessInfo) : Prop where
  chosen : ∃ m ∈ fileMappings ms, p.appname = m.filename
  shared : matchingChars comm (opBasename p.appname) = n
  fullname : p.appnameIsFullname ≠ .notFullname
  matched : n ≤ p.numAppCharsMatched
  look : p.appnameValid = false → p.lookForAppnameMatch = true
  forked : p.forked = false

theorem mem_fileMappings : m ∈ fileMappings ms ↔ m ∈ ms ∧ m.isAnonMapping = false := by
  simp [fileMappings]

theorem Matched.mono {ms' : List OperfMmap} (h : Matched comm n ms p) (hsub : ∀ m ∈ ms, m ∈ ms') :
    Matched comm n ms' p := by
  obtain ⟨m, hm, hname⟩ := h.chosen
  rw [mem_fileMappings] at hm
  exact { h with chosen := ⟨m, mem_fileMappings.mpr ⟨hsub m hm.1, hm.2⟩, hname⟩ }

/-- The mapping becomes the name. -/
theorem check_chosen (hanon : m.isAnonMapping = false)
    (hmore : p.numAppCharsMatched < p.getNumMatchingChars m.filename) :
    (p.checkMappingForAppname m).appname = m.filename ∧
    (p.checkMappingForAppname m).appnameIsFullname ≠ .notFullname ∧
    (p.checkMappingForAppname m).numAppCharsMatched = p.getNumMatchingChars m.filename ∧
    ((p.checkMappingForAppname m).appnameValid = false → p.appnameValid = false ∧
      (p.checkMappingForAppname m).lookForAppnameMatch = p.lookForAppnameMatch) ∧
    (p.checkMappingForAppname m).forked = p.forked := by
  unfold checkMappingForAppname
  simp only [hanon, Bool.false_eq_true, if_false, if_pos hmore]
  split_ifs <;> simp

theorem check_anon (hanon : m.isAnonMapping = true) : p.checkMappingForAppname m = p := by
  rw [checkMappingForAppname, if_pos hanon]

theorem check_kept (hless : ¬ p.numAppCharsMatched < p.getNumMatchingChars m.filename) :
    p.checkMappingForAppname m = p := by
  unfold checkMappingForAppname
  split
  · rfl
  · exact if_neg hless

theorem Unmatched.numMatching (h : Unmatched comm p) : p.getNumMatchingChars m.filename =
    if (basenameOf m).length < comm.length then -1
    else if matchingChars comm (basenameOf m) = 0 then -1 else (matchingChars comm (basenameOf m) : Int) := by
  rw [getNumMatchingChars, if_pos h.fullname, h.appname]
  rfl

theorem Unmatched.check_not (h : Unmatched comm p) (hm : ¬ Admissible comm m) :
    p.checkMappingForAppname m = p := by
  cases hanon : m.isAnonMapping with
  | true => exact check_anon hanon
  | false =>
    apply check_kept
    rw [h.matched, h.numMatching]
    unfold Admissible at hm
    split_ifs with hlen hzero
    · decide
    · decide
    · exact absurd ⟨hanon, Nat.not_lt.mp hlen, hzero⟩ hm

theorem Unmatched.check (h : Unmatched comm p) (hm : Admissible comm m) (hmem : m ∈ ms) :
    Matched comm (matchingChars comm (basenameOf m)) ms (p.checkMappingForAppname m) := by
  obtain ⟨hanon, hlen, hzero⟩ := hm
  have hnum : p.getNumMatchingChars m.filename = (matchingChars comm (basenameOf m) : Int) := by
    rw [h.numMatching, if_neg (Nat.not_lt.mpr hlen), if_neg hzero]
  have hmore : p.numAppCharsMatched < p.getNumMatchingChars m.filename := by
    rw [h.matched, hnum]
    omega
  obtain ⟨hname, hfull, hmatched, hvalid, hforked⟩ := check_chosen hanon hmore
  refine ⟨⟨m, mem_fileMappings.mpr ⟨hmem, hanon⟩, hname⟩, ?_, hfull, ?_, ?_, hforked.trans h.forked⟩
  · rw [hname]
    rfl
  · rw [hmatched, hnum]
  · intro hv
    rw [(hvalid hv).2, h.look]

/-- A later mapping replaces the name only by one that has as much of the COMM name. -/
theorem Matched.check (h : Matched comm n ms p) (hmem : m ∈ ms) :
    Matched comm n ms (p.checkMappingForAppname m) := by
  cases hanon : m.isAnonMapping with
  | true =>
    rw [check_anon hanon]
    exact h
  | false =>
    by_cases hmore : p.numAppCharsMatched < p.getNumMatchingChars m.filename
    · obtain ⟨hname, hfull, hmatched, hvalid, hforked⟩ := check_chosen hanon hmore
      have hn := h.matched
      have hnum : p.getNumMatchingChars m.filename = (matchingChars (opBasename p.appname) (basenameOf m) : Int) := by
        rw [getNumMatchingChars, if_neg h.fullname] at hmore ⊢
        dsimp only at hmore ⊢
        split_ifs at hmore ⊢
        · omega
        · omega
        · rfl
      have hlt : matchingChars comm (opBasename p.appname) < matchingChars (opBasename p.appname) (basenameOf m) := by
        rw [h.shared]
        omega
      refine ⟨⟨m, mem_fileMappings.mpr ⟨hmem, hanon⟩, hname⟩, ?_, hfull, ?_, ?_, hforked.trans h.forked⟩
      · rw [hname, ← h.shared]
        exact matchingChars_of_lt hlt
      · rw [hmatched]
        omega
      · intro hv
        rw [(hvalid hv).2]
        exact h.look (hvalid hv).1
    · rw [check_kept hmore]
      exact h

/-! ### All mappings -/

/-- The first admissible mapping of those seen decides how much the name has of the COMM name. -/
def Decided (comm : CString) (seen : List OperfMmap) (p : ProcessInfo) : Prop :=
  match seen.find? (Admissible comm) with
  | none => Unmatched comm p
  | some first => Matched comm (matchingChars comm (basenameOf first)) seen p

theorem Decided.check (h : Decided comm seen p) : Decided comm (seen ++ [m]) (p.checkMappingForAppname m) := by
  unfold Decided at *
  rw [List.find?_append]
  cases hfirst : seen.find? (Admissible comm) with
  | none =>
    rw [hfirst] at h
    by_cases hm : Admissible comm m
    · simpa [hm] using h.check hm (List.mem_append_right seen (List.mem_singleton_self m))
    · simpa [hm, h.check_not hm] using h
  | some first =>
    rw [hfirst] at h
    exact (h.mono fun m hm => List.mem_append_left _ hm).check (List.mem_append_right seen (List.mem_singleton_self m))

theorem Decided.check_all (h : Decided comm seen p) :
    Decided comm (seen ++ ms) (ms.foldl checkMappingForAppname p) := by
  induction ms generalizing seen p with
  | nil => simpa using h
  | cons m ms ih => simpa using ih h.check

theorem Decided.forked (h : Decided comm seen p) : p.forked = false := by
  unfold Decided at h
  split at h
  · exact h.forked
  · exact h.forked

theorem Decided.look (h : Decided comm seen p) (hv : p.appnameValid = false) : p.lookForAppnameMatch = true := by
  unfold Decided at h
  split at h
  · exact h.look
  · exact h.look hv

theorem Decided.valid (h : Decided comm seen p) (hv : p.appnameValid = true) : Decided comm (seen ++ [m]) p := by
  unfold Decided at *
  rw [List.find?_append]
  cases hfirst : seen.find? (Admissible comm) with
  | none =>
    rw [hfirst] at h
    rw [h.appnameValid] at hv
    cases hv
  | some first =>
    rw [hfirst] at h
    exact h.mono fun m hm => List.mem_append_left _ hm

theorem Decided.receiveMmap (h : Decided comm seen s.info) :
    Decided comm (seen ++ [m]) (receiveMmap s m).info := by
  unfold ApplicationName.receiveMmap
  cases hv : s.info.appnameValid with
  | true => simpa using h.valid hv
  | false => simpa [h.forked, h.look hv] using h.check

theorem Decided.receive_all (h : Decided comm seen s.info) :
    Decided comm (seen ++ ms) (ms.foldl ApplicationName.receiveMmap s).info := by
  induction ms generalizing seen s with
  | nil => simpa using h
  | cons m ms ih => simpa using ih h.receiveMmap

/-! ### The COMM record -/

/-- Before the COMM record nothing is known. -/
structure Unnamed (p : ProcessInfo) : Prop where
  appname : p.appname = unknownName ∨ p.appname = []
  fullname : p.appnameIsFullname = .notFullname
  matched : p.numAppCharsMatched = -1
  appnameValid : p.appnameValid = false
  look : p.lookForAppnameMatch = false
  forked : p.forked = false

theorem Unnamed.setAppname_comm (h : Unnamed p) (hcomm : comm ≠ taskset) :
    Decided comm (if comm = unknownName then [] else ms) (p.setAppname none ms (some comm) false) := by
  have hset : p.setAppname none ms (some comm) false =
      findBestMatchAppnameAllMappings { p with appname := comm, appBasename := comm, lookForAppnameMatch := true } ms := by
    simp [setAppname, h.appnameValid, nameFrom, hcomm]
  have hstart : Decided comm [] { p with appname := comm, appBasename := comm, lookForAppnameMatch := true } :=
    ⟨rfl, rfl, h.fullname, h.matched, h.appnameValid, rfl, h.forked⟩
  rw [hset, findBestMatchAppnameAllMappings]
  split
  · exact hstart
  · exact hstart.check_all

theorem unnamed_freshInfo (isValid : Bool) : Unnamed (freshInfo tgid isValid) :=
  ⟨Or.inr rfl, rfl, rfl, rfl, rfl, rfl⟩

/-- MMAP records alone leave the name unknown. -/
theorem receive_before (before : List OperfMmap) :
    before.foldl receiveMmap (newProcess tgid none false) =
      ⟨(newProcess tgid none false).info, before.foldl (fun ms m => KeyMap.insert addrLt m.startAddr m ms) []⟩ := by
  have hstep : ∀ (kvs : List (UInt64 × OperfMmap)) (m : OperfMmap),
      receiveMmap ⟨(newProcess tgid none false).info, kvs⟩ m =
        ⟨(newProcess tgid none false).info, KeyMap.insert addrLt m.startAddr m kvs⟩ := fun _ _ => rfl
  have hfold : ∀ (kvs : List (UInt64 × OperfMmap)), before.foldl receiveMmap ⟨(newProcess tgid none false).info, kvs⟩ =
      ⟨(newProcess tgid none false).info, before.foldl (fun ms m => KeyMap.insert addrLt m.startAddr m ms) kvs⟩ := by
    induction before with
    | nil => exact fun _ => rfl
    | cons m before ih =>
      intro kvs
      rw [List.foldl_cons, hstep, ih]
      rfl
  exact hfold []

theorem decided_upToComm (hcomm : comm ≠ taskset) :
    Decided comm (if comm = unknownName then [] else held before) (upToComm tgid before comm).info := by
  cases before with
  | nil =>
    have hheld : held [] = [] := rfl
    rw [hheld]
    exact (unnamed_freshInfo true).setAppname_comm hcomm
  | cons m before =>
    have hunnamed : Unnamed { (newProcess tgid none false).info with valid := true } :=
      ⟨Or.inl rfl, rfl, rfl, rfl, rfl, rfl⟩
    rw [upToComm, receive_before]
    · exact hunnamed.setAppname_comm hcomm
    · rintro ⟨⟩

theorem decided_received (tgid : UInt32) (before after : List OperfMmap) (hcomm : comm ≠ taskset) :
    Decided comm (considered before comm after) (received tgid before comm after).info :=
  (decided_upToComm hcomm).receive_all

/-! ### The final name -/

theorem held_subset (h : m ∈ held before) : m ∈ before := by
  have hfold : ∀ (kvs : List (UInt64 × OperfMmap)),
      ∀ x ∈ before.foldl (fun ms m => KeyMap.insert addrLt m.startAddr m ms) kvs, x ∈ kvs ∨ x.2 ∈ before := by
    clear h
    induction before with
    | nil => exact fun kvs x hx => Or.inl hx
    | cons m before ih =>
      intro kvs x hx
      rcases ih _ x hx with hx | hx
      · rcases KeyMap.mem_insert hx with rfl | hx
        · exact Or.inr List.mem_cons_self
        · exact Or.inl hx
      · exact Or.inr (List.mem_cons_of_mem _ hx)
  obtain ⟨x, hx, rfl⟩ := List.mem_map.mp h
  exact (hfold [] x hx).resolve_left List.not_mem_nil

theorem considered_subset (h : m ∈ considered before comm after) : m ∈ before ++ after := by
  unfold considered at h
  rcases List.mem_append.mp h with h | h
  · split at h
    · cases h
    · exact List.mem_append_left _ (held_subset h)
  · exact List.mem_append_right _ h

/-- A best mapping is one with most of the COMM name, whether or not it has all. -/
theorem namedByBest_iff {appname : CString} : NamedByBest comm ms appname ↔ fileMappings ms = [] ∨
    ∃ m ∈ fileMappings ms, appname = m.filename ∧
      ∀ m' ∈ fileMappings ms, matchingChars comm (basenameOf m') ≤ matchingChars comm (basenameOf m) := by
  constructor
  · intro h
    by_cases hnone : fileMappings ms = []
    · exact Or.inl hnone
    · refine Or.inr ?_
      by_cases hfull : ∃ m ∈ fileMappings ms, comm <+: basenameOf m
      · obtain ⟨m, hm, hpre, hname⟩ := h.full hfull
        refine ⟨m, hm, hname, ?_⟩
        intro m' _
        rw [matchingChars_eq_length.mpr hpre]
        exact matchingChars_le _ _
      · exact h.longest hnone hfull
  · intro h
    constructor
    · rintro ⟨m', hm', hpre⟩
      rcases h with hnone | ⟨m, hm, hname, hbest⟩
      · rw [hnone] at hm'
        cases hm'
      · refine ⟨m, hm, matchingChars_eq_length.mp (Nat.le_antisymm (matchingChars_le _ _) ?_), hname⟩
        rw [← matchingChars_eq_length.mpr hpre]
        exact hbest m' hm'
    · intro hsome _
      exact h.resolve_left hsome

/-- The name is a best one exactly when the first file that is compared with the COMM name, and has something of it,
has most of it. -/
theorem appname_iff (tgid : UInt32) (before : List OperfMmap) (comm : CString) (after : List OperfMmap)
    (hcomm : comm ≠ taskset) :
    NamedByBest comm (before ++ after) (received tgid before comm after).info.appname ↔
      FirstIsBest comm (considered before comm after) (before ++ after) := by
  have hdecided := decided_received tgid before after hcomm
  rw [namedByBest_iff]
  unfold FirstIsBest
  unfold Decided at hdecided
  apply or_congr_right
  cases hfirst : (considered before comm after).find? (Admissible comm) with
  | none =>
    rw [hfirst] at hdecided
    constructor
    · rintro ⟨m, hm, hname, hbest⟩
      exact ⟨m, hm, hname.symm.trans hdecided.appname, hbest⟩
    · rintro ⟨m, hm, hname, hbest⟩
      exact ⟨m, hm, hdecided.appname.trans hname.symm, hbest⟩
  | some first =>
    rw [hfirst] at hdecided
    have hshared := hdecided.shared
    constructor
    · rintro ⟨m, hm, hname, hbest⟩
      rw [hname] at hshared
      dsimp only
      rw [← hshared]
      exact hbest
    · intro hbest
      obtain ⟨m, hm, hname⟩ := hdecided.chosen
      rw [mem_fileMappings] at hm
      refine ⟨m, mem_fileMappings.mpr ⟨considered_subset hm.1, hm.2⟩, hname, ?_⟩
      rw [hname] at hshared
      rw [basenameOf, hshared]
      exact hbest

/-- A mapping of the file at `path`. -/
def fileMapping (start : UInt64) (path : CString) : OperfMmap := ⟨start, start + 0xfff, 0, false, false, path⟩

def catPath : CString := ['/', 'b', 'i', 'n', '/', 'c', 'a', 't']

def libcPath : CString := ['/', 'l', 'i', 'b', '/', 'c', 'r', 'y', 'p', 't']

theorem appname_iff_cat :
    NamedByBest ['c', 'a', 't'] ([] ++ [fileMapping 0x400000 catPath, fileMapping 0x7f0000 libcPath])
      (received 7 [] ['c', 'a', 't'] [fileMapping 0x400000 catPath, fileMapping 0x7f0000 libcPath]).info.appname := by
  refine (appname_iff 7 [] ['c', 'a', 't'] [fileMapping 0x400000 catPath, fileMapping 0x7f0000 libcPath]
    (by decide)).mpr (Or.inr ?_)
  change ∀ m ∈ fileMappings [fileMapping 0x400000 catPath, fileMapping 0x7f0000 libcPath],
    matchingChars ['c', 'a', 't'] (basenameOf m) ≤
      matchingChars ['c', 'a', 't'] (basenameOf (fileMapping 0x400000 catPath))
  decide

/-- A library that has the first character of the COMM name is mapped before the program: it stays the name. -/
theorem library_first : ['c', 'a', 't'] ≠ taskset ∧
    ¬NamedByBest ['c', 'a', 't'] ([] ++ [fileMapping 0x7f0000 libcPath, fileMapping 0x400000 catPath])
      (received 7 [] ['c', 'a', 't'] [fileMapping 0x7f0000 libcPath, fileMapping 0x400000 catPath]).info.appname := by
  refine ⟨by decide, fun hnamed => ?_⟩
  have hfull := hnamed.full (by decide)
  exact absurd hfull (by decide)

end Oprofile.Operf.ApplicationName

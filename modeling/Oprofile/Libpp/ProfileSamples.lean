import Oprofile.Library.KeyMap
import Oprofile.Library.Results
import Oprofile.Library.Sorting
import Oprofile.Libdb.Store
import Oprofile.Libpp.Agreement
import Oprofile.Libpp.Profile
import Mathlib.Algebra.BigOperators.Group.List.Basic

/-! Reading sample files into a profile, and the ranges of its samples (`profile.cpp`, `op_header.cpp`). -/
namespace Oprofile.Libpp

open SampleNames Libdb

/-- The fields of an `opd_header` that are checked, with those that the containers read. -/
structure SampleHeader extends OpdHeader where
  version : UInt32
  mtime : UInt64
  deriving DecidableEq

/-- What `read_header` meets: the file, the bytes of a header, and its magic number. -/
inductive HeaderRead
  | cannotOpen
  | cannotRead
  | badMagic
  | header (head : SampleHeader)

/-- A sample file: its name, its header, and what `odb_open` makes of it, the text of an error or the store. -/
structure SampleFile where
  filename : Text
  headerRead : HeaderRead
  odbOpen : Except Text OdbData

def opdVersion : UInt32 := 0x12

/-- What is thrown as an `op_fatal_error`. -/
inductive FatalError
  | cannotOpen (filename : Text)
  | cannotReadHeader (filename : Text)
  | badMagic (filename : Text)
  | versionMismatch
  | odb (filename error : Text)
  | timestampsDiffer (mtime1 mtime2 : UInt64) (filename : Text)
  | isKernelDiffers (filename : Text)
  | rangeStartAfterEnd
  deriving DecidableEq

/-- `read_header` -/
def readHeader (file : SampleFile) : Except FatalError SampleHeader :=
  match file.headerRead with
  | .cannotOpen => .error (.cannotOpen file.filename)
  | .cannotRead => .error (.cannotReadHeader file.filename)
  | .badMagic => .error (.badMagic file.filename)
  | .header head => .ok head

/-- `open_sample_file`: the header that `odb_get_data` shows, and the store. -/
def openSampleFile (file : SampleFile) : Except FatalError (SampleHeader × OdbData) := do
  let head ← readHeader file
  if head.version ≠ opdVersion then .error .versionMismatch
  else
    match file.odbOpen with
    | .error error => .error (.odb file.filename error)
    | .ok db => .ok (head, db)

/-- The nodes of a store as `odb_get_iterator` yields them: a key and a count. -/
def dbNodes (db : OdbData) : List Sample := (odbEntries db).map fun e => (UInt64.ofNat e.1, UInt64.ofNat e.2)

/-- `sample_count` -/
def sampleCount (file : SampleFile) : Except FatalError UInt64 :=
  (openSampleFile file).map fun opened => (dbNodes opened.2).foldl (fun count node => count + node.2) 0

/-- `op_check_header` -/
def opCheckHeader (h1 h2 : SampleHeader) (filename : Text) : Except FatalError Unit :=
  if h1.mtime ≠ h2.mtime then .error (.timestampsDiffer h1.mtime h2.mtime filename)
  else if h1.isKernel ≠ h2.isKernel then .error (.isKernelDiffers filename)
  else .ok ()

/-- The order of the keys of `ordered_samples`. -/
def lessVma (a b : UInt64) : Bool := a < b

theorem lessVma_strict : KeyMap.StrictOrder lessVma where
  irrefl a := decide_eq_false (UInt64.lt_irrefl a)
  trans a b c hab hbc := decide_eq_true (UInt64.lt_trans (of_decide_eq_true hab) (of_decide_eq_true hbc))
  total a b hne hab := by
    rcases UInt64.lt_or_lt_of_ne hne with h | h
    · exact absurd h (of_decide_eq_false hab)
    · exact decide_eq_true h

/-- The body of the loop of `add_sample_file`. -/
def addNode (samples : List Sample) (node : Sample) : List Sample :=
  match KeyMap.find node.1 samples with
  | some count => KeyMap.insert lessVma node.1 (count + node.2) samples
  | none => KeyMap.insert lessVma node.1 node.2 samples

theorem sorted_addNode {samples : List Sample} (h : KeyMap.Sorted lessVma samples) (node : Sample) :
    KeyMap.Sorted lessVma (addNode samples node) := by
  rw [addNode]
  split
  · exact KeyMap.sorted_insert lessVma_strict h
  · exact KeyMap.sorted_insert lessVma_strict h

theorem sorted_addNodes {samples : List Sample} (h : KeyMap.Sorted lessVma samples) (nodes : List Sample) :
    KeyMap.Sorted lessVma (nodes.foldl addNode samples) := by
  induction nodes generalizing samples with
  | nil => exact h
  | cons node nodes ih => exact ih (sorted_addNode h node)

/-- A `profile_t` on the way: no header before the first file. -/
structure ProfileT where
  fileHeader : Option SampleHeader
  orderedSamples : List Sample
  startOffset : UInt64
  ordered : KeyMap.Sorted lessVma orderedSamples

def ProfileT.empty : ProfileT := ⟨none, [], 0, KeyMap.sorted_nil⟩

/-- The header of the first file is kept; the nodes of every file are added. -/
def ProfileT.addOpened (profile : ProfileT) (head : SampleHeader) (db : OdbData) : ProfileT where
  fileHeader := some (profile.fileHeader.getD head)
  orderedSamples := (dbNodes db).foldl addNode profile.orderedSamples
  startOffset := profile.startOffset
  ordered := sorted_addNodes profile.ordered (dbNodes db)

/-- `add_sample_file` -/
def ProfileT.addSampleFile (profile : ProfileT) (file : SampleFile) : Except FatalError ProfileT := do
  let (head, db) ← openSampleFile file
  match profile.fileHeader with
  | some header => opCheckHeader head header file.filename
  | none => .ok ()
  .ok (profile.addOpened head db)

/-- The files one after the other. -/
def addSampleFiles (files : List SampleFile) : Except FatalError ProfileT :=
  files.foldlM ProfileT.addSampleFile .empty

/-- `set_offset`, for a binary that was found (`valid`). -/
def ProfileT.setOffset (profile : ProfileT) (abfd : Libutilpp.OpBfd) (valid : Bool) : ProfileT :=
  if valid then
    match profile.fileHeader with
    | none => profile
    | some header =>
      if header.anonStart ≠ 0 then { profile with startOffset := header.anonStart }
      else if header.isKernel ≠ 0 then { profile with startOffset := abfd.startOffset }
      else profile
  else profile

/-- `samples_range()` of all samples. -/
def ProfileT.allSamples (profile : ProfileT) : List Sample :=
  profile.orderedSamples.map fun s => (s.1 + profile.startOffset, s.2)

/-- How many entries stand before `lower_bound(key)`. -/
def lowerBound (samples : List Sample) (key : UInt64) : Nat := (samples.takeWhile fun s => s.1 < key).length

/-- `samples_range`: what its iterators run over. -/
def ProfileT.samplesRange (profile : ProfileT) (start last : UInt64) : Except FatalError (List Sample) :=
  if start < profile.startOffset then .ok []
  else
    let start := start - profile.startOffset
    let last := last - profile.startOffset
    if last < start then .error .rangeStartAfterEnd
    else
      let first := lowerBound profile.orderedSamples start
      let last := lowerBound profile.orderedSamples last
      .ok (((profile.orderedSamples.drop first).take (last - first)).map fun s => (s.1 + profile.startOffset, s.2))

/-! What the nodes add up to. -/

/-- The sum of the counts of a key. -/
def keySum (nodes : List Sample) (k : UInt64) : UInt64 := ((nodes.filter (·.1 = k)).map Prod.snd).sum

section

variable {samples nodes : List Sample} {node : Sample} {k v w : UInt64}

theorem find_addNode : KeyMap.find k (addNode samples node) =
    if k = node.1 then some ((KeyMap.find k samples).getD 0 + node.2) else KeyMap.find k samples := by
  rw [addNode]
  by_cases hk : k = node.1
  · subst hk
    rw [if_pos rfl]
    cases KeyMap.find node.1 samples with
    | none => simp [KeyMap.find_insert_self]
    | some count => simp [KeyMap.find_insert_self]
  · rw [if_neg hk]
    split
    · exact KeyMap.find_insert_ne hk
    · exact KeyMap.find_insert_ne hk

theorem keySum_cons : keySum (node :: nodes) k = (if k = node.1 then node.2 else 0) + keySum nodes k := by
  rw [keySum, keySum, List.filter_cons]
  by_cases hk : k = node.1
  · rw [if_pos hk, if_pos (decide_eq_true hk.symm), List.map_cons, List.sum_cons]
  · rw [if_neg hk, if_neg (by simpa using Ne.symm hk), zero_add]

theorem keySum_eq_zero (h : k ∉ nodes.map Prod.fst) : keySum nodes k = 0 := by
  rw [keySum, List.filter_eq_nil_iff.mpr ?_]
  · rfl
  · intro e he heq
    exact h (List.mem_map.mpr ⟨e, he, of_decide_eq_true heq⟩)

/-- Every key of the nodes has their sum added, every other key what it had. -/
theorem find_addNodes : KeyMap.find k (nodes.foldl addNode samples) =
    if k ∈ nodes.map Prod.fst then some ((KeyMap.find k samples).getD 0 + keySum nodes k)
    else KeyMap.find k samples := by
  induction nodes generalizing samples with
  | nil => rfl
  | cons node nodes ih =>
    rw [List.foldl_cons, ih, find_addNode, keySum_cons, List.map_cons]
    by_cases hk : k = node.1
    · by_cases hmem : k ∈ nodes.map Prod.fst
      · rw [if_pos hmem, if_pos hk, if_pos (List.mem_cons_of_mem _ hmem), if_pos hk, Option.getD_some, add_assoc]
      · rw [if_neg hmem, if_pos hk, if_pos (hk ▸ List.mem_cons_self), if_pos hk, keySum_eq_zero hmem, add_zero]
    · have hiff : k ∈ node.1 :: nodes.map Prod.fst ↔ k ∈ nodes.map Prod.fst := by
        rw [List.mem_cons, or_iff_right hk]
      simp only [hiff, if_neg hk, zero_add]

theorem sum_insert_new (h : KeyMap.find k samples = none) :
    ((KeyMap.insert lessVma k v samples).map Prod.snd).sum = (samples.map Prod.snd).sum + v := by
  induction samples with
  | nil => simp [KeyMap.insert]
  | cons e samples ih =>
    obtain ⟨k', v'⟩ := e
    rw [KeyMap.find] at h
    split at h
    · cases h
    · rename_i hk
      rw [KeyMap.insert, if_neg hk]
      split
      · rw [List.map_cons, List.sum_cons, add_comm]
      · rw [List.map_cons, List.sum_cons, ih h, List.map_cons, List.sum_cons, add_assoc]

theorem sum_insert_old (hs : KeyMap.Sorted lessVma samples) (h : KeyMap.find k samples = some w) :
    ((KeyMap.insert lessVma k (w + v) samples).map Prod.snd).sum = (samples.map Prod.snd).sum + v := by
  induction samples with
  | nil => cases h
  | cons e samples ih =>
    obtain ⟨k', v'⟩ := e
    obtain ⟨hfirst, hs⟩ := List.pairwise_cons.mp hs
    rw [KeyMap.find] at h
    rw [KeyMap.insert]
    by_cases hk : k' = k
    · rw [if_pos hk] at h ⊢
      obtain rfl := Option.some.inj h
      rw [List.map_cons, List.sum_cons, List.map_cons, List.sum_cons, add_right_comm]
    · rw [if_neg hk] at h ⊢
      have hmem := KeyMap.mem_of_find h
      have hgreater : ¬lessVma k k' = true := by
        intro hlt
        have hself := lessVma_strict.trans _ _ _ hlt (hfirst _ hmem)
        rw [lessVma_strict.irrefl] at hself
        cases hself
      rw [if_neg hgreater, List.map_cons, List.sum_cons, ih hs h, List.map_cons, List.sum_cons, add_assoc]

theorem sum_addNode (hs : KeyMap.Sorted lessVma samples) :
    ((addNode samples node).map Prod.snd).sum = (samples.map Prod.snd).sum + node.2 := by
  rw [addNode]
  split
  · rename_i h
    exact sum_insert_old hs h
  · rename_i h
    exact sum_insert_new h

theorem sum_addNodes (hs : KeyMap.Sorted lessVma samples) :
    ((nodes.foldl addNode samples).map Prod.snd).sum = (samples.map Prod.snd).sum + (nodes.map Prod.snd).sum := by
  induction nodes generalizing samples with
  | nil => exact (add_zero _).symm
  | cons node nodes ih =>
    rw [List.foldl_cons, ih (sorted_addNode hs node), sum_addNode hs, List.map_cons, List.sum_cons, add_assoc]

theorem keySum_append {l₁ l₂ : List Sample} : keySum (l₁ ++ l₂) k = keySum l₁ k + keySum l₂ k := by
  rw [keySum, List.filter_append, List.map_append, List.sum_append]
  rfl

theorem keySum_perm {l₁ l₂ : List Sample} (h : l₁.Perm l₂) : keySum l₁ k = keySum l₂ k :=
  ((h.filter _).map _).sum_eq

/-- The order of the nodes does not matter. -/
theorem addNodes_perm {l₁ l₂ : List Sample} (h : l₁.Perm l₂) : l₁.foldl addNode [] = l₂.foldl addNode [] := by
  refine KeyMap.sorted_ext lessVma_strict (sorted_addNodes KeyMap.sorted_nil l₁) (sorted_addNodes KeyMap.sorted_nil l₂) ?_
  intro k
  rw [find_addNodes, find_addNodes, keySum_perm h]
  have hmem : k ∈ l₁.map Prod.fst ↔ k ∈ l₂.map Prod.fst := (h.map _).mem_iff
  simp only [hmem]

end

/-! Sample files that belong together. -/

/-- Every file can be opened, and the headers agree. -/
structure Compatible (files : List SampleFile) : Prop where
  opens : ∀ file ∈ files, ∃ opened, openSampleFile file = .ok opened
  agree : ∀ file ∈ files, ∀ file' ∈ files, ∀ opened opened', openSampleFile file = .ok opened →
    openSampleFile file' = .ok opened' → opCheckHeader opened.1 opened'.1 file.filename = .ok ()

/-- The nodes of a file. -/
def fileNodes (file : SampleFile) : List Sample :=
  match openSampleFile file with
  | .error _ => []
  | .ok opened => dbNodes opened.2

section

variable {files order : List SampleFile} {k : UInt64}

theorem Compatible.perm (h : Compatible files) (hperm : order.Perm files) : Compatible order where
  opens file hfile := h.opens file (hperm.mem_iff.mp hfile)
  agree file hfile file' hfile' := h.agree file (hperm.mem_iff.mp hfile) file' (hperm.mem_iff.mp hfile')

theorem addSampleFile_ok (profile : ProfileT) {file : SampleFile} {opened : SampleHeader × OdbData} (hopen : openSampleFile file = .ok opened)
    (hcheck : ∀ header, profile.fileHeader = some header → opCheckHeader opened.1 header file.filename = .ok ()) :
    ∃ profile', profile.addSampleFile file = .ok profile' ∧
      profile'.orderedSamples = (fileNodes file).foldl addNode profile.orderedSamples ∧
      profile'.fileHeader = some (profile.fileHeader.getD opened.1) := by
  obtain ⟨head, db⟩ := opened
  have hnodes : fileNodes file = dbNodes db := by rw [fileNodes, hopen]
  refine ⟨profile.addOpened head db, ?_, ?_, rfl⟩
  · cases hheader : profile.fileHeader with
    | none =>
      simp only [ProfileT.addSampleFile, hopen, hheader, Results.ok_then]
    | some header =>
      simp only [ProfileT.addSampleFile, hopen, hheader, Results.ok_then, hcheck header hheader]
  · rw [hnodes]
    rfl

/-- Compatible files are all read, and their nodes are added one after the other. -/
theorem addSampleFiles_from (profile : ProfileT) (h : Compatible files)
    (hcheck : ∀ header, profile.fileHeader = some header → ∀ file ∈ files, ∀ opened,
      openSampleFile file = .ok opened → opCheckHeader opened.1 header file.filename = .ok ()) :
    ∃ profile', files.foldlM ProfileT.addSampleFile profile = .ok profile' ∧
      profile'.orderedSamples = (files.flatMap fileNodes).foldl addNode profile.orderedSamples := by
  induction files generalizing profile with
  | nil => exact ⟨profile, rfl, rfl⟩
  | cons file files ih =>
    obtain ⟨opened, hopen⟩ := h.opens file List.mem_cons_self
    obtain ⟨p, hp, hsamples, hheader⟩ := addSampleFile_ok profile hopen
      (fun header heq => hcheck header heq file List.mem_cons_self opened hopen)
    have hrest : Compatible files :=
      ⟨fun f hf => h.opens f (List.mem_cons_of_mem _ hf),
        fun f hf f' hf' => h.agree f (List.mem_cons_of_mem _ hf) f' (List.mem_cons_of_mem _ hf')⟩
    obtain ⟨p', hp', hsamples'⟩ := ih p hrest (by
      intro header heq f hf o ho
      rw [hheader] at heq
      obtain rfl := Option.some.inj heq
      cases hold : profile.fileHeader with
      | none => exact h.agree f (List.mem_cons_of_mem _ hf) file List.mem_cons_self o opened ho hopen
      | some old => exact hcheck old hold f (List.mem_cons_of_mem _ hf) o ho)
    refine ⟨p', ?_, ?_⟩
    · rw [List.foldlM_cons, hp]
      exact hp'
    · rw [hsamples', hsamples, List.flatMap_cons, List.foldl_append]

/-- The counts of a key in all files. -/
theorem keySum_files : keySum (files.flatMap fileNodes) k = (files.map fun file => keySum (fileNodes file) k).sum := by
  induction files with
  | nil => rfl
  | cons file files ih => rw [List.flatMap_cons, keySum_append, ih, List.map_cons, List.sum_cons]

theorem sampleCount_eq {file : SampleFile} {opened : SampleHeader × OdbData} (hopen : openSampleFile file = .ok opened) :
    sampleCount file = .ok ((fileNodes file).map Prod.snd).sum := by
  have hnodes : fileNodes file = dbNodes opened.2 := by rw [fileNodes, hopen]
  rw [sampleCount, hopen, hnodes, List.sum_eq_foldl, List.foldl_map]
  rfl

theorem sampleCounts (h : Compatible files) : ∃ counts, files.mapM sampleCount = .ok counts ∧
    counts.sum = ((files.flatMap fileNodes).map Prod.snd).sum := by
  induction files with
  | nil => exact ⟨[], rfl, rfl⟩
  | cons file files ih =>
    obtain ⟨opened, hopen⟩ := h.opens file List.mem_cons_self
    obtain ⟨counts, hcounts, hsum⟩ := ih
      ⟨fun f hf => h.opens f (List.mem_cons_of_mem _ hf),
        fun f hf f' hf' => h.agree f (List.mem_cons_of_mem _ hf) f' (List.mem_cons_of_mem _ hf')⟩
    refine ⟨((fileNodes file).map Prod.snd).sum :: counts, ?_, ?_⟩
    · rw [List.mapM_cons, sampleCount_eq hopen, hcounts]
      rfl
    · rw [List.sum_cons, hsum, List.flatMap_cons, List.map_append, List.sum_append]

end

/-! Ranges. -/

/-- The sample's address, without wrapping, is in the range. -/
def AddressIn (offset start last : UInt64) (s : Sample) : Prop :=
  start.toNat ≤ s.1.toNat + offset.toNat ∧ s.1.toNat + offset.toNat < last.toNat

instance (offset start last : UInt64) : DecidablePred (AddressIn offset start last) := fun _ =>
  inferInstanceAs (Decidable (_ ∧ _))

/-- The entries in a range, with their addresses. -/
def ProfileT.within (profile : ProfileT) (start last : UInt64) : List Sample :=
  (profile.orderedSamples.filter fun s => AddressIn profile.startOffset start last s).map fun s =>
    (s.1 + profile.startOffset, s.2)

section

variable {profile : ProfileT} {start middle last : UInt64}

theorem lowerBounds_eq {samples : List Sample} (hs : KeyMap.Sorted lessVma samples) (hle : start ≤ last) :
    (samples.drop (lowerBound samples start)).take (lowerBound samples last - lowerBound samples start) =
      samples.filter fun s => start ≤ s.1 ∧ s.1 < last := by
  have hfront : ∀ key : UInt64, samples.Pairwise fun a b => decide (b.1 < key) = true → decide (a.1 < key) = true := by
    intro key
    refine List.Pairwise.imp ?_ hs
    intro a b hab hb
    exact decide_eq_true (UInt64.lt_trans (of_decide_eq_true hab) (of_decide_eq_true hb))
  have hdrop : samples.drop (lowerBound samples start) = samples.dropWhile fun s => s.1 < start := by
    rw [lowerBound]
    nth_rewrite 2 [← List.takeWhile_append_dropWhile (p := fun s => s.1 < start) (l := samples)]
    exact List.drop_left
  have htake : lowerBound samples last = lowerBound samples start +
      ((samples.dropWhile fun s => s.1 < start).takeWhile fun s => s.1 < last).length := by
    rw [lowerBound, lowerBound, ← List.length_append]
    congr 1
    nth_rewrite 1 [← List.takeWhile_append_dropWhile (p := fun s => s.1 < start) (l := samples)]
    refine List.takeWhile_append_of_pos ?_
    intro s hsmem
    have hlt : s.1 < start := by simpa using List.mem_takeWhile_imp hsmem
    exact decide_eq_true (UInt64.lt_of_lt_of_le hlt hle)
  rw [hdrop, htake, Nat.add_sub_cancel_left]
  have hsub : (samples.dropWhile fun s => s.1 < start).Pairwise
      fun a b => decide (b.1 < last) = true → decide (a.1 < last) = true :=
    (hfront last).sublist (List.dropWhile_sublist _)
  rw [show ∀ l : List Sample, l.take (l.takeWhile fun s => s.1 < last).length = l.takeWhile fun s => s.1 < last from
    fun l => (List.prefix_iff_eq_take.mp (List.takeWhile_prefix _)).symm,
    Sorting.takeWhile_eq_filter hsub, Sorting.dropWhile_eq_filter (hfront start), List.filter_filter]
  refine List.filter_congr ?_
  intro s _
  simp only [decide_eq_true_eq, UInt64.not_lt]
  rw [Bool.decide_and, Bool.and_comm]

/-- A range is the entries whose addresses are in it, in the order of their keys. -/
theorem samplesRange_eq (hoffset : profile.startOffset ≤ start) (hle : start ≤ last) :
    profile.samplesRange start last = .ok (profile.within start last) := by
  have hoffset' := UInt64.le_iff_toNat_le.mp hoffset
  have hle' := UInt64.le_iff_toNat_le.mp hle
  have hsub : ∀ x : UInt64, profile.startOffset ≤ x →
      (x - profile.startOffset).toNat = x.toNat - profile.startOffset.toNat := fun x hx => UInt64.toNat_sub_of_le _ _ hx
  have hlast : profile.startOffset ≤ last := UInt64.le_trans hoffset hle
  have hord : start - profile.startOffset ≤ last - profile.startOffset := by
    rw [UInt64.le_iff_toNat_le, hsub start hoffset, hsub last hlast]
    omega
  rw [ProfileT.samplesRange, if_neg (UInt64.not_lt.mpr hoffset)]
  dsimp only
  rw [if_neg (UInt64.not_lt.mpr hord), lowerBounds_eq profile.ordered hord, ProfileT.within]
  congr 2
  refine List.filter_congr ?_
  intro s _
  rw [decide_eq_decide, AddressIn, UInt64.le_iff_toNat_le, UInt64.lt_iff_toNat_lt, hsub start hoffset, hsub last hlast]
  have hlast' := UInt64.le_iff_toNat_le.mp hlast
  omega

theorem accumulate_within : accumulate (profile.within start last) =
    ((profile.orderedSamples.filter fun s => AddressIn profile.startOffset start last s).map Prod.snd).sum := by
  rw [accumulate_eq_sum, ProfileT.within, List.map_map]
  rfl

/-- Two ranges side by side. -/
theorem accumulate_within_add (h₁ : start ≤ middle) (h₂ : middle ≤ last) :
    accumulate (profile.within start middle) + accumulate (profile.within middle last) =
      accumulate (profile.within start last) := by
  have h₁' := UInt64.le_iff_toNat_le.mp h₁
  have h₂' := UInt64.le_iff_toNat_le.mp h₂
  rw [accumulate_within, accumulate_within, accumulate_within]
  induction profile.orderedSamples with
  | nil => rfl
  | cons s samples ih =>
    rw [List.filter_cons, List.filter_cons, List.filter_cons]
    by_cases hleft : AddressIn profile.startOffset start middle s
    · have hright : ¬AddressIn profile.startOffset middle last s := fun h => absurd h.1 (Nat.not_le.mpr hleft.2)
      have hall : AddressIn profile.startOffset start last s := ⟨hleft.1, Nat.lt_of_lt_of_le hleft.2 h₂'⟩
      rw [if_pos (decide_eq_true hleft), if_neg (by simpa using hright), if_pos (decide_eq_true hall), List.map_cons,
        List.sum_cons, List.map_cons, List.sum_cons, add_assoc, ih]
    · rw [if_neg (by simpa using hleft)]
      by_cases hright : AddressIn profile.startOffset middle last s
      · have hall : AddressIn profile.startOffset start last s := ⟨Nat.le_trans h₁' hright.1, hright.2⟩
        rw [if_pos (decide_eq_true hright), if_pos (decide_eq_true hall), List.map_cons,
          List.sum_cons, List.map_cons, List.sum_cons, ← ih, add_left_comm]
      · have hall : ¬AddressIn profile.startOffset start last s := by
          rintro ⟨hlow, hhigh⟩
          rcases Nat.lt_or_ge (s.1.toNat + profile.startOffset.toNat) middle.toNat with hlt | hge
          · exact hleft ⟨hlow, hlt⟩
          · exact hright ⟨hge, hhigh⟩
        rw [if_neg (by simpa using hright), if_neg (by simpa using hall), ih]

end

/-- The counts of the ranges between bounds, in sum. -/
def rangeTotals (profile : ProfileT) : UInt64 → List UInt64 → Except FatalError UInt64
  | _, [] => .ok 0
  | start, next :: bounds => do
    let range ← profile.samplesRange start next
    let rest ← rangeTotals profile next bounds
    .ok (accumulate range + rest)

/-- Ranges are exact, those between bounds add up, and the full range has the counts of all files. -/
structure Partitions (files : List SampleFile) (profile : ProfileT) : Prop where
  exact : ∀ start last, profile.startOffset ≤ start → start ≤ last →
    profile.samplesRange start last = .ok (profile.within start last)
  bounds : ∀ start bounds last, profile.startOffset ≤ start → (start :: bounds ++ [last]).Pairwise (· ≤ ·) →
    rangeTotals profile start (bounds ++ [last]) = (profile.samplesRange start last).map accumulate
  full : ∃ counts, files.mapM sampleCount = .ok counts ∧ accumulate profile.allSamples = counts.sum

section

variable {files : List SampleFile} {profile : ProfileT}

theorem rangeTotals_eq (start : UInt64) (bounds : List UInt64) (last : UInt64) (hoffset : profile.startOffset ≤ start)
    (hbounds : (start :: bounds ++ [last]).Pairwise (· ≤ ·)) :
    rangeTotals profile start (bounds ++ [last]) = .ok (accumulate (profile.within start last)) := by
  induction bounds generalizing start with
  | nil =>
    have hle : start ≤ last := by simpa using hbounds
    rw [List.nil_append, rangeTotals, samplesRange_eq hoffset hle, Results.ok_then, rangeTotals, Results.ok_then, add_zero]
  | cons next bounds ih =>
    obtain ⟨hfirst, hrest⟩ := List.pairwise_cons.mp hbounds
    have hle : start ≤ next := hfirst next (by simp)
    have hle' : next ≤ last := (List.pairwise_cons.mp hrest).1 last (by simp)
    rw [List.cons_append, rangeTotals, samplesRange_eq hoffset hle, Results.ok_then,
      ih next (UInt64.le_trans hoffset hle) hrest, Results.ok_then, accumulate_within_add hle hle']

theorem accumulate_allSamples : accumulate profile.allSamples = (profile.orderedSamples.map Prod.snd).sum := by
  rw [accumulate_eq_sum, ProfileT.allSamples, List.map_map]
  rfl

theorem partitions (h : Compatible files)
    (hsamples : profile.orderedSamples = (files.flatMap fileNodes).foldl addNode []) : Partitions files profile where
  exact start last := samplesRange_eq
  bounds start bounds last hoffset hbounds := by
    have hle : start ≤ last := (List.pairwise_cons.mp hbounds).1 last (by simp)
    rw [rangeTotals_eq start bounds last hoffset hbounds, samplesRange_eq hoffset hle]
    rfl
  full := by
    obtain ⟨counts, hcounts, hsum⟩ := sampleCounts h
    refine ⟨counts, hcounts, ?_⟩
    rw [accumulate_allSamples, hsamples, sum_addNodes KeyMap.sorted_nil, hsum]
    exact zero_add _

end

/-- Compatible files make one map in any order: the sums of their counts, which any ranges partition. -/
theorem profile_accumulates (files : List SampleFile) (h : Compatible files) :
    ∃ samples : List Sample,
      (∀ order, order.Perm files → ∃ profile, addSampleFiles order = .ok profile ∧ profile.orderedSamples = samples) ∧
      (∀ k, (KeyMap.find k samples).getD 0 = (files.map fun file => keySum (fileNodes file) k).sum) ∧
      ∀ profile : ProfileT, profile.orderedSamples = samples → Partitions files profile := by
  refine ⟨(files.flatMap fileNodes).foldl addNode [], ?_, ?_, ?_⟩
  · intro order hperm
    obtain ⟨profile, hprofile, hsamples⟩ := addSampleFiles_from .empty (h.perm hperm)
      (fun header heq => nomatch heq)
    exact ⟨profile, hprofile, hsamples.trans (addNodes_perm (hperm.flatMap_right fileNodes))⟩
  · intro k
    rw [find_addNodes, ← keySum_files]
    split
    · exact zero_add _
    · rename_i hk
      exact (keySum_eq_zero hk).symm
  · intro profile hsamples
    exact partitions h hsamples

/-! Two files that share a key. -/

/-- A store of some nodes. -/
def smallDb (nodes : List (Nat × Nat)) : OdbData where
  file :=
    { byte := (nodes.zipIdx 1).foldl
        (fun m e => ByteMem.put32 (ByteMem.put64 m (32 + e.2 * sizeofNode) e.1.1) (32 + e.2 * sizeofNode + 8) e.1.2)
        (ByteMem.put32 (fun _ => 0) 4 (nodes.length + 1))
      size := 32 + (nodes.length + 1) * sizeofNode }
  sizeofHeader := 0
  offsetNode := 32
  descr := 0
  nodeBase := 32
  hashBase := 32 + (nodes.length + 1) * sizeofNode
  hashMask := 0

def smallFile (nodes : List (Nat × Nat)) : SampleFile where
  filename := []
  headerRead := .header ⟨⟨0, 0, false, 0, 0, 0⟩, opdVersion, 1⟩
  odbOpen := .ok (smallDb nodes)

theorem smallFiles_compatible (l : List (List (Nat × Nat))) : Compatible (l.map smallFile) where
  opens file hfile := by
    obtain ⟨nodes, -, rfl⟩ := List.mem_map.mp hfile
    exact ⟨_, rfl⟩
  agree file hfile file' hfile' opened opened' hopen hopen' := by
    obtain ⟨nodes, -, rfl⟩ := List.mem_map.mp hfile
    obtain ⟨nodes', -, rfl⟩ := List.mem_map.mp hfile'
    obtain rfl := Except.ok.inj hopen
    obtain rfl := Except.ok.inj hopen'
    rfl

theorem profile_accumulates_two : ∃ profile,
    addSampleFiles ([[(16, 3), (32, 1)], [(16, 4)]].map smallFile) = .ok profile ∧
    (KeyMap.find 16 profile.orderedSamples).getD 0 = 7 ∧
    Partitions ([[(16, 3), (32, 1)], [(16, 4)]].map smallFile) profile := by
  obtain ⟨samples, horder, hsum, hpartitions⟩ := profile_accumulates _
    (smallFiles_compatible [[(16, 3), (32, 1)], [(16, 4)]])
  obtain ⟨profile, hprofile, rfl⟩ := horder _ (List.Perm.refl _)
  refine ⟨profile, hprofile, ?_, hpartitions profile rfl⟩
  rw [hsum]
  decide

end Oprofile.Libpp

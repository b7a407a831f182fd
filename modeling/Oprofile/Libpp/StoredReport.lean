import Oprofile.Daemon.SampleFiles
import Oprofile.Libpp.ProfileSamples

/-! From the samples that the daemon logs to the counts of a profile, through the bytes of the sample files. -/
namespace Oprofile.Libpp

open SampleNames Libdb Daemon ByteMem

/-- The fields of a header that are checked or read. -/
def sampleHeader (head : Libabi.OpdHeader) : SampleHeader where
  isKernel := head.isKernel
  cgToIsKernel := head.cgToIsKernel
  spuProfile := head.spuProfile ≠ 0
  embeddedOffset := head.embeddedOffset
  anonStart := head.anonStart
  cgToAnonStart := head.cgToAnonStart
  version := head.version
  mtime := head.mtime

/-- What `read_header` meets in a file that can be opened. -/
def headerRead (file : File) : HeaderRead :=
  if file.size < sizeofOpdHeader then .cannotRead
  else if load file.byte 0 4 ≠ opdMagic then .badMagic
  else .header (sampleHeader (headerAt file.byte))

/-- A file as the reports read it. -/
def sampleFile (strerror : Nat → Text) (filename : Text) (file : File) : SampleFile where
  filename
  headerRead := headerRead file
  odbOpen := (odbOpen .noError .rdonly file sizeofOpdHeader).mapError strerror

/-- How a sample file came about. -/
structure SampleLog where
  filename : Text
  sessions : List Session
  last : Session

/-- Every call on the file. -/
def SampleLog.calls (log : SampleLog) : List Call := allCalls (log.sessions ++ [log.last])

/-- The file fits into 32 bits, and so does each of its counts. -/
structure Storable (log : SampleLog) : Prop where
  limit : BelowLimit sizeofOpdHeader log.calls
  counts : ∀ k, Tally.total k (passed log.calls) < 2 ^ 32

/-- The file that was written, as it is read. -/
def SampleLog.written (strerror : Nat → Text) (log : SampleLog) : Option SampleFile :=
  (writeSessions (log.sessions ++ [log.last])).map (sampleFile strerror log.filename)

/-- How many samples were logged at the addresses that a test lets through. -/
def SampleLog.logged (p : UInt64 → Bool) (log : SampleLog) : Nat :=
  (((passed log.calls).filter fun e => p (UInt64.ofNat e.1)).map Prod.snd).sum

/-- The last headers agree in what is checked. -/
def SameBinary (logs : List SampleLog) : Prop :=
  ∀ log ∈ logs, ∀ log' ∈ logs, log.last.args.mtime = log'.last.args.mtime ∧
    log.last.args.isKernel = log'.last.args.isKernel

/-- The profile has at each address, in each range and in all what was logged there in all files. -/
structure Reports (logs : List SampleLog) (profile : ProfileT) : Prop where
  addresses : ∀ vma, (KeyMap.find vma profile.orderedSamples).getD 0 =
    UInt64.ofNat (logs.map (SampleLog.logged (· = vma))).sum
  ranges : ∀ start last, profile.startOffset ≤ start → start ≤ last → ∃ range,
    profile.samplesRange start last = .ok range ∧ accumulate range =
      UInt64.ofNat (logs.map (SampleLog.logged fun vma => start.toNat ≤ vma.toNat + profile.startOffset.toNat ∧
        vma.toNat + profile.startOffset.toNat < last.toNat)).sum
  all : accumulate profile.allSamples = UInt64.ofNat (logs.map (SampleLog.logged fun _ => true)).sum

/-! One file. -/

section

variable (strerror : Nat → Text) {log : SampleLog}

/-- What the nodes of a store add up to at the addresses that a test lets through. -/
theorem sum_dbNodes {db : OdbData} (h : Refines sizeofOpdHeader log.calls db) (hs : Storable log) (p : UInt64 → Bool) :
    (((dbNodes db).filter fun s => p s.1).map Prod.snd).sum = UInt64.ofNat (log.logged p) := by
  have hadd : ∀ v n, v + n < 2 ^ 32 → bumpValue v n = v + n := by
    intro v n hlt
    unfold bumpValue
    split_ifs <;> omega
  have hexact := Tally.tally_exact hadd (fun n hn => Nat.mod_eq_of_lt hn) (passed log.calls) hs.counts
  have hweights : ∀ l : List (Nat × Nat),
      (((l.map fun e => (UInt64.ofNat e.1, UInt64.ofNat e.2)).filter fun s => p s.1).map Prod.snd).sum =
        (l.map fun e => if p (UInt64.ofNat e.1) then UInt64.ofNat e.2 else 0).sum := by
    intro l
    induction l with
    | nil => rfl
    | cons e l ih =>
      rw [List.map_cons, List.filter_cons, List.map_cons, List.sum_cons, ← ih]
      split
      · rw [List.map_cons, List.sum_cons]
      · rw [zero_add]
  have hcounts : ∀ l : List (Nat × Nat),
      (l.map fun e => if p (UInt64.ofNat e.1) then UInt64.ofNat e.2 else 0).sum =
        UInt64.ofNat ((l.filter fun e => p (UInt64.ofNat e.1)).map Prod.snd).sum := by
    intro l
    induction l with
    | nil => rfl
    | cons e l ih =>
      rw [List.map_cons, List.sum_cons, ih, List.filter_cons]
      split
      · rw [List.map_cons, List.sum_cons, UInt64.ofNat_add]
      · rw [zero_add]
  rw [dbNodes, hweights, h.entries, hexact,
    Tally.sum_tally (fun k v => if p (UInt64.ofNat k) then UInt64.ofNat v else 0), hcounts]
  · rfl
  · intro k v n
    split
    · exact UInt64.ofNat_add v n
    · exact (zero_add 0).symm

/-- A file that was written opens, with its last header and its counts. -/
theorem written_opens (hs : Storable log) : ∃ file db, log.written strerror = some file ∧ file.filename = log.filename ∧
    openSampleFile file = .ok (sampleHeader log.last.args.header, db) ∧ Refines sizeofOpdHeader log.calls db := by
  obtain ⟨file, hfile, hholds⟩ := writeSessions_holds hs.limit
  obtain ⟨db, hdb, hdbfile, href⟩ := hholds.opens .rdonly
  refine ⟨sampleFile strerror log.filename file, db, by rw [SampleLog.written, hfile, Option.map_some], rfl, ?_, href⟩
  have hsize : ¬file.size < sizeofOpdHeader := by
    have hoff := href.offset
    rw [← hdbfile, href.rep.layout.file]
    omega
  have hmagic : load file.byte 0 4 = opdMagic := congrArg Libabi.OpdHeader.magic hholds.header
  have hread : readHeader (sampleFile strerror log.filename file) = .ok (sampleHeader log.last.args.header) := by
    rw [readHeader, sampleFile, headerRead, if_neg hsize, if_neg (not_not.mpr hmagic), hholds.header]
  have hversion : (sampleHeader log.last.args.header).version = opdVersion := rfl
  rw [openSampleFile, hread, Results.ok_then, if_neg (not_not.mpr hversion)]
  simp only [sampleFile, hdb, Except.mapError]

end

/-! All files. -/

section

variable (strerror : Nat → Text) {logs : List SampleLog}

/-- Files that were written open one by one, and their nodes add up to what was logged. -/
theorem written_files (h : ∀ log ∈ logs, Storable log) : ∃ files, logs.mapM (SampleLog.written strerror) = some files ∧
    (∀ file ∈ files, ∃ log ∈ logs, ∃ db, openSampleFile file = .ok (sampleHeader log.last.args.header, db)) ∧
    ∀ p : UInt64 → Bool, (((files.flatMap fileNodes).filter fun s => p s.1).map Prod.snd).sum =
      UInt64.ofNat (logs.map (SampleLog.logged p)).sum := by
  induction logs with
  | nil => exact ⟨[], rfl, fun _ hfile => absurd hfile List.not_mem_nil, fun _ => rfl⟩
  | cons log logs ih =>
    obtain ⟨files, hfiles, hopens, hsum⟩ := ih fun l hl => h l (List.mem_cons_of_mem _ hl)
    have hs := h log List.mem_cons_self
    obtain ⟨file, db, hfile, -, hopen, href⟩ := written_opens strerror hs
    refine ⟨file :: files, ?_, ?_, ?_⟩
    · rw [List.mapM_cons, hfile, hfiles]
      rfl
    · intro f hf
      rcases List.mem_cons.mp hf with rfl | hf
      · exact ⟨log, List.mem_cons_self, db, hopen⟩
      · obtain ⟨l, hl, hopen'⟩ := hopens f hf
        exact ⟨l, List.mem_cons_of_mem _ hl, hopen'⟩
    · intro p
      have hnodes : fileNodes file = dbNodes db := by rw [fileNodes, hopen]
      rw [List.flatMap_cons, List.filter_append, List.map_append, List.sum_append, hsum p, hnodes,
        sum_dbNodes href hs p, List.map_cons, List.sum_cons, UInt64.ofNat_add]

theorem compatible_of_sameBinary {files : List SampleFile} (hsame : SameBinary logs)
    (hopens : ∀ file ∈ files, ∃ log ∈ logs, ∃ db, openSampleFile file = .ok (sampleHeader log.last.args.header, db)) :
    Compatible files where
  opens file hfile := by
    obtain ⟨log, -, db, hopen⟩ := hopens file hfile
    exact ⟨_, hopen⟩
  agree file hfile file' hfile' opened opened' hopen hopen' := by
    obtain ⟨log, hlog, db, hopen₁⟩ := hopens file hfile
    obtain ⟨log', hlog', db', hopen₂⟩ := hopens file' hfile'
    obtain rfl := Except.ok.inj (hopen₁.symm.trans hopen)
    obtain rfl := Except.ok.inj (hopen₂.symm.trans hopen')
    obtain ⟨hmtime, hkernel⟩ := hsame log hlog log' hlog'
    have hm : (sampleHeader log.last.args.header).mtime = (sampleHeader log'.last.args.header).mtime := hmtime
    have hk : (sampleHeader log.last.args.header).isKernel = (sampleHeader log'.last.args.header).isKernel := hkernel
    rw [opCheckHeader, if_neg (not_not.mpr hm), if_neg (not_not.mpr hk)]

/-- A test on the keys passes through the map of the samples. -/
theorem filter_addNodes (nodes : List Sample) (p : UInt64 → Bool) :
    (nodes.foldl addNode []).filter (fun s => p s.1) = (nodes.filter fun s => p s.1).foldl addNode [] := by
  have hsorted : ∀ l : List Sample, KeyMap.Sorted lessVma (l.foldl addNode []) := sorted_addNodes KeyMap.sorted_nil
  refine KeyMap.sorted_ext lessVma_strict ((hsorted nodes).sublist List.filter_sublist) (hsorted _) ?_
  intro k
  have hmem : k ∈ (nodes.filter fun s => p s.1).map Prod.fst ↔ p k = true ∧ k ∈ nodes.map Prod.fst := by
    simp only [List.mem_map, List.mem_filter]
    constructor
    · rintro ⟨s, ⟨hs, hps⟩, rfl⟩
      exact ⟨hps, s, hs, rfl⟩
    · rintro ⟨hpk, s, hs, rfl⟩
      exact ⟨s, ⟨hs, hpk⟩, rfl⟩
  rw [KeyMap.find_filter, find_addNodes, find_addNodes]
  simp only [hmem]
  by_cases hp : p k = true
  · have hsum : keySum (nodes.filter fun s => p s.1) k = keySum nodes k := by
      rw [keySum, keySum, List.filter_filter]
      congr 2
      refine List.filter_congr ?_
      intro s _
      by_cases hk : s.1 = k
      · simp [hk, hp]
      · simp [hk]
    simp only [hp, true_and, hsum, if_true]
  · rw [if_neg hp, if_neg fun h => hp h.1]
    rfl

theorem sum_filter_addNodes (nodes : List Sample) (p : UInt64 → Bool) :
    (((nodes.foldl addNode []).filter fun s => p s.1).map Prod.snd).sum =
      ((nodes.filter fun s => p s.1).map Prod.snd).sum := by
  rw [filter_addNodes, sum_addNodes KeyMap.sorted_nil]
  exact zero_add _

/-- The map of the nodes reports what they add up to. -/
theorem reports_of_nodes (nodes : List Sample) {profile : ProfileT}
    (hsum : ∀ p : UInt64 → Bool, ((nodes.filter fun s => p s.1).map Prod.snd).sum =
      UInt64.ofNat (logs.map (SampleLog.logged p)).sum)
    (hsamples : profile.orderedSamples = nodes.foldl addNode []) : Reports logs profile where
  addresses vma := by
    rw [← hsum, hsamples, find_addNodes]
    split
    · exact zero_add _
    · rename_i hk
      exact (keySum_eq_zero hk).symm
  ranges start last hoffset hle := by
    refine ⟨_, samplesRange_eq hoffset hle, ?_⟩
    rw [accumulate_within, ← hsum, hsamples]
    exact sum_filter_addNodes nodes fun vma => start.toNat ≤ vma.toNat + profile.startOffset.toNat ∧
      vma.toNat + profile.startOffset.toNat < last.toNat
  all := by
    rw [accumulate_allSamples, ← hsum, List.filter_true, hsamples, sum_addNodes KeyMap.sorted_nil]
    exact zero_add _

end

/-- What the daemon logs is what a report counts: files of one binary, each written in any sessions and read in any
order, make a profile with every sample at its address and in every range that has the address. -/
theorem report_counts_what_was_logged (strerror : Nat → Text) (logs order : List SampleLog)
    (hs : ∀ log ∈ logs, Storable log) (hsame : SameBinary logs) (horder : order.Perm logs)
    (abfd : Libutilpp.OpBfd) (valid : Bool) :
    ∃ files profile, order.mapM (SampleLog.written strerror) = some files ∧ addSampleFiles files = .ok profile ∧
      Reports logs (profile.setOffset abfd valid) := by
  obtain ⟨files, hfiles, hopens, hsum⟩ := written_files strerror fun log hlog => hs log (horder.mem_iff.mp hlog)
  have hcompatible := compatible_of_sameBinary
    (fun log hlog log' hlog' => hsame log (horder.mem_iff.mp hlog) log' (horder.mem_iff.mp hlog')) hopens
  obtain ⟨profile, hprofile, hsamples⟩ := addSampleFiles_from .empty hcompatible (fun header heq => by cases heq)
  refine ⟨files, profile, hfiles, hprofile, reports_of_nodes (files.flatMap fileNodes) ?_ ?_⟩
  · intro p
    rw [hsum p, (horder.map (SampleLog.logged p)).sum_eq]
  · refine Eq.trans ?_ hsamples
    rw [ProfileT.setOffset]
    split_ifs
    · cases profile.fileHeader with
      | none => rfl
      | some header =>
        dsimp only
        split_ifs <;> rfl
    · rfl

/-- Two files, one of which was closed and opened again. -/
def twoLogs (args : HeaderArgs) : List SampleLog :=
  [⟨['a'], [⟨args, [.odbUpdateNode 16, .odbUpdateNode 16]⟩], ⟨args, [.odbUpdateNodeWithOffset 16 5]⟩⟩,
    ⟨['b'], [], ⟨{ args with cpuSpeed := 1 }, [.odbUpdateNode 32]⟩⟩]

theorem twoLogs_storable (args : HeaderArgs) : ∀ log ∈ twoLogs args, Storable log := by
  simp only [twoLogs, List.forall_mem_cons]
  refine ⟨⟨?_, ?_⟩, ⟨?_, ?_⟩, fun _ hlog => absurd hlog List.not_mem_nil⟩
  · show BelowLimit sizeofOpdHeader [.odbUpdateNode 16, .odbUpdateNode 16, .odbUpdateNodeWithOffset 16 5]
    unfold BelowLimit
    decide
  · intro k
    exact Nat.lt_of_le_of_lt (Tally.total_le k _) (show 1 + (1 + (5 + 0)) < 2 ^ 32 by decide)
  · show BelowLimit sizeofOpdHeader [.odbUpdateNode 32]
    unfold BelowLimit
    decide
  · intro k
    exact Nat.lt_of_le_of_lt (Tally.total_le k _) (show 1 + 0 < 2 ^ 32 by decide)

theorem report_counts_what_was_logged_twice : ∃ files profile,
    (twoLogs ⟨2, 0, ⟨0x3c, 100000, 0⟩, 0, 0, 0, 0, 0, 0, 7⟩).mapM (SampleLog.written fun _ => []) = some files ∧
    addSampleFiles files = .ok profile ∧ Reports (twoLogs ⟨2, 0, ⟨0x3c, 100000, 0⟩, 0, 0, 0, 0, 0, 0, 7⟩)
      (profile.setOffset ⟨[], [], false, 0, [], 0, fun _ _ => none⟩ true) := by
  refine report_counts_what_was_logged _ _ _ (twoLogs_storable _) ?_ (List.Perm.refl _) _ _
  simp [SameBinary, twoLogs]

end Oprofile.Libpp

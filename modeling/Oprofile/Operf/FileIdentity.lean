import Oprofile.Operf.FileCalls
import Oprofile.Operf.FastPath

/-! What the sample files that `operf_sfile_find` returns were made for. -/
namespace Oprofile.Operf

variable {n : Nat} {cfg : Config n} {env : Env} {s s' a b : OperfState} {sf : OperfSfile}
  {pre calls : List FileCall}

/-- The kernel image of a transient. -/
def transKernel (s : OperfState) : Option (Nat × KernelImage) :=
  if s.trans.inKernel then s.kernelImages.findKernelImage s.trans.pc else none

/-- A kernel address is looked up with the image it is in; without one no file is returned. -/
def HasImage (s : OperfState) : Prop := s.trans.inKernel = true → (transKernel s).isSome = true

/-- What samples are kept apart by; kernel images are told by their addresses. -/
structure FileContext where
  app : CString
  image : Option CString
  tgid : UInt32
  tid : UInt32
  cpu : Option UInt32
  kernel : Option Nat
  isAnon : Bool
  range : Option (UInt64 × UInt64)
  deriving DecidableEq

/-- The context of the transient. -/
def transContext (cfg : Config n) (s : OperfState) : FileContext where
  app := s.trans.appFilename
  image := s.trans.imageName
  tgid := s.trans.tgid
  tid := s.trans.tid
  cpu := if cfg.separateCpu then some s.trans.cpu else none
  kernel := (transKernel s).map Prod.fst
  isAnon := s.trans.isAnon
  range := if s.trans.isAnon then some (s.trans.startAddr, s.trans.endAddr) else none

/-- The context that a file carries: its `app_filename` is the buffer in `trans`. -/
def fileContext (cfg : Config n) (s : OperfState) (sf : OperfSfile) : FileContext where
  app := s.trans.appFilename
  image := some sf.imageName
  tgid := sf.tgid
  tid := sf.tid
  cpu := if cfg.separateCpu then some sf.cpu else none
  kernel := sf.kernel.map Prod.fst
  isAnon := sf.isAnon
  range := if sf.isAnon then some (sf.startAddr, sf.endAddr) else none

/-- The image in the name of a sample file. -/
inductive ImageName
  | kernel (name : CString)
  | anon (tgid : UInt32) (startAddr endAddr : UInt64) (name : Option CString)
  | file (name : Option CString)

/-- `mangle_filename`, as the image and the application it passes on. -/
def mangleFilename (s : OperfState) (sf : OperfSfile) : ImageName × CString :=
  (match sf.kernel with
    | some ki => .kernel ki.2.name
    | none =>
      if sf.isAnon then .anon sf.tgid sf.startAddr sf.endAddr (some sf.imageName)
      else .file (some sf.imageName),
    s.trans.appFilename)

/-- The image and the application of a transient. -/
def transNames (s : OperfState) : ImageName × CString :=
  (match transKernel s with
    | some ki => .kernel ki.2.name
    | none =>
      if s.trans.isAnon then .anon s.trans.tgid s.trans.startAddr s.trans.endAddr s.trans.imageName
      else .file s.trans.imageName,
    s.trans.appFilename)

/-- The bucket and the compared fields of a lookup. -/
def lookupHash (cfg : Config n) (s : OperfState) : Option UInt64 :=
  s.trans.imageName.map fun name => transHash cfg.separateCpu s.trans name (transKernel s)

def lookupKey (cfg : Config n) (s : OperfState) : Option FileKey :=
  s.trans.imageName.map fun name => transKey cfg.separateCpu s.trans name (transKernel s)

/-- The file was made in the call of `operf_sfile_find` from this state. -/
def CreatedIn (calls : List FileCall) (sf : OperfSfile) (a : OperfState) : Prop :=
  ∃ b, .find a b ∈ calls ∧ b.trans.current = some sf ∧ a.sfiles.nextSfile = sf.id

/-- The mapping that holds the name of the image is still there. -/
def ImageKept (a s : OperfState) (sf : OperfSfile) : Prop :=
  ∃ id m, m.filename = sf.imageName ∧ a.procs.mmaps id = some m ∧ s.procs.mmaps id = some m

/-- The file returned was made for what it is looked up for, and still carries it. -/
def FoundExact (cfg : Config n) (calls : List FileCall) (a b : OperfState) : Prop :=
  ∀ sf, b.trans.current = some sf → (∃ a₀, CreatedIn calls sf a₀) ∧
    ∀ a₀, CreatedIn calls sf a₀ → transContext cfg a₀ = transContext cfg a ∧
      fileContext cfg a sf = transContext cfg a ∧ ImageKept a₀ a sf

/-- A file opened now is named after the application and the image it was made for. -/
def OpenedExact (calls : List FileCall) (s : OperfState) : Prop :=
  ∀ sf, s.trans.current = some sf → (∃ a₀, CreatedIn calls sf a₀) ∧
    ∀ a₀, CreatedIn calls sf a₀ → mangleFilename s sf = transNames a₀ ∧ ImageKept a₀ s sf

def CallExact (cfg : Config n) (pre : List FileCall) : FileCall → Prop
  | .find a b => FoundExact cfg (pre ++ [.find a b]) a b
  | .getFile s => OpenedExact pre s

/-- The calls all find and open the files of their own contexts. -/
def StableAndExact (cfg : Config n) (calls : List FileCall) : Prop :=
  ∀ pre c post, calls = pre ++ c :: post → CallExact cfg pre c

/-- While the file of a lookup is in the table, no other context has its bucket and its fields. -/
def ContextsApart (cfg : Config n) (calls : List FileCall) : Prop :=
  ∀ pre a b mid a' b' post, calls = pre ++ .find a b :: (mid ++ .find a' b' :: post) →
    ∀ sf, b.trans.current = some sf → sf ∈ a'.sfiles.hashes → HasImage a' →
      lookupHash cfg a = lookupHash cfg a' → lookupKey cfg a = lookupKey cfg a' →
        transContext cfg a = transContext cfg a'

/-- What the calls so far say of the files in the table. -/
structure TableInv (cfg : Config n) (pre : List FileCall) (s : OperfState) : Prop where
  ok : SfilesOk cfg.separateCpu s.sfiles
  tables : TablesOrdinary s
  listed : ∀ sf ∈ s.sfiles.hashes, ∃ a, CreatedIn pre sf a
  returned : ∀ a b sf, .find a b ∈ pre → b.trans.current = some sf →
    (∃ a₀, CreatedIn pre sf a₀) ∧ sf.id < s.sfiles.nextSfile ∧
      lookupHash cfg a = some sf.hashval ∧ lookupKey cfg a = some (sf.key cfg.separateCpu)
  born : ∀ sf a, CreatedIn pre sf a → fileContext cfg a sf = transContext cfg a ∧
    mangleFilename a sf = transNames a ∧
      ∃ id m, m.filename = sf.imageName ∧ Held a id m ∧ Held s id m
  once : ∀ sf a a', CreatedIn pre sf a → CreatedIn pre sf a' → a = a'

/-- `trans.current` comes from a lookup for the application that `trans` names. -/
def CurrentFrom (pre : List FileCall) (s : OperfState) : Prop :=
  ∀ sf, s.trans.current = some sf → ∃ a b, .find a b ∈ pre ∧ b.trans.current = some sf ∧
    a.trans.appFilename = s.trans.appFilename

theorem TableInv.closed (h : TableInv cfg pre s) (hf : FilesClosed s s') (hh : KeepsHeld s s') :
    TableInv cfg pre s' := by
  obtain ⟨ht, hheld⟩ := hh h.tables
  refine ⟨hf.ok h.ok, ht, fun sf hsf => h.listed sf (hf.mem hsf), fun a b sf hmem hcur => ?_,
    fun sf a hcreated => ?_, h.once⟩
  · rw [hf.next]
    exact h.returned a b sf hmem hcur
  · obtain ⟨hctx, hnames, id, m, hname, ha, hs⟩ := h.born sf a hcreated
    exact ⟨hctx, hnames, id, m, hname, ha, hheld id m hs⟩

/-- What `operf_sfile_find` returns. -/
theorem findCurrent_returns (hfind : findCurrent cfg a = some b) :
    (¬ HasImage a ∧ b.trans.current = none ∧ b.sfiles = a.sfiles) ∨
      ∃ name, HasImage a ∧ a.trans.imageName = some name ∧
        b.trans.current = some (sfileFind cfg.separateCpu a.sfiles a.trans name (transKernel a)).1 ∧
        b.sfiles = (sfileFind cfg.separateCpu a.sfiles a.trans name (transKernel a)).2 := by
  obtain ⟨name, hname, -, ⟨hmode, hnone, rfl⟩ | ⟨ki, hk, hu, rfl⟩⟩ := findCurrent_cases hfind
  · refine Or.inl ⟨fun himage => ?_, rfl, rfl⟩
    have hsome := himage hmode
    rw [transKernel, if_pos hmode, hnone] at hsome
    cases hsome
  · have hki : transKernel a = ki := by
      unfold transKernel
      cases hmode : a.trans.inKernel with
      | true =>
        rw [if_pos rfl]
        exact (hk hmode).1
      | false =>
        rw [if_neg Bool.false_ne_true, hu hmode]
    have himage : HasImage a := by
      intro hmode
      rw [hki]
      exact (hk hmode).2
    rw [hki]
    exact Or.inr ⟨name, himage, hname, rfl, rfl⟩

theorem createSfile_context {id : Nat} {hash : UInt64} {name : CString}
    (hname : a.trans.imageName = some name) :
    fileContext cfg a (createSfile cfg.separateCpu id hash a.trans name (transKernel a)) =
        transContext cfg a ∧
      mangleFilename a (createSfile cfg.separateCpu id hash a.trans name (transKernel a)) =
        transNames a := by
  refine ⟨?_, ?_⟩
  · simp only [fileContext, transContext, createSfile, hname]
    cases cfg.separateCpu <;> rfl
  · simp only [mangleFilename, transNames, createSfile, hname]
    cases transKernel a with
    | none => rfl
    | some ki => rfl

theorem CreatedIn.mono (post : List FileCall) (h : CreatedIn pre sf a) :
    CreatedIn (pre ++ post) sf a := by
  obtain ⟨b, hmem, hcur, hid⟩ := h
  exact ⟨b, List.mem_append_left post hmem, hcur, hid⟩

theorem createdIn_snoc {a₀ : OperfState} (h : CreatedIn (pre ++ [.find a b]) sf a₀) :
    CreatedIn pre sf a₀ ∨ (a₀ = a ∧ b.trans.current = some sf ∧ a.sfiles.nextSfile = sf.id) := by
  obtain ⟨b₀, hmem, hcur, hid⟩ := h
  rcases List.mem_append.mp hmem with hmem | hmem
  · exact Or.inl ⟨b₀, hmem, hcur, hid⟩
  · obtain ⟨rfl, rfl⟩ := FileCall.find.inj (List.mem_singleton.mp hmem)
    exact Or.inr ⟨rfl, hcur, hid⟩

theorem Attributes.tableInv (hset : Attributes s a) (h : TableInv cfg pre s) : TableInv cfg pre a :=
  h.closed hset.files hset.held

/-- One lookup: what is in the table after it, and what it returns. -/
structure LookupFacts (cfg : Config n) (a b : OperfState) : Prop where
  ok : SfilesOk cfg.separateCpu b.sfiles
  next : a.sfiles.nextSfile ≤ b.sfiles.nextSfile
  listed : ∀ sf ∈ b.sfiles.hashes, sf ∈ a.sfiles.hashes ∨
    (b.trans.current = some sf ∧ a.sfiles.nextSfile = sf.id)
  returned : ∀ sf, b.trans.current = some sf →
    (sf ∈ a.sfiles.hashes ∨ a.sfiles.nextSfile = sf.id) ∧ sf.id < b.sfiles.nextSfile ∧
      lookupHash cfg a = some sf.hashval ∧ lookupKey cfg a = some (sf.key cfg.separateCpu)
  born : ∀ sf, b.trans.current = some sf → a.sfiles.nextSfile = sf.id →
    fileContext cfg a sf = transContext cfg a ∧ mangleFilename a sf = transNames a ∧
      some sf.imageName = a.trans.imageName

theorem Attributes.lookupFacts (hset : Attributes s a) (hok : SfilesOk cfg.separateCpu a.sfiles)
    (hfind : findCurrent cfg a = some b) : LookupFacts cfg a b := by
  rcases findCurrent_returns hfind with ⟨-, hnone, hsf⟩ | ⟨name, -, hname, hcur, hsf⟩
  · refine ⟨hsf ▸ hok, by rw [hsf], fun sf hmem => Or.inl (by rw [hsf] at hmem; exact hmem),
      fun sf hcur => ?_, fun sf hcur => ?_⟩
    · rw [hnone] at hcur
      cases hcur
    · rw [hnone] at hcur
      cases hcur
  · have hlen : a.trans.imageLen = name.length := by
      obtain ⟨name', hname', hlen, -⟩ := hset.image
      rw [hname, Option.some_inj] at hname'
      rw [hlen, hname']
    have hhash : lookupHash cfg a = some (transHash cfg.separateCpu a.trans name (transKernel a)) := by
      rw [lookupHash, hname, Option.map_some]
    have hkey : lookupKey cfg a = some (transKey cfg.separateCpu a.trans name (transKernel a)) := by
      rw [lookupKey, hname, Option.map_some]
    have hok' := (sfileFind_spec (transKernel a) hok hlen).1
    rcases sfileFind_cases (transKernel a) hok hlen with ⟨found, hmem, hh, hk, heq⟩ | ⟨-, heq⟩
    · rw [heq] at hcur hsf hok'
      refine ⟨hsf ▸ hok', by rw [hsf], fun sf hsf' => Or.inl (by rw [hsf] at hsf'; exact hsf'),
        fun sf hsome => ?_, fun sf hsome hid => ?_⟩
      · rw [hcur, Option.some_inj] at hsome
        subst hsome
        rw [hsf, hhash, hkey, hh, hk]
        exact ⟨Or.inl hmem, hok.fresh found hmem, rfl, rfl⟩
      · rw [hcur, Option.some_inj] at hsome
        subst hsome
        exact absurd (hok.fresh found hmem) (by rw [hid]; exact Nat.lt_irrefl _)
    · rw [heq] at hcur hsf hok'
      refine ⟨hsf ▸ hok', by rw [hsf]; exact Nat.le_succ _, fun sf hmem => ?_, fun sf hsome => ?_,
        fun sf hsome _ => ?_⟩
      · rw [hsf] at hmem
        rcases List.mem_cons.mp hmem with rfl | hmem
        · exact Or.inr ⟨hcur, rfl⟩
        · exact Or.inl hmem
      · rw [hcur, Option.some_inj] at hsome
        rw [← hsome, createSfile_key, hsf]
        exact ⟨Or.inr rfl, Nat.lt_succ_self _, hhash, hkey⟩
      · rw [hcur, Option.some_inj] at hsome
        rw [← hsome, hname]
        exact ⟨(createSfile_context hname).1, (createSfile_context hname).2, rfl⟩

/-- A file made in the last call has not been made before. -/
theorem TableInv.new_of_next (h : TableInv cfg pre a) (hid : a.sfiles.nextSfile = sf.id) {a₀ : OperfState} :
    ¬ CreatedIn pre sf a₀ := by
  rintro ⟨b₀, hmem, hcur, -⟩
  have hlt := (h.returned a₀ b₀ sf hmem hcur).2.1
  rw [hid] at hlt
  exact Nat.lt_irrefl _ hlt

/-- A lookup keeps what is known of the files, and adds what is known of the file it returns. -/
theorem TableInv.find (h : TableInv cfg pre a) (hf : LookupFacts cfg a b) (hheld : KeepsHeld a b)
    (himage : ∃ id m, Held a id m ∧ some m.filename = a.trans.imageName) :
    TableInv cfg (pre ++ [.find a b]) b := by
  obtain ⟨ht, hkept⟩ := hheld h.tables
  have hself : ∀ sf, b.trans.current = some sf → a.sfiles.nextSfile = sf.id →
      CreatedIn (pre ++ [.find a b]) sf a := fun sf hcur hid =>
    ⟨b, List.mem_append_right pre List.mem_cons_self, hcur, hid⟩
  refine ⟨hf.ok, ht, fun sf hmem => ?_, fun a' b' sf hmem hcur => ?_, fun sf a₀ hc => ?_,
    fun sf a₀ a₁ h₀ h₁ => ?_⟩
  · rcases hf.listed sf hmem with hold | ⟨hcur, hid⟩
    · obtain ⟨a₀, ha₀⟩ := h.listed sf hold
      exact ⟨a₀, ha₀.mono _⟩
    · exact ⟨a, hself sf hcur hid⟩
  · rcases List.mem_append.mp hmem with hmem | hmem
    · obtain ⟨⟨a₀, ha₀⟩, hlt, hrest⟩ := h.returned a' b' sf hmem hcur
      exact ⟨⟨a₀, ha₀.mono _⟩, Nat.lt_of_lt_of_le hlt hf.next, hrest⟩
    · obtain ⟨rfl, rfl⟩ := FileCall.find.inj (List.mem_singleton.mp hmem)
      obtain ⟨hold | hid, hrest⟩ := hf.returned sf hcur
      · obtain ⟨a₀, ha₀⟩ := h.listed sf hold
        exact ⟨⟨a₀, ha₀.mono _⟩, hrest⟩
      · exact ⟨⟨_, hself sf hcur hid⟩, hrest⟩
  · rcases createdIn_snoc hc with hold | ⟨rfl, hcur, hid⟩
    · obtain ⟨hctx, hnames, id, m, hfile, ha, hs⟩ := h.born sf a₀ hold
      exact ⟨hctx, hnames, id, m, hfile, ha, hkept id m hs⟩
    · obtain ⟨hctx, hnames, hname⟩ := hf.born sf hcur hid
      obtain ⟨id, m, hm, hfile⟩ := himage
      exact ⟨hctx, hnames, id, m, Option.some_inj.mp (hfile.trans hname.symm), hm, hkept id m hm⟩
  · rcases createdIn_snoc h₀ with hold | ⟨rfl, hcur, hid⟩
    · rcases createdIn_snoc h₁ with hold' | ⟨rfl, hcur, hid⟩
      · exact h.once sf a₀ a₁ hold hold'
      · exact (h.new_of_next hid hold).elim
    · rcases createdIn_snoc h₁ with hold' | ⟨rfl, -, -⟩
      · exact (h.new_of_next hid hold').elim
      · rfl

/-- The states between the calls. -/
structure CallsInv (cfg : Config n) (pre : List FileCall) (s : OperfState) : Prop where
  table : TableInv cfg pre s
  current : CurrentFrom pre s

theorem CallsInv.quiet (h : CallsInv cfg pre s) (hq : Quiet s s') : CallsInv cfg pre s' := by
  refine ⟨h.table.closed hq.files hq.held, fun sf hcur => ?_⟩
  rw [hq.current] at hcur
  rw [hq.app]
  exact h.current sf hcur

theorem CallsInv.getFile (h : CallsInv cfg pre s) : CallsInv cfg (pre ++ [.getFile a]) s := by
  have hfind : ∀ {a' b'}, FileCall.find a' b' ∈ pre ++ [FileCall.getFile a] → FileCall.find a' b' ∈ pre := by
    intro a' b' hmem
    rcases List.mem_append.mp hmem with hmem | hmem
    · exact hmem
    · cases List.mem_singleton.mp hmem
  have hcreated : ∀ {sf a₀}, CreatedIn (pre ++ [.getFile a]) sf a₀ → CreatedIn pre sf a₀ := by
    rintro sf a₀ ⟨b₀, hmem, hrest⟩
    exact ⟨b₀, hfind hmem, hrest⟩
  refine ⟨⟨h.table.ok, h.table.tables, fun sf hsf => ?_, fun a' b' sf hmem hcur => ?_,
    fun sf a₀ hc => h.table.born sf a₀ (hcreated hc),
    fun sf a₀ a₁ h₀ h₁ => h.table.once sf a₀ a₁ (hcreated h₀) (hcreated h₁)⟩, fun sf hcur => ?_⟩
  · obtain ⟨a₀, ha₀⟩ := h.table.listed sf hsf
    exact ⟨a₀, ha₀.mono _⟩
  · obtain ⟨⟨a₀, ha₀⟩, hrest⟩ := h.table.returned a' b' sf (hfind hmem) hcur
    exact ⟨⟨a₀, ha₀.mono _⟩, hrest⟩
  · obtain ⟨a', b', hmem, hrest⟩ := h.current sf hcur
    exact ⟨a', b', List.mem_append_left _ hmem, hrest⟩

/-- The mapping that `trans` has been set from. -/
theorem Attributes.held_image (hset : Attributes s a) (ht : TablesOrdinary s) :
    ∃ id m, Held a id m ∧ some m.filename = a.trans.imageName := by
  obtain ⟨name, hname, -, himage⟩ := hset.image
  obtain ⟨id, m, hm, hfile⟩ := himage ht
  exact ⟨id, m, hm, by rw [hname, hfile]⟩

theorem CallsInv.find (h : CallsInv cfg pre s) (hset : Attributes s a)
    (hfind : findCurrent cfg a = some b) : CallsInv cfg (pre ++ [.find a b]) b := by
  have htable := hset.tableInv h.table
  have hheld : KeepsHeld a b := KeepsHeld.of_tables (findCurrent_adds hfind).1
  refine ⟨htable.find (hset.lookupFacts htable.ok hfind) hheld (hset.held_image h.table.tables),
    fun sf hcur => ?_⟩
  refine ⟨a, b, List.mem_append_right pre List.mem_cons_self, hcur, ?_⟩
  obtain ⟨name, -, -, ⟨-, -, rfl⟩ | ⟨ki, -, -, rfl⟩⟩ := findCurrent_cases hfind
  · rfl
  · rfl

/-- The state each call is made from. -/
def MadeFrom (cfg : Config n) (s : OperfState) : FileCall → Prop
  | .find a b => Attributes s a ∧ findCurrent cfg a = some b
  | .getFile a => Quiet s a

theorem Traced.inv_at {post : List FileCall} {c : FileCall} (ht : Traced cfg s calls s')
    (h : CallsInv cfg pre s) {xs : List FileCall} (heq : calls = xs ++ c :: post) :
    ∃ s₁, CallsInv cfg (pre ++ xs) s₁ ∧ MadeFrom cfg s₁ c := by
  induction ht generalizing pre xs with
  | quiet hq =>
    cases xs with
    | nil => cases heq
    | cons x xs => cases heq
  | @find s a b s' calls hset hfind hrest ih =>
    cases xs with
    | nil =>
      obtain ⟨rfl, -⟩ := List.cons.inj heq
      refine ⟨s, ?_, hset, hfind⟩
      rw [List.append_nil]
      exact h
    | cons x xs =>
      obtain ⟨rfl, htail⟩ := List.cons.inj heq
      obtain ⟨s₁, hinv, hmade⟩ := ih (h.find hset hfind) htail
      rw [List.append_assoc] at hinv
      exact ⟨s₁, hinv, hmade⟩
  | @getFile s a s' calls hq hrest ih =>
    cases xs with
    | nil =>
      obtain ⟨rfl, -⟩ := List.cons.inj heq
      refine ⟨s, ?_, hq⟩
      rw [List.append_nil]
      exact h
    | cons x xs =>
      obtain ⟨rfl, htail⟩ := List.cons.inj heq
      obtain ⟨s₁, hinv, hmade⟩ := ih (h.quiet hq).getFile htail
      rw [List.append_assoc] at hinv
      exact ⟨s₁, hinv, hmade⟩

theorem callsInv_init (cfg : Config n) (images : KernelImages) : CallsInv cfg [] (initialState images) := by
  refine ⟨⟨sfilesOk_nil _, ⟨fun id m hm => ?_, fun x hx => ?_, fun id hid => ?_, fun x hx => ?_⟩,
    fun sf hsf => ?_, fun a b sf hmem => ?_, fun sf a hc => ?_, fun sf a a' hc => ?_⟩, fun sf hcur => ?_⟩
  · cases hm
  · cases hx
  · cases hid
  · cases hx
  · cases hsf
  · cases hmem
  · obtain ⟨b, hmem, -⟩ := hc
    cases hmem
  · obtain ⟨b, hmem, -⟩ := hc
    cases hmem
  · cases hcur

section Calls

variable {s₁ : OperfState} {mid post : List FileCall} {a' b' : OperfState}

/-- A lookup returns a file of the table that has its bucket and its fields. -/
theorem found_again (htable : TableInv cfg pre a') (hset : Attributes s₁ a')
    (hfind : findCurrent cfg a' = some b') (himage : HasImage a') (hmem : sf ∈ a'.sfiles.hashes)
    (hhash : lookupHash cfg a' = some sf.hashval)
    (hkey : lookupKey cfg a' = some (sf.key cfg.separateCpu)) : b'.trans.current = some sf := by
  rcases findCurrent_returns hfind with ⟨hno, -⟩ | ⟨name, -, hname, hcur, -⟩
  · exact (hno himage).elim
  · have hlen : a'.trans.imageLen = name.length := by
      obtain ⟨name', hname', hlen, -⟩ := hset.image
      rw [hname, Option.some_inj] at hname'
      rw [hlen, hname']
    rw [lookupHash, hname, Option.map_some, Option.some_inj] at hhash
    rw [lookupKey, hname, Option.map_some, Option.some_inj] at hkey
    rw [hcur, (sfileFind_eq_iff htable.ok hlen hmem).mpr ⟨hhash, hkey⟩]

/-- Of two lookups that return one file, both are for its context. -/
theorem contextsApart_of_exact {s : OperfState} (ht : Traced cfg s calls s') (hinit : CallsInv cfg [] s)
    (hexact : StableAndExact cfg calls) : ContextsApart cfg calls := by
  intro pre a b mid a' b' post heq sf hcur hmem himage hhash hkey
  have heq' : calls = (pre ++ .find a b :: mid) ++ .find a' b' :: post := by
    rw [heq, List.append_assoc]
    rfl
  obtain ⟨s₁, hinv, hset, hfind⟩ := ht.inv_at hinit heq'
  rw [List.nil_append] at hinv
  have htable := hset.tableInv hinv.table
  have hfirst : FileCall.find a b ∈ pre ++ .find a b :: mid :=
    List.mem_append_right pre List.mem_cons_self
  obtain ⟨-, -, hhash₁, hkey₁⟩ := htable.returned a b sf hfirst hcur
  have hagain : b'.trans.current = some sf :=
    found_again htable hset hfind himage hmem (hhash.symm.trans hhash₁) (hkey.symm.trans hkey₁)
  obtain ⟨⟨a₀, ha₀⟩, hall⟩ := hexact pre (.find a b) (mid ++ .find a' b' :: post) heq sf hcur
  have hlater : CreatedIn ((pre ++ .find a b :: mid) ++ [.find a' b']) sf a₀ := by
    have hmono := ha₀.mono (mid ++ [.find a' b'])
    rw [List.append_assoc] at hmono
    rw [List.append_assoc]
    exact hmono
  obtain ⟨-, hall'⟩ := hexact _ (.find a' b') post heq' sf hagain
  exact (hall a₀ ha₀).1.symm.trans (hall' a₀ hlater).1

/-- A file found for a context that is kept apart was made for it. -/
theorem foundExact_of_apart {s : OperfState} (ht : Traced cfg s calls s') (hinit : CallsInv cfg [] s)
    (hapart : ContextsApart cfg calls) (heq : calls = pre ++ .find a b :: post) :
    FoundExact cfg (pre ++ [.find a b]) a b := by
  obtain ⟨s₁, hinv, hset, hfind⟩ := ht.inv_at hinit heq
  rw [List.nil_append] at hinv
  have htable := hset.tableInv hinv.table
  have hfacts := hset.lookupFacts htable.ok hfind
  have hheld : KeepsHeld a b := KeepsHeld.of_tables (findCurrent_adds hfind).1
  have himage := hset.held_image hinv.table.tables
  have hafter := htable.find hfacts hheld himage
  intro sf hcur
  obtain ⟨hcreated, -, hhash, hkey⟩ :=
    hafter.returned a b sf (List.mem_append_right pre List.mem_cons_self) hcur
  refine ⟨hcreated, fun a₀ ha₀ => ?_⟩
  rcases createdIn_snoc ha₀ with hold | ⟨rfl, -, hid⟩
  · obtain ⟨hctx, -, id, m, hfile, h₀, hs⟩ := htable.born sf a₀ hold
    obtain ⟨b₀, hmem₀, hcur₀, -⟩ := hold
    obtain ⟨-, hlt, hhash₀, hkey₀⟩ := htable.returned a₀ b₀ sf hmem₀ hcur₀
    have hlive : sf ∈ a.sfiles.hashes := by
      refine (hfacts.returned sf hcur).1.resolve_right fun hid => ?_
      rw [hid] at hlt
      exact Nat.lt_irrefl _ hlt
    have hhas : HasImage a := by
      rcases findCurrent_returns hfind with ⟨-, hnone, -⟩ | ⟨name, hhas, -⟩
      · rw [hnone] at hcur
        cases hcur
      · exact hhas
    obtain ⟨xs, ys, hsplit⟩ := List.append_of_mem hmem₀
    have hsame : transContext cfg a₀ = transContext cfg a := by
      refine hapart xs a₀ b₀ ys a b post ?_ sf hcur₀ hlive hhas (hhash₀.trans hhash.symm)
        (hkey₀.trans hkey.symm)
      rw [heq, hsplit, List.append_assoc]
      rfl
    refine ⟨hsame, ?_, id, m, hfile, h₀.1, hs.1⟩
    have happ : a₀.trans.appFilename = a.trans.appFilename := congrArg FileContext.app hsame
    rw [← hsame, ← hctx, fileContext, fileContext, happ]
  · obtain ⟨hctx, -, id, m, hfile, h₀, -⟩ := hafter.born sf a₀ ha₀
    exact ⟨rfl, hctx, id, m, hfile, h₀.1, h₀.1⟩

/-- A file is opened under the name it would have been given when it was made. -/
theorem openedExact_of_apart {s o : OperfState} (ht : Traced cfg s calls s') (hinit : CallsInv cfg [] s)
    (hapart : ContextsApart cfg calls) (heq : calls = pre ++ .getFile o :: post) : OpenedExact pre o := by
  obtain ⟨s₁, hinv, hq⟩ := ht.inv_at hinit heq
  rw [List.nil_append] at hinv
  have hinv := hinv.quiet hq
  intro sf hcur
  obtain ⟨a, b, hmem, hcur₁, happ⟩ := hinv.current sf hcur
  refine ⟨(hinv.table.returned a b sf hmem hcur₁).1, fun a₀ ha₀ => ?_⟩
  obtain ⟨hctx, hnames, id, m, hfile, h₀, hs⟩ := hinv.table.born sf a₀ ha₀
  refine ⟨?_, id, m, hfile, h₀.1, hs.1⟩
  obtain ⟨xs, ys, hsplit⟩ := List.append_of_mem hmem
  have heq' : calls = xs ++ .find a b :: (ys ++ .getFile o :: post) := by
    rw [heq, hsplit, List.append_assoc]
    rfl
  obtain ⟨⟨a₁, ha₁⟩, hall⟩ := foundExact_of_apart ht hinit hapart heq' sf hcur₁
  have hone : a₁ = a₀ := by
    refine hinv.table.once sf a₁ a₀ ?_ ha₀
    have hmono := ha₁.mono ys
    rw [List.append_assoc] at hmono
    rw [hsplit]
    exact hmono
  have hsame := (hall a₁ ha₁).1
  rw [hone] at hsame
  have happ₀ : a₀.trans.appFilename = o.trans.appFilename :=
    (congrArg FileContext.app hsame).trans happ
  rw [← hnames, mangleFilename, mangleFilename, happ₀]

end Calls

/-- In every conversion the files that `operf_sfile_find` returns are made for the contexts they are
returned for, still carry them, and are opened under their names, exactly when no context is looked up
while the file of another context with its hash value and its compared fields is in the table. -/
theorem files_stable_and_exact_iff (cfg : Config n) (env : Env) (images : KernelImages)
    (es : List Event) : StableAndExact cfg (conversionCalls cfg env es (initialState images)) ↔
      ContextsApart cfg (conversionCalls cfg env es (initialState images)) := by
  have htraced : ∃ s', Traced cfg (initialState images)
      (conversionCalls cfg env es (initialState images)) s' := conversionCalls_traced rfl
  obtain ⟨s', ht⟩ := htraced
  have hinit := callsInv_init cfg images
  constructor
  · intro hexact
    exact contextsApart_of_exact ht hinit hexact
  · intro hapart pre c post heq
    cases c with
    | find a b => exact foundExact_of_apart ht hinit hapart heq
    | getFile o => exact openedExact_of_apart ht hinit hapart heq

/-- A process with two anonymous pages next to each other, and a sample in each. -/
def adjacentPages : List Event :=
  [.comm ⟨10, 10, ['b']⟩, .mmap ⟨perfRecordMiscUser, 10, 0x10000, 0x1000, 0, slashAnon⟩,
    .mmap ⟨perfRecordMiscUser, 10, 0x11000, 0x1000, 0, slashAnon⟩,
    .sample (userSample 0x10100 11), .sample (userSample 0x11100 11)]

/-- Where the file returned starts and where the mapping does, for an anonymous mapping. -/
def rangeStarts : FileCall → Option (UInt64 × UInt64)
  | .find a b =>
    if a.trans.isAnon then b.trans.current.map fun sf => (sf.startAddr, a.trans.startAddr) else none
  | .getFile _ => none

/-- Both pages have one hash value: the second page's sample goes to the file of the first. -/
theorem adjacent_pages_share_file : ¬ StableAndExact twoEvents
    (conversionCalls twoEvents quietEnv adjacentPages (initialState noVmlinux)) := by
  intro hexact
  have hrun : (conversionCalls twoEvents quietEnv adjacentPages (initialState noVmlinux)).map
      rangeStarts = [some (0x10000, 0x10000), none, some (0x10000, 0x11000), none] := by decide
  have hmem : some (0x10000, 0x11000) ∈ (conversionCalls twoEvents quietEnv adjacentPages
      (initialState noVmlinux)).map rangeStarts := by
    rw [hrun]
    decide
  obtain ⟨c, hc, hstarts⟩ := List.mem_map.mp hmem
  obtain ⟨pre, post, heq⟩ := List.append_of_mem hc
  have hright := hexact pre c post heq
  cases c with
  | getFile o => cases hstarts
  | find a b =>
    rw [rangeStarts] at hstarts
    split_ifs at hstarts with hanon
    obtain ⟨sf, hcur, hsame⟩ := Option.map_eq_some_iff.mp hstarts
    obtain ⟨⟨a₀, ha₀⟩, hall⟩ := hright sf hcur
    have hctx := (hall a₀ ha₀).2.1
    rw [Prod.mk.injEq] at hsame
    have hisAnon : sf.isAnon = true := (congrArg FileContext.isAnon hctx).trans hanon
    have hrange := congrArg FileContext.range hctx
    simp only [fileContext, transContext, hisAnon, hanon, if_true, Option.some_inj, Prod.mk.injEq,
      hsame.1, hsame.2] at hrange
    exact absurd hrange.1 (by decide)

end Oprofile.Operf

import Oprofile.Libabi.OpImport
import Oprofile.Libdb.OdbOpen

/-! Sample files as the daemon writes them: opened, given a header, updated and closed, any number of times
(`opd_mangling.c`, `opd_events.c`). -/
namespace Oprofile.Daemon

open ByteMem Tally Libdb Libabi

/-- `sizeof(struct opd_header)` -/
def sizeofOpdHeader : Nat := 88

/-- `OPD_MAGIC`: `"DAE\n"` -/
def opdMagic : List UInt8 := [68, 65, 69, 10]

/-- `OPD_VERSION` -/
def opdHeaderVersion : UInt32 := 0x12

/-- The fields of a `struct opd_event` that go into a header. -/
structure OpdEvent where
  value : UInt64
  count : UInt64
  um : UInt64

/-- What `fill_header` is called with, the event of the counter and the two globals included. -/
structure HeaderArgs where
  cpuType : UInt32
  /-- The bits of a `double`. -/
  cpuSpeed : UInt64
  event : OpdEvent
  anonStart : UInt64
  cgToAnonStart : UInt64
  isKernel : UInt32
  cgToIsKernel : UInt32
  spuSamples : UInt32
  embedOffset : UInt64
  mtime : UInt64

/-- `memset(header, '\0', sizeof(struct opd_header))` -/
def clearHeader (m : Bytes) : Bytes := fun x => if x < sizeofOpdHeader then 0 else m x

/-- `fill_header`; the header is at the front of the mapping. -/
def fillHeader (m : Bytes) (args : HeaderArgs) : Bytes :=
  let m := clearHeader m
  let m := put32 m 4 opdHeaderVersion.toNat
  let m := store m 0 opdMagic
  let m := put32 m 8 args.cpuType.toNat
  let m := put32 m 12 args.event.value.toNat
  let m := put32 m 20 args.event.count.toNat
  let m := put32 m 16 args.event.um.toNat
  let m := put32 m 24 args.isKernel.toNat
  let m := put32 m 48 args.cgToIsKernel.toNat
  let m := put64 m 32 args.cpuSpeed.toNat
  let m := put64 m 40 args.mtime.toNat
  let m := put64 m 64 args.anonStart.toNat
  let m := put32 m 52 args.spuSamples.toNat
  let m := put64 m 56 args.embedOffset.toNat
  put64 m 72 args.cgToAnonStart.toNat

/-- The header that lies at the front of a mapping. -/
def headerAt (m : Bytes) : OpdHeader where
  magic := load m 0 4
  version := UInt32.ofNat (get32 m 4)
  cpuType := UInt32.ofNat (get32 m 8)
  ctrEvent := UInt32.ofNat (get32 m 12)
  ctrUm := UInt32.ofNat (get32 m 16)
  ctrCount := UInt32.ofNat (get32 m 20)
  isKernel := UInt32.ofNat (get32 m 24)
  cpuSpeed := UInt64.ofNat (get64 m 32)
  mtime := UInt64.ofNat (get64 m 40)
  cgToIsKernel := UInt32.ofNat (get32 m 48)
  spuProfile := UInt32.ofNat (get32 m 52)
  embeddedOffset := UInt64.ofNat (get64 m 56)
  anonStart := UInt64.ofNat (get64 m 64)
  cgToAnonStart := UInt64.ofNat (get64 m 72)

/-- The header that the arguments say. The three numbers of the event lose their upper halves. -/
def HeaderArgs.header (args : HeaderArgs) : OpdHeader where
  magic := opdMagic
  version := opdHeaderVersion
  cpuType := args.cpuType
  ctrEvent := args.event.value.toUInt32
  ctrUm := args.event.um.toUInt32
  ctrCount := args.event.count.toUInt32
  isKernel := args.isKernel
  cpuSpeed := args.cpuSpeed
  mtime := args.mtime
  cgToIsKernel := args.cgToIsKernel
  spuProfile := args.spuSamples
  embeddedOffset := args.embedOffset
  anonStart := args.anonStart
  cgToAnonStart := args.cgToAnonStart

/-- `opd_open_sample_file` from the opening of the store on. -/
def opdOpenSampleFile (errors : OpenErrors) (args : HeaderArgs) (file : File) : Except Nat OdbData := do
  let d ← odbOpen errors .rdwr file sizeofOpdHeader
  return { d with file := { d.file with byte := fillHeader d.file.byte args } }

/-- A sample file from its opening to its closing. -/
structure Session where
  args : HeaderArgs
  calls : List Call

/-- The file that a session leaves, if it can be opened and every call returns. -/
def writeSession (file : File) (session : Session) : Option File := do
  let d ← (opdOpenSampleFile .noError session.args file).toOption
  let d ← run session.calls d
  return d.file

/-- The sessions of a file that is not there before. -/
def writeSessions (sessions : List Session) : Option File := sessions.foldlM writeSession File.empty

/-- All calls on a file. -/
def allCalls (sessions : List Session) : List Call := sessions.flatMap Session.calls

/-! The header. -/

section

variable {m m' : Bytes} {x : Nat} {args : HeaderArgs}

theorem load_put32 {a v b n : Nat} (h : a + 4 ≤ b ∨ b + n ≤ a) : load (put32 m a v) b n = load m b n :=
  load_congr fun _ _ _ => put32_byte_ne (by omega)

theorem load_put64 {a v b n : Nat} (h : a + 8 ≤ b ∨ b + n ≤ a) : load (put64 m a v) b n = load m b n := by
  rw [put64, load_put32 (by omega), load_put32 (by omega)]

theorem get32_store {a b : Nat} {bs : List UInt8} (h : a + bs.length ≤ b) : get32 (store m a bs) b = get32 m b :=
  get32_congr fun _ _ _ => store_byte_ne (by omega)

theorem put64_byte_ne {a v : Nat} (h : x < a ∨ a + 8 ≤ x) : put64 m a v x = m x := by
  rw [put64, put32_byte_ne (by omega), put32_byte_ne (by omega)]

theorem ofNat_mod32 (n : UInt32) : UInt32.ofNat (n.toNat % 2 ^ 32) = n := by
  rw [Nat.mod_eq_of_lt n.toNat_lt, UInt32.ofNat_toNat]

theorem ofNat_mod64 (n : UInt64) : UInt64.ofNat (n.toNat % 2 ^ 64) = n := by
  rw [Nat.mod_eq_of_lt n.toNat_lt, UInt64.ofNat_toNat]

theorem ofNat_low (n : UInt64) : UInt32.ofNat (n.toNat % 2 ^ 32) = n.toUInt32 := by
  apply UInt32.toNat_inj.mp
  rw [UInt32.toNat_ofNat', UInt64.toNat_toUInt32, Nat.mod_mod]

/-- What is filled in is what is read. -/
theorem headerAt_fillHeader : headerAt (fillHeader m args) = args.header := by
  simp (disch := simp [opdMagic]) only [headerAt, fillHeader, HeaderArgs.header, OpdHeader.mk.injEq, get32_put32_self,
    get64_put64_self, get32_put32_disjoint, get32_put64_disjoint, get64_put32_disjoint, get64_put64_disjoint,
    load_put32, load_put64, get32_store]
  simp only [ofNat_mod32, ofNat_mod64, ofNat_low, and_true]
  exact load_store _ 0 opdMagic

/-- Nothing behind the header changes. -/
theorem fillHeader_behind (h : sizeofOpdHeader ≤ x) : fillHeader m args x = m x := by
  simp only [sizeofOpdHeader] at h
  simp (disch := simp [opdMagic]; omega) only [fillHeader, put64_byte_ne, put32_byte_ne, store_byte_ne]
  rw [clearHeader, if_neg (by simp only [sizeofOpdHeader]; omega)]

end

/-! The store is not touched by the header, and does not touch it. -/

/-- The bytes in front of the descriptor are the same. -/
def HeaderKept (d d' : OdbData) : Prop :=
  d'.sizeofHeader = d.sizeofHeader ∧ ∀ x, x < d.sizeofHeader → d'.file.byte x = d.file.byte x

section

variable {d d' : OdbData} {a v i k : Nat}

theorem HeaderKept.refl (d : OdbData) : HeaderKept d d := ⟨rfl, fun _ _ => rfl⟩

theorem HeaderKept.trans {d'' : OdbData} (h : HeaderKept d d') (h' : HeaderKept d' d'') : HeaderKept d d'' :=
  ⟨h'.1.trans h.1, fun x hx => (h'.2 x (h.1 ▸ hx)).trans (h.2 x hx)⟩

theorem headerKept_write32 (h : d.sizeofHeader ≤ a) : HeaderKept d (d.write32 a v) :=
  ⟨rfl, fun _ _ => put32_byte_ne (by omega)⟩

theorem headerKept_write64 (h : d.sizeofHeader ≤ a) : HeaderKept d (d.write64 a v) :=
  ⟨rfl, fun _ _ => put64_byte_ne (by omega)⟩

theorem headerKept_relink (h : Layout d) : HeaderKept d (odbRelink d i) := by
  have ho := h.offset
  have hn := h.node
  have hh := h.hash
  have h₁ : HeaderKept d (d.setNext i (d.bucket (odbDoHash d (d.key i)))) := headerKept_write32 (by omega)
  refine h₁.trans (headerKept_write32 ?_)
  change d.sizeofHeader ≤ d.hashBase + odbDoHash d (d.key i) * sizeofIndex
  omega

theorem headerKept_rebuild (positions : List Nat) (h : Layout d) : HeaderKept d (positions.foldl odbRelink d) := by
  induction positions generalizing d with
  | nil => exact .refl d
  | cons pos positions ih => exact (headerKept_relink h).trans (ih (odbRelink_frame h).1)

theorem headerKept_grow (h : Layout d) (hg : CanGrow d) : HeaderKept d (odbGrowHashtable .ok d).2 := by
  have hlim : d.offsetNode + d.size * 2 * 20 < 2 ^ 32 := hg
  have ho := h.offset
  have hfile := h.file
  have hremap : HeaderKept d (odbRemap d) := by
    refine ⟨rfl, ?_⟩
    intro x hx
    have hnew : tablesSize d (d.size * 2 % 2 ^ 32) = d.offsetNode + d.size * 2 * 20 := by
      rw [Nat.mod_eq_of_lt (by omega), tablesSize_eq hlim]
    rw [odbRemap_file_eq, hnew]
    dsimp only
    rw [put32_byte_ne (by omega), File.truncate_byte_of_lt (by omega) (by omega)]
  exact hremap.trans (headerKept_rebuild _ (odbRemap_layout h hg))

theorem headerKept_setValue (h : Layout d) : HeaderKept d (d.setValue i v) := by
  have ho := h.offset
  have hn := h.node
  exact headerKept_write32 (by omega)

theorem headerKept_setKey (h : Layout d) : HeaderKept d (d.setKey i v) := by
  have ho := h.offset
  have hn := h.node
  exact headerKept_write64 (by omega)

theorem headerKept_setCurrentSize (h : Layout d) : HeaderKept d (d.setCurrentSize v) := by
  have hd := h.descr
  exact headerKept_write32 (by omega)

theorem headerKept_addFreeNode (h : Layout d) (hk : k < 2 ^ 64) : HeaderKept d (addFreeNode d k v) := by
  rw [addFreeNode_eq h hk]
  have hfilled : Layout ((d.setValue d.currentSize v).setKey d.currentSize k) := h.setValue.setKey
  have hlinked := (odbRelink_frame (p := d.currentSize) hfilled).1
  exact (headerKept_setValue h).trans ((headerKept_setKey h.setValue).trans
    ((headerKept_relink hfilled).trans (headerKept_setCurrentSize hlinked)))

theorem headerKept_addNode (h : Rep d) (hk : k < 2 ^ 64) (hgrow : d.currentSize = d.size → CanGrow d) :
    HeaderKept d (addNode .ok d k v).2 := by
  rw [addNode]
  split
  · rename_i hfull
    have hg := hgrow (Nat.le_antisymm h.cur_le hfull)
    obtain ⟨g, hgrown, hrep, -⟩ := odbGrowHashtable_rep h hg
    have hkept := headerKept_grow h.layout hg
    rw [hgrown] at hkept ⊢
    exact hkept.trans (headerKept_addFreeNode hrep.layout hk)
  · exact headerKept_addFreeNode h.layout hk

/-- A full table that gets a new key has room to grow. -/
theorem canGrow_of_new {calls : List Call} {c : Call} (h : Refines sizeofOpdHeader calls d)
    (hlim : BelowLimit sizeofOpdHeader (calls ++ [c])) (hk : passedKeys [c] = {k})
    (hnew : k ∉ (odbEntries d).map Prod.fst) (hfull : d.currentSize = d.size) : CanGrow d := by
  have hfresh : k ∉ passedKeys calls := by rwa [← h.keys, List.mem_toFinset]
  have hgrows : tableSize (calls ++ [c]) = d.size * 2 := by
    rw [tableSize_append, hk, if_pos, h.size]
    refine Or.inr ⟨?_, by rw [← h.size, ← hfull, h.currentSize]⟩
    rw [ne_eq, Finset.union_eq_left, Finset.singleton_subset_iff]
    exact hfresh
  rw [BelowLimit, hgrows] at hlim
  rw [CanGrow, h.offset]
  exact hlim

theorem headerKept_update {calls : List Call} {c : Call} {key offset : UInt64} (h : Refines sizeofOpdHeader calls d)
    (hlim : BelowLimit sizeofOpdHeader (calls ++ [c])) (hk : passedKeys [c] = {key.toNat})
    (hstep : (odbUpdateNodeWithOffset .ok d key offset).map Prod.snd = some d') : HeaderKept d d' := by
  rcases walk_key h.rep key.toNat with ⟨i, hi, hic, -, hw⟩ | ⟨hnew, hw⟩
  · obtain ⟨i, rfl⟩ := Nat.exists_eq_succ_of_ne_zero (by omega : i ≠ 0)
    simp only [odbUpdateNodeWithOffset, hw] at hstep
    split at hstep
    · obtain rfl := Option.some.inj hstep
      exact headerKept_setValue h.rep.layout
    · obtain rfl := Option.some.inj hstep
      exact .refl d
  · simp only [odbUpdateNodeWithOffset, hw] at hstep
    obtain rfl := Option.some.inj hstep
    refine headerKept_addNode h.rep key.toNat_lt ?_
    intro hfull
    refine canGrow_of_new h hlim hk ?_ hfull
    rw [mem_odbEntries_keys]
    rintro ⟨i, hi, hic, hki⟩
    exact hnew i hi hic hki

/-- The calls on a store, while their files stay below the limit. -/
theorem headerKept_step {calls : List Call} {c : Call} (h : Refines sizeofOpdHeader calls d)
    (hlim : BelowLimit sizeofOpdHeader (calls ++ [c])) (hstep : step d c = some d') : HeaderKept d d' := by
  cases c with
  | odbUpdateNode key => exact headerKept_update h hlim (by simp [passedKeys, passed]) hstep
  | odbUpdateNodeWithOffset key offset => exact headerKept_update h hlim (by simp [passedKeys, passed]) hstep
  | odbGrowHashtable =>
    obtain rfl := Option.some.inj hstep
    refine headerKept_grow h.rep.layout ?_
    rw [BelowLimit, tableSize_append, if_pos (Or.inl rfl)] at hlim
    rw [CanGrow, h.offset, h.size]
    exact hlim

theorem belowLimit_front {before calls : List Call} (h : BelowLimit sizeofOpdHeader (before ++ calls)) :
    BelowLimit sizeofOpdHeader before := by
  induction calls using List.reverseRecOn with
  | nil => rwa [List.append_nil] at h
  | append_singleton calls c ih => exact ih (belowLimit_of_append (List.append_assoc .. ▸ h))

/-- More calls on a store. -/
theorem run_more {before calls : List Call} (h : Refines sizeofOpdHeader before d)
    (hlim : BelowLimit sizeofOpdHeader (before ++ calls)) :
    ∃ d', run calls d = some d' ∧ Refines sizeofOpdHeader (before ++ calls) d' ∧ HeaderKept d d' := by
  induction calls generalizing before d with
  | nil => exact ⟨d, rfl, by rwa [List.append_nil], .refl d⟩
  | cons c calls ih =>
    rw [List.append_cons] at hlim ⊢
    have hfirst : BelowLimit sizeofOpdHeader (before ++ [c]) := belowLimit_front hlim
    obtain ⟨d₁, hd₁, h₁⟩ := h.step c hfirst
    obtain ⟨d₂, hd₂, h₂, hkept⟩ := ih h₁ hlim
    refine ⟨d₂, ?_, h₂, (headerKept_step h hfirst hd₁).trans hkept⟩
    rw [run, List.foldlM_cons, hd₁]
    exact hd₂

/-- A store whose header is written over. -/
theorem refines_header {calls : List Call} {m : Bytes} (h : Refines sizeofOpdHeader calls d)
    (hsame : ∀ x, sizeofOpdHeader ≤ x → m x = d.file.byte x) :
    Refines sizeofOpdHeader calls { d with file := { d.file with byte := m } } := by
  obtain ⟨hlay, hpos, hle, hlinked, hdistinct⟩ := h.rep
  have hoff := h.offset
  have ho := hlay.offset
  have hd := hlay.descr
  have hn := hlay.node
  have hh := hlay.hash
  simp only [sizeofDescr] at hoff
  have h32 : ∀ a, sizeofOpdHeader ≤ a → get32 m a = get32 d.file.byte a :=
    fun a ha => get32_congr fun x hx _ => hsame x (by omega)
  have hsize : OdbData.size { d with file := { d.file with byte := m } } = d.size := by
    refine h32 _ ?_
    change sizeofOpdHeader ≤ d.descr
    omega
  have hcur : OdbData.currentSize { d with file := { d.file with byte := m } } = d.currentSize := by
    refine h32 _ ?_
    change sizeofOpdHeader ≤ d.descr + 4
    omega
  have hkey : ∀ i, OdbData.key { d with file := { d.file with byte := m } } i = d.key i := by
    intro i
    exact get64_congr fun x hx _ => hsame x (by dsimp only at hx; omega)
  have hvalue : ∀ i, OdbData.value { d with file := { d.file with byte := m } } i = d.value i :=
    fun i => h32 _ (by dsimp only; omega)
  have hnext : ∀ i, OdbData.next { d with file := { d.file with byte := m } } i = d.next i :=
    fun i => h32 _ (by dsimp only; omega)
  have hbucket : ∀ b, OdbData.bucket { d with file := { d.file with byte := m } } b = d.bucket b :=
    fun b => h32 _ (by dsimp only; omega)
  refine ⟨⟨⟨ho, hd, hn, ?_, ?_, ?_, ?_, ?_⟩, ?_, ?_, ?_, ?_⟩, h.offset, hsize.trans h.size, ?_⟩
  · rw [hsize]
    exact hh
  · rw [hsize]
    exact hlay.mask
  · rw [hsize]
    exact hlay.size_pos
  · rw [hsize]
    exact hlay.file
  · rw [hsize]
    exact hlay.limit
  · rw [hcur]
    exact hpos
  · rw [hcur, hsize]
    exact hle
  · rw [hcur]
    exact linked_congr hlinked hsize rfl (fun j _ => hnext j) hbucket (fun j _ => hkey j)
  · intro i j
    rw [hcur, hkey, hkey]
    exact hdistinct i j
  · rw [← h.entries, odbEntries, odbEntries, odbGetIterator, odbGetIterator, hcur]
    simp only [hkey, hvalue]

/-! The sessions. -/

/-- What a file holds after some sessions, the last of which had `args`. -/
structure Holds (args : HeaderArgs) (calls : List Call) (file : File) : Prop where
  header : headerAt file.byte = args.header
  opens : ∀ mode, ∃ d, odbOpen .noError mode file sizeofOpdHeader = .ok d ∧ d.file = file ∧
    Refines sizeofOpdHeader calls d

/-- The header is the bytes in front of the store. -/
theorem headerAt_congr {m m' : Bytes} (h : ∀ x, x < sizeofOpdHeader → m' x = m x) : headerAt m' = headerAt m := by
  have h32 : ∀ a, a + 4 ≤ sizeofOpdHeader → get32 m' a = get32 m a :=
    fun a ha => get32_congr fun x _ hx => h x (by omega)
  have h64 : ∀ a, a + 8 ≤ sizeofOpdHeader → get64 m' a = get64 m a :=
    fun a ha => get64_congr fun x _ hx => h x (by omega)
  have hmagic : load m' 0 4 = load m 0 4 := load_congr fun x _ hx => h x (by simp only [sizeofOpdHeader]; omega)
  simp (disch := decide) only [headerAt, hmagic, h32, h64]

/-- A session on an open store. -/
theorem session_holds {before : List Call} {file : File} {session : Session}
    (hopen : odbOpen .noError .rdwr file sizeofOpdHeader = .ok d) (h : Refines sizeofOpdHeader before d)
    (hlim : BelowLimit sizeofOpdHeader (before ++ session.calls)) :
    ∃ file', writeSession file session = some file' ∧ Holds session.args (before ++ session.calls) file' := by
  have hfilled : Refines sizeofOpdHeader before
      { d with file := { d.file with byte := fillHeader d.file.byte session.args } } :=
    refines_header h fun x hx => fillHeader_behind hx
  obtain ⟨d', hrun, href, hkept⟩ := run_more hfilled hlim
  have hoff := href.offset
  have ho := href.rep.layout.offset
  have hsizeof : d'.sizeofHeader = sizeofOpdHeader := by
    simp only [sizeofDescr] at hoff
    omega
  refine ⟨d'.file, ?_, ?_, ?_⟩
  · simp only [writeSession, opdOpenSampleFile, hopen]
    change (run session.calls _).bind _ = _
    rw [hrun]
    rfl
  · rw [← headerAt_fillHeader (m := d.file.byte)]
    refine headerAt_congr ?_
    intro x hx
    refine hkept.2 x ?_
    rwa [← hkept.1, hsizeof]
  · intro mode
    refine ⟨d', ?_, rfl, href⟩
    rw [← hsizeof]
    exact odbOpen_self href.rep.layout.placed href.rep.layout.limit mode

theorem allCalls_append (sessions : List Session) (session : Session) :
    allCalls (sessions ++ [session]) = allCalls sessions ++ session.calls := by
  simp [allCalls]

theorem writeSessions_append (sessions : List Session) (session : Session) :
    writeSessions (sessions ++ [session]) = (writeSessions sessions).bind (writeSession · session) := by
  simp [writeSessions, List.foldlM_append]

/-- Whatever the sessions so far, the daemon can open the file once more. -/
theorem writeSessions_opens {sessions : List Session} (hlim : BelowLimit sizeofOpdHeader (allCalls sessions)) :
    ∃ file, writeSessions sessions = some file ∧
      ∃ d, odbOpen .noError .rdwr file sizeofOpdHeader = .ok d ∧ Refines sizeofOpdHeader (allCalls sessions) d := by
  induction sessions using List.reverseRecOn with
  | nil =>
    obtain ⟨d, hd, href⟩ := run_refines hlim
    obtain rfl := Option.some.inj hd
    exact ⟨File.empty, rfl, _, rfl, href⟩
  | append_singleton sessions session ih =>
    rw [allCalls_append] at hlim ⊢
    obtain ⟨file, hfile, d, hd, href⟩ := ih (belowLimit_front hlim)
    obtain ⟨file', hfile', hholds⟩ := session_holds hd href hlim
    obtain ⟨d', hd', -, href'⟩ := hholds.opens .rdwr
    refine ⟨file', ?_, d', hd', href'⟩
    rw [writeSessions_append, hfile]
    exact hfile'

/-- A file written in sessions opens for reading, with the last header and the counts of all calls. -/
theorem writeSessions_holds {sessions : List Session} {session : Session}
    (hlim : BelowLimit sizeofOpdHeader (allCalls (sessions ++ [session]))) :
    ∃ file, writeSessions (sessions ++ [session]) = some file ∧
      Holds session.args (allCalls (sessions ++ [session])) file := by
  rw [allCalls_append] at hlim ⊢
  obtain ⟨file, hfile, d, hd, href⟩ := writeSessions_opens (belowLimit_front hlim)
  obtain ⟨file', hfile', hholds⟩ := session_holds hd href hlim
  refine ⟨file', ?_, hholds⟩
  rw [writeSessions_append, hfile]
  exact hfile'

end

end Oprofile.Daemon

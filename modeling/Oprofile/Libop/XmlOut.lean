import Oprofile.Library.CStrings
import Oprofile.Library.Results
import Oprofile.Library.XmlText
import Oprofile.SampleNames.Mangle

/-! The XML writer (`op_xml_out.c`). -/
namespace Oprofile.Libop.XmlOut

open SampleNames CStrings XmlText

/-- `tag_t`. -/
inductive Tag
  | none | tableId | profile | processor | cpuName | title | schemaVersion | mhz | setup | timerSetup
  | rtcInterrupts | eventSetup | eventName | unitMask | setupCount | separatedCpus | options | session
  | debugInfo | details | excludeDependent | excludeSymbols | imagePath | includeSymbols | merge | classes
  | classTag | cpuNum | eventNum | eventMask | processTag | procId | thread | threadId | binary | moduleTag
  | name | callers | callees | symbol | idRef | selfref | detailLo | detailHi | symbolTable | symbolData
  | startingAddr | sourceFile | sourceLine | codeLength | summary | sample | count | detailTable
  | symbolDetails | detailData | vma | bytesTable | bytes | helpEvents | helpHeader | helpTitle | helpDoc
  | helpEvent | helpEventName | helpEventGroup | helpEventDesc | helpCounterMask | helpMinCount | helpExt
  | helpUnitMasks | helpDefaultMask | helpUnitMasksCategory | helpUnitMask | helpUnitMaskValue
  | helpUnitMaskDesc | helpUnitMaskName
  deriving DecidableEq

/-- `xml_tag_name`. -/
def xmlTagName : Tag → Text
  | .none => "NONE".toList
  | .tableId => "id".toList
  | .profile => "profile".toList
  | .processor => "processor".toList
  | .cpuName => "cputype".toList
  | .title => "title".toList
  | .schemaVersion => "schemaversion".toList
  | .mhz => "mhz".toList
  | .setup => "setup".toList
  | .timerSetup => "timersetup".toList
  | .rtcInterrupts => "rtcinterrupts".toList
  | .eventSetup => "eventsetup".toList
  | .eventName => "eventname".toList
  | .unitMask => "unitmask".toList
  | .setupCount => "setupcount".toList
  | .separatedCpus => "separatedcpus".toList
  | .options => "options".toList
  | .session => "session".toList
  | .debugInfo => "debuginfo".toList
  | .details => "details".toList
  | .excludeDependent => "excludedependent".toList
  | .excludeSymbols => "excludesymbols".toList
  | .imagePath => "imagepath".toList
  | .includeSymbols => "includesymbols".toList
  | .merge => "merge".toList
  | .classes => "classes".toList
  | .classTag => "class".toList
  | .cpuNum => "cpu".toList
  | .eventNum => "event".toList
  | .eventMask => "mask".toList
  | .processTag => "process".toList
  | .procId => "pid".toList
  | .thread => "thread".toList
  | .threadId => "tid".toList
  | .binary => "binary".toList
  | .moduleTag => "module".toList
  | .name => "name".toList
  | .callers => "callers".toList
  | .callees => "callees".toList
  | .symbol => "symbol".toList
  | .idRef => "idref".toList
  | .selfref => "self".toList
  | .detailLo => "detaillo".toList
  | .detailHi => "detailhi".toList
  | .symbolTable => "symboltable".toList
  | .symbolData => "symboldata".toList
  | .startingAddr => "startingaddr".toList
  | .sourceFile => "file".toList
  | .sourceLine => "line".toList
  | .codeLength => "codelength".toList
  | .summary => "summarydata".toList
  | .sample => "sampledata".toList
  | .count => "count".toList
  | .detailTable => "detailtable".toList
  | .symbolDetails => "symboldetails".toList
  | .detailData => "detaildata".toList
  | .vma => "vmaoffset".toList
  | .bytesTable => "bytestable".toList
  | .bytes => "bytes".toList
  | .helpEvents => "help_events".toList
  | .helpHeader => "header".toList
  | .helpTitle => "title".toList
  | .helpDoc => "doc".toList
  | .helpEvent => "event".toList
  | .helpEventName => "event_name".toList
  | .helpEventGroup => "group".toList
  | .helpEventDesc => "desc".toList
  | .helpCounterMask => "counter_mask".toList
  | .helpMinCount => "min_count".toList
  | .helpExt => "ext".toList
  | .helpUnitMasks => "unit_masks".toList
  | .helpDefaultMask => "default".toList
  | .helpUnitMasksCategory => "category".toList
  | .helpUnitMask => "unit_mask".toList
  | .helpUnitMaskValue => "mask".toList
  | .helpUnitMaskDesc => "desc".toList
  | .helpUnitMaskName => "name".toList

/-- How a call ends that does not return: `exit`, or an access outside the buffer. -/
inductive End
  | exited
  | outside
  deriving DecidableEq

/-- The conversion to an `int`. -/
@[irreducible] def toInt (x : Int) : Int := x.bmod 0x100000000

/-- The conversion to a `size_t`. -/
@[irreducible] def toSize (x : Int) : Nat := (x % 0x10000000000000000).toNat

def write (b : List Char) (i : Int) (s : List Char) : Except End (List Char) :=
  match store b i s with
  | none => .error .outside
  | some b => .ok b

/-- What the functions do first: the last byte is zeroed, and the text printed after the string. The length
of the buffer is `max`; the place after the text is returned, and the size that is left. -/
def printText (b : List Char) (text : Text) : Except End (List Char × Int × Int) := do
  let max := b.length
  let b ← write b (max - 1) [nul]
  let size := toInt (strlen b)
  let buf := size
  let size := toInt (max - 1 - size)
  let b ← write b buf (printed (toSize size) text)
  let ret : Int := text.length
  if ret < 0 ∨ ret ≥ size then .error .exited else .ok (b, buf + ret, size - ret)

def openXmlElement (tag : Tag) (withAttrs : Bool) (b : List Char) : Except End (List Char) :=
  (printText b (['<'] ++ xmlTagName tag ++ if withAttrs then [' '] else ['>', '\n'])).map Prod.fst

def closeXmlElement (tag : Tag) (hasNested : Bool) (b : List Char) : Except End (List Char) :=
  if tag = .none then (printText b ((if hasNested then ['>'] else ['/', '>']) ++ ['\n'])).map Prod.fst
  else (printText b (['<', '/'] ++ xmlTagName tag ++ ['>', '\n'])).map Prod.fst

def initXmlIntAttr (attr : Tag) (value : Int32) (b : List Char) : Except End (List Char) :=
  (printText b ([' '] ++ xmlTagName attr ++ ['=', '"'] ++ printD value ++ ['"'])).map Prod.fst

/-- The loop of `xml_quote`. -/
def quoteLoop : Text → List Char → Int → Nat → Except End (List Char × Int × Nat)
  | [], b, buf, size => .ok (b, buf, size)
  | c :: pos, b, buf, size =>
    match entity c with
    | none => do
      let b ← write b buf [c]
      quoteLoop pos b (buf + 1) (toSize (size - 1))
    | some quote => do
      let b ← write b buf (printed size quote)
      let ret : Int := quote.length
      if ret < 0 ∨ ret ≥ toInt size then .error .exited
      else
        let size := toSize (size - ret)
        if size < pos.length then .error .exited else quoteLoop pos b (buf + ret) size

/-- `xml_quote`; its buffer lies at `i` in `b`, with `max` bytes. -/
def xmlQuote (str : Text) (b : List Char) (i : Int) (max : Nat) : Except End (List Char) := do
  let b ← write b (i + max - 1) [nul]
  let size := strlen (b.drop i.toNat)
  let buf := i + size
  let size := toSize (max - 1 - size)
  if size < str.length + 2 then .error .exited
  else
    let b ← write b buf ['"']
    let (b, buf, size) ← quoteLoop str b (buf + 1) (toSize (size - 1))
    if size = 0 then .error .exited
    else
      let b ← write b buf ['"']
      write b (buf + 1) [nul]

def initXmlStrAttr (attr : Tag) (str : Text) (b : List Char) : Except End (List Char) := do
  let (b, buf, size) ← printText b ([' '] ++ xmlTagName attr ++ ['='])
  if size = 0 then .error .exited else xmlQuote str b buf (toSize size)

/-- A string of the caller. -/
structure CString where
  chars : Text
  noNul : nul ∉ chars

/-- The calls of the interface. -/
inductive Call
  | openElement (tag : Tag) (withAttrs : Bool)
  | closeElement (tag : Tag) (hasNested : Bool)
  | intAttr (attr : Tag) (value : Int32)
  | strAttr (attr : Tag) (str : CString)

def Call.run : Call → List Char → Except End (List Char)
  | .openElement tag withAttrs => openXmlElement tag withAttrs
  | .closeElement tag hasNested => closeXmlElement tag hasNested
  | .intAttr attr value => initXmlIntAttr attr value
  | .strAttr attr str => initXmlStrAttr attr str.chars

/-- What a call is to add. -/
def Call.text : Call → Text
  | .openElement tag withAttrs => ['<'] ++ xmlTagName tag ++ if withAttrs then [' '] else ['>', '\n']
  | .closeElement tag hasNested =>
    if tag = .none then (if hasNested then ['>'] else ['/', '>']) ++ ['\n']
    else ['<', '/'] ++ xmlTagName tag ++ ['>', '\n']
  | .intAttr attr value => [' '] ++ xmlTagName attr ++ ['=', '"'] ++ printD value ++ ['"']
  | .strAttr attr str => [' '] ++ xmlTagName attr ++ ['='] ++ (['"'] ++ escape str.chars ++ ['"'])

def runCalls (calls : List Call) (b : List Char) : Except End (List Char) := calls.foldlM (fun b c => c.run b) b

def texts (calls : List Call) : Text := calls.flatMap Call.text

section

variable {b front s rest tail : List Char} {text str pos : Text} {buf : Int} {n size max : Nat} {e : List Char}

/-! Conversions. -/

theorem toSize_sub (h : n ≤ size) (hlt : size < 0x10000000000000000) : toSize (size - n) = size - n := by
  rw [toSize]
  omega

theorem toSize_pred (h : 1 ≤ size) (hlt : size < 0x10000000000000000) : toSize (size - 1) = size - 1 := by
  rw [toSize]
  omega

theorem toSize_natCast (hlt : n < 0x10000000000000000) : toSize n = n := by
  rw [toSize]
  omega

theorem toSize_of_neg {x : Int} (h : x < 0) (hlt : -0x80000000 ≤ x) : 0x8000000000000000 ≤ toSize x := by
  rw [toSize]
  omega

theorem toInt_bounds (x : Int) : -0x80000000 ≤ toInt x ∧ toInt x < 0x80000000 := by
  have hlow := Int.le_bmod (x := x) (m := 0x100000000) (by decide)
  have hhigh := Int.bmod_lt (x := x) (m := 0x100000000) (by decide)
  rw [toInt]
  omega

theorem toInt_le (n : Nat) : toInt n ≤ n := by
  rw [toInt, Int.bmod_eq_emod]
  split_ifs <;> omega

theorem toInt_small (h : n < 0x80000000) : toInt n = n := by
  rw [toInt, Int.bmod_eq_emod]
  split_ifs <;> omega

theorem toInt_neg (h : toInt n < 0) : 0x80000000 ≤ n := by
  by_contra hlt
  rw [toInt_small (by omega)] at h
  omega

/-- From 2 GiB on a size comes out smaller. -/
theorem toInt_large (h : 0x80000000 ≤ n) : toInt n ≤ n - 0x100000000 := by
  rw [toInt, Int.bmod_eq_emod]
  split_ifs <;> omega

/-- What the places in the buffer leave. -/
theorem toInt_room (l r : Nat) : toInt ((l + (r + 1) : Nat) - 1 - toInt l) = toInt r := by
  have h : (((l + (r + 1) : Nat) : Int) - 1 - toInt l) = ((l + r : Nat) : Int) - toInt l := by omega
  rw [h, toInt, toInt, toInt, Int.sub_bmod_bmod]
  exact congrArg (Int.bmod · 0x100000000) (by omega)

/-! Writes. -/

theorem write_at (hbuf : buf = (front.length : Int)) (hs : s.length ≤ rest.length) :
    write (front ++ rest) buf s = .ok (front ++ s ++ rest.drop s.length) := by
  subst hbuf
  rw [write, store_inside rfl hs]

theorem write_outside (hs : s ≠ []) (hbuf : buf < 0) : write b buf s = .error .outside := by
  rw [write, store_outside hs hbuf]

/-- The zero byte at the end leaves the string alone. -/
theorem write_nul (front : List Char) (hs : s.length < max) (hmax : max ≤ s.length + (tail.length + 1)) :
    ∃ tail', tail'.length = tail.length ∧
      write (front ++ (s ++ nul :: tail)) (front.length + max - 1) [nul] = .ok (front ++ (s ++ nul :: tail')) := by
  rcases Nat.lt_or_eq_of_le (Nat.le_sub_one_of_lt hs) with hlt | heq
  · obtain ⟨k, hk⟩ : ∃ k, max = s.length + 1 + k + 1 := ⟨max - s.length - 2, by omega⟩
    have hsplit : front ++ (s ++ nul :: tail) = (front ++ s ++ nul :: tail.take k) ++ tail.drop k := by
      simp [List.take_append_drop]
    refine ⟨tail.take k ++ nul :: tail.drop (k + 1), ?_, ?_⟩
    · simp only [List.length_append, List.length_take, List.length_cons, List.length_drop]
      omega
    · rw [hsplit, write_at]
      · simp [List.drop_drop]
      · simp only [List.length_append, List.length_cons, List.length_take]
        omega
      · simp only [List.length_singleton, List.length_drop]
        omega
  · refine ⟨tail, rfl, ?_⟩
    rw [← List.append_assoc, write_at]
    · simp
    · rw [List.length_append]
      omega
    · simp

/-! The value. -/

/-- The checks of the loop, on the size that is left. -/
def Fits : Text → Nat → Prop
  | [], _ => True
  | c :: pos, size =>
    match entity c with
    | none => Fits pos (size - 1)
    | some quote => quote.length < toInt size ∧ pos.length ≤ size - quote.length ∧ Fits pos (size - quote.length)

/-- The loop writes all of the value where every check holds, and exits where one fails. -/
theorem quoteLoop_spec (pos : Text) (front rest : List Char) (buf : Int) (size : Nat) (hbuf : buf = (front.length : Int)) (hroom : size ≤ rest.length)
    (hpos : pos.length ≤ size) (hlt : size < 0x10000000000000000) :
    (Fits pos size → ∃ rest', rest'.length + (escape pos).length = rest.length ∧ (escape pos).length ≤ size ∧
      quoteLoop pos (front ++ rest) buf size =
        .ok (front ++ escape pos ++ rest', buf + (escape pos).length, size - (escape pos).length)) ∧
    (¬Fits pos size → quoteLoop pos (front ++ rest) buf size = .error .exited) := by
  induction pos generalizing front rest buf size with
  | nil => exact ⟨fun _ => ⟨rest, rfl, Nat.zero_le _, by simp [quoteLoop]⟩, fun h => absurd trivial h⟩
  | cons c pos ih =>
    rw [List.length_cons] at hpos
    rw [Fits, quoteLoop]
    cases hc : entity c with
    | none =>
      have hwrite : write (front ++ rest) buf [c] = .ok (front ++ [c] ++ rest.drop 1) :=
        write_at hbuf (by rw [List.length_singleton]; omega)
      have hsize : toSize (size - 1) = size - 1 := toSize_pred (by omega) hlt
      have hnext : buf + 1 = ((front ++ [c]).length : Int) := by
        rw [hbuf, List.length_append, List.length_singleton, Int.natCast_add, Int.natCast_one]
      obtain ⟨hok, herr⟩ := ih (front ++ [c]) (rest.drop 1) (buf + 1) (size - 1) hnext
        (by rw [List.length_drop]; omega) (by omega) (by omega)
      dsimp only
      rw [hwrite, Results.ok_then, hsize]
      refine ⟨fun h => ?_, herr⟩
      obtain ⟨rest', hlength, hle, heq⟩ := hok h
      rw [List.length_drop] at hlength
      rw [heq, escape_plain hc, List.length_cons]
      refine ⟨rest', by omega, by omega, ?_⟩
      have hplace : buf + 1 + ((escape pos).length : Int) = buf + ((escape pos).length + 1 : Nat) := by omega
      have hleft : size - 1 - (escape pos).length = size - ((escape pos).length + 1) := by omega
      rw [hplace, hleft, List.append_assoc front [c], List.singleton_append]
    | some quote =>
      have hwrite : write (front ++ rest) buf (printed size quote) =
          .ok (front ++ printed size quote ++ rest.drop (printed size quote).length) :=
        write_at hbuf ((length_printed size quote).trans hroom)
      dsimp only
      rw [hwrite, Results.ok_then]
      by_cases hshort : (quote.length : Int) < toInt size
      · have hlength : quote.length < size := by
          have hle := toInt_le size
          omega
        have hsize : toSize (size - quote.length) = size - quote.length := toSize_sub (by omega) hlt
        rw [if_neg (by omega), hsize]
        by_cases hleft : size - quote.length < pos.length
        · rw [if_pos hleft]
          exact ⟨fun h => absurd h.2.1 (by omega), fun _ => rfl⟩
        · have hnext : buf + quote.length = ((front ++ quote).length : Int) := by
            rw [hbuf, List.length_append, Int.natCast_add]
          obtain ⟨hok, herr⟩ := ih (front ++ quote) (nul :: rest.drop (quote.length + 1)) (buf + quote.length)
            (size - quote.length) hnext (by rw [List.length_cons, List.length_drop]; omega) (by omega) (by omega)
          have hbuffer : front ++ printed size quote ++ rest.drop (printed size quote).length =
              front ++ quote ++ nul :: rest.drop (quote.length + 1) := by
            rw [printed_all hlength, List.length_append, List.length_singleton]
            simp
          rw [if_neg hleft, hbuffer]
          refine ⟨fun h => ?_, fun h => herr fun hfits => h ⟨hshort, by omega, hfits⟩⟩
          obtain ⟨rest', hrest, hle, heq⟩ := hok h.2.2
          rw [List.length_cons, List.length_drop] at hrest
          rw [heq, escape_entity hc, List.length_append]
          refine ⟨rest', by omega, by omega, ?_⟩
          have hplace : buf + (quote.length : Int) + ((escape pos).length : Int) =
              buf + (quote.length + (escape pos).length : Nat) := by omega
          have hdone : size - quote.length - (escape pos).length = size - (quote.length + (escape pos).length) := by
            omega
          rw [hplace, hdone, List.append_assoc front quote]
      · rw [if_pos (by omega)]
        exact ⟨fun h => absurd h.1 hshort, fun _ => rfl⟩

/-- Below 2 GiB the checks hold wherever the value has room. -/
theorem fits_of_room (hroom : (escape pos).length < size) (hsize : size < 0x80000000) : Fits pos size := by
  induction pos generalizing size with
  | nil => trivial
  | cons c pos ih =>
    rw [Fits]
    cases hc : entity c with
    | none =>
      rw [escape_plain hc, List.length_cons] at hroom
      exact ih (by omega) (by omega)
    | some quote =>
      have hle := length_escape pos
      rw [escape_entity hc, List.length_append] at hroom
      rw [toInt_small hsize]
      exact ⟨by omega, by omega, ih (by omega) (by omega)⟩

/-- Where the value has room, the checks are the comparisons with an `int`. -/
theorem fits_iff (pos : Text) (size : Nat) (hroom : (escape pos).length < size) : Fits pos size ↔
    ∀ before c after e, pos = before ++ c :: after → entity c = some e →
      (e.length : Int) < toInt (size - (escape before).length : Nat) := by
  induction pos generalizing size with
  | nil =>
    refine iff_of_true trivial fun before c after e h => ?_
    cases before <;> cases h
  | cons x pos ih =>
    rw [Fits]
    cases hx : entity x with
    | none =>
      rw [escape_plain hx, List.length_cons] at hroom
      refine (ih (size - 1) (by omega)).trans ⟨fun h before c after e heq hc => ?_, fun h before c after e heq hc => ?_⟩
      · cases before with
        | nil =>
          rw [List.nil_append, List.cons.injEq] at heq
          obtain ⟨rfl, rfl⟩ := heq
          rw [hx] at hc
          cases hc
        | cons y before =>
          rw [List.cons_append, List.cons.injEq] at heq
          obtain ⟨rfl, rfl⟩ := heq
          rw [escape_plain hx, List.length_cons, Nat.add_comm, ← Nat.sub_sub]
          exact h before c after e rfl hc
      · have hnext := h (x :: before) c after e (by rw [heq]; rfl) hc
        rwa [escape_plain hx, List.length_cons, Nat.add_comm, ← Nat.sub_sub] at hnext
    | some quote =>
      have hle := length_escape pos
      rw [escape_entity hx, List.length_append] at hroom
      constructor
      · rintro ⟨hfirst, -, hfits⟩ before c after e heq hc
        cases before with
        | nil =>
          rw [List.nil_append, List.cons.injEq] at heq
          obtain ⟨rfl, rfl⟩ := heq
          obtain rfl := Option.some.inj (hx.symm.trans hc)
          exact hfirst
        | cons y before =>
          rw [List.cons_append, List.cons.injEq] at heq
          obtain ⟨rfl, rfl⟩ := heq
          rw [escape_entity hx, List.length_append, ← Nat.sub_sub]
          exact (ih (size - quote.length) (by omega)).mp hfits before c after e rfl hc
      · intro h
        refine ⟨h [] x pos quote rfl hx, by omega, (ih (size - quote.length) (by omega)).mpr fun before c after e heq hc => ?_⟩
        have hnext := h (x :: before) c after e (by rw [heq]; rfl) hc
        rwa [escape_entity hx, List.length_append, ← Nat.sub_sub] at hnext

/-- `xml_quote` on a buffer that holds a string. -/
theorem xmlQuote_spec (str : Text) (front s tail : List Char) (max : Nat) (hs : nul ∉ s) (hheld : s.length < max) 
    (hmax : max ≤ s.length + (tail.length + 1)) (hlt : max < 0x10000000000000000) :
    (Fits str (max - 1 - s.length - 1) ∧ s.length + (escape str).length + 3 ≤ max →
      ∃ tail', (escape str).length + 2 + tail'.length = tail.length ∧
        xmlQuote str (front ++ (s ++ nul :: tail)) front.length max =
          .ok (front ++ (s ++ (['"'] ++ escape str ++ ['"']) ++ nul :: tail'))) ∧
    (¬(Fits str (max - 1 - s.length - 1) ∧ s.length + (escape str).length + 3 ≤ max) →
      xmlQuote str (front ++ (s ++ nul :: tail)) front.length max = .error .exited) := by
  have hle := length_escape str
  obtain ⟨tail', htail, hnul⟩ := write_nul front hheld hmax
  have hstrlen : strlen ((front ++ (s ++ nul :: tail')).drop front.length) = s.length := by
    rw [List.drop_left, strlen, cstr_append hs]
  have hsize : toSize ((max : Int) - 1 - s.length) = max - 1 - s.length := by
    rw [toSize]
    omega
  rw [xmlQuote, hnul]
  simp only [Results.ok_then, Int.toNat_natCast, hstrlen, hsize]
  by_cases hfirst : max - 1 - s.length < str.length + 2
  · rw [if_pos hfirst]
    exact ⟨fun h => absurd h.2 (by omega), fun _ => rfl⟩
  · have hquote : write (front ++ (s ++ nul :: tail')) (front.length + s.length) ['"'] =
        .ok ((front ++ s ++ ['"']) ++ tail') := by
      rw [← List.append_assoc, write_at (by rw [List.length_append]; rfl) (by simp)]
      rfl
    have hnext : toSize (((max - 1 - s.length : Nat) : Int) - 1) = max - 1 - s.length - 1 :=
      toSize_pred (by omega) (by omega)
    rw [if_neg hfirst, hquote]
    simp only [Results.ok_then, hnext]
    obtain ⟨hok, herr⟩ := quoteLoop_spec str (front ++ s ++ ['"']) tail' (front.length + s.length + 1)
      (max - 1 - s.length - 1)
      (by simp only [List.length_append, List.length_singleton]; rfl) (by omega) (by omega) (by omega)
    by_cases hfits : Fits str (max - 1 - s.length - 1)
    · obtain ⟨rest', hrest, hroom, heq⟩ := hok hfits
      rw [heq]
      simp only [Results.ok_then]
      by_cases hzero : max - 1 - s.length - 1 - (escape str).length = 0
      · rw [if_pos hzero]
        exact ⟨fun h => absurd h.2 (by omega), fun _ => rfl⟩
      · have hclose : write (front ++ s ++ ['"'] ++ escape str ++ rest')
            (front.length + s.length + 1 + (escape str).length) ['"'] =
            .ok (front ++ s ++ ['"'] ++ escape str ++ ['"'] ++ rest'.drop 1) :=
          write_at (by simp only [List.length_append, List.length_singleton]; rfl)
            (by rw [List.length_singleton]; omega)
        have hend : write (front ++ s ++ ['"'] ++ escape str ++ ['"'] ++ rest'.drop 1)
            (front.length + s.length + 1 + (escape str).length + 1) [nul] =
            .ok (front ++ s ++ ['"'] ++ escape str ++ ['"'] ++ [nul] ++ (rest'.drop 1).drop 1) :=
          write_at (by simp only [List.length_append, List.length_singleton]; rfl)
            (by rw [List.length_singleton, List.length_drop]; omega)
        rw [if_neg hzero, hclose]
        simp only [Results.ok_then, hend]
        refine ⟨fun _ => ⟨(rest'.drop 1).drop 1, ?_, ?_⟩, fun h => absurd ⟨hfits, by omega⟩ h⟩
        · rw [List.length_drop, List.length_drop]
          omega
        · simp
    · rw [herr hfits]
      exact ⟨fun h => absurd h.1 hfits, fun _ => rfl⟩

/-! The text. -/

/-- What a function does that adds a text to the string in its buffer, by the length of the string and the free
room, both as an `int`. -/
structure Prints (f : List Char → Except End (List Char)) (text : Text) : Prop where
  zero : ∀ s tail, nul ∉ s → toInt tail.length = 0 → f (s ++ nul :: tail) = .error .exited
  outside : ∀ s tail, nul ∉ s → toInt tail.length ≠ 0 → toInt s.length < 0 →
    f (s ++ nul :: tail) = .error .outside
  short : ∀ s tail (i : Nat), nul ∉ s → toInt s.length = i → toInt tail.length ≤ text.length →
    f (s ++ nul :: tail) = .error .exited
  room : ∀ s tail (i : Nat), nul ∉ s → toInt s.length = i → text.length < toInt tail.length →
    ∃ tail', f (s ++ nul :: tail) = .ok (s.take i ++ text ++ nul :: tail') ∧
      i + text.length + tail'.length = s.length + tail.length

/-- The zeroed end, and the write of the text. -/
theorem printText_eq (hs : nul ∉ s) (tail : List Char) (text : Text) : ∃ tail', tail'.length = tail.length ∧
    printText (s ++ nul :: tail) text =
      (write (s ++ nul :: tail') (toInt s.length) (printed (toSize (toInt tail.length)) text) >>= fun b =>
        if (text.length : Int) < 0 ∨ text.length ≥ toInt tail.length then .error .exited
        else .ok (b, toInt s.length + text.length, toInt tail.length - text.length)) := by
  have hheld : s.length < s.length + (tail.length + 1) := by omega
  obtain ⟨tail', htail, hnul⟩ := write_nul [] hheld (Nat.le_refl _)
  have hlast : write (s ++ nul :: tail) (((s ++ nul :: tail).length : Int) - 1) [nul] =
      .ok (s ++ nul :: tail') := by
    rw [List.length_append, List.length_cons]
    simpa using hnul
  refine ⟨tail', htail, ?_⟩
  rw [printText]
  dsimp only
  rw [hlast, Results.ok_then, strlen, cstr_append hs, List.length_append, List.length_cons, toInt_room]

/-- Where the place is no negative one the write lies inside. -/
theorem write_printed {i : Nat} (hi : toInt s.length = i) (htext : text.length < 0x80000000) (tail : List Char) :
    ∃ b, write (s ++ nul :: tail) (toInt s.length) (printed (toSize (toInt tail.length)) text) = .ok b ∧
      (text.length < toInt tail.length → ∃ tail', b = s.take i ++ text ++ nul :: tail' ∧
        i + text.length + tail'.length = s.length + tail.length) := by
  have hplace := toInt_le s.length
  have hroom := toInt_le tail.length
  have hbounds := toInt_bounds tail.length
  have hlength : (s.take i).length = i := by
    rw [List.length_take]
    omega
  have hsplit : s ++ nul :: tail = s.take i ++ (s.drop i ++ nul :: tail) := by
    rw [← List.append_assoc, List.take_append_drop]
  have hinside : (printed (toSize (toInt tail.length)) text).length ≤ (s.drop i ++ nul :: tail).length := by
    rw [List.length_append, List.length_drop, List.length_cons]
    by_cases hneg : toInt tail.length < 0
    · have hlarge := toInt_neg hneg
      have hsize := toSize_of_neg hneg hbounds.1
      rw [printed_all (by omega), List.length_append, List.length_singleton]
      omega
    · obtain ⟨n, hn⟩ := Int.eq_ofNat_of_zero_le (Int.not_lt.mp hneg)
      have hle := length_printed n text
      rw [hn, toSize_natCast (by omega)]
      omega
  rw [hsplit, write_at (hi.trans (congrArg Nat.cast hlength.symm)) hinside]
  refine ⟨_, rfl, fun h => ?_⟩
  obtain ⟨n, hn⟩ := Int.eq_ofNat_of_zero_le (by omega : 0 ≤ toInt tail.length)
  have hprinted : printed (toSize (toInt tail.length)) text = text ++ [nul] := by
    rw [hn, toSize_natCast (by omega), printed_all (by omega)]
  rw [hprinted, List.length_append, List.length_singleton]
  refine ⟨(s.drop i ++ nul :: tail).drop (text.length + 1), by simp, ?_⟩
  rw [List.length_drop, List.length_append, List.length_drop, List.length_cons]
  omega

theorem printText_zero (hs : nul ∉ s) (h : toInt tail.length = 0) :
    printText (s ++ nul :: tail) text = .error .exited := by
  obtain ⟨tail', -, heq⟩ := printText_eq hs tail text
  have hnone : printed (toSize 0) text = [] := by rw [toSize]; rfl
  have hwrite : write (s ++ nul :: tail') (toInt s.length) [] = .ok (s ++ nul :: tail') := rfl
  rw [heq, h, hnone, hwrite, Results.ok_then, if_pos (by omega)]

theorem printText_outside (hs : nul ∉ s) (h : toInt tail.length ≠ 0) (hi : toInt s.length < 0) :
    printText (s ++ nul :: tail) text = .error .outside := by
  obtain ⟨tail', -, heq⟩ := printText_eq hs tail text
  have hsize : toSize (toInt tail.length) ≠ 0 := by
    have hbounds := toInt_bounds tail.length
    rw [toSize]
    omega
  rw [heq, write_outside (printed_ne_nil text hsize) hi]
  rfl

theorem printText_short {i : Nat} (hs : nul ∉ s) (htext : text.length < 0x80000000) (hi : toInt s.length = i)
    (h : toInt tail.length ≤ text.length) : printText (s ++ nul :: tail) text = .error .exited := by
  obtain ⟨tail', htail, heq⟩ := printText_eq hs tail text
  obtain ⟨b, hwrite, -⟩ := write_printed hi htext tail'
  rw [htail] at hwrite
  rw [heq, hwrite, Results.ok_then, if_pos (by omega)]

theorem printText_room {i : Nat} (text : Text) (tail : List Char) (hs : nul ∉ s) (htext : text.length < 0x80000000)
    (hi : toInt s.length = i) (h : text.length < toInt tail.length) : ∃ tail',
    printText (s ++ nul :: tail) text = .ok (s.take i ++ text ++ nul :: tail',
      toInt s.length + text.length, toInt tail.length - text.length) ∧
    i + text.length + tail'.length = s.length + tail.length := by
  obtain ⟨tail', htail, heq⟩ := printText_eq hs tail text
  obtain ⟨b, hwrite, hroom⟩ := write_printed hi htext tail'
  rw [htail] at hwrite hroom
  obtain ⟨tail'', rfl, hlength⟩ := hroom h
  refine ⟨tail'', ?_, hlength⟩
  rw [heq, hwrite, Results.ok_then, if_neg (by omega)]

/-- The functions that print one text. -/
theorem prints_text (htext : text.length < 0x80000000) :
    Prints (fun b => (printText b text).map Prod.fst) text where
  zero s tail hs h := by rw [printText_zero hs h]; rfl
  outside s tail hs h hi := by rw [printText_outside hs h hi]; rfl
  short s tail i hs hi h := by rw [printText_short hs htext hi h]; rfl
  room s tail i hs hi h := by
    obtain ⟨tail', heq, hlength⟩ := printText_room text tail hs htext hi h
    exact ⟨tail', by rw [heq]; rfl, hlength⟩

theorem xmlTagName_spec (tag : Tag) : (xmlTagName tag).length ≤ 16 ∧ nul ∉ xmlTagName tag := by
  cases tag <;> decide

/-- The value goes into the room that the name leaves. -/
theorem initXmlStrAttr_named {i n : Nat} (attr : Tag) (str : Text) (hs : nul ∉ s) (hi : toInt s.length = i)
    (hn : toInt tail.length = n) (h : (xmlTagName attr).length + 2 < n) :
    ((xmlTagName attr).length + 2 + ((escape str).length + 2) < n → ∃ tail',
      initXmlStrAttr attr str (s ++ nul :: tail) = .ok (s.take i ++
        ([' '] ++ xmlTagName attr ++ ['='] ++ (['"'] ++ escape str ++ ['"'])) ++ nul :: tail') ∧
      i + ((xmlTagName attr).length + 2 + ((escape str).length + 2)) + tail'.length = s.length + tail.length) ∧
    (n ≤ (xmlTagName attr).length + 2 + ((escape str).length + 2) →
      initXmlStrAttr attr str (s ++ nul :: tail) = .error .exited) := by
  have hname := (xmlTagName_spec attr).1
  have hplace := toInt_le s.length
  have hroom := toInt_le tail.length
  have hbounds := toInt_bounds tail.length
  have htext : ([' '] ++ xmlTagName attr ++ ['=']).length = (xmlTagName attr).length + 2 := by
    simp only [List.length_append, List.length_singleton]
    omega
  have hfits : 0 + (escape str).length + 3 ≤ n - ((xmlTagName attr).length + 2) ↔
      (xmlTagName attr).length + 2 + ((escape str).length + 2) < n := by omega
  obtain ⟨tail', heq, hlength⟩ := printText_room ([' '] ++ xmlTagName attr ++ ['=']) tail hs (by omega) hi (by omega)
  have hsize : toSize (toInt tail.length - ([' '] ++ xmlTagName attr ++ ['=']).length) =
      n - ((xmlTagName attr).length + 2) := by
    rw [hn, htext]
    exact toSize_sub (Nat.le_of_lt h) (by omega)
  have hfront : toInt s.length + (([' '] ++ xmlTagName attr ++ ['=']).length : Int) =
      ((s.take i ++ ([' '] ++ xmlTagName attr ++ ['='])).length : Nat) := by
    have hlength : (s.take i).length = i := by
      rw [List.length_take]
      omega
    have hboth := @List.length_append _ (s.take i) ([' '] ++ xmlTagName attr ++ ['='])
    rw [hboth, hlength, hi]
    rfl
  obtain ⟨hok, herr⟩ := xmlQuote_spec str (s.take i ++ ([' '] ++ xmlTagName attr ++ ['='])) [] tail'
    (n - ((xmlTagName attr).length + 2)) List.not_mem_nil (by rw [List.length_nil]; omega)
    (by rw [List.length_nil]; omega) (by omega)
  rw [List.length_nil] at hok herr
  rw [initXmlStrAttr, heq, Results.ok_then]
  dsimp only
  rw [if_neg (by omega), hsize, hfront]
  refine ⟨fun hlt => ?_, fun hle => herr fun h => absurd (hfits.mp h.2) (Nat.not_lt.mpr hle)⟩
  obtain ⟨tail'', hlength', hwritten⟩ := hok ⟨fits_of_room (by omega) (by omega), hfits.mpr hlt⟩
  refine ⟨tail'', ?_, by omega⟩
  rw [List.nil_append] at hwritten
  rw [hwritten]
  simp

/-- The attribute: its name and then its value. -/
theorem prints_strAttr (attr : Tag) (str : Text) : Prints (initXmlStrAttr attr str)
    ([' '] ++ xmlTagName attr ++ ['='] ++ (['"'] ++ escape str ++ ['"'])) := by
  have hname := (xmlTagName_spec attr).1
  have htext : ([' '] ++ xmlTagName attr ++ ['=']).length = (xmlTagName attr).length + 2 := by
    simp only [List.length_append, List.length_singleton]
    omega
  have hall : ([' '] ++ xmlTagName attr ++ ['='] ++ (['"'] ++ escape str ++ ['"'])).length =
      (xmlTagName attr).length + 2 + ((escape str).length + 2) := by
    rw [List.length_append, htext]
    simp only [List.length_append, List.length_singleton]
    omega
  constructor
  · intro s tail hs h
    rw [initXmlStrAttr, printText_zero hs h]
    rfl
  · intro s tail hs h hi
    rw [initXmlStrAttr, printText_outside hs h hi]
    rfl
  · intro s tail i hs hi h
    rw [hall] at h
    by_cases hshort : toInt tail.length ≤ ([' '] ++ xmlTagName attr ++ ['=']).length
    · rw [initXmlStrAttr, printText_short hs (by omega) hi hshort]
      rfl
    · rw [htext] at hshort
      obtain ⟨n, hn⟩ := Int.eq_ofNat_of_zero_le (by omega : 0 ≤ toInt tail.length)
      exact (initXmlStrAttr_named attr str hs hi hn (by omega)).2 (by omega)
  · intro s tail i hs hi h
    rw [hall] at h ⊢
    obtain ⟨n, hn⟩ := Int.eq_ofNat_of_zero_le (by omega : 0 ≤ toInt tail.length)
    exact (initXmlStrAttr_named attr str hs hi hn (by omega)).1 (by omega)

end

end Oprofile.Libop.XmlOut

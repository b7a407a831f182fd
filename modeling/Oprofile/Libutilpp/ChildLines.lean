import Mathlib.Data.List.TakeWhile
import Oprofile.Libutilpp.ChildReader

/-! What the lines of a child's output are, as the descriptors of the child become ready. -/
namespace Oprofile.Libutilpp

open TextLines

namespace ChildReader

/-- What is still scanned for newlines when the buffer held `c`: a round without the standard output scans it again. -/
def future (c out : List UInt8) : List Wake → List UInt8
  | [] => out
  | w :: ws =>
    match w.out with
    | none => c ++ future c out ws
    | some n =>
      if out = [] then []
      else out.take (min pipeBuf (n + 1)) ++ future (out.take (min pipeBuf (n + 1))) (out.drop (min pipeBuf (n + 1))) ws

/-- What is left to be scanned. -/
def text (s : ChildReader) : List UInt8 := s.buf1.drop s.pos1 ++ future s.buf1 s.out s.wakes

/-- The standard output has arrived, or is at its end. -/
structure Started (s : ChildReader) : Prop where
  inside : s.pos1 ≤ s.buf1.length
  arrived : s.buf1 = [] → s.out = []

/-- The next read finds something in the buffer or takes it from the standard output, unless that is at its end. -/
structure Ready (s : ChildReader) : Prop where
  inside : s.pos1 ≤ s.buf1.length
  arrives : s.buf1 = [] → s.out = [] ∨ s.select.out.isSome = true

variable {s t u : ChildReader} {c out result : List UInt8} {ws : List Wake} {w : Wake} {n : Nat}

theorem Started.ready (h : Started s) : Ready s := ⟨h.inside, fun hnil => Or.inl (h.arrived hnil)⟩

theorem future_nil (ws : List Wake) : future [] [] ws = [] := by
  induction ws with
  | nil => rfl
  | cons w ws ih =>
    rw [future]
    cases w.out with
    | none => rw [List.nil_append, ih]
    | some n => exact if_pos rfl

theorem Started.text_nil (h : Started s) (hbuf : s.buf1 = []) : s.text = [] := by
  rw [text, hbuf, h.arrived hbuf, List.drop_nil, List.nil_append, future_nil]

/-- A read in front of a round neither adds to what is left to be scanned nor takes from it. -/
theorem Ready.blockRead (h : Ready s) (hdone : s.pos1 = 0) :
    Started s.blockRead ∧ s.blockRead.buf1 ++ future s.blockRead.buf1 s.blockRead.out s.blockRead.wakes =
      future s.buf1 s.out s.wakes := by
  obtain ⟨hpos, hwakes, -⟩ := s.blockRead_kept
  have hinside : s.blockRead.pos1 ≤ s.blockRead.buf1.length := by
    rw [hpos, hdone]
    exact Nat.zero_le _
  cases hselect : s.select.out with
  | none =>
    obtain ⟨hbuf, hout⟩ := blockRead_none hselect
    refine ⟨⟨hinside, fun hnil => ?_⟩, ?_⟩
    · rw [hout]
      exact (h.arrives (hbuf ▸ hnil)).resolve_right (by simp [hselect])
    · rw [hwakes, hbuf, hout]
      cases hw : s.wakes with
      | nil =>
        rw [select, hw] at hselect
        cases hselect
      | cons w ws =>
        rw [select, hw] at hselect
        have hwout : w.out = none := hselect
        rw [future, hwout, List.tail_cons]
  | some n =>
    obtain ⟨k, hk, hkn, hbuf, hout⟩ := blockRead_some hselect
    refine ⟨⟨hinside, fun hnil => ?_⟩, ?_⟩
    · rw [hbuf, List.take_eq_nil_iff] at hnil
      rw [hout]
      rcases hnil with hzero | hnil
      · omega
      · rw [hnil, List.drop_nil]
    · rw [hwakes, hbuf, hout]
      cases hw : s.wakes with
      | nil =>
        show s.out.take k ++ s.out.drop k = s.out
        exact List.take_append_drop k s.out
      | cons w ws =>
        rw [select, hw] at hselect
        have hwout : w.out = some n := hselect
        rw [future, hwout, List.tail_cons]
        dsimp only
        split_ifs with hnil
        · rw [hnil, List.take_nil, List.drop_nil, List.nil_append, future_nil]
        · rw [hkn]

theorem Ready.fetch (h : Ready s) : Started s.fetch ∧ s.fetch.text = s.text ∧
    s.fetch.buf2 ++ s.fetch.err = s.buf2 ++ s.err := by
  by_cases hread : s.buf1.length ≤ s.pos1
  · have hfetch : s.fetch = { s with pos1 := 0 }.blockRead := if_pos hread
    have hreset : Ready { s with pos1 := 0 } := ⟨Nat.zero_le _, h.arrives⟩
    obtain ⟨hstarted, htext⟩ := hreset.blockRead rfl
    obtain ⟨hpos, -, hkept⟩ := { s with pos1 := 0 }.blockRead_kept
    rw [hfetch]
    refine ⟨hstarted, ?_, hkept⟩
    rw [ChildReader.text, hpos, List.drop_zero, htext, ChildReader.text, List.drop_eq_nil_of_le hread, List.nil_append]
  · have hfetch : s.fetch = s := if_neg hread
    rw [hfetch]
    refine ⟨⟨h.inside, fun hnil => ?_⟩, rfl, rfl⟩
    rw [hnil] at hread
    exact absurd (Nat.zero_le _) hread

/-- How a round ends: with a newline, at the end of the output, or to be followed by another. -/
inductive Ends (line : List UInt8) (before : List UInt8) (r : Round) : Prop
  | newline (stop : r.canStop = true) (text : before = line ++ 10 :: r.reader.text) (held : r.reader.buf1 ≠ [])
  | eof (stop : r.canStop = true) (text : before = line) (held : r.reader.buf1 = [])
  | more (stop : r.canStop = false) (text : before = line ++ r.reader.text)

/-- A round scans up to the first newline in the buffer, or all of it. -/
theorem Started.round (h : Started s) (temp : Int) (result : List UInt8) :
    ∃ line, 10 ∉ line ∧ (round s temp result).result = result ++ line ∧ Started (round s temp result).reader ∧
      Ends line s.text (round s temp result) := by
  have hline : 10 ∉ (s.buf1.drop s.pos1).takeWhile (· ≠ 10) := by
    intro hmem
    have hprop := List.mem_takeWhile_imp hmem
    simp at hprop
  have hsplit := List.takeWhile_append_dropWhile (p := (· ≠ (10 : UInt8))) (l := s.buf1.drop s.pos1)
  refine ⟨_, hline, rfl, ?_⟩
  cases hrest : (s.buf1.drop s.pos1).dropWhile (· ≠ 10) with
  | nil =>
    rw [hrest, List.append_nil] at hsplit
    have hok : ((s.buf1.drop s.pos1).takeWhile (· ≠ 10)).length = (s.buf1.drop s.pos1).length := by rw [hsplit]
    have hreader : (ChildReader.round s temp result).reader = { s with pos1 := s.buf1.length } := by
      have hpos := h.inside
      have hend : s.pos1 + (s.buf1.drop s.pos1).length = s.buf1.length := by
        rw [List.length_drop]
        omega
      simp only [ChildReader.round, hok, if_true, Nat.add_zero, hend]
    have htext : s.text = (s.buf1.drop s.pos1).takeWhile (· ≠ 10) ++ (ChildReader.round s temp result).reader.text := by
      rw [hreader, ChildReader.text, ChildReader.text, List.drop_length, hsplit]
      rfl
    have hstarted : Started (ChildReader.round s temp result).reader := by
      rw [hreader]
      exact ⟨Nat.le_refl _, h.arrived⟩
    refine ⟨hstarted, ?_⟩
    cases hstop : (ChildReader.round s temp result).canStop with
    | false => exact .more hstop htext
    | true =>
      have hbuf : s.buf1 = [] := by
        by_contra hne
        simp only [ChildReader.round, hok, hne, not_true_eq_false, or_self, if_false, ite_self, Bool.false_eq_true] at hstop
      have hbuf' : (ChildReader.round s temp result).reader.buf1 = [] := by
        rw [hreader]
        exact hbuf
      refine .eof hstop ?_ hbuf'
      rw [htext, hstarted.text_nil hbuf', List.append_nil]
  | cons d rest =>
    have hd : d = 10 := by
      have hnot := List.head?_dropWhile_not (· ≠ (10 : UInt8)) (s.buf1.drop s.pos1)
      rw [hrest] at hnot
      simpa using hnot
    rw [hrest, hd] at hsplit
    have hlen := congrArg List.length hsplit
    rw [List.length_append, List.length_cons] at hlen
    have hok : ((s.buf1.drop s.pos1).takeWhile (· ≠ 10)).length ≠ (s.buf1.drop s.pos1).length := by omega
    have hbuf : s.buf1 ≠ [] := by
      intro hnil
      rw [hnil, List.drop_nil] at hsplit
      simp at hsplit
    have hdrop : s.buf1.drop (s.pos1 + ((s.buf1.drop s.pos1).takeWhile (· ≠ 10)).length + 1) = rest := by
      rw [Nat.add_assoc, ← List.drop_drop, ← hsplit]
      rw [List.takeWhile_append_of_pos (by simpa using fun x hx => ne_of_mem_of_not_mem hx hline)]
      simp
    have hreader : (ChildReader.round s temp result).reader =
        { s with pos1 := s.pos1 + ((s.buf1.drop s.pos1).takeWhile (· ≠ 10)).length + 1 } := by
      simp only [ChildReader.round, hok, if_false]
    have hstop : (ChildReader.round s temp result).canStop = true := by
      simp only [ChildReader.round, hok, not_false_eq_true, true_or, if_true, false_and, if_false]
    refine ⟨?_, .newline hstop ?_ ?_⟩
    · rw [hreader]
      refine ⟨?_, fun hnil => absurd hnil hbuf⟩
      rw [List.length_drop] at hlen
      show s.pos1 + _ + 1 ≤ s.buf1.length
      omega
    · rw [hreader, ChildReader.text, ChildReader.text]
      show s.buf1.drop s.pos1 ++ _ = _ ++ 10 :: (s.buf1.drop _ ++ _)
      rw [hdrop]
      conv_lhs => rw [← hsplit]
      rw [List.append_assoc, List.cons_append]
    · rw [hreader]
      exact hbuf

/-- No byte of the standard error is lost between two states of the reader. -/
def Kept (s t : ChildReader) : Prop := t.buf2 ++ t.err = s.buf2 ++ s.err

/-- A call of `getline` takes the next line from what is left to be scanned. -/
theorem Ready.wideLoop (h : Ready s) (result : List UInt8) :
    ∃ line t, 10 ∉ line ∧ Started t ∧ Kept s t ∧
      ((wideLoop s result = (true, result ++ line, t) ∧ s.text = line ++ 10 :: t.text ∧ t.buf1 ≠ []) ∨
        (wideLoop s result = (decide (result ++ line ≠ []), result ++ line, t) ∧ s.text = line ∧ t.buf1 = [])) := by
  induction hn : s.work using Nat.strongRecOn generalizing s result with
  | ind n ih =>
    obtain ⟨hfetch, htext, hkept⟩ := h.fetch
    obtain ⟨line, hline, hresult, hstarted, hends⟩ := hfetch.round s.buf2.length result
    rw [htext] at hends
    have hkept' : Kept s (ChildReader.round s.fetch s.buf2.length result).reader := hkept
    cases hends with
    | newline hstop hbefore hheld =>
      refine ⟨line, _, hline, hstarted, hkept', Or.inl ⟨?_, hbefore, hheld⟩⟩
      rw [wideLoop_stop hstop, hresult, decide_eq_true (Or.inl hheld)]
    | eof hstop hbefore hheld =>
      refine ⟨line, _, hline, hstarted, hkept', Or.inr ⟨?_, hbefore, hheld⟩⟩
      rw [wideLoop_stop hstop, hresult]
      simp [hheld]
    | more hstop hbefore =>
      have hless := round_decreases hstop
      rw [hn] at hless
      obtain ⟨line', t, hline', ht, htkept, hgot⟩ :=
        ih _ hless hstarted.ready (ChildReader.round s.fetch s.buf2.length result).result rfl
      have happend : 10 ∉ line ++ line' := by
        rw [List.mem_append]
        exact not_or.mpr ⟨hline, hline'⟩
      refine ⟨line ++ line', t, happend, ht, htkept.trans hkept', ?_⟩
      rw [wideLoop_more hstop, hbefore, ← List.append_assoc, ← hresult, List.append_assoc]
      rcases hgot with ⟨hloop, hrest, hheld⟩ | ⟨hloop, hrest, hheld⟩
      · exact Or.inl ⟨hloop, by rw [hrest], hheld⟩
      · exact Or.inr ⟨hloop, by rw [hrest], hheld⟩

/-- How much of the standard error is in its buffer when a read finds the standard output at its end and brings no
more of the standard error, after `n` earlier reads of this kind. -/
def settled : Nat → ChildReader → List Wake → Nat
  | _, s, [] => (s.buf2 ++ s.err).length
  | n, s, _ :: ws =>
    if s.blockRead.buf1 = [] ∧ s.buf2.length = s.blockRead.buf2.length then
      match n with
      | 0 => s.buf2.length
      | n + 1 => settled n s.blockRead ws
    else settled n s.blockRead ws

/-- How many calls return a last line that no newline ends. -/
def openLines (out : List UInt8) : Nat := if out = [] ∨ out.getLast? = some 10 then 0 else 1

theorem openLines_cut (line rest : List UInt8) : openLines (line ++ 10 :: rest) = openLines rest := by
  cases rest with
  | nil => simp [openLines]
  | cons c rest => simp [openLines, List.getLast?_append, List.getLast?_cons_cons]

theorem openLines_open {line : List UInt8} (h : 10 ∉ line) (hne : line ≠ []) : openLines line = 1 := by
  apply if_neg
  rintro (hnil | hlast)
  · exact hne hnil
  · exact h (List.mem_of_getLast? hlast)

theorem blockRead_pos1 (s : ChildReader) (pos : Nat) :
    { s with pos1 := pos }.blockRead = { s.blockRead with pos1 := pos } := by
  have hselect : { s with pos1 := pos }.select = s.select := rfl
  rw [ChildReader.blockRead, ChildReader.blockRead, hselect]
  cases s.select.out <;> cases s.select.err <;> rfl

theorem settled_pos1 (n : Nat) (s : ChildReader) (pos : Nat) (ws : List Wake) :
    settled n { s with pos1 := pos } ws = settled n s ws := by
  induction ws generalizing n s with
  | nil => cases n <;> rfl
  | cons w ws ih =>
    cases n with
    | zero =>
      rw [settled, settled, blockRead_pos1, ih]
    | succ n =>
      rw [settled, settled, blockRead_pos1, ih, ih]

/-- A read that brings something does not change when the standard error is settled. -/
theorem settled_read (h : s.blockRead.buf1 ≠ [] ∨ s.buf2.length ≠ s.blockRead.buf2.length) (n : Nat) :
    settled n s s.wakes = settled n s.blockRead s.blockRead.wakes := by
  obtain ⟨-, hwakes, hkept⟩ := s.blockRead_kept
  rw [hwakes]
  cases s.wakes with
  | nil => cases n <;> rw [List.tail_nil, settled, settled, hkept]
  | cons w ws =>
    have hneg : ¬(s.blockRead.buf1 = [] ∧ s.buf2.length = s.blockRead.buf2.length) := by tauto
    cases n <;> rw [settled, if_neg hneg, List.tail_cons]

/-- One that brings nothing is where it is settled, or is left behind. -/
theorem settled_idle (hbuf : s.blockRead.buf1 = []) (hsame : s.buf2.length = s.blockRead.buf2.length) :
    settled 0 s s.wakes = s.blockRead.buf2.length ∧
      ∀ n, settled (n + 1) s s.wakes = settled n s.blockRead s.blockRead.wakes := by
  obtain ⟨-, hwakes, hkept⟩ := s.blockRead_kept
  rw [hwakes]
  cases hw : s.wakes with
  | nil =>
    have hselect : s.select = ⟨some s.out.length, some s.err.length⟩ := by rw [select, hw]; rfl
    have herr : s.err = [] := by
      by_contra hne
      exact (s.blockRead_grows.mpr ⟨by rw [hselect]; rfl, hne⟩) hsame
    refine ⟨?_, fun n => ?_⟩
    · rw [settled, herr, List.append_nil, hsame]
    · rw [List.tail_nil, settled]
      cases n <;> rw [settled, hkept]
  | cons w ws =>
    refine ⟨?_, fun n => ?_⟩
    · rw [settled, if_pos ⟨hbuf, hsame⟩, hsame]
    · rw [settled, if_pos ⟨hbuf, hsame⟩, List.tail_cons]

/-- How a call ends: with a newline, or where the standard error is settled once. -/
inductive Returns (s t : ChildReader) : Prop
  | newline (held : t.buf1 ≠ []) (later : ∀ n, settled n s s.wakes = settled n t t.wakes)
  | eof (held : t.buf1 = []) (here : settled 0 s s.wakes = t.buf2.length)
      (later : ∀ n, settled (n + 1) s s.wakes = settled n t t.wakes)

theorem fetch_read (h : s.buf1.length ≤ s.pos1) : s.fetch.buf1 = s.blockRead.buf1 ∧ s.fetch.buf2 = s.blockRead.buf2 ∧
    ∀ n, settled n s.fetch s.fetch.wakes = settled n s.blockRead s.blockRead.wakes := by
  have hfetch : s.fetch = { s.blockRead with pos1 := 0 } := (if_pos h).trans (s.blockRead_pos1 0)
  rw [hfetch]
  exact ⟨rfl, rfl, fun n => settled_pos1 n s.blockRead 0 _⟩

theorem wideLoop_returns {b : Bool} {l : List UInt8} (h : s.wideLoop result = (b, l, t)) : Returns s t := by
  induction hn : s.work using Nat.strongRecOn generalizing s result with
  | ind n ih =>
    have hround (k : Nat) : settled k (ChildReader.round s.fetch s.buf2.length result).reader s.fetch.wakes =
        settled k s.fetch s.fetch.wakes := settled_pos1 k s.fetch _ s.fetch.wakes
    cases hwide : (ChildReader.round s.fetch s.buf2.length result).canStop with
    | true =>
      rw [wideLoop_stop hwide] at h
      cases h
      by_cases hread : s.buf1.length ≤ s.pos1
      · obtain ⟨hbuf1, hbuf2, hfetch⟩ := fetch_read hread
        by_cases hbuf : s.blockRead.buf1 = []
        · have hnil : s.fetch.buf1 = [] := hbuf1.trans hbuf
          obtain hnewline | ⟨-, hsame⟩ := (canStop_iff _ _ _).mp hwide
          · rw [hnil, List.drop_nil] at hnewline
            exact absurd rfl hnewline
          · rw [hbuf2, Int.natCast_inj] at hsame
            obtain ⟨hhere, hlater⟩ := settled_idle hbuf hsame
            exact .eof hnil (hhere.trans (congrArg List.length hbuf2.symm)) fun k =>
              (hlater k).trans ((hfetch k).symm.trans (hround k).symm)
        · exact .newline (hbuf1.trans_ne hbuf) fun k =>
            (settled_read (Or.inl hbuf) k).trans ((hfetch k).symm.trans (hround k).symm)
      · have hfetch : s.fetch = s := if_neg hread
        refine .newline ?_ fun k => ?_
        · show s.fetch.buf1 ≠ []
          rw [hfetch]
          rintro hnil
          rw [hnil] at hread
          exact hread (Nat.zero_le _)
        · refine Eq.trans ?_ (hround k).symm
          rw [hfetch]
    | false =>
      have hless := round_decreases hwide
      rw [hn] at hless
      obtain ⟨-, hmore⟩ := round_goes_on hwide
      rw [wideLoop_more hwide] at h
      have hreturns := ih _ hless h rfl
      have hsame (k : Nat) : settled k s s.wakes =
          settled k (ChildReader.round s.fetch s.buf2.length result).reader s.fetch.wakes := by
        rw [hround]
        by_cases hread : s.buf1.length ≤ s.pos1
        · obtain ⟨hbuf1, hbuf2, hfetch⟩ := fetch_read hread
          rw [hbuf1, hbuf2] at hmore
          rw [hfetch]
          exact settled_read (hmore.imp_right fun hne heq => hne (congrArg _ heq)) k
        · have hfetch : s.fetch = s := if_neg hread
          rw [hfetch]
      cases hreturns with
      | newline hheld hlater => exact .newline hheld fun k => (hsame k).trans (hlater k)
      | eof hheld hhere hlater => exact .eof hheld ((hsame 0).trans hhere) fun k => (hsame (k + 1)).trans (hlater k)

/-- From where the output has arrived, the lines returned are those of what is left to be scanned. -/
theorem Ready.lines (h : Ready s) : ∃ t, WideLines s (lines 10 s.text) t ∧ Kept s t ∧
    t.buf2.length = settled (openLines s.text) s s.wakes := by
  induction hn : s.text.length using Nat.strongRecOn generalizing s with
  | ind n ih =>
    obtain ⟨line, t, hline, ht, hkept, hgot⟩ := h.wideLoop []
    rcases hgot with ⟨hloop, htext, hheld⟩ | ⟨hloop, htext, hheld⟩
    · have hless : t.text.length < n := by
        rw [← hn, htext, List.length_append, List.length_cons]
        omega
      obtain ⟨u, hlines, hkept', hsettled⟩ := ih _ hless ht.ready rfl
      refine ⟨u, ?_, hkept'.trans hkept, ?_⟩
      · rw [htext, TextLines.lines, linesFrom_cut hline, List.nil_append]
        exact WideLines.more hloop hlines
      · cases wideLoop_returns hloop with
        | newline _ hlater => rw [hsettled, htext, openLines_cut, hlater]
        | eof hnil _ _ => exact absurd hnil hheld
    · cases wideLoop_returns hloop with
      | newline hsome _ => exact absurd hheld hsome
      | eof _ hhere hlater =>
        by_cases hnil : line = []
        · refine ⟨t, ?_, hkept, ?_⟩
          · rw [htext, hnil]
            apply WideLines.stop
            rw [hnil] at hloop
            exact hloop
          · rw [htext, hnil, ← hhere]
            rfl
        · obtain ⟨line', u, -, -, hkept', hgot⟩ := ht.ready.wideLoop []
          rw [ht.text_nil hheld] at hgot
          rcases hgot with ⟨-, hbad, -⟩ | ⟨hloop', hend, hheld'⟩
          · exact absurd hbad (by simp)
          · refine ⟨u, ?_, hkept'.trans hkept, ?_⟩
            · rw [htext, lines_open hline hnil]
              have hmore : s.wideLoop [] = (true, line, t) := by
                rw [hloop, List.nil_append, decide_eq_true hnil]
              have hlast : t.wideLoop [] = (false, [], u) := by
                rw [hloop', ← hend]
                rfl
              exact WideLines.more hmore (WideLines.stop hlast)
            · rw [htext, openLines_open hline hnil, hlater]
              cases wideLoop_returns hloop' with
              | newline hsome _ => exact absurd hheld' hsome
              | eof _ hhere' _ => exact hhere'.symm

theorem WideLines.unique {ls ms : List (List UInt8)} (h : WideLines s ls t) (h' : WideLines s ms u) :
    ls = ms ∧ t = u := by
  induction h generalizing ms u with
  | stop hs =>
    cases h' with
    | stop hs' =>
      cases hs.symm.trans hs'
      exact ⟨rfl, rfl⟩
    | more hs' rest => cases hs.symm.trans hs'
  | more hs _ ih =>
    cases h' with
    | stop hs' => cases hs.symm.trans hs'
    | more hs' rest =>
      cases hs.symm.trans hs'
      obtain ⟨hls, ht⟩ := ih rest
      exact ⟨congrArg _ hls, ht⟩

theorem WideLines.congr {ls : List (List UInt8)} (heq : s.wideLoop [] = t.wideLoop []) (h : WideLines t ls u) :
    WideLines s ls u := by
  cases h with
  | stop ht => exact .stop (heq.trans ht)
  | more ht rest => exact .more (heq.trans ht) rest

/-- The reader behind a `select` that did not report the standard output. -/
def afterErr (s : ChildReader) (w : Wake) (ws : List Wake) : ChildReader := { s with wakes := ws }.readErr w.err

/-- What is scanned from the first call on: without the standard output, a round ends the call unless the standard
error grew in it. -/
def arriving (s : ChildReader) : List Wake → List UInt8
  | [] => s.out
  | w :: ws =>
    match w.out with
    | some _ => future [] s.out (w :: ws)
    | none => if w.err.isSome = true ∧ s.err ≠ [] then arriving (s.afterErr w ws) ws else []

/-- With nothing in the buffer, a round is the last unless the standard error grew. -/
theorem round_empty (hbuf : s.buf1 = []) (temp : Int) :
    (ChildReader.round s temp []).reader = s ∧ (ChildReader.round s temp []).result = [] ∧
      ((ChildReader.round s temp []).canStop = true ↔ temp = s.buf2.length) := by
  refine ⟨?_, ?_, ?_⟩
  · simp only [ChildReader.round, hbuf, List.drop_nil, List.takeWhile_nil, List.length_nil, if_true, Nat.add_zero]
    rw [← hbuf]
  · simp only [ChildReader.round, hbuf, List.drop_nil, List.takeWhile_nil, List.append_nil]
  · rw [canStop_iff, hbuf]
    simp

/-- A round before the standard output has arrived, and without it. -/
theorem round_waiting (hbuf : s.buf1 = []) (hpos : s.pos1 = 0) (hwakes : s.wakes = w :: ws) (hout : w.out = none) :
    s.fetch = s.blockRead ∧ s.blockRead = s.afterErr w ws ∧ (s.afterErr w ws).buf1 = [] ∧ (s.afterErr w ws).pos1 = 0 ∧
      (s.afterErr w ws).out = s.out ∧ (s.afterErr w ws).wakes = ws := by
  obtain ⟨hpos', hbuf', hout', hwakes'⟩ := { s with wakes := ws }.readErr_eq w.err
  have hfetch : s.fetch = { s with pos1 := 0 }.blockRead := if_pos (by simp [hbuf])
  have hreset : { s with pos1 := 0 } = s := by
    rw [← hpos]
  have hselect : s.select = w := by rw [select, hwakes]; rfl
  rw [hreset] at hfetch
  refine ⟨hfetch, ?_, hbuf'.trans hbuf, hpos'.trans hpos, hout', hwakes'⟩
  rw [ChildReader.blockRead, hselect, hout, hwakes]
  rfl

/-- From the start, the lines returned are those of what is scanned. -/
theorem lines_arriving (hbuf : s.buf1 = []) (hpos : s.pos1 = 0) (hwakes : s.wakes = ws) :
    ∃ t, WideLines s (TextLines.lines 10 (arriving s ws)) t ∧ Kept s t ∧
      t.buf2.length = settled (openLines (arriving s ws)) s ws := by
  induction ws generalizing s with
  | nil =>
    have hready : Ready s := ⟨by rw [hpos]; exact Nat.zero_le _, fun _ => Or.inr (by rw [select, hwakes]; rfl)⟩
    have htext : s.text = arriving s [] := by
      rw [text, hbuf, hwakes, List.drop_nil]
      rfl
    rw [← htext, ← hwakes]
    exact hready.lines
  | cons w ws ih =>
    cases hout : w.out with
    | some n =>
      have hready : Ready s := by
        refine ⟨by rw [hpos]; exact Nat.zero_le _, fun _ => Or.inr ?_⟩
        rw [select, hwakes]
        show w.out.isSome = true
        rw [hout]
        rfl
      have htext : s.text = arriving s (w :: ws) := by
        rw [text, hbuf, hwakes, arriving, hout, List.drop_nil, List.nil_append]
      rw [← htext, ← hwakes]
      exact hready.lines
    | none =>
      obtain ⟨hfetch, hread, hbuf', hpos', hout', hwakes'⟩ := round_waiting hbuf hpos hwakes hout
      have hgrows : s.buf2.length ≠ (s.afterErr w ws).buf2.length ↔ w.err.isSome = true ∧ s.err ≠ [] :=
        { s with wakes := ws }.readErr_grows w.err
      have hkept : Kept s (s.afterErr w ws) := { s with wakes := ws }.readErr_kept w.err
      obtain ⟨hreader, hresult, hstop⟩ := round_empty hbuf' s.buf2.length
      rw [← hread, ← hfetch] at hreader hresult hstop
      rw [hfetch, hread, Int.natCast_inj] at hstop
      rw [arriving, hout, ← hwakes]
      dsimp only
      by_cases hmore : w.err.isSome = true ∧ s.err ≠ []
      · have hgrew := hgrows.mpr hmore
        have hgoes : (ChildReader.round s.fetch s.buf2.length []).canStop = false := by
          rw [← Bool.not_eq_true, hfetch, hread, hstop]
          exact hgrew
        obtain ⟨t, hlines, hkept', hsettled⟩ := ih hbuf' hpos' hwakes'
        have hsame : s.wideLoop [] = (s.afterErr w ws).wideLoop [] := by
          rw [wideLoop_more hgoes, hreader, hresult, hfetch, hread]
        rw [if_pos hmore, settled_read (Or.inr (by rw [hread]; exact hgrew)), hread, hwakes']
        exact ⟨t, WideLines.congr hsame hlines, hkept'.trans hkept, hsettled⟩
      · have hsame : s.buf2.length = (s.afterErr w ws).buf2.length := not_not.mp (hgrows.not.mpr hmore)
        have hends : (ChildReader.round s.fetch s.buf2.length []).canStop = true := by
          rw [hfetch, hread, hstop]
          exact hsame
        rw [if_neg hmore]
        refine ⟨s.afterErr w ws, WideLines.stop (l := []) ?_, hkept, ?_⟩
        · rw [wideLoop_stop hends, hresult, hreader, hfetch, hread, hbuf']
          rfl
        · obtain ⟨hhere, -⟩ := settled_idle (s := s) (by rw [hread]; exact hbuf') (by rw [hread]; exact hsame)
          rw [hread] at hhere
          exact hhere.symm

/-- Every `select` reports the standard output, up to its end. -/
def InStep (out : List UInt8) : List Wake → Prop
  | [] => True
  | w :: ws =>
    match w.out with
    | none => False
    | some n => out = [] ∨ InStep (out.drop (min pipeBuf (n + 1))) ws

/-- Until the standard output arrives every `select` that does not report it has bytes of the standard error, unless
there is no output; from then on every one reports it. -/
def Awaited (s : ChildReader) : List Wake → Prop
  | [] => True
  | w :: ws =>
    match w.out with
    | some _ => InStep s.out (w :: ws)
    | none => if w.err.isSome = true ∧ s.err ≠ [] then Awaited (s.afterErr w ws) ws else s.out = []

theorem future_inStep (c : List UInt8) (h : InStep out ws) : future c out ws = out := by
  induction ws generalizing c out with
  | nil => rfl
  | cons w ws ih =>
    rw [InStep] at h
    rw [future]
    cases hout : w.out with
    | none => simp [hout] at h
    | some n =>
      rw [hout] at h
      dsimp only at h ⊢
      rcases h with rfl | h
      · exact if_pos rfl
      · rw [ih _ h, List.take_append_drop]
        split_ifs with hnil
        · exact hnil.symm
        · rfl

theorem take_ne_nil (hne : out ≠ []) (n : Nat) : out.take (min pipeBuf (n + 1)) ≠ [] := by
  rw [Ne, List.take_eq_nil_iff, pipeBuf]
  rintro (hzero | hnil)
  · omega
  · exact hne hnil

/-- What is scanned is the output and more, if some `select` did not report it. -/
theorem future_length (hc : c ≠ []) (out : List UInt8) (ws : List Wake) :
    out.length ≤ (future c out ws).length ∧ ((future c out ws).length = out.length → InStep out ws) := by
  induction ws generalizing c out with
  | nil => exact ⟨Nat.le_refl _, fun _ => trivial⟩
  | cons w ws ih =>
    rw [future, InStep]
    cases hout : w.out with
    | none =>
      have hpos := List.length_pos_iff.mpr hc
      obtain ⟨hle, -⟩ := ih hc out
      dsimp only
      rw [List.length_append]
      exact ⟨by omega, fun h => by omega⟩
    | some n =>
      dsimp only
      split_ifs with hnil
      · rw [hnil]
        exact ⟨Nat.le_refl _, fun _ => Or.inl rfl⟩
      · obtain ⟨hle, heq⟩ := ih (take_ne_nil hnil n) (out.drop (min pipeBuf (n + 1)))
        have hsplit := congrArg List.length (List.take_append_drop (min pipeBuf (n + 1)) out)
        rw [List.length_append] at hsplit
        rw [List.length_append]
        exact ⟨by omega, fun h => Or.inr (heq (by omega))⟩

theorem last_append (xs : List UInt8) {ys : List UInt8} (hne : ys ≠ []) : (xs ++ ys).getLast? = ys.getLast? := by
  rw [List.getLast?_append, List.getLast?_eq_some_getLast hne]
  rfl

/-- What is scanned ends in the last byte of the output. -/
theorem future_last (hc : c ≠ []) (out : List UInt8) (ws : List Wake) :
    (c ++ future c out ws).getLast? = (c ++ out).getLast? := by
  induction ws generalizing c out with
  | nil => rfl
  | cons w ws ih =>
    rw [future]
    cases hout : w.out with
    | none =>
      dsimp only
      rw [last_append _ (by simp [hc])]
      exact ih hc out
    | some n =>
      dsimp only
      split_ifs with hnil
      · rw [hnil]
      · have hrest := ih (take_ne_nil hnil n) (out.drop (min pipeBuf (n + 1)))
        rw [List.take_append_drop] at hrest
        rw [last_append _ (by simp [take_ne_nil hnil n]), hrest, last_append _ hnil]

/-- The lines of what is scanned are those of the output just when it was awaited. -/
theorem lines_arriving_iff (s : ChildReader) (ws : List Wake) :
    TextLines.lines 10 (arriving s ws) = TextLines.lines 10 s.out ↔ Awaited s ws := by
  induction ws generalizing s with
  | nil => exact iff_of_true rfl trivial
  | cons w ws ih =>
    rw [arriving, Awaited]
    cases hout : w.out with
    | some n =>
      dsimp only
      rw [future, InStep, hout]
      dsimp only
      split_ifs with hnil
      · rw [hnil]
        exact iff_of_true rfl (Or.inl rfl)
      · have hne := take_ne_nil hnil n
        have hsplit := List.take_append_drop (min pipeBuf (n + 1)) s.out
        have hlast := future_last hne (s.out.drop (min pipeBuf (n + 1))) ws
        rw [hsplit] at hlast
        constructor
        · intro hlines
          have hsame := congrArg List.length (eq_of_lines hlines hlast)
          have hlen := congrArg List.length hsplit
          rw [List.length_append] at hsame hlen
          exact Or.inr ((future_length hne _ ws).2 (by omega))
        · rintro (hnil' | hstep)
          · exact absurd hnil' hnil
          · rw [future_inStep _ hstep, hsplit]
    | none =>
      dsimp only
      split_ifs with hmore
      · have hkeeps : (s.afterErr w ws).out = s.out := ({ s with wakes := ws }.readErr_eq w.err).2.2.1
        rw [← ih, hkeeps]
      · rw [← lines_eq_nil_iff 10 s.out]
        exact eq_comm

theorem Awaited.arriving_eq (h : Awaited s ws) : arriving s ws = s.out := by
  induction ws generalizing s with
  | nil => rfl
  | cons w ws ih =>
    rw [Awaited] at h
    rw [arriving]
    cases hout : w.out with
    | some n =>
      rw [hout] at h
      exact future_inStep [] h
    | none =>
      rw [hout] at h
      dsimp only at h ⊢
      split_ifs at h ⊢ with hmore
      · have hkeeps : (s.afterErr w ws).out = s.out := ({ s with wakes := ws }.readErr_eq w.err).2.2.1
        exact (ih h).trans hkeeps
      · exact h.symm

/-- Repeated calls return the lines of the output and then false, and the standard error is what has been buffered
of it and what is not read yet. -/
def ReadsLines (out err : List UInt8) (wakes : List Wake) : Prop :=
  ∃ t, Lines (start out err wakes) (TextLines.lines 10 out) t ∧ t.buf2 ++ t.err = err

/-- The lines do not depend on how the output arrives just where it is awaited, and less than 2^31 bytes of the
standard error are read before it is settled. -/
theorem readsLines_iff (out err : List UInt8) (wakes : List Wake) :
    ReadsLines out err wakes ↔ Awaited (start out err wakes) wakes ∧
      settled (openLines out) (start out err wakes) wakes < 2 ^ 31 := by
  obtain ⟨t, hlines, hkept, hsettled⟩ : ∃ t,
      WideLines (start out err wakes) (TextLines.lines 10 (arriving (start out err wakes) wakes)) t ∧
      Kept (start out err wakes) t ∧
      t.buf2.length = settled (openLines (arriving (start out err wakes) wakes)) (start out err wakes) wakes :=
    lines_arriving rfl rfl rfl
  constructor
  · rintro ⟨u, hreads, -⟩
    obtain ⟨hwide, hsmall⟩ := lines_iff_wide.mp hreads
    obtain ⟨hsame, rfl⟩ := hlines.unique hwide
    have hawaited := (lines_arriving_iff _ _).mp hsame
    rw [hsettled, hawaited.arriving_eq] at hsmall
    exact ⟨hawaited, hsmall⟩
  · rintro ⟨hawaited, hsmall⟩
    rw [hawaited.arriving_eq] at hlines hsettled
    exact ⟨t, lines_iff_wide.mpr ⟨hlines, by rw [hsettled]; exact hsmall⟩, hkept⟩

/-- A byte on the standard error alone has the buffer of the standard output scanned again. -/
theorem readsLines_stale : ¬ ReadsLines [97, 10] [98] [⟨some 1, none⟩, ⟨none, some 0⟩] := by
  rintro ⟨t, hlines, -⟩
  obtain ⟨u, hlines', -, -⟩ := lines_arriving (s := start [97, 10] [98] [⟨some 1, none⟩, ⟨none, some 0⟩]) rfl rfl rfl
  exact absurd (hlines'.unique hlines.wide).1 (by decide)

end ChildReader

end Oprofile.Libutilpp

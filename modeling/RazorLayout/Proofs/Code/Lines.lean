import RazorLayout.Proofs.Code.Bracket
import RazorLayout.Proofs.Text.Words

/-!
# Matching brackets line by line

Whether a bracket of a snippet is matched does not depend on how the lines of the snippet are
indented. A mark of several characters never reaches over a line end, and at the beginning of a
line the scan is in a mode that blanks do not change: it is not inside a line comment, and no
character is escaped there. So blanks at both ends of a line and blank lines can be added and
removed, inside literals and comments too, and the match stays at the same bracket.

## Main definitions

* `Bracket.Place`: where a match stands between two steps
* `Bracket.pass`: the place behind a text that does not close the first delimiter
* `Mode.Proper`, `Mode.Settled`: the modes of a scan, and those at the beginning of a line

## Main results

* `Bracket.pass_textLines`: a text is passed as its trimmed lines are
* `Bracket.brace_matchCode?_of_textLines`: texts with the same lines are closed by the same brace
-/

namespace RazorLayout.Code

open Text

/-! ### What a step looks at -/

/-- No mark goes on at the head of the text. -/
def BeginsPlain (s : List Char) : Prop := ∀ c, s.head? = some c → c ∉ marks

theorem beginsPlain_cons {c : Char} (hc : c ∉ marks) (s : List Char) : BeginsPlain (c :: s) := by
  intro d hd
  obtain rfl : c = d := by simpa using hd
  exact hc

theorem beginsPlain_cons_of_isBlank {c : Char} (hc : isBlank c = true) (s : List Char) :
    BeginsPlain (c :: s) := by
  refine beginsPlain_cons (fun h => ?_) s
  simp only [marks, List.mem_cons, List.not_mem_nil, or_false] at h
  rcases h with rfl | rfl | rfl | rfl | rfl <;> simp [isBlank] at hc

/-- A step does not look at a text that goes on with no mark. -/
theorem step_append_of_beginsPlain (lang : Language) (m : Mode) (c : Char) (u : List Char)
    {s : List Char} (hs : BeginsPlain s) : step lang m c (u ++ s) = step lang m c u := by
  have head (d : Char) (hd : d ∈ marks) : (u ++ s).head? = some d ↔ u.head? = some d := by
    cases u with
    | nil => exact ⟨fun h => absurd hd (hs d h), fun h => by simp at h⟩
    | cons e u => rfl
  -- the longest mark is `$@"`, so a step looks two characters ahead at most
  have mark : (u ++ s).take 2 = ['@', '"'] ↔ u.take 2 = ['@', '"'] := by
    match u with
    | [] =>
      cases s with
      | nil => rfl
      | cons d s =>
        have hd : d ≠ '@' := fun h => hs d rfl (by simp [h, marks])
        simp [hd]
    | [e] =>
      cases s with
      | nil => rfl
      | cons d s =>
        have hd : d ≠ '"' := fun h => hs d rfl (by simp [h, marks])
        simp [hd]
    | e :: f :: u => simp
  have slash := head '/' (by decide)
  have star := head '*' (by decide)
  have quote := head '"' (by decide)
  simp only [step, stringStep, codeStep, slash, star, quote, mark]

theorem extra_stringStep_le (m : Mode) (q : Quote) (c : Char) (s : List Char) :
    (stringStep m q c s).extra ≤ s.length := by
  unfold stringStep
  repeat' split
  any_goals exact Nat.zero_le _
  rename_i hquote
  obtain ⟨s, rfl⟩ := List.head?_eq_some_iff.1 hquote
  simp

theorem extra_codeStep_le (lang : Language) (m : Mode) (c : Char) (s : List Char) :
    (codeStep lang m c s).extra ≤ s.length := by
  have one {d : Char} (h : s.head? = some d) : 1 ≤ s.length := by
    obtain ⟨s, rfl⟩ := List.head?_eq_some_iff.1 h
    simp
  have two (h : s.take 2 = ['@', '"']) : 2 ≤ s.length := by
    have := congrArg List.length h
    simp only [List.length_take, List.length_cons, List.length_nil] at this
    omega
  unfold codeStep
  repeat' split
  any_goals exact Nat.zero_le _
  all_goals simp_all

/-- The further characters of a step are in the text. -/
theorem extra_step_le (lang : Language) (m : Mode) (c : Char) (s : List Char) :
    (step lang m c s).extra ≤ s.length := by
  unfold step
  split
  · split <;> exact Nat.zero_le _
  · split
    · split
      · rename_i hends
        simp only [Bool.and_eq_true, decide_eq_true_eq] at hends
        obtain ⟨s, rfl⟩ := List.head?_eq_some_iff.1 hends.2
        simp
      · exact Nat.zero_le _
    · split
      · exact extra_stringStep_le ..
      · exact extra_codeStep_le ..

/-! ### Modes -/

/-- The modes of a scan: comments stand outside of literals, and escapes inside of them. -/
structure Mode.Proper (m : Mode) : Prop where
  comment : m.inLineComment = true ∨ m.state.inBlockComment = true → m.state.quote = none
  escape : m.escaped = true → ∃ q, m.state.quote = some q ∧ q ≠ .verbatim

/-- The modes at the beginning of a line: a literal or comment that is open spans lines. -/
structure Mode.Settled (m : Mode) : Prop extends m.Proper where
  no_comment : m.inLineComment = false
  no_escape : m.escaped = false
  spans : ∀ q, m.state.quote = some q → q.spansLines = true

theorem Mode.settled_start : Mode.Settled {} :=
  ⟨⟨fun _ => rfl, by simp⟩, rfl, rfl, by simp⟩

section Step

variable {lang : Language} {m : Mode}

theorem proper_stringStep (hm : m.Proper) (hline : m.inLineComment = false)
    (hblock : m.state.inBlockComment = false) {q : Quote} (hq : m.state.quote = some q) (c : Char)
    (s : List Char) : (stringStep m q c s).after.Proper := by
  have escape := hm.escape
  unfold stringStep Mode.closing
  repeat' split
  all_goals constructor <;> simp_all

theorem proper_codeStep (hm : m.Proper) (hline : m.inLineComment = false)
    (hblock : m.state.inBlockComment = false) (hq : m.state.quote = none) (c : Char)
    (s : List Char) : (codeStep lang m c s).after.Proper := by
  have escape := hm.escape
  unfold codeStep Mode.opening
  repeat' split
  all_goals constructor <;> simp_all

theorem Mode.Proper.step (hm : m.Proper) (c : Char) (s : List Char) :
    (Code.step lang m c s).after.Proper := by
  have comment := hm.comment
  have escape := hm.escape
  unfold Code.step
  split
  · split
    · constructor <;> simp_all
    · exact hm
  · rename_i hline
    split
    · split
      · constructor <;> simp_all
      · exact hm
    · rename_i hblock
      split
      · exact proper_stringStep hm (by simpa using hline) (by simpa using hblock) ‹_› c s
      · exact proper_codeStep hm (by simpa using hline) (by simpa using hblock) ‹_› c s

theorem Mode.Proper.unescaped (hm : m.Proper) (h : m.state.quote = none) :
    { m with escaped := false } = m := by
  obtain ⟨state, line, escaped⟩ := m
  cases escaped with
  | false => rfl
  | true =>
    obtain ⟨q, hq, -⟩ := hm.escape rfl
    exact absurd (h.symm.trans hq) (by simp)

/-- A blank inside a literal that goes on behind it. -/
theorem stringStep_of_isBlank (hm : m.Proper) {q : Quote} (hq : m.state.quote = some q) {c : Char}
    (hc : isBlank c = true) (hspans : c = '\n' → q.spansLines = true) (s : List Char) :
    stringStep m q c s = { role := .string, after := { m with escaped := false } } := by
  have ends : ¬ (c = '\n' ∧ q.spansLines = false) := fun h => by simp [hspans h.1] at h
  have quote : c ≠ '"' := by rintro rfl; simp [isBlank] at hc
  have backslash : c ≠ '\\' := by rintro rfl; simp [isBlank] at hc
  have closer : c ≠ q.closer := by
    rintro rfl
    cases q <;> simp [isBlank, Quote.closer] at hc
  simp only [stringStep, Bool.and_eq_true, decide_eq_true_eq, Bool.not_eq_true', ends, quote,
    backslash, closer, if_false]
  -- what is left is the escape, which a verbatim literal does not have
  obtain ⟨state, line, escaped⟩ := m
  have escape := hm.escape
  cases q <;> cases escaped <;> simp_all

theorem codeStep_of_isBlank {c : Char} (hc : isBlank c = true) (s : List Char) :
    codeStep lang m c s = { role := .code, after := m } := by
  have ink (d : Char) (hd : isBlank d = false) : c ≠ d := by rintro rfl; simp [hc] at hd
  simp [codeStep, ink '/' (by decide), ink '"' (by decide), ink '\'' (by decide),
    ink '`' (by decide), ink '@' (by decide), ink '$' (by decide)]

/-- A blank changes nothing but for an escape that it takes, unless it is a line feed that ends
something. -/
theorem Mode.Proper.step_blank (hm : m.Proper) (lang : Language) {c : Char} (hc : isBlank c = true)
    (hline : c = '\n' → m.inLineComment = false)
    (hspans : c = '\n' → ∀ q, m.state.quote = some q → q.spansLines = true) (s : List Char) :
    (Code.step lang m c s).extra = 0 ∧
      (Code.step lang m c s).after = { m with escaped := false } := by
  have star : c ≠ '*' := by rintro rfl; simp [isBlank] at hc
  unfold Code.step
  split
  · rename_i h
    have hn : c ≠ '\n' := fun hn => by simp [hline hn] at h
    simp [hn, hm.unescaped (hm.comment (.inl h))]
  · split
    · rename_i h
      simp [star, hm.unescaped (hm.comment (.inr h))]
    · split
      · rename_i q hq
        simp [stringStep_of_isBlank hm hq hc (fun hn => hspans hn q hq)]
      · rename_i hq
        simp [codeStep_of_isBlank hc, hm.unescaped hq]

/-- The mode behind a line feed: what does not span lines has ended. -/
def Mode.newline (m : Mode) : Mode :=
  { state := { m.state with quote := m.state.quote.filter Quote.spansLines } }

theorem Mode.settled_newline (hm : m.Proper) : m.newline.Settled := by
  refine ⟨⟨fun h => ?_, fun h => ?_⟩, rfl, rfl, fun q hq => ?_⟩
  · have quote : m.state.quote = none := hm.comment (.inr (h.resolve_left (by simp [newline])))
    simp [newline, quote]
  · simp [newline] at h
  · exact (Option.filter_eq_some_iff.1 hq).2

theorem Mode.Proper.step_newline (hm : m.Proper) (lang : Language) (s : List Char) :
    (Code.step lang m '\n' s).extra = 0 ∧ (Code.step lang m '\n' s).after = m.newline := by
  obtain ⟨⟨quote, block⟩, line, escaped⟩ := m
  obtain ⟨comment, escape⟩ := id hm
  cases line with
  | true => simp_all [Code.step, newline]
  | false =>
    cases block with
    | true => simp_all [Code.step, newline]
    | false =>
      cases quote with
      | none => simp_all [Code.step, codeStep, newline]
      | some q =>
        cases hq : q.spansLines with
        | true =>
          have step := stringStep_of_isBlank hm (c := '\n') rfl (by decide) (fun _ => hq) s
          simp [Code.step, newline, step, Option.filter, hq]
        | false => simp [Code.step, newline, stringStep, closing, Option.filter, hq]

end Step

/-! ### Passing a text -/

namespace Bracket

/-- Counts the first character of a step, if it is code. -/
def countStep (b : Bracket) (depth : Nat) (c : Char) (st : Step) : Count :=
  if st.role = .code then b.count depth c else .pending depth

section Match

variable {b : Bracket} {lang : Language} {depth : Nat} {m : Mode} {c : Char} {s : List Char}

theorem matchCodeFrom_of_pending {d : Nat}
    (h : b.countStep depth c (step lang m c s) = .pending d) (n : Nat) :
    matchCodeFrom b lang n depth 0 m (c :: s)
      = matchCodeFrom b lang (n + 1) d (step lang m c s).extra (step lang m c s).after s := by
  unfold countStep at h
  rw [matchCodeFrom_cons]
  split at h
  · rename_i hrole
    simp only [hrole, h]
  · rename_i hrole
    obtain rfl : depth = d := by simpa using h
    cases hr : (step lang m c s).role with
    | code => exact absurd hr hrole
    | comment => rfl
    | string => rfl

/-- A character that does not leave the match pending is the match, or there is none. -/
theorem eq_of_matchCodeFrom (h : ∀ d, b.countStep depth c (step lang m c s) ≠ .pending d)
    {n k : Nat} (hk : matchCodeFrom b lang n depth 0 m (c :: s) = some k) : k = n := by
  have hrole : (step lang m c s).role = .code := by
    by_contra hrole
    exact h depth (if_neg hrole)
  simp only [countStep, hrole, if_true] at h
  rw [matchCodeFrom_cons] at hk
  simp only [hrole] at hk
  split at hk
  · rename_i d hd
    exact absurd hd (h d)
  · exact (Option.some.inj hk).symm
  · simp at hk

end Match

/-- Where a match stands between two steps. -/
structure Place where
  /-- Number of delimiters that are open. -/
  depth : Nat
  mode : Mode

/-- The place behind a text; `none` when a closer of the text ends the match. The first `skip`
characters belong to a step already taken. -/
def pass (b : Bracket) (lang : Language) : (skip : Nat) → Place → List Char → Option Place
  | _, p, [] => some p
  | skip + 1, p, _ :: s => pass b lang skip p s
  | 0, p, c :: s =>
    let st := step lang p.mode c s
    match b.countStep p.depth c st with
    | .pending d => pass b lang st.extra ⟨d, st.after⟩ s
    | _ => none

section Pass

variable {b : Bracket} {lang : Language} {skip : Nat} {p q : Place} {u s : List Char}

/-- Behind a text that is passed the match goes on. -/
theorem matchCodeFrom_of_pass (hs : BeginsPlain s) (hskip : skip ≤ u.length)
    (h : pass b lang skip p u = some q) (n : Nat) :
    matchCodeFrom b lang n p.depth skip p.mode (u ++ s)
      = matchCodeFrom b lang (n + u.length) q.depth 0 q.mode s := by
  fun_induction pass b lang skip p u generalizing n with
  | case1 skip p =>
    obtain rfl := Option.some.inj h
    obtain rfl : skip = 0 := by simpa using hskip
    rfl
  | case2 skip p c u ih =>
    rw [List.cons_append, matchCodeFrom, ih (by simpa using hskip) h (n + 1), List.length_cons]
    congr 1
    omega
  | case3 p c u st d hcount ih =>
    -- the last steps of the text do not reach into what follows
    have same := step_append_of_beginsPlain lang p.mode c u hs
    rw [List.cons_append, matchCodeFrom_of_pending (by rwa [same]), same,
      ih (extra_step_le ..) h (n + 1), List.length_cons]
    congr 1
    omega
  | case4 => simp at h

/-- A match behind a text passes the text. -/
theorem exists_pass_of_matchCodeFrom (hs : BeginsPlain s) (hskip : skip ≤ u.length) {n k : Nat}
    (h : matchCodeFrom b lang n p.depth skip p.mode (u ++ s) = some k) (hk : n + u.length ≤ k) :
    ∃ q, pass b lang skip p u = some q := by
  fun_induction pass b lang skip p u generalizing n with
  | case1 skip p => exact ⟨p, rfl⟩
  | case2 skip p c u ih =>
    rw [List.length_cons] at hk hskip
    exact ih (by omega) h (by omega)
  | case3 p c u st d hcount ih =>
    have same := step_append_of_beginsPlain lang p.mode c u hs
    rw [List.cons_append, matchCodeFrom_of_pending (by rwa [same]), same] at h
    rw [List.length_cons] at hk
    exact ih (extra_step_le ..) h (by omega)
  | case4 p c u st hcount =>
    -- a character that does not leave the match pending ends it before the end of the text
    have same := step_append_of_beginsPlain lang p.mode c u hs
    rw [List.cons_append] at h
    have ends : k = n := eq_of_matchCodeFrom (by rwa [same]) h
    rw [List.length_cons] at hk
    omega

theorem pass_append (hs : BeginsPlain s) (hskip : skip ≤ u.length) :
    pass b lang skip p (u ++ s) = (pass b lang skip p u).bind fun q => pass b lang 0 q s := by
  fun_induction pass b lang skip p u with
  | case1 skip p =>
    obtain rfl : skip = 0 := by simpa using hskip
    rfl
  | case2 skip p c u ih => exact ih (by simpa using hskip)
  | case3 p c u st d hcount ih =>
    have same := step_append_of_beginsPlain lang p.mode c u hs
    rw [← ih (extra_step_le ..), List.cons_append, pass]
    simp only [same]
    rw [hcount]
  | case4 p c u st hcount =>
    have same := step_append_of_beginsPlain lang p.mode c u hs
    rw [List.cons_append, pass]
    simp only [same]
    split
    · rename_i d hd
      exact absurd hd (hcount d)
    · rfl

theorem proper_of_pass (hp : p.mode.Proper) (h : pass b lang skip p u = some q) :
    q.mode.Proper := by
  fun_induction pass b lang skip p u with
  | case1 skip p => exact Option.some.inj h ▸ hp
  | case2 skip p c u ih => exact ih hp h
  | case3 p c u st d hcount ih => exact ih (hp.step c u) h
  | case4 => simp at h

end Pass

section Blank

variable {lang : Language} {p : Place}

theorem count_of_isBlank {c : Char} (hc : isBlank c = true) (depth : Nat) :
    brace.count depth c = .pending depth := by
  have opener : c ≠ '{' := by rintro rfl; simp [isBlank] at hc
  have closer : c ≠ '}' := by rintro rfl; simp [isBlank] at hc
  simp [count, brace, opener, closer]

/-- A blank is passed by its step alone. -/
theorem pass_cons_of_isBlank {c : Char} (hc : isBlank c = true) {s : List Char}
    (hextra : (step lang p.mode c s).extra = 0) :
    pass brace lang 0 p (c :: s)
      = pass brace lang 0 ⟨p.depth, (step lang p.mode c s).after⟩ s := by
  have pending : brace.countStep p.depth c (step lang p.mode c s) = .pending p.depth := by
    unfold countStep
    split
    · exact count_of_isBlank hc p.depth
    · rfl
  rw [pass]
  simp only [pending, hextra]

/-- At the beginning of a line blanks change nothing. -/
theorem pass_blank_append (hp : p.mode.Settled) {g : List Char} (hg : allBlank g = true)
    (s : List Char) : pass brace lang 0 p (g ++ s) = pass brace lang 0 p s := by
  induction g with
  | nil => rfl
  | cons c g ih =>
    simp only [allBlank_cons, Bool.and_eq_true] at hg
    obtain ⟨hextra, hafter⟩ := hp.toProper.step_blank lang hg.1
      (fun _ => hp.no_comment) (fun _ => hp.spans) (g ++ s)
    have kept : { p.mode with escaped := false } = p.mode := by rw [← hp.no_escape]
    rw [List.cons_append, pass_cons_of_isBlank hg.1 hextra, hafter, kept]
    exact ih hg.2

/-- Blanks at the end of a line are passed with the line feed. -/
theorem pass_lineEnd (hp : p.mode.Proper) {g : List Char} (hg : allBlank g = true)
    (hn : '\n' ∉ g) (s : List Char) :
    pass brace lang 0 p (g ++ '\n' :: s) = pass brace lang 0 ⟨p.depth, p.mode.newline⟩ s := by
  induction g generalizing p with
  | nil =>
    obtain ⟨hextra, hafter⟩ := hp.step_newline lang s
    rw [List.nil_append, pass_cons_of_isBlank (by decide) hextra, hafter]
  | cons c g ih =>
    simp only [allBlank_cons, Bool.and_eq_true] at hg
    simp only [List.mem_cons, not_or] at hn
    obtain ⟨hextra, hafter⟩ := hp.step_blank lang hg.1 (fun h => absurd h.symm hn.1)
      (fun h => absurd h.symm hn.1) (g ++ '\n' :: s)
    rw [List.cons_append, pass_cons_of_isBlank hg.1 hextra, ih (hp.step c _) hg.2 hn.2, hafter]
    rfl

theorem beginsPlain_blank_append {g : List Char} (hg : allBlank g = true) (s : List Char) :
    BeginsPlain (g ++ '\n' :: s) := by
  cases g with
  | nil => exact beginsPlain_cons_of_isBlank (by decide) s
  | cons c g => exact beginsPlain_cons_of_isBlank (allBlank_iff.1 hg c List.mem_cons_self) _

/-- A line is passed, and then its line feed, with the blanks in front of it. -/
theorem pass_append_lineEnd (hp : p.mode.Proper) (l : List Char) {g : List Char}
    (hg : allBlank g = true) (hn : '\n' ∉ g) (s : List Char) :
    pass brace lang 0 p (l ++ (g ++ '\n' :: s))
      = (pass brace lang 0 p l).bind fun q => pass brace lang 0 ⟨q.depth, q.mode.newline⟩ s := by
  rw [pass_append (beginsPlain_blank_append hg s) (Nat.zero_le _)]
  refine Option.bind_congr fun q hq => ?_
  exact pass_lineEnd (proper_of_pass hp hq) hg hn s

theorem pass_append_newline (lang : Language) (hp : p.mode.Proper) (l s : List Char) :
    pass brace lang 0 p (l ++ '\n' :: s)
      = (pass brace lang 0 p l).bind fun q => pass brace lang 0 ⟨q.depth, q.mode.newline⟩ s :=
  pass_append_lineEnd hp l (g := []) rfl List.not_mem_nil s

/-- A line is passed as it is when it is trimmed; a blank line can be left out. -/
theorem pass_textLine (lang : Language) (hp : p.mode.Settled) {l : List Char} (hl : '\n' ∉ l)
    (s : List Char) :
    pass brace lang 0 p ((textLines l).flatMap (· ++ ['\n']) ++ s)
      = pass brace lang 0 p (l ++ '\n' :: s) := by
  rw [textLines_of_newline_not_mem hl]
  split
  · rename_i hblank
    -- the line and its line feed are blanks at the beginning of the next line
    have blank : allBlank (l ++ ['\n']) = true := by
      rw [allBlank_append, hblank]
      decide
    simpa using (pass_blank_append hp blank s).symm
  · obtain ⟨g, g', hg, hg', hparts⟩ := trim_parts l
    have hn : '\n' ∉ g' := fun h => hl (by rw [hparts]; simp [h])
    conv_rhs => rw [hparts, List.append_assoc, List.append_assoc, pass_blank_append hp hg,
      pass_append_lineEnd hp.toProper (trim l) hg' hn]
    simpa using pass_append_newline lang hp.toProper (trim l) s

/-- A text is passed as its trimmed lines are. -/
theorem pass_textLines (hp : p.mode.Settled) (s : List Char) :
    pass brace lang 0 p ((textLines s).flatMap (· ++ ['\n']))
      = pass brace lang 0 p (s ++ ['\n']) := by
  induction s using cut_induction (· == '\n') generalizing p with
  | piece s hs =>
    have hs : '\n' ∉ s := fun h => by simpa using hs _ h
    simpa using pass_textLine lang hp hs []
  | cut a c b ha hc ih =>
    obtain rfl : c = '\n' := by simpa using hc
    have ha : '\n' ∉ a := fun h => by simpa using ha _ h
    rw [textLines_append_newline, List.flatMap_append, pass_textLine lang hp ha, List.append_assoc,
      List.cons_append, pass_append_newline lang hp.toProper,
      pass_append_newline lang hp.toProper]
    -- behind the line feed the scan is at the beginning of a line again
    exact Option.bind_congr fun q hq =>
      ih (Mode.settled_newline (proper_of_pass hp.toProper hq))

end Blank

/-! ### The closing brace -/

/-- A closing brace is code only outside of literals and comments. -/
theorem eq_start_of_role {lang : Language} {m : Mode} (hm : m.Proper) {s : List Char}
    (h : (step lang m '}' s).role = .code) : m = {} := by
  unfold step at h
  split at h
  · simp at h
  · rename_i hline
    split at h
    · simp at h
    · rename_i hblock
      split at h
      · unfold stringStep at h
        repeat' split at h
        all_goals simp_all
      · rename_i hquote
        obtain ⟨⟨quote, block⟩, line, escaped⟩ := m
        have := hm.unescaped hquote
        simp_all

/-- A brace that closes the first one is code, and no other brace is open in front of it. -/
theorem eq_of_closing_brace {lang : Language} {n k depth : Nat} {m : Mode} (hm : m.Proper)
    (h : matchCodeFrom brace lang n depth 0 m ['}'] = some k) : depth = 1 ∧ m = {} := by
  -- otherwise the match would be pending, with nothing behind it
  have closed (d : Nat) : brace.countStep depth '}' (step lang m '}' []) ≠ .pending d := by
    intro hd
    rw [matchCodeFrom_of_pending hd] at h
    simp [matchCodeFrom] at h
  have role : (step lang m '}' []).role = .code := by
    by_contra hrole
    exact closed depth (if_neg hrole)
  refine ⟨?_, eq_start_of_role hm role⟩
  obtain _ | _ | d := depth
  · simp [matchCodeFrom, role, count, brace] at h
  · rfl
  · exact absurd (by simp [countStep, role, count, brace]) (closed (d + 1))

theorem matchCode?_brace_cons (s : List Char) :
    brace.matchCode? ('{' :: s) = matchCodeFrom brace .csharp 1 1 0 {} s := by
  have code : step .csharp {} '{' s = { role := .code, after := {} } := by simp [step, codeStep]
  have opened : brace.count 0 '{' = .pending 1 := by simp [count, brace]
  simp only [matchCode?, matchCodeFrom_cons, code, opened]

/-- Texts with the same trimmed lines are closed by the same brace, on a line of its own in the
second text. -/
theorem brace_matchCode?_of_textLines {s t : List Char} (hlines : textLines s = textLines t)
    (h : brace.matchCode? ('{' :: (s ++ ['}'])) = some (s.length + 1)) (rest : List Char) :
    brace.matchCode? ('{' :: (t ++ '\n' :: '}' :: rest)) = some (t.length + 2) := by
  have closer (r : List Char) : BeginsPlain ('}' :: r) := beginsPlain_cons (by decide) r
  let start : Place := ⟨1, {}⟩
  have hstart : start.mode.Settled := Mode.settled_start
  rw [matchCode?_brace_cons] at h ⊢
  obtain ⟨q, hq⟩ := exists_pass_of_matchCodeFrom (p := start) (closer []) (Nat.zero_le _) h
    (by omega)
  -- at its closing brace the first text is back where it began
  have back : q = start := by
    rw [matchCodeFrom_of_pass (p := start) (closer []) (Nat.zero_le _) hq 1] at h
    obtain ⟨depth, mode⟩ := eq_of_closing_brace (proper_of_pass hstart.toProper hq) h
    cases q
    simp_all [start]
  have passed : pass brace .csharp 0 start (t ++ ['\n']) = some start := by
    rw [← pass_textLines hstart t, ← hlines, pass_textLines hstart s,
      pass_append_newline .csharp hstart.toProper, hq, back]
    rfl
  have closes := matchCodeFrom_of_pass (closer rest) (Nat.zero_le _) passed 1
  rw [List.append_assoc, List.singleton_append] at closes
  have closed : matchCodeFrom brace .csharp (t.length + 2) 1 0 {} ('}' :: rest)
      = some (t.length + 2) := by
    simp [matchCodeFrom, step, codeStep, count, brace]
  rw [closes, ← closed]
  congr 1
  rw [List.length_append, List.length_singleton]
  omega

end Bracket

end RazorLayout.Code

import RazorLayout.Proofs.Code.Trail
import RazorLayout.Proofs.Layout.Snippet
import RazorLayout.Proofs.Text.Margin

/-!
# Which snippets can be indented

The indenter goes through a snippet line by line. It trims every line, scans it on its own from the
state that the line before has left, and gives up in five different ways. This file shows that the
lines do not matter: the indenter accepts a snippet exactly when one scan of the whole meets no line
feed inside a literal and finds the brackets balanced.

What the indenter carries over a line end is less than what a scan knows there: that a character is
escaped, or that it stands in a line comment, is forgotten. Outside of literals a line feed forgets
the same, and inside of them the snippet is refused.

## Main definitions

* `newlineModes`: the modes in which a scan meets the line feeds of a text
* `Balanced`: a snippet that one scan of the whole finds balanced

## Main results

* `depthAfter_eq_ok_iff`: counting brackets one by one, and counting those of every beginning
* `exists_placedLines_iff`: the lines of a text are accepted when one scan of the text is
* `exists_indent_eq_ok_iff`: the indenter accepts exactly the balanced snippets
-/

namespace RazorLayout.Code

open Text Layout

/-! ### Counting brackets -/

/-- Counts one code character. -/
def depthStep (depth : Nat) (c : Char) : Except Char Nat := depthAfter depth [c]

theorem depthAfter_cons (depth : Nat) (c : Char) (s : List Char) :
    depthAfter depth (c :: s) = (depthStep depth c).bind fun d => depthAfter d s := by
  cases hopen : isOpener c <;> cases hclose : isCloser c <;> cases depth <;>
    simp [depthStep, depthAfter, hopen, hclose, Except.bind]

/-- A closer needs a bracket that is open, and nothing else is refused. -/
theorem depthStep_eq_ok_iff {depth d : Nat} {c : Char} :
    depthStep depth c = .ok d ↔ [c].countP isCloser + d = depth + [c].countP isOpener := by
  have apart : ¬ (isOpener c = true ∧ isCloser c = true) := by
    rintro ⟨hopen, hclose⟩
    simp only [isOpener, Bool.or_eq_true, beq_iff_eq] at hopen
    rcases hopen with (rfl | rfl) | rfl <;> simp [isCloser] at hclose
  cases hopen : isOpener c <;> cases hclose : isCloser c <;> cases depth <;>
    simp_all [depthStep, depthAfter] <;> omega

/-- Every closer finds an opener exactly when no beginning has more closers than brackets are open
for them; the difference is what stays open at the end. -/
theorem depthAfter_eq_ok_iff {depth e : Nat} {s : List Char} :
    depthAfter depth s = .ok e ↔
      (∀ p, p <+: s → p.countP isCloser ≤ depth + p.countP isOpener) ∧
        s.countP isCloser + e = depth + s.countP isOpener := by
  induction s generalizing depth with
  | nil => simp [depthAfter, eq_comm]
  | cons c s ih =>
    have split (f : Char → Bool) (p : List Char) :
        (c :: p).countP f = [c].countP f + p.countP f := by
      rw [← List.countP_append]
      rfl
    rw [depthAfter_cons, split isCloser s, split isOpener s]
    constructor
    · intro h
      cases hstep : depthStep depth c with
      | error => simp [hstep, Except.bind] at h
      | ok d =>
        rw [hstep] at h
        obtain ⟨hbegin, hcount⟩ := ih.1 h
        have first := depthStep_eq_ok_iff.1 hstep
        refine ⟨fun p hp => ?_, by omega⟩
        rcases List.prefix_cons_iff.1 hp with rfl | ⟨p, rfl, hp'⟩
        · simp
        · have := hbegin p hp'
          rw [split isCloser p, split isOpener p]
          omega
    · rintro ⟨hbegin, hcount⟩
      -- the first character alone is a beginning, so that it is not refused
      have first := hbegin [c] (by simp)
      have hstep : depthStep depth c = .ok (depth + [c].countP isOpener - [c].countP isCloser) :=
        depthStep_eq_ok_iff.2 (by omega)
      rw [hstep]
      refine ih.2 ⟨fun p hp => ?_, by omega⟩
      have := hbegin (c :: p) (by simpa using hp)
      rw [split isCloser p, split isOpener p] at this
      omega

theorem depthAfter_append (depth : Nat) (s t : List Char) :
    depthAfter depth (s ++ t) = (depthAfter depth s).bind fun d => depthAfter d t := by
  induction s generalizing depth with
  | nil => rfl
  | cons c s ih =>
    rw [List.cons_append, depthAfter_cons, depthAfter_cons]
    cases depthStep depth c with
    | error c => rfl
    | ok d => exact ih d

/-- Blanks are no brackets. -/
theorem depthAfter_withoutBlanks (depth : Nat) (s : List Char) :
    depthAfter depth (withoutBlanks s) = depthAfter depth s := by
  induction s generalizing depth with
  | nil => rfl
  | cons c s ih =>
    cases hc : isBlank c with
    | true =>
      have hopen : isOpener c = false := eq_false_of_isBlank isOpener (by decide) hc
      have hclose : isCloser c = false := eq_false_of_isBlank isCloser (by decide) hc
      have kept : depthStep depth c = .ok depth := depthStep_eq_ok_iff.2 (by simp [hopen, hclose])
      rw [withoutBlanks_cons_of_blank hc, ih, depthAfter_cons, kept]
      rfl
    | false =>
      rw [withoutBlanks_cons_of_not_blank hc, depthAfter_cons, depthAfter_cons]
      simp only [ih]

theorem depthAfter_append_eq_ok_iff {depth e : Nat} {s t : List Char} :
    depthAfter depth (s ++ t) = .ok e ↔
      ∃ d, depthAfter depth s = .ok d ∧ depthAfter d t = .ok e := by
  rw [depthAfter_append]
  cases depthAfter depth s <;> simp [Except.bind]

/-! ### One scan of a text -/

section Scan

variable {lang : Language} {m : Mode}

theorem snd_scanFrom (h : Hidden) (acc : List Seen) (skip : Nat) (m : Mode) (pos : Nat)
    (s : List Char) : (scanFrom lang h acc skip m pos s).2 = (trailFrom lang skip m s).mode := by
  fun_induction scanFrom lang h acc skip m pos s with
  | case1 => simp [trailFrom]
  | case2 _ _ _ _ _ _ ih => simpa [trailFrom] using ih
  | case3 acc m pos c s t acc' ih =>
    simp only [t, extra_turn, after_turn] at ih ⊢
    rw [ih, trailFrom]
    rfl

/-- The state at the end of a text is that of its trail. -/
theorem snd_codeChars (lang : Language) (st : ScanState) (s : List Char) :
    (codeChars lang st s).2 = (trail lang { state := st } s).mode.state :=
  congrArg Mode.state (snd_scanFrom ..)

/-- The modes in which a scan meets the line feeds of a text. The first `skip` characters belong to
a step already taken. -/
def newlineModes (lang : Language) : (skip : Nat) → Mode → List Char → List Mode
  | _, _, [] => []
  | skip + 1, m, _ :: s => newlineModes lang skip m s
  | 0, m, c :: s =>
    let rest := newlineModes lang (step lang m c s).extra (step lang m c s).after s
    if c = '\n' then m :: rest else rest

theorem newlineModes_append {u s : List Char} (hs : BeginsPlain s) (hu : '\n' ∉ u) {skip : Nat}
    (hskip : skip ≤ u.length) :
    newlineModes lang skip m (u ++ s) = newlineModes lang 0 (trailFrom lang skip m u).mode s := by
  fun_induction trailFrom lang skip m u with
  | case1 skip m =>
    obtain rfl : skip = 0 := by simpa using hskip
    rfl
  | case2 skip m c u ih => exact ih (List.not_mem_of_not_mem_cons hu) (by simpa using hskip)
  | case3 m c u ih =>
    simp only [List.mem_cons, not_or] at hu
    rw [List.cons_append, newlineModes, step_append_of_beginsPlain lang m c u hs]
    simp only [Ne.symm hu.1, if_false]
    exact ih _ hu.2 (extra_step_le ..)

theorem newlineModes_of_newline_not_mem {l : List Char} (hl : '\n' ∉ l) :
    newlineModes lang 0 m l = [] := by
  have plain : BeginsPlain [] := by simp [BeginsPlain]
  have empty := @newlineModes_append lang m l [] plain hl 0 (Nat.zero_le _)
  simpa [newlineModes] using empty

/-- The first line feed is met in the mode behind the first line. -/
theorem newlineModes_append_newline (hm : m.Proper) {l : List Char} (hl : '\n' ∉ l)
    (s : List Char) :
    newlineModes lang 0 m (l ++ '\n' :: s)
      = (trail lang m l).mode :: newlineModes lang 0 (trail lang m l).mode.newline s := by
  obtain ⟨hextra, hafter⟩ := (proper_trail lang hm l).step_newline lang s
  rw [newlineModes_append (beginsPlain_cons (by decide) s) hl (Nat.zero_le _), ← trail,
    newlineModes, hextra, hafter]
  rfl

end Scan

/-! ### Line by line -/

section Lines

variable {lang : Language} {unit : List Char} {depth : Nat} {st : ScanState}

theorem settled_of_quote_eq_none (h : st.quote = none) : Mode.Settled { state := st } :=
  ⟨⟨fun _ => h, nofun⟩, rfl, rfl, by simp [h]⟩

/-- No line is accepted inside of a literal, and no snippet ends there. -/
theorem quote_eq_none_of_placedLines {ls placed : List (List Char)}
    (h : PlacedLines lang unit depth st ls placed) : st.quote = none := by
  cases h with
  | nil => rfl
  | cons hquote => exact hquote

theorem exists_placedLines_nil_iff :
    (∃ placed, PlacedLines lang unit depth st [] placed) ↔ depth = 0 ∧ st.isOpen = false := by
  obtain ⟨quote, block⟩ := st
  constructor
  · rintro ⟨_, h⟩
    cases h
    exact ⟨rfl, rfl⟩
  · rintro ⟨rfl, h⟩
    obtain ⟨rfl, rfl⟩ : quote = none ∧ block = false := by simpa [ScanState.isOpen] using h
    exact ⟨[], .nil⟩

/-- Trimming a line changes neither its brackets nor the state behind it. -/
theorem codeChars_trim (hst : st.quote = none) {l raw : List Char} (hl : '\n' ∉ l)
    (hraw : trim raw = trim l) :
    (∀ depth, depthAfter depth (codeChars lang st (trim raw)).1
        = depthAfter depth (trail lang { state := st } l).ink) ∧
      (codeChars lang st (trim raw)).2 = (trail lang { state := st } l).mode.state := by
  obtain ⟨ink, mode⟩ := trail_trim lang (settled_of_quote_eq_none hst) hl
  constructor
  · intro depth
    rw [← depthAfter_withoutBlanks, withoutBlanks_codeChars, hraw, ink]
  · rw [snd_codeChars, hraw]
    exact (Mode.mk.inj mode).1

/-- A line is accepted when its closers find openers; what follows it begins in the state that the
scan of the untrimmed line ends in. -/
theorem placedLines_cons_iff (hst : st.quote = none) {l raw : List Char} (hl : '\n' ∉ l)
    (hraw : trim raw = trim l) {rest placed : List (List Char)} :
    PlacedLines lang unit depth st (raw :: rest) placed ↔
      ∃ d placed', depthAfter depth (trail lang { state := st } l).ink = .ok d ∧
        PlacedLines lang unit d (trail lang { state := st } l).mode.state rest placed' ∧
        placed = placeLine unit depth st.inBlockComment (trim raw) :: placed' := by
  obtain ⟨code, after⟩ := @codeChars_trim lang st hst l raw hl hraw
  generalize trail lang { state := st } l = line at code after
  cases hchars : codeChars lang st (trim raw) with | mk chars state
  rw [hchars] at code after
  obtain rfl : state = line.mode.state := after
  constructor
  · intro h
    cases h with
    | cons _ hchars' hdepth _ _ hrest =>
      obtain ⟨rfl, rfl⟩ := Prod.mk.inj (hchars.symm.trans hchars')
      exact ⟨_, _, (code depth).symm.trans hdepth, hrest, rfl⟩
  · rintro ⟨d, placed', hdepth, hrest, rfl⟩
    have closed := quote_eq_none_of_placedLines hrest
    exact .cons hst hchars ((code depth).trans hdepth) (by simp [closed]) (by simp [closed]) hrest

theorem exists_placedLines_cons_iff (hst : st.quote = none) {l raw : List Char} (hl : '\n' ∉ l)
    (hraw : trim raw = trim l) {rest : List (List Char)} :
    (∃ placed, PlacedLines lang unit depth st (raw :: rest) placed) ↔
      ∃ d, depthAfter depth (trail lang { state := st } l).ink = .ok d ∧
        ∃ placed,
          PlacedLines lang unit d (trail lang { state := st } l).mode.state rest placed := by
  simp only [placedLines_cons_iff hst hl hraw]
  constructor
  · rintro ⟨_, d, placed, hdepth, hrest, -⟩
    exact ⟨d, hdepth, placed, hrest⟩
  · rintro ⟨d, hdepth, placed, hrest⟩
    exact ⟨_, d, placed, hdepth, hrest, rfl⟩

/-- Outside of literals the state is all that is left behind a line feed. -/
theorem newline_of_quote_eq_none {m : Mode} (h : m.state.quote = none) :
    m.newline = { state := m.state } := by
  rw [Mode.newline, h, Option.filter_none, ← h]

/-- Behind a line that ends outside of literals a scan begins again from the state alone. -/
theorem trail_append_newline (hst : st.quote = none) {l : List Char}
    (hl : (trail lang { state := st } l).mode.state.quote = none) (s : List Char) :
    trail lang { state := st } (l ++ '\n' :: s)
      = (trail lang { state := st } l).andThen fun m => trail lang { state := m.state } s := by
  have proper := proper_trail lang (settled_of_quote_eq_none hst).toProper l
  rw [trail_append _ l (beginsPlain_cons (by decide) s)]
  simp only [Trail.andThen, trail_newline proper, newline_of_quote_eq_none hl]

/-- The lines of a text are accepted when one scan of the text meets no line feed inside of a
literal, finds an opener for every closer and ends with nothing left open. -/
theorem exists_placedLines_iff (hst : st.quote = none) (s : List Char) :
    (∃ placed, PlacedLines lang unit depth st (lines s) placed) ↔
      (∀ m ∈ newlineModes lang 0 { state := st } s, m.state.quote = none) ∧
        depthAfter depth (trail lang { state := st } s).ink = .ok 0 ∧
        (trail lang { state := st } s).mode.state.isOpen = false := by
  induction s using line_induction generalizing depth st with
  | last l hl =>
    rw [newlineModes_of_newline_not_mem hl]
    by_cases hne : l = []
    · subst hne
      rw [lines_nil, exists_placedLines_nil_iff]
      simp [trail, trailFrom, depthAfter]
    · rw [lines_of_newline_not_mem hne hl, exists_placedLines_cons_iff hst hl rfl]
      simp [exists_placedLines_nil_iff]
  | line l s hl ih =>
    obtain ⟨line, ending, hline, hending, hlines⟩ := exists_lines_append_newline hl s
    have hraw : trim line = trim l := by
      have blank : allBlank ending = true := by rcases hending with rfl | rfl <;> decide
      rw [hline]
      simpa using (trim_blank_append_blank (g := []) rfl line blank).symm
    have proper := (settled_of_quote_eq_none hst).toProper
    rw [hlines, exists_placedLines_cons_iff hst hl hraw, newlineModes_append_newline proper hl,
      List.forall_mem_cons]
    by_cases hquote : (trail lang { state := st } l).mode.state.quote = none
    · rw [trail_append_newline hst hquote, newline_of_quote_eq_none hquote]
      simp only [ih hquote, hquote, true_and, Trail.andThen, depthAfter_append_eq_ok_iff]
      constructor
      · rintro ⟨d, hdepth, hmodes, hrest, hopen⟩
        exact ⟨hmodes, ⟨d, hdepth, hrest⟩, hopen⟩
      · rintro ⟨hmodes, ⟨d, hdepth, hrest⟩, hopen⟩
        exact ⟨d, hdepth, hmodes, hrest, hopen⟩
    · refine iff_of_false ?_ fun h => hquote h.1.1
      rintro ⟨d, -, placed, hrest⟩
      exact hquote (quote_eq_none_of_placedLines hrest)

end Lines

/-! ### Balanced snippets -/

/-- A snippet that one scan of the whole finds balanced. -/
structure Balanced (lang : Language) (s : List Char) : Prop where
  /-- No line feed stands inside a literal. -/
  newlines : ∀ m ∈ newlineModes lang 0 {} s, m.state.quote = none
  /-- No beginning of the code closes more brackets than it opens. -/
  opened : ∀ code, code <+: (codeChars lang {} s).1 → code.countP isCloser ≤ code.countP isOpener
  /-- All brackets of the code that are opened are closed. -/
  closed : (codeChars lang {} s).1.countP isCloser = (codeChars lang {} s).1.countP isOpener
  /-- No literal and no block comment is open at the end. -/
  ended : (codeChars lang {} s).2.isOpen = false

/-- The indenter accepts exactly the snippets that are balanced as a whole. -/
theorem exists_indent_eq_ok_iff (style : Style) (s : List Char) :
    (∃ out, indent style s = .ok out) ↔ Balanced style.language s := by
  have accepted : (∃ out, indent style s = .ok out) ↔
      ∃ placed, PlacedLines style.language (indentUnit style.useTabs style.indentWidth) 0 {}
        (lines s) placed := by
    simp only [← indentLines_eq_ok_iff (n := 1), indent]
    cases indentLines style.language (indentUnit style.useTabs style.indentWidth) 1 0 {} (lines s)
      <;> simp [Except.map]
  rw [accepted, exists_placedLines_iff rfl, ← withoutBlanks_codeChars, depthAfter_withoutBlanks,
    ← snd_codeChars, depthAfter_eq_ok_iff]
  simp only [Nat.zero_add, Nat.add_zero]
  constructor
  · rintro ⟨newlines, ⟨opened, closed⟩, ended⟩
    exact ⟨newlines, opened, closed, ended⟩
  · exact fun h => ⟨h.newlines, ⟨h.opened, h.closed⟩, h.ended⟩

end RazorLayout.Code

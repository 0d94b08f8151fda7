import RazorLayout.Proofs.Code.Trail
import RazorLayout.Proofs.Template.Construct
import RazorLayout.Proofs.Text.Margin

/-!
# The code of a joined condition

The lines of a condition are joined to one line. Every line is looked at alone, and its line comment
becomes a block comment or is left out, so that it does not swallow what follows. The code of the
condition stays, if every line can be looked at alone: its comment stands at the same place when the
lines in front of it are taken into account, and no literal is open at its end that a line feed
closes.

## Main definitions

* `standAlone`: lines that can be looked at one by one
* `codeByLines`: the code of lines, without blanks

## Main results

* `trail_eq_codeByLines`: the code of a text is that of its lines
* `trail_conditionLine`: a line of a condition keeps its code
* `withoutBlanks_codeChars_readCondition`: a condition keeps its code
-/

namespace RazorLayout.Template

open Text Code

/-! ### Lines one by one -/

/-- Lines that can be looked at one by one, when the scan of the first one begins in the mode `m`:
comments begin where they begin in the line alone, and no literal is open at the end of a line that
ends with it. -/
def standAlone (m : Mode) : List (List Char) → Bool
  | [] => true
  | l :: ls =>
    lineCommentFrom .csharp 0 0 m l == lineCommentStart? .csharp l
      && (trail .csharp m l).mode.state.quote.all Quote.spansLines
      && standAlone (trail .csharp m l).mode.newline ls

/-- The code of lines, without blanks, when the scan of the first one begins in the mode `m`. -/
def codeByLines (lang : Language) (m : Mode) : List (List Char) → List Char
  | [] => []
  | l :: ls =>
    (trail lang m l).ink ++ codeByLines lang (trail lang m l).mode.newline ls

section Lines

variable {lang : Language} {m : Mode}

/-- The code of a text is that of its lines: at a line end a scan forgets what does not span
lines. -/
theorem trail_eq_codeByLines (hm : m.Settled) (s : List Char) :
    (trail lang m s).ink = codeByLines lang m (lines s) := by
  induction s using line_induction generalizing m with
  | last l hl =>
    by_cases hne : l = []
    · subst hne
      rfl
    · rw [lines_of_newline_not_mem hne hl, codeByLines, codeByLines, List.append_nil]
  | line l s hl ih =>
    obtain ⟨line, ending, rfl, hending, hlines⟩ := exists_lines_append_newline hl s
    -- a carriage return that is cut off with the line feed is a blank at the end of its line
    have blank : allBlank ending = true := by rcases hending with rfl | rfl <;> decide
    have hn : '\n' ∉ ending := by rcases hending with rfl | rfl <;> decide
    obtain ⟨ink, mode⟩ := trail_append_blank lang hm.toProper line blank hn
    have proper := proper_trail lang hm.toProper (line ++ ending)
    have newline : (trail lang m (line ++ ending)).mode.newline
        = (trail lang m line).mode.newline := by
      rw [← Mode.newline_afterBlank, mode, Mode.newline_afterBlank]
    rw [hlines, codeByLines, trail_append m _ (beginsPlain_cons (by decide) s), Trail.andThen,
      trail_newline proper, newline, ink]
    exact congrArg _ (ih (Mode.settled_newline (proper_trail lang hm.toProper line)))

end Lines

/-! ### One line -/

section Line

variable {m : Mode} (hm : m.Settled) {l : List Char} (hl : '\n' ∉ l) (t : List Char)

include hm hl in
/-- A line is scanned as it is when it is trimmed, in front of a space. -/
theorem trail_trim_append_space :
    trail .csharp m (trim l ++ ' ' :: t)
      = Trail.andThen ⟨(trail .csharp m l).ink, (trail .csharp m l).mode.afterBlank⟩
          fun after => trail .csharp after t := by
  obtain ⟨ink, mode⟩ := trail_trim .csharp hm hl
  rw [trail_append_space hm.toProper, ← ink, ← mode]
  rfl

include hm hl in
/-- A line without a comment. -/
theorem trail_of_no_comment (hcomment : lineCommentFrom .csharp 0 0 m l = none)
    (hspans : (trail .csharp m l).mode.state.quote.all Quote.spansLines = true) :
    trail .csharp m (trim l ++ ' ' :: t)
      = Trail.andThen ⟨(trail .csharp m l).ink, (trail .csharp m l).mode.newline⟩
          fun after => trail .csharp after t := by
  rw [Mode.newline_eq_afterBlank (inLineComment_trail hm.no_comment hcomment) hspans]
  exact trail_trim_append_space hm hl t

include hm hl in
/-- A line of a condition keeps its code, if it can be looked at alone. -/
theorem trail_conditionLine
    (hcomment : lineCommentFrom .csharp 0 0 m l = lineCommentStart? .csharp l)
    (hspans : (trail .csharp m l).mode.state.quote.all Quote.spansLines = true) :
    trail .csharp m (conditionLine l ++ ' ' :: t)
      = Trail.andThen ⟨(trail .csharp m l).ink, (trail .csharp m l).mode.newline⟩
          fun after => trail .csharp after t := by
  cases hstart : lineCommentStart? .csharp l with
  | none =>
    rw [conditionLine, hstart]
    exact trail_of_no_comment hm hl t (hcomment.trans hstart) hspans
  | some n =>
    obtain ⟨u, note, rfl, rfl, hfront, hwhole⟩ :=
      trail_of_lineComment hm.toProper hm.no_comment hl (hcomment.trans hstart)
    have hu : '\n' ∉ u := fun h => hl (List.mem_append_left _ h)
    have front (t : List Char) : trail .csharp m (trim u ++ ' ' :: t)
        = Trail.andThen ⟨(trail .csharp m u).ink, {}⟩ fun after => trail .csharp after t := by
      rw [trail_trim_append_space hm hu, hfront]
      rfl
    have comment : (u ++ '/' :: '/' :: note).drop (u.length + 2) = note := by
      rw [← List.drop_drop, List.drop_left]
      rfl
    have newline : Mode.newline { inLineComment := true } = {} := rfl
    simp only [hwhole, newline, conditionLine, hstart, List.take_left, comment]
    split
    · -- the note is empty, or it would end a block comment: it is left out
      exact front t
    · rename_i hnote
      have hnote : ¬ "*/".toList <:+: trim note :=
        not_infix_of_occurs (Bool.eq_false_iff.2 fun h => hnote (by rw [h, Bool.or_true]))
      -- at the beginning of a line it does not matter that blanks are trimmed
      generalize hline : trim u ++ " /* ".toList ++ trim note ++ " */".toList = line
      have trimmed : trail .csharp m (trimStart line ++ ' ' :: t)
          = trail .csharp m (line ++ ' ' :: t) := by
        conv_rhs => rw [← List.takeWhile_append_dropWhile (p := isBlank) (l := line),
          List.append_assoc, trail_blank_append hm (allBlank_takeWhile line)]
        rfl
      have parts : line ++ ' ' :: t
          = trim u ++ ' ' :: ("/* ".toList ++ trim note ++ " */".toList ++ ' ' :: t) := by
        rw [← hline]
        simp
      rw [trimmed, parts, front]
      simp only [Trail.andThen]
      rw [trail_blockComment hnote, trail_cons_blank Mode.settled_start.toProper (by decide)
        (by decide)]
      rfl

end Line

/-! ### All lines -/

/-- Lines that are joined keep their code. Lines that become empty have none. -/
theorem trail_conditionLines {m : Mode} (hm : m.Settled) {ls : List (List Char)}
    (hls : ∀ l ∈ ls, '\n' ∉ l) (halone : standAlone m ls = true) :
    (trail .csharp m (((ls.map conditionLine).filter fun line => !line.isEmpty).flatMap
      (· ++ [' ']))).ink = codeByLines .csharp m ls := by
  induction ls generalizing m with
  | nil => rfl
  | cons l ls ih =>
    obtain ⟨hl, hls⟩ := List.forall_mem_cons.1 hls
    simp only [standAlone, Bool.and_eq_true, beq_iff_eq] at halone
    obtain ⟨⟨hcomment, hspans⟩, hrest⟩ := halone
    have line := trail_conditionLine hm hl (t := (((ls.map conditionLine).filter fun line =>
      !line.isEmpty).flatMap (· ++ [' ']))) hcomment hspans
    have rest := ih (Mode.settled_newline (proper_trail .csharp hm.toProper l)) hls hrest
    rw [codeByLines, ← rest]
    -- a line that becomes empty is left out; a scan at the beginning of a line would not see its
    -- space either
    have joined : trail .csharp m ((((l :: ls).map conditionLine).filter fun line =>
        !line.isEmpty).flatMap (· ++ [' '])) = trail .csharp m (conditionLine l ++ ' ' ::
          (((ls.map conditionLine).filter fun line => !line.isEmpty).flatMap (· ++ [' ']))) := by
      cases hempty : conditionLine l with
      | nil =>
        rw [List.map_cons, hempty]
        exact (trail_blank_append (g := [' ']) hm (by decide) _).symm
      | cons c line => simp [hempty]
    rw [joined, line]
    rfl

theorem flatMap_append_eq_joinWith {sep : List Char} {ls : List (List Char)} (h : ls ≠ []) :
    ls.flatMap (· ++ sep) = joinWith sep ls ++ sep := by
  fun_induction joinWith sep ls with
  | case1 => exact absurd rfl h
  | case2 piece => simp
  | case3 piece next rest ih => simp [ih]

/-- A condition whose lines can be looked at alone keeps its code when it is joined. -/
theorem ink_trail_joinCondition {condition : List Char}
    (halone : standAlone {} (lines condition) = true) :
    (trail .csharp {} (joinCondition condition)).ink = (trail .csharp {} condition).ink := by
  have lines_ink := trail_conditionLines Mode.settled_start
    (fun l hl => newline_not_mem_of_mem_lines hl) halone
  rw [trail_eq_codeByLines Mode.settled_start condition, ← lines_ink, joinCondition]
  by_cases hempty : ((lines condition).map conditionLine).filter (fun line => !line.isEmpty) = []
  · rw [hempty]
    rfl
  · rw [flatMap_append_eq_joinWith hempty]
    exact (trail_append_blank .csharp Mode.settled_start.toProper _ (by decide) (by decide)).1.symm

/-- A condition in parentheses keeps its code, blanks apart, when its lines can be looked at
alone. -/
theorem withoutBlanks_codeChars_readCondition {s joined : List Char} {n : Nat}
    (h : readCondition? ('(' :: s) = some (joined, n))
    (halone : standAlone {} (lines (s.take (n - 2))) = true) :
    withoutBlanks (codeChars .csharp {} joined).1
      = withoutBlanks (codeChars .csharp {} (s.take (n - 2))).1 := by
  obtain ⟨inner, rest, rfl, rfl, rfl⟩ := readCondition?_eq_some h
  rw [Nat.add_sub_cancel, List.take_left] at halone ⊢
  rw [withoutBlanks_codeChars, withoutBlanks_codeChars]
  exact ink_trail_joinCondition halone

/-- A line comment, and a block comment and a literal that reach over line ends. -/
theorem withoutBlanks_codeChars_lines :
    let s := "a && // first\n/* x\n y */ b == @\"p\nq\") \x7b \x7d".toList
    let joined := "a && /* first */ /* x y */ b == @\"p q\"".toList
    readCondition? ('(' :: s) = some (joined, 38) ∧ standAlone {} (lines (s.take 36)) = true ∧
      withoutBlanks (codeChars .csharp {} (s.take 36)).1 = "a&&b==".toList ∧
      withoutBlanks (codeChars .csharp {} joined).1
        = withoutBlanks (codeChars .csharp {} (s.take 36)).1 := by
  intro s joined
  have read : readCondition? ('(' :: s) = some (joined, 38) := by decide +kernel
  have alone : standAlone {} (lines (s.take 36)) = true := by decide +kernel
  exact ⟨read, alone, by decide +kernel, withoutBlanks_codeChars_readCondition read alone⟩

/-- Inside a block comment two slashes begin no line comment. In the second line of this condition,
looked at alone, they do: the end of the block comment is left out with all the code behind it. -/
theorem withoutBlanks_codeChars_ne :
    let s := "a /* x\n// y */ && b)".toList
    readCondition? ('(' :: s) = some ("a /* x".toList, 21) ∧
      withoutBlanks (codeChars .csharp {} "a /* x".toList).1
        ≠ withoutBlanks (codeChars .csharp {} (s.take 19)).1 := by
  decide +kernel

end RazorLayout.Template

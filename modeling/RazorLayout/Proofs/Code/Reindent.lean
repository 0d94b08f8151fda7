import RazorLayout.Proofs.Code.Balance

/-!
# What the indenter does to a snippet

The indenter writes every line of a snippet without the blanks at its ends, and puts units of
indentation in front of it. This file says how many: as many as brackets are open in front of the
line, less the closers that the line begins with. The brackets are those that one scan of all lines
in front finds, and the closers are counted on the characters of the line, whatever they are.
Outside of block comments a line begins as code, so that its first closers do close brackets and
there are never more of them than are open.

Since it looks at trimmed lines alone, the indenter leaves its own result as it is.

## Main definitions

* `codeOfLines`: the code of lines and the state behind them
* `Reindented`: a snippet and its indented form

## Main results

* `placedLines_behind`: what the indenter knows behind some lines, from one scan of them
* `countWhile_isCloser_le`: closers at the beginning of a line close brackets
* `reindented_of_indent_eq_ok`: the indented form of a snippet
-/

namespace RazorLayout.Code

open Text Layout

section Lines

variable {lang : Language} {unit : List Char} {depth : Nat} {st : ScanState}

/-- Behind some lines the indenter has counted the brackets and reached the state that one scan of
these lines has. -/
theorem placedLines_behind {before rest placed : List (List Char)}
    (h : PlacedLines lang unit depth st (before ++ rest) placed)
    (hbefore : ∀ l ∈ before, '\n' ∉ l) :
    ∃ d, depthAfter depth (trail lang { state := st } (before.flatMap (· ++ ['\n']))).ink = .ok d ∧
      PlacedLines lang unit d
        (trail lang { state := st } (before.flatMap (· ++ ['\n']))).mode.state rest
        (placed.drop before.length) := by
  induction before generalizing depth st placed with
  | nil => exact ⟨depth, rfl, h⟩
  | cons l before ih =>
    rw [List.forall_mem_cons] at hbefore
    have hst := quote_eq_none_of_placedLines h
    rw [List.cons_append, placedLines_cons_iff hst hbefore.1 rfl] at h
    obtain ⟨d, placed, hdepth, hrest, rfl⟩ := h
    obtain ⟨e, hrun, hbehind⟩ := ih hrest hbefore.2
    -- the scan goes on behind the line feed from the state that the line leaves
    have whole : trail lang { state := st } ((l :: before).flatMap (· ++ ['\n']))
        = (trail lang { state := st } l).andThen fun m =>
          trail lang { state := m.state } (before.flatMap (· ++ ['\n'])) := by
      rw [List.flatMap_cons, List.append_assoc]
      exact trail_append_newline hst (quote_eq_none_of_placedLines hrest) _
    rw [whole]
    exact ⟨e, depthAfter_append_eq_ok_iff.2 ⟨d, hdepth, hrun⟩, hbehind⟩

end Lines

/-! ### Closers at the beginning of a line -/

/-- Outside of literals and comments closers are code. -/
theorem closers_prefix_ink (lang : Language) {closers : List Char}
    (h : ∀ c ∈ closers, isCloser c = true) (s : List Char) :
    closers <+: (trail lang {} (closers ++ s)).ink := by
  induction closers with
  | nil => exact List.nil_prefix
  | cons c closers ih =>
    rw [List.forall_mem_cons] at h
    have code (t : List Char) : step lang {} c t = { role := .code, after := {} } := by
      have hc := h.1
      simp only [isCloser, Bool.or_eq_true, beq_iff_eq] at hc
      rcases hc with (rfl | rfl) | rfl <;> simp [step, codeStep]
    have ink : withoutBlanks [c] = [c] := by
      have hblank : isBlank c = false := by
        by_contra hblank
        rw [Bool.not_eq_false] at hblank
        simp [eq_false_of_isBlank isCloser (by decide) hblank] at h
      simp [withoutBlanks, hblank]
    rw [List.cons_append, trail_cons (by rw [code]), code]
    simpa [stepTrail, Trail.andThen, ink] using ih h.2

/-- The closers that a line begins with find brackets that are open in front of the line. -/
theorem countWhile_isCloser_le {lang : Language} {depth d : Nat} {l : List Char}
    (h : depthAfter depth (trail lang {} l).ink = .ok d) : countWhile isCloser l ≤ depth := by
  have closers : ∀ c ∈ l.takeWhile isCloser, isCloser c = true :=
    fun c hc => List.mem_takeWhile_imp hc
  have front : l.takeWhile isCloser <+: (trail lang {} l).ink := by
    have := closers_prefix_ink lang closers (l.dropWhile isCloser)
    rwa [List.takeWhile_append_dropWhile] at this
  have none_opens : (l.takeWhile isCloser).countP isOpener = 0 := by
    rw [List.countP_eq_zero]
    intro c hc hopen
    have hclose := closers c hc
    simp only [isCloser, Bool.or_eq_true, beq_iff_eq] at hclose
    rcases hclose with (rfl | rfl) | rfl <;> simp [isOpener] at hopen
  have all_close : (l.takeWhile isCloser).countP isCloser = (l.takeWhile isCloser).length :=
    List.countP_eq_length.2 closers
  have bound := (depthAfter_eq_ok_iff.1 h).1 _ front
  rw [none_opens, all_close] at bound
  exact bound

/-! ### Snippets -/

/-- The code of lines, and the state behind them, from one scan of the lines. -/
def codeOfLines (lang : Language) (ls : List (List Char)) : List Char × ScanState :=
  codeChars lang {} (ls.flatMap (· ++ ['\n']))

/-- A line outside of block comments stands at the depth of the code in front of it, less the
closers that it begins with. -/
theorem exists_depth_of_placedLines {lang : Language} {unit line : List Char}
    {before behind placed : List (List Char)}
    (h : PlacedLines lang unit 0 {} (before ++ line :: behind) placed)
    (hlines : ∀ l ∈ before ++ line :: behind, '\n' ∉ l) (hink : allBlank line = false)
    (hcomment : (codeOfLines lang before).2.inBlockComment = false) :
    ∃ depth,
      (codeOfLines lang before).1.countP isOpener
        = (codeOfLines lang before).1.countP isCloser + depth ∧
      countWhile isCloser (trim line) ≤ depth ∧
      placed[before.length]?
        = some (indentation unit (depth - countWhile isCloser (trim line)) ++ trim line) := by
  obtain ⟨depth, hdepth, hbehind⟩ := placedLines_behind h fun l hl => hlines l (by simp [hl])
  -- no line begins in a literal, so that this one begins in the first state
  have start : (trail lang {} (before.flatMap (· ++ ['\n']))).mode.state = {} := by
    rw [codeOfLines, snd_codeChars] at hcomment
    have hquote := quote_eq_none_of_placedLines hbehind
    generalize (trail lang {} (before.flatMap (· ++ ['\n']))).mode.state = st at hcomment hquote
    obtain ⟨quote, block⟩ := st
    simp_all
  have hline : '\n' ∉ trim line := fun hmem =>
    hlines line (by simp) (mem_of_mem_trim hmem)
  rw [start, placedLines_cons_iff rfl hline (trim_trim line).symm] at hbehind
  obtain ⟨d, placed', hcode, -, hdrop⟩ := hbehind
  refine ⟨depth, ?_, countWhile_isCloser_le hcode, ?_⟩
  · rw [← withoutBlanks_codeChars, depthAfter_withoutBlanks, depthAfter_eq_ok_iff] at hdepth
    have counted := hdepth.2
    rw [Nat.zero_add] at counted
    exact counted.symm
  · have hne : (trim line).isEmpty = false := by
      rw [Bool.eq_false_iff, Ne, List.isEmpty_iff, trim_eq_nil_iff]
      simp [hink]
    have first : (placed.drop before.length)[0]? = placed[before.length]? := by
      rw [List.getElem?_drop, Nat.add_zero]
    rw [← first, hdrop]
    simp [placeLine, hne]

/-- The snippet `s` and its indented form `u`. -/
structure Reindented (style : Style) (s u : List Char) : Prop where
  /-- Up to blanks at their ends the lines are the same, without the blank ones in front and
  behind. -/
  trimmed : (lines u).map trim = stripBlankEdges ((lines s).map trim)
  /-- A line stands behind one unit for each bracket that is open in front of it, less the closers
  that it begins with, which are never more. Blank lines, and lines that begin in a block comment,
  stand elsewhere. -/
  placed : ∀ before line behind, stripBlankEdges (lines s) = before ++ line :: behind →
    allBlank line = false → (codeOfLines style.language before).2.inBlockComment = false →
    ∃ depth,
      (codeOfLines style.language before).1.countP isOpener
        = (codeOfLines style.language before).1.countP isCloser + depth ∧
      countWhile isCloser (trim line) ≤ depth ∧
      (lines u)[before.length]? = some
        (indentation (indentUnit style.useTabs style.indentWidth)
          (depth - countWhile isCloser (trim line)) ++ trim line)
  /-- The indented form is not indented any further. -/
  stable : indent style u = .ok u

/-- The indenter moves lines to their places, and does nothing else. -/
theorem reindented_of_indent_eq_ok {style : Style} {s u : List Char}
    (h : indent style s = .ok u) : Reindented style s u := by
  obtain ⟨placed, hplaced, rfl⟩ := (indent_eq_ok_iff style).1 h
  have indented := hplaced.of_trimmedLines (allBlank_indentUnit _ _)
    (newline_not_mem_indentUnit _ _)
  have lines_eq : lines (unlines placed) = placed := (laidOut_of_indented indented).lines_unlines
  have trimmed : (lines (unlines placed)).map trim = trimmedLines s := by
    rw [lines_eq]
    exact map_trim_of_indented indented
  refine ⟨trimmed, ?_, ?_⟩
  · intro before line behind hlines hink hcomment
    rw [trimmedLines_eq, placedLines_map_trim, hlines] at hplaced
    rw [lines_eq]
    apply exists_depth_of_placedLines hplaced _ hink hcomment
    intro l hl
    rw [← hlines] at hl
    exact newline_not_mem_of_mem_lines (mem_of_mem_dropEdges hl)
  · -- the result has the same trimmed lines, which are all that the indenter looks at
    have same : trimmedLines (unlines placed) = trimmedLines s := by
      rw [trimmedLines, trimmed]
      exact (framed_stripBlankEdges _).dropEdges_eq
    rw [indent_eq_ok_iff, same]
    exact ⟨placed, hplaced, rfl⟩

/-- The bracket in the comment is not counted, and the star of its second line is set one column
in. -/
theorem reindented_loop :
    Reindented ⟨false, 2, .csharp⟩
      "\n while (a) \x7b\n/* (\n * b */\n  f(c,\n d);\n\n \x7d ".toList
      "while (a) \x7b\n  /* (\n   * b */\n  f(c,\n    d);\n\n\x7d".toList :=
  reindented_of_indent_eq_ok (by decide +kernel)

end RazorLayout.Code

import Mathlib.Data.List.DropRight
import RazorLayout.Proofs.Text.Ink

/-!
# Words and lines of a text

How a text reads on the page does not depend on the blanks between its words. A text on one line
is determined by its words, and a text on lines of its own by its lines without the blank ones;
the words follow from these lines. Both are cut at characters of one kind, blanks or line feeds,
so that their laws come from one induction over the pieces between the cuts.

## Main definitions

* `words`: the runs of characters that are not blank
* `textLines`: the trimmed lines that are not blank

## Main results

* `cut_induction`: induction over the pieces between characters of one kind
* `textLines_append_newline`, `textLines_blank_append`, `textLines_append_blank`: laws of lines
* `words_eq_flatMap_textLines`: the lines determine the words
* `collapse_trim`: a text on one line is its words with single spaces between them
* `words_collapse_trim`: writing a text on one line keeps its words
* `exists_word_holding`, `exists_gap_of_words`: what stands in a text, seen from its words
-/

namespace RazorLayout.Text

/-- Induction over the pieces between characters that satisfy `p`. -/
theorem cut_induction (p : Char → Bool) {P : List Char → Prop}
    (piece : ∀ s, (∀ c ∈ s, p c = false) → P s)
    (cut : ∀ a c b, (∀ d ∈ a, p d = false) → p c = true → P b → P (a ++ c :: b)) (s : List Char) :
    P s := by
  induction hn : s.length using Nat.strong_induction_on generalizing s with
  | _ n ih =>
    -- the first piece ends at the first character that cuts
    cases hrest : s.dropWhile (fun c => !p c) with
    | nil =>
      refine piece s fun c hc => ?_
      have := List.dropWhile_eq_nil_iff.1 hrest c hc
      simpa using this
    | cons c b =>
      have parts : s.takeWhile (fun c => !p c) ++ c :: b = s := by
        rw [← hrest, List.takeWhile_append_dropWhile]
      have hc : p c = true := by
        have := List.head_dropWhile_not (fun c => !p c) (by simp [hrest] : s.dropWhile _ ≠ [])
        simpa [hrest] using this
      rw [← parts]
      refine cut _ c b (fun d hd => by simpa using List.mem_takeWhile_imp hd) hc ?_
      -- the rest is shorter by the piece and the cut
      refine ih b.length ?_ b rfl
      rw [← hn, ← parts, List.length_append, List.length_cons]
      omega

/-! ### Trimming -/

theorem trimStart_append_of_allBlank {g : List Char} (hg : allBlank g = true) (s : List Char) :
    trimStart (g ++ s) = trimStart s :=
  List.dropWhile_append_of_pos (allBlank_iff.1 hg)

theorem trimEnd_append_of_allBlank (s : List Char) {g : List Char} (hg : allBlank g = true) :
    trimEnd (s ++ g) = trimEnd s := by
  rw [trimEnd, trimEnd, List.reverse_append, List.dropWhile_append_of_pos]
  exact fun c hc => allBlank_iff.1 hg c (List.mem_reverse.1 hc)

theorem trimStart_eq_nil_iff {s : List Char} : trimStart s = [] ↔ allBlank s = true := by
  rw [trimStart, List.dropWhile_eq_nil_iff, allBlank_iff]

theorem trimEnd_eq_nil_iff {s : List Char} : trimEnd s = [] ↔ allBlank s = true := by
  rw [allBlank_iff]
  exact List.rdropWhile_eq_nil_iff

theorem trim_eq_nil_iff {s : List Char} : trim s = [] ↔ allBlank s = true := by
  rw [trim, trimEnd_eq_nil_iff, ← withoutBlanks_eq_nil_iff, withoutBlanks_trimStart,
    withoutBlanks_eq_nil_iff]

/-- Blanks at the edges are trimmed away. -/
theorem trim_blank_append_blank {g g' : List Char} (hg : allBlank g = true) (s : List Char)
    (hg' : allBlank g' = true) : trim (g ++ s ++ g') = trim s := by
  rw [List.append_assoc, trim, trimStart_append_of_allBlank hg]
  by_cases hs : allBlank s = true
  · rw [trimStart_eq_nil_iff.2 (by simp [hs, hg']), trim, trimStart_eq_nil_iff.2 hs]
  · have hne : ¬ (s.dropWhile isBlank).isEmpty = true := by
      rw [List.isEmpty_iff]
      exact fun h => hs (trimStart_eq_nil_iff.1 h)
    rw [trim, trimStart, List.dropWhile_append, if_neg hne, trimEnd_append_of_allBlank _ hg']
    rfl

theorem trim_cons_of_blank {c : Char} (hc : isBlank c = true) (s : List Char) :
    trim (c :: s) = trim s := by
  rw [trim, trimStart, List.dropWhile_cons_of_pos hc]
  rfl

/-- A text with ink at its end. -/
def EndsWithInk (s : List Char) : Prop := ∃ u c, s = u ++ [c] ∧ isBlank c = false

theorem EndsWithInk.append (u : List Char) {s : List Char} (hs : EndsWithInk s) :
    EndsWithInk (u ++ s) := by
  obtain ⟨v, c, rfl, hc⟩ := hs
  exact ⟨u ++ v, c, by simp, hc⟩

theorem EndsWithInk.trimEnd_eq {s : List Char} (hs : EndsWithInk s) : trimEnd s = s := by
  obtain ⟨u, c, rfl, hc⟩ := hs
  exact List.rdropWhile_concat_neg isBlank u c (by simp [hc])

theorem endsWithInk_trim {s : List Char} (hs : allBlank s = false) : EndsWithInk (trim s) := by
  have hne : trim s ≠ [] := fun h => by simp [trim_eq_nil_iff.1 h] at hs
  refine ⟨(trim s).dropLast, (trim s).getLast hne, (List.dropLast_append_getLast hne).symm, ?_⟩
  exact Bool.eq_false_iff.2 (List.rdropWhile_last_not isBlank (trimStart s) hne)

theorem trim_parts (s : List Char) :
    ∃ g g', allBlank g = true ∧ allBlank g' = true ∧ s = g ++ trim s ++ g' := by
  refine ⟨s.takeWhile isBlank, (trimStart s).rtakeWhile isBlank, allBlank_takeWhile s,
    allBlank_iff.2 fun c hc => List.mem_rtakeWhile_imp hc, ?_⟩
  have behind : trim s ++ (trimStart s).rtakeWhile isBlank = trimStart s :=
    List.rdropWhile_append_rtakeWhile
  rw [List.append_assoc, behind, trimStart, List.takeWhile_append_dropWhile]

theorem mem_of_mem_trim {s : List Char} {c : Char} (h : c ∈ trim s) : c ∈ s := by
  obtain ⟨g, g', -, -, hs⟩ := trim_parts s
  rw [hs]
  simp [h]

theorem trimStart_trim (s : List Char) : trimStart (trim s) = trim s := by
  cases h : trim s with
  | nil => rfl
  | cons c u =>
    obtain ⟨v, hv⟩ : trim s <+: trimStart s := List.rdropWhile_prefix isBlank _
    have hstart : s.dropWhile isBlank = c :: (u ++ v) := by rw [← trimStart, ← hv, h]; rfl
    have hc : isBlank c = false := by
      have := List.head_dropWhile_not isBlank (by simp [hstart] : s.dropWhile isBlank ≠ [])
      simpa [hstart] using this
    exact List.dropWhile_cons_of_neg (by simp [hc])

/-- A text with ink at both ends is trimmed. -/
theorem trim_of_edges {c : Char} (hc : isBlank c = false) {s : List Char}
    (hs : EndsWithInk (c :: s)) : trim (c :: s) = c :: s := by
  rw [trim, trimStart, List.dropWhile_cons_of_neg (by simp [hc]), hs.trimEnd_eq]

theorem trim_of_inked {w : List Char} (hw : ∀ c ∈ w, isBlank c = false) : trim w = w := by
  cases w with
  | nil => rfl
  | cons c w =>
    refine trim_of_edges (hw c List.mem_cons_self) ⟨_, _, (List.dropLast_append_getLast
      (List.cons_ne_nil c w)).symm, hw _ (List.getLast_mem _)⟩

theorem allBlank_trim (s : List Char) : allBlank (trim s) = allBlank s := by
  rw [Bool.eq_iff_iff, ← withoutBlanks_eq_nil_iff, withoutBlanks_trim, withoutBlanks_eq_nil_iff]

theorem trim_trim (s : List Char) : trim (trim s) = trim s := by
  rw [trim, trimStart_trim, trim]
  exact List.rdropWhile_idempotent isBlank _

/-! ### Lines -/

theorem linesFrom_of_newline_not_mem {acc s : List Char} (h : '\n' ∉ s) :
    linesFrom acc s = if (acc.reverse ++ s).isEmpty then [] else [acc.reverse ++ s] := by
  fun_induction linesFrom acc s with
  | case1 acc hacc => simp_all
  | case2 acc hacc => simp_all
  | case3 acc s ih => simp at h
  | case4 acc c s hc ih =>
    rw [ih fun hs => h (List.mem_cons_of_mem c hs)]
    simp

theorem newline_not_mem_linesFrom {acc s l : List Char} (hacc : '\n' ∉ acc)
    (hl : l ∈ linesFrom acc s) : '\n' ∉ l := by
  fun_induction linesFrom acc s with
  | case1 => simp at hl
  | case2 acc h => simp_all
  | case3 acc s ih =>
    rcases List.mem_cons.1 hl with rfl | hl
    · split
      · simp_all
      · simp_all
    · exact ih (by simp) hl
  | case4 acc c s hc ih => exact ih (by simp [hacc, Ne.symm hc]) hl

/-- A line holds no line feed. -/
theorem newline_not_mem_of_mem_lines {s l : List Char} (hl : l ∈ lines s) : '\n' ∉ l :=
  newline_not_mem_linesFrom (by simp) hl

theorem infix_of_mem_linesFrom {acc s l : List Char} (h : l ∈ linesFrom acc s) :
    l <:+: acc.reverse ++ s := by
  fun_induction linesFrom acc s with
  | case1 => simp at h
  | case2 acc _ => simp_all
  | case3 acc s ih =>
    rcases List.mem_cons.1 h with rfl | h
    · split
      · rename_i line
        exact ⟨[], '\r' :: '\n' :: s, by simp⟩
      · exact ⟨[], '\n' :: s, by simp⟩
    · exact (ih h).trans ⟨acc.reverse ++ ['\n'], [], by simp⟩
  | case4 acc c s _ ih => simpa using ih h

theorem infix_of_mem_lines {s l : List Char} (h : l ∈ lines s) : l <:+: s :=
  infix_of_mem_linesFrom h

theorem linesFrom_append_newline {acc s : List Char} (hs : '\n' ∉ s)
    (hend : (acc.reverse ++ s).getLast? ≠ some '\r') (rest : List Char) :
    linesFrom acc (s ++ '\n' :: rest) = (acc.reverse ++ s) :: linesFrom [] rest := by
  induction s generalizing acc with
  | nil =>
    simp only [List.append_nil, List.getLast?_reverse] at hend
    match acc, hend with
    | [], _ => rfl
    | c :: acc, hend =>
      have hc : c ≠ '\r' := by simpa using hend
      simp [linesFrom, hc]
  | cons c s ih =>
    simp only [List.mem_cons, not_or] at hs
    have line := @ih (c :: acc) hs.2 (by simpa using hend)
    simpa [linesFrom, Ne.symm hs.1] using line

/-- The first line of a text, when no carriage return stands in front of its end. -/
theorem lines_append_newline {l : List Char} (hl : '\n' ∉ l) (hend : l.getLast? ≠ some '\r')
    (rest : List Char) : lines (l ++ '\n' :: rest) = l :: lines rest :=
  @linesFrom_append_newline [] l hl hend rest

theorem linesFrom_append {l : List Char} (hl : '\n' ∉ l) (acc t : List Char) :
    linesFrom acc (l ++ t) = linesFrom (l.reverse ++ acc) t := by
  induction l generalizing acc with
  | nil => rfl
  | cons c l ih =>
    simp only [List.mem_cons, not_or] at hl
    simpa [linesFrom, Ne.symm hl.1] using ih hl.2 (c :: acc)

/-- The first line of a text stands in front of its end, which may be a carriage return and a line
feed. -/
theorem exists_lines_append_newline {l : List Char} (hl : '\n' ∉ l) (rest : List Char) :
    ∃ line ending, l = line ++ ending ∧ (ending = [] ∨ ending = ['\r']) ∧
      lines (l ++ '\n' :: rest) = line :: lines rest := by
  by_cases hend : l.getLast? = some '\r'
  · obtain ⟨line, rfl⟩ := List.getLast?_eq_some_iff.1 hend
    refine ⟨line, ['\r'], rfl, .inr rfl, ?_⟩
    rw [lines, linesFrom_append hl]
    simp [linesFrom, lines]
  · exact ⟨l, [], by simp, .inl rfl, lines_append_newline hl hend rest⟩

/-- Lines that are written with their ends are read again, in front of whatever follows. -/
theorem lines_flatMap_append {ls : List (List Char)} (hls : ∀ l ∈ ls, '\n' ∉ l)
    (hend : ∀ l ∈ ls, l.getLast? ≠ some '\r') (rest : List Char) :
    lines (ls.flatMap (· ++ ['\n']) ++ rest) = ls ++ lines rest := by
  induction ls with
  | nil => rfl
  | cons l ls ih =>
    have ih := ih (fun l' hl' => hls l' (List.mem_cons_of_mem l hl'))
      fun l' hl' => hend l' (List.mem_cons_of_mem l hl')
    have first := lines_append_newline (hls l List.mem_cons_self) (hend l List.mem_cons_self)
      (ls.flatMap (· ++ ['\n']) ++ rest)
    simpa [ih] using first

theorem lines_of_newline_not_mem {l : List Char} (hne : l ≠ []) (hl : '\n' ∉ l) :
    lines l = [l] := by
  rw [lines, linesFrom_of_newline_not_mem hl]
  simp [hne]

theorem not_mem_joinWith {c : Char} {sep : List Char} {ls : List (List Char)} (hsep : c ∉ sep)
    (hls : ∀ l ∈ ls, c ∉ l) : c ∉ joinWith sep ls := by
  fun_induction joinWith sep ls with
  | case1 => simp
  | case2 piece => simpa using hls
  | case3 piece next rest ih =>
    have := ih fun l hl => hls l (List.mem_cons_of_mem piece hl)
    simp_all

theorem splitFrom_eq_splitOnPPrepend (sep : Char) (acc s : List Char) :
    splitFrom sep acc s = List.splitOnPPrepend (· == sep) s acc := by
  fun_induction splitFrom sep acc s with
  | case1 => rfl
  | case2 acc s ih => rw [List.splitOnPPrepend_cons_pos (by simp), ih]; rfl
  | case3 acc c s hc ih => rw [List.splitOnPPrepend_cons_neg (by simpa using hc), ih]

theorem joinWith_eq_intercalate (sep : List Char) (ls : List (List Char)) :
    joinWith sep ls = sep.intercalate ls := by
  fun_induction joinWith sep ls with
  | case1 => rfl
  | case2 l => simp
  | case3 l next rest ih => rw [ih, List.intercalate_cons_cons]

/-- Lines that are joined can be split again. -/
theorem split_unlines {ls : List (List Char)} (hne : ls ≠ []) (hls : ∀ l ∈ ls, '\n' ∉ l) :
    split '\n' (unlines ls) = ls := by
  rw [split, splitFrom_eq_splitOnPPrepend, unlines, joinWith_eq_intercalate]
  exact List.splitOn_intercalate '\n' hls hne

/-- The lines of a text without blanks at their ends, the blank ones left out. -/
def textLines (s : List Char) : List (List Char) :=
  ((lines s).map trim).filter fun l => !l.isEmpty

theorem filter_trim_linesFrom (acc s : List Char) :
    ((linesFrom acc s).map trim).filter (fun l => !l.isEmpty)
      = ((List.splitOnPPrepend (· == '\n') s acc).map trim).filter fun l => !l.isEmpty := by
  fun_induction linesFrom acc s with
  | case1 acc h => simp_all [trim, trimEnd, trimStart]
  | case2 acc h => rfl
  | case3 acc s ih =>
    rw [List.splitOnPPrepend_cons_pos rfl, List.map_cons, List.map_cons, List.filter_cons,
      List.filter_cons, ih]
    split
    · rename_i line
      -- a carriage return at the end of a line is a blank, which trimming takes away
      have line_eq : trim ('\r' :: line).reverse = trim line.reverse := by
        rw [List.reverse_cons]
        exact trim_blank_append_blank (g := []) rfl line.reverse (by decide)
      rw [line_eq]
      rfl
    · rfl
  | case4 acc c s hc ih =>
    rw [List.splitOnPPrepend_cons_neg (by simpa using hc), ih]

theorem textLines_eq (s : List Char) :
    textLines s = ((s.splitOn '\n').map trim).filter fun l => !l.isEmpty :=
  filter_trim_linesFrom [] s

theorem textLines_append_newline (s t : List Char) :
    textLines (s ++ '\n' :: t) = textLines s ++ textLines t := by
  simp only [textLines_eq, List.splitOn_append_cons_self, List.map_append, List.filter_append]

theorem textLines_of_newline_not_mem {s : List Char} (hs : '\n' ∉ s) :
    textLines s = if allBlank s then [] else [trim s] := by
  rw [textLines_eq, List.splitOn_eq_singleton hs]
  by_cases h : allBlank s = true
  · simp [trim_eq_nil_iff.2 h, h]
  · have hne : trim s ≠ [] := fun h' => h (trim_eq_nil_iff.1 h')
    simp [h, hne]

theorem textLines_cons_of_blank {c : Char} (hc : isBlank c = true) (s : List Char) :
    textLines (c :: s) = textLines s := by
  by_cases hn : c = '\n'
  · subst hn
    exact textLines_append_newline [] s
  · rw [textLines_eq, textLines_eq, List.splitOn_cons_eq_if_modifyHead, if_neg (by simpa using hn)]
    cases List.splitOn '\n' s with
    | nil => rfl
    | cons l ls => simp [trim_cons_of_blank hc]

/-- Blanks in front of a text leave its lines as they are. -/
theorem textLines_blank_append {g : List Char} (hg : allBlank g = true) (s : List Char) :
    textLines (g ++ s) = textLines s := by
  induction g with
  | nil => rfl
  | cons c g ih =>
    simp only [allBlank_cons, Bool.and_eq_true] at hg
    rw [List.cons_append, textLines_cons_of_blank hg.1, ih hg.2]

theorem textLines_of_allBlank {g : List Char} (hg : allBlank g = true) : textLines g = [] := by
  rw [← List.append_nil g, textLines_blank_append hg]
  rfl

/-- Blanks behind a text leave its lines as they are. -/
theorem textLines_append_blank (s : List Char) {g : List Char} (hg : allBlank g = true) :
    textLines (s ++ g) = textLines s := by
  induction s using cut_induction (· == '\n') with
  | cut a c b ha hc ih =>
    obtain rfl : c = '\n' := by simpa using hc
    rw [List.append_assoc, List.cons_append, textLines_append_newline, ih,
      textLines_append_newline]
  | piece s hs =>
    have hs : '\n' ∉ s := fun h => by simpa using hs _ h
    -- the blanks up to their first line feed belong to the last line of the text
    have line {g : List Char} (hg : allBlank g = true) (hn : '\n' ∉ g) :
        textLines (s ++ g) = textLines s := by
      have trimmed : trim (s ++ g) = trim s := trim_blank_append_blank (g := []) rfl s hg
      rw [textLines_of_newline_not_mem (by simp [hs, hn]), textLines_of_newline_not_mem hs,
        trimmed, allBlank_append, hg, Bool.and_true]
    by_cases hn : '\n' ∈ g
    · obtain ⟨a, b, rfl, ha⟩ := List.eq_append_cons_of_mem hn
      simp only [allBlank_append, allBlank_cons, Bool.and_eq_true] at hg
      rw [← List.append_assoc, textLines_append_newline, line hg.1 ha,
        textLines_of_allBlank hg.2.2, List.append_nil]
    · exact line hg hn

/-- What a line of a text is like: it is trimmed, on one line, and made of the text. -/
theorem of_mem_textLines {s l : List Char} (hl : l ∈ textLines s) :
    trim l = l ∧ EndsWithInk l ∧ '\n' ∉ l ∧ ∀ c ∈ l, c ∈ s := by
  simp only [textLines, List.mem_filter, List.mem_map, Bool.not_eq_true', List.isEmpty_eq_false_iff]
    at hl
  obtain ⟨⟨line, hline, rfl⟩, hne⟩ := hl
  have hink : allBlank line = false := by
    rw [Bool.eq_false_iff]
    exact fun h => hne (trim_eq_nil_iff.2 h)
  exact ⟨trim_trim line, endsWithInk_trim hink,
    fun h => newline_not_mem_of_mem_lines hline (mem_of_mem_trim h),
    fun c hc => (infix_of_mem_lines hline).subset (mem_of_mem_trim hc)⟩

/-! ### Words -/

/-- The runs of characters that are not blank. -/
def words (s : List Char) : List (List Char) :=
  (s.splitOnP isBlank).filter fun w => !w.isEmpty

@[simp] theorem words_nil : words [] = [] := rfl

theorem words_append_cons (s : List Char) {c : Char} (hc : isBlank c = true) (t : List Char) :
    words (s ++ c :: t) = words s ++ words t := by
  simp only [words, List.splitOnP_append_cons s t hc, List.filter_append]

/-- A run of characters that are not blank is one word. -/
theorem words_of_inked {w : List Char} (hw : ∀ c ∈ w, isBlank c = false) :
    words w = if w.isEmpty then [] else [w] := by
  rw [words, List.splitOnP_eq_singleton hw]
  cases w <;> rfl

theorem words_blank_append {g : List Char} (hg : allBlank g = true) (s : List Char) :
    words (g ++ s) = words s := by
  induction g with
  | nil => rfl
  | cons c g ih =>
    simp only [allBlank_cons, Bool.and_eq_true] at hg
    rw [List.cons_append, ← List.nil_append (c :: (g ++ s)), words_append_cons _ hg.1, ih hg.2]
    rfl

theorem words_append_blank (s : List Char) {g : List Char} (hg : allBlank g = true) :
    words (s ++ g) = words s := by
  cases g with
  | nil => rw [List.append_nil]
  | cons c g =>
    simp only [allBlank_cons, Bool.and_eq_true] at hg
    rw [words_append_cons s hg.1, ← List.append_nil g, words_blank_append hg.2]
    simp

theorem words_trim (s : List Char) : words (trim s) = words s := by
  obtain ⟨g, g', hg, hg', hs⟩ := trim_parts s
  conv_rhs => rw [hs]
  rw [words_append_blank _ hg', words_blank_append hg]

/-- The lines of a text determine its words. -/
theorem words_eq_flatMap_textLines (s : List Char) : words s = (textLines s).flatMap words := by
  have line {s : List Char} (hs : ∀ c ∈ s, (c == '\n') = false) :
      words s = (textLines s).flatMap words := by
    rw [textLines_of_newline_not_mem fun h => by simpa using hs _ h]
    split
    · rename_i hblank
      rw [← List.append_nil s, words_blank_append hblank]
      rfl
    · simp [words_trim]
  induction s using cut_induction (· == '\n') with
  | piece s hs => exact line hs
  | cut a c b ha hc ih =>
    obtain rfl : c = '\n' := by simpa using hc
    rw [words_append_cons a (by decide), textLines_append_newline, List.flatMap_append, ← ih,
      ← line ha]

theorem collapse_append_of_inked {w : List Char} (hw : ∀ c ∈ w, isBlank c = false)
    (s : List Char) : collapse (w ++ s) = w ++ collapse s := by
  induction w with
  | nil => rfl
  | cons c w ih =>
    have hc : isBlank c = false := hw c List.mem_cons_self
    have rest := ih fun d hd => hw d (List.mem_cons_of_mem c hd)
    rw [List.cons_append, List.cons_append, ← rest]
    cases w ++ s with
    | nil => simp [collapse, hc]
    | cons d t => simp [collapse, hc]

theorem collapse_cons_of_blank {c : Char} (hc : isBlank c = true) {s : List Char}
    (hs : allBlank s = false) : collapse (c :: s) = ' ' :: collapse (trimStart s) := by
  induction s generalizing c with
  | nil => simp at hs
  | cons d s ih =>
    cases hd : isBlank d with
    | true =>
      have hs : allBlank s = false := by simpa [hd] using hs
      rw [collapse, if_pos hc, if_pos hd, ih hd hs, trimStart, trimStart,
        List.dropWhile_cons_of_pos hd]
    | false => simp [collapse, hc, hd, trimStart]

/-- The ink of a text is the ink of its words. -/
theorem flatten_words (s : List Char) : (words s).flatten = withoutBlanks s := by
  induction s using cut_induction isBlank with
  | piece w hw =>
    have ink : withoutBlanks w = w := List.filter_eq_self.2 fun c hc => by simp [hw c hc]
    rw [words_of_inked hw, ink]
    cases w <;> simp
  | cut a c b ha hc ih =>
    have ink : withoutBlanks a = a := List.filter_eq_self.2 fun c hc => by simp [ha c hc]
    rw [words_append_cons a hc, words_of_inked ha, withoutBlanks_append,
      withoutBlanks_cons_of_blank hc, List.flatten_append, ih, ink]
    cases a <;> simp

theorem words_ne_nil {s : List Char} (hs : allBlank s = false) : words s ≠ [] := by
  intro h
  have ink := flatten_words s
  rw [h, List.flatten_nil, eq_comm, withoutBlanks_eq_nil_iff] at ink
  simp [ink] at hs

theorem textLines_ne_nil {s : List Char} (hs : allBlank s = false) : textLines s ≠ [] := by
  intro h
  refine words_ne_nil hs ?_
  rw [words_eq_flatMap_textLines, h, List.flatMap_nil]

/-- A text on one line is its words with single spaces between them. -/
theorem collapse_trim (s : List Char) : collapse (trim s) = joinWith [' '] (words s) := by
  induction s using cut_induction isBlank with
  | piece w hw =>
    have alone : collapse w = w := by simpa [collapse] using collapse_append_of_inked hw []
    rw [trim_of_inked hw, alone, words_of_inked hw]
    cases w <;> rfl
  | cut a c b ha hc ih =>
    rw [words_append_cons a hc, words_of_inked ha]
    -- a blank in front is trimmed; behind a word it is a space, unless nothing follows
    match a, ha with
    | [], _ => rw [List.nil_append, trim_cons_of_blank hc, ih]; rfl
    | d :: a, ha =>
      cases hb : allBlank b with
      | true =>
        have hblank : allBlank (c :: b) = true := by simp [hc, hb]
        have trimmed := trim_blank_append_blank (g := []) rfl (d :: a) hblank
        have alone := collapse_append_of_inked ha []
        rw [List.nil_append] at trimmed
        rw [List.append_nil] at alone
        have none : words b = [] := by
          rw [← List.append_nil b, words_blank_append hb, words_nil]
        rw [trimmed, trim_of_inked ha, alone, none]
        simp [joinWith, collapse]
      | false =>
        -- the blanks between the two words collapse to one space
        obtain ⟨g, g', hg, hg', hparts⟩ := trim_parts b
        have trimmed : trim (d :: a ++ c :: b) = d :: a ++ c :: (g ++ trim b) := by
          have := trim_blank_append_blank (g := []) rfl (d :: a ++ c :: (g ++ trim b)) hg'
          rw [List.nil_append] at this
          rw [show d :: a ++ c :: b = d :: a ++ c :: (g ++ trim b) ++ g' by
            conv_lhs => rw [hparts]
            simp, this]
          refine trim_of_edges (ha d List.mem_cons_self) ?_
          simpa using (endsWithInk_trim hb).append (d :: a ++ c :: g)
        have hink : allBlank (g ++ trim b) = false := by
          rw [allBlank_append, hg, Bool.true_and, allBlank_trim, hb]
        obtain ⟨w, ws, hws⟩ := List.exists_cons_of_ne_nil (words_ne_nil hb)
        rw [trimmed, collapse_append_of_inked ha, collapse_cons_of_blank hc hink,
          trimStart_append_of_allBlank hg, trimStart_trim, ih, hws]
        simp [joinWith]

theorem of_mem_words {s w : List Char} (hw : w ∈ words s) :
    w ≠ [] ∧ ∀ c ∈ w, isBlank c = false := by
  have run {a : List Char} (ha : ∀ c ∈ a, isBlank c = false) (hw : w ∈ words a) :
      w ≠ [] ∧ ∀ c ∈ w, isBlank c = false := by
    rw [words_of_inked ha] at hw
    split at hw
    · simp at hw
    · rename_i hne
      obtain rfl := List.mem_singleton.1 hw
      exact ⟨by simpa using hne, ha⟩
  induction s using cut_induction isBlank with
  | piece s hs => exact run hs hw
  | cut a c b ha hc ih =>
    rw [words_append_cons a hc, List.mem_append] at hw
    exact hw.elim (run ha) ih

theorem words_joinWith {ws : List (List Char)}
    (hws : ∀ w ∈ ws, w ≠ [] ∧ ∀ c ∈ w, isBlank c = false) : words (joinWith [' '] ws) = ws := by
  have alone {w : List Char} (hw : w ≠ [] ∧ ∀ c ∈ w, isBlank c = false) : words w = [w] := by
    rw [words_of_inked hw.2, if_neg (by simpa using hw.1)]
  fun_induction joinWith [' '] ws with
  | case1 => rfl
  | case2 w => exact alone (hws w List.mem_cons_self)
  | case3 w next rest ih =>
    rw [List.append_assoc, List.singleton_append, words_append_cons w (by decide),
      alone (hws w List.mem_cons_self), ih fun v hv => hws v (List.mem_cons_of_mem w hv)]
    rfl

/-- Writing a text on one line keeps its words. -/
theorem words_collapse_trim (s : List Char) : words (collapse (trim s)) = words s := by
  rw [collapse_trim]
  exact words_joinWith fun w hw => of_mem_words hw

theorem collapse_trim_congr {s t : List Char} (h : words s = words t) :
    collapse (trim s) = collapse (trim t) := by
  rw [collapse_trim, collapse_trim, h]

/-- A text on one line begins as the text does, with a space in place of other blanks. -/
theorem collapse_trim_of_ink {c : Char} (hc : isBlank c = false) (s : List Char) :
    ∃ u, collapse (trim (c :: s)) = c :: u ∧
      ∀ d, u.head? = some d → d = ' ' ∨ s.head? = some d := by
  have word {w : List Char} (hw : ∀ d ∈ w, isBlank d = false) : words (c :: w) = [c :: w] := by
    rw [words_of_inked (by simpa [hc] using hw)]
    rfl
  rw [collapse_trim]
  induction s using cut_induction isBlank with
  | piece w hw => exact ⟨w, by rw [word hw]; rfl, fun d hd => .inr hd⟩
  | cut w b rest hw hb _ =>
    rw [← List.cons_append, words_append_cons _ hb, word hw]
    -- the first word goes on, or a space follows its only character
    cases hws : words rest with
    | nil =>
      refine ⟨w, rfl, fun d hd => .inr ?_⟩
      rw [List.head?_append, hd]
      rfl
    | cons next ws =>
      refine ⟨w ++ ' ' :: joinWith [' '] (next :: ws), by simp [joinWith], fun d hd => ?_⟩
      cases w with
      | nil => exact .inl (by simpa using hd.symm)
      | cons e w => exact .inr hd

theorem EndsWithInk.getLast?_withoutBlanks {s : List Char} (hs : EndsWithInk s) :
    (withoutBlanks s).getLast? = s.getLast? := by
  obtain ⟨u, c, rfl, hc⟩ := hs
  simp [withoutBlanks, hc]

/-! ### Words that follow each other -/

theorem words_of_ink {w : List Char} (hne : w ≠ []) (hw : ∀ c ∈ w, isBlank c = false) :
    words w = [w] := by
  rw [words_of_inked hw, if_neg (by simpa using hne)]

section Follow

variable {x : List Char} (hxne : x ≠ []) (hx : ∀ c ∈ x, isBlank c = false)

include hxne hx

/-- Ink at the end of a text is the end of its last word. -/
theorem exists_last_word (u : List Char) : ∃ ws w, words (u ++ x) = ws ++ [w] ∧ x <:+ w := by
  induction u using cut_induction isBlank with
  | piece u hu =>
    refine ⟨[], u ++ x, words_of_ink (by simp [hxne]) fun c hc => ?_, List.suffix_append u x⟩
    exact (List.mem_append.1 hc).elim (hu c) (hx c)
  | cut a c b ha hc ih =>
    obtain ⟨ws, w, hws, hw⟩ := ih
    rw [List.append_assoc, List.cons_append, words_append_cons a hc, hws]
    exact ⟨words a ++ ws, w, by simp, hw⟩

/-- Ink at the head of a text is the beginning of its first word. -/
theorem exists_first_word (r : List Char) : ∃ w ws, words (x ++ r) = w :: ws ∧ x <+: w := by
  have word {a : List Char} (ha : ∀ c ∈ a, isBlank c = false) : words (x ++ a) = [x ++ a] :=
    words_of_ink (by simp [hxne]) fun c hc => (List.mem_append.1 hc).elim (hx c) (ha c)
  induction r using cut_induction isBlank with
  | piece r hr => exact ⟨x ++ r, [], word hr, List.prefix_append x r⟩
  | cut a c b ha hc _ =>
    rw [← List.append_assoc, words_append_cons _ hc, word ha]
    exact ⟨x ++ a, words b, rfl, List.prefix_append x a⟩

/-- Ink inside a text is inside one of its words. -/
theorem exists_word_holding {s : List Char} (h : x <:+: s) : ∃ w ∈ words s, x <:+: w := by
  obtain ⟨u, v, rfl⟩ := h
  induction v using cut_induction isBlank with
  | piece v hv =>
    obtain ⟨ws, w, hws, hw⟩ := exists_last_word (x := x ++ v) (by simp [hxne])
      (fun c hc => (List.mem_append.1 hc).elim (hx c) (hv c)) u
    refine ⟨w, by simp [hws], (List.prefix_append x v).isInfix.trans hw.isInfix⟩
  | cut a c b ha hc _ =>
    obtain ⟨ws, w, hws, hw⟩ := exists_last_word (x := x ++ a) (by simp [hxne])
      (fun c hc => (List.mem_append.1 hc).elim (hx c) (ha c)) u
    rw [← List.append_assoc, words_append_cons _ hc, List.append_assoc, hws]
    exact ⟨w, by simp, (List.prefix_append x a).isInfix.trans hw.isInfix⟩

end Follow

/-- The words of a text up to its first blank, and behind it. -/
theorem words_cut {a : List Char} (ha : ∀ c ∈ a, isBlank c = false) {c : Char}
    (hc : isBlank c = true) (b : List Char) :
    a = [] ∧ words (a ++ c :: b) = words b ∨ words (a ++ c :: b) = a :: words b := by
  rw [words_append_cons a hc]
  by_cases hne : a = []
  · exact .inl ⟨hne, by simp [hne]⟩
  · exact .inr (by rw [words_of_ink hne ha]; rfl)

theorem infix_of_mem_words {s w : List Char} (hw : w ∈ words s) : w <:+: s := by
  induction s using cut_induction isBlank with
  | piece s hs =>
    rw [words_of_inked hs] at hw
    split at hw
    · simp at hw
    · obtain rfl := List.mem_singleton.1 hw
      exact List.infix_refl w
  | cut a c b ha hc ih =>
    have behind : b <:+: a ++ c :: b := ⟨a ++ [c], [], by simp⟩
    rcases words_cut ha hc b with ⟨-, hwords⟩ | hwords
    · exact (ih (hwords ▸ hw)).trans behind
    · rcases List.mem_cons.1 (hwords ▸ hw) with rfl | hw
      · exact (List.prefix_append w _).isInfix
      · exact (ih hw).trans behind

/-- The first word of a text stands behind blanks only. -/
theorem exists_gap_of_first_word {s w : List Char} {ws : List (List Char)}
    (h : words s = w :: ws) : ∃ gap, allBlank gap = true ∧ gap ++ w <+: s := by
  induction s using cut_induction isBlank with
  | piece s hs =>
    rw [words_of_inked hs] at h
    split at h
    · simp at h
    · exact ⟨[], rfl, by rw [(List.cons.inj h).1]; exact List.prefix_refl _⟩
  | cut a c b ha hc ih =>
    rcases words_cut ha hc b with ⟨rfl, hwords⟩ | hwords
    · obtain ⟨gap, hgap, r, rfl⟩ := ih (hwords ▸ h)
      exact ⟨c :: gap, by simp [hc, hgap], r, by simp⟩
    · obtain rfl : a = w := (List.cons.inj (hwords.symm.trans h)).1
      exact ⟨[], rfl, List.prefix_append _ _⟩

/-- Words that follow each other have only blanks between them. -/
theorem exists_gap_of_words {s w w' : List Char} (h : [w, w'] <:+: words s) :
    ∃ gap, allBlank gap = true ∧ w ++ gap ++ w' <:+: s := by
  induction s using cut_induction isBlank with
  | piece s hs =>
    have length := h.length_le
    rw [words_of_inked hs] at length
    split at length <;> simp at length
  | cut a c b ha hc ih =>
    have behind : b <:+: a ++ c :: b := ⟨a ++ [c], [], by simp⟩
    have further (h : [w, w'] <:+: words b) :
        ∃ gap, allBlank gap = true ∧ w ++ gap ++ w' <:+: a ++ c :: b := by
      obtain ⟨gap, hgap, hinfix⟩ := ih h
      exact ⟨gap, hgap, hinfix.trans behind⟩
    rcases words_cut ha hc b with ⟨-, hwords⟩ | hwords
    · exact further (hwords ▸ h)
    · rw [hwords, List.infix_cons_iff] at h
      rcases h with h | h
      · -- the first word is the piece, and the second one is the first word behind it
        obtain ⟨ws, hws⟩ := h
        obtain ⟨rfl, hb⟩ := List.cons.inj hws
        obtain ⟨gap, hgap, r, rfl⟩ := exists_gap_of_first_word hb.symm
        exact ⟨c :: gap, by simp [hc, hgap], [], r, by simp⟩
      · exact further h

end RazorLayout.Text

import RazorLayout.Proofs.Text.Words

/-!
# Margins

The margin of a line is the blanks in front of it. Indentation writes margins and nothing else, so
two layouts of one page that differ in their indentation are the same page once every line has been
moved to the left edge.

## Main definitions

* `flushLeft`: a text without the margins of its lines
* `Shifted`: texts that differ in the margin of their first line at most

## Main results

* `flushLeft_append_newline`, `flushLeft_unlines`: texts are moved to the left line by line
* `flushLeft_trimEnd`: the margins have no part in the blanks at the end
* `Shifted.flushLeft_eq`: texts that differ in a margin are the same without margins
-/

namespace RazorLayout.Text

/-! ### Trimming one end and the other -/

theorem trimEnd_append_of_ink {t : List Char} (h : allBlank t = false) (s : List Char) :
    trimEnd (s ++ t) = s ++ trimEnd t := by
  obtain ⟨g, g', hg, hg', ht⟩ := trim_parts t
  have ink := endsWithInk_trim h
  rw [ht, trimEnd_append_of_allBlank _ hg', ← List.append_assoc, trimEnd_append_of_allBlank _ hg',
    (ink.append g).trimEnd_eq, ← List.append_assoc, (ink.append (s ++ g)).trimEnd_eq,
    List.append_assoc]

theorem trimStart_trimEnd (s : List Char) : trimStart (trimEnd s) = trim s := by
  obtain ⟨g, g', hg, hg', hs⟩ := trim_parts s
  cases h : allBlank s with
  | true => rw [trimEnd_eq_nil_iff.2 h, trim_eq_nil_iff.2 h]; rfl
  | false =>
    conv_lhs => rw [hs]
    rw [trimEnd_append_of_allBlank _ hg', ((endsWithInk_trim h).append g).trimEnd_eq,
      trimStart_append_of_allBlank hg, trimStart_trim]

/-! ### Cutting at line feeds -/

/-- Induction over the lines of a text. -/
theorem line_induction {P : List Char → Prop} (last : ∀ l, '\n' ∉ l → P l)
    (line : ∀ l s, '\n' ∉ l → P s → P (l ++ '\n' :: s)) (s : List Char) : P s := by
  induction s using cut_induction (· == '\n') with
  | piece s hs => exact last s fun h => by simpa using hs '\n' h
  | cut a c b ha hc ih =>
    obtain rfl : c = '\n' := by simpa using hc
    exact line a b (fun h => by simpa using ha '\n' h) ih

theorem split_eq_splitOn (sep : Char) (s : List Char) : split sep s = s.splitOn sep :=
  splitFrom_eq_splitOnPPrepend sep [] s

theorem split_append (sep : Char) (s t : List Char) :
    split sep (s ++ sep :: t) = split sep s ++ split sep t := by
  simp only [split_eq_splitOn, List.splitOn_append_cons_self]

theorem split_of_not_mem {sep : Char} {s : List Char} (h : sep ∉ s) : split sep s = [s] := by
  rw [split_eq_splitOn, List.splitOn_eq_singleton h]

/-- No piece holds the character that separates the pieces. -/
theorem not_mem_of_mem_split {sep : Char} {s l : List Char} (h : l ∈ split sep s) : sep ∉ l := by
  induction s using cut_induction (· == sep) with
  | piece s hs =>
    have hs : sep ∉ s := fun hmem => by simpa using hs sep hmem
    rw [split_of_not_mem hs] at h
    rwa [List.mem_singleton.1 h]
  | cut a c s ha hc ih =>
    obtain rfl : c = sep := by simpa using hc
    have ha : c ∉ a := fun hmem => by simpa using ha c hmem
    rw [split_append, split_of_not_mem ha] at h
    rcases List.mem_append.1 h with h | h
    · rwa [List.mem_singleton.1 h]
    · exact ih h

theorem joinWith_split (sep : Char) (s : List Char) : joinWith [sep] (split sep s) = s := by
  rw [joinWith_eq_intercalate, split_eq_splitOn, List.intercalate_splitOn]

theorem joinWith_append {sep : List Char} {front back : List (List Char)} (hfront : front ≠ [])
    (hback : back ≠ []) :
    joinWith sep (front ++ back) = joinWith sep front ++ sep ++ joinWith sep back := by
  induction front with
  | nil => exact absurd rfl hfront
  | cons piece rest ih =>
    cases rest with
    | nil =>
      obtain ⟨next, back, rfl⟩ := List.exists_cons_of_ne_nil hback
      rfl
    | cons next rest =>
      have ih := ih (by simp)
      simp only [List.cons_append, joinWith, List.append_assoc] at ih ⊢
      rw [ih]

theorem split_append_newline (s t : List Char) :
    split '\n' (s ++ '\n' :: t) = split '\n' s ++ split '\n' t :=
  split_append '\n' s t

theorem split_of_newline_not_mem {s : List Char} (h : '\n' ∉ s) : split '\n' s = [s] :=
  split_of_not_mem h

theorem newline_not_mem_of_mem_split {s l : List Char} (h : l ∈ split '\n' s) : '\n' ∉ l :=
  not_mem_of_mem_split h

theorem unlines_cons_of_ne_nil (l : List Char) {ls : List (List Char)} (h : ls ≠ []) :
    unlines (l :: ls) = l ++ '\n' :: unlines ls := by
  obtain ⟨next, rest, rfl⟩ := List.exists_cons_of_ne_nil h
  simp [unlines, joinWith]

theorem unlines_append {ls ls' : List (List Char)} (h : ls ≠ []) (h' : ls' ≠ []) :
    unlines (ls ++ ls') = unlines ls ++ '\n' :: unlines ls' := by
  induction ls with
  | nil => exact absurd rfl h
  | cons l ls ih =>
    by_cases hls : ls = []
    · subst hls
      exact unlines_cons_of_ne_nil l h'
    · rw [List.cons_append, unlines_cons_of_ne_nil l (by simp [hls]),
        unlines_cons_of_ne_nil l hls, ih hls, List.append_assoc, List.cons_append]

/-- Lines that hold line feeds fall apart. -/
theorem split_unlines_eq_flatMap {ls : List (List Char)} (h : ls ≠ []) :
    split '\n' (unlines ls) = ls.flatMap (split '\n') := by
  induction ls with
  | nil => exact absurd rfl h
  | cons l ls ih =>
    by_cases hls : ls = []
    · subst hls
      exact (List.append_nil _).symm
    · rw [unlines_cons_of_ne_nil l hls, split_append_newline, ih hls, List.flatMap_cons]

/-! ### Texts without margins -/

/-- The text with every line moved to the left edge. -/
def flushLeft (s : List Char) : List Char := unlines ((split '\n' s).map trimStart)

theorem split_flushLeft (s : List Char) :
    split '\n' (flushLeft s) = (split '\n' s).map trimStart := by
  refine split_unlines (by simp [split_ne_nil]) ?_
  simp only [List.mem_map, forall_exists_index, and_imp, forall_apply_eq_imp_iff₂]
  exact fun l hl h => newline_not_mem_of_mem_split hl ((List.dropWhile_suffix isBlank).subset h)

theorem flushLeft_of_newline_not_mem {s : List Char} (h : '\n' ∉ s) :
    flushLeft s = trimStart s := by
  rw [flushLeft, split_of_newline_not_mem h]
  rfl

theorem flushLeft_append_newline (s t : List Char) :
    flushLeft (s ++ '\n' :: t) = flushLeft s ++ '\n' :: flushLeft t := by
  rw [flushLeft, split_append_newline, List.map_append,
    unlines_append (by simp [split_ne_nil]) (by simp [split_ne_nil])]
  rfl

theorem withoutBlanks_flushLeft (s : List Char) :
    withoutBlanks (flushLeft s) = withoutBlanks s := by
  rw [flushLeft, withoutBlanks_unlines, flatMap_withoutBlanks_map fun l _ =>
    withoutBlanks_trimStart l, flatMap_withoutBlanks_split (by decide)]

theorem allBlank_flushLeft (s : List Char) : allBlank (flushLeft s) = allBlank s := by
  rw [Bool.eq_iff_iff, ← withoutBlanks_eq_nil_iff, withoutBlanks_flushLeft,
    withoutBlanks_eq_nil_iff]

/-- Blanks at the end of a text are blanks at the end of its lines, and empty lines. -/
theorem flushLeft_trimEnd (s : List Char) : flushLeft (trimEnd s) = trimEnd (flushLeft s) := by
  induction s using line_induction with
  | last l hl =>
    have trimmed : '\n' ∉ trimEnd l := fun h =>
      hl ((List.rdropWhile_prefix isBlank l).subset h)
    rw [flushLeft_of_newline_not_mem trimmed, flushLeft_of_newline_not_mem hl, trimStart_trimEnd]
    rfl
  | line l s hl ih =>
    cases hs : allBlank s with
    | true =>
      have behind : allBlank ('\n' :: s) = true := by simpa [hs] using (by decide : isBlank '\n')
      have behind' : allBlank ('\n' :: flushLeft s) = true := by
        simpa [allBlank_flushLeft, hs] using (by decide : isBlank '\n')
      have trimmed : '\n' ∉ trimEnd l := fun h =>
        hl ((List.rdropWhile_prefix isBlank l).subset h)
      rw [trimEnd_append_of_allBlank _ behind, flushLeft_append_newline,
        trimEnd_append_of_allBlank _ behind', flushLeft_of_newline_not_mem trimmed,
        flushLeft_of_newline_not_mem hl, trimStart_trimEnd]
      rfl
    | false =>
      have ink (t : List Char) (ht : allBlank t = false) :
          trimEnd ('\n' :: t) = '\n' :: trimEnd t :=
        trimEnd_append_of_ink ht ['\n']
      have hflush : allBlank (flushLeft s) = false := by rw [allBlank_flushLeft, hs]
      rw [trimEnd_append_of_ink (by simp [hs]), ink s hs, flushLeft_append_newline,
        flushLeft_append_newline, trimEnd_append_of_ink (by simp [hflush]), ink _ hflush, ih]

/-! ### Texts that differ in a margin -/

/-- Blanks within a line. -/
structure IsMargin (g : List Char) : Prop where
  blank : allBlank g = true
  line : '\n' ∉ g

theorem isMargin_nil : IsMargin [] := ⟨rfl, by simp⟩

theorem IsMargin.append {g g' : List Char} (h : IsMargin g) (h' : IsMargin g') :
    IsMargin (g ++ g') where
  blank := by simp [h.blank, h'.blank]
  line := by simp [h.line, h'.line]

/-- A margin is moved away. -/
theorem IsMargin.flushLeft_append {g : List Char} (h : IsMargin g) (s : List Char) :
    flushLeft (g ++ s) = flushLeft s := by
  induction s using line_induction with
  | last l hl =>
    have line : '\n' ∉ g ++ l := by simp [h.line, hl]
    rw [flushLeft_of_newline_not_mem line, flushLeft_of_newline_not_mem hl,
      trimStart_append_of_allBlank h.blank]
  | line l s hl _ =>
    have line : '\n' ∉ g ++ l := by simp [h.line, hl]
    rw [← List.append_assoc, flushLeft_append_newline, flushLeft_append_newline,
      flushLeft_of_newline_not_mem line, flushLeft_of_newline_not_mem hl,
      trimStart_append_of_allBlank h.blank]

/-- Texts that differ in the margin of their first line at most. -/
def Shifted (x x' : List Char) : Prop :=
  ∃ g g' s, IsMargin g ∧ IsMargin g' ∧ x = g ++ s ∧ x' = g' ++ s

namespace Shifted

variable {x x' : List Char}

theorem refl (x : List Char) : Shifted x x := ⟨[], [], x, isMargin_nil, isMargin_nil, rfl, rfl⟩

theorem append (h : Shifted x x') (t : List Char) : Shifted (x ++ t) (x' ++ t) := by
  obtain ⟨g, g', s, hg, hg', rfl, rfl⟩ := h
  exact ⟨g, g', s ++ t, hg, hg', List.append_assoc .., List.append_assoc ..⟩

theorem indent (h : Shifted x x') {g g' : List Char} (hg : IsMargin g) (hg' : IsMargin g') :
    Shifted (g ++ x) (g' ++ x') := by
  obtain ⟨f, f', s, hf, hf', rfl, rfl⟩ := h
  exact ⟨g ++ f, g' ++ f', s, hg.append hf, hg'.append hf', by simp, by simp⟩

theorem flushLeft_eq (h : Shifted x x') : flushLeft x = flushLeft x' := by
  obtain ⟨g, g', s, hg, hg', rfl, rfl⟩ := h
  rw [hg.flushLeft_append, hg'.flushLeft_append]

end Shifted

theorem flushLeft_unlines_congr {ls ls' : List (List Char)} (h : List.Forall₂ Shifted ls ls') :
    flushLeft (unlines ls) = flushLeft (unlines ls') := by
  induction h with
  | nil => rfl
  | @cons l l' ls ls' hl hls ih =>
    cases hls with
    | nil => exact hl.flushLeft_eq
    | cons =>
      rw [unlines_cons_of_ne_nil l (by simp), unlines_cons_of_ne_nil l' (by simp),
        flushLeft_append_newline, flushLeft_append_newline, hl.flushLeft_eq, ih]

end RazorLayout.Text

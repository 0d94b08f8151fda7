import Mathlib.Data.List.Forall2
import RazorLayout.Proofs.Layout.Ink
import RazorLayout.Proofs.Layout.Page

/-!
# The lines of embedded code, written again

A body of embedded code is written as its trimmed lines, each moved right by some blanks. Which
blanks these are depends on the way the body becomes lines, but all ways look at the trimmed lines
alone, except for the fallback, which keeps the margins that the lines have behind the narrowest
one. So when the written lines are set in by one unit and read as a body again, they become the
same lines: the indenter accepts and refuses what it did before, and the fallback takes away the
unit that was put in front.

## Main definitions

* `dropEdges`: a list without the entries of one kind at both ends
* `Indented`: a line moved right
* `setIn`: a line of a body as it is written, one unit to the right

## Main results

* `indent_eq_ok_iff`: the indenter looks at the trimmed lines alone
* `forall₂_indented_snippetLines`: the lines of a body are its trimmed lines, moved right
* `snippetLines_of_setIn`: the written lines of a body become the same lines again
-/

namespace RazorLayout.Layout

open Text Template

/-! ### Both ends of a list -/

section Edges

variable {α β : Type} {p : α → Bool}

/-- The list without the entries at both ends that satisfy `p`. -/
def dropEdges (p : α → Bool) (l : List α) : List α :=
  ((l.dropWhile p).reverse.dropWhile p).reverse

/-- The first and the last entry do not satisfy `p`. -/
structure Framed (p : α → Bool) (l : List α) : Prop where
  head : ∀ a, l.head? = some a → p a = false
  last : ∀ a, l.getLast? = some a → p a = false

theorem dropEdges_parts (p : α → Bool) (l : List α) :
    ∃ g g', (∀ a ∈ g, p a = true) ∧ (∀ a ∈ g', p a = true) ∧ l = g ++ dropEdges p l ++ g' := by
  refine ⟨l.takeWhile p, (l.dropWhile p).rtakeWhile p, fun a => List.mem_takeWhile_imp,
    fun a => List.mem_rtakeWhile_imp, ?_⟩
  have behind : dropEdges p l ++ (l.dropWhile p).rtakeWhile p = l.dropWhile p :=
    List.rdropWhile_append_rtakeWhile
  rw [List.append_assoc, behind, List.takeWhile_append_dropWhile]

theorem mem_of_mem_dropEdges {l : List α} {a : α} (h : a ∈ dropEdges p l) : a ∈ l := by
  obtain ⟨g, g', -, -, hparts⟩ := dropEdges_parts p l
  rw [hparts]
  simp [h]

theorem Framed.stop {l : List α} (hl : Framed p l) : l.rdropWhile p = l :=
  List.rdropWhile_eq_self_iff.2 fun h => by simp [hl.last _ (List.getLast?_eq_some_getLast h)]

theorem framed_dropEdges (p : α → Bool) (l : List α) : Framed p (dropEdges p l) where
  head a ha := by
    -- the first entry that is kept in front is kept behind as well
    obtain ⟨behind, hbehind⟩ : dropEdges p l <+: l.dropWhile p := List.rdropWhile_prefix p _
    have first : (l.dropWhile p).head? = some a := by rw [← hbehind, List.head?_append, ha]; rfl
    have := List.head?_dropWhile_not p l
    rw [first] at this
    simpa using this
  last a ha := by
    have hne : dropEdges p l ≠ [] := fun h => by simp [h] at ha
    obtain rfl : (dropEdges p l).getLast hne = a := by
      rw [List.getLast?_eq_some_getLast hne] at ha
      exact Option.some.inj ha
    exact Bool.eq_false_iff.2 (List.rdropWhile_last_not p (l.dropWhile p) hne)

theorem Framed.dropEdges_append {l : List α} (hl : Framed p l) {g g' : List α}
    (hg : ∀ a ∈ g, p a = true) (hg' : ∀ a ∈ g', p a = true) :
    dropEdges p (g ++ l ++ g') = l := by
  rw [dropEdges, List.append_assoc, List.dropWhile_append_of_pos hg]
  cases l with
  | nil =>
    rw [List.nil_append, List.dropWhile_eq_nil_iff.2 hg']
    rfl
  | cons a l =>
    rw [List.cons_append, List.dropWhile_cons_of_neg (by simp [hl.head a rfl]), ← List.cons_append,
      List.reverse_append, List.dropWhile_append_of_pos fun c hc => hg' c (List.mem_reverse.1 hc)]
    have kept : ((a :: l).reverse.dropWhile p).reverse = (a :: l) := hl.stop
    exact kept

theorem Framed.dropEdges_eq {l : List α} (hl : Framed p l) : dropEdges p l = l := by
  simpa using @dropEdges_append α p l hl [] [] (by simp) (by simp)

theorem Framed.map {q : β → Bool} {f : α → β} {l : List α} (hl : Framed p l)
    (hf : ∀ a ∈ l, q (f a) = p a) : Framed q (l.map f) where
  head b hb := by
    rw [List.head?_map, Option.map_eq_some_iff] at hb
    obtain ⟨a, ha, rfl⟩ := hb
    rw [hf a (List.mem_of_mem_head? ha), hl.head a ha]
  last b hb := by
    rw [List.getLast?_map, Option.map_eq_some_iff] at hb
    obtain ⟨a, ha, rfl⟩ := hb
    rw [hf a (List.mem_of_getLast? ha), hl.last a ha]

theorem Framed.of_map {q : β → Bool} {f : α → β} {l : List α} (hl : Framed q (l.map f))
    (hf : ∀ a, q (f a) = p a) : Framed p l where
  head a ha := by rw [← hf, hl.head (f a) (by rw [List.head?_map, ha]; rfl)]
  last a ha := by rw [← hf, hl.last (f a) (by rw [List.getLast?_map, ha]; rfl)]

theorem dropEdges_map {q : β → Bool} {f : α → β} (hf : ∀ a, q (f a) = p a) (l : List α) :
    dropEdges q (l.map f) = (dropEdges p l).map f := by
  obtain ⟨g, g', hg, hg', hparts⟩ := dropEdges_parts p l
  conv_lhs => rw [hparts, List.map_append, List.map_append]
  refine ((framed_dropEdges p l).map fun a _ => hf a).dropEdges_append ?_ ?_
  · simpa [hf] using hg
  · simpa [hf] using hg'

end Edges

theorem framed_stripBlankEdges (ls : List (List Char)) : Framed allBlank (stripBlankEdges ls) :=
  framed_dropEdges allBlank ls

theorem trimmedLines_eq (body : List Char) :
    trimmedLines body = (stripBlankEdges (lines body)).map trim :=
  dropEdges_map allBlank_trim (lines body)

/-! ### What the indenter looks at -/

/-- The lines that the indenter accepts with `depth` open brackets and the state `st` before them,
and the same lines at their places. -/
inductive PlacedLines (lang : Code.Language) (unit : List Char) :
    Nat → Code.ScanState → List (List Char) → List (List Char) → Prop
  | nil : PlacedLines lang unit 0 {} [] []
  | cons {depth d : Nat} {st after : Code.ScanState} {raw code : List Char}
      {rest placed : List (List Char)} :
      st.quote = none → Code.codeChars lang st (trim raw) = (code, after) →
      Code.depthAfter depth code = .ok d → after.quote ≠ some .single →
      after.quote ≠ some .double → PlacedLines lang unit d after rest placed →
      PlacedLines lang unit depth st (raw :: rest)
        (Code.placeLine unit depth st.inBlockComment (trim raw) :: placed)

section Indent

variable {lang : Code.Language} {unit : List Char} {depth : Nat} {st : Code.ScanState}
  {ls placed : List (List Char)}

theorem indentLines_eq_ok_iff {n : Nat} :
    Code.indentLines lang unit n depth st ls = .ok placed
      ↔ PlacedLines lang unit depth st ls placed := by
  constructor
  · intro h
    fun_induction Code.indentLines lang unit n depth st ls generalizing placed with
    -- the indenter refuses the lines in all cases but two
    | case1 | case2 | case4 | case5 | case6 | case7 => simp at h
    | case3 n depth st hdepth hopen =>
      obtain rfl : depth = 0 := by simpa using hdepth
      obtain ⟨quote, block⟩ := st
      obtain ⟨rfl, rfl⟩ : quote = none ∧ block = false := by
        simpa [Code.ScanState.isOpen] using hopen
      obtain rfl := Except.ok.inj h
      exact .nil
    | case8 n depth st raw rest hquote trimmed code after hchars d hdepth hends placed' hrest =>
      rename_i ih
      obtain rfl := Except.ok.inj h
      simp only [Bool.or_eq_true, decide_eq_true_eq, not_or] at hends
      exact .cons (by simpa using hquote) hchars hdepth hends.1 hends.2 (ih hrest)
  · intro h
    induction h generalizing n with
    | nil => rfl
    | cons hquote hchars hdepth hsingle hdouble _ ih =>
      simp [Code.indentLines, hquote, hchars, hdepth, hsingle, hdouble, ih]

theorem placedLines_map_trim :
    PlacedLines lang unit depth st (ls.map trim) placed
      ↔ PlacedLines lang unit depth st ls placed := by
  constructor
  · intro h
    induction ls generalizing depth st placed with
    | nil => exact h
    | cons raw rest ih =>
      cases h with
      | cons hquote hchars hdepth hsingle hdouble hrest =>
        rw [trim_trim] at hchars ⊢
        exact .cons hquote hchars hdepth hsingle hdouble (ih hrest)
  · intro h
    induction h with
    | nil => exact .nil
    | @cons depth d st after raw code rest placed hquote hchars hdepth hsingle hdouble _ ih =>
      rw [← trim_trim raw] at hchars ⊢
      exact .cons hquote hchars hdepth hsingle hdouble ih

/-- A blank line is passed over where no literal is open, and stays empty. -/
theorem placedLines_cons_of_blank {l : List Char} (hl : allBlank l = true) :
    PlacedLines lang unit depth st (l :: ls) placed
      ↔ st.quote = none ∧ ∃ placed', placed = [] :: placed' ∧
        PlacedLines lang unit depth st ls placed' := by
  have empty : trim l = [] := trim_eq_nil_iff.2 hl
  constructor
  · intro h
    cases h with
    | cons hquote hchars hdepth _ _ hrest =>
      rw [empty] at hchars ⊢
      obtain ⟨rfl, rfl⟩ := Prod.mk.inj hchars
      obtain rfl := Except.ok.inj hdepth
      exact ⟨hquote, _, rfl, hrest⟩
  · rintro ⟨hquote, placed', rfl, hrest⟩
    have line : Code.placeLine unit depth st.inBlockComment (trim l) = [] := by
      rw [empty]
      rfl
    rw [← line]
    exact .cons hquote (by rw [empty]; rfl) rfl (by simp [hquote]) (by simp [hquote]) hrest

theorem placedLines_blank_append {g : List (List Char)} (hg : ∀ l ∈ g, allBlank l = true) :
    PlacedLines lang unit 0 {} (g ++ ls) placed
      ↔ ∃ placed', placed = g.map (fun _ => []) ++ placed' ∧
        PlacedLines lang unit 0 {} ls placed' := by
  induction g generalizing placed with
  | nil => simp
  | cons l g ih =>
    have hrest : ∀ l' ∈ g, allBlank l' = true := fun l' hl' => hg l' (List.mem_cons_of_mem l hl')
    rw [List.cons_append, placedLines_cons_of_blank (hg l List.mem_cons_self)]
    constructor
    · rintro ⟨-, placed', rfl, h⟩
      obtain ⟨behind, rfl, hbehind⟩ := (ih hrest).1 h
      exact ⟨behind, rfl, hbehind⟩
    · rintro ⟨placed', rfl, h⟩
      exact ⟨rfl, _, rfl, (ih hrest).2 ⟨placed', rfl, h⟩⟩

theorem placedLines_of_blank {g : List (List Char)} (hg : ∀ l ∈ g, allBlank l = true) :
    PlacedLines lang unit depth st g placed
      ↔ placed = g.map (fun _ => []) ∧ PlacedLines lang unit depth st [] [] := by
  induction g generalizing placed with
  | nil =>
    constructor
    · intro h
      cases h
      exact ⟨rfl, .nil⟩
    · rintro ⟨rfl, h⟩
      exact h
  | cons l g ih =>
    have hrest : ∀ l' ∈ g, allBlank l' = true := fun l' hl' => hg l' (List.mem_cons_of_mem l hl')
    rw [placedLines_cons_of_blank (hg l List.mem_cons_self)]
    constructor
    · rintro ⟨-, placed', rfl, h⟩
      obtain ⟨rfl, hnil⟩ := (ih hrest).1 h
      exact ⟨rfl, hnil⟩
    · rintro ⟨rfl, hnil⟩
      have hquote : st.quote = none := by
        cases hnil
        rfl
      exact ⟨hquote, _, rfl, (ih hrest).2 ⟨rfl, hnil⟩⟩

theorem placedLines_append_blank {g : List (List Char)} (hg : ∀ l ∈ g, allBlank l = true) :
    PlacedLines lang unit depth st (ls ++ g) placed
      ↔ ∃ placed', placed = placed' ++ g.map (fun _ => []) ∧
        PlacedLines lang unit depth st ls placed' := by
  constructor
  · intro h
    induction ls generalizing depth st placed with
    | nil =>
      -- blank lines are accepted where the body may end
      obtain ⟨rfl, hnil⟩ := (placedLines_of_blank hg).1 h
      exact ⟨[], rfl, hnil⟩
    | cons raw rest ih =>
      cases h with
      | cons hquote hchars hdepth hsingle hdouble hrest =>
        obtain ⟨placed', rfl, hplaced⟩ := ih hrest
        exact ⟨_, rfl, .cons hquote hchars hdepth hsingle hdouble hplaced⟩
  · rintro ⟨placed', rfl, h⟩
    induction h with
    | nil => exact (placedLines_of_blank hg).2 ⟨rfl, .nil⟩
    | cons hquote hchars hdepth hsingle hdouble _ ih =>
      exact .cons hquote hchars hdepth hsingle hdouble ih

end Indent

/-! ### Lines moved right -/

/-- The line `x` is the line `l` behind some blanks; an empty line stays empty. -/
def Indented (l x : List Char) : Prop :=
  ∃ g, allBlank g = true ∧ '\n' ∉ g ∧ x = g ++ l ∧ (l = [] → g = [])

/-- A line of a body as it is written, one unit to the right. -/
def setIn (unit l : List Char) : List Char := if l.isEmpty then [] else unit ++ l

@[simp] theorem setIn_nil (unit : List Char) : setIn unit [] = [] := rfl

theorem Indented.refl (l : List Char) : Indented l l := ⟨[], rfl, by simp, rfl, fun _ => rfl⟩

namespace Indented

variable {l x : List Char}

theorem trim_eq (h : Indented l x) : trim x = trim l := by
  obtain ⟨g, hg, -, rfl, -⟩ := h
  simpa using trim_blank_append_blank hg l allBlank_nil

theorem eq_nil_or_tidyLine (h : Indented l x) (hl : trim l = l) (hn : '\n' ∉ l) :
    x = [] ∨ TidyLine x := by
  obtain ⟨g, hg, hline, rfl, hempty⟩ := h
  by_cases hne : l = []
  · exact .inl (by simp [hne, hempty hne])
  · have ink : allBlank l = false := by
      rw [Bool.eq_false_iff]
      exact fun h => hne (hl ▸ trim_eq_nil_iff.2 h)
    exact .inr (TidyLine.append hline ⟨hl ▸ endsWithInk_trim ink, hn⟩)

theorem setIn (h : Indented l x) {unit : List Char} (hunit : allBlank unit = true)
    (hn : '\n' ∉ unit) : Indented l (setIn unit x) := by
  obtain ⟨g, hg, hline, rfl, hempty⟩ := h
  unfold Layout.setIn
  split
  · rename_i hnil
    rw [List.isEmpty_iff, List.append_eq_nil_iff] at hnil
    exact hnil.2 ▸ Indented.refl []
  · rename_i hne
    refine ⟨unit ++ g, by simp [hunit, hg], by simp [hn, hline], by simp, fun hl => ?_⟩
    simp [hl, hempty hl] at hne

end Indented

theorem indented_placeLine {unit : List Char} (hunit : allBlank unit = true) (hn : '\n' ∉ unit)
    (depth : Nat) (inComment : Bool) (l : List Char) :
    Indented l (Code.placeLine unit depth inComment l) := by
  have blank (level : Nat) := Buffer.allBlank_indentation hunit level
  have line (level : Nat) := Buffer.newline_not_mem_indentation hn level
  unfold Code.placeLine
  split
  · rename_i h
    rw [List.isEmpty_iff.1 h]
    exact .refl []
  · rename_i hne
    have full {g : List Char} : l = [] → g = [] := fun h => absurd (List.isEmpty_iff.2 h) hne
    split
    · refine ⟨_, ?_, ?_, rfl, full⟩
      · rw [allBlank_append, blank]
        split <;> rfl
      · rw [List.mem_append]
        rintro (h | h)
        · exact line depth h
        · split at h <;> simp at h
    · exact ⟨_, blank _, line _, rfl, full⟩

theorem PlacedLines.indented {lang : Code.Language} {unit : List Char}
    (hunit : allBlank unit = true) (hn : '\n' ∉ unit) {depth : Nat} {st : Code.ScanState}
    {ls placed : List (List Char)} (h : PlacedLines lang unit depth st ls placed) :
    List.Forall₂ Indented (ls.map trim) placed := by
  induction h with
  | nil => exact .nil
  | cons _ _ _ _ _ _ ih => exact .cons (indented_placeLine hunit hn _ _ _) ih

/-- The lines of a body as they are written: tidy or empty, and with ink in the first and the
last. -/
structure LaidOut (ls : List (List Char)) : Prop where
  lines : ∀ l ∈ ls, l = [] ∨ TidyLine l
  framed : Framed allBlank ls

namespace LaidOut

variable {ls : List (List Char)}

theorem newline_not_mem (h : LaidOut ls) {l : List Char} (hl : l ∈ ls) : '\n' ∉ l := by
  rcases h.lines l hl with rfl | htidy
  · simp
  · exact htidy.one_line

theorem trimEnd_eq (h : LaidOut ls) {l : List Char} (hl : l ∈ ls) : trimEnd l = l := by
  rcases h.lines l hl with rfl | htidy
  · rfl
  · exact htidy.ink.trimEnd_eq

theorem map_trimEnd (h : LaidOut ls) : ls.map trimEnd = ls := by
  conv_rhs => rw [← List.map_id ls]
  exact List.map_congr_left fun l hl => h.trimEnd_eq hl

theorem getLast?_ne_carriageReturn (h : LaidOut ls) {l : List Char} (hl : l ∈ ls) :
    l.getLast? ≠ some '\r' := by
  rcases h.lines l hl with rfl | htidy
  · simp
  · obtain ⟨u, c, rfl, hc⟩ := htidy.ink
    rw [List.getLast?_concat]
    rintro ⟨⟩
    simp [isBlank] at hc

theorem framed_isEmpty (h : LaidOut ls) : Framed List.isEmpty ls where
  head l hl := by
    have := h.framed.head l hl
    cases l with
    | nil => simp at this
    | cons c l => rfl
  last l hl := by
    have := h.framed.last l hl
    cases l with
    | nil => simp at this
    | cons c l => rfl

theorem lines_flatMap (h : LaidOut ls) : Text.lines (ls.flatMap (· ++ ['\n'])) = ls := by
  simpa using lines_flatMap_append (fun l hl => h.newline_not_mem hl)
    (fun l hl => h.getLast?_ne_carriageReturn hl) []

theorem endsWithInk_of_getLast? (h : LaidOut ls) {l : List Char} (hl : ls.getLast? = some l) :
    EndsWithInk l := by
  rcases h.lines l (List.mem_of_getLast? hl) with rfl | htidy
  · simpa using h.framed.last [] hl
  · exact htidy.ink

theorem lines_unlines (h : LaidOut ls) : Text.lines (unlines ls) = ls := by
  rcases List.eq_nil_or_concat ls with rfl | ⟨init, l, rfl⟩
  · rfl
  · simp only [List.concat_eq_append] at h ⊢
    obtain ⟨u, c, hl, -⟩ := h.endsWithInk_of_getLast? List.getLast?_concat
    rw [unlines_concat, lines_flatMap_append (fun l' hl' => h.newline_not_mem (by simp [hl']))
      (fun l' hl' => h.getLast?_ne_carriageReturn (by simp [hl'])),
      lines_of_newline_not_mem (by simp [hl]) (h.newline_not_mem (by simp))]

section Head

variable {x : List Char} {rest : List (List Char)}

/-- The first line is a margin and its trimmed form. -/
theorem exists_margin (h : LaidOut (x :: rest)) :
    ∃ g, allBlank g = true ∧ x = g ++ trim x := by
  obtain ⟨g, g', hg, hg', hparts⟩ := trim_parts x
  have trimmed := h.trimEnd_eq (l := x) List.mem_cons_self
  rw [hparts, trimEnd_append_of_allBlank _ hg',
    ((endsWithInk_trim (h.framed.head x rfl)).append g).trimEnd_eq, ← hparts] at trimmed
  exact ⟨g, hg, trimmed.symm⟩

theorem trim_head (h : LaidOut (x :: rest)) : LaidOut (trim x :: rest) where
  lines l hl := by
    rcases List.mem_cons.1 hl with rfl | hl
    · exact .inr ⟨endsWithInk_trim (h.framed.head x rfl), fun hn =>
        h.newline_not_mem List.mem_cons_self (mem_of_mem_trim hn)⟩
    · exact h.lines l (List.mem_cons_of_mem x hl)
  framed := by
    have framed := h.framed.map (q := allBlank) (f := trim) fun l _ => allBlank_trim l
    have same : (x :: rest).map trim = (trim x :: rest).map trim := by simp [trim_trim]
    rw [same] at framed
    exact framed.of_map allBlank_trim

/-- Lines that begin without a margin are trimmed. -/
theorem trim_unlines (h : LaidOut (x :: rest)) (hx : trim x = x) :
    trim (unlines (x :: rest)) = unlines (x :: rest) := by
  have hne : x ≠ [] := by
    rintro rfl
    simpa using h.framed.head [] rfl
  obtain ⟨c, y, rfl⟩ := List.exists_cons_of_ne_nil hne
  obtain ⟨s, hs⟩ : ∃ s, unlines ((c :: y) :: rest) = c :: s := by
    cases rest <;> exact ⟨_, rfl⟩
  have last := List.getLast?_eq_some_getLast (List.cons_ne_nil (c :: y) rest)
  have ink := endsWithInk_unlines last (h.endsWithInk_of_getLast? last)
  rw [hs] at ink ⊢
  exact trim_of_edges (isBlank_head_of_trim hx) ink

end Head

/-- Lines with blanks around them lose the margin of the first line when they are trimmed. -/
theorem lines_trim (h : LaidOut ls) :
    Text.lines (trim ('\n' :: ls.flatMap (· ++ ['\n']))) = ls.modifyHead trim := by
  cases ls with
  | nil => rfl
  | cons x rest =>
    obtain ⟨g, hg, hx⟩ := h.exists_margin
    have blank : allBlank ('\n' :: g) = true := by
      rw [allBlank_cons, hg]
      decide
    have written : '\n' :: (x :: rest).flatMap (· ++ ['\n'])
        = '\n' :: g ++ unlines (trim x :: rest) ++ ['\n'] := by
      rw [List.append_assoc, unlines_append_newline (by simp), List.flatMap_cons, List.flatMap_cons]
      conv_lhs => rw [hx]
      simp
    rw [written, trim_blank_append_blank blank _ (by decide),
      h.trim_head.trim_unlines (trim_trim x), h.trim_head.lines_unlines, List.modifyHead_cons]

end LaidOut

/-! ### The lines of a body -/

theorem of_mem_trimmedLines {body l : List Char} (hl : l ∈ trimmedLines body) :
    trim l = l ∧ '\n' ∉ l := by
  rw [trimmedLines_eq, List.mem_map] at hl
  obtain ⟨raw, hraw, rfl⟩ := hl
  exact ⟨trim_trim raw, fun h =>
    newline_not_mem_of_mem_lines (mem_of_mem_dropEdges hraw) (mem_of_mem_trim h)⟩

section Body

variable {body : List Char} {ls : List (List Char)}

theorem map_trim_of_indented (h : List.Forall₂ Indented (trimmedLines body) ls) :
    ls.map trim = trimmedLines body := by
  have trimmed : ∀ l ∈ trimmedLines body, trim l = l := fun l hl => (of_mem_trimmedLines hl).1
  generalize trimmedLines body = ts at h trimmed
  induction h with
  | nil => rfl
  | cons hl _ ih =>
    rw [List.map_cons, hl.trim_eq, trimmed _ List.mem_cons_self,
      ih fun l' hl' => trimmed l' (List.mem_cons_of_mem _ hl')]

theorem tidyLine_of_indented (h : List.Forall₂ Indented (trimmedLines body) ls) :
    ∀ l ∈ ls, l = [] ∨ TidyLine l := by
  have trimmed : ∀ l ∈ trimmedLines body, trim l = l ∧ '\n' ∉ l := fun l => of_mem_trimmedLines
  generalize trimmedLines body = ts at h trimmed
  induction h with
  | nil => simp
  | cons hl _ ih =>
    obtain ⟨htrim, hn⟩ := trimmed _ List.mem_cons_self
    exact List.forall_mem_cons.2 ⟨hl.eq_nil_or_tidyLine htrim hn,
      ih fun l' hl' => trimmed l' (List.mem_cons_of_mem _ hl')⟩

theorem laidOut_of_indented (h : List.Forall₂ Indented (trimmedLines body) ls) : LaidOut ls where
  lines := tidyLine_of_indented h
  framed := by
    have framed : Framed allBlank (ls.map trim) := by
      rw [map_trim_of_indented h]
      exact framed_stripBlankEdges _
    exact framed.of_map allBlank_trim

theorem PlacedLines.of_trimmedLines {lang : Code.Language} {unit : List Char}
    (hunit : allBlank unit = true) (hn : '\n' ∉ unit)
    (h : PlacedLines lang unit 0 {} (trimmedLines body) ls) :
    List.Forall₂ Indented (trimmedLines body) ls := by
  have same : (trimmedLines body).map trim = trimmedLines body := by
    rw [trimmedLines_eq]
    simp [trim_trim]
  rw [← same]
  exact h.indented hunit hn

/-- Blank lines at both ends of a body are passed over and left out. -/
theorem placedLines_lines {lang : Code.Language} {unit : List Char} (hunit : allBlank unit = true)
    (hn : '\n' ∉ unit) {s : List Char} :
    (∃ placed, PlacedLines lang unit 0 {} (lines body) placed ∧
        s = unlines (Code.stripEmptyEdges placed))
      ↔ ∃ placed, PlacedLines lang unit 0 {} (trimmedLines body) placed ∧ s = unlines placed := by
  obtain ⟨g, g', hg, hg', hparts⟩ := dropEdges_parts allBlank (lines body)
  have trimmed {placed : List (List Char)} :
      PlacedLines lang unit 0 {} (dropEdges allBlank (lines body)) placed
        ↔ PlacedLines lang unit 0 {} (trimmedLines body) placed := by
    rw [trimmedLines_eq, placedLines_map_trim]
    rfl
  have stripped {placed : List (List Char)}
      (h : PlacedLines lang unit 0 {} (trimmedLines body) placed) :
      Code.stripEmptyEdges (g.map (fun _ => []) ++ (placed ++ g'.map (fun _ => []))) = placed := by
    have laid := laidOut_of_indented (h.of_trimmedLines hunit hn)
    rw [← List.append_assoc]
    exact laid.framed_isEmpty.dropEdges_append (by simp) (by simp)
  rw [hparts, List.append_assoc]
  constructor
  · rintro ⟨_, hlines, rfl⟩
    obtain ⟨_, rfl, hfront⟩ := (placedLines_blank_append hg).1 hlines
    obtain ⟨placed, rfl, h⟩ := (placedLines_append_blank hg').1 hfront
    rw [trimmed] at h
    exact ⟨placed, h, by rw [stripped h]⟩
  · rintro ⟨placed, h, rfl⟩
    refine ⟨_, (placedLines_blank_append hg).2 ⟨_, rfl, ?_⟩, by rw [stripped h]⟩
    exact (placedLines_append_blank hg').2 ⟨placed, rfl, trimmed.2 h⟩

/-- The indenter looks at the trimmed lines alone. -/
theorem indent_eq_ok_iff (style : Code.Style) {s : List Char} :
    Code.indent style body = .ok s
      ↔ ∃ placed, PlacedLines style.language (Code.indentUnit style.useTabs style.indentWidth) 0 {}
        (trimmedLines body) placed ∧ s = unlines placed := by
  rw [← placedLines_lines (allBlank_indentUnit _ _) (newline_not_mem_indentUnit _ _)]
  simp only [Code.indent, ← indentLines_eq_ok_iff (n := 1)]
  cases Code.indentLines style.language (Code.indentUnit style.useTabs style.indentWidth) 1 0 {}
      (lines body) with
  | error e => simp [Except.map]
  | ok placed => simp [Except.map, eq_comm]

end Body

/-! ### Lines as written, moved left -/

/-- A line that is moved left keeps the rest of its margin. -/
theorem shiftLine_eq {n : Nat} {l : List Char} (hink : allBlank l = false)
    (hn : n ≤ countWhile isBlank l) :
    shiftLine n l = (l.takeWhile isBlank).drop n ++ trim l := by
  have behind : trim l ++ (trimStart l).rtakeWhile isBlank = trimStart l :=
    List.rdropWhile_append_rtakeWhile
  have whole : l = l.takeWhile isBlank ++ (trim l ++ (trimStart l).rtakeWhile isBlank) := by
    rw [behind, trimStart, List.takeWhile_append_dropWhile]
  have blank : allBlank ((trimStart l).rtakeWhile isBlank) = true :=
    allBlank_iff.2 fun c hc => List.mem_rtakeWhile_imp hc
  rw [shiftLine, if_neg (by simp [hink])]
  conv_lhs => rw [whole]
  rw [List.drop_append_of_le_length hn, ← List.append_assoc, trimEnd_append_of_allBlank _ blank]
  exact ((endsWithInk_trim hink).append _).trimEnd_eq

theorem shiftLine_of_blank {n : Nat} {l : List Char} (h : allBlank l = true) :
    shiftLine n l = [] :=
  if_pos h

theorem indented_shiftLine {n : Nat} {l : List Char} (hline : '\n' ∉ l)
    (hn : allBlank l = false → n ≤ countWhile isBlank l) : Indented (trim l) (shiftLine n l) := by
  cases hink : allBlank l with
  | true =>
    rw [shiftLine_of_blank hink, trim_eq_nil_iff.2 hink]
    exact .refl []
  | false =>
    rw [shiftLine_eq hink (hn hink)]
    refine ⟨_, ?_, fun h => ?_, rfl, fun h => ?_⟩
    · rw [allBlank_iff]
      exact fun c hc => List.mem_takeWhile_imp (List.mem_of_mem_drop hc)
    · exact hline ((List.takeWhile_prefix isBlank).subset (List.mem_of_mem_drop h))
    · simp [trim_eq_nil_iff.1 h] at hink

theorem indented_shiftedLines (body : List Char) :
    List.Forall₂ Indented (trimmedLines body) (shiftedLines body) := by
  have hlines : ∀ l ∈ stripBlankEdges (lines body), '\n' ∉ l :=
    fun l hl => newline_not_mem_of_mem_lines (mem_of_mem_dropEdges hl)
  rw [trimmedLines_eq, shiftedLines]
  cases h : stripBlankEdges (lines body) with
  | nil => exact .nil
  | cons first rest =>
    -- the first line is trimmed, whatever the margin of the others
    refine .cons (.refl _) ?_
    rw [List.forall₂_map_left_iff, List.forall₂_map_right_iff, List.forall₂_same]
    intro l hl
    exact indented_shiftLine (hlines l (by rw [h]; simp [hl])) (commonMargin_le hl)

theorem takeWhile_blank_append_trim {g : List Char} (hg : allBlank g = true) (l : List Char) :
    (g ++ trim l).takeWhile isBlank = g := by
  have none : (trim l).takeWhile isBlank = [] := by
    have parts := List.takeWhile_append_dropWhile (p := isBlank) (l := trim l)
    rw [show (trim l).dropWhile isBlank = trim l from trimStart_trim l] at parts
    exact List.append_left_eq_self.1 parts
  rw [List.takeWhile_append_of_pos (allBlank_iff.1 hg), none, List.append_nil]

/-- The common margin is the margin of a line with ink, if there is one. -/
theorem exists_commonMargin {ls : List (List Char)} (h : ∃ l ∈ ls, allBlank l = false) :
    ∃ l ∈ ls, allBlank l = false ∧ countWhile isBlank l = commonMargin ls := by
  obtain ⟨l₀, hl₀, hink₀⟩ := h
  have hne : (ls.filter fun l => !allBlank l).map (countWhile isBlank) ≠ [] :=
    List.ne_nil_of_mem (List.mem_map_of_mem (List.mem_filter.2 ⟨hl₀, by simp [hink₀]⟩))
  obtain ⟨m, hm⟩ := Option.isSome_iff_exists.1 (List.isSome_min?_of_ne_nil hne)
  obtain ⟨l, hl, rfl⟩ := List.mem_map.1 (List.min?_mem hm)
  rw [List.mem_filter] at hl
  exact ⟨l, hl.1, by simpa using hl.2, by simp [commonMargin, hm]⟩

/-- A line that is moved left and set in can be moved left again by the unit it was set in by. -/
theorem shiftLine_setIn {unit : List Char} (hunit : allBlank unit = true) {n : Nat} {l : List Char}
    (hink : allBlank l = false) (hn : n ≤ countWhile isBlank l) :
    let x := setIn unit (shiftLine n l)
    allBlank x = false ∧ countWhile isBlank x = unit.length + (countWhile isBlank l - n) ∧
      shiftLine unit.length x = shiftLine n l := by
  have hne : trim l ≠ [] := fun h => by simp [trim_eq_nil_iff.1 h] at hink
  have line : setIn unit (shiftLine n l) = unit ++ (l.takeWhile isBlank).drop n ++ trim l := by
    rw [shiftLine_eq hink hn, setIn, if_neg (by simp [hne]), List.append_assoc]
  have blank : allBlank (unit ++ (l.takeWhile isBlank).drop n) = true := by
    rw [allBlank_append, hunit, Bool.true_and, allBlank_iff]
    exact fun c hc => List.mem_takeWhile_imp (List.mem_of_mem_drop hc)
  have margin := takeWhile_blank_append_trim blank l
  have core : trim (unit ++ (l.takeWhile isBlank).drop n ++ trim l) = trim l := by
    simpa [trim_trim] using trim_blank_append_blank blank (trim l) allBlank_nil
  have ink : allBlank (unit ++ (l.takeWhile isBlank).drop n ++ trim l) = false := by
    rw [allBlank_append, allBlank_trim, hink, Bool.and_false]
  have count : countWhile isBlank (unit ++ (l.takeWhile isBlank).drop n ++ trim l)
      = unit.length + (countWhile isBlank l - n) := by
    rw [countWhile, margin, List.length_append, List.length_drop]
    rfl
  rw [line]
  refine ⟨ink, count, ?_⟩
  rw [shiftLine_eq ink (by omega), margin, List.drop_left, core, shiftLine_eq hink hn]

/-- The narrowest of the lines that are moved left and set in again starts behind the unit. -/
theorem commonMargin_setIn {unit : List Char} (hunit : allBlank unit = true)
    {ls : List (List Char)} (h : ∃ l ∈ ls, allBlank l = false) :
    commonMargin (ls.map fun l => setIn unit (shiftLine (commonMargin ls) l)) = unit.length := by
  obtain ⟨l₁, hl₁, hink₁, hmargin₁⟩ := exists_commonMargin h
  obtain ⟨hink, hmargin, -⟩ := shiftLine_setIn hunit hink₁ (commonMargin_le hl₁ hink₁)
  have hmem : setIn unit (shiftLine (commonMargin ls) l₁)
      ∈ ls.map fun l => setIn unit (shiftLine (commonMargin ls) l) := List.mem_map_of_mem hl₁
  apply Nat.le_antisymm
  -- the narrowest line has lost its margin, and no line has lost more than its own
  · have := commonMargin_le hmem hink
    omega
  · obtain ⟨x, hx, hinkx, hmarginx⟩ := exists_commonMargin ⟨_, hmem, hink⟩
    obtain ⟨l, hl, rfl⟩ := List.mem_map.1 hx
    cases hblank : allBlank l with
    | true => simp [shiftLine_of_blank hblank] at hinkx
    | false =>
      obtain ⟨-, hmargin, -⟩ := shiftLine_setIn hunit hblank (commonMargin_le hl hblank)
      omega

/-- The fallback takes the unit away that its lines were set in by. -/
theorem shiftedLines_of_setIn {unit : List Char} (hunit : allBlank unit = true)
    (hline : '\n' ∉ unit) {body written : List Char}
    (h : (stripBlankEdges (lines written)).modifyHead trim
      = ((shiftedLines body).map (setIn unit)).modifyHead trim) :
    shiftedLines written = shiftedLines body := by
  cases hbody : stripBlankEdges (lines body) with
  | nil =>
    have empty : stripBlankEdges (lines written) = [] := by
      simpa [shiftedLines, hbody] using h
    simp [shiftedLines, hbody, empty]
  | cons first rest =>
    cases hwritten : stripBlankEdges (lines written) with
    | nil => simp [shiftedLines, hbody, hwritten] at h
    | cons first' rest' =>
      simp only [shiftedLines, hbody, hwritten, List.map_cons, List.modifyHead_cons,
        List.cons.injEq, List.map_map] at h ⊢
      obtain ⟨hfirst, rfl⟩ := h
      refine ⟨?_, ?_⟩
      · rw [hfirst, ((Indented.refl (trim first)).setIn hunit hline).trim_eq, trim_trim]
      -- the other lines have lost the common margin, and the unit is the common one now
      · rw [List.map_map]
        refine List.map_congr_left fun l hl => ?_
        cases hblank : allBlank l with
        | true =>
          simp only [Function.comp_apply, shiftLine_of_blank hblank, setIn_nil,
            shiftLine_of_blank allBlank_nil]
        | false =>
          obtain ⟨-, -, hback⟩ := shiftLine_setIn hunit hblank (commonMargin_le hl hblank)
          have margin := commonMargin_setIn hunit ⟨l, hl, hblank⟩
          simpa [Function.comp_def, margin] using hback

/-! ### All ways of becoming lines -/

section Snippet

variable {settings : Settings} {language : Code.Language} {body : List Char}
  {placed : List (List Char)}

theorem snippetLines_of_placed (hformats : settings.formats language = true)
    (h : PlacedLines language settings.indentUnit 0 {} (trimmedLines body) placed) :
    snippetLines settings Code.indent language body = placed := by
  have indented := h.of_trimmedLines (allBlank_indentUnit _ _) (newline_not_mem_indentUnit _ _)
  have laid := laidOut_of_indented indented
  rw [snippetLines, if_pos hformats,
    (indent_eq_ok_iff (settings.codeStyle language)).2 ⟨placed, h, rfl⟩]
  dsimp only
  rw [laid.lines_unlines, laid.map_trimEnd]
  exact laid.framed.dropEdges_eq

theorem snippetLines_of_refused (hformats : settings.formats language = true)
    (h : ∀ placed,
      ¬ PlacedLines language settings.indentUnit 0 {} (trimmedLines body) placed) :
    snippetLines settings Code.indent language body = shiftedLines body := by
  rw [snippetLines, if_pos hformats]
  split
  · rename_i hok
    obtain ⟨placed, hplaced, -⟩ := (indent_eq_ok_iff _).1 hok
    exact absurd hplaced (h placed)
  · rfl

theorem snippetLines_of_disabled (hformats : settings.formats language = false)
    (indenter : Indenter) (body : List Char) :
    snippetLines settings indenter language body = trimmedLines body := by
  simp [snippetLines, hformats]

/-- However a body becomes lines, they are its trimmed lines, moved right. -/
theorem forall₂_indented_snippetLines (settings : Settings) (language : Code.Language)
    (body : List Char) :
    List.Forall₂ Indented (trimmedLines body)
      (snippetLines settings Code.indent language body) := by
  cases hformats : settings.formats language with
  | false =>
    rw [snippetLines_of_disabled hformats, List.forall₂_same]
    exact fun l _ => .refl l
  | true =>
    by_cases h : ∃ placed,
        PlacedLines language settings.indentUnit 0 {} (trimmedLines body) placed
    · obtain ⟨placed, h⟩ := h
      rw [snippetLines_of_placed hformats h]
      exact h.of_trimmedLines (allBlank_indentUnit _ _) (newline_not_mem_indentUnit _ _)
    · rw [snippetLines_of_refused hformats fun placed hplaced => h ⟨placed, hplaced⟩]
      exact indented_shiftedLines body

/-- Lines that are set in are still the trimmed lines of the body, moved right. -/
theorem forall₂_indented_setIn (settings : Settings) (language : Code.Language)
    (body : List Char) :
    List.Forall₂ Indented (trimmedLines body)
      ((snippetLines settings Code.indent language body).map (setIn settings.indentUnit)) := by
  rw [List.forall₂_map_right_iff]
  exact (forall₂_indented_snippetLines settings language body).imp fun l x h =>
    h.setIn (allBlank_indentUnit _ _) (newline_not_mem_indentUnit _ _)

/-- The lines of a body, set in and read as a body again, are the same lines. How the first line
is set in does not matter. -/
theorem snippetLines_of_setIn {written : List Char}
    (h : (stripBlankEdges (lines written)).modifyHead trim
      = ((snippetLines settings Code.indent language body).map
          (setIn settings.indentUnit)).modifyHead trim) :
    snippetLines settings Code.indent language written
      = snippetLines settings Code.indent language body := by
  have trimHead (ls : List (List Char)) : (ls.modifyHead trim).map trim = ls.map trim := by
    cases ls <;> simp [trim_trim]
  have trimmed : trimmedLines written = trimmedLines body := by
    rw [trimmedLines_eq, ← trimHead, h, trimHead]
    exact map_trim_of_indented (forall₂_indented_setIn settings language body)
  cases hformats : settings.formats language with
  | false => rw [snippetLines_of_disabled hformats, snippetLines_of_disabled hformats, trimmed]
  | true =>
    -- the indenter accepts the one body exactly when it accepts the other
    by_cases hplaced : ∃ placed,
        PlacedLines language settings.indentUnit 0 {} (trimmedLines body) placed
    · obtain ⟨placed, hplaced⟩ := hplaced
      rw [snippetLines_of_placed hformats hplaced,
        snippetLines_of_placed hformats (trimmed ▸ hplaced)]
    · have refused : ∀ placed,
          ¬ PlacedLines language settings.indentUnit 0 {} (trimmedLines body) placed :=
        fun placed hp => hplaced ⟨placed, hp⟩
      have body_eq := snippetLines_of_refused hformats refused
      rw [body_eq] at h ⊢
      rw [snippetLines_of_refused hformats (trimmed ▸ refused)]
      exact shiftedLines_of_setIn (allBlank_indentUnit _ _) (newline_not_mem_indentUnit _ _) h

end Snippet

end RazorLayout.Layout

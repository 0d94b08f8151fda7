import RazorLayout.Proofs.Layout.Snippet
import RazorLayout.Proofs.Text.Margin

/-!
# Lines kept as written

The lines of a body that the indenter refuses are kept, and only their place changes: blank lines at
both ends go, the first line is trimmed, since it may begin right behind a brace, and all the others
move left together, until the least indented of them starts its line. So the lines stand to each
other as they stood in the body, and when they are moved right by any margin and read as a body
again, the same lines come back.

## Main definitions

* `IsInner`: the lines from the first to the last that is not blank
* `LosesMargin`: a line that is moved left
* `MovedLeft`: lines that are moved left together

## Main results

* `movedLeft_shiftedLines`: the lines of a body are moved left
* `stripBlankEdges_lines_unlines`: lines are found again between blank lines
* `shiftedLines_movedLeft_and_cancel`: lines are moved left together, and a margin put in front of
  them is taken away again
-/

namespace RazorLayout.Layout

open Text

/-- The lines from the first to the last that is not blank; there are none in a blank text. -/
structure IsInner (ls inner : List (List Char)) : Prop where
  blank_edges : ∃ front back, (∀ l ∈ front, allBlank l = true) ∧ (∀ l ∈ back, allBlank l = true) ∧
    ls = front ++ inner ++ back
  ink_head : ∀ l, inner.head? = some l → allBlank l = false
  ink_last : ∀ l, inner.getLast? = some l → allBlank l = false

/-- The line `l` keeps what stands between its blanks, and of its leading blanks all but `margin`.
A blank line becomes empty. -/
structure LosesMargin (margin : Nat) (l moved : List Char) : Prop where
  trim_eq : trim moved = trim l
  eq_nil_of_blank : allBlank l = true → moved = []
  leading : allBlank l = false →
    margin ≤ countWhile isBlank l ∧ countWhile isBlank moved = countWhile isBlank l - margin

/-- The first line is trimmed, and the others lose one margin. It is the widest that all of them
have, so that one of them is left without leading blanks. -/
inductive MovedLeft : List (List Char) → List (List Char) → Prop
  | nil : MovedLeft [] []
  | cons {first : List Char} {rest moved : List (List Char)} (margin : Nat)
    (hrest : List.Forall₂ (LosesMargin margin) rest moved)
    (hleast : (∃ l ∈ rest, allBlank l = false) →
      ∃ l ∈ moved, allBlank l = false ∧ countWhile isBlank l = 0) :
    MovedLeft (first :: rest) (trim first :: moved)

/-! ### From the body to the lines -/

theorem isInner_stripBlankEdges (ls : List (List Char)) : IsInner ls (stripBlankEdges ls) where
  blank_edges := dropEdges_parts allBlank ls
  ink_head := (framed_stripBlankEdges ls).head
  ink_last := (framed_stripBlankEdges ls).last

theorem losesMargin_shiftLine {margin : Nat} {l : List Char}
    (h : allBlank l = false → margin ≤ countWhile isBlank l) :
    LosesMargin margin l (shiftLine margin l) where
  trim_eq := by
    cases hink : allBlank l with
    | true => rw [shiftLine_of_blank hink, trim_eq_nil_iff.2 hink, trim_eq_nil_iff.2 allBlank_nil]
    | false =>
      have blank : allBlank ((l.takeWhile isBlank).drop margin) = true :=
        allBlank_iff.2 fun c hc => List.mem_takeWhile_imp (List.mem_of_mem_drop hc)
      rw [shiftLine_eq hink (h hink)]
      simpa [trim_trim] using trim_blank_append_blank blank (trim l) allBlank_nil
  eq_nil_of_blank := shiftLine_of_blank
  leading hink := by
    -- a line that is set in by nothing is the moved line itself
    have none : allBlank [] = true := rfl
    obtain ⟨-, hcount, -⟩ := shiftLine_setIn none hink (h hink)
    have same : setIn [] (shiftLine margin l) = shiftLine margin l := by
      unfold setIn
      split <;> simp_all
    rw [same, List.length_nil, Nat.zero_add] at hcount
    exact ⟨h hink, hcount⟩

theorem movedLeft_shiftedLines (body : List Char) :
    MovedLeft (stripBlankEdges (lines body)) (shiftedLines body) := by
  rw [shiftedLines]
  cases stripBlankEdges (lines body) with
  | nil => exact .nil
  | cons first rest =>
    refine .cons (commonMargin rest) ?_ ?_
    · rw [List.forall₂_map_right_iff, List.forall₂_same]
      exact fun l hl => losesMargin_shiftLine (commonMargin_le hl)
    · -- the line that has no more than the common margin loses all of its leading blanks
      intro h
      obtain ⟨l, hl, hink, hmargin⟩ := exists_commonMargin h
      have moved := losesMargin_shiftLine (l := l) (commonMargin_le hl)
      refine ⟨_, List.mem_map_of_mem hl, ?_, ?_⟩
      · rw [← allBlank_trim, moved.trim_eq, allBlank_trim, hink]
      · rw [(moved.leading hink).2, hmargin, Nat.sub_self]

/-! ### From the lines to a body -/

section Written

variable {front back ls : List (List Char)} {margin : List Char}

/-- The lines of a blank text are blank. -/
theorem allBlank_of_mem_lines {s l : List Char} (hs : allBlank s = true) (hl : l ∈ lines s) :
    allBlank l = true :=
  allBlank_iff.2 fun c hc => allBlank_iff.1 hs c ((infix_of_mem_lines hl).subset hc)

theorem allBlank_unlines (hblank : ∀ l ∈ ls, allBlank l = true) : allBlank (unlines ls) = true := by
  rw [← withoutBlanks_eq_nil_iff, withoutBlanks_unlines, List.flatMap_eq_nil_iff]
  exact fun l hl => withoutBlanks_of_allBlank (hblank l hl)

/-- Blank lines in front of a text, which may lose a carriage return each, stay blank lines. -/
theorem exists_lines_flatMap_of_blank (hblank : ∀ l ∈ front, allBlank l = true)
    (hline : ∀ l ∈ front, '\n' ∉ l) (s : List Char) :
    ∃ read, (∀ l ∈ read, allBlank l = true) ∧
      lines (front.flatMap (· ++ ['\n']) ++ s) = read ++ lines s := by
  induction front with
  | nil => exact ⟨[], by simp, rfl⟩
  | cons l front ih =>
    obtain ⟨hl, hfront⟩ := List.forall_mem_cons.1 hblank
    obtain ⟨hl', hfront'⟩ := List.forall_mem_cons.1 hline
    obtain ⟨read, hread, hlines⟩ := ih hfront hfront'
    obtain ⟨line, ending, rfl, -, hfirst⟩ :=
      exists_lines_append_newline hl' (front.flatMap (· ++ ['\n']) ++ s)
    rw [allBlank_append, Bool.and_eq_true] at hl
    refine ⟨line :: read, List.forall_mem_cons.2 ⟨hl.1, hread⟩, ?_⟩
    rw [List.cons_append, ← hlines, ← hfirst]
    simp

/-- Lines that are written between blank lines are found again. -/
theorem stripBlankEdges_lines_unlines (hls : LaidOut ls) (hfront : ∀ l ∈ front, allBlank l = true)
    (hfront' : ∀ l ∈ front, '\n' ∉ l) (hback : ∀ l ∈ back, allBlank l = true) :
    stripBlankEdges (lines (unlines (front ++ ls ++ back))) = ls := by
  obtain ⟨read, unread, hread, hunread, hlines⟩ : ∃ read unread,
      (∀ l ∈ read, allBlank l = true) ∧ (∀ l ∈ unread, allBlank l = true) ∧
        lines (unlines (front ++ ls ++ back)) = read ++ ls ++ unread := by
    by_cases hne : ls = []
    · -- without lines in between, the whole text is blank
      have blank : allBlank (unlines (front ++ ls ++ back)) = true := by
        refine allBlank_unlines fun l hl => ?_
        rw [hne, List.append_nil, List.mem_append] at hl
        exact hl.elim (hfront l) (hback l)
      exact ⟨_, [], fun l hl => allBlank_of_mem_lines blank hl, by simp, by simp [hne]⟩
    · have split : unlines (front ++ ls ++ back)
          = front.flatMap (· ++ ['\n']) ++ unlines (ls ++ back) := by
        rw [List.append_assoc]
        by_cases hfrontne : front = []
        · simp [hfrontne]
        · rw [unlines_append hfrontne (by simp [hne]), ← unlines_append_newline hfrontne]
          simp
      obtain ⟨read, hread, hlines⟩ :=
        exists_lines_flatMap_of_blank hfront hfront' (unlines (ls ++ back))
      by_cases hbackne : back = []
      · refine ⟨read, [], hread, by simp, ?_⟩
        rw [split, hlines, hbackne, List.append_nil, hls.lines_unlines, List.append_nil]
      · refine ⟨read, lines (unlines back), hread,
          fun l hl => allBlank_of_mem_lines (allBlank_unlines hback) hl, ?_⟩
        have behind : unlines (ls ++ back) = ls.flatMap (· ++ ['\n']) ++ unlines back := by
          rw [unlines_append hne hbackne, ← unlines_append_newline hne]
          simp
        rw [split, hlines, behind, lines_flatMap_append (fun l hl => hls.newline_not_mem hl)
          fun l hl => hls.getLast?_ne_carriageReturn hl, List.append_assoc]
  rw [hlines]
  exact hls.framed.dropEdges_append hread hunread

/-- Lines moved right by a margin are laid out as those of a body are. -/
theorem laidOut_setIn_shiftedLines (hmargin : allBlank margin = true) (hline : '\n' ∉ margin)
    (body : List Char) : LaidOut ((shiftedLines body).map (setIn margin)) := by
  have indented : List.Forall₂ Indented (trimmedLines body)
      ((shiftedLines body).map (setIn margin)) := by
    rw [List.forall₂_map_right_iff]
    exact (indented_shiftedLines body).imp fun l x h => h.setIn hmargin hline
  exact laidOut_of_indented indented

end Written

/-- The lines of a body that are kept as written are those from the first to the last that is not
blank, moved left together; and a margin that is put in front of all of them is taken away again,
whatever blank lines stand around them. -/
theorem shiftedLines_movedLeft_and_cancel (body : List Char) :
    (∃ inner, IsInner (lines body) inner ∧ MovedLeft inner (shiftedLines body)) ∧
      ∀ (margin : List Char) (front back : List (List Char)),
        allBlank margin = true → '\n' ∉ margin →
        (∀ l ∈ front ++ back, allBlank l = true ∧ '\n' ∉ l) →
        shiftedLines (unlines (front ++ (shiftedLines body).map (setIn margin) ++ back))
          = shiftedLines body := by
  refine ⟨⟨_, isInner_stripBlankEdges _, movedLeft_shiftedLines body⟩, ?_⟩
  intro margin front back hmargin hline hedges
  have hfront : ∀ l ∈ front, allBlank l = true ∧ '\n' ∉ l :=
    fun l hl => hedges l (List.mem_append_left back hl)
  have hback : ∀ l ∈ back, allBlank l = true :=
    fun l hl => (hedges l (List.mem_append_right front hl)).1
  refine shiftedLines_of_setIn hmargin hline ?_
  rw [stripBlankEdges_lines_unlines (laidOut_setIn_shiftedLines hmargin hline body)
    (fun l hl => (hfront l hl).1) (fun l hl => (hfront l hl).2) hback]

/-- A body whose margins are of different characters, with a blank line inside: the lines behind the
first lose four blanks, and a tab and a wide space in front of them are taken away again. -/
theorem shiftedLines_movedLeft_and_cancel_mixed :
    let body := "\n  first \n \t\u3000 a\r\n\n\u3000 \t  b\n\n".toList
    let margin := "\t\u3000".toList
    let front := [" ".toList, "\r".toList]
    let back := [[], "\t".toList]
    allBlank margin = true ∧ '\n' ∉ margin ∧
      (∀ l ∈ front ++ back, allBlank l = true ∧ '\n' ∉ l) ∧
      shiftedLines body = ["first".toList, "a".toList, [], " b".toList] ∧
      (∃ inner, IsInner (lines body) inner ∧ MovedLeft inner (shiftedLines body)) ∧
      shiftedLines (unlines (front ++ (shiftedLines body).map (setIn margin) ++ back))
        = shiftedLines body := by
  intro body margin front back
  have blank : allBlank margin = true := by decide
  have line : '\n' ∉ margin := by decide
  have edges : ∀ l ∈ front ++ back, allBlank l = true ∧ '\n' ∉ l := by decide
  obtain ⟨moved, cancel⟩ := shiftedLines_movedLeft_and_cancel body
  exact ⟨blank, line, edges, by decide +kernel, moved, cancel margin front back blank line edges⟩

end RazorLayout.Layout

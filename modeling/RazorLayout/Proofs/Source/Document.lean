import RazorLayout.Proofs.Source.Content

/-!
# Reading documents by places

A document is read section by section, and every section moves the place forward. With the readers
of the constructs and of content, this makes the scanner a reader of whole templates that never goes
wrong: it cuts the text only at places of the text and in order, no loop stays where it is, no
counter goes below zero, and its nodes are those of `readDocument`.

## Main results

* `scanDocument_eq`: the nodes of a template
* `scanDocument_eq_and_moves_on`: no fault in any template, and every construct takes something
-/

namespace RazorLayout.Template

open Text Code

section Sections

variable {t s : List Char} {st : SectionsProgress}

/-- A round reads what a step of the reader reads. -/
theorem sectionRound_eq (h : RestAt t st.place s) :
    sectionRound t st = .ok (match sectionStep ⟨st.place, st.nodes⟩ s with
      | none => .done st
      | some (next, _) => .again ⟨next.pos, next.nodes⟩) := by
  rw [sectionRound, h.sliceFrom, ok_bind, sectionStep]
  cases hfind : Opening.codeSection.find? s with
  | none => rfl
  | some found =>
    obtain ⟨before, length⟩ := found
    have ends : Opening.EndsAt '{' s (before + length) := by
      obtain ⟨u, v, rfl, rfl, hv⟩ := search_eq_some hfind
      obtain ⟨w, rest, rfl, rfl⟩ := Opening.endsAt_keyword hv
      exact ⟨u ++ w, rest, by simp, by simp; omega⟩
    obtain ⟨k, hk⟩ : ∃ k, before + length = k + 1 := by
      obtain ⟨u, _, -, hlength⟩ := ends
      exact ⟨u.length, hlength⟩
    rw [hk] at ends
    obtain ⟨r, hdrop⟩ := ends.drop
    have opening := h.drop k
    rw [Nat.add_sub_cancel] at hdrop
    rw [hdrop] at opening
    simp only [hk, ends.delimiter rfl, Nat.add_sub_cancel, scanCloser_eq opening, ok_bind,
      Option.bind_eq_bind, Option.bind_some, hdrop]
    cases hclose : Bracket.brace.matchCode? ('{' :: r) with
    | none => rfl
    | some n =>
      obtain ⟨_, _, -, hn⟩ := Bracket.brace_matchCode?_eq_some hclose
      have cut := opening.slice_behind rfl (n := n) (by omega)
      -- the reader cuts the body out of the whole section, the scanner out of the braces
      have body : (s.take (k + 1 + n - 1)).drop (k + 1) = (('{' :: r).take n).drop 1 := by
        rw [← hdrop, Nat.add_right_comm, Nat.add_sub_cancel, ← List.drop_drop, List.drop_take,
          Nat.add_sub_cancel_left]
      have stop : st.place + byteLength (s.take k) + byteLength (('{' :: r).take n) + 1
          = st.place + byteLength (s.take (k + 1 + n)) := by
        rw [Nat.add_right_comm k 1 n, Nat.add_assoc k n 1, byteLength_take_add, hdrop,
          Bracket.byteLength_take_matchCode? rfl hclose]
        omega
      simp only [Option.map_some, h.slice_take, cut, ok_bind, scanNested_eq, body, stop,
        pure_eq_ok, Option.bind_some, Option.pure_def]

/-- The sections that a reader finds when it goes on in front of a text. -/
def sectionsFrom (x : Sections × List Char) : SectionsProgress :=
  ⟨(advance sectionStep 0 x.1 x.2).1.pos, (advance sectionStep 0 x.1 x.2).1.nodes⟩

/-- A document that a reader is reading as well, in front of a text. -/
structure SectionsProgress.Follows (t : List Char) (st : SectionsProgress)
    (x : Sections × List Char) : Prop where
  rest : RestAt t st.place x.2
  sections_eq : x.1 = ⟨st.place, st.nodes⟩

theorem sectionRound_keeps {x : Sections × List Char} (h : st.Follows t x) :
    RoundKeeps (byteLength t) SectionsProgress.place (sectionRound t) (SectionsProgress.Follows t)
      sectionsFrom st x := by
  obtain ⟨_, s⟩ := x
  obtain ⟨hrest, rfl⟩ := h
  dsimp only at hrest
  have round := sectionRound_eq hrest
  cases hstep : sectionStep ⟨st.place, st.nodes⟩ s with
  | none =>
    rw [hstep] at round
    rw [RoundKeeps, sectionsFrom, advance_of_none hstep]
    exact .inl round
  | some found =>
    obtain ⟨next, n⟩ := found
    rw [hstep] at round
    obtain ⟨hn, hpos, -⟩ := laid_sectionStep hrest.between hstep
    have hne : s ≠ [] := by
      rintro rfl
      cases hstep
    have behind := hrest.drop n
    have moved := byteLength_pos (s := s.take n) (by simpa [hne] using hn.ne')
    have bound := behind.add_byteLength
    rw [← hpos] at behind bound
    refine .inr ⟨_, (next, s.drop n), round, ?_, ?_, ⟨behind, rfl⟩, ?_⟩
    · dsimp only at hpos ⊢
      omega
    · exact Nat.le.intro bound
    · rw [sectionsFrom, sectionsFrom, advance_of_step hstep hn hne]

end Sections

/-- The nodes of a template, found by places. -/
theorem scanDocument_eq (t : List Char) : scanDocument t = .ok (readDocument t) := by
  have rest := (sections_invariant t (I := fun _ => True) trivial fun _ _ _ _ _ _ _ => trivial).1
  have start : SectionsProgress.Follows t ⟨0, []⟩ ({}, t) := ⟨RestAt.start t, rfl⟩
  rw [scanDocument, loop_eq_ok (fun _ _ => sectionRound_keeps) start, ok_bind, readDocument,
    sectionsFrom]
  dsimp only
  rw [sliceFrom, slice_eq_ok_iff.2 rest, ok_bind, scanNested_eq, ok_bind, pure_eq_ok]

/-- What is found in places takes something, and it ends in the text. -/
theorem inPlaces_eq_some {α : Type} {t s : List Char} {place stop : Nat} (h : RestAt t place s)
    (hs : s ≠ []) {answer : Option (α × Nat)} (hpos : ∀ a n, answer = some (a, n) → 0 < n) {a : α}
    (ha : inPlaces place s answer = some (a, stop)) : place < stop ∧ stop ≤ byteLength t := by
  cases answer with
  | none => cases ha
  | some found =>
    obtain ⟨_, n⟩ := found
    obtain ⟨rfl, rfl⟩ := Prod.mk.inj (Option.some.inj ha)
    have moved := byteLength_pos (s := s.take n) (by simpa [hs] using (hpos _ n rfl).ne')
    have bound := (h.drop n).add_byteLength
    omega

/-- Templates are read without a fault: every piece is cut between two places of the text that are
in order, every loop moves forward in every round, and no counter goes below zero. What is
recognised at an `@` or at a `<` ends behind it. -/
theorem scanDocument_eq_and_moves_on (t : List Char) :
    scanDocument t = .ok (readDocument t) ∧
    (∀ depth base, scanNested depth base t = .ok (readNested depth base t)) ∧
    (∀ base afterExpression place r, RestAt t place ('@' :: r) →
      ∃ answer, scanRazor t base afterExpression place = .ok answer ∧
        ∀ nodes stop, answer = some (nodes, stop) → place < stop ∧ stop ≤ byteLength t) ∧
    ∀ levels base place r, RestAt t place ('<' :: r) →
      ∃ answer, scanMarkup (scanContent levels) t base place = .ok answer ∧
        ∀ node stop, answer = some (node, stop) → place < stop ∧ stop ≤ byteLength t := by
  refine ⟨scanDocument_eq t, fun depth base => scanNested_eq depth base t, ?_, ?_⟩
  · intro base afterExpression place r h
    obtain ⟨u, rfl, rfl⟩ := h
    refine ⟨_, scanRazor_eq base afterExpression, fun nodes stop hanswer => ?_⟩
    exact inPlaces_eq_some ⟨u, rfl, rfl⟩ (by simp) (fun _ _ hread => readRazor?_pos hread) hanswer
  · intro levels base place r h
    refine ⟨_, scanMarkup_eq (scanContent_eq levels) h rfl, fun node stop hanswer => ?_⟩
    exact inPlaces_eq_some h (by simp) (fun _ _ hread => readMarkup?_pos hread) hanswer

/-- An element around a character of two bytes, and an expression behind it. -/
theorem scanDocument_eq_and_moves_on_multibyte :
    scanDocument "ü <b>ü</b>@n".toList = .ok
      [.text ['ü', ' '] ⟨0, 3⟩, .element ⟨['b'], [], ⟨3, 12⟩⟩ [.text ['ü'] ⟨6, 8⟩],
        .code ⟨.expression, ['n'], ⟨12, 14⟩⟩] ∧
    RestAt "ü <b>ü</b>@n".toList 12 "@n".toList ∧
    (∃ answer, scanRazor "ü <b>ü</b>@n".toList 0 false 12 = .ok answer ∧
      ∀ nodes stop, answer = some (nodes, stop) → 12 < stop ∧ stop ≤ 14) ∧
    RestAt "ü <b>ü</b>@n".toList 3 "<b>ü</b>@n".toList ∧
    ∃ answer, scanMarkup (scanContent 1) "ü <b>ü</b>@n".toList 0 3 = .ok answer ∧
      ∀ node stop, answer = some (node, stop) → 3 < stop ∧ stop ≤ 14 := by
  have sign : RestAt "ü <b>ü</b>@n".toList 12 "@n".toList := ⟨"ü <b>ü</b>".toList, rfl, rfl⟩
  have markup : RestAt "ü <b>ü</b>@n".toList 3 "<b>ü</b>@n".toList := ⟨"ü ".toList, rfl, rfl⟩
  have read : readDocument "ü <b>ü</b>@n".toList =
      [.text ['ü', ' '] ⟨0, 3⟩, .element ⟨['b'], [], ⟨3, 12⟩⟩ [.text ['ü'] ⟨6, 8⟩],
        .code ⟨.expression, ['n'], ⟨12, 14⟩⟩] := by
    rfl
  obtain ⟨document, -, razor, element⟩ := scanDocument_eq_and_moves_on "ü <b>ü</b>@n".toList
  rw [read] at document
  exact ⟨document, sign, razor 0 false 12 _ sign, markup, element 1 0 3 _ markup⟩

end RazorLayout.Template

import RazorLayout.Proofs.Template.SectionFree

/-!
# Reading a code section or an inline block

A template may be nothing but one code section `@code { … }` or one inline block `@{ … }`. It is
read as one node when its last brace matches the first one and no code section begins inside of
the inline block. Whether one begins there depends on the words of the block alone, because only
blanks may stand between `@code` and the brace.

## Main results

* `codeSection_find?_eq_none_of_words`: texts with the same words hold the same code sections
* `readDocument_codeSection`, `readDocument_inlineBlock`: the only node of such a template
-/

namespace RazorLayout.Template

open Text Code

/-! ### Where a code section begins -/

/-- Somewhere in the text stands `@code`, and behind blanks a brace. -/
def HoldsSection (s : List Char) : Prop :=
  ∃ gap, allBlank gap = true ∧ "@code".toList ++ gap ++ ['{'] <:+: s

theorem codeSection_length? {gap : List Char} (hgap : allBlank gap = true) (rest : List Char) :
    Opening.codeSection.length? ("@code".toList ++ gap ++ '{' :: rest)
      = some (("@code".toList ++ gap).length + 1) :=
  Opening.partsLength?_of_keyword "@code".toList hgap (by decide) rest

theorem codeSection_find?_eq_none_iff {s : List Char} :
    Opening.codeSection.find? s = none ↔ ¬ HoldsSection s := by
  constructor
  · rintro h ⟨gap, hgap, u, v, rfl⟩
    have hnone := eq_none_of_searchFrom (u := u) (v := "@code".toList ++ gap ++ '{' :: v)
      (by simpa [Opening.find?, Opening.isSearched, search] using h)
    rw [codeSection_length? hgap] at hnone
    simp at hnone
  · intro h
    refine searchFrom_eq_none fun u v huv => ?_
    rw [Option.eq_none_iff_forall_ne_some]
    intro n hn
    obtain ⟨gap, rest, rfl, hgap, -⟩ := Opening.partsLength?_keyword hn
    exact h ⟨gap, hgap, u, rest, by simp [huv]⟩

/-- A code section is seen from the words of the text. -/
theorem holdsSection_iff_words {s : List Char} :
    HoldsSection s ↔ (∃ w ∈ words s, "@code\x7b".toList <:+: w) ∨
      ∃ w w', [w, w'] <:+: words s ∧ "@code".toList <:+ w ∧ ['{'] <+: w' := by
  constructor
  · rintro ⟨gap, hgap, u, v, rfl⟩
    -- with no blanks the opening stands in one word, otherwise in two that follow each other
    cases gap with
    | nil =>
      exact .inl (exists_word_holding (by decide) (by simp [isBlank]) ⟨u, v, by simp⟩)
    | cons c gap =>
      simp only [allBlank_cons, Bool.and_eq_true] at hgap
      obtain ⟨ws, w, hws, hw⟩ :=
        exists_last_word (x := "@code".toList) (by decide) (by simp [isBlank]) u
      obtain ⟨w', ws', hws', hw'⟩ :=
        exists_first_word (x := ['{']) (by decide) (by simp [isBlank]) v
      have parts : u ++ ("@code".toList ++ c :: gap ++ ['{']) ++ v
          = (u ++ "@code".toList) ++ c :: (gap ++ (['{'] ++ v)) := by simp
      refine .inr ⟨w, w', ⟨ws, ws', ?_⟩, hw, hw'⟩
      rw [parts, words_append_cons _ hgap.1, words_blank_append hgap.2, hws, hws']
      simp
  · rintro (⟨w, hw, hinfix⟩ | ⟨w, w', hwords, ⟨u, rfl⟩, ⟨v, rfl⟩⟩)
    · exact ⟨[], rfl, hinfix.trans (infix_of_mem_words hw)⟩
    · obtain ⟨gap, hgap, hinfix⟩ := exists_gap_of_words hwords
      refine ⟨gap, hgap, List.IsInfix.trans ⟨u, v, ?_⟩ hinfix⟩
      simp

/-- Texts with the same words hold the same code sections. -/
theorem codeSection_find?_eq_none_of_words {s t : List Char} (hwords : words s = words t)
    (h : Opening.codeSection.find? s = none) : Opening.codeSection.find? t = none := by
  rw [codeSection_find?_eq_none_iff, holdsSection_iff_words] at h ⊢
  rwa [← hwords]

/-- A brace that closes behind the text ends no opening that begins in it. -/
theorem sectionFree_of_find?_eq_none {s : List Char} (h : Opening.codeSection.find? s = none)
    (rest : List Char) : SectionFree s ('}' :: rest) := by
  rw [codeSection_find?_eq_none_iff] at h
  rintro u v rfl -
  rw [Option.eq_none_iff_forall_ne_some]
  intro n hn
  obtain ⟨gap, behind, heq, hgap, -⟩ := Opening.partsLength?_keyword hn
  have heq : v ++ '}' :: rest = ("@code".toList ++ gap ++ ['{']) ++ behind := by simpa using heq
  rcases List.append_eq_append_iff.1 heq with ⟨w, hw, hrest⟩ | ⟨w, rfl, -⟩
  · cases w with
    | nil => exact h ⟨gap, hgap, u, [], by simpa using hw⟩
    | cons c w =>
      -- the opening would hold the closing brace
      obtain rfl : '}' = c := (List.cons.inj hrest).1
      have hmem : '}' ∈ "@code".toList ++ gap ++ ['{'] := by rw [hw]; simp
      simp [not_mem_of_allBlank hgap (c := '}') (by decide)] at hmem
  · exact h ⟨gap, hgap, u, w, by simp⟩

theorem sectionFree_inlineBlock {inner tail : List Char}
    (h : Opening.codeSection.find? inner = none) (htail : allBlank tail = true) :
    SectionFree ('@' :: '{' :: (inner ++ '}' :: tail)) [] := by
  have mark : SectionFree ['@'] ('{' :: (inner ++ '}' :: tail) ++ []) := sectionFree_mark (by simp)
  have opening : SectionFree ['{'] (inner ++ '}' :: tail ++ []) :=
    sectionFree_of_not_mem (by decide) _
  have inside : SectionFree inner ('}' :: tail ++ []) := sectionFree_of_find?_eq_none h _
  have closing : SectionFree ('}' :: tail) [] :=
    sectionFree_of_not_mem (by simp [not_mem_of_allBlank htail (c := '@') (by decide)]) []
  exact mark.append (opening.append (inside.append closing))

/-! ### The only node of a template -/

theorem advance_contentStep_blank (children : Nat → List Char → List Node) (p : Progress)
    {gap : List Char} (hgap : allBlank gap = true) :
    Node.mergeTexts (advance (contentStep children) 0 p gap).1.nodes.reverse
      = Node.mergeTexts p.nodes.reverse := by
  by_cases hne : gap = []
  · rw [hne]
    rfl
  · have step := advance_contentStep_text children p (not_mem_of_allBlank hgap (by decide))
      (not_mem_of_allBlank hgap (by decide)) hne (rfl : mayStop [] = true)
    rw [List.append_nil] at step
    have dropped (span : Span) : Node.mergeOnto (.text gap span) [] = [] := by
      simp [Node.mergeOnto, hgap]
    rw [step, advance, List.reverse_cons, Node.mergeTexts, List.foldr_append, List.foldr_cons,
      List.foldr_nil, dropped]
    rfl

theorem readContent_of_blank (levels pos : Nat) {gap : List Char} (hgap : allBlank gap = true) :
    readContent (levels + 1) pos gap = [] :=
  advance_contentStep_blank (readContent levels) { pos } hgap

theorem codeSection_find? {gap : List Char} (hgap : allBlank gap = true) (rest : List Char) :
    Opening.codeSection.find? ("@code".toList ++ gap ++ '{' :: rest)
      = some (0, ("@code".toList ++ gap).length + 1) := by
  have length := codeSection_length? hgap rest
  obtain ⟨c, s, hs⟩ : ∃ c s, "@code".toList ++ gap ++ '{' :: rest = c :: s :=
    ⟨_, _, rfl⟩
  rw [hs] at length ⊢
  change search Opening.codeSection.length? (c :: s) = _
  rw [search, searchFrom, length]

/-- A code section at the head of a text. -/
theorem sectionStep_codeSection (st : Sections) {gap inner tail : List Char}
    (hgap : allBlank gap = true)
    (hmatch :
      Bracket.brace.matchCode? ('{' :: (inner ++ '}' :: tail)) = some (inner.length + 1)) :
    ∃ stop span,
      sectionStep st ("@code".toList ++ gap ++ '{' :: (inner ++ '}' :: tail))
        = some (⟨stop, st.nodes ++ readNested 0 st.pos []
            ++ [.code ⟨.directive, CodeBlock.sectionWord ++ trim inner, span⟩]⟩,
          ("@code".toList ++ gap).length + 1 + (inner.length + 1)) := by
  have find := codeSection_find? hgap (inner ++ '}' :: tail)
  generalize "@code".toList ++ gap = opening at find ⊢
  have brace : (opening ++ '{' :: (inner ++ '}' :: tail)).drop (0 + (opening.length + 1) - 1)
      = '{' :: (inner ++ '}' :: tail) := by simp
  have body : ((opening ++ '{' :: (inner ++ '}' :: tail)).take
      (0 + (opening.length + 1) + (inner.length + 1) - 1)).drop (0 + (opening.length + 1))
        = inner := by
    rw [show opening ++ '{' :: (inner ++ '}' :: tail)
      = (opening ++ ['{']) ++ inner ++ '}' :: tail by simp, List.take_left' (by simp; omega)]
    exact List.drop_left' (by simp)
  simp only [sectionStep, find, Option.bind_eq_bind, Option.bind_some, brace, hmatch, body]
  simp only [Nat.zero_add]
  exact ⟨_, _, rfl⟩

/-- Nothing but a code section, and blanks behind it. -/
theorem readDocument_codeSection {gap inner tail : List Char} (hgap : allBlank gap = true)
    (hmatch : Bracket.brace.matchCode? ('{' :: (inner ++ '}' :: tail)) = some (inner.length + 1))
    (htail : allBlank tail = true) :
    ∃ span, readDocument ("@code".toList ++ gap ++ '{' :: (inner ++ '}' :: tail))
      = [.code ⟨.directive, CodeBlock.sectionWord ++ trim inner, span⟩] := by
  obtain ⟨stop, span, step⟩ := sectionStep_codeSection {} hgap hmatch
  have behind : ("@code".toList ++ gap ++ '{' :: (inner ++ '}' :: tail)).drop
      (("@code".toList ++ gap).length + 1 + (inner.length + 1)) = tail := by
    rw [show "@code".toList ++ gap ++ '{' :: (inner ++ '}' :: tail)
      = ("@code".toList ++ gap ++ '{' :: (inner ++ ['}'])) ++ tail by simp]
    exact List.drop_left' (by simp; omega)
  have declines (st : Sections) : sectionStep st tail = none := by
    have none := (sectionFree_of_not_mem (not_mem_of_allBlank htail (by decide)) []).find?_eq_none
    simp [sectionStep, none]
  refine ⟨span, ?_⟩
  rw [readDocument, advance_of_step step (Nat.succ_pos _) (by simp), behind,
    advance_of_none (declines _)]
  simp [readNested, readContent_of_blank _ _ htail, readContent_of_blank _ _ allBlank_nil]

theorem readRazor?_inlineBlock (pos : Nat) {inner tail : List Char}
    (hmatch :
      Bracket.brace.matchCode? ('{' :: (inner ++ '}' :: tail)) = some (inner.length + 1)) :
    ∃ span, readRazor? pos none false ('@' :: ('{' :: inner ++ ['}'] ++ tail))
      = some ([.code ⟨.inlineBlock, inner, span⟩], ('{' :: inner ++ ['}']).length + 1) := by
  have length : ('{' :: inner ++ ['}']).length + 1 = inner.length + 3 := by simp
  have source : '{' :: inner ++ ['}'] ++ tail = '{' :: (inner ++ '}' :: tail) := by simp
  -- the readers that come first decline a brace
  have directive : readDirective? pos ('@' :: '{' :: (inner ++ '}' :: tail)) = none := by
    simp [readDirective?, Directive.read?, Directive.keywords, Directive.readWith?]
  have chain : readIfChain? pos ('@' :: '{' :: (inner ++ '}' :: tail)) = none := by
    simp [readIfChain?, Opening.length?, Opening.parts, Opening.partsLength?, OpeningPart.length?]
  have loop : readForeach? pos ('@' :: '{' :: (inner ++ '}' :: tail)) = none := by
    simp [readForeach?, Opening.length?, Opening.parts, Opening.partsLength?, OpeningPart.length?]
  have opens : Opening.inlineBlock.length? ('@' :: '{' :: (inner ++ '}' :: tail)) = some 2 := by
    simp [Opening.length?, Opening.parts, Opening.partsLength?, OpeningPart.length?]
  have block : readInlineBlock? pos ('@' :: '{' :: (inner ++ '}' :: tail))
      = some ([codeNode .inlineBlock inner pos (inner.length + 3)
          ('@' :: '{' :: (inner ++ '}' :: tail))], inner.length + 3) := by
    simp only [readInlineBlock?, opens, Option.bind_eq_bind, Option.bind_some, List.drop_succ_cons,
      List.drop_zero, hmatch]
    simp
  have razor : readRazor? pos none false ('@' :: '{' :: (inner ++ '}' :: tail))
      = readInlineBlock? pos ('@' :: '{' :: (inner ++ '}' :: tail)) := by
    simp only [readRazor?, directive, chain, loop, block]
    rfl
  rw [source, length, razor, block]
  exact ⟨_, rfl⟩

/-- Nothing but an inline block, and blanks behind it. -/
theorem readDocument_inlineBlock {inner tail : List Char}
    (hfree : Opening.codeSection.find? inner = none)
    (hmatch : Bracket.brace.matchCode? ('{' :: (inner ++ '}' :: tail)) = some (inner.length + 1))
    (htail : allBlank tail = true) :
    ∃ span, readDocument ('@' :: '{' :: (inner ++ '}' :: tail))
      = [.code ⟨.inlineBlock, inner, span⟩] := by
  obtain ⟨span, razor⟩ := readRazor?_inlineBlock 0 hmatch
  have step := advance_contentStep_code (readContent maxNesting) (p := { pos := 0 }) razor
  have source : '@' :: ('{' :: inner ++ ['}'] ++ tail) = '@' :: '{' :: (inner ++ '}' :: tail) := by
    simp
  rw [source] at step
  refine ⟨span, ?_⟩
  rw [readDocument_of_sectionFree (sectionFree_inlineBlock hfree htail), readContent, step]
  exact advance_contentStep_blank _ _ htail

end RazorLayout.Template

import RazorLayout.Proofs.Source.ClosingTag

/-!
# Reading markup by places

An element, a declaration or a comment that is found by places is the one that is read by counting
characters. Where a reader counts characters of the rest of the text, the scanner adds the bytes of
what it passes: of names, of the blanks in between, of single delimiters. `inPlaces` turns the
answer of a reader into that of the scanner.

## Main definitions

* `inPlaces`: an answer that counts characters, told in places

## Main results

* `scanAttribute_eq`: attributes
* `openTag_eq`: the attributes of a tag, up to its end
* `scanMarkup_eq`: elements, declarations and comments
-/

namespace RazorLayout.Text

/-- How far a text reaches to the end of a word that is found in it. -/
theorem byteLength_take_find? {word s : List Char} {n : Nat} (h : find? word s = some n) :
    byteLength (s.take (n + word.length)) = byteLength (s.take n) + byteLength word := by
  obtain ⟨u, v, rfl, rfl⟩ := find?_eq_some h
  rw [byteLength_take_add, List.drop_left, List.take_left, List.take_left]

end RazorLayout.Text

namespace RazorLayout.Template

open Text Code

/-- An answer that counts characters of a text, told in places when the text stands at `place`. -/
def inPlaces {α : Type} (place : Nat) (s : List Char) (answer : Option (α × Nat)) :
    Option (α × Nat) :=
  answer.map fun (a, n) => (a, place + byteLength (s.take n))

@[simp] theorem inPlaces_none {α : Type} (place : Nat) (s : List Char) :
    inPlaces place s (none : Option (α × Nat)) = none := rfl

@[simp] theorem inPlaces_some {α : Type} (place : Nat) (s : List Char) (a : α) (n : Nat) :
    inPlaces place s (some (a, n)) = some (a, place + byteLength (s.take n)) := rfl

/-- An answer for what stands behind `gap` characters. -/
theorem inPlaces_drop {α : Type} (place gap : Nat) (s : List Char) (answer : Option (α × Nat)) :
    inPlaces (place + byteLength (s.take gap)) (s.drop gap) answer
      = inPlaces place s (answer.map fun (a, n) => (a, gap + n)) := by
  cases answer with
  | none => rfl
  | some found =>
    simp only [inPlaces, Option.map_some, byteLength_take_add, Nat.add_assoc]

/-! ### Attributes -/

theorem scanUnquoted_eq {value s : List Char} {place : Nat} (h : RestAt value place s) :
    scanUnquoted value place s = .ok (place + byteLength (s.take (countUntil endsUnquoted s))) := by
  induction s generalizing place with
  | nil =>
    rw [scanUnquoted, ← h.add_byteLength]
    rfl
  | cons c s ih =>
    have next : place + byteLength ((c :: s).take (countUntil endsUnquoted s + 1))
        = place + c.utf8Size + byteLength (s.take (countUntil endsUnquoted s)) := by
      rw [List.take_succ_cons, byteLength_cons, Nat.add_assoc]
    rw [scanUnquoted, countUntil_cons]
    by_cases hend : (isBlank c || c == '>') = true
    · have ends : endsUnquoted (c :: s) = true := by simp [endsUnquoted, hend]
      simp [hend, ends]
    · by_cases hslash : c = '/'
      · subst hslash
        have behind : RestAt value (place + 1) s := h.cons
        rw [if_neg hend, if_pos (by decide), behind.sliceFrom, ok_bind]
        cases hnext : s.head? == some '>' with
        | true =>
          have ends : endsUnquoted ('/' :: s) = true := by simp [endsUnquoted, hnext]
          simp [ends]
        | false =>
          have goesOn : endsUnquoted ('/' :: s) = false := by
            simp only [endsUnquoted, hnext]
            decide
          rw [goesOn]
          simp only [Bool.false_eq_true, if_false]
          rw [next]
          exact ih behind
      · have goesOn : endsUnquoted (c :: s) = false := by simp_all [endsUnquoted]
        rw [if_neg hend, if_neg (by simpa using hslash), goesOn]
        simp only [Bool.false_eq_true, if_false]
        rw [next]
        exact ih h.cons

/-- A value without blanks in front of it. -/
theorem scanValue_eq {s : List Char} (hs : countWhile isBlank s = 0) :
    scanValue s = .ok (inPlaces 0 s (readValue? s)) := by
  have start := RestAt.start s
  simp only [readValue?, hs, List.drop_zero]
  cases s with
  | nil => rfl
  | cons c inner =>
    by_cases hquote : (c == '"' || c == '\'') = true
    · have size : c.utf8Size = 1 := by
        rcases (by simpa using hquote : c = '"' ∨ c = '\'') with rfl | rfl <;> rfl
      have behind : RestAt (c :: inner) 1 inner := by simpa [size] using start.cons
      simp only [scanValue, List.head?_cons, Option.filter_some, hquote, if_true]
      rw [behind.sliceFrom, ok_bind, findPlace?]
      cases hfind : find? [c] inner with
      | none => rfl
      | some n =>
        obtain ⟨u, v, rfl, rfl⟩ := find?_eq_some hfind
        have cut : slice (c :: (u ++ ([c] ++ v))) 1 (byteLength u + 1) = .ok u :=
          behind.slice (Nat.add_comm ..)
        have taken : (c :: (u ++ ([c] ++ v))).take (u.length + 2) = c :: (u ++ [c]) := by
          simp [List.take_append]
        simp only [Option.map_some, List.take_left, cut, ok_bind, pure_eq_ok, inPlaces_some,
          Nat.zero_add]
        rw [taken]
        simp only [byteLength_cons, byteLength_append, byteLength_nil, size]
        congr 3
        omega
    · simp only [scanValue, List.head?_cons, Option.filter_some, hquote, Bool.false_eq_true,
        if_false, scanUnquoted_eq start, ok_bind, Nat.zero_add, sliceTo_take, pure_eq_ok,
        inPlaces_some]

/-- The blanks in front of a value are passed over. -/
theorem readValue?_gap (s : List Char) :
    readValue? s = (readValue? (s.drop (countWhile isBlank s))).map fun (value, n) =>
      (value, countWhile isBlank s + n) := by
  have none : countWhile isBlank (s.drop (countWhile isBlank s)) = 0 := by
    rw [drop_countWhile, countWhile_dropWhile]
  unfold readValue?
  simp only [none, List.drop_zero]
  cases s.drop (countWhile isBlank s) with
  | nil => rfl
  | cons c inner =>
    dsimp only
    split
    · cases find? [c] inner <;> simp [Nat.add_assoc]
    · simp

theorem headBytes_eq (p : Char → Bool) (s : List Char) :
    headBytes p s = byteLength (s.take (countWhile p s)) := by
  rw [headBytes, take_countWhile]

theorem headBytes_eq_zero_iff {p : Char → Bool} {s : List Char} :
    headBytes p s = 0 ↔ countWhile p s = 0 := by
  rw [headBytes, countWhile, List.length_eq_zero_iff]
  constructor
  · intro h
    by_contra hne
    have := byteLength_pos hne
    omega
  · intro h
    rw [h]
    rfl

theorem scanAttribute_eq {t s : List Char} {place : Nat} (h : RestAt t place s) :
    scanAttribute t place = .ok (inPlaces place s (readAttribute? s)) := by
  simp only [scanAttribute, h.sliceFrom, ok_bind, headBytes_eq_zero_iff, readAttribute?]
  by_cases hn : countWhile isAttributeNameChar s = 0
  · simp [hn]
  simp only [hn, if_false, headBytes_eq]
  generalize countWhile isAttributeNameChar s = n
  have behindName := h.drop n
  rw [sliceTo_take, ok_bind, skipBlanks_eq behindName, ok_bind]
  generalize countWhile isBlank (s.drop n) = gap
  have sign := behindName.drop gap
  rw [sign.sliceFrom, ok_bind]
  cases hsign : (s.drop n).drop gap with
  | nil => simp
  | cons c after =>
    by_cases hc : c = '='
    · subst hc
      rw [hsign] at sign
      have start : RestAt t (place + byteLength (s.take n) + byteLength ((s.drop n).take gap) + 1)
        after := sign.cons
      have value := start.drop (countWhile isBlank after)
      simp only [List.head?_cons, beq_self_eq_true, if_true]
      rw [skipBlanks_eq start, ok_bind, value.sliceFrom, ok_bind,
        scanValue_eq (by rw [drop_countWhile, countWhile_dropWhile]), ok_bind, readValue?_gap after]
      generalize countWhile isBlank after = gap'
      cases readValue? (after.drop gap') with
      | none => rfl
      | some found =>
        obtain ⟨v, m⟩ := found
        have size : '='.utf8Size = 1 := rfl
        simp only [inPlaces_some, Option.map_some, pure_eq_ok, byteLength_take_add,
          ← List.drop_drop, hsign, List.drop_one, List.tail_cons, List.take_succ_cons,
          List.take_zero, byteLength_cons, byteLength_nil, size]
        congr 3
        omega
    · simp [hc]

/-! ### Opening tags -/

/-- A tag whose attributes have been read up to a text that begins with its end. -/
def openTag? (t : List Char) (attributes : List Attribute) (left : List Char) : Option OpenTag :=
  let place := byteLength t - byteLength left
  match left with
  | '/' :: '>' :: _ => some ⟨attributes, place + 2, true⟩
  | '>' :: _ => some ⟨attributes, place + 1, false⟩
  | _ => none

theorem openTag?_of_endsTag {t left : List Char} (h : endsTag left = false)
    (attributes : List Attribute) : openTag? t attributes left = none := by
  unfold openTag?
  split
  · simp [endsTag] at h
  · simp [endsTag] at h
  · rfl

/-- The tag that a reader finds when it goes on in front of a text. -/
def tagFrom (t : List Char) (x : (List Attribute × Nat) × List Char) : Option OpenTag :=
  let (st, left) := advance attributeStep 0 x.1 x.2
  openTag? t st.1.reverse left

/-- The blanks in front of an attribute are passed over. -/
theorem tagFrom_skipBlanks (t : List Char) (attributes : List Attribute) (n : Nat)
    (s : List Char) :
    tagFrom t ((attributes, n), s)
      = tagFrom t ((attributes, n + (s.takeWhile isBlank).length), s.dropWhile isBlank) := by
  have passed := advance_attributeStep_blank (allBlank_takeWhile s) attributes n
    (s.dropWhile isBlank)
  rw [List.takeWhile_append_dropWhile] at passed
  rw [tagFrom, tagFrom, passed]

/-- A tag that a reader is reading as well, in front of a text. -/
structure TagProgress.Follows (t : List Char) (st : TagProgress)
    (x : (List Attribute × Nat) × List Char) : Prop where
  rest : RestAt t st.place x.2
  attributes_eq : x.1.1 = st.attributes

theorem tagRound_keeps {t : List Char} {st : TagProgress} {x : (List Attribute × Nat) × List Char}
    (h : st.Follows t x) :
    RoundKeeps (byteLength t) TagProgress.place (tagRound t) (TagProgress.Follows t) (tagFrom t)
      st x := by
  obtain ⟨⟨attributes, n⟩, s⟩ := x
  obtain ⟨h, rfl⟩ := h
  dsimp only at h
  have rest := h.drop (countWhile isBlank s)
  -- the round begins behind the blanks, and so does the step of the reader
  rw [RoundKeeps, tagFrom_skipBlanks t st.attributes n s, tagRound, skipBlanks_eq h, ok_bind, rest.sliceFrom, ok_bind,
    drop_countWhile] at *
  generalize n + (s.takeWhile isBlank).length = n'
  generalize hplace : st.place + byteLength (s.take (countWhile isBlank s)) = place at *
  have hle : st.place ≤ place := by omega
  generalize s.dropWhile isBlank = s at *
  by_cases hs : s = []
  · subst hs
    exact .inl rfl
  cases hend : endsTag s with
  | true =>
    -- the tag ends here
    have stops : tagFrom t ((st.attributes, n'), s) = openTag? t st.attributes.reverse s := by
      rw [tagFrom, advance_of_none (by simp [attributeStep, hend])]
    rw [stops]
    rcases endsTag_iff.1 hend with ⟨left, rfl⟩ | ⟨left, rfl⟩
    · exact .inl (by simp only [openTag?, rest.sub_byteLength]; rfl)
    · exact .inl (by simp only [openTag?, rest.sub_byteLength]; rfl)
  | false =>
    have bound := rest.add_byteLength
    have scanned := scanAttribute_eq rest
    split
    · exact absurd rfl hs
    · simp [endsTag] at hend
    · simp [endsTag] at hend
    rename_i c s _ _
    have hsize := c.utf8Size_pos
    cases hread : readAttribute? (c :: s) with
    | some found =>
      obtain ⟨a, m⟩ := found
      have hm := readAttribute?_pos hread
      have step : attributeStep (st.attributes, n') (c :: s)
          = some ((a :: st.attributes, n' + m), m) := by
        simp [attributeStep, hend, hread]
      have moved := byteLength_pos (s := (c :: s).take m) (by simp; omega)
      have next := rest.drop m
      have := next.add_byteLength
      rw [scanned, hread, inPlaces_some, ok_bind]
      refine .inr ⟨_, ((_, n' + m), _), rfl, ?_, ?_, ⟨next, rfl⟩, ?_⟩
      · show st.place < place + _
        omega
      · show place + _ ≤ _
        omega
      · rw [tagFrom, tagFrom, advance_of_step step hm hs]
    | none =>
      -- a character that begins no attribute is left out
      have step : attributeStep (st.attributes, n') (c :: s)
          = some ((st.attributes, n' + 1), 1) := by
        simp [attributeStep, hend, hread]
      rw [scanned, hread, inPlaces_none, ok_bind]
      refine .inr ⟨_, ((_, n' + 1), s), rfl, ?_, ?_, ⟨rest.cons, rfl⟩, ?_⟩
      · show st.place < place + _
        omega
      · rw [byteLength_cons] at bound
        show place + _ ≤ _
        omega
      · rw [tagFrom, tagFrom, advance_of_step step Nat.one_pos hs]
        rfl

/-- The attributes of a tag, up to its end. -/
theorem openTag_eq {t s : List Char} {place : Nat} (h : RestAt t place s) :
    loop (byteLength t) TagProgress.place (tagRound t) ⟨place, []⟩
      = .ok (tagFrom t (([], 0), s)) := by
  have start : TagProgress.Follows t ⟨place, []⟩ (([], 0), s) := ⟨h, rfl⟩
  exact loop_eq_ok (fun _ _ => tagRound_keeps) start

/-! ### Markup -/

theorem pushNode_nil (node : Node) : pushNode [] node = Node.mergeTexts [node] := by
  cases node <;> simp [pushNode, Node.mergeTexts, Node.mergeOnto]

theorem byteLength_tagCloser (name : List Char) :
    byteLength (tagCloser name) = byteLength name + 3 := by
  have marks : '<'.utf8Size = 1 ∧ '/'.utf8Size = 1 ∧ '>'.utf8Size = 1 := by decide
  simp only [tagCloser, byteLength_append, byteLength_cons, byteLength_nil, marks]
  omega

section Markup

variable {scan : Nat → List Char → Checked (List Node)} {children : Nat → List Char → List Node}
  (hchildren : ∀ pos inner, scan pos inner = .ok (children pos inner))
  {t s r : List Char} {lt base : Nat} (h : RestAt t lt s)

include hchildren

theorem scanChildren_eq (name : List Char) {inner behind : List Char} {start : Nat}
    (hinner : RestAt t start (inner ++ behind)) :
    scanChildren scan t base name start (start + byteLength inner)
      = .ok (readChildren children name (base + start) inner) := by
  rw [scanChildren, hinner.slice rfl, ok_bind, readChildren]
  split
  · rw [pushNode_nil, Nat.add_assoc]
    rfl
  · exact hchildren _ _

include h

theorem scanElement_eq (base gap : Nat) :
    scanElement scan t base lt (lt + byteLength (s.take (1 + gap)))
      = .ok (inPlaces lt s (readElement? children (base + lt) gap s (s.drop (1 + gap)))) := by
  have start := h.drop (1 + gap)
  rw [scanElement, start.sliceFrom, ok_bind, headBytes_eq, sliceTo_take, ok_bind,
    openTag_eq (start.drop _), ok_bind, readElement?]
  have hchars : ∀ c ∈ (s.drop (1 + gap)).take (countWhile isTagNameChar (s.drop (1 + gap))),
      isTagNameChar c = true := by
    rw [take_countWhile]
    exact fun c => List.mem_takeWhile_imp
  generalize countWhile isTagNameChar (s.drop (1 + gap)) = nameLength at *
  generalize (s.drop (1 + gap)).take nameLength = name at *
  cases hread : readAttributes ((s.drop (1 + gap)).drop nameLength) with | mk attributes read
  obtain ⟨k, left⟩ := read
  have hleft := readAttributes_rest hread
  rw [List.drop_drop, List.drop_drop, ← Nat.add_assoc] at hleft
  have place := h.drop (1 + gap + nameLength + k)
  rw [← hleft] at place
  have tag : tagFrom t (([], 0), (s.drop (1 + gap)).drop nameLength) = openTag? t attributes left :=
    congrArg (fun (read : List Attribute × Nat × List Char) => openTag? t read.1 read.2.2) hread
  simp only [tag]
  -- from here on it only matters how many characters stand in front of the end of the tag
  generalize 1 + gap + nameLength + k = tagLength at *
  -- how far a tag of so many characters reaches, with what is known to stand behind it
  have reaches (n : Nat) : byteLength (s.take (tagLength + n))
      = byteLength (s.take tagLength) + byteLength (left.take n) := by
    rw [byteLength_take_add, ← hleft]
  cases hend : endsTag left with
  | false =>
    rw [openTag?_of_endsTag hend]
    dsimp only
    split
    · simp [endsTag] at hend
    · simp [endsTag] at hend
    · rfl
  | true =>
    rcases endsTag_iff.1 hend with ⟨content, rfl⟩ | ⟨content, rfl⟩
    · rw [openTag?, place.sub_byteLength]
      have bracket : byteLength (('>' :: content).take 1) = 1 := rfl
      simp only [Bool.false_or]
      split
      · simp only [pure_eq_ok, inPlaces_some, reaches, bracket, Nat.add_assoc]
      -- the content goes up to the closing tag, which is as long as the name and three marks
      have behind : RestAt t (lt + byteLength (s.take tagLength) + 1) content := place.cons
      rw [scanClosingTag_eq hchars behind, ok_bind]
      cases hclosing : closingTag? name content with
      | none => rfl
      | some n =>
        obtain ⟨inner, rest, rfl, hn⟩ := closingTagFrom_eq_some hclosing
        obtain rfl : inner.length = n := by omega
        rw [List.append_assoc] at behind ⊢
        have opened : byteLength (s.take (tagLength + 1)) = byteLength (s.take tagLength) + 1 := by
          rw [reaches, bracket]
        have content : s.drop (tagLength + 1) = inner ++ (tagCloser name ++ rest) := by
          rw [← List.drop_drop, ← hleft, List.drop_one, List.tail_cons, List.append_assoc]
        have closed : byteLength (s.take (tagLength + 1 + inner.length + (tagCloser name).length))
            = byteLength (s.take tagLength) + 1 + byteLength inner + byteLength name + 3 := by
          rw [byteLength_take_add, byteLength_take_add, opened, content, ← List.drop_drop, content,
            List.take_left, List.drop_left, List.take_left, byteLength_tagCloser, ← Nat.add_assoc]
        simp only [Option.map_some, List.take_left, scanChildren_eq hchildren name behind, ok_bind,
          pure_eq_ok, inPlaces_some]
        rw [opened, closed]
        simp only [Nat.add_assoc]
    · rw [openTag?, place.sub_byteLength]
      have slash : byteLength (('/' :: '>' :: content).take 2) = 2 := rfl
      simp only [Bool.true_or, if_true, pure_eq_ok, inPlaces_some, reaches, slash, Nat.add_assoc]

/-- Markup that is found by places is the markup that is read. -/
theorem scanMarkup_eq (hs : s = '<' :: r) :
    scanMarkup scan t base lt = .ok (inPlaces lt s (readMarkup? children (base + lt) s)) := by
  have behind : RestAt t (lt + 1) r := by
    rw [hs] at h
    exact h.cons
  have gapBytes : lt + 1 + byteLength (r.take (countWhile isBlank r))
      = lt + byteLength (s.take (1 + countWhile isBlank r)) := by
    have size : '<'.utf8Size = 1 := rfl
    rw [hs, Nat.add_comm 1, List.take_succ_cons, byteLength_cons, size, Nat.add_assoc]
  rw [scanMarkup, skipBlanks_eq behind, ok_bind, gapBytes, readMarkup?,
    show s.drop 1 = r by simp [hs]]
  generalize countWhile isBlank r = gap
  have start := h.drop (1 + gap)
  have element := scanElement_eq hchildren h base gap
  rw [start.sliceFrom, ok_bind]
  generalize hdrop : s.drop (1 + gap) = rest at *
  have whole (n : Nat) :
      byteLength (s.take (1 + gap + n))
        = byteLength (s.take (1 + gap)) + byteLength (rest.take n) := by
    rw [byteLength_take_add, hdrop]
  split
  · -- a comment, which is kept from its `<` on
    rename_i rest
    simp only [readComment?, findPlace?]
    cases hfind : find? "-->".toList ('!' :: '-' :: '-' :: rest) with
    | none => rfl
    | some n =>
      have stop : lt + byteLength (s.take (1 + gap))
            + byteLength (('!' :: '-' :: '-' :: rest).take n) + 3
          = lt + byteLength (s.take (1 + gap + n + 3)) := by
        have found : byteLength (('!' :: '-' :: '-' :: rest).take (n + 3))
            = byteLength (('!' :: '-' :: '-' :: rest).take n) + 3 := byteLength_take_find? hfind
        rw [Nat.add_assoc _ n 3, whole, found, ← Nat.add_assoc, Nat.add_assoc]
      simp only [Option.map_some, inPlaces_some, stop, h.slice_take, ok_bind, pure_eq_ok,
        Nat.add_assoc base]
  · -- a declaration, which is kept from behind its blanks on
    rename_i rest _
    simp only [readDeclaration?, findPlace?]
    cases hfind : find? ['>'] ('!' :: rest) with
    | none => rfl
    | some n =>
      have stop : lt + byteLength (s.take (1 + gap)) + byteLength (('!' :: rest).take n) + 1
          = lt + byteLength (s.take (1 + gap)) + byteLength (('!' :: rest).take (n + 1)) := by
        have found : byteLength (('!' :: rest).take (n + 1))
            = byteLength (('!' :: rest).take n) + 1 :=
          byteLength_take_find? hfind
        rw [found, ← Nat.add_assoc]
      simp only [Option.map_some, inPlaces_some, stop, start.slice_take, ok_bind, pure_eq_ok,
        Nat.add_assoc _ n 1, whole]
      simp only [Nat.add_assoc]
  · rename_i c rest _ _
    simp only [element]
    split <;> rfl
  · rfl

end Markup

end RazorLayout.Template

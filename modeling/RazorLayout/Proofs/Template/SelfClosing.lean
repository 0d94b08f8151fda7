import RazorLayout.Proofs.Template.Closing
import RazorLayout.Proofs.Template.OpeningTag

/-!
# Two ways of seeing that a tag closes itself

An element is read attribute by attribute, and closes itself when its tag ends in `/>`. The search
for a closing tag looks at tags of the same name only briefly: it takes the next `>` for the end of
the tag. The two agree on the end of a tag unless the value of an attribute holds a `>`, which is
possible in quotes only. Then the search looks at that value, and what it sees is whether a slash
stands in front of the first `>` there.

## Main definitions

* `endingValue?`: the value in which the search takes the tag to end
* `FirstEnd`: where the first `>` of a tag stands

## Main results

* `FirstEnd.append`: one piece of a tag behind another
* `firstEnd_readAttributes`: the first `>` of a tag that is read attribute by attribute
* `FirstEnd.closesItself_eq`: what the search sees of a tag
* `closesItself_eq_isSelfClosing_iff`: when the search agrees with the reader
-/

namespace RazorLayout.Template

open Text

/-! ### The first end of a tag -/

/-- The first value that holds a `>`. -/
def endingValue? (as : List Attribute) : Option (List Char) :=
  as.findSome? fun a => a.value.filter (·.contains '>')

/-- Where the first `>` stands, seen from a piece of a tag in front of `rest`: behind the piece, or
within a value of the piece, which is in quotes. When it stands directly behind the piece, no slash
ends the piece. -/
inductive FirstEnd : (value? : Option (List Char)) → (piece rest : List Char) → Prop
  | behind {piece rest : List Char} (hpiece : '>' ∉ piece)
    (hslash : rest.head? = some '>' → piece.getLast? ≠ some '/') : FirstEnd none piece rest
  | within {front value back rest : List Char} {q : Char} (hfront : '>' ∉ front)
    (hq : q = '"' ∨ q = '\'') (hvalue : '>' ∈ value) :
    FirstEnd (some value) (front ++ q :: (value ++ back)) rest

/-- One piece of a tag behind another. -/
theorem FirstEnd.append {value? next? : Option (List Char)} {piece next rest : List Char}
    (h : FirstEnd value? piece (next ++ rest)) (hnext : FirstEnd next? next rest) :
    FirstEnd (value?.or next?) (piece ++ next) rest := by
  cases h with
  | @within front value back _ q hfront hq hvalue =>
    -- the first piece decides, whatever follows
    have whole : front ++ q :: (value ++ back) ++ next
        = front ++ q :: (value ++ (back ++ next)) := by simp
    rw [whole]
    exact .within hfront hq hvalue
  | behind hpiece hslash =>
    cases hnext with
    | @within front value back _ q hfront hq hvalue =>
      rw [← List.append_assoc]
      exact .within (by simp [hpiece, hfront]) hq hvalue
    | behind hpiece' hslash' =>
      refine .behind (by simp [hpiece, hpiece']) ?_
      intro hrest
      by_cases hnil : next = []
      · subst hnil
        simpa using hslash hrest
      · rw [List.getLast?_append_of_ne_nil piece hnil]
        exact hslash' hrest

/-- A piece that holds neither a `>` nor a slash. -/
theorem firstEnd_of_not_mem {piece : List Char} (hend : '>' ∉ piece) (hslash : '/' ∉ piece)
    (rest : List Char) : FirstEnd none piece rest :=
  .behind hend fun _ hlast => hslash (List.mem_of_getLast? hlast)

theorem firstEnd_of_allBlank {gap : List Char} (hgap : allBlank gap = true) (rest : List Char) :
    FirstEnd none gap rest :=
  firstEnd_of_not_mem (not_mem_of_allBlank hgap (by decide))
    (not_mem_of_allBlank hgap (by decide)) rest

theorem firstEnd_of_nameChars {name : List Char} (hname : ∀ c ∈ name, isAttributeNameChar c = true)
    (rest : List Char) : FirstEnd none name rest := by
  have excluded {c : Char} (hc : isAttributeNameChar c = false) : c ∉ name := by
    intro h
    simp [hname c h] at hc
  exact firstEnd_of_not_mem (excluded (isAttributeNameChar_delimiter (by decide)))
    (excluded (isAttributeNameChar_delimiter (by decide))) rest

/-! ### Attributes -/

/-- A value without quotes ends in front of `>` and of `/>`. -/
theorem firstEnd_of_endsUnquoted {value rest : List Char}
    (h : ∀ u v, value = u ++ v → v ≠ [] → endsUnquoted (v ++ rest) = false) :
    '>' ∉ value ∧ FirstEnd none value rest := by
  have hend : '>' ∉ value := by
    intro hmem
    obtain ⟨u, v, rfl⟩ := List.append_of_mem hmem
    simpa [endsUnquoted] using h u ('>' :: v) rfl (by simp)
  refine ⟨hend, .behind hend ?_⟩
  intro hrest hlast
  obtain ⟨u, rfl⟩ := List.getLast?_eq_some_iff.1 hlast
  simpa [endsUnquoted, hrest] using h u ['/'] rfl (by simp)

theorem ValueSource.firstEnd {value text rest : List Char} (h : ValueSource value text rest) :
    FirstEnd ((some value).filter (·.contains '>')) text rest := by
  cases h with
  | @quoted gap _ _ q hgap hq =>
    have hgap : '>' ∉ gap := not_mem_of_allBlank hgap (by decide)
    by_cases hvalue : '>' ∈ value
    · simpa [Option.filter, hvalue] using FirstEnd.within hgap hq hvalue
    · -- the closing quote is the end of the piece
      have hend : '>' ∉ gap ++ q :: (value ++ [q]) := by
        rcases hq with rfl | rfl <;> simp [hgap, hvalue]
      have hlast : (gap ++ q :: (value ++ [q])).getLast? ≠ some '/' := by
        rw [← List.cons_append, ← List.append_assoc, List.getLast?_concat]
        rcases hq with rfl | rfl <;> decide
      simpa [Option.filter, hvalue] using FirstEnd.behind hend fun _ => hlast
  | unquoted hgap hvalue =>
    obtain ⟨hend, hfirst⟩ := firstEnd_of_endsUnquoted hvalue
    simpa [Option.filter, hend] using (firstEnd_of_allBlank hgap (value ++ rest)).append hfirst

theorem AttributeSource.firstEnd {a : Attribute} {text rest : List Char}
    (h : AttributeSource a text rest) :
    FirstEnd (a.value.filter (·.contains '>')) text rest := by
  cases h with
  | bare _ hchars => exact firstEnd_of_nameChars hchars rest
  | @valued name gap value text _ _ hchars hgap hvalue =>
    -- neither the name nor the equals sign is an end, and so the value decides
    have equals : FirstEnd none ['='] (text ++ rest) := firstEnd_of_not_mem (by simp) (by simp) _
    exact (firstEnd_of_nameChars hchars _).append
      ((firstEnd_of_allBlank hgap _).append (equals.append hvalue.firstEnd))

/-- A character that is passed over does not end the tag. -/
theorem firstEnd_of_stray {c : Char} {s : List Char} (h : endsTag (c :: s) = false) :
    FirstEnd none [c] s := by
  rw [Bool.eq_false_iff, ne_eq, endsTag_iff, not_or] at h
  obtain ⟨hclose, hslash⟩ := h
  refine .behind ?_ ?_
  · intro hmem
    obtain rfl := List.mem_singleton.1 hmem
    exact hclose ⟨s, rfl⟩
  · intro hhead hlast
    obtain rfl : c = '/' := by simpa using hlast
    obtain ⟨rest, rfl⟩ := List.head?_eq_some_iff.1 hhead
    exact hslash ⟨rest, rfl⟩

/-- The first `>` of a tag that is read attribute by attribute stands in the first value that holds
one, and else at the end of the tag. -/
theorem firstEnd_readAttributes {s : List Char} {as : List Attribute} {n : Nat} {rest : List Char}
    (h : readAttributes s = (as, n, rest)) :
    ∃ inside, s = inside ++ rest ∧ FirstEnd (endingValue? as) inside rest := by
  -- each step adds one piece to what is read so far
  have step : ∀ (st : List Attribute × Nat) left st' m, left ≠ [] →
      (∃ inside, s = inside ++ left ∧ FirstEnd (endingValue? st.1.reverse) inside left) →
      attributeStep st left = some (st', m) → 0 < m ∧
        ∃ inside, s = inside ++ left.drop m ∧
          FirstEnd (endingValue? st'.1.reverse) inside (left.drop m) := by
    rintro ⟨as, n⟩ left st' m hne ⟨inside, rfl, hinside⟩ hstep
    obtain ⟨hend, ⟨a, text, behind, rfl, rfl, rfl, hread, hsource⟩ |
      ⟨c, behind, rfl, rfl, rfl, -⟩⟩ := attributeStep_eq_some hne hstep
    · refine ⟨readAttribute?_pos hread, inside ++ text, by simp, ?_⟩
      rw [List.drop_left]
      simpa [endingValue?, List.findSome?_append] using hinside.append hsource.firstEnd
    · refine ⟨Nat.one_pos, inside ++ [c], by simp, ?_⟩
      simpa using hinside.append (firstEnd_of_stray hend)
  have start : FirstEnd none [] s := firstEnd_of_not_mem (by simp) (by simp) s
  have reached := advance_invariant step ([], 0) s ⟨[], rfl, start⟩
  simp only [readAttributes, Prod.mk.injEq] at h
  obtain ⟨rfl, -, rfl⟩ := h
  exact reached

/-! ### What the search sees -/

@[simp] theorem closesItself_nil_tagEnd (behind : List Char) :
    closesItself [] ('>' :: behind) = false :=
  closesItself_openTag List.not_mem_nil (by simp) behind

@[simp] theorem closesItself_nil_slash (behind : List Char) :
    closesItself [] ('/' :: '>' :: behind) = true :=
  closesItself_selfClosing [] List.not_mem_nil behind

theorem closesItself_of_endsTag {rest : List Char} (h : endsTag rest = true) :
    closesItself [] rest = true ↔ rest.head? = some '/' := by
  rcases endsTag_iff.1 h with ⟨behind, rfl⟩ | ⟨behind, rfl⟩ <;> simp

/-- The search sees of a tag what it would see of its end alone, or of the value in which the first
`>` stands. -/
theorem FirstEnd.closesItself_eq {value? : Option (List Char)} {inside rest : List Char}
    (h : FirstEnd value? inside rest) (hend : endsTag rest = true) {before : List Char}
    (hbefore : '/' ∉ before) :
    closesItself before (inside ++ rest) = closesItself [] (value?.getD rest) := by
  cases h with
  | behind hinside hslash =>
    rw [Option.getD_none]
    rcases endsTag_iff.1 hend with ⟨behind, rfl⟩ | ⟨behind, rfl⟩
    · -- neither the tag nor what stands in front of it has a slash here
      have hlast : (before ++ inside).getLast? ≠ some '/' := by
        by_cases hnil : inside = []
        · subst hnil
          rw [List.append_nil]
          exact fun h => hbefore (List.mem_of_getLast? h)
        · rw [List.getLast?_append_of_ne_nil before hnil]
          exact hslash rfl
      rw [closesItself_openTag hinside hlast, closesItself_nil_tagEnd]
    · rw [closesItself_selfClosing before hinside, closesItself_nil_slash]
  | @within front value back _ q hfront hq hvalue =>
    obtain ⟨u, v, rfl, hu⟩ := List.eq_append_cons_of_mem hvalue
    have whole : front ++ q :: (u ++ '>' :: v ++ back) ++ rest
        = (front ++ q :: u) ++ '>' :: (v ++ back ++ rest) := by simp
    have hquoted : '>' ∉ front ++ q :: u := by
      rcases hq with rfl | rfl <;> simp [hfront, hu]
    rw [whole, closesItself_append before hquoted, Option.getD_some, closesItself_append [] hu,
      List.nil_append, ← List.append_assoc]
    by_cases hnil : u = []
    · -- the value begins with the bracket, behind its quote
      subst hnil
      rw [List.getLast?_concat]
      rcases hq with rfl | rfl <;> rfl
    · rw [List.append_cons, List.getLast?_append_of_ne_nil _ hnil]

section Element

variable {children : Nat → List Char → List Node} {pos n : Nat} {node : Node} {tag : Tag}

theorem isTagName_of_tag? {t : List Char} (h : readMarkup? children pos ('<' :: t) = some (node, n))
    (htag : tag? node = some tag) : IsTagName tag.name := by
  obtain ⟨⟨c, rest, hrest, hletter⟩, helement⟩ := readElement?_of_tag h htag
  obtain ⟨hname, -⟩ := readElement?_tag helement htag
  have hc : isTagNameChar c = true := by simp [isTagNameChar, isLetterOrDigit, hletter]
  refine ⟨⟨c, rest.takeWhile isTagNameChar, ?_, hletter⟩, ?_⟩
  · rw [hname, hrest, List.takeWhile_cons_of_pos hc]
  · intro d hd
    rw [hname] at hd
    exact List.mem_takeWhile_imp hd

variable {s : List Char}

/-- The inside and the end of a tag whose name directly follows the bracket. -/
theorem exists_tagEnd (h : readMarkup? children pos ('<' :: (tag.name ++ s)) = some (node, n))
    (htag : tag? node = some tag) :
    ∃ inside rest, s = inside ++ rest ∧ FirstEnd (endingValue? tag.attributes) inside rest ∧
      endsTag rest = true ∧
      (isVoid tag.name = false → (isSelfClosing node = true ↔ rest.head? = some '/')) := by
  have hname := isTagName_of_tag? h htag
  obtain ⟨c, name, hcons, -⟩ := hname.letter
  have hblank : isBlank c = false := isBlank_of_isAttributeNameChar
    (isAttributeNameChar_of_isTagNameChar (hname.chars c (by simp [hcons])))
  have start : (tag.name ++ s).dropWhile isBlank = tag.name ++ s := by simp [hcons, hblank]
  obtain ⟨-, helement⟩ := readElement?_of_tag h htag
  rw [start] at helement
  obtain ⟨htake, k, rest, hattributes, hend, hslash⟩ := readElement?_tag helement htag
  -- the name is all that is read as the name, so that the attributes are read from `s`
  have behind : (tag.name ++ s).dropWhile isTagNameChar = s := by
    have parts := List.takeWhile_append_dropWhile (p := isTagNameChar) (l := tag.name ++ s)
    rw [← htake] at parts
    exact List.append_cancel_left parts
  rw [behind] at hattributes
  obtain ⟨inside, hinside, hfirst⟩ := firstEnd_readAttributes hattributes
  exact ⟨inside, rest, hinside, hfirst, hend, hslash⟩

/-- The search for a closing tag and the reader agree on whether a tag closes itself, unless the
first value that holds a `>` looks different from the end of the tag. -/
theorem closesItself_eq_isSelfClosing_iff
    (h : readMarkup? children pos ('<' :: (tag.name ++ s)) = some (node, n))
    (htag : tag? node = some tag) (hvoid : isVoid tag.name = false) :
    closesItself (tagOpener tag.name) s = isSelfClosing node ↔
      ∀ value, endingValue? tag.attributes = some value →
        closesItself [] value = isSelfClosing node := by
  obtain ⟨inside, rest, rfl, hfirst, hend, hslash⟩ := exists_tagEnd h htag
  have hopener : '/' ∉ tagOpener tag.name := by
    have hname : '/' ∉ tag.name :=
      (isTagName_of_tag? h htag).not_mem (isAttributeNameChar_delimiter (by decide))
    simp [tagOpener, hname]
  rw [hfirst.closesItself_eq hend hopener]
  cases endingValue? tag.attributes with
  | none =>
    have agree : closesItself [] rest = isSelfClosing node := by
      rw [Bool.eq_iff_iff, closesItself_of_endsTag hend, hslash hvoid]
    simpa using agree
  | some value => simp

end Element

/-- A value with the end of a tag in it, on a tag that ends in the same way. -/
theorem closesItself_eq_isSelfClosing_quoted :
    let s := " a=\"b/>c\" />d".toList
    let tag : Tag := ⟨['p'], [⟨['a'], some "b/>c".toList⟩], ⟨0, 14⟩⟩
    readMarkup? (readNested 1) 0 ('<' :: (tag.name ++ s)) = some (.selfClosing tag, 14) ∧
      isVoid tag.name = false ∧ closesItself (tagOpener tag.name) s = true := by
  intro s tag
  have read : readMarkup? (readNested 1) 0 ('<' :: (tag.name ++ s))
      = some (.selfClosing tag, 14) := by
    rfl
  have hvoid : isVoid tag.name = false := by decide +kernel
  refine ⟨read, hvoid, (closesItself_eq_isSelfClosing_iff read rfl hvoid).2 ?_⟩
  intro value hvalue
  have first : endingValue? tag.attributes = some "b/>c".toList := by decide +kernel
  obtain rfl := Option.some.inj (first.symm.trans hvalue)
  decide +kernel

/-- A value may hold a `>` that has no slash in front of it, as an arrow does. The element closes
itself, and the search takes it for one that needs a closing tag. -/
theorem closesItself_ne_isSelfClosing :
    let s := " OnClick=\"() => Go()\" /></Item>".toList
    ∃ node n tag, readMarkup? (readNested 1) 0 ('<' :: (tag.name ++ s)) = some (node, n) ∧
      tag? node = some tag ∧ isVoid tag.name = false ∧
      closesItself (tagOpener tag.name) s ≠ isSelfClosing node := by
  intro s
  let tag : Tag :=
    ⟨"Item".toList, [⟨"OnClick".toList, some "() => Go()".toList⟩], ⟨0, 29⟩⟩
  have read : readMarkup? (readNested 1) 0 ('<' :: (tag.name ++ s))
      = some (.selfClosing tag, 29) := by
    rfl
  exact ⟨.selfClosing tag, 29, tag, read, rfl, by decide +kernel, by decide +kernel⟩

end RazorLayout.Template

import RazorLayout.Proofs.Template.Depth
import RazorLayout.Proofs.Template.Tag

/-!
# What an opening tag keeps of its source

The inside of a tag is read from piece to piece: a piece is an attribute, or one character that
begins none and is passed over. Blanks and quotes apart, attributes keep everything that stands in
their pieces, and what is passed over is in no node. So a tag keeps its source exactly when nothing
but blanks and quotes is passed over.

## Main definitions

* `tight`: a text without blanks and quotes
* `openingTag`: the source of a tag up to its end
* `passedOver`: the characters of a tag that belong to no attribute
* `AttributeSource`: what an attribute is read from
* `TagInside`: the inside of a tag, piece by piece

## Main results

* `readAttribute?_eq_some`: an attribute is read from a piece of the tag
* `AttributeSource.tight_eq`: an attribute keeps its piece
* `tagInside_readAttributes`: the inside of a tag is read piece by piece
* `ReadAt.named`: whatever is read has its names
* `tight_openingTag_eq_iff`: when a tag keeps its source
-/

namespace RazorLayout.Template

open Text

/-! ### Texts without blanks and quotes -/

/-- Blanks and quotes, which may change in a tag. -/
def isLoose (c : Char) : Bool := isBlank c || c == '"' || c == '\''

/-- The text without blanks and quotes. -/
def tight (s : List Char) : List Char := s.filter fun c => !isLoose c

@[simp] theorem tight_nil : tight [] = [] := rfl

@[simp] theorem tight_append (s t : List Char) : tight (s ++ t) = tight s ++ tight t :=
  List.filter_append ..

theorem tight_eq_nil_iff {s : List Char} : tight s = [] ↔ ∀ c ∈ s, isLoose c = true := by
  simp [tight]

theorem tight_of_allBlank {s : List Char} (h : allBlank s = true) : tight s = [] := by
  rw [tight_eq_nil_iff]
  intro c hc
  simp [isLoose, allBlank_iff.1 h c hc]

theorem tight_cons_of_quote {q : Char} (hq : q = '"' ∨ q = '\'') (s : List Char) :
    tight (q :: s) = tight s := by
  rcases hq with rfl | rfl <;> simp [tight, isLoose]

/-! ### Attributes -/

/-- The attribute in plain text, without quotes. -/
def plainAttribute (a : Attribute) : List Char := a.name ++ a.value.elim [] ('=' :: ·)

/-- What a value is read from, in front of `rest`: blanks, and the value in quotes, or up to the
next blank or the end of the tag. -/
inductive ValueSource : (value text rest : List Char) → Prop
  | quoted {gap value rest : List Char} {q : Char} (hgap : allBlank gap = true)
    (hq : q = '"' ∨ q = '\'') : ValueSource value (gap ++ q :: (value ++ [q])) rest
  | unquoted {gap value rest : List Char} (hgap : allBlank gap = true)
    (hvalue : ∀ u v, value = u ++ v → v ≠ [] → endsUnquoted (v ++ rest) = false) :
    ValueSource value (gap ++ value) rest

/-- What an attribute is read from, in front of `rest`: a name alone, or a name and a value with the
equals sign and blanks between them. -/
inductive AttributeSource : (a : Attribute) → (text rest : List Char) → Prop
  | bare {name rest : List Char} (hne : name ≠ [])
    (hchars : ∀ c ∈ name, isAttributeNameChar c = true) : AttributeSource ⟨name, none⟩ name rest
  | valued {name gap value text rest : List Char} (hne : name ≠ [])
    (hchars : ∀ c ∈ name, isAttributeNameChar c = true) (hgap : allBlank gap = true)
    (hvalue : ValueSource value text rest) :
    AttributeSource ⟨name, some value⟩ (name ++ (gap ++ '=' :: text)) rest

theorem readValue?_eq_some {s value : List Char} {n : Nat} (h : readValue? s = some (value, n)) :
    ∃ text rest, s = text ++ rest ∧ n = text.length ∧ ValueSource value text rest := by
  have gap : allBlank (s.takeWhile isBlank) = true := allBlank_takeWhile s
  have whole : s = s.takeWhile isBlank ++ s.dropWhile isBlank :=
    List.takeWhile_append_dropWhile.symm
  simp only [readValue?, drop_countWhile] at h
  split at h
  · rename_i hrest
    obtain ⟨rfl, rfl⟩ := Prod.mk.inj (Option.some.inj h)
    refine ⟨s.takeWhile isBlank ++ [], [], by simpa [hrest] using whole, by simp [countWhile], ?_⟩
    exact .unquoted gap (by simp)
  · rename_i c inner hrest
    split at h
    · -- a value in quotes
      rename_i hquote
      have hquote : c = '"' ∨ c = '\'' := by simpa using hquote
      simp only [Option.map_eq_some_iff, Prod.mk.injEq] at h
      obtain ⟨k, hfind, rfl, rfl⟩ := h
      obtain ⟨before, rest, rfl, rfl⟩ := find?_eq_some hfind
      refine ⟨s.takeWhile isBlank ++ c :: (before ++ [c]), rest, ?_, ?_, ?_⟩
      · conv_lhs => rw [whole, hrest]
        simp
      · simp only [countWhile, List.length_append, List.length_cons, List.length_nil]
        omega
      · rw [List.take_left]
        exact .quoted gap hquote
    · -- a value without quotes
      obtain ⟨rfl, rfl⟩ := Prod.mk.inj (Option.some.inj h)
      obtain ⟨value, rest, hsplit, hcount, hvalue⟩ := exists_countUntil endsUnquoted (c :: inner)
      rw [hrest, hcount, hsplit, List.take_left]
      refine ⟨s.takeWhile isBlank ++ value, rest, ?_, ?_, .unquoted gap hvalue⟩
      · conv_lhs => rw [whole, hrest, hsplit]
        rw [List.append_assoc]
      · rw [List.length_append, countWhile]

theorem readAttribute?_eq_some {s : List Char} {a : Attribute} {n : Nat}
    (h : readAttribute? s = some (a, n)) :
    ∃ text rest, s = text ++ rest ∧ n = text.length ∧ AttributeSource a text rest := by
  have whole : s = s.takeWhile isAttributeNameChar ++ s.dropWhile isAttributeNameChar :=
    List.takeWhile_append_dropWhile.symm
  simp only [readAttribute?, drop_countWhile, take_countWhile] at h
  split at h
  · simp at h
  · rename_i hlength
    have hname : s.takeWhile isAttributeNameChar ≠ [] := by
      simpa [countWhile] using hlength
    have hchars : ∀ c ∈ s.takeWhile isAttributeNameChar, isAttributeNameChar c = true :=
      fun _ hc => List.mem_takeWhile_imp hc
    generalize s.dropWhile isAttributeNameChar = rest at *
    split at h
    · -- a name, blanks and a value
      rename_i after hafter
      simp only [Option.map_eq_some_iff, Prod.mk.injEq, Prod.exists] at h
      obtain ⟨value, m, hvalue, rfl, rfl⟩ := h
      obtain ⟨text, behind, rfl, rfl, htext⟩ := readValue?_eq_some hvalue
      refine ⟨s.takeWhile isAttributeNameChar ++ (rest.takeWhile isBlank ++ '=' :: text), behind,
        ?_, ?_, .valued hname hchars (allBlank_takeWhile rest) htext⟩
      · conv_lhs => rw [whole, ← List.takeWhile_append_dropWhile (p := isBlank) (l := rest), hafter]
        simp
      · simp only [countWhile, List.length_append, List.length_cons]
        omega
    · -- a name alone
      obtain ⟨rfl, rfl⟩ := Prod.mk.inj (Option.some.inj h)
      exact ⟨s.takeWhile isAttributeNameChar, rest, whole, rfl, .bare hname hchars⟩

/-- A value keeps what stands behind the equals sign. -/
theorem ValueSource.tight_eq {value text rest : List Char} (h : ValueSource value text rest) :
    tight text = tight value := by
  cases h with
  | quoted hgap hq =>
    rw [tight_append, tight_of_allBlank hgap, tight_cons_of_quote hq, tight_append,
      tight_cons_of_quote hq]
    simp
  | unquoted hgap _ => rw [tight_append, tight_of_allBlank hgap, List.nil_append]

theorem AttributeSource.name_ne_nil {a : Attribute} {text rest : List Char}
    (h : AttributeSource a text rest) : a.name ≠ [] := by
  cases h with
  | bare hne _ => exact hne
  | valued hne _ _ _ => exact hne

/-- An attribute keeps its piece of the tag. -/
theorem AttributeSource.tight_eq {a : Attribute} {text rest : List Char}
    (h : AttributeSource a text rest) : tight text = tight (plainAttribute a) := by
  cases h with
  | bare _ _ => simp [plainAttribute]
  | @valued name gap value text _ _ _ hgap hvalue =>
    have equals : tight ('=' :: text) = '=' :: tight text := rfl
    rw [tight_append, tight_append, tight_of_allBlank hgap, equals, hvalue.tight_eq, plainAttribute,
      tight_append]
    rfl

/-! ### The inside of a tag -/

/-- `passedOver`, once the first `skip` characters are known to belong to an attribute. -/
def passedOverFrom : (skip : Nat) → List Char → List Char
  | _, [] => []
  | skip + 1, _ :: s => passedOverFrom skip s
  | 0, c :: s =>
    if endsTag (c :: s) then []
    else
      match readAttribute? (c :: s) with
      | some (_, n) => passedOverFrom (n - 1) s
      | none => c :: passedOverFrom 0 s

/-- The characters up to the end of a tag that belong to no attribute. The text begins behind the
name of the tag. -/
def passedOver (s : List Char) : List Char := passedOverFrom 0 s

theorem passedOverFrom_skip (skip : Nat) (s : List Char) :
    passedOverFrom skip s = passedOver (s.drop skip) := by
  induction s generalizing skip with
  | nil => simp [passedOverFrom, passedOver]
  | cons c s ih =>
    cases skip with
    | zero => rfl
    | succ skip => simpa [passedOverFrom] using ih skip

theorem passedOver_of_endsTag {s : List Char} (h : endsTag s = true) : passedOver s = [] := by
  cases s with
  | nil => rfl
  | cons c s => rw [passedOver, passedOverFrom, if_pos h]

theorem passedOver_of_attribute {s : List Char} {a : Attribute} {n : Nat}
    (hend : endsTag s = false) (h : readAttribute? s = some (a, n)) :
    passedOver s = passedOver (s.drop n) := by
  obtain ⟨m, rfl⟩ := Nat.exists_eq_add_one_of_ne_zero (readAttribute?_pos h).ne'
  cases s with
  | nil => rfl
  | cons c s =>
    rw [passedOver, passedOverFrom, if_neg (by simp [hend]), h]
    exact passedOverFrom_skip m s

theorem passedOver_of_stray {c : Char} {s : List Char} (hend : endsTag (c :: s) = false)
    (h : readAttribute? (c :: s) = none) : passedOver (c :: s) = c :: passedOver s := by
  rw [passedOver, passedOverFrom, if_neg (by simp [hend]), h]
  rfl

/-- The inside of a tag, piece by piece, with its attributes and the characters in between. -/
inductive TagInside : List Char → List Attribute → List Char → Prop
  | nil : TagInside [] [] []
  | spelt {inside text passed : List Char} {as : List Attribute} {a : Attribute}
    (front : TagInside inside as passed) (hname : a.name ≠ [])
    (htext : tight text = tight (plainAttribute a)) :
    TagInside (inside ++ text) (as ++ [a]) passed
  | stray {inside passed : List Char} {as : List Attribute} (front : TagInside inside as passed)
    (c : Char) : TagInside (inside ++ [c]) as (passed ++ [c])

namespace TagInside

variable {inside passed : List Char} {as : List Attribute}

theorem name_ne_nil (h : TagInside inside as passed) : ∀ a ∈ as, a.name ≠ [] := by
  induction h with
  | nil => simp
  | spelt _ hname _ ih => simpa [or_imp, forall_and, hname] using ih
  | stray _ c ih => exact ih

/-- Attributes add nothing to their source, and keep its order. -/
theorem sublist (h : TagInside inside as passed) :
    (tight (as.flatMap plainAttribute)).Sublist (tight inside) := by
  induction h with
  | nil => exact .slnil
  | spelt _ _ htext ih =>
    rw [List.flatMap_append, tight_append, tight_append, htext, List.flatMap_singleton]
    exact ih.append (.refl _)
  | stray _ c ih =>
    rw [tight_append]
    exact ih.trans (List.sublist_append_left ..)

theorem length_eq (h : TagInside inside as passed) :
    (tight inside).length
      = (tight (as.flatMap plainAttribute)).length + (tight passed).length := by
  induction h with
  | nil => rfl
  | spelt _ _ htext ih =>
    simp only [List.flatMap_append, List.flatMap_singleton, tight_append, htext,
      List.length_append]
    omega
  | stray _ c ih =>
    simp only [tight_append, List.length_append]
    omega

/-- Attributes keep the inside of their tag exactly when blanks and quotes alone are passed over. -/
theorem tight_eq_iff (h : TagInside inside as passed) :
    tight inside = tight (as.flatMap plainAttribute) ↔ ∀ c ∈ passed, isLoose c = true := by
  have length := h.length_eq
  rw [← tight_eq_nil_iff]
  constructor
  · intro kept
    rw [kept] at length
    exact List.length_eq_zero_iff.1 (by omega)
  · intro loose
    rw [loose] at length
    exact (h.sublist.eq_of_length_le (by simp [length])).symm

end TagInside

/-- One step through a tag: an attribute and the piece it is read from, or one character that begins
none. -/
theorem attributeStep_eq_some {st st' : List Attribute × Nat} {left : List Char} {m : Nat}
    (hne : left ≠ []) (h : attributeStep st left = some (st', m)) :
    endsTag left = false ∧
      ((∃ a text behind, left = text ++ behind ∧ m = text.length ∧
          st' = (a :: st.1, st.2 + text.length) ∧ readAttribute? left = some (a, text.length) ∧
          AttributeSource a text behind) ∨
        ∃ c behind, left = c :: behind ∧ m = 1 ∧ st' = (st.1, st.2 + 1) ∧
          readAttribute? left = none) := by
  unfold attributeStep at h
  split at h
  · simp at h
  · rename_i hend
    refine ⟨by simpa using hend, ?_⟩
    split at h
    · rename_i a k hread
      obtain ⟨rfl, rfl⟩ := Prod.mk.inj (Option.some.inj h)
      obtain ⟨text, behind, rfl, rfl, hsource⟩ := readAttribute?_eq_some hread
      exact .inl ⟨a, text, behind, rfl, rfl, rfl, hread, hsource⟩
    · rename_i hstray
      obtain ⟨rfl, rfl⟩ := Prod.mk.inj (Option.some.inj h)
      obtain ⟨c, behind, rfl⟩ := List.exists_cons_of_ne_nil hne
      exact .inr ⟨c, behind, rfl, rfl, rfl, hstray⟩

/-- The inside of a tag is read piece by piece, up to the end of the tag or of the text. -/
theorem tagInside_readAttributes {s : List Char} {as : List Attribute} {n : Nat}
    {rest : List Char} (h : readAttributes s = (as, n, rest)) :
    ∃ inside passed, s = inside ++ rest ∧ n = inside.length ∧ TagInside inside as passed ∧
      passedOver s = passed ++ passedOver rest := by
  -- the loop keeps, from piece to piece, what is read so far and what the rest will pass over
  have step : ∀ (st : List Attribute × Nat) left st' m, left ≠ [] →
      (∃ inside passed, s = inside ++ left ∧ st.2 = inside.length ∧
        TagInside inside st.1.reverse passed ∧ passedOver s = passed ++ passedOver left) →
      attributeStep st left = some (st', m) → 0 < m ∧
        ∃ inside passed, s = inside ++ left.drop m ∧ st'.2 = inside.length ∧
          TagInside inside st'.1.reverse passed ∧
          passedOver s = passed ++ passedOver (left.drop m) := by
    rintro ⟨as, n⟩ left st' m hne ⟨inside, passed, rfl, rfl, hinside, hpassed⟩ hstep
    obtain ⟨hend, ⟨a, text, behind, rfl, rfl, rfl, hread, hsource⟩ |
      ⟨c, behind, rfl, rfl, rfl, hstray⟩⟩ := attributeStep_eq_some hne hstep
    · refine ⟨readAttribute?_pos hread, inside ++ text, passed, by simp, by simp, ?_, ?_⟩
      · simpa using hinside.spelt hsource.name_ne_nil hsource.tight_eq
      · rw [hpassed, passedOver_of_attribute hend hread]
    · refine ⟨Nat.one_pos, inside ++ [c], passed ++ [c], by simp, by simp, hinside.stray c, ?_⟩
      rw [hpassed, passedOver_of_stray hend hstray]
      simp
  have reached := advance_invariant step ([], 0) s ⟨[], [], rfl, rfl, .nil, rfl⟩
  simp only [readAttributes, Prod.mk.injEq] at h
  obtain ⟨rfl, rfl, rfl⟩ := h
  exact reached

/-! ### The opening of an element -/

/-- The tag of an element, with content or without. -/
def tag? : Node → Option Tag
  | .selfClosing tag | .element tag _ => some tag
  | _ => none

/-- An element without content. -/
def isSelfClosing : Node → Bool
  | .selfClosing _ => true
  | _ => false

/-- The text behind the name of the tag that begins with the `<` at the head. -/
def behindName (s : List Char) : List Char :=
  ((s.drop 1).dropWhile isBlank).dropWhile isTagNameChar

/-- The source of the tag that begins with the `<` at the head, up to its end `>` or `/>`. -/
def openingTag (s : List Char) : List Char :=
  s.take (s.length - (readAttributes (behindName s)).2.2.length)

/-- The tag in plain text, up to its end. -/
def plainTag (tag : Tag) : List Char :=
  '<' :: tag.name ++ tag.attributes.flatMap plainAttribute

/-- Only elements have tags. -/
theorem readElement?_of_tag {children : Nat → List Char → List Node} {pos n : Nat} {t : List Char}
    {node : Node} {tag : Tag} (h : readMarkup? children pos ('<' :: t) = some (node, n))
    (htag : tag? node = some tag) :
    (∃ c rest, t.dropWhile isBlank = c :: rest ∧ isLetter c = true) ∧
      readElement? children pos (countWhile isBlank t) ('<' :: t) (t.dropWhile isBlank)
        = some (node, n) := by
  cases markup_of_readMarkup? h with
  | comment | declaration => simp [tag?] at htag
  | element hrest hletter hread =>
    rw [drop_gap] at hread
    exact ⟨⟨_, _, hrest, hletter⟩, hread⟩

/-- Name and attributes of an element, and how its tag ends. Where content may follow, a slash ends
the tag of an element without content only. -/
theorem readElement?_tag {children : Nat → List Char → List Node} {pos gap n : Nat}
    {s rest : List Char} {node : Node} {tag : Tag}
    (h : readElement? children pos gap s rest = some (node, n)) (htag : tag? node = some tag) :
    tag.name = rest.takeWhile isTagNameChar ∧ ∃ k left,
      readAttributes (rest.dropWhile isTagNameChar) = (tag.attributes, k, left) ∧
      endsTag left = true ∧
      (isVoid tag.name = false → (isSelfClosing node = true ↔ left.head? = some '/')) := by
  simp only [readElement?, take_countWhile, drop_countWhile] at h
  cases hattributes : readAttributes (rest.dropWhile isTagNameChar) with | mk attributes read
  obtain ⟨k, left⟩ := read
  simp only [hattributes] at h
  split at h
  · obtain ⟨rfl, -⟩ := Prod.mk.inj (Option.some.inj h)
    obtain rfl := Option.some.inj htag
    exact ⟨rfl, k, _, rfl, rfl, fun _ => by simp [isSelfClosing]⟩
  · split at h
    · rename_i hvoid
      obtain ⟨rfl, -⟩ := Prod.mk.inj (Option.some.inj h)
      obtain rfl := Option.some.inj htag
      exact ⟨rfl, k, _, rfl, rfl, fun hname => absurd hvoid (by simp [hname])⟩
    · simp only [Option.map_eq_some_iff, Prod.mk.injEq] at h
      obtain ⟨_, -, rfl, -⟩ := h
      obtain rfl := Option.some.inj htag
      exact ⟨rfl, k, _, rfl, rfl, fun _ => by simp [isSelfClosing]⟩
  · simp at h

/-- What an element is read from: blanks, its name, the inside of its tag and the end of the tag. -/
theorem readMarkup?_tag {children : Nat → List Char → List Node} {pos n : Nat} {t : List Char}
    {node : Node} {tag : Tag} (h : readMarkup? children pos ('<' :: t) = some (node, n))
    (htag : tag? node = some tag) :
    ∃ gap inside rest, t = gap ++ tag.name ++ inside ++ rest ∧ allBlank gap = true ∧
      behindName ('<' :: t) = inside ++ rest ∧
      readAttributes (inside ++ rest) = (tag.attributes, inside.length, rest) ∧
      endsTag rest = true := by
  have gap_eq : t = t.takeWhile isBlank ++ t.dropWhile isBlank :=
    List.takeWhile_append_dropWhile.symm
  have behind_eq : behindName ('<' :: t) = (t.dropWhile isBlank).dropWhile isTagNameChar := rfl
  obtain ⟨-, h⟩ := readElement?_of_tag h htag
  obtain ⟨hname, _, left, hattributes, hend, -⟩ := readElement?_tag h htag
  obtain ⟨inside, passed, hinside, rfl, -⟩ := tagInside_readAttributes hattributes
  refine ⟨t.takeWhile isBlank, inside, left, ?_, allBlank_takeWhile t, ?_, ?_, hend⟩
  · rw [List.append_assoc, List.append_assoc, ← hinside, hname, List.takeWhile_append_dropWhile]
    exact gap_eq
  · rw [behind_eq, hinside]
  · rw [← hinside, hattributes]

/-! ### Names -/

/-- A node that is written with something at its beginning: the attributes of an element have names,
and a declaration has content. -/
def Named : Node → Prop
  | .selfClosing tag | .element tag _ => ∀ a ∈ tag.attributes, a.name ≠ []
  | .declaration content _ => content ≠ []
  | _ => True

theorem named_of_not_isMarkup {node : Node} (h : node.isMarkup = false) : Named node := by
  cases node with
  | text | code => trivial
  | _ => simp [Node.isMarkup] at h

theorem named_of_tag? {children : Nat → List Char → List Node} {pos n : Nat} {t : List Char}
    {node : Node} {tag : Tag} (h : readMarkup? children pos ('<' :: t) = some (node, n))
    (htag : tag? node = some tag) : ∀ a ∈ tag.attributes, a.name ≠ [] := by
  obtain ⟨_, _, _, -, -, -, hattributes, -⟩ := readMarkup?_tag h htag
  obtain ⟨_, _, -, -, hinside, -⟩ := tagInside_readAttributes hattributes
  exact hinside.name_ne_nil

theorem named_readMarkup? {children : Nat → List Char → List Node} {pos n : Nat} {t : List Char}
    {node : Node} (h : readMarkup? children pos ('<' :: t) = some (node, n)) : Named node := by
  cases node with
  | selfClosing tag => exact named_of_tag? h rfl
  | element tag nodes => exact named_of_tag? h rfl
  | declaration content span =>
    cases markup_of_readMarkup? h with
    | declaration _ hread =>
      simp only [readDeclaration?, Option.map_eq_some_iff, Prod.mk.injEq,
        Node.declaration.injEq] at hread
      obtain ⟨_, -, ⟨rfl, -⟩, -⟩ := hread
      exact List.cons_ne_nil _ _
    | element _ _ hread =>
      obtain ⟨_, hnode, -⟩ | ⟨_, _, _, _, _, -, -, hnode⟩ := readElement?_eq_some rfl hread <;>
        simp at hnode
  | text | code => trivial

theorem ReadAt.named {depth : Nat} {node : Node} (h : ReadAt depth node) : Named node := by
  rcases h.text_or_code_or_mem with htext | ⟨-, block, rfl, -⟩ | ⟨pos, s, hread⟩
  · exact named_of_not_isMarkup (isMarkup_of_isText htext)
  · trivial
  · rw [readNested] at hread
    generalize maxNesting + 1 - depth = levels at hread
    cases levels with
    | zero =>
      exact named_of_not_isMarkup (isMarkup_of_isText (isText_of_mem_readContent_zero hread))
    | succ levels =>
      rcases mem_readContent hread with hmarkup | ⟨_, _, _, hmarkup⟩
      · exact named_of_not_isMarkup hmarkup
      · exact named_readMarkup? hmarkup

/-! ### What is kept -/

/-- Blanks and quotes apart, a tag adds nothing to its source, keeps its order, and keeps all of it
exactly when nothing else is passed over between its attributes. -/
theorem tight_openingTag_eq_iff {children : Nat → List Char → List Node} {pos n : Nat}
    {t : List Char} {node : Node} {tag : Tag}
    (h : readMarkup? children pos ('<' :: t) = some (node, n)) (htag : tag? node = some tag) :
    (∃ rest, '<' :: t = openingTag ('<' :: t) ++ rest ∧ endsTag rest = true) ∧
    (tight (plainTag tag)).Sublist (tight (openingTag ('<' :: t))) ∧
    (tight (openingTag ('<' :: t)) = tight (plainTag tag) ↔
      ∀ c ∈ passedOver (behindName ('<' :: t)), isLoose c = true) := by
  obtain ⟨gap, inside, rest, ht, hgap, hbehind, hattributes, hend⟩ := readMarkup?_tag h htag
  have source : openingTag ('<' :: t) = '<' :: (gap ++ tag.name ++ inside) := by
    rw [openingTag, hbehind, hattributes, ht, ← List.cons_append, List.length_append,
      Nat.add_sub_cancel, List.take_left]
  have front : tight (openingTag ('<' :: t)) = tight ('<' :: tag.name) ++ tight inside := by
    rw [source, ← List.singleton_append, tight_append, tight_append, tight_append,
      tight_of_allBlank hgap, ← List.singleton_append (l := tag.name), tight_append]
    simp
  obtain ⟨inside', passed, hsplit, -, hinside, hpassed⟩ := tagInside_readAttributes hattributes
  obtain rfl : inside = inside' := List.append_cancel_right hsplit
  rw [passedOver_of_endsTag hend, List.append_nil] at hpassed
  refine ⟨⟨rest, by rw [source, List.cons_append, ← ht], hend⟩, ?_, ?_⟩
  · rw [front, plainTag, tight_append]
    exact (List.Sublist.refl _).append hinside.sublist
  · rw [front, plainTag, tight_append, List.append_cancel_left_eq, hbehind, hpassed]
    exact hinside.tight_eq_iff

/-- Values in quotes and without them, and a quote that is passed over. -/
theorem tight_openingTag_quotes :
    let s := "<p a = 'b \"c' d=e/f \" >g</p>".toList
    let tag : Tag := ⟨['p'], [⟨['a'], some "b \"c".toList⟩, ⟨['d'], some "e/f".toList⟩], ⟨0, 28⟩⟩
    ((readMarkup? (readNested 1) 0 s).bind fun read => tag? read.1) = some tag ∧
      passedOver (behindName s) = "   \" ".toList ∧
      tight (openingTag s) = tight (plainTag tag) := by
  intro s tag
  have read : ((readMarkup? (readNested 1) 0 s).bind fun read => tag? read.1) = some tag := by
    decide +kernel
  have passed : passedOver (behindName s) = "   \" ".toList := by decide +kernel
  have loose : ∀ c ∈ passedOver (behindName s), isLoose c = true := by
    rw [passed]
    exact List.all_eq_true.1 (by decide)
  obtain ⟨⟨node, n⟩, h, htag⟩ := Option.bind_eq_some_iff.1 read
  exact ⟨read, passed, (tight_openingTag_eq_iff h htag).2.2.2 loose⟩

/-- An attribute whose quote is never closed is not read: its name and the equals sign are passed
over, and what stands behind the quote becomes an attribute. -/
theorem tight_openingTag_ne :
    ∃ node n tag, readMarkup? (readNested 1) 0 "<p a=\"b>c</p>".toList = some (node, n) ∧
      tag? node = some tag ∧
      tight (openingTag "<p a=\"b>c</p>".toList) ≠ tight (plainTag tag) := by
  have read : ((readMarkup? (readNested 1) 0 "<p a=\"b>c</p>".toList).bind fun read =>
      tag? read.1) = some ⟨['p'], [⟨['b'], none⟩], ⟨0, 13⟩⟩ := by
    decide +kernel
  obtain ⟨⟨node, n⟩, h, htag⟩ := Option.bind_eq_some_iff.1 read
  exact ⟨node, n, _, h, htag, by decide +kernel⟩

end RazorLayout.Template

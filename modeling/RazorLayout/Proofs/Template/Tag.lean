import RazorLayout.Proofs.Text.Reading
import RazorLayout.Proofs.Text.Words
import RazorLayout.Template.Element

/-!
# Spelling and reading tags

A tag is spelt with its name, its attributes, each behind blanks, and its end. However the blanks
are chosen and whichever quotes stand around the values, the readers give back the name and the
attributes. All that is used of names is which characters can stand in them: no blank, and none of
the characters that delimit tags and values.

## Main definitions

* `IsTagName`, `IsAttribute`: names and attributes that can be spelt
* `IsDeclaration`: declarations that can be spelt
* `SpeltAttribute`, `SpeltAttributes`: the spellings of attributes
* `EndsName`: what may stand behind a name in a tag

## Main results

* `isAttributeNameChar_of_isBlank`: no blank stands in a name
* `readAttributes_of_spelt`: attributes are read from their spelling
* `readMarkup?_selfClosing`, `readMarkup?_element`, `readMarkup?_declaration`: tags are read from
  their spelling
-/

namespace RazorLayout.Template

open Text

/-! ### Characters of names -/

theorem isAttributeNameChar_of_isBlank {c : Char} (h : isBlank c = true) :
    isAttributeNameChar c = false :=
  eq_false_of_isBlank isAttributeNameChar (by decide +kernel) h

theorem isBlank_of_isAttributeNameChar {c : Char} (h : isAttributeNameChar c = true) :
    isBlank c = false := by
  rw [Bool.eq_false_iff]
  intro hblank
  simp [isAttributeNameChar_of_isBlank hblank] at h

theorem isAttributeNameChar_of_isTagNameChar {c : Char} (h : isTagNameChar c = true) :
    isAttributeNameChar c = true := by
  simp [isAttributeNameChar, h]

/-- The characters that delimit tags and values stand in no name. -/
theorem isAttributeNameChar_delimiter {c : Char} (h : c ∈ "<>/=\"'\x7b".toList) :
    isAttributeNameChar c = false := by
  have all : "<>/=\"'\x7b".toList.all (!isAttributeNameChar ·) = true := by decide +kernel
  simpa using List.all_eq_true.1 all c h

/-! ### Names and attributes -/

/-- A letter and further characters of tag names. -/
structure IsTagName (name : List Char) : Prop where
  letter : ∃ c rest, name = c :: rest ∧ isLetter c = true
  chars : ∀ c ∈ name, isTagNameChar c = true

/-- An attribute that can be written down: its value, if there is one, leaves a quote to write
around it, does not end the tag or the line, and begins no code section. -/
structure IsAttribute (a : Attribute) : Prop where
  name_ne_nil : a.name ≠ []
  name_chars : ∀ c ∈ a.name, isAttributeNameChar c = true
  value_markup : ∀ v, a.value = some v → '<' ∉ v ∧ '>' ∉ v
  value_line : ∀ v, a.value = some v → '\n' ∉ v
  value_section : ∀ v, a.value = some v → ¬ "@code".toList <:+: v
  value_quote : ∀ v, a.value = some v → ¬ ('"' ∈ v ∧ '\'' ∈ v)

/-- The spelling of an attribute: its name, and its value in quotes that it does not hold. -/
inductive SpeltAttribute : Attribute → List Char → Prop
  | bare (name : List Char) : SpeltAttribute ⟨name, none⟩ name
  | quoted (name value : List Char) (q : Char) (hq : q = '"' ∨ q = '\'') (hvalue : q ∉ value) :
    SpeltAttribute ⟨name, some value⟩ (name ++ '=' :: q :: (value ++ [q]))

/-- The attributes of a tag, each behind blanks, and blanks at the end. -/
inductive SpeltAttributes : List Attribute → List Char → Prop
  | nil {gap : List Char} (hgap : allBlank gap = true) : SpeltAttributes [] gap
  | cons {a : Attribute} {as : List Attribute} {gap text rest : List Char} (ha : IsAttribute a)
    (hgap : allBlank gap = true) (hne : gap ≠ []) (htext : SpeltAttribute a text)
    (hrest : SpeltAttributes as rest) : SpeltAttributes (a :: as) (gap ++ text ++ rest)

/-- What stands behind a name in a tag: blanks and the next attribute, or the end of the tag. -/
inductive EndsName : List Char → Prop
  | more {gap : List Char} {c : Char} {s : List Char} (hgap : allBlank gap = true)
    (hne : gap ≠ []) (hc : isAttributeNameChar c = true) : EndsName (gap ++ c :: s)
  | tagEnd {gap : List Char} {c : Char} {s : List Char} (hgap : allBlank gap = true)
    (hc : c = '>' ∨ c = '/') : EndsName (gap ++ c :: s)

/-- An attribute whose value does not hold both quotes is written down as one of its spellings. -/
theorem spelt_render {a : Attribute} (hquote : ∀ v, a.value = some v → ¬ ('"' ∈ v ∧ '\'' ∈ v))
    (style : QuoteStyle) : SpeltAttribute a (a.render style) := by
  obtain ⟨name, value⟩ := a
  cases value with
  | none => exact .bare name
  | some value =>
    have both := hquote value rfl
    have spelt (q : Char) (hq : q = '"' ∨ q = '\'') (hvalue : q ∉ value) :
        SpeltAttribute ⟨name, some value⟩ (name ++ ['='] ++ [q] ++ value ++ [q]) := by
      simpa using SpeltAttribute.quoted name value q hq hvalue
    unfold Attribute.render
    dsimp only
    split
    · -- the value holds the preferred quote, and so it does not hold the other one
      rename_i held
      cases style with
      | single => exact spelt '"' (.inl rfl) fun h => both ⟨h, List.contains_iff_mem.1 held⟩
      | double => exact spelt '\'' (.inr rfl) fun h => both ⟨List.contains_iff_mem.1 held, h⟩
    · rename_i free
      refine spelt style.char ?_ fun h => free (List.contains_iff_mem.2 h)
      cases style with
      | single => exact .inr rfl
      | double => exact .inl rfl

/-! ### What ends a name -/

theorem EndsName.not_nameChar {s : List Char} (h : EndsName s) (c : Char) (hc : s.head? = some c) :
    isAttributeNameChar c = false := by
  cases h with
  | @more gap d s hgap hne hd =>
    obtain ⟨b, gap, rfl⟩ := List.exists_cons_of_ne_nil hne
    obtain rfl : b = c := by simpa using hc
    exact isAttributeNameChar_of_isBlank (allBlank_iff.1 hgap b List.mem_cons_self)
  | @tagEnd gap d s hgap hd =>
    cases gap with
    | nil =>
      obtain rfl : d = c := by simpa using hc
      rcases hd with rfl | rfl <;> exact isAttributeNameChar_delimiter (by decide)
    | cons b gap =>
      obtain rfl : b = c := by simpa using hc
      exact isAttributeNameChar_of_isBlank (allBlank_iff.1 hgap b List.mem_cons_self)

/-- Behind the blanks comes neither an equals sign nor a brace. -/
theorem EndsName.dropWhile {s : List Char} (h : EndsName s) :
    ∃ c rest, s.dropWhile isBlank = c :: rest ∧ c ≠ '=' ∧ c ≠ '{' := by
  have first {gap : List Char} (hgap : allBlank gap = true) {c : Char} (hc : isBlank c = false)
      (s : List Char) : (gap ++ c :: s).dropWhile isBlank = c :: s := by
    rw [List.dropWhile_append_of_pos (allBlank_iff.1 hgap),
      List.dropWhile_cons_of_neg (by simp [hc])]
  cases h with
  | @more gap c s hgap hne hc =>
    refine ⟨c, s, first hgap (isBlank_of_isAttributeNameChar hc) s, ?_, ?_⟩
    · rintro rfl
      simp [isAttributeNameChar_delimiter (c := '=') (by decide)] at hc
    · rintro rfl
      simp [isAttributeNameChar_delimiter (c := '{') (by decide)] at hc
  | @tagEnd gap c s hgap hc =>
    rcases hc with rfl | rfl
    · exact ⟨'>', s, first hgap (by decide) s, by decide, by decide⟩
    · exact ⟨'/', s, first hgap (by decide) s, by decide, by decide⟩

theorem EndsName.endsTagName {s : List Char} (h : EndsName s) : endsTagName s = true := by
  cases h with
  | @more gap c s hgap hne hc =>
    obtain ⟨b, gap, rfl⟩ := List.exists_cons_of_ne_nil hne
    simp [Template.endsTagName, allBlank_iff.1 hgap b List.mem_cons_self]
  | @tagEnd gap c s hgap hc =>
    cases gap with
    | nil => rcases hc with rfl | rfl <;> rfl
    | cons b gap => simp [Template.endsTagName, allBlank_iff.1 hgap b List.mem_cons_self]

/-- The text of an attribute begins with its name. -/
theorem SpeltAttribute.head {a : Attribute} (ha : IsAttribute a) {text : List Char}
    (h : SpeltAttribute a text) : ∃ c rest, text = c :: rest ∧ isAttributeNameChar c = true := by
  obtain ⟨c, name, hname⟩ := List.exists_cons_of_ne_nil ha.name_ne_nil
  have hc : isAttributeNameChar c = true := ha.name_chars c (by simp [hname])
  cases h with
  | bare => exact ⟨c, name, hname, hc⟩
  | quoted =>
    dsimp only at hname
    exact ⟨c, _, by rw [hname]; rfl, hc⟩

theorem endsTag_iff {s : List Char} :
    endsTag s = true ↔ (∃ rest, s = '>' :: rest) ∨ ∃ rest, s = '/' :: '>' :: rest := by
  unfold endsTag
  split <;> simp_all

/-- Attributes and the end of the tag may stand behind a name. -/
theorem SpeltAttributes.endsName {as : List Attribute} {text : List Char}
    (h : SpeltAttributes as text) {tail : List Char} (htail : endsTag tail = true) :
    EndsName (text ++ tail) := by
  cases h with
  | nil hgap =>
    rcases endsTag_iff.1 htail with ⟨rest, rfl⟩ | ⟨rest, rfl⟩
    · exact .tagEnd hgap (.inl rfl)
    · exact .tagEnd hgap (.inr rfl)
  | @cons a as gap text rest ha hgap hne htext hrest =>
    obtain ⟨c, text, rfl, hc⟩ := htext.head ha
    simpa using EndsName.more (s := text ++ rest ++ tail) hgap hne hc

/-! ### Reading attributes -/

theorem readValue?_quoted {q : Char} (hq : q = '"' ∨ q = '\'') {value : List Char}
    (hvalue : q ∉ value) (rest : List Char) :
    readValue? (q :: (value ++ q :: rest)) = some (value, value.length + 2) := by
  have found : find? [q] (value ++ q :: rest) = some value.length := find?_append hvalue [] rest
  have hblank : isBlank q = false := by rcases hq with rfl | rfl <;> decide
  have hquote : (q == '"' || q == '\'') = true := by rcases hq with rfl | rfl <;> rfl
  simp [readValue?, countWhile, hblank, hquote, found]

section Spellings

variable {name : List Char} (hname : name ≠ []) (hchars : ∀ c ∈ name, isAttributeNameChar c = true)

include hname hchars

theorem readAttribute?_bare {rest : List Char} (hrest : EndsName rest) :
    readAttribute? (name ++ rest) = some (⟨name, none⟩, name.length) := by
  have counted : countWhile isAttributeNameChar (name ++ rest) = name.length :=
    countWhile_append_of_all hchars hrest.not_nameChar
  have hne : name.length ≠ 0 := by simpa using hname
  -- no equals sign follows, so that there is no value
  obtain ⟨c, after, hafter, hequals, -⟩ := hrest.dropWhile
  unfold readAttribute?
  dsimp only
  rw [counted, if_neg hne, List.drop_left, List.take_left, drop_countWhile, hafter]
  simp [hequals]

theorem readAttribute?_quoted {value : List Char} {q : Char} (hq : q = '"' ∨ q = '\'')
    (hvalue : q ∉ value) (rest : List Char) :
    readAttribute? (name ++ '=' :: q :: (value ++ q :: rest))
      = some (⟨name, some value⟩, name.length + value.length + 3) := by
  have counted : countWhile isAttributeNameChar (name ++ '=' :: q :: (value ++ q :: rest))
      = name.length := by
    refine countWhile_append_of_all hchars fun c hc => ?_
    obtain rfl : '=' = c := by simpa using hc
    exact isAttributeNameChar_delimiter (by decide)
  have hne : name.length ≠ 0 := by simpa using hname
  have equals : countWhile isBlank ('=' :: q :: (value ++ q :: rest)) = 0 := rfl
  unfold readAttribute?
  dsimp only
  rw [counted, if_neg hne, List.drop_left, List.take_left, equals, List.drop_zero]
  simp only [readValue?_quoted hq hvalue, Option.map_some, Option.some.injEq, Prod.mk.injEq,
    true_and]
  omega

end Spellings

/-- An attribute is read from its spelling. -/
theorem readAttribute?_of_spelt {a : Attribute} (hname : a.name ≠ [])
    (hchars : ∀ c ∈ a.name, isAttributeNameChar c = true) {text : List Char}
    (h : SpeltAttribute a text) {rest : List Char} (hrest : EndsName rest) :
    readAttribute? (text ++ rest) = some (a, text.length) := by
  cases h with
  | bare => exact readAttribute?_bare hname hchars hrest
  | quoted name value q hq hvalue =>
    have read := readAttribute?_quoted hname hchars hq hvalue rest
    have hlength :
        (name ++ '=' :: q :: (value ++ [q])).length = name.length + value.length + 3 := by
      simp only [List.length_append, List.length_cons, List.length_nil]
      omega
    rw [hlength, ← read]
    simp

/-- Blanks in a tag are passed over. -/
theorem advance_attributeStep_blank {gap : List Char} (hgap : allBlank gap = true)
    (as : List Attribute) (n : Nat) (s : List Char) :
    advance attributeStep 0 (as, n) (gap ++ s)
      = advance attributeStep 0 (as, n + gap.length) s := by
  induction gap generalizing n with
  | nil => rfl
  | cons c gap ih =>
    simp only [allBlank_cons, Bool.and_eq_true] at hgap
    have hname : isAttributeNameChar c = false := isAttributeNameChar_of_isBlank hgap.1
    have hend : endsTag (c :: (gap ++ s)) = false := by
      rw [Bool.eq_false_iff, ne_eq, endsTag_iff]
      rintro (⟨rest, h⟩ | ⟨rest, h⟩)
      · obtain rfl := (List.cons.inj h).1
        exact absurd hgap.1 (by decide)
      · obtain rfl := (List.cons.inj h).1
        exact absurd hgap.1 (by decide)
    -- neither an attribute nor the end of the tag begins with a blank
    have step : attributeStep (as, n) (c :: (gap ++ s)) = some ((as, n + 1), 1) := by
      simp [attributeStep, hend, readAttribute?, countWhile, hname]
    rw [List.cons_append, advance_of_step step Nat.one_pos (by simp), List.drop_one, List.tail_cons,
      ih hgap.2, List.length_cons]
    congr 2
    omega

theorem advance_attributeStep {as : List Attribute} {text : List Char}
    (h : SpeltAttributes as text) {tail : List Char} (htail : endsTag tail = true)
    (acc : List Attribute) (n : Nat) :
    advance attributeStep 0 (acc, n) (text ++ tail)
      = ((as.reverse ++ acc, n + text.length), tail) := by
  induction h generalizing acc n with
  | nil hgap =>
    rw [advance_attributeStep_blank hgap]
    exact advance_of_none (by simp [attributeStep, htail])
  | @cons a as gap text rest ha hgap hne htext hrest ih =>
    -- an attribute begins with a character of a name, which is not the end of the tag
    have hend : endsTag (text ++ (rest ++ tail)) = false := by
      obtain ⟨c, text, rfl, hc⟩ := htext.head ha
      rw [Bool.eq_false_iff, ne_eq, endsTag_iff]
      rintro (⟨rest, h⟩ | ⟨rest, h⟩)
      · obtain rfl := (List.cons.inj h).1
        simp [isAttributeNameChar_delimiter (c := '>') (by decide)] at hc
      · obtain rfl := (List.cons.inj h).1
        simp [isAttributeNameChar_delimiter (c := '/') (by decide)] at hc
    have step (st : List Attribute × Nat) : attributeStep st (text ++ (rest ++ tail))
        = some ((a :: st.1, st.2 + text.length), text.length) := by
      simp [attributeStep, hend,
        readAttribute?_of_spelt ha.name_ne_nil ha.name_chars htext (hrest.endsName htail)]
    obtain ⟨c, text', hc, -⟩ := htext.head ha
    rw [List.append_assoc, List.append_assoc, advance_attributeStep_blank hgap,
      advance_of_step (step _) (by simp [hc]) (by simp [hc]), List.drop_left, ih]
    simp
    omega

/-- The attributes of a tag are read from their spelling, up to the end of the tag. -/
theorem readAttributes_of_spelt {as : List Attribute} {text : List Char}
    (h : SpeltAttributes as text) {tail : List Char} (htail : endsTag tail = true) :
    readAttributes (text ++ tail) = (as, text.length, tail) := by
  simp [readAttributes, advance_attributeStep h htail]

/-! ### Reading tags -/

theorem IsTagName.countWhile {name : List Char} (hname : IsTagName name) {t : List Char}
    (ht : EndsName t) : countWhile isTagNameChar (name ++ t) = name.length := by
  refine countWhile_append_of_all hname.chars fun c hc => ?_
  rw [Bool.eq_false_iff]
  intro h
  have := ht.not_nameChar c hc
  simp [isAttributeNameChar_of_isTagNameChar h] at this

/-- A tag name directly behind `<` begins an element. -/
theorem readMarkup?_of_isTagName (children : Nat → List Char → List Node) (pos : Nat)
    {name : List Char} (hname : IsTagName name) (t : List Char) :
    readMarkup? children pos ('<' :: (name ++ t))
      = readElement? children pos 0 ('<' :: (name ++ t)) (name ++ t) := by
  obtain ⟨c, rest, rfl, hc⟩ := hname.letter
  have hblank : isBlank c = false := isBlank_of_isAttributeNameChar
    (isAttributeNameChar_of_isTagNameChar (hname.chars c List.mem_cons_self))
  have hbang : c ≠ '!' := by
    rintro rfl
    exact absurd hc (by decide +kernel)
  simp [readMarkup?, Text.countWhile, hblank, hbang, hc]

theorem readMarkup?_selfClosing (children : Nat → List Char → List Node) (pos : Nat)
    {name : List Char} (hname : IsTagName name) {as : List Attribute} {text : List Char}
    (htext : SpeltAttributes as text) (rest : List Char) :
    ∃ stop, readMarkup? children pos ('<' :: (name ++ (text ++ '/' :: '>' :: rest)))
      = some (.selfClosing ⟨name, as, ⟨pos, stop⟩⟩, 1 + name.length + text.length + 2) := by
  have hend : endsTag ('/' :: '>' :: rest) = true := rfl
  rw [readMarkup?_of_isTagName children pos hname]
  simp only [readElement?, hname.countWhile (htext.endsName hend), List.take_left, List.drop_left,
    readAttributes_of_spelt htext hend]
  exact ⟨_, rfl⟩

theorem readMarkup?_element (children : Nat → List Char → List Node) (pos : Nat)
    {name : List Char} (hname : IsTagName name) (hvoid : isVoid name = false)
    (hraw : isRawText name = false) {as : List Attribute} {text : List Char}
    (htext : SpeltAttributes as text) {content rest : List Char}
    (hclosing : closingTag? name (content ++ (tagCloser name ++ rest)) = some content.length) :
    ∃ stop start, readMarkup? children pos
        ('<' :: (name ++ (text ++ '>' :: (content ++ (tagCloser name ++ rest)))))
      = some (.element ⟨name, as, ⟨pos, stop⟩⟩ (children start content),
          1 + name.length + text.length + 1 + content.length + (tagCloser name).length) := by
  have hend : endsTag ('>' :: (content ++ (tagCloser name ++ rest))) = true := rfl
  rw [readMarkup?_of_isTagName children pos hname]
  simp only [readElement?, hname.countWhile (htext.endsName hend), List.take_left, List.drop_left,
    readAttributes_of_spelt htext hend, hvoid, Bool.false_eq_true, if_false, hclosing,
    Option.map_some, readChildren, hraw, List.take_left]
  exact ⟨_, _, rfl⟩

/-! ### Declarations -/

/-- What stands between `<!` and `>` in a declaration that can be written down: every run of blanks
is one space, and the declaration is not taken for a comment. -/
structure IsDeclaration (name : List Char) : Prop where
  collapsed : collapse ('!' :: (name ++ ['>'])) = '!' :: (name ++ ['>'])
  not_comment : ¬ ['-', '-'] <+: name
  no_opener : '<' ∉ name
  no_closer : '>' ∉ name
  no_mark : '@' ∉ name

theorem readMarkup?_declaration (children : Nat → List Char → List Node) (pos : Nat)
    {name : List Char} (h : IsDeclaration name) (rest : List Char) :
    ∃ stop, readMarkup? children pos ('<' :: '!' :: (name ++ ['>']) ++ rest)
      = some (.declaration ('<' :: '!' :: (name ++ ['>'])) ⟨pos, stop⟩,
          ('<' :: '!' :: (name ++ ['>'])).length) := by
  have found : find? ['>'] ('!' :: name ++ ('>' :: rest)) = some (name.length + 1) := by
    have held : '>' ∉ '!' :: name := by simp [h.no_closer]
    exact find?_append held [] rest
  -- with this the match on comments is passed over
  have comment : ∀ t, name ++ ('>' :: rest) ≠ '-' :: '-' :: t := by
    intro t heq
    have hnot := h.not_comment
    match name with
    | [] => simp at heq
    | [c] => simp at heq
    | c :: d :: name =>
      simp only [List.cons_append, List.cons.injEq] at heq
      obtain ⟨rfl, rfl, -⟩ := heq
      exact hnot ⟨name, rfl⟩
  have gap : Text.countWhile isBlank ('!' :: (name ++ '>' :: rest)) = 0 := by
    rw [Text.countWhile, List.takeWhile_cons_of_neg (by decide)]
    rfl
  have taken :
      ('!' :: name ++ '>' :: rest).take (name.length + 1 + 1) = '!' :: (name ++ ['>']) := by
    rw [List.append_cons]
    exact List.take_left' (by simp)
  have source : '<' :: '!' :: (name ++ ['>']) ++ rest = '<' :: ('!' :: name ++ '>' :: rest) := by
    simp
  have read : readMarkup? children pos ('<' :: ('!' :: name ++ '>' :: rest))
      = readDeclaration? pos 0 ('<' :: ('!' :: name ++ '>' :: rest))
          ('!' :: name ++ '>' :: rest) := by
    unfold readMarkup?
    simp only [List.cons_append, List.drop_one, List.tail_cons, gap, Nat.add_zero]
  rw [source, read, readDeclaration?, found, Option.map_some]
  dsimp only
  rw [taken, h.collapsed]
  refine ⟨_, congrArg some (Prod.ext rfl ?_)⟩
  simp only [List.length_cons, List.length_append, List.length_nil]
  omega

end RazorLayout.Template

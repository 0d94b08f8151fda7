import RazorLayout.Proofs.Template.Tag

/-!
# Looking for the closing tag

The content of an element ends at the closing tag that balances its tag. The search counts tags of
the same name and looks at nothing but `<`: text is passed over, and so are tags of other names,
even when one name begins with the other. What the search does at each kind of tag is said here,
for tags spelt in any way.

## Main results

* `closingTagFrom_of_no_markup`: text is passed over
* `closingTagFrom_openTag`, `closingTagFrom_selfClosing`: one more element of the name, or none
* `closingTagFrom_closer`: the closing tag that was looked for, or one element less
-/

namespace RazorLayout.Template

open Text

/-! ### Text -/

theorem closingTagFrom_skip (opener closer : List Char) (n depth : Nat) (u rest : List Char) :
    closingTagFrom opener closer n depth u.length (u ++ rest)
      = closingTagFrom opener closer (n + u.length) depth 0 rest := by
  induction u generalizing n with
  | nil => rfl
  | cons c u ih =>
    rw [List.length_cons, List.cons_append, closingTagFrom, ih]
    congr 1
    omega

theorem tagCloser_isPrefixOf {name : List Char} {c : Char} {s : List Char} (hc : c ≠ '<') :
    (tagCloser name).isPrefixOf (c :: s) = false := by
  simp [tagCloser, List.isPrefixOf, Ne.symm hc]

/-- A place where no closing tag begins. -/
theorem closingTagFrom_of_not_closer {opener closer : List Char} (n depth : Nat) {c : Char}
    {s : List Char} (hcloser : closer.isPrefixOf (c :: s) = false) :
    closingTagFrom opener closer n depth 0 (c :: s)
      = if opensBefore opener closer (c :: s) then
          closingTagFrom opener closer (n + 1)
            (depth + if opensNested opener (c :: s) then 1 else 0) (opener.length - 1) s
        else closingTagFrom opener closer (n + 1) depth 0 s := by
  cases depth with
  | zero => rw [closingTagFrom, if_neg (by simp [hcloser])]
  | succ depth => rw [closingTagFrom, if_neg (by simp [hcloser])]

theorem closingTagFrom_of_not_tag {opener closer : List Char} (n depth : Nat) {c : Char}
    {s : List Char} (hcloser : closer.isPrefixOf (c :: s) = false)
    (hopener : opener.isPrefixOf (c :: s) = false) :
    closingTagFrom opener closer n depth 0 (c :: s)
      = closingTagFrom opener closer (n + 1) depth 0 s := by
  rw [closingTagFrom_of_not_closer n depth hcloser, if_neg (by simp [opensBefore, hopener])]

/-- Text is passed over. -/
theorem closingTagFrom_of_no_markup (name : List Char) (n depth : Nat) {u : List Char}
    (hu : '<' ∉ u) (rest : List Char) :
    closingTagFrom (tagOpener name) (tagCloser name) n depth 0 (u ++ rest)
      = closingTagFrom (tagOpener name) (tagCloser name) (n + u.length) depth 0 rest := by
  induction u generalizing n with
  | nil => rfl
  | cons c u ih =>
    have hc : c ≠ '<' := fun h => hu (by simp [h])
    have hu : '<' ∉ u := fun h => hu (List.mem_cons_of_mem c h)
    rw [List.cons_append, closingTagFrom_of_not_tag n depth (tagCloser_isPrefixOf hc)
      (by simp [tagOpener, List.isPrefixOf, Ne.symm hc]), ih _ hu, List.length_cons]
    congr 1
    omega

/-! ### Names -/

theorem not_mem_of_isTagNameChar {name : List Char} (hname : ∀ c ∈ name, isTagNameChar c = true)
    {c : Char} (hc : isAttributeNameChar c = false) : c ∉ name := by
  intro h
  have := isAttributeNameChar_of_isTagNameChar (hname c h)
  simp [hc] at this

theorem IsTagName.not_mem {name : List Char} (hname : IsTagName name) {c : Char}
    (hc : isAttributeNameChar c = false) : c ∉ name :=
  not_mem_of_isTagNameChar hname.chars hc

theorem IsTagName.markup_not_mem {name : List Char} (hname : IsTagName name) : '<' ∉ name :=
  hname.not_mem (isAttributeNameChar_delimiter (by decide))

/-- A name that begins another name, and what follows, is that name or a part of it. -/
theorem IsTagName.prefix_of_prefix_append {name x : List Char} (hname : IsTagName name)
    {t : List Char} (ht : EndsName t) (h : name <+: x ++ t) : name <+: x := by
  rcases List.prefix_or_prefix_of_prefix h (List.prefix_append x t) with h' | ⟨u, rfl⟩
  · exact h'
  · have hu : u <+: t := (List.prefix_append_right_inj x).1 h
    cases u with
    | nil => simp
    | cons c u =>
      obtain ⟨v, rfl⟩ := hu
      have hc := ht.not_nameChar c rfl
      exact absurd (by simp) (hname.not_mem hc)

theorem IsTagName.slash_ne_head {name : List Char} (hname : IsTagName name) :
    ∃ c rest, name = c :: rest ∧ c ≠ '/' := by
  obtain ⟨c, rest, rfl, -⟩ := hname.letter
  refine ⟨c, rest, rfl, ?_⟩
  rintro rfl
  exact hname.not_mem (c := '/') (isAttributeNameChar_delimiter (by decide)) List.mem_cons_self

theorem IsTagName.tagCloser_isPrefixOf {x : List Char} (hx : IsTagName x) (name t : List Char) :
    (tagCloser name).isPrefixOf ('<' :: (x ++ t)) = false := by
  obtain ⟨c, rest, rfl, hc⟩ := hx.slash_ne_head
  simp [tagCloser, List.isPrefixOf, Ne.symm hc]

/-- No closing tag begins inside of a name. -/
theorem opensBefore_of_prefix {name t : List Char} (hname : '<' ∉ name)
    (hcloser : (tagCloser name).isPrefixOf ('<' :: (name ++ t)) = false) :
    opensBefore (tagOpener name) (tagCloser name) ('<' :: (name ++ t)) = true := by
  simp only [opensBefore, tagOpener, Bool.and_eq_true, List.all_eq_true, List.mem_range,
    Bool.not_eq_true']
  refine ⟨by simp [List.isPrefixOf_iff_prefix], fun k hk => ?_⟩
  cases k with
  | zero => exact hcloser
  | succ k =>
    -- a closing tag would begin with a bracket, and the name holds none
    have hk : k < name.length := by simpa using hk
    rw [List.drop_succ_cons, List.drop_append_of_le_length hk.le, List.drop_eq_getElem_cons hk]
    refine tagCloser_isPrefixOf fun h => hname ?_
    rw [← h]
    exact List.getElem_mem hk

/-! ### Tags -/

/-- An opening tag counts when it has the name and does not close itself. -/
theorem closingTagFrom_tag {name x : List Char} (hname : IsTagName name) (hx : IsTagName x)
    (n depth : Nat) {t : List Char} (ht : EndsName t) :
    closingTagFrom (tagOpener name) (tagCloser name) n depth 0 ('<' :: (x ++ t))
      = closingTagFrom (tagOpener name) (tagCloser name) (n + (1 + x.length))
          (depth + if x = name ∧ closesItself (tagOpener name) t = false then 1 else 0) 0 t := by
  by_cases h : name <+: x
  · obtain ⟨u, rfl⟩ := h
    have hu : '<' ∉ u := fun h => hx.markup_not_mem (by simp [h])
    have behind : ('<' :: (name ++ u ++ t)).drop (tagOpener name).length = u ++ t := by
      rw [tagOpener, List.length_cons, List.drop_succ_cons, List.append_assoc, List.drop_left]
    have nested : opensNested (tagOpener name) ('<' :: (name ++ u ++ t))
        = decide (u = [] ∧ closesItself (tagOpener name) t = false) := by
      rw [opensNested, behind]
      cases u with
      | nil => simp [ht.endsTagName]
      | cons c u =>
        -- the name goes on, so that this is a tag of another name
        have hc : isAttributeNameChar c = true :=
          isAttributeNameChar_of_isTagNameChar (hx.chars c (by simp))
        have hgt : c ≠ '>' := by
          rintro rfl
          simp [isAttributeNameChar_delimiter (c := '>') (by decide)] at hc
        have hslash : c ≠ '/' := by
          rintro rfl
          simp [isAttributeNameChar_delimiter (c := '/') (by decide)] at hc
        simp [endsTagName, isBlank_of_isAttributeNameChar hc, hgt, hslash]
    have opens :
        opensBefore (tagOpener name) (tagCloser name) ('<' :: (name ++ u ++ t)) = true := by
      rw [List.append_assoc]
      exact opensBefore_of_prefix hname.markup_not_mem (hname.tagCloser_isPrefixOf name (u ++ t))
    rw [closingTagFrom_of_not_closer n depth (hx.tagCloser_isPrefixOf name t), if_pos opens, nested,
      tagOpener, List.length_cons, Nat.add_sub_cancel, List.append_assoc, closingTagFrom_skip,
      ← tagOpener, closingTagFrom_of_no_markup name _ _ hu]
    simp only [decide_eq_true_eq, List.append_right_eq_self, List.length_append]
    congr 1
    omega
  · -- the name is not even an initial part, so that this is no tag of the name
    have hopener : (tagOpener name).isPrefixOf ('<' :: (x ++ t)) = false := by
      rw [Bool.eq_false_iff, ne_eq, List.isPrefixOf_iff_prefix, tagOpener,
        List.cons_prefix_cons]
      exact fun h' => h (hname.prefix_of_prefix_append ht h'.2)
    have hne : ¬ (x = name ∧ closesItself (tagOpener name) t = false) := by
      rintro ⟨rfl, -⟩
      exact h (List.prefix_refl x)
    rw [closingTagFrom_of_not_tag n depth (hx.tagCloser_isPrefixOf name t) hopener,
      closingTagFrom_of_no_markup name _ _ hx.markup_not_mem, if_neg hne]
    congr 1
    omega

/-- Whether a tag closes itself is seen in front of the first `>`. -/
theorem closesItself_append (before : List Char) {text : List Char} (htext : '>' ∉ text)
    (rest : List Char) :
    closesItself before (text ++ '>' :: rest) = ((before ++ text).getLast? == some '/') := by
  have found : find? ['>'] (text ++ '>' :: rest) = some text.length := find?_append htext [] rest
  rw [closesItself, found]
  dsimp only
  rw [List.take_left]

theorem closesItself_selfClosing (before : List Char) {text : List Char} (htext : '>' ∉ text)
    (rest : List Char) : closesItself before (text ++ '/' :: '>' :: rest) = true := by
  have whole : text ++ '/' :: '>' :: rest = (text ++ ['/']) ++ '>' :: rest := by simp
  rw [whole, closesItself_append before (by simp [htext]), ← List.append_assoc,
    List.getLast?_append]
  rfl

theorem closesItself_openTag {before text : List Char} (htext : '>' ∉ text)
    (hlast : (before ++ text).getLast? ≠ some '/') (rest : List Char) :
    closesItself before (text ++ '>' :: rest) = false := by
  rw [closesItself_append before htext]
  simpa using hlast

/-- The characters that end tags stand in no spelling of attributes, and a slash does not end
one. -/
theorem SpeltAttribute.not_mem {a : Attribute} (ha : IsAttribute a) {text : List Char}
    (h : SpeltAttribute a text) :
    '<' ∉ text ∧ '>' ∉ text ∧ ∃ u c, text = u ++ [c] ∧ isBlank c = false ∧ c ≠ '/' := by
  have excluded {c : Char} (hc : isAttributeNameChar c = false) : c ∉ a.name := by
    intro h
    simp [ha.name_chars c h] at hc
  have hlt := excluded (c := '<') (isAttributeNameChar_delimiter (by decide))
  have hgt := excluded (c := '>') (isAttributeNameChar_delimiter (by decide))
  have hslash := excluded (c := '/') (isAttributeNameChar_delimiter (by decide))
  cases h with
  | bare =>
    refine ⟨hlt, hgt, text.dropLast, text.getLast ha.name_ne_nil,
      (List.dropLast_append_getLast ha.name_ne_nil).symm, ?_, ?_⟩
    · exact isBlank_of_isAttributeNameChar (ha.name_chars _ (List.getLast_mem _))
    · exact fun h => hslash (h ▸ List.getLast_mem _)
  | quoted name value q hq hvalue =>
    -- a quote ends the value
    obtain ⟨hlt', hgt'⟩ := ha.value_markup value rfl
    refine ⟨?_, ?_, name ++ '=' :: q :: value, q, by simp, ?_, ?_⟩
    all_goals rcases hq with rfl | rfl <;> simp_all <;> decide

theorem SpeltAttributes.not_mem {as : List Attribute} {text : List Char}
    (h : SpeltAttributes as text) : '<' ∉ text ∧ '>' ∉ text := by
  induction h with
  | nil hgap => exact ⟨not_mem_of_allBlank hgap (by decide), not_mem_of_allBlank hgap (by decide)⟩
  | cons ha hgap _ htext _ ih =>
    obtain ⟨hlt, hgt, -⟩ := htext.not_mem ha
    have hlt' := not_mem_of_allBlank (c := '<') hgap (by decide)
    have hgt' := not_mem_of_allBlank (c := '>') hgap (by decide)
    simp [ih, hlt, hgt, hlt', hgt']

theorem SpeltAttributes.getLast?_ne {as : List Attribute} {text : List Char}
    (h : SpeltAttributes as text) : text.getLast? ≠ some '/' := by
  induction h with
  | nil hgap =>
    intro h
    exact not_mem_of_allBlank hgap (by decide) (List.mem_of_getLast? h)
  | @cons a as gap text rest ha hgap hne htext hrest ih =>
    -- the last attribute is followed by blanks or is the end itself
    obtain ⟨-, -, u, c, rfl, -, hc⟩ := htext.not_mem ha
    rw [List.getLast?_append]
    cases hlast : rest.getLast? with
    | none => simp [← List.append_assoc, hc]
    | some d => simpa [hlast] using ih

/-- The tag of an element of the name opens one more level. -/
theorem closingTagFrom_openTag {name x : List Char} (hname : IsTagName name) (hx : IsTagName x)
    {as : List Attribute} {text : List Char} (htext : SpeltAttributes as text) (n depth : Nat)
    (rest : List Char) :
    closingTagFrom (tagOpener name) (tagCloser name) n depth 0
        ('<' :: (x ++ (text ++ '>' :: rest)))
      = closingTagFrom (tagOpener name) (tagCloser name)
          (n + ('<' :: (x ++ (text ++ ['>']))).length) (depth + if x = name then 1 else 0) 0
          rest := by
  obtain ⟨hlt, hgt⟩ := htext.not_mem
  -- a slash before the bracket would close the tag; neither the attributes nor the name have it
  have hlast : (tagOpener name ++ text).getLast? ≠ some '/' := by
    rw [List.getLast?_append]
    cases h : text.getLast? with
    | some c => simpa [h] using htext.getLast?_ne
    | none =>
      intro h
      have hmem : '/' ∈ tagOpener name := List.mem_of_getLast? (by simpa using h)
      refine hname.not_mem (c := '/') (isAttributeNameChar_delimiter (by decide)) ?_
      simpa [tagOpener] using hmem
  rw [closingTagFrom_tag hname hx n depth (htext.endsName rfl),
    closesItself_openTag hgt hlast, show text ++ '>' :: rest = (text ++ ['>']) ++ rest by simp,
    closingTagFrom_of_no_markup name _ _ (by simp [hlt])]
  simp only [and_true, List.length_append, List.length_cons, List.length_nil]
  congr 1
  omega

/-- A tag that closes itself is passed over. -/
theorem closingTagFrom_selfClosing {name x : List Char} (hname : IsTagName name)
    (hx : IsTagName x) {as : List Attribute} {text : List Char} (htext : SpeltAttributes as text)
    (n depth : Nat) (rest : List Char) :
    closingTagFrom (tagOpener name) (tagCloser name) n depth 0
        ('<' :: (x ++ (text ++ '/' :: '>' :: rest)))
      = closingTagFrom (tagOpener name) (tagCloser name)
          (n + ('<' :: (x ++ (text ++ ['/', '>']))).length) depth 0 rest := by
  obtain ⟨hlt, hgt⟩ := htext.not_mem
  rw [closingTagFrom_tag hname hx n depth (htext.endsName rfl),
    closesItself_selfClosing _ hgt,
    show text ++ '/' :: '>' :: rest = (text ++ ['/', '>']) ++ rest by simp,
    closingTagFrom_of_no_markup name _ _ (by simp [hlt])]
  simp only [Bool.true_eq_false, and_false, if_false, List.length_append, List.length_cons,
    List.length_nil]
  congr 1
  omega

/-- A closing tag of another name is passed over. -/
theorem closingTagFrom_otherCloser {name x : List Char} (hname : IsTagName name)
    (hx : IsTagName x) (hne : x ≠ name) (n depth : Nat) (rest : List Char) :
    closingTagFrom (tagOpener name) (tagCloser name) n depth 0 (tagCloser x ++ rest)
      = closingTagFrom (tagOpener name) (tagCloser name) (n + (tagCloser x).length) depth 0
          rest := by
  have hcloser : (tagCloser name).isPrefixOf ('<' :: ('/' :: (x ++ ['>']) ++ rest)) = false := by
    rw [Bool.eq_false_iff, ne_eq, List.isPrefixOf_iff_prefix]
    rintro ⟨w, hw⟩
    have hw : name ++ '>' :: w = x ++ '>' :: rest := by simpa [tagCloser] using hw
    -- one name would begin with the other, with the bracket behind it
    obtain ⟨u, rfl⟩ := hname.prefix_of_prefix_append (.tagEnd allBlank_nil (.inl rfl))
      (hw ▸ List.prefix_append name ('>' :: w))
    cases u with
    | nil => simp at hne
    | cons c u =>
      obtain rfl : '>' = c := by
        rw [List.append_assoc, List.append_cancel_left_eq] at hw
        exact (List.cons.inj hw).1
      exact hx.not_mem (c := '>') (isAttributeNameChar_delimiter (by decide)) (by simp)
  have hopener : (tagOpener name).isPrefixOf ('<' :: ('/' :: (x ++ ['>']) ++ rest)) = false := by
    obtain ⟨c, name, rfl, hc⟩ := hname.slash_ne_head
    simp [tagOpener, List.isPrefixOf, hc]
  have hslash : '<' ∉ '/' :: (x ++ ['>']) := by simp [hx.markup_not_mem]
  have split : tagCloser x ++ rest = '<' :: ('/' :: (x ++ ['>']) ++ rest) := by simp [tagCloser]
  rw [split, closingTagFrom_of_not_tag n depth hcloser hopener,
    closingTagFrom_of_no_markup name _ _ hslash]
  simp only [tagCloser, List.length_append, List.length_cons, List.length_nil]
  congr 1
  omega

/-- A closing tag of the name ends one level, or is the one that was looked for. -/
theorem closingTagFrom_closer (name : List Char) (n depth : Nat) (rest : List Char) :
    closingTagFrom (tagOpener name) (tagCloser name) n depth 0 (tagCloser name ++ rest)
      = match depth with
        | 0 => some n
        | d + 1 =>
          closingTagFrom (tagOpener name) (tagCloser name) (n + (tagCloser name).length) d 0
            rest := by
  have split : tagCloser name ++ rest = '<' :: ('/' :: (name ++ ['>']) ++ rest) := by
    simp [tagCloser]
  have hcloser : (tagCloser name).isPrefixOf ('<' :: ('/' :: (name ++ ['>']) ++ rest)) = true := by
    rw [← split, List.isPrefixOf_iff_prefix]
    exact List.prefix_append ..
  have hlength : (tagCloser name).length - 1 = ('/' :: (name ++ ['>'])).length := by
    simp [tagCloser]
  rw [split]
  -- at the outermost level the search ends
  cases depth with
  | zero => rw [closingTagFrom, if_pos hcloser]
  | succ d =>
    rw [closingTagFrom, if_pos hcloser, hlength, closingTagFrom_skip]
    simp only [tagCloser, List.length_append, List.length_cons, List.length_nil]
    congr 1
    omega

/-- A declaration is no tag. -/
theorem closingTagFrom_declaration {name : List Char} (hname : IsTagName name) {x : List Char}
    (hx : IsDeclaration x) (n depth : Nat) (rest : List Char) :
    closingTagFrom (tagOpener name) (tagCloser name) n depth 0
        ('<' :: '!' :: (x ++ ['>']) ++ rest)
      = closingTagFrom (tagOpener name) (tagCloser name)
          (n + ('<' :: '!' :: (x ++ ['>'])).length) depth 0 rest := by
  obtain ⟨c, name, rfl, hc⟩ := hname.letter
  have hbang : c ≠ '!' := by
    rintro rfl
    exact absurd hc (by decide +kernel)
  have held : '<' ∉ '!' :: (x ++ ['>']) := by simp [hx.no_opener]
  rw [List.cons_append, closingTagFrom_of_not_tag n depth (by simp [tagCloser, List.isPrefixOf])
    (by simp [tagOpener, List.isPrefixOf, hbang]),
    closingTagFrom_of_no_markup (c :: name) (n + 1) depth held rest]
  congr 1
  simp only [List.length_cons]
  omega

end RazorLayout.Template

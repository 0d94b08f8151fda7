import RazorLayout.Proofs.Template.Closing
import RazorLayout.Proofs.Template.Content
import RazorLayout.Proofs.Template.InlineCode

/-!
# Where no code section begins

The code sections of a template are looked for first, in the whole text. Nothing of what a tag, an
expression or a directive is spelt with begins one, although names of attributes may hold an `@`.

## Main definitions

* `IsText`: a text that is not taken for anything else
* `SectionFree`: no code section begins in a text

## Main results

* `SpeltAttributes.sectionFree`: no code section begins in a tag
* `IsExpression.sectionFree`, `IsLine.sectionFree`: no code section begins in code on one line
* `readDocument_of_sectionFree`: a document without code sections is content
-/

namespace RazorLayout.Template

open Text

/-- A text that is on the page and holds no markup and no constructs. -/
structure IsText (content : List Char) : Prop where
  not_blank : allBlank content = false
  no_markup : '<' ∉ content
  no_mark : '@' ∉ content

theorem IsText.ne_nil {content : List Char} (h : IsText content) : content ≠ [] := by
  rintro rfl
  simpa using h.not_blank

theorem IsText.append_blank {content gap : List Char} (h : IsText content)
    (hgap : allBlank gap = true) : IsText (content ++ gap) where
  not_blank := by simp [h.not_blank]
  no_markup := by simp [h.no_markup, not_mem_of_allBlank hgap (c := '<') (by decide)]
  no_mark := by simp [h.no_mark, not_mem_of_allBlank hgap (c := '@') (by decide)]

/-! ### Code sections -/

/-- No code section begins in `s` when `rest` stands behind it. -/
def SectionFree (s rest : List Char) : Prop :=
  ∀ u v, s = u ++ v → v ≠ [] → Opening.codeSection.length? (v ++ rest) = none

theorem sectionFree_of_not_mem {s : List Char} (hs : '@' ∉ s) (rest : List Char) :
    SectionFree s rest := by
  rintro u v rfl hv
  obtain ⟨c, v, rfl⟩ := List.exists_cons_of_ne_nil hv
  rw [Option.eq_none_iff_forall_ne_some]
  intro n hn
  obtain ⟨gap, rest', h, -, -⟩ := Opening.partsLength?_keyword hn
  obtain rfl : c = '@' := (List.cons.inj h).1
  simp at hs

theorem SectionFree.append {s t rest : List Char} (hs : SectionFree s (t ++ rest))
    (ht : SectionFree t rest) : SectionFree (s ++ t) rest := by
  intro u v huv hv
  -- a section begins in the second text, or in the first one and goes on into the second
  rcases List.append_eq_append_iff.1 huv with ⟨w, rfl, rfl⟩ | ⟨w, rfl, rfl⟩
  · exact ht w v rfl hv
  · cases w with
    | nil => exact ht [] t (by simp) (by simpa using hv)
    | cons c w => simpa using hs u (c :: w) rfl (by simp)

/-- A name is not taken for the word of a code section, since no brace follows it. -/
theorem sectionFree_name {name rest : List Char} (hname : ∀ c ∈ name, isAttributeNameChar c = true)
    (hhead : ∀ c, rest.head? = some c → isAttributeNameChar c = false)
    (hbrace : ∀ c s, rest.dropWhile isBlank = c :: s → c ≠ '{') : SectionFree name rest := by
  rintro u v rfl hv
  rw [Option.eq_none_iff_forall_ne_some]
  intro n hn
  obtain ⟨gap, rest', h, hgap, -⟩ := Opening.partsLength?_keyword hn
  have word : "@code".toList.all isAttributeNameChar = true := by decide +kernel
  have brace : isAttributeNameChar '{' = false := isAttributeNameChar_delimiter (by decide)
  have behind : gap ++ '{' :: rest' ≠ rest := by
    rintro rfl
    refine hbrace '{' rest' ?_ rfl
    rw [List.dropWhile_append_of_pos (allBlank_iff.1 hgap)]
    rfl
  rw [List.append_assoc] at h
  rcases List.append_eq_append_iff.1 h with ⟨w, hw, hrest⟩ | ⟨w, rfl, hrest⟩
  · -- the word reaches to the end of the name or further
    cases w with
    | nil => exact behind (by simpa using hrest.symm)
    | cons c w =>
      have hc := List.all_eq_true.1 word c (by rw [hw]; simp)
      rw [hhead c (by rw [hrest]; rfl)] at hc
      simp at hc
  · cases w with
    | nil => exact behind (by simpa using hrest)
    | cons c w =>
      -- the brace or a blank in front of it would be part of the name
      have hc : isAttributeNameChar c = true := hname c (by simp)
      cases gap with
      | nil =>
        obtain rfl : '{' = c := (List.cons.inj hrest).1
        simp [brace] at hc
      | cons b gap =>
        obtain rfl : b = c := (List.cons.inj hrest).1
        rw [isAttributeNameChar_of_isBlank (allBlank_iff.1 hgap b List.mem_cons_self)] at hc
        simp at hc

/-- A value is not taken for the word of a code section, since it does not hold it. -/
theorem sectionFree_value {value : List Char} (hvalue : ¬ "@code".toList <:+: value) {q : Char}
    (hq : q ∉ "@code".toList) (rest : List Char) : SectionFree value (q :: rest) := by
  rintro u v rfl -
  rw [Option.eq_none_iff_forall_ne_some]
  intro n hn
  obtain ⟨gap, rest', h, -, -⟩ := Opening.partsLength?_keyword hn
  rw [List.append_assoc] at h
  rcases List.append_eq_append_iff.1 h with ⟨w, hw, hrest⟩ | ⟨w, rfl, hrest⟩
  · cases w with
    | nil => exact hvalue ⟨u, [], by rw [hw]; simp⟩
    | cons c w =>
      -- the quote behind the value is no part of the word
      obtain rfl : q = c := (List.cons.inj hrest).1
      exact hq (by rw [hw]; simp)
  · exact hvalue ⟨u, w, by simp⟩

theorem SpeltAttribute.sectionFree {a : Attribute} (ha : IsAttribute a) {text : List Char}
    (h : SpeltAttribute a text) {rest : List Char} (hrest : EndsName rest) :
    SectionFree text rest := by
  cases h with
  | bare =>
    obtain ⟨c, s, hs, -, hc⟩ := hrest.dropWhile
    refine sectionFree_name ha.name_chars hrest.not_nameChar fun c' s' h => ?_
    rw [hs] at h
    exact (List.cons.inj h).1 ▸ hc
  | quoted name value q hq hvalue =>
    have hquote : q ∉ "@code".toList ∧ '@' ≠ q := by rcases hq with rfl | rfl <;> decide
    have named : SectionFree name ('=' :: q :: (value ++ [q]) ++ rest) := by
      refine sectionFree_name ha.name_chars (fun c hc => ?_) fun c s h => ?_
      · obtain rfl : '=' = c := by simpa using hc
        exact isAttributeNameChar_delimiter (by decide)
      · rw [List.cons_append, List.dropWhile_cons_of_neg (by decide)] at h
        rw [← (List.cons.inj h).1]
        decide
    refine named.append (SectionFree.append (s := ['=', q]) ?_ (SectionFree.append ?_ ?_))
    · exact sectionFree_of_not_mem (by simp [hquote.2]) _
    · exact sectionFree_value (ha.value_section value rfl) hquote.1 _
    · exact sectionFree_of_not_mem (by simp [hquote.2]) _

/-- No code section begins in the attributes of a tag. -/
theorem SpeltAttributes.sectionFree {as : List Attribute} {text : List Char}
    (h : SpeltAttributes as text) {tail : List Char} (htail : endsTag tail = true) :
    SectionFree text tail := by
  induction h with
  | nil hgap => exact sectionFree_of_not_mem (not_mem_of_allBlank hgap (by decide)) _
  | cons ha hgap _ htext hrest ih =>
    rw [List.append_assoc]
    refine (sectionFree_of_not_mem (not_mem_of_allBlank hgap (by decide)) _).append ?_
    exact (htext.sectionFree ha (hrest.endsName htail)).append ih

/-- A mark begins a code section only in front of its word. -/
theorem sectionFree_mark {rest : List Char} (hrest : rest.head? ≠ some 'c') :
    SectionFree ['@'] rest := by
  intro u v huv hv
  obtain rfl : v = ['@'] := by
    cases u with
    | nil => exact huv.symm
    | cons c u => simp_all
  rw [Option.eq_none_iff_forall_ne_some]
  intro n hn
  obtain ⟨gap, behind, heq, -, -⟩ := Opening.partsLength?_keyword hn
  have heq : rest = 'c' :: ("ode".toList ++ (gap ++ '{' :: behind)) := by simpa using heq
  simp [heq] at hrest

theorem IsExpression.sectionFree {code : List Char} (h : IsExpression code) {rest : List Char}
    (hrest : endsExpression rest = true) : SectionFree ('@' :: code) rest := by
  refine SectionFree.append (s := ['@']) ?_ (sectionFree_of_not_mem h.no_mark rest)
  intro u v huv hv
  obtain rfl : v = ['@'] := by
    cases u with
    | nil => exact huv.symm
    | cons c u => simp_all
  exact h.keyword_length?_eq_none hrest (w := "code".toList) (by decide) (by decide)

theorem IsLine.sectionFree {block : CodeBlock} (h : IsLine block) {rest : List Char}
    (hrest : rest.head? ≠ some 'c') : SectionFree ('@' :: block.code) rest := by
  cases h with
  | @directive keyword value span h hmarkup hmark =>
    have keywords : Directive.keywords.all fun w =>
        !w.isEmpty && w.head? != some 'c' && !w.contains '@' := by decide
    have hkeyword := List.all_eq_true.1 keywords keyword h.keyword_mem
    simp only [Bool.and_eq_true, Bool.not_eq_true', bne_iff_ne, List.contains_eq_mem,
      decide_eq_false_iff_not, List.isEmpty_eq_false_iff] at hkeyword
    obtain ⟨⟨hne, hfirst⟩, hheld⟩ := hkeyword
    refine SectionFree.append (s := ['@']) (sectionFree_mark ?_) (sectionFree_of_not_mem ?_ rest)
    · obtain ⟨c, w, rfl⟩ := List.exists_cons_of_ne_nil hne
      simpa using hfirst
    · simp [hheld, hmark]
  | @comment note span hline hmarkup hmark =>
    -- both marks of a comment are followed by something else than a section
    have source : '@' :: ('*' :: (note ++ ['*', '@']))
        = ['@'] ++ (('*' :: note ++ ['*']) ++ ['@']) := by simp
    rw [source]
    refine (sectionFree_mark (by simp)).append ((sectionFree_of_not_mem ?_ _).append
      (sectionFree_mark ?_))
    · simp [hmark]
    · exact hrest

theorem SectionFree.find?_eq_none {s : List Char} (h : SectionFree s []) :
    Opening.codeSection.find? s = none := by
  refine searchFrom_eq_none fun u v huv => ?_
  cases v with
  | nil => rfl
  | cons c v => simpa using h u (c :: v) huv (by simp)

/-- A document in which no code section begins is read as content. -/
theorem readDocument_of_sectionFree {s : List Char} (h : SectionFree s []) :
    readDocument s = readContent (maxNesting + 1) 0 s := by
  have declines : sectionStep {} s = none := by simp [sectionStep, h.find?_eq_none]
  rw [readDocument, advance_of_none declines]
  rfl

end RazorLayout.Template

import Mathlib.Data.List.Basic
import RazorLayout.Settings.File

/-!
# Settings, field by field

Settings are put together from layers, and a layer is a record of its own with the same sixteen
fields. To say of all fields at once what putting a layer on top does, a field is given its type of
values and its two views: the value that settings have, and the value that a layer sets. Then one
equation (`get_apply`) stands for the sixteen, and it goes through any number of layers: the last
layer that sets a field decides it.

## Main definitions

* `Field.Value`, `Field.get`, `Field.get?`: the values of a field, in settings and in layers
* `Field.set`: a layer with one more field set
* `Field.lastSet?`: the value of a field in the last layer that sets it
* `WithinBounds`: the bounds that a run accepts

## Main results

* `eq_of_get_eq`: settings are known by their fields
* `get_foldl_apply`: the last layer that sets a field decides it
* `violation?_eq_none_iff`: nothing is complained about exactly within the bounds
-/

namespace RazorLayout.Settings

namespace Field

/-- The values of a field. -/
def Value : Field → Type
  | indentSize | maxLineLength | attributesPerLine | attributeBreakThreshold
  | contentBreakThreshold => Nat
  | attributeLayout => AttributeLayout
  | quoteStyle => QuoteStyle
  | useTabs | formatCSharp | formatCss | formatJavaScript | breakContent | sortAttributes
  | collapseEmptyTags | removeTrailingWhitespace | insertFinalNewline => Bool

/-- The value of a field in settings. -/
def get : (f : Field) → Settings → f.Value
  | indentSize, s => s.indentSize
  | useTabs, s => s.useTabs
  | maxLineLength, s => s.maxLineLength
  | formatCSharp, s => s.formatCSharp
  | formatCss, s => s.formatCss
  | formatJavaScript, s => s.formatJavaScript
  | attributeLayout, s => s.attributeLayout
  | attributesPerLine, s => s.attributesPerLine
  | attributeBreakThreshold, s => s.attributeBreakThreshold
  | breakContent, s => s.breakContent
  | contentBreakThreshold, s => s.contentBreakThreshold
  | sortAttributes, s => s.sortAttributes
  | collapseEmptyTags, s => s.collapseEmptyTags
  | removeTrailingWhitespace, s => s.removeTrailingWhitespace
  | insertFinalNewline, s => s.insertFinalNewline
  | quoteStyle, s => s.quoteStyle

/-- The value that a layer sets a field to, if it sets the field. -/
def get? : (f : Field) → Overrides → Option f.Value
  | indentSize, o => o.indentSize
  | useTabs, o => o.useTabs
  | maxLineLength, o => o.maxLineLength
  | formatCSharp, o => o.formatCSharp
  | formatCss, o => o.formatCss
  | formatJavaScript, o => o.formatJavaScript
  | attributeLayout, o => o.attributeLayout
  | attributesPerLine, o => o.attributesPerLine
  | attributeBreakThreshold, o => o.attributeBreakThreshold
  | breakContent, o => o.breakContent
  | contentBreakThreshold, o => o.contentBreakThreshold
  | sortAttributes, o => o.sortAttributes
  | collapseEmptyTags, o => o.collapseEmptyTags
  | removeTrailingWhitespace, o => o.removeTrailingWhitespace
  | insertFinalNewline, o => o.insertFinalNewline
  | quoteStyle, o => o.quoteStyle

/-- The layer with one field set to a value. -/
def set : (f : Field) → f.Value → Overrides → Overrides
  | indentSize, v, o => { o with indentSize := some v }
  | useTabs, v, o => { o with useTabs := some v }
  | maxLineLength, v, o => { o with maxLineLength := some v }
  | formatCSharp, v, o => { o with formatCSharp := some v }
  | formatCss, v, o => { o with formatCss := some v }
  | formatJavaScript, v, o => { o with formatJavaScript := some v }
  | attributeLayout, v, o => { o with attributeLayout := some v }
  | attributesPerLine, v, o => { o with attributesPerLine := some v }
  | attributeBreakThreshold, v, o => { o with attributeBreakThreshold := some v }
  | breakContent, v, o => { o with breakContent := some v }
  | contentBreakThreshold, v, o => { o with contentBreakThreshold := some v }
  | sortAttributes, v, o => { o with sortAttributes := some v }
  | collapseEmptyTags, v, o => { o with collapseEmptyTags := some v }
  | removeTrailingWhitespace, v, o => { o with removeTrailingWhitespace := some v }
  | insertFinalNewline, v, o => { o with insertFinalNewline := some v }
  | quoteStyle, v, o => { o with quoteStyle := some v }

@[simp] theorem get?_empty (f : Field) : f.get? {} = none := by
  cases f <;> rfl

@[simp] theorem get?_set_self (f : Field) (v : f.Value) (o : Overrides) :
    f.get? (f.set v o) = some v := by
  cases f <;> rfl

theorem get?_set_of_ne {f g : Field} (h : f ≠ g) (v : g.Value) (o : Overrides) :
    f.get? (g.set v o) = f.get? o := by
  cases g <;> cases f <;> first | rfl | exact absurd rfl h

/-- A field of a layer on top, or else of the settings below it. -/
@[simp] theorem get_apply (f : Field) (s : Settings) (o : Overrides) :
    f.get (s.apply o) = (f.get? o).getD (f.get s) := by
  cases f <;> rfl

/-! ### Many layers -/

/-- The value of a field in the last layer that sets it. -/
def lastSet? (f : Field) (layers : List Overrides) : Option f.Value :=
  layers.reverse.findSome? f.get?

@[simp] theorem lastSet?_nil (f : Field) : f.lastSet? [] = none := rfl

theorem lastSet?_cons (f : Field) (o : Overrides) (layers : List Overrides) :
    f.lastSet? (o :: layers) = (f.lastSet? layers).or (f.get? o) := by
  rw [lastSet?, List.reverse_cons, List.findSome?_append, List.findSome?_singleton]
  rfl

/-- Layers are put on top one after the other, and the last one that sets a field decides it. -/
theorem get_foldl_apply (f : Field) (layers : List Overrides) (s : Settings) :
    f.get (layers.foldl Settings.apply s) = (f.lastSet? layers).getD (f.get s) := by
  induction layers generalizing s with
  | nil => rfl
  | cons o layers ih =>
    rw [List.foldl_cons, ih, get_apply, lastSet?_cons]
    cases f.lastSet? layers with
    | none => rfl
    | some v => rfl

end Field

/-- Settings are known by their fields. -/
theorem eq_of_get_eq {s s' : Settings} (h : ∀ f : Field, f.get s = f.get s') : s = s' := by
  cases s
  cases s'
  congr 1
  · exact h .indentSize
  · exact h .useTabs
  · exact h .maxLineLength
  · exact h .formatCSharp
  · exact h .formatCss
  · exact h .formatJavaScript
  · exact h .attributeLayout
  · exact h .attributesPerLine
  · exact h .attributeBreakThreshold
  · exact h .breakContent
  · exact h .contentBreakThreshold
  · exact h .sortAttributes
  · exact h .collapseEmptyTags
  · exact h .removeTrailingWhitespace
  · exact h .insertFinalNewline
  · exact h .quoteStyle

/-! ### Bounds -/

/-- The bounds that a run accepts. -/
structure WithinBounds (s : Settings) : Prop where
  indentSize_pos : 1 ≤ s.indentSize
  indentSize_le : s.indentSize ≤ 16
  le_maxLineLength : 20 ≤ s.maxLineLength
  maxLineLength_le : s.maxLineLength ≤ 1000
  attributesPerLine_pos : 1 ≤ s.attributesPerLine
  attributeBreakThreshold_pos : 1 ≤ s.attributeBreakThreshold
  contentBreakThreshold_pos : 1 ≤ s.contentBreakThreshold

/-- Nothing is complained about exactly within the bounds. -/
theorem violation?_eq_none_iff {s : Settings} : s.violation? = none ↔ s.WithinBounds := by
  unfold violation? maxIndentSize minLineLength maxLineLengthBound
  constructor
  · intro h
    split_ifs at h
    constructor <;> omega
  · rintro ⟨hindent, hindent', hline, hline', hattributes, hbreak, hcontent⟩
    rw [if_neg (by omega), if_neg (by omega), if_neg (by omega), if_neg (by omega),
      if_neg (by omega), if_neg (by omega), if_neg (by omega)]

/-- The defaults are within the bounds. -/
theorem withinBounds_default : WithinBounds {} :=
  violation?_eq_none_iff.1 rfl

end RazorLayout.Settings

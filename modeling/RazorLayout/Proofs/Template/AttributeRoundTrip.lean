import RazorLayout.Proofs.Template.OpeningTag

/-!
# Attributes are read as they were written

An attribute is written with quotes around its value, and nothing in the value is escaped. The
chosen quote gives way to the other one where the value holds it, so that a value with quotes of one
kind is read back. A value without quotes around it may hold both kinds; whichever is written around
such a value, reading stops at the first one of that kind inside of it.

## Main results

* `readAttribute?_render`: an attribute is read from what is written for it
* `readAttribute?_render_of_mixed`: a value with both quotes is cut off
* `readAttribute?_render_iff`: which attributes are read back
-/

namespace RazorLayout.Template

open Text

theorem AttributeSource.name_chars {a : Attribute} {text rest : List Char}
    (h : AttributeSource a text rest) : ∀ c ∈ a.name, isAttributeNameChar c = true := by
  cases h with
  | bare _ hchars => exact hchars
  | valued _ hchars _ _ => exact hchars

/-- The value holds quotes of both kinds. -/
def HoldsBothQuotes (value : List Char) : Prop := '"' ∈ value ∧ '\'' ∈ value

instance (value : List Char) : Decidable (HoldsBothQuotes value) :=
  inferInstanceAs (Decidable (_ ∧ _))

section Rendering

variable {a : Attribute} (hname : a.name ≠ [])
  (hchars : ∀ c ∈ a.name, isAttributeNameChar c = true) (style : QuoteStyle)

include hname hchars

/-- An attribute is read from what is written for it, unless its value holds both quotes. -/
theorem readAttribute?_render (hquotes : ∀ value, a.value = some value → ¬ HoldsBothQuotes value)
    {rest : List Char} (hrest : EndsName rest) :
    readAttribute? (a.render style ++ rest) = some (a, (a.render style).length) :=
  readAttribute?_of_spelt hname hchars (spelt_render hquotes style) hrest

/-- A value with both quotes is written in the other quote, and cut off at the first one that it
holds itself. -/
theorem readAttribute?_render_of_mixed {value : List Char} (hvalue : a.value = some value)
    (hmixed : HoldsBothQuotes value) (rest : List Char) :
    ∃ front back, value = front ++ style.alternate.char :: back ∧
      readAttribute? (a.render style ++ rest)
        = some (⟨a.name, some front⟩, a.name.length + front.length + 3) := by
  have held (style : QuoteStyle) : style.char ∈ value := by
    cases style with
    | single => exact hmixed.2
    | double => exact hmixed.1
  have quote (style : QuoteStyle) : style.char = '"' ∨ style.char = '\'' := by
    cases style <;> simp [QuoteStyle.char]
  obtain ⟨front, back, rfl, hfront⟩ := List.eq_append_cons_of_mem (held style.alternate)
  have written : a.render style
      = a.name ++ '=' :: style.alternate.char ::
        (front ++ style.alternate.char :: (back ++ [style.alternate.char])) := by
    have hstyle := List.contains_iff_mem.2 (held style)
    simp only [Attribute.render, hvalue, hstyle, if_true]
    simp
  refine ⟨front, back, rfl, ?_⟩
  have read := readAttribute?_quoted hname hchars (quote style.alternate) hfront
    (back ++ [style.alternate.char] ++ rest)
  rw [← read, written]
  simp

end Rendering

/-- What is written for an attribute that was read is read as the same attribute exactly when its
value does not hold both quotes. -/
theorem readAttribute?_render_iff {s : List Char} {a : Attribute} {n : Nat}
    (h : readAttribute? s = some (a, n)) (style : QuoteStyle) :
    readAttribute? (a.render style ++ ['>']) = some (a, (a.render style).length) ↔
      ∀ value, a.value = some value → ¬ HoldsBothQuotes value := by
  obtain ⟨text, rest, rfl, rfl, hsource⟩ := readAttribute?_eq_some h
  constructor
  · intro hread value hvalue hmixed
    obtain ⟨front, back, hcut, hfront⟩ := readAttribute?_render_of_mixed hsource.name_ne_nil
      hsource.name_chars style hvalue hmixed ['>']
    rw [hread, Option.some.injEq, Prod.mk.injEq] at hfront
    -- the part in front of a quote of the value would be the whole value
    have whole : value = front := by
      rw [hfront.1] at hvalue
      exact (Option.some.inj hvalue).symm
    have := congrArg List.length (hcut.symm.trans whole)
    simp at this
  · intro hquotes
    exact readAttribute?_render hsource.name_ne_nil hsource.name_chars style hquotes
      (.tagEnd allBlank_nil (.inl rfl))

/-- A value that holds the preferred quote and the end of a tag. -/
theorem readAttribute?_render_quoted :
    let s := "@on:click = 'say \"hi\" > 1' b>".toList
    let a : Attribute := ⟨"@on:click".toList, some "say \"hi\" > 1".toList⟩
    readAttribute? s = some (a, 26) ∧
      readAttribute? (a.render .double ++ ['>']) = some (a, (a.render .double).length) := by
  intro s a
  have read : readAttribute? s = some (a, 26) := by decide +kernel
  refine ⟨read, (readAttribute?_render_iff read .double).2 fun value hvalue => ?_⟩
  obtain rfl : "say \"hi\" > 1".toList = value := Option.some.inj hvalue
  decide

/-- A value without quotes around it may hold quotes of both kinds. It is written in one of them,
and is not read back. -/
theorem readAttribute?_render_ne :
    ∃ s a n style, readAttribute? s = some (a, n) ∧
      readAttribute? (a.render style ++ ['>']) ≠ some (a, (a.render style).length) := by
  refine ⟨"a=b\"c'd>x</p>".toList, ⟨['a'], some "b\"c'd".toList⟩, 7, .double, ?_⟩
  decide +kernel

end RazorLayout.Template

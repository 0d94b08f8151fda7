import RazorLayout.Settings.Basic
import RazorLayout.Template.Node
import RazorLayout.Text.Letter

/-!
# Reading and writing attributes

An attribute is a name alone, or a name with a value in single quotes, in double quotes or
without quotes. It is always written with quotes around the value.

## Main definitions

* `Template.readAttribute?`: the attribute at the head of a text
* `Template.readAttributes`: the attributes of a tag, up to its end
* `Attribute.render`: the attribute as it is written
-/

namespace RazorLayout

namespace Template

open Text

/-- Characters of tag names. -/
def isTagNameChar (c : Char) : Bool :=
  isLetterOrDigit c || c == '-' || c == '_' || c == ':' || c == '.'

/-- Characters of attribute names. -/
def isAttributeNameChar (c : Char) : Bool := isTagNameChar c || c == '@'

/-- Where a value without quotes ends: at a blank, at `>` and at `/>`. -/
def endsUnquoted : List Char → Bool
  | [] => true
  | c :: s => isBlank c || c == '>' || (c == '/' && s.head? == some '>')

/-- The value that follows the equals sign, and the number of characters it takes, with blanks
before it. There is none when a quote is not closed. -/
def readValue? (s : List Char) : Option (List Char × Nat) :=
  let gap := countWhile isBlank s
  let rest := s.drop gap
  match rest with
  | [] => some ([], gap)
  | c :: inner =>
    if c == '"' || c == '\'' then
      (find? [c] inner).map fun n => (inner.take n, gap + n + 2)
    else
      let n := countUntil endsUnquoted rest
      some (rest.take n, gap + n)

/-- The attribute at the head of a text, and the number of characters it takes. -/
def readAttribute? (s : List Char) : Option (Attribute × Nat) :=
  let n := countWhile isAttributeNameChar s
  if n = 0 then none
  else
    let name := s.take n
    let rest := s.drop n
    let gap := countWhile isBlank rest
    match rest.drop gap with
    | '=' :: after =>
      (readValue? after).map fun (value, m) => (⟨name, some value⟩, n + gap + 1 + m)
    | _ => some (⟨name, none⟩, n)

/-- The end of a tag: `>` or `/>`. -/
def endsTag : List Char → Bool
  | '>' :: _ => true
  | '/' :: '>' :: _ => true
  | _ => false

/-- One step through a tag: an attribute, or one character that belongs to none. The state is
the attributes so far, the last one first, and the number of characters. -/
def attributeStep (st : List Attribute × Nat) (s : List Char) :
    Option ((List Attribute × Nat) × Nat) :=
  if endsTag s then none
  else
    match readAttribute? s with
    | some (a, n) => some ((a :: st.1, st.2 + n), n)
    | none => some ((st.1, st.2 + 1), 1)

/-- The attributes of a tag, the number of characters they take, and the text from the end of
the tag on. That text is empty when the tag has no end. -/
def readAttributes (s : List Char) : List Attribute × Nat × List Char :=
  let ((attributes, n), rest) := advance attributeStep 0 ([], 0) s
  (attributes.reverse, n, rest)

end Template

/-- The attribute as it is written: its name, and its value in the chosen quote, or in the other
one when the value holds the chosen quote. -/
def Attribute.render (style : QuoteStyle) (a : Attribute) : List Char :=
  match a.value with
  | none => a.name
  | some value =>
    let quote := if value.contains style.char then style.alternate.char else style.char
    a.name ++ ['='] ++ [quote] ++ value ++ [quote]

end RazorLayout

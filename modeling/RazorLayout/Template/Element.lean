import RazorLayout.Code.Scan
import RazorLayout.Template.Attribute

/-!
# Reading elements

An element reaches from its tag to the closing tag that balances it. Tags of the same name are
counted in between, unless they close themselves. A tag that is never closed is no element.

## Main definitions

* `Template.isVoid`, `Template.isRawText`, `Template.embeddedLanguage?`: elements with special
  content
* `Template.closingTag?`: where the content of an element ends
* `Template.readMarkup?`: the element, declaration or comment at the head of a text
-/

namespace RazorLayout.Template

open Text

/-- The elements that never have content. -/
def voidElements : List (List Char) :=
  ["area".toList, "base".toList, "br".toList, "col".toList, "embed".toList, "hr".toList,
   "img".toList, "input".toList, "link".toList, "meta".toList, "source".toList, "track".toList,
   "wbr".toList]

/-- The elements whose content is not markup. -/
def rawTextElements : List (List Char) := ["script".toList, "style".toList]

/-- Elements that never have content, in any case. -/
def isVoid (tag : List Char) : Bool := voidElements.any (sameIgnoringAsciiCase tag)

/-- Elements whose content is not markup, in any case. -/
def isRawText (tag : List Char) : Bool := rawTextElements.any (sameIgnoringAsciiCase tag)

/-- The language of an element's content, if it is code. -/
def embeddedLanguage? (tag : List Char) : Option Code.Language :=
  if sameIgnoringAsciiCase tag "script".toList then some .javaScript
  else if sameIgnoringAsciiCase tag "style".toList then some .css
  else none

/-- `<tag` -/
def tagOpener (tag : List Char) : List Char := '<' :: tag

/-- `</tag>` -/
def tagCloser (tag : List Char) : List Char := ['<', '/'] ++ tag ++ ['>']

/-- The character behind a tag name has to end the name. -/
def endsTagName : List Char → Bool
  | c :: _ => isBlank c || c == '>' || c == '/'
  | [] => false

/-- Whether the next `>` behind `before` has a slash directly in front of it. -/
def closesItself (before rest : List Char) : Bool :=
  match find? ['>'] rest with
  | some n => (before ++ rest.take n).getLast? == some '/'
  | none => false

/-- Whether a text that begins with `opener` begins an element that needs a closing tag. -/
def opensNested (opener s : List Char) : Bool :=
  let rest := s.drop opener.length
  endsTagName rest && !closesItself opener rest

/-- Whether `opener` is at the head of a text and ends before a `closer` begins. -/
def opensBefore (opener closer s : List Char) : Bool :=
  opener.isPrefixOf s && (List.range opener.length).all fun k => !closer.isPrefixOf (s.drop k)

/-- `closingTag?` behind `n` characters, with `depth` more elements of the name open. The first
`skip` characters belong to a tag already seen. -/
def closingTagFrom (opener closer : List Char) : (n depth skip : Nat) → List Char → Option Nat
  | _, _, _, [] => none
  | n, depth, skip + 1, _ :: s => closingTagFrom opener closer (n + 1) depth skip s
  | n, depth, 0, c :: s =>
    if closer.isPrefixOf (c :: s) then
      match depth with
      | 0 => some n
      | d + 1 => closingTagFrom opener closer (n + 1) d (closer.length - 1) s
    else if opensBefore opener closer (c :: s) then
      let nested := if opensNested opener (c :: s) then 1 else 0
      closingTagFrom opener closer (n + 1) (depth + nested) (opener.length - 1) s
    else closingTagFrom opener closer (n + 1) depth 0 s

/-- The number of characters before the `</tag>` that closes an element whose content the text
begins with. -/
def closingTag? (tag s : List Char) : Option Nat :=
  closingTagFrom (tagOpener tag) (tagCloser tag) 0 0 0 s

/-- A comment, once `<` and `gap` blanks are read: literal text up to `-->`. -/
def readComment? (pos gap : Nat) (s rest : List Char) : Option (Node × Nat) :=
  (find? "-->".toList rest).map fun n =>
    let content := s.take (1 + gap + n + 3)
    (.text content ⟨pos, pos + byteLength content⟩, 1 + gap + n + 3)

/-- A declaration, once `<` and `gap` blanks are read: everything up to `>`, with every run of
blanks written as one space. -/
def readDeclaration? (pos gap : Nat) (s rest : List Char) : Option (Node × Nat) :=
  (find? ['>'] rest).map fun n =>
    let length := 1 + gap + n + 1
    (.declaration ('<' :: collapse (rest.take (n + 1))) ⟨pos, pos + byteLength (s.take length)⟩,
      length)

/-- The content of an element: code and style sheets are one text, everything else is read by
`children`. -/
def readChildren (children : Nat → List Char → List Node) (name : List Char) (pos : Nat)
    (inner : List Char) : List Node :=
  if isRawText name then Node.mergeTexts [.text inner ⟨pos, pos + byteLength inner⟩]
  else children pos inner

/-- An element, once `<` and `gap` blanks are read. -/
def readElement? (children : Nat → List Char → List Node) (pos gap : Nat) (s rest : List Char) :
    Option (Node × Nat) :=
  let nameLength := countWhile isTagNameChar rest
  let name := rest.take nameLength
  let (attributes, attributesLength, left) := readAttributes (rest.drop nameLength)
  let tagLength := 1 + gap + nameLength + attributesLength
  let closed (length : Nat) : Node × Nat :=
    (.selfClosing ⟨name, attributes, ⟨pos, pos + byteLength (s.take length)⟩⟩, length)
  match left with
  | '/' :: '>' :: _ => some (closed (tagLength + 2))
  | '>' :: content =>
    if isVoid name then some (closed (tagLength + 1))
    else
      (closingTag? name content).map fun n =>
        let length := tagLength + 1 + n + (tagCloser name).length
        let start := pos + byteLength (s.take (tagLength + 1))
        (.element ⟨name, attributes, ⟨pos, pos + byteLength (s.take length)⟩⟩
          (readChildren children name start (content.take n)), length)
  | _ => none

/-- The element, declaration or comment at the head of a text, which is the character `<`, and
the number of characters it takes. The text stands behind `pos` bytes of the source; `children`
reads the content of elements. -/
def readMarkup? (children : Nat → List Char → List Node) (pos : Nat) (s : List Char) :
    Option (Node × Nat) :=
  let gap := countWhile isBlank (s.drop 1)
  let rest := s.drop (1 + gap)
  match rest with
  | '!' :: '-' :: '-' :: _ => readComment? pos gap s rest
  | '!' :: _ => readDeclaration? pos gap s rest
  | c :: _ => if isLetter c then readElement? children pos gap s rest else none
  | [] => none

end RazorLayout.Template

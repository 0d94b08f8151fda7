import RazorLayout.Text.Blank
import RazorLayout.Text.Reading

/-!
# How constructs open

Each construct of the template language is recognised by the way it opens: a keyword, blanks
where they may stand, and a delimiter. An opening is a list of parts that follow each other.

## Main definitions

* `Template.OpeningPart`, `Template.Opening`: what openings are made of
* `Template.Opening.length?`: the length of an opening at the head of a text
* `Template.Opening.find?`: the first opening in a text
-/

namespace RazorLayout.Template

open Text

/-- A part of an opening. -/
inductive OpeningPart where
  /-- exactly this text -/
  | word (w : List Char)
  /-- any number of blanks -/
  | blanks
  /-- one blank or more -/
  | someBlanks
  /-- a letter of `A` to `Z`, `a` to `z` or an underscore, then any number of these and digits -/
  | identifier
  deriving Repr, DecidableEq

/-- The first character of an identifier. -/
def isIdentifierStart (c : Char) : Bool := c.isAlpha || c == '_'

/-- The further characters of an identifier. -/
def isIdentifierRest (c : Char) : Bool := c.isAlphanum || c == '_'

/-- The length of the part at the head of a text. Blanks and identifiers reach as far as they
can. -/
def OpeningPart.length? (s : List Char) : OpeningPart → Option Nat
  | .word w => if w.isPrefixOf s then some w.length else none
  | .blanks => some (countWhile isBlank s)
  | .someBlanks =>
    match countWhile isBlank s with
    | 0 => none
    | n => some n
  | .identifier =>
    match s with
    | c :: rest => if isIdentifierStart c then some (1 + countWhile isIdentifierRest rest) else none
    | [] => none

/-- The ways in which constructs open. -/
inductive Opening where
  /-- `@code {` -/
  | codeSection
  /-- `@if (` -/
  | ifBlock
  /-- `@foreach (` -/
  | foreachBlock
  /-- `else if (` -/
  | elseIfBlock
  /-- `else {` -/
  | elseBlock
  /-- `@{` -/
  | inlineBlock
  /-- `@name` -/
  | expression
  /-- `.name` -/
  | member
  /-- a run of blanks -/
  | blankRun
  deriving Repr, DecidableEq

namespace Opening

/-- The parts of an opening, in order. -/
def parts : Opening → List OpeningPart
  | codeSection => [.word "@code".toList, .blanks, .word ['{']]
  | ifBlock => [.word "@if".toList, .blanks, .word ['(']]
  | foreachBlock => [.word "@foreach".toList, .blanks, .word ['(']]
  | elseIfBlock => [.word "else".toList, .someBlanks, .word "if".toList, .blanks, .word ['(']]
  | elseBlock => [.word "else".toList, .blanks, .word ['{']]
  | inlineBlock => [.word ['@', '{']]
  | expression => [.word ['@'], .identifier]
  | member => [.word ['.'], .identifier]
  | blankRun => [.someBlanks]

/-- Whether the opening is looked for in the whole text, and not only at its head. -/
def isSearched : Opening → Bool
  | codeSection | blankRun => true
  | _ => false

/-- The length of the parts, one after the other, at the head of a text. -/
def partsLength? : List OpeningPart → List Char → Option Nat
  | [], _ => some 0
  | part :: parts, s => do
    let n ← part.length? s
    let m ← partsLength? parts (s.drop n)
    return n + m

/-- The length of the opening at the head of a text. -/
def length? (o : Opening) (s : List Char) : Option Nat := partsLength? o.parts s

/-- The first opening in a text: the number of characters before it, and its length. -/
def find? (o : Opening) (s : List Char) : Option (Nat × Nat) :=
  if o.isSearched then search o.length? s else (o.length? s).map fun n => (0, n)

end Opening

end RazorLayout.Template

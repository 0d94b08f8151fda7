import RazorLayout.Text.Blank
import RazorLayout.Text.Reading

/-!
# Directives

A directive such as `@page "/counter"` is a keyword and a value that reaches to the end of the
line. It always takes one line of the output.

## Main definitions

* `Template.Directive`: a keyword with its value
* `Template.Directive.read?`: the directive at the head of a text
-/

namespace RazorLayout.Template

open Text

/-- A directive of one line. -/
structure Directive where
  keyword : List Char
  /-- The value without blanks at its ends. -/
  value : List Char
  /-- Number of characters that it takes; the line end is not one of them. -/
  length : Nat
  deriving Repr, DecidableEq

namespace Directive

/-- The keywords whose value is the rest of the line. -/
def keywords : List (List Char) :=
  ["page".toList, "using".toList, "inject".toList, "inherits".toList, "layout".toList,
   "implements".toList, "rendermode".toList, "attribute".toList, "typeparam".toList,
   "namespace".toList, "preservewhitespace".toList, "model".toList]

/-- The blanks that separate keyword and value. -/
def isSeparator (c : Char) : Bool := c == ' ' || c == '\t'

/-- The characters of a value. -/
def isValueChar (c : Char) : Bool := c != '\r' && c != '\n'

/-- The directive with the given keyword, once `@` is read. -/
def readWith? (keyword s : List Char) : Option Directive :=
  if keyword.isPrefixOf s then
    let rest := s.drop keyword.length
    let gap := countWhile isSeparator rest
    let raw := (rest.drop gap).takeWhile isValueChar
    let value := trim raw
    if gap = 0 || value.isEmpty then none
    else some ⟨keyword, value, 1 + keyword.length + gap + raw.length⟩
  else none

/-- The directive at the head of a text. There is none without a value on the same line. -/
def read? : List Char → Option Directive
  | '@' :: s => keywords.findSome? fun keyword => readWith? keyword s
  | _ => none

/-- Keyword and value with one space between them. -/
def code (d : Directive) : List Char := d.keyword ++ [' '] ++ d.value

end Directive

end RazorLayout.Template

/-!
# Blank characters

The characters that separate words in a template, and the operations that remove or
shorten runs of them. A character is blank when it has the Unicode property
`White_Space`; the zero-width space and the byte order mark are not blank.

## Main definitions

* `Text.isBlank`: the `White_Space` property
* `Text.trimStart`, `Text.trimEnd`, `Text.trim`: a text without the blanks at its edges
* `Text.allBlank`: nothing but blanks
* `Text.collapse`: every run of blanks written as one space
* `Text.withoutBlanks`: the text with every blank deleted, the view that layout keeps
-/

namespace RazorLayout.Text

/-- The Unicode property `White_Space`. -/
def isBlank (c : Char) : Bool :=
  let n := c.toNat
  (9 ≤ n && n ≤ 13) || n == 0x20 || n == 0x85 || n == 0xA0 || n == 0x1680
    || (0x2000 ≤ n && n ≤ 0x200A) || n == 0x2028 || n == 0x2029 || n == 0x202F
    || n == 0x205F || n == 0x3000

/-- A text that holds nothing but blanks; the empty text is one. -/
def allBlank (s : List Char) : Bool := s.all isBlank

/-- The text from its first character that is not blank. -/
def trimStart (s : List Char) : List Char := s.dropWhile isBlank

/-- The text up to its last character that is not blank. -/
def trimEnd (s : List Char) : List Char := (s.reverse.dropWhile isBlank).reverse

/-- The text without the blanks at both ends. -/
def trim (s : List Char) : List Char := trimEnd (trimStart s)

/-- Every run of blanks written as one space. The space stands where the run ends. -/
def collapse : List Char → List Char
  | [] => []
  | [c] => [if isBlank c then ' ' else c]
  | c :: d :: s =>
    if isBlank c then
      if isBlank d then collapse (d :: s) else ' ' :: collapse (d :: s)
    else c :: collapse (d :: s)

/-- The text with every blank deleted. -/
def withoutBlanks (s : List Char) : List Char := s.filter fun c => !isBlank c

@[simp] theorem allBlank_nil : allBlank [] = true := rfl

@[simp] theorem allBlank_cons (c : Char) (s : List Char) :
    allBlank (c :: s) = (isBlank c && allBlank s) := rfl

@[simp] theorem withoutBlanks_append (s t : List Char) :
    withoutBlanks (s ++ t) = withoutBlanks s ++ withoutBlanks t :=
  List.filter_append ..

end RazorLayout.Text

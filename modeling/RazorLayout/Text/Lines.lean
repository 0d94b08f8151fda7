/-!
# Lines

A line ends at a line feed. The line feed is not part of the line, and neither is one
carriage return directly before it. Text after the last line feed is a line of its own
when there is any.

## Main definitions

* `Text.lines`: the lines of a text
* `Text.split`: the pieces between the occurrences of a character
* `Text.joinWith`: pieces written one after the other with a separator between them
-/

namespace RazorLayout.Text

/-- The lines of a text whose first line has already been read up to the reversed part `acc`. -/
def linesFrom (acc : List Char) : List Char → List (List Char)
  | [] => if acc.isEmpty then [] else [acc.reverse]
  | c :: s =>
    if c = '\n' then
      (match acc with
        | '\r' :: line => line.reverse
        | line => line.reverse) :: linesFrom [] s
    else linesFrom (c :: acc) s

/-- The lines of a text, without their line ends. -/
def lines (s : List Char) : List (List Char) := linesFrom [] s

/-- The pieces of a text whose first piece has already been read up to the reversed part `acc`. -/
def splitFrom (sep : Char) (acc : List Char) : List Char → List (List Char)
  | [] => [acc.reverse]
  | c :: s => if c = sep then acc.reverse :: splitFrom sep [] s else splitFrom sep (c :: acc) s

/-- The pieces of a text between the occurrences of `sep`; there is always at least one. -/
def split (sep : Char) (s : List Char) : List (List Char) := splitFrom sep [] s

/-- Pieces written one after the other, with `sep` between neighbours. -/
def joinWith (sep : List Char) : List (List Char) → List Char
  | [] => []
  | [piece] => piece
  | piece :: next :: rest => piece ++ sep ++ joinWith sep (next :: rest)

/-- Lines joined by line feeds. -/
def unlines (ls : List (List Char)) : List Char := joinWith ['\n'] ls

@[simp] theorem lines_nil : lines [] = [] := rfl

@[simp] theorem split_nil (sep : Char) : split sep [] = [[]] := rfl

theorem splitFrom_ne_nil (sep : Char) (acc s : List Char) : splitFrom sep acc s ≠ [] := by
  induction s generalizing acc with
  | nil => simp [splitFrom]
  | cons c s ih =>
    by_cases h : c = sep
    · simp [splitFrom, h]
    · simpa [splitFrom, h] using ih (c :: acc)

theorem split_ne_nil (sep : Char) (s : List Char) : split sep s ≠ [] :=
  splitFrom_ne_nil sep [] s

end RazorLayout.Text

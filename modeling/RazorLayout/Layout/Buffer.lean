import RazorLayout.Code.Indent
import RazorLayout.Text.Lines

/-!
# The output buffer

Output is written line by line. A buffer holds the lines that are complete and the line that is
still being written. Where the line breaks fall follows from the order of three operations:
`write` goes on with the pending line, `writeLine` puts a line of its own behind it, and
`finishLine` completes it.

## Main definitions

* `Layout.Buffer`: the output so far
* `Buffer.write`, `Buffer.writeLine`, `Buffer.finishLine`: the operations
* `Buffer.indent`, `Buffer.dedent`: the level of new lines
* `Buffer.toLines`, `Buffer.output`: the whole output
-/

namespace RazorLayout.Layout

open Text

/-- The output so far. -/
structure Buffer where
  /-- One level of indentation. -/
  unit : List Char
  /-- The complete lines. -/
  committed : Array (List Char) := #[]
  /-- The line that is being written; empty when there is none. -/
  pending : List Char := []
  level : Nat := 0
  deriving Repr, DecidableEq

namespace Buffer

/-- The blanks in front of a new line. -/
def indentation (b : Buffer) : List Char := Code.indentation b.unit b.level

/-- The complete lines, in order. -/
def lines (b : Buffer) : List (List Char) := b.committed.toList

/-- Goes on with the pending line. A new line begins with the indentation of the moment. -/
def write (s : List Char) (b : Buffer) : Buffer :=
  { b with pending := (if b.pending.isEmpty then b.indentation else b.pending) ++ s }

/-- Completes the pending line, if there is one. -/
def finishLine (b : Buffer) : Buffer :=
  if b.pending.isEmpty then b
  else { b with committed := b.committed.push b.pending, pending := [] }

/-- Completes the pending line and writes a line of its own. An empty line is not indented. -/
def writeLine (s : List Char) (b : Buffer) : Buffer :=
  let b := b.finishLine
  { b with committed := b.committed.push (if s.isEmpty then [] else b.indentation ++ s) }

/-- Writes lines of their own, in order. -/
def writeLines (ls : List (List Char)) (b : Buffer) : Buffer :=
  ls.foldl (fun b l => b.writeLine l) b

/-- One level deeper. -/
def indent (b : Buffer) : Buffer := { b with level := b.level + 1 }

/-- One level back; the outermost level stays. -/
def dedent (b : Buffer) : Buffer := { b with level := b.level - 1 }

/-- Nothing is written yet. -/
def isEmpty (b : Buffer) : Bool := b.committed.isEmpty && b.pending.isEmpty

/-- All lines, the pending one included. -/
def toLines (b : Buffer) : List (List Char) := b.finishLine.lines

/-- All lines, joined by line feeds. -/
def output (b : Buffer) : List Char := unlines b.toLines

@[simp] theorem level_write (s : List Char) (b : Buffer) : (b.write s).level = b.level := rfl

@[simp] theorem level_finishLine (b : Buffer) : b.finishLine.level = b.level := by
  unfold finishLine
  split <;> rfl

@[simp] theorem level_writeLine (s : List Char) (b : Buffer) :
    (b.writeLine s).level = b.level := by
  simp [writeLine]

@[simp] theorem level_dedent_indent (b : Buffer) : b.indent.dedent.level = b.level := rfl

@[simp] theorem pending_finishLine (b : Buffer) : b.finishLine.pending = [] := by
  unfold finishLine
  split
  · simpa using ‹b.pending.isEmpty = true›
  · rfl

@[simp] theorem pending_writeLine (s : List Char) (b : Buffer) :
    (b.writeLine s).pending = [] := by
  simp [writeLine]

@[simp] theorem lines_write (s : List Char) (b : Buffer) : (b.write s).lines = b.lines := rfl

theorem lines_finishLine (b : Buffer) :
    b.finishLine.lines = b.lines ++ (if b.pending.isEmpty then [] else [b.pending]) := by
  unfold finishLine lines
  split <;> simp_all

theorem lines_writeLine (s : List Char) (b : Buffer) :
    (b.writeLine s).lines
      = b.finishLine.lines ++ [if s.isEmpty then [] else b.finishLine.indentation ++ s] := by
  simp [writeLine, lines]

end Buffer

end RazorLayout.Layout

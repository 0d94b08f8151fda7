import RazorLayout.Proofs.Layout.AppendOnly
import RazorLayout.Proofs.Layout.Ink

/-!
# What edits leave in the output

The text that edits hand over is in the output, all of it and in the order of the edits, whichever
edits they are. Until then it is in one of two places, among the complete lines or in the pending
line, and it may go from the second to the first at any time. `Buffer.ink` reads both places as one
text: every edit adds its own text behind it, and completing a line does not change it. What the
buffer adds of its own accord, indentation above all, is blank.

Complete lines stay (`continues_edited`), and the level is the one that `indent` and `dedent` alone
lead to (`level_edited`). So it is known from the edits where a line of its own comes to stand and
how far it is indented.

## Main definitions

* `Edit.text`: the text that an edit hands over
* `levelBehind`: the level that edits lead to
* `Buffer.LineAdded`: a buffer with one more line of its own

## Main results

* `Edit.ink_apply`, `ink_edited`: an edit adds its text, and so do any number of edits
* `continues_edited`: edits go on with the buffer
* `edited_keeps_text_and_lines`: what any edits of an empty buffer leave in it and in the output
-/

namespace RazorLayout.Layout

open Text Template
open Buffer (Continues)

/-! ### The text of edits -/

namespace Edit

/-- The text that an edit hands over. Setting off and leaving a gap hand over none: what they write
is blank. -/
def text : Edit → List Char
  | write s => s
  | writeLine s => s
  | _ => []

@[simp] theorem unit_apply (edit : Edit) (b : Buffer) : (edit.apply b).unit = b.unit := by
  cases edit with
  | write s => rfl
  | finishLine => exact b.inked_finishLine.unit_eq
  | writeLine s => exact (b.inked_writeLine s).unit_eq
  | indent => rfl
  | dedent => rfl
  | setOff =>
    rw [apply]
    split
    · rfl
    · exact (b.inked_writeLine []).unit_eq
  | gap previous node => exact (inked_writeGap previous node b).unit_eq

/-- An edit adds its text behind what was written before. -/
theorem ink_apply (edit : Edit) {b : Buffer} (hunit : allBlank b.unit = true) :
    (edit.apply b).ink = b.ink ++ withoutBlanks edit.text := by
  cases edit with
  | write s => exact (b.inked_write s).ink_eq hunit
  | finishLine => exact b.inked_finishLine.ink_eq hunit
  | writeLine s => exact (b.inked_writeLine s).ink_eq hunit
  | indent => exact (List.append_nil _).symm
  | dedent => exact (List.append_nil _).symm
  | setOff =>
    rw [apply]
    split
    · exact (List.append_nil _).symm
    · exact (b.inked_writeLine []).ink_eq hunit
  | gap previous node => exact (inked_writeGap previous node b).ink_eq hunit

end Edit

/-! ### Runs of edits -/

/-- The level that edits lead to. -/
def levelBehind (edits : List Edit) (level : Nat) : Nat :=
  edits.foldl (fun level edit => edit.levelAfter level) level

theorem unit_edited (edits : List Edit) (b : Buffer) : (edited edits b).unit = b.unit := by
  induction edits generalizing b with
  | nil => rfl
  | cons edit edits ih => rw [edited_cons, ih, Edit.unit_apply]

theorem level_edited (edits : List Edit) (b : Buffer) :
    (edited edits b).level = levelBehind edits b.level := by
  induction edits generalizing b with
  | nil => rfl
  | cons edit edits ih =>
    rw [edited_cons, ih, Edit.level_apply]
    rfl

/-- How far a line is indented is known from the edits that change the level. -/
theorem indentation_edited (edits : List Edit) (b : Buffer) :
    (edited edits b).indentation = Code.indentation b.unit (levelBehind edits b.level) := by
  rw [Buffer.indentation, unit_edited, level_edited]

/-- Edits add their texts in order. -/
theorem ink_edited (edits : List Edit) {b : Buffer} (hunit : allBlank b.unit = true) :
    (edited edits b).ink = b.ink ++ withoutBlanks (edits.flatMap Edit.text) := by
  induction edits generalizing b with
  | nil => exact (List.append_nil _).symm
  | cons edit edits ih =>
    have hunit' : allBlank (edit.apply b).unit = true := by rwa [Edit.unit_apply]
    rw [edited_cons, ih hunit', edit.ink_apply hunit, List.flatMap_cons, withoutBlanks_append,
      List.append_assoc]

/-- The output completes the pending line, and that adds nothing. -/
theorem withoutBlanks_output_edited (edits : List Edit) {b : Buffer}
    (hunit : allBlank b.unit = true) :
    withoutBlanks (edited edits b).output
      = b.ink ++ withoutBlanks (edits.flatMap Edit.text) := by
  have hunit' : allBlank (edited edits b).unit = true := by rwa [unit_edited]
  rw [Buffer.withoutBlanks_output _ hunit', ink_edited edits hunit]

/-- Edits go on with the buffer. -/
theorem continues_edited (edits : List Edit) (b : Buffer) : Continues b (edited edits b) := by
  induction edits generalizing b with
  | nil => exact .refl b
  | cons edit edits ih => exact (continues_apply edit b).trans (ih (edit.apply b))

theorem lines_prefix_edited (edits : List Edit) (b : Buffer) :
    b.lines <+: (edited edits b).lines := by
  obtain ⟨added, hlines, -⟩ := continues_edited edits b
  exact ⟨added, hlines.symm⟩

/-! ### Lines of their own -/

namespace Buffer

theorem lines_prefix_toLines (b : Buffer) : b.lines <+: b.toLines := by
  rw [toLines, lines_finishLine]
  exact List.prefix_append _ _

/-- The line that `s` becomes behind an indentation. An empty line is not indented. -/
def ownLine (indentation s : List Char) : List Char := if s = [] then [] else indentation ++ s

/-- In `b'` the complete lines of `b` are followed by its pending line, if it has one, and by the
line `own`; no line is pending. -/
structure LineAdded (own : List Char) (b b' : Buffer) : Prop where
  lines_eq : b'.lines = b.lines ++ (if b.pending = [] then [] else [b.pending]) ++ [own]
  pending_eq : b'.pending = []

theorem lineAdded_writeLine (s : List Char) (b : Buffer) :
    LineAdded (ownLine b.indentation s) b (b.writeLine s) where
  lines_eq := by
    -- the indentation is taken when the pending line is complete, which does not change it
    have indentation_eq : b.finishLine.indentation = b.indentation := by
      rw [indentation, indentation, b.inked_finishLine.unit_eq, level_finishLine]
    simp [lines_writeLine, lines_finishLine, ownLine, indentation_eq]
  pending_eq := pending_writeLine s b

end Buffer

/-! ### The output -/

/-- What edits of an empty buffer leave in it, whichever they are. Apart from blanks, the output is
the text that they hand over, in order. A line of its own is added behind the pending line, indented
to the level that the edits before it lead to. Lines that are complete stay as they are, while more
edits follow and in the output. -/
theorem edited_keeps_text_and_lines (settings : Settings) (edits : List Edit) :
    let after := fun edits => edited edits (Buffer.new settings)
    withoutBlanks (after edits).output = withoutBlanks (edits.flatMap Edit.text) ∧
    (∀ s, Buffer.LineAdded
      (Buffer.ownLine (Code.indentation settings.indentUnit (levelBehind edits 0)) s)
      (after edits) (after (edits ++ [.writeLine s]))) ∧
    (∀ later, (after edits).lines <+: (after (edits ++ later)).lines ∧
      (after (edits ++ later)).lines <+: (after (edits ++ later)).toLines) := by
  intro after
  refine ⟨?_, fun s => ?_, fun later => ⟨?_, (after (edits ++ later)).lines_prefix_toLines⟩⟩
  · exact withoutBlanks_output_edited edits (allBlank_indentUnit _ _)
  · have added := (after edits).lineAdded_writeLine s
    have written : after (edits ++ [.writeLine s]) = (after edits).writeLine s := edited_append ..
    rw [indentation_edited] at added
    rw [written]
    exact added
  · have kept := lines_prefix_edited later (after edits)
    rwa [← edited_append] at kept

/-- The pending line is indented as deep as where it begins, a line of its own as deep as where it
is written. -/
example : (edited [.indent, .write ['a'], .dedent, .writeLine ['b'], .write ['c']]
    (Buffer.new {})).toLines = ["    a".toList, ['b'], ['c']] := by
  decide

end RazorLayout.Layout

import RazorLayout.Proofs.Layout.Steps

/-!
# Writing only appends

Writing a node adds to the buffer and changes nothing that is there. Complete lines stay as they
are, and the pending line is gone on with: it is the beginning of the line that is pending
afterwards, or of the first line that was completed. This is a relation between two buffers which
every edit has and which is transitive, so that it holds between any two states of writing.

The level comes back to where it was, although `dedent` stops at the outermost level and could hide
that it was used too often: wherever the level is lowered it has been raised before.

## Main definitions

* `Buffer.Continues`: a buffer that goes on where another one ends

## Main results

* `continues_apply`: every edit goes on with its buffer
* `continues_step`, `continues_of_reaches`: so do a step, and any number of steps
* `write_appends`: writing nodes only appends, and the level is the same afterwards
-/

namespace RazorLayout.Layout

open Text Template

namespace Buffer

/-- The complete lines of `b` are still there, and the line that was pending is the beginning of the
first line behind them, or of the pending line when no line was completed. -/
def Continues (b b' : Buffer) : Prop :=
  ∃ added, b'.lines = b.lines ++ added ∧ b.pending <+: added.headD b'.pending

namespace Continues

variable {b b' b'' : Buffer}

/-- Nothing changes but the level and the unit of indentation. -/
theorem of_eq (hlines : b'.lines = b.lines) (hpending : b'.pending = b.pending) :
    Continues b b' :=
  ⟨[], by simpa using hlines, by simp [hpending]⟩

theorem refl (b : Buffer) : Continues b b := of_eq rfl rfl

theorem trans (h : Continues b b') (h' : Continues b' b'') : Continues b b'' := by
  obtain ⟨added, hlines, hpending⟩ := h
  obtain ⟨added', hlines', hpending'⟩ := h'
  refine ⟨added ++ added', by rw [hlines', hlines, List.append_assoc], ?_⟩
  -- without a complete line it is the pending line that is gone on with a second time
  cases added with
  | nil => exact hpending.trans hpending'
  | cons l added => exact hpending

end Continues

theorem continues_write (s : List Char) (b : Buffer) : Continues b (b.write s) := by
  refine ⟨[], by simp, ?_⟩
  cases h : b.pending with
  | nil => exact List.nil_prefix
  | cons c p => simp [write, h]

theorem continues_finishLine (b : Buffer) : Continues b b.finishLine := by
  refine ⟨_, lines_finishLine b, ?_⟩
  cases h : b.pending with
  | nil => exact List.nil_prefix
  | cons c p => simp

theorem continues_writeLine (s : List Char) (b : Buffer) : Continues b (b.writeLine s) := by
  refine b.continues_finishLine.trans ⟨_, lines_writeLine s b, ?_⟩
  rw [pending_finishLine]
  exact List.nil_prefix

end Buffer

open Buffer (Continues)

/-! ### Steps -/

/-- Every edit goes on with its buffer. -/
theorem continues_apply (edit : Edit) (b : Buffer) : Continues b (edit.apply b) := by
  cases edit with
  | write s => exact b.continues_write s
  | finishLine => exact b.continues_finishLine
  | writeLine s => exact b.continues_writeLine s
  | indent => exact .of_eq rfl rfl
  | dedent => exact .of_eq rfl rfl
  | setOff =>
    rw [Edit.apply]
    split
    · exact .refl b
    · exact b.continues_writeLine []
  | gap previous node =>
    rw [Edit.apply, writeGap]
    split
    · exact b.continues_write [' ']
    · exact .refl b

section Steps

variable {env : Surroundings} {now next : Writing}

/-- A step goes on with the buffer: it does one edit, or it leaves the buffer as it is. -/
theorem continues_step (h : step env now = some next) : Continues now.buffer next.buffer := by
  obtain ⟨_ | ⟨task, tasks⟩, b⟩ := now
  · simp [step] at h
  · cases task with
    | edit edit =>
      obtain rfl := Option.some.inj h
      exact continues_apply edit b
    | nodes path previous nodes =>
      cases nodes <;>
      · obtain rfl := Option.some.inj h
        exact .refl b
    | _ =>
      obtain rfl := Option.some.inj h
      exact .refl b

theorem continues_of_reaches (h : Reaches env now next) : Continues now.buffer next.buffer := by
  induction h with
  | refl => exact .refl _
  | tail _ hstep ih => exact ih.trans (continues_step hstep)

end Steps

/-! ### Nodes -/

theorem level_write (env : Surroundings) (nodes : List Node) (b : Buffer) :
    (write env nodes b).level = b.level :=
  (level_writeNodesAfter (level_writeBody env maxNesting)).2 nodes none b

/-- Writing nodes comes back to the level where it begins and only appends: complete lines stay,
and the pending line is gone on with. -/
theorem write_appends (env : Surroundings) (nodes : List Node) (b : Buffer) :
    (write env nodes b).level = b.level ∧ Continues b (write env nodes b) :=
  ⟨level_write env nodes b, continues_of_reaches (reaches_write_from env nodes b)⟩

end RazorLayout.Layout

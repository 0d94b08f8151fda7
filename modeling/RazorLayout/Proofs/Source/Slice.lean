import RazorLayout.Proofs.Template.Tiling
import RazorLayout.Proofs.Text.Reading

/-!
# Pieces between places, and loops over places

Readers go through a text from its head and count characters. A scanner stays where it is and keeps
places, which are numbers of bytes, so it can go wrong in ways in which a reader cannot: it may cut
a text at places that are out of order, that lie behind the text or inside of a character, and it
may stay at a place for ever. Here these faults are answers. A piece of a text is given only when
both of its ends are places of the text, in order, and a loop goes on only when it has moved
forward.

## Main definitions

* `Fault`, `Checked`: what can go wrong with places, and answers that may be faults
* `slice`: the piece of a text between two places
* `RestAt`: what stands behind a place
* `loop`: repeats a round that moves a place forward
* `Advances`: a run of rounds that all move forward
* `RoundKeeps`: a round that follows a step of something else

## Main results

* `slice_eq_ok_iff`: a piece is given exactly between two places that are in order
* `loop_eq_ok_iff`: a loop has a result exactly when its rounds move forward to it
* `loop_eq_ok`: the result of a loop, when every round keeps it
-/

namespace RazorLayout.Text

/-- What can go wrong with places. -/
inductive Fault where
  /-- the ends of a piece are out of order, behind the text, or inside of a character -/
  | badSlice (start stop : Nat)
  /-- a counter is taken below zero -/
  | belowZero
  /-- a loop does not move forward, or it leaves the text -/
  | stuck (place : Nat)
  deriving Repr, DecidableEq

/-- Answers that may be faults. -/
abbrev Checked (α : Type) : Type := Except Fault α

@[simp] theorem ok_bind {α β : Type} (a : α) (f : α → Checked β) :
    ((Except.ok a : Checked α) >>= f) = f a := rfl

@[simp] theorem pure_eq_ok {α : Type} (a : α) : (pure a : Checked α) = .ok a := rfl

/-! ### Pieces -/

/-- The piece between two places of a text, if they are in order and no character is cut. -/
def piece? (t : List Char) (start stop : Nat) : Option (List Char) := do
  let s ← dropBytes? start t
  let rest ← dropBytes? stop t
  if start ≤ stop then return s.take (s.length - rest.length) else none

/-- The piece of a text between two places. -/
def slice (t : List Char) (start stop : Nat) : Checked (List Char) :=
  match piece? t start stop with
  | some piece => .ok piece
  | none => .error (.badSlice start stop)

/-- The piece from a place on. -/
def sliceFrom (t : List Char) (start : Nat) : Checked (List Char) := slice t start (byteLength t)

/-- The piece up to a place. -/
def sliceTo (t : List Char) (stop : Nat) : Checked (List Char) := slice t 0 stop

/-- The text `s` is what stands behind a place of `t`. -/
def RestAt (t : List Char) (place : Nat) (s : List Char) : Prop :=
  ∃ u, t = u ++ s ∧ byteLength u = place

theorem piece?_eq_some_iff {t piece : List Char} {start stop : Nat} :
    piece? t start stop = some piece ↔ Between t start stop piece := by
  simp only [piece?, Option.bind_eq_bind, Option.bind_eq_some_iff, dropBytes?_eq_some_iff,
    Option.pure_def, Option.ite_none_right_eq_some, Option.some.injEq]
  constructor
  · rintro ⟨s, ⟨u, rfl, rfl⟩, rest, ⟨w, hw, rfl⟩, hle, rfl⟩
    -- the beginning up to the first place is one of that up to the second
    obtain ⟨v, rfl⟩ := prefix_of_byteLength_le ⟨s, rfl⟩ ⟨rest, hw.symm⟩ hle
    obtain rfl : s = v ++ rest := List.append_cancel_left (hw.trans (List.append_assoc ..))
    exact ⟨u, rest, by simp, rfl, by simp⟩
  · rintro ⟨before, behind, rfl, rfl, rfl⟩
    refine ⟨piece ++ behind, ⟨before, by simp, rfl⟩, behind, ⟨before ++ piece, by simp, rfl⟩, ?_⟩
    simp

/-- A piece is given exactly between two places of the text that are in order. -/
theorem slice_eq_ok_iff {t piece : List Char} {start stop : Nat} :
    slice t start stop = .ok piece ↔ Between t start stop piece := by
  rw [← piece?_eq_some_iff, slice]
  cases piece? t start stop <;> simp

theorem byteLength_take_add (s : List Char) (m n : Nat) :
    byteLength (s.take (m + n)) = byteLength (s.take m) + byteLength ((s.drop m).take n) := by
  rw [List.take_add, byteLength_append]

/-- A delimiter of one byte behind a piece. -/
theorem byteLength_take_delimiter {c : Char} (hc : c.utf8Size = 1) (u rest : List Char) :
    byteLength ((u ++ c :: rest).take (u.length + 1))
      = byteLength ((u ++ c :: rest).take u.length) + 1 := by
  rw [byteLength_take_add, List.drop_left, List.take_succ_cons, List.take_zero, byteLength_cons, hc,
    byteLength_nil]

namespace RestAt

variable {t s x : List Char} {place : Nat}

theorem start (t : List Char) : RestAt t 0 t := ⟨[], rfl, rfl⟩

theorem append (h : RestAt t place (x ++ s)) : RestAt t (place + byteLength x) s := by
  obtain ⟨u, rfl, rfl⟩ := h
  exact ⟨u ++ x, by simp, by simp⟩

theorem cons {c : Char} (h : RestAt t place (c :: s)) : RestAt t (place + c.utf8Size) s := by
  rw [← List.singleton_append] at h
  simpa using h.append

theorem drop (h : RestAt t place s) (n : Nat) :
    RestAt t (place + byteLength (s.take n)) (s.drop n) := by
  rw [← List.take_append_drop n s] at h
  exact h.append

theorem add_byteLength (h : RestAt t place s) : place + byteLength s = byteLength t := by
  obtain ⟨u, rfl, rfl⟩ := h
  rw [byteLength_append]

/-- A place follows from what stands behind it. -/
theorem sub_byteLength (h : RestAt t place s) : byteLength t - byteLength s = place := by
  have := h.add_byteLength
  omega

theorem between (h : RestAt t place s) : Between t place (byteLength t) s := by
  obtain ⟨u, rfl, rfl⟩ := h
  exact ⟨u, [], by simp, rfl, by simp⟩

theorem slice {stop : Nat} (h : RestAt t place (x ++ s)) (hstop : stop = place + byteLength x) :
    Text.slice t place stop = .ok x := by
  obtain ⟨u, rfl, rfl⟩ := h
  exact slice_eq_ok_iff.2 ⟨u, s, by simp, rfl, by simp [hstop]⟩

theorem sliceFrom (h : RestAt t place s) : Text.sliceFrom t place = .ok s :=
  slice_eq_ok_iff.2 h.between

theorem slice_take (h : RestAt t place s) (n : Nat) :
    Text.slice t place (place + byteLength (s.take n)) = .ok (s.take n) := by
  rw [← List.take_append_drop n s] at h
  exact h.slice rfl

/-- The piece that begins behind a delimiter of one byte. -/
theorem slice_behind {c : Char} (h : RestAt t place (c :: s)) (hc : c.utf8Size = 1) {n : Nat}
    (hn : 0 < n) :
    Text.slice t (place + 1) (place + byteLength ((c :: s).take n))
      = .ok (((c :: s).take n).drop 1) := by
  obtain ⟨n, rfl⟩ := Nat.exists_eq_add_one_of_ne_zero hn.ne'
  have behind := h.cons
  rw [hc] at behind
  rw [List.take_succ_cons, byteLength_cons, hc, ← Nat.add_assoc]
  exact behind.slice_take n

end RestAt

theorem sliceTo_take (s : List Char) (n : Nat) :
    sliceTo s (byteLength (s.take n)) = .ok (s.take n) := by
  have whole := (RestAt.start s).slice_take n
  rwa [Nat.zero_add] at whole

/-! ### Loops -/

/-- What one round of a loop answers. -/
inductive Round (σ β : Type) where
  | again (next : σ)
  | done (result : β)

/-- Repeats a round until it is done. Between two rounds the place has to move forward, and it has
to stay in a text of `bound` bytes. -/
def loop {σ β : Type} (bound : Nat) (place : σ → Nat) (round : σ → Checked (Round σ β)) (st : σ) :
    Checked β :=
  match round st with
  | .error fault => .error fault
  | .ok (.done result) => .ok result
  | .ok (.again next) =>
    if place st < place next ∧ place next ≤ bound then loop bound place round next
    else .error (.stuck (place st))
termination_by bound - place st

section Loops

variable {σ τ β : Type} {bound : Nat} {place : σ → Nat} {round : σ → Checked (Round σ β)}
  {Follows : σ → τ → Prop} {result : τ → β}

/-- A run of rounds to a result. Every round but the last one moves the place forward, in the text.
-/
inductive Advances (bound : Nat) (place : σ → Nat) (round : σ → Checked (Round σ β)) : σ → β → Prop
  | done {st : σ} {b : β} (h : round st = .ok (.done b)) : Advances bound place round st b
  | again {st next : σ} {b : β} (h : round st = .ok (.again next)) (forward : place st < place next)
    (inside : place next ≤ bound) (rest : Advances bound place round next b) :
    Advances bound place round st b

/-- A loop has a result exactly when its rounds move forward to it. -/
theorem loop_eq_ok_iff {st : σ} {b : β} :
    loop bound place round st = .ok b ↔ Advances bound place round st b := by
  constructor
  · intro h
    fun_induction loop bound place round st with
    | case1 => cases h
    | case2 st b' hround =>
      cases h
      exact .done hround
    | case3 st next hround hmoves ih => exact .again hround hmoves.1 hmoves.2 (ih h)
    | case4 => cases h
  · intro h
    induction h with
    | done hround => rw [loop, hround]
    | again hround hforward hinside _ ih =>
      rw [loop, hround]
      dsimp only
      rw [if_pos ⟨hforward, hinside⟩, ih]

/-- A round that follows something else: it is done with the result of that, or it moves forward and
follows something that has the same result. -/
def RoundKeeps (bound : Nat) (place : σ → Nat) (round : σ → Checked (Round σ β))
    (Follows : σ → τ → Prop) (result : τ → β) (st : σ) (x : τ) : Prop :=
  round st = .ok (.done (result x)) ∨
    ∃ next y, round st = .ok (.again next) ∧ place st < place next ∧ place next ≤ bound ∧
      Follows next y ∧ result y = result x

/-- The result of a loop, when every round keeps it. -/
theorem loop_eq_ok
    (hround : ∀ st x, Follows st x → RoundKeeps bound place round Follows result st x) {st : σ}
    {x : τ} (h : Follows st x) : loop bound place round st = .ok (result x) := by
  rw [loop_eq_ok_iff]
  -- on the part of the text that is left
  induction hleft : bound - place st using Nat.strong_induction_on generalizing st x with
  | _ left ih =>
    rcases hround st x h with hdone | ⟨next, y, hagain, hforward, hinside, hnext, hresult⟩
    · exact .done hdone
    · rw [← hresult]
      exact .again hagain hforward hinside (ih (bound - place next) (by omega) hnext rfl)

end Loops

end RazorLayout.Text

/-!
# Reading a text from its head

A text is read from its head: a reader looks at the rest of the text and says how many
characters it takes. This file has the operations that all readers share. Numbers of
characters count list entries; positions in a source count the bytes of the UTF-8 form, and
`byteLength` connects the two.

## Main definitions

* `Text.byteLength`, `Text.dropBytes?`: lengths and places in bytes
* `Text.search`: the first place where a test on the rest of the text succeeds
* `Text.find?`: the first place where a given text occurs
* `Text.countWhile`, `Text.countUntil`: lengths of beginnings
* `Text.advance`: repeats a reader from place to place until it declines

## Main results

* `advance_skip`: leaving out characters first is the same as starting behind them
-/

namespace RazorLayout.Text

/-- The number of bytes of the UTF-8 form. -/
def byteLength (s : List Char) : Nat := s.foldl (fun n c => n + c.utf8Size) 0

/-- The text behind the first `n` bytes; `none` when the text is shorter or when the place lies
inside a character. -/
def dropBytes? : Nat → List Char → Option (List Char)
  | 0, s => some s
  | _ + 1, [] => none
  | n + 1, c :: s => if c.utf8Size ≤ n + 1 then dropBytes? (n + 1 - c.utf8Size) s else none

/-- The first place, counted from `n`, where `p` succeeds on the rest of the text. -/
def searchFrom {α : Type} (p : List Char → Option α) (n : Nat) : List Char → Option (Nat × α)
  | [] => (p []).map fun a => (n, a)
  | c :: s =>
    match p (c :: s) with
    | some a => some (n, a)
    | none => searchFrom p (n + 1) s

/-- The first place where `p` succeeds on the rest of the text, with its answer. -/
def search {α : Type} (p : List Char → Option α) (s : List Char) : Option (Nat × α) :=
  searchFrom p 0 s

/-- The number of characters before the first occurrence of `word`. -/
def find? (word : List Char) (s : List Char) : Option Nat :=
  (search (fun rest => if word.isPrefixOf rest then some () else none) s).map Prod.fst

/-- Whether `word` occurs in the text. -/
def occurs (word : List Char) (s : List Char) : Bool := (find? word s).isSome

/-- Runs `step` on the rest of the text, moves past the characters it took (one at least), and
repeats until it declines or the text is used up. The first `skip` characters are left out.
The answer is the last state and the text that is left. -/
def advance {σ : Type} (step : σ → List Char → Option (σ × Nat)) :
    (skip : Nat) → σ → List Char → σ × List Char
  | _, st, [] => (st, [])
  | skip + 1, st, _ :: s => advance step skip st s
  | 0, st, c :: s =>
    match step st (c :: s) with
    | none => (st, c :: s)
    | some (st', n) => advance step (n - 1) st' s

/-- `countUntil` behind `n` characters. -/
def countUntilFrom (p : List Char → Bool) (n : Nat) : List Char → Nat
  | [] => n
  | c :: s => if p (c :: s) then n else countUntilFrom p (n + 1) s

/-- The number of characters before the first place where `p` holds of the rest of the text, or
the length of the text when there is none. -/
def countUntil (p : List Char → Bool) (s : List Char) : Nat := countUntilFrom p 0 s

/-- The number of characters at the head that satisfy `p`. -/
def countWhile (p : Char → Bool) (s : List Char) : Nat := (s.takeWhile p).length

@[simp] theorem byteLength_nil : byteLength [] = 0 := rfl

theorem foldl_utf8Size (s : List Char) (n : Nat) :
    s.foldl (fun n c => n + c.utf8Size) n = n + byteLength s := by
  induction s generalizing n with
  | nil => rfl
  | cons c s ih =>
    rw [byteLength, List.foldl_cons, List.foldl_cons, ih, ih (0 + c.utf8Size)]
    omega

@[simp] theorem byteLength_cons (c : Char) (s : List Char) :
    byteLength (c :: s) = c.utf8Size + byteLength s := by
  rw [byteLength, List.foldl_cons, foldl_utf8Size]
  omega

@[simp] theorem byteLength_append (s t : List Char) :
    byteLength (s ++ t) = byteLength s + byteLength t := by
  induction s with
  | nil => simp
  | cons c s ih => simp [ih]; omega

theorem advance_skip {σ : Type} (step : σ → List Char → Option (σ × Nat)) (skip : Nat) (st : σ)
    (s : List Char) : advance step skip st s = advance step 0 st (s.drop skip) := by
  induction s generalizing skip with
  | nil => simp [advance]
  | cons c s ih =>
    cases skip with
    | zero => rfl
    | succ skip => simpa [advance] using ih skip

end RazorLayout.Text

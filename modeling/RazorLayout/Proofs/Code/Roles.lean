import RazorLayout.Proofs.Code.Balance

/-!
# What hiding leaves of a scan

A scan can leave out comments, or string literals, or both. Those who look for brackets hide both,
and those who look for a line comment hide the literals only; they rely on seeing the same code.
This file shows that they do. A turn takes the same characters and leaves the same mode behind it
whatever its flags are (`turn_eq`), so that every character of a snippet belongs to code, to a
comment or to a string independently of them. A scan shows what the full scan shows, without the
places of the roles that it hides, and the state behind the snippet is the same.

## Main definitions

* `Hidden.nothing`: a scan that shows every step
* `roleAt`: what the character at a place of a snippet belongs to

## Main results

* `scanFrom_acc`: the steps that a scan has shown do not matter for what follows
* `scanFrom_eq_filter`: hiding takes away steps of the hidden roles, from any mode on
* `scan_eq_filter_roleAt`: hiding takes away the places of the hidden roles, and nothing else
-/

namespace RazorLayout.Code

/-- All steps are shown. -/
def Hidden.nothing : Hidden := ⟨false, false⟩

@[simp] theorem Hidden.hides_nothing (role : Role) : Hidden.nothing.hides role = false := by
  cases role <;> rfl

/-- The role of the character at `place`. The first `skip` characters go on with a step of the role
`taken`. -/
def roleFrom (lang : Language) (place : Nat) :
    (taken : Role) → (skip : Nat) → Mode → (position : Nat) → List Char → Role
  | _, _, _, _, [] => .code
  | taken, skip + 1, m, pos, c :: s =>
    if place = pos then taken else roleFrom lang place taken skip m (pos + c.utf8Size) s
  | _, 0, m, pos, c :: s =>
    let st := step lang m c s
    if place = pos then st.role
    else roleFrom lang place st.role st.extra st.after (pos + c.utf8Size) s

/-- The role of the character that stands behind `place` bytes of a snippet. All characters of a
step have its role. -/
def roleAt (lang : Language) (st : ScanState) (s : List Char) (place : Nat) : Role :=
  roleFrom lang place .code 0 { state := st } 0 s

section Scan

variable {lang : Language} {h : Hidden}

/-- The steps that a scan has shown stay behind those that it shows later. -/
theorem scanFrom_acc (acc : List Seen) (skip : Nat) (m : Mode) (pos : Nat) (s : List Char) :
    (scanFrom lang h acc skip m pos s).1 = (scanFrom lang h [] skip m pos s).1 ++ acc := by
  induction s generalizing acc skip m pos with
  | nil => simp [scanFrom]
  | cons c s ih =>
    cases skip with
    | succ skip => exact ih acc skip m _
    | zero =>
      rw [scanFrom_cons, scanFrom_cons, ih, ih (if h.hides (step lang m c s).role then [] else _)]
      split <;> simp

/-- Hiding takes away the steps of the hidden roles. All that is used of the roles `f` is that they
are right from the place on that the scan has come to. -/
theorem scanFrom_eq_filter {f : Nat → Role} {taken : Role} {skip : Nat} {m : Mode} {pos : Nat}
    {s : List Char} (hf : ∀ place, pos ≤ place → f place = roleFrom lang place taken skip m pos s) :
    (scanFrom lang h [] skip m pos s).1
      = (scanFrom lang .nothing [] skip m pos s).1.filter fun seen =>
          !h.hides (f seen.position) := by
  induction s generalizing taken skip m pos with
  | nil => rfl
  | cons c s ih =>
    have hsize := c.utf8Size_pos
    cases skip with
    | succ skip =>
      have later : ∀ place, pos + c.utf8Size ≤ place →
          f place = roleFrom lang place taken skip m (pos + c.utf8Size) s := by
        intro place hplace
        rw [hf place (by omega), roleFrom, if_neg (by omega)]
      exact ih later
    | zero =>
      have here : f pos = (step lang m c s).role := by
        rw [hf pos (Nat.le_refl pos), roleFrom, if_pos rfl]
      have later : ∀ place, pos + c.utf8Size ≤ place → f place = roleFrom lang place
          (step lang m c s).role (step lang m c s).extra (step lang m c s).after
            (pos + c.utf8Size) s := by
        intro place hplace
        rw [hf place (by omega), roleFrom, if_neg (by omega)]
      -- the step at this place is shown or hidden, and those behind it are known
      rw [scanFrom_cons, scanFrom_cons, scanFrom_acc, scanFrom_acc (h := .nothing),
        List.filter_append, ih later]
      cases hhides : h.hides (step lang m c s).role <;> simp [here, hhides]

end Scan

/-- A scan shows what the full scan shows, in the same order, without the comments when it hides
comments and without the strings when it hides strings; and it ends in the same state. What belongs
to a comment or a string does not depend on what is hidden. -/
theorem scan_eq_filter_roleAt (lang : Language) (h : Hidden) (st : ScanState) (s : List Char) :
    (scan lang h st s).1
        = ((scan lang .nothing st s).1.filter fun seen =>
            !h.hides (roleAt lang st s seen.position)) ∧
      (scan lang h st s).2 = (scan lang .nothing st s).2 := by
  constructor
  · simp only [scan, roleAt]
    rw [scanFrom_eq_filter fun place _ => rfl, List.filter_reverse]
  · simp only [scan]
    rw [snd_scanFrom, snd_scanFrom]

example :
    (List.range 13).map (roleAt .csharp {} "a=@\"b\"\"\";//c\n".toList)
      = [.code, .code, .string, .string, .string, .string, .string, .string, .code, .comment,
        .comment, .comment, .code] := by
  decide

end RazorLayout.Code

import Mathlib.Data.List.Basic
import Mathlib.Data.List.TakeWhile
import Mathlib.Tactic.Common
import RazorLayout.Text.Reading

/-!
# What readers find

A reader answers with numbers of characters. Reasoning goes by pieces of the text instead: this
file turns each number into the piece it counts, and says what a repeated reader does.

## Main results

* `dropBytes?_eq_some_iff`: the text behind a place
* `take_countWhile`, `drop_countWhile`: the counted beginning and the rest
* `search_eq_some`: the text around the place where a search succeeds
* `find?_append`: where a word is found whose first character the first piece does not hold
* `find?_first`, `not_prefix_of_find?_eq_none`: where a word does not stand
* `find?_of_append`: a word is found without what stands behind it
* `countUntil_append`: a test that fails on the first piece is met behind it
* `exists_countUntil`: a test fails everywhere in the counted beginning
* `advance_of_step`: one step of a repeated reader
* `advance_invariant`: what every step keeps, a repeated reader keeps
-/

namespace RazorLayout.Text

/-! ### Places -/

/-- The text behind a place is what follows a beginning with that many bytes. -/
theorem dropBytes?_eq_some_iff {n : Nat} {t s : List Char} :
    dropBytes? n t = some s ↔ ∃ u, t = u ++ s ∧ byteLength u = n := by
  constructor
  · intro h
    fun_induction dropBytes? n t with
    | case1 t =>
      obtain rfl := Option.some.inj h
      exact ⟨[], rfl, rfl⟩
    | case2 => simp at h
    | case3 n c t hsize ih =>
      obtain ⟨u, rfl, hu⟩ := ih h
      exact ⟨c :: u, rfl, by rw [byteLength_cons]; omega⟩
    | case4 => simp at h
  · rintro ⟨u, rfl, rfl⟩
    induction u with
    | nil => simp [dropBytes?]
    | cons c u ih =>
      have hsize := c.utf8Size_pos
      obtain ⟨k, hk⟩ : ∃ k, byteLength (c :: u) = k + 1 :=
        Nat.exists_eq_add_one_of_ne_zero (by rw [byteLength_cons]; omega)
      rw [byteLength_cons] at hk
      rw [List.cons_append, byteLength_cons, hk, dropBytes?, if_pos (by omega), ← hk,
        Nat.add_sub_cancel_left]
      exact ih

/-! ### Beginnings -/

@[simp] theorem take_countWhile (p : Char → Bool) (s : List Char) :
    s.take (countWhile p s) = s.takeWhile p :=
  (List.prefix_iff_eq_take.1 (List.takeWhile_prefix p)).symm

@[simp] theorem drop_countWhile (p : Char → Bool) (s : List Char) :
    s.drop (countWhile p s) = s.dropWhile p := by
  have parts := List.take_append_drop (countWhile p s) s
  rw [take_countWhile] at parts
  exact List.append_cancel_left (parts.trans List.takeWhile_append_dropWhile.symm)

theorem countWhile_le_length (p : Char → Bool) (s : List Char) : countWhile p s ≤ s.length :=
  (List.takeWhile_prefix p).length_le

theorem countWhile_dropWhile (p : Char → Bool) (s : List Char) :
    countWhile p (s.dropWhile p) = 0 := by
  cases hrest : s.dropWhile p with
  | nil => rfl
  | cons c rest =>
    have hc : p c = false := by
      have := List.head_dropWhile_not p (by simp [hrest] : s.dropWhile p ≠ [])
      simpa [hrest] using this
    simp [countWhile, hc]

theorem takeWhile_append_of_all {p : Char → Bool} {s t : List Char} (hs : ∀ c ∈ s, p c = true)
    (ht : ∀ c, t.head? = some c → p c = false) : (s ++ t).takeWhile p = s := by
  rw [List.takeWhile_append_of_pos hs]
  cases t with
  | nil => simp
  | cons c t => simp [ht c rfl]

theorem countWhile_append_of_all {p : Char → Bool} {s t : List Char} (hs : ∀ c ∈ s, p c = true)
    (ht : ∀ c, t.head? = some c → p c = false) : countWhile p (s ++ t) = s.length := by
  rw [countWhile, takeWhile_append_of_all hs ht]

theorem countUntilFrom_append {p : List Char → Bool} (n : Nat) {s t : List Char}
    (hs : ∀ u v, s = u ++ v → v ≠ [] → p (v ++ t) = false) (ht : t = [] ∨ p t = true) :
    countUntilFrom p n (s ++ t) = n + s.length := by
  induction s generalizing n with
  | nil =>
    cases t with
    | nil => rfl
    | cons c t => simp_all [countUntilFrom]
  | cons c s ih =>
    have head : p (c :: (s ++ t)) = false := hs [] (c :: s) rfl (by simp)
    have rest := ih (n + 1) fun u v huv hv => hs (c :: u) v (by rw [huv]; rfl) hv
    rw [List.cons_append, countUntilFrom, if_neg (by simp [head]), rest, List.length_cons]
    omega

/-- A test that fails everywhere in the first piece is met behind it. -/
theorem countUntil_append {p : List Char → Bool} {s t : List Char}
    (hs : ∀ u v, s = u ++ v → v ≠ [] → p (v ++ t) = false) (ht : t = [] ∨ p t = true) :
    countUntil p (s ++ t) = s.length := by
  rw [countUntil, countUntilFrom_append 0 hs ht, Nat.zero_add]

theorem countUntilFrom_eq_add (p : List Char → Bool) (n : Nat) (s : List Char) :
    countUntilFrom p n s = n + countUntil p s := by
  induction s generalizing n with
  | nil => rfl
  | cons c s ih =>
    rw [countUntil, countUntilFrom, countUntilFrom, ih, ih (0 + 1)]
    split <;> omega

theorem countUntil_cons (p : List Char → Bool) (c : Char) (s : List Char) :
    countUntil p (c :: s) = if p (c :: s) then 0 else countUntil p s + 1 := by
  rw [countUntil, countUntilFrom, countUntilFrom_eq_add]
  split <;> omega

theorem le_countUntilFrom (p : List Char → Bool) (n : Nat) (s : List Char) :
    n ≤ countUntilFrom p n s := by
  fun_induction countUntilFrom p n s with
  | case1 => exact Nat.le_refl _
  | case2 => exact Nat.le_refl _
  | case3 n c s h ih => omega

theorem exists_countUntilFrom (p : List Char → Bool) (n : Nat) (s : List Char) :
    ∃ u v, s = u ++ v ∧ countUntilFrom p n s = n + u.length ∧
      ∀ w x, u = w ++ x → x ≠ [] → p (x ++ v) = false := by
  induction s generalizing n with
  | nil => exact ⟨[], [], rfl, rfl, by simp⟩
  | cons c s ih =>
    rw [countUntilFrom]
    split
    · exact ⟨[], c :: s, rfl, rfl, by simp⟩
    · rename_i hhead
      obtain ⟨u, v, rfl, hcount, hfails⟩ := ih (n + 1)
      refine ⟨c :: u, v, rfl, by rw [hcount, List.length_cons]; omega, ?_⟩
      intro w x hsplit hx
      cases w with
      | nil =>
        obtain rfl : c :: u = x := hsplit
        simpa using hhead
      | cons d w => exact hfails w x (List.cons.inj hsplit).2 hx

/-- The counted beginning, in which the test fails everywhere, and the rest. -/
theorem exists_countUntil (p : List Char → Bool) (s : List Char) :
    ∃ u v, s = u ++ v ∧ countUntil p s = u.length ∧
      ∀ w x, u = w ++ x → x ≠ [] → p (x ++ v) = false := by
  simpa [countUntil] using exists_countUntilFrom p 0 s

theorem countUntil_pos {p : List Char → Bool} {c : Char} {s : List Char}
    (h : p (c :: s) = false) : 0 < countUntil p (c :: s) := by
  rw [countUntil, countUntilFrom, if_neg (by simp [h])]
  exact le_countUntilFrom p 1 s

/-! ### Searching -/

theorem searchFrom_eq_some {α : Type} {p : List Char → Option α} {n m : Nat} {s : List Char}
    {a : α} (h : searchFrom p n s = some (m, a)) :
    ∃ u v, s = u ++ v ∧ m = n + u.length ∧ p v = some a := by
  induction s generalizing n with
  | nil =>
    simp only [searchFrom, Option.map_eq_some_iff, Prod.mk.injEq] at h
    obtain ⟨a', ha', rfl, rfl⟩ := h
    exact ⟨[], [], rfl, rfl, ha'⟩
  | cons c s ih =>
    rw [searchFrom] at h
    split at h
    · rename_i a' ha'
      simp only [Option.some.injEq, Prod.mk.injEq] at h
      obtain ⟨rfl, rfl⟩ := h
      exact ⟨[], c :: s, rfl, rfl, ha'⟩
    · obtain ⟨u, v, rfl, rfl, hv⟩ := ih h
      exact ⟨c :: u, v, rfl, by simp only [List.length_cons]; omega, hv⟩

theorem searchFrom_eq_none {α : Type} {p : List Char → Option α} {n : Nat} {s : List Char}
    (h : ∀ u v, s = u ++ v → p v = none) : searchFrom p n s = none := by
  induction s generalizing n with
  | nil => simp [searchFrom, h [] [] rfl]
  | cons c s ih =>
    rw [searchFrom, h [] (c :: s) rfl]
    exact ih fun u v huv => h (c :: u) v (by rw [huv]; rfl)

/-- A search that fails has failed everywhere. -/
theorem eq_none_of_searchFrom {α : Type} {p : List Char → Option α} {n : Nat} {u v : List Char}
    (h : searchFrom p n (u ++ v) = none) : p v = none := by
  induction u generalizing n with
  | nil =>
    cases v with
    | nil => simpa [searchFrom] using h
    | cons c v =>
      rw [List.nil_append, searchFrom] at h
      split at h
      · simp at h
      · assumption
  | cons c u ih =>
    rw [List.cons_append, searchFrom] at h
    split at h
    · simp at h
    · exact ih h

/-- In front of the place where a search succeeds it has failed. -/
theorem searchFrom_first {α : Type} {p : List Char → Option α} {n m : Nat} {u v : List Char} {a : α}
    (h : searchFrom p n (u ++ v) = some (m, a)) (hu : n + u.length < m) : p v = none := by
  induction u generalizing n with
  | nil =>
    rw [List.length_nil, Nat.add_zero] at hu
    cases v with
    | nil =>
      simp only [List.append_nil, searchFrom, Option.map_eq_some_iff, Prod.mk.injEq] at h
      obtain ⟨_, -, rfl, -⟩ := h
      exact absurd hu (Nat.lt_irrefl n)
    | cons c v =>
      rw [List.nil_append, searchFrom] at h
      split at h
      · simp only [Option.some.injEq, Prod.mk.injEq] at h
        omega
      · assumption
  | cons c u ih =>
    rw [List.length_cons] at hu
    rw [List.cons_append, searchFrom] at h
    split at h
    · simp only [Option.some.injEq, Prod.mk.injEq] at h
      omega
    · exact ih h (by omega)

/-- An answer that is counted from one character further on. -/
theorem map_succ_add (n : Nat) (found : Option Nat) :
    found.map (n + 1 + ·) = (found.map (0 + 1 + ·)).map (n + ·) := by
  rw [Option.map_map]
  congr 1
  funext k
  simp only [Function.comp_apply]
  omega

theorem searchFrom_eq_map {α : Type} (p : List Char → Option α) (n : Nat) (s : List Char) :
    searchFrom p n s = (searchFrom p 0 s).map fun (k, a) => (n + k, a) := by
  induction s generalizing n with
  | nil => cases h : p [] <;> simp [searchFrom, h]
  | cons c s ih =>
    rw [searchFrom, searchFrom, ih (n + 1), ih (0 + 1)]
    cases p (c :: s) with
    | none => cases searchFrom p 0 s <;> simp [Nat.add_assoc]
    | some a => rfl

/-- The text around the place where a search succeeds. -/
theorem search_eq_some {α : Type} {p : List Char → Option α} {m : Nat} {s : List Char} {a : α}
    (h : search p s = some (m, a)) : ∃ u v, s = u ++ v ∧ m = u.length ∧ p v = some a := by
  obtain ⟨u, v, hs, hm, hv⟩ := searchFrom_eq_some h
  exact ⟨u, v, hs, by omega, hv⟩

theorem searchFrom_append {α : Type} {p : List Char → Option α} (n : Nat) {s t : List Char}
    {a : α} (hs : ∀ u v, s = u ++ v → v ≠ [] → p (v ++ t) = none) (ht : p t = some a) :
    searchFrom p n (s ++ t) = some (n + s.length, a) := by
  induction s generalizing n with
  | nil => cases t <;> simp [searchFrom, ht]
  | cons c s ih =>
    have head : p (c :: (s ++ t)) = none := hs [] (c :: s) rfl (by simp)
    rw [List.cons_append, searchFrom, head]
    dsimp only
    rw [ih (n + 1) fun u v huv hv => hs (c :: u) v (by rw [huv]; rfl) hv, List.length_cons]
    congr 2
    omega

/-- A word is found behind a piece that does not hold its first character. -/
theorem find?_append {c : Char} {s : List Char} (hs : c ∉ s) (word t : List Char) :
    find? (c :: word) (s ++ (c :: word ++ t)) = some s.length := by
  rw [find?, search, searchFrom_append 0 (a := ())]
  · simp
  · intro u v huv hv
    obtain ⟨d, v, rfl⟩ := List.exists_cons_of_ne_nil hv
    have hd : c ≠ d := by
      rintro rfl
      exact hs (by simp [huv])
    simp [hd]
  · have head : c :: word <+: c :: word ++ t := List.prefix_append ..
    simp only [List.isPrefixOf_iff_prefix.2 head, if_true]

/-- The text around the place where a word is found. -/
theorem find?_eq_some {word s : List Char} {n : Nat} (h : find? word s = some n) :
    ∃ u v, s = u ++ (word ++ v) ∧ n = u.length := by
  simp only [find?, Option.map_eq_some_iff, Prod.exists, exists_and_right, exists_eq_right] at h
  obtain ⟨_, h⟩ := h
  obtain ⟨u, v, rfl, rfl, hv⟩ := search_eq_some h
  simp only [Option.ite_none_right_eq_some, List.isPrefixOf_iff_prefix, and_true] at hv
  obtain ⟨v, rfl⟩ := hv
  exact ⟨u, v, rfl, rfl⟩

/-- A word that is found stands nowhere before. -/
theorem find?_first {word s : List Char} {n j : Nat} (h : find? word s = some n) (hj : j < n) :
    ¬ word <+: s.drop j := by
  simp only [find?, Option.map_eq_some_iff, Prod.exists, exists_and_right, exists_eq_right] at h
  obtain ⟨_, h⟩ := h
  rw [search, ← List.take_append_drop j s] at h
  have before := List.length_take_le j s
  have failed := searchFrom_first h (by omega)
  intro hword
  simp [List.isPrefixOf_iff_prefix.2 hword] at failed

/-- A word that is not found stands nowhere. -/
theorem not_prefix_of_find?_eq_none {word s : List Char} (h : find? word s = none) (j : Nat) :
    ¬ word <+: s.drop j := by
  rw [find?, Option.map_eq_none_iff, search, ← List.take_append_drop j s] at h
  have failed := eq_none_of_searchFrom h
  intro hword
  simp [List.isPrefixOf_iff_prefix.2 hword] at failed

theorem find?_head (c : Char) (s : List Char) : find? [c] (c :: s) = some 0 := by
  simp [find?, search, searchFrom, List.isPrefixOf]

theorem find?_cons_of_ne {c d : Char} (h : d ≠ c) (s : List Char) :
    find? [c] (d :: s) = (find? [c] s).map (· + 1) := by
  have head : [c].isPrefixOf (d :: s) = false := by simp [List.isPrefixOf, h.symm]
  simp only [find?, search, searchFrom, head, Bool.false_eq_true, if_false]
  rw [searchFrom_eq_map _ 1, Option.map_map, Option.map_map]
  congr 1
  funext found
  exact Nat.add_comm ..

theorem searchFrom_word_of_append {word s rest : List Char} {n k : Nat}
    (h : searchFrom (fun rest => if word.isPrefixOf rest then some () else none) n (s ++ rest)
      = some (k, ())) (hk : k + word.length ≤ n + s.length) :
    searchFrom (fun rest => if word.isPrefixOf rest then some () else none) n s
      = some (k, ()) := by
  induction s generalizing n with
  | nil =>
    obtain ⟨u, v, -, rfl, -⟩ := searchFrom_eq_some h
    rw [List.length_nil] at hk
    obtain rfl : word = [] := List.eq_nil_of_length_eq_zero (by omega)
    obtain rfl : u = [] := List.eq_nil_of_length_eq_zero (by omega)
    simp [searchFrom]
  | cons c s ih =>
    rw [List.cons_append, searchFrom] at h
    rw [searchFrom]
    by_cases hword : word.isPrefixOf (c :: (s ++ rest)) = true
    · -- the word does not reach beyond the beginning
      simp only [hword, if_true, Option.some.injEq, Prod.mk.injEq, and_true] at h
      have here : word <+: c :: s :=
        List.prefix_of_prefix_length_le (List.isPrefixOf_iff_prefix.1 hword)
          (List.prefix_append (c :: s) rest) (by omega)
      simp only [List.isPrefixOf_iff_prefix.2 here, if_true, h]
    · have hhere : ¬ word.isPrefixOf (c :: s) = true := by
        rw [List.isPrefixOf_iff_prefix] at hword ⊢
        exact fun here => hword (here.trans (List.prefix_append (c :: s) rest))
      simp only [hword, hhere, Bool.false_eq_true, if_false] at h ⊢
      exact ih h (by rw [List.length_cons] at hk; omega)

/-- A word that is found in a beginning of the text is found in the beginning alone. -/
theorem find?_of_append {word s rest : List Char} {k : Nat} (h : find? word (s ++ rest) = some k)
    (hk : k + word.length ≤ s.length) : find? word s = some k := by
  simp only [find?, search, Option.map_eq_some_iff, Prod.exists, exists_and_right, exists_eq_right]
    at h ⊢
  obtain ⟨_, h⟩ := h
  exact ⟨(), searchFrom_word_of_append h (by omega)⟩

/-- A word that does not occur stands nowhere in the text. -/
theorem not_infix_of_occurs {word s : List Char} (h : occurs word s = false) :
    ¬ word <:+: s := by
  rintro ⟨u, v, rfl⟩
  have missing : search (fun rest => if word.isPrefixOf rest then some () else none)
      (u ++ (word ++ v)) = none := by
    simpa [occurs, find?] using h
  have failed := eq_none_of_searchFrom missing
  have head : word <+: word ++ v := List.prefix_append ..
  simp [List.isPrefixOf_iff_prefix.2 head] at failed

/-! ### Repeating -/

/-- One step of a repeated reader, which takes at least one character. -/
theorem advance_of_step {σ : Type} {step : σ → List Char → Option (σ × Nat)} {st st' : σ} {n : Nat}
    {s : List Char} (h : step st s = some (st', n)) (hn : 0 < n) (hs : s ≠ []) :
    advance step 0 st s = advance step 0 st' (s.drop n) := by
  obtain ⟨c, s, rfl⟩ := List.exists_cons_of_ne_nil hs
  obtain ⟨n, rfl⟩ := Nat.exists_eq_add_one_of_ne_zero hn.ne'
  rw [advance, h]
  exact advance_skip step n st' s

/-- A repeated reader stops where it declines. -/
theorem advance_of_none {σ : Type} {step : σ → List Char → Option (σ × Nat)} {st : σ}
    {s : List Char} (h : step st s = none) : advance step 0 st s = (st, s) := by
  cases s with
  | nil => rfl
  | cons c s => rw [advance, h]

/-- What every step of a reader keeps, the repeated reader keeps. -/
theorem advance_invariant {σ : Type} {step : σ → List Char → Option (σ × Nat)}
    {I : σ → List Char → Prop}
    (hstep : ∀ st s st' n, s ≠ [] → I st s → step st s = some (st', n) →
      0 < n ∧ I st' (s.drop n)) (st : σ) (s : List Char) (h : I st s) :
    I (advance step 0 st s).1 (advance step 0 st s).2 := by
  -- on the length of the text, which every step makes shorter
  induction hlength : s.length using Nat.strong_induction_on generalizing st s with
  | _ length ih =>
    by_cases hs : s = []
    · subst hs
      exact h
    · cases hnext : step st s with
      | none => rwa [advance_of_none hnext]
      | some next =>
        obtain ⟨st', n⟩ := next
        obtain ⟨hn, hI⟩ := hstep st s st' n hs h hnext
        rw [advance_of_step hnext hn hs]
        refine ih (s.drop n).length ?_ _ _ hI rfl
        have := List.length_pos_of_ne_nil hs
        rw [List.length_drop]
        omega

/-- What every step of a reader keeps of its state, wherever it stands, the repeated reader
keeps. -/
theorem advance_state_invariant {σ : Type} {step : σ → List Char → Option (σ × Nat)} {I : σ → Prop}
    (hstep : ∀ st s st' n, I st → step st s = some (st', n) → I st') (skip : Nat) (st : σ)
    (s : List Char) (h : I st) : I (advance step skip st s).1 := by
  fun_induction advance step skip st s with
  | case1 => exact h
  | case2 skip st c s ih => exact ih h
  | case3 => exact h
  | case4 st c s st' n hnext ih => exact ih (hstep _ _ _ _ h hnext)

/-- A repeated reader stops at the end of the text or where it declines. -/
theorem advance_stops {σ : Type} (step : σ → List Char → Option (σ × Nat)) (skip : Nat) (st : σ)
    (s : List Char) :
    (advance step skip st s).2 = [] ∨
      step (advance step skip st s).1 (advance step skip st s).2 = none := by
  fun_induction advance step skip st s with
  | case1 => exact .inl rfl
  | case2 skip st c s ih => exact ih
  | case3 st c s hnone => exact .inr hnone
  | case4 st c s st' n _ ih => exact ih

/-- A reader that never declines reads the text to its end. -/
theorem advance_rest_eq_nil {σ : Type} {step : σ → List Char → Option (σ × Nat)}
    (h : ∀ st s, step st s ≠ none) (skip : Nat) (st : σ) (s : List Char) :
    (advance step skip st s).2 = [] := by
  fun_induction advance step skip st s with
  | case1 => rfl
  | case2 skip st c s ih => exact ih
  | case3 st c s hnone => exact absurd hnone (h st (c :: s))
  | case4 st c s st' n _ ih => exact ih

end RazorLayout.Text

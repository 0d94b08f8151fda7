import Mathlib.Data.Nat.Count
import Mathlib.Order.Bounds.Basic
import Mathlib.Order.Nat
import RazorLayout.Proofs.Template.Closing

/-!
# The closing tag that balances a tag

The search for the end of an element jumps from tag to tag and counts the elements of its name that
are open. Where it ends can be said without the search. Closing tags of the name stand at some
places of the content, and tags that need a closing tag at others; the element ends at the first
closing tag up to which, itself included, there is one closing tag more than there are tags that
need one.

No tag of the name reaches into another one, because a name holds no `<`. So the search may as well
go on by one character at a time, and the counts are followed by induction on the text.

## Main definitions

* `ClosesAt`, `OpensAt`: the places of closing tags, and of tags that need one
* `Balances`: a closing tag with which as many elements are closed as are open

## Main results

* `closingTagFrom_of_closesAt`, `closingTagFrom_of_not_closesAt`: the search goes on by one
  character
* `closingTagFrom_eq_some_iff`: what the search finds while elements are open
* `closingTag?_isLeast`: the search finds the first closing tag that balances, and only that
-/

namespace RazorLayout.Template

open Text

/-! ### The places of tags -/

/-- A closing tag of the name stands behind the first `n` characters. -/
def ClosesAt (tag s : List Char) (n : Nat) : Prop := tagCloser tag <+: s.drop n

/-- A tag of the name that needs a closing tag stands behind the first `n` characters: the name
ends, and the next `>` has no slash directly in front of it. -/
def OpensAt (tag s : List Char) (n : Nat) : Prop :=
  ∃ rest, s.drop n = tagOpener tag ++ rest ∧
    (∃ c, rest.head? = some c ∧ (isBlank c = true ∨ c = '>' ∨ c = '/')) ∧
    ∀ inside behind, rest = inside ++ '>' :: behind → '>' ∉ inside →
      (tagOpener tag ++ inside).getLast? ≠ some '/'

instance (tag s : List Char) : DecidablePred (ClosesAt tag s) :=
  fun n => inferInstanceAs (Decidable (tagCloser tag <+: s.drop n))

theorem endsTagName_iff {s : List Char} :
    endsTagName s = true ↔ ∃ c, s.head? = some c ∧ (isBlank c = true ∨ c = '>' ∨ c = '/') := by
  cases s with
  | nil => simp [endsTagName]
  | cons c s => simp [endsTagName, or_assoc]

/-- A tag closes itself when it ends, and a slash stands directly in front of its end. -/
theorem closesItself_eq_false_iff {before rest : List Char} :
    closesItself before rest = false ↔
      ∀ inside behind, rest = inside ++ '>' :: behind → '>' ∉ inside →
        (before ++ inside).getLast? ≠ some '/' := by
  constructor
  · rintro h inside behind rfl hinside
    simpa [closesItself_append before hinside] using h
  · intro h
    by_cases hend : '>' ∈ rest
    · obtain ⟨inside, behind, rfl, hinside⟩ := List.eq_append_cons_of_mem hend
      simpa [closesItself_append before hinside] using h inside behind rfl hinside
    · -- a tag without an end does not close itself
      have none : find? ['>'] rest = none := by
        rw [Option.eq_none_iff_forall_ne_some]
        intro n hn
        obtain ⟨u, v, rfl, -⟩ := find?_eq_some hn
        exact hend (by simp)
      rw [closesItself, none]

theorem opensAt_iff {tag s : List Char} {n : Nat} :
    OpensAt tag s n ↔
      tagOpener tag <+: s.drop n ∧ opensNested (tagOpener tag) (s.drop n) = true := by
  have nested (rest : List Char) : opensNested (tagOpener tag) (tagOpener tag ++ rest) = true ↔
      endsTagName rest = true ∧ closesItself (tagOpener tag) rest = false := by
    rw [opensNested, List.drop_left, Bool.and_eq_true, Bool.not_eq_true']
  constructor
  · rintro ⟨rest, hrest, hname, hend⟩
    rw [hrest, nested, endsTagName_iff, closesItself_eq_false_iff]
    exact ⟨List.prefix_append .., hname, hend⟩
  · rintro ⟨⟨rest, hrest⟩, hopens⟩
    rw [← hrest, nested, endsTagName_iff, closesItself_eq_false_iff] at hopens
    exact ⟨rest, hrest.symm, hopens⟩

instance (tag s : List Char) : DecidablePred (OpensAt tag s) :=
  fun _ => decidable_of_iff _ opensAt_iff.symm

/-- A closing tag stands behind the first `n` characters. With it there is one closing tag more than
there are tags that need one, `depth` elements that are open at the beginning of the text
included. -/
def Balances (tag : List Char) (depth : Nat) (s : List Char) (n : Nat) : Prop :=
  ClosesAt tag s n ∧
    Nat.count (ClosesAt tag s) (n + 1) = depth + 1 + Nat.count (OpensAt tag s) n

/-! ### One character at a time -/

section Search

variable {tag : List Char} (hchars : ∀ c ∈ tag, isTagNameChar c = true)

include hchars

/-- A closing tag is no tag that needs one. -/
theorem not_opensAt_of_closesAt (hne : tag ≠ []) {s : List Char} {n : Nat}
    (h : ClosesAt tag s n) : ¬ OpensAt tag s n := by
  rintro ⟨rest, hrest, -⟩
  obtain ⟨behind, hbehind⟩ := h
  obtain ⟨c, name, rfl⟩ := List.exists_cons_of_ne_nil hne
  -- behind the bracket stands a slash, and the name does not begin with one
  obtain rfl : '/' = c := by
    rw [hrest] at hbehind
    exact (List.cons.inj (List.cons.inj hbehind).2).1
  exact not_mem_of_isTagNameChar hchars (isAttributeNameChar_delimiter (by decide))
    List.mem_cons_self

/-- Behind the bracket of a closing tag the search goes on with one element less. -/
theorem closingTagFrom_of_closesAt {c : Char} {s : List Char} (h : ClosesAt tag (c :: s) 0)
    (n depth : Nat) :
    closingTagFrom (tagOpener tag) (tagCloser tag) n (depth + 1) 0 (c :: s)
      = closingTagFrom (tagOpener tag) (tagCloser tag) (n + 1) depth 0 s := by
  obtain ⟨rest, hrest⟩ := h
  have hmarkup : '<' ∉ tag :=
    not_mem_of_isTagNameChar hchars (isAttributeNameChar_delimiter (by decide))
  -- no tag begins in what is left of the closing tag
  obtain rfl : '/' :: (tag ++ ['>']) ++ rest = s := by
    simpa [tagCloser] using (List.cons.inj hrest).2
  have behind : '<' ∉ '/' :: (tag ++ ['>']) := by simp [hmarkup]
  rw [show c :: ('/' :: (tag ++ ['>']) ++ rest) = tagCloser tag ++ rest from hrest.symm,
    closingTagFrom_closer, closingTagFrom_of_no_markup tag (n + 1) depth behind]
  dsimp only
  congr 1
  simp only [tagCloser, List.length_append, List.length_cons, List.length_nil]
  omega

/-- Anywhere else the search goes on with one element more, if a tag of the name begins that needs a
closing tag. -/
theorem closingTagFrom_of_not_closesAt {c : Char} {s : List Char} (h : ¬ ClosesAt tag (c :: s) 0)
    (n depth : Nat) :
    closingTagFrom (tagOpener tag) (tagCloser tag) n depth 0 (c :: s)
      = closingTagFrom (tagOpener tag) (tagCloser tag) (n + 1)
          (depth + if OpensAt tag (c :: s) 0 then 1 else 0) 0 s := by
  have absent {w : List Char} (hw : ¬ w <+: c :: s) : w.isPrefixOf (c :: s) = false := by
    rwa [Bool.eq_false_iff, ne_eq, List.isPrefixOf_iff_prefix]
  have hcloser : (tagCloser tag).isPrefixOf (c :: s) = false := absent h
  have hmarkup : '<' ∉ tag :=
    not_mem_of_isTagNameChar hchars (isAttributeNameChar_delimiter (by decide))
  by_cases hopener : tagOpener tag <+: c :: s
  · obtain ⟨rest, hrest⟩ := hopener
    obtain ⟨rfl, rfl⟩ : '<' = c ∧ tag ++ rest = s := List.cons.inj hrest
    have opens := opensBefore_of_prefix hmarkup hcloser
    have nested : opensNested (tagOpener tag) ('<' :: (tag ++ rest)) = true ↔
        OpensAt tag ('<' :: (tag ++ rest)) 0 := by
      rw [opensAt_iff]
      exact (and_iff_right (List.prefix_append (tagOpener tag) rest)).symm
    rw [closingTagFrom_of_not_closer n depth hcloser, if_pos opens, tagOpener, List.length_cons,
      Nat.add_sub_cancel, closingTagFrom_skip, ← tagOpener,
      closingTagFrom_of_no_markup tag (n + 1) _ hmarkup]
    simp only [nested]
  · have hopens : ¬ OpensAt tag (c :: s) 0 := fun h => hopener (opensAt_iff.1 h).1
    rw [closingTagFrom_of_not_tag n depth hcloser (absent hopener), if_neg hopens]
    rfl

end Search

/-! ### Counting tags -/

section Balance

variable {tag : List Char} {depth : Nat}

theorem balances_zero_iff {s : List Char} :
    Balances tag depth s 0 ↔ ClosesAt tag s 0 ∧ depth = 0 := by
  rw [Balances]
  refine and_congr_right fun h => ?_
  rw [Nat.count_succ, Nat.count_zero, Nat.count_zero, if_pos h]
  omega

/-- The counts from one character on, and what that character adds to them. -/
theorem balances_succ_iff {c : Char} {s : List Char} {n : Nat} :
    Balances tag depth (c :: s) (n + 1) ↔ ClosesAt tag s n ∧
      Nat.count (ClosesAt tag s) (n + 1) + (if ClosesAt tag (c :: s) 0 then 1 else 0)
        = depth + 1 + (Nat.count (OpensAt tag s) n
          + if OpensAt tag (c :: s) 0 then 1 else 0) := by
  rw [Balances, Nat.count_succ' (ClosesAt tag (c :: s)), Nat.count_succ' (OpensAt tag (c :: s))]
  rfl

/-- The first place with a property, where the property is known from the second place on. -/
theorem isLeast_succ_iff {P Q : Nat → Prop} (hzero : ¬ P 0) (hsucc : ∀ k, P (k + 1) ↔ Q k)
    {n : Nat} : IsLeast {k | P k} n ↔ ∃ k, n = k + 1 ∧ IsLeast {k | Q k} k := by
  constructor
  · rintro ⟨hn, hleast⟩
    obtain ⟨k, rfl⟩ := Nat.exists_eq_add_one_of_ne_zero fun h => hzero (h ▸ hn)
    refine ⟨k, rfl, (hsucc k).1 hn, fun j hj => ?_⟩
    have := hleast ((hsucc j).2 hj)
    omega
  · rintro ⟨k, rfl, hk, hleast⟩
    refine ⟨(hsucc k).2 hk, fun j hj => ?_⟩
    obtain ⟨j, rfl⟩ := Nat.exists_eq_add_one_of_ne_zero fun h => hzero (h ▸ hj)
    have := hleast ((hsucc j).1 hj)
    omega

variable (hne : tag ≠ []) (hchars : ∀ c ∈ tag, isTagNameChar c = true)

include hne hchars

/-- The search finds the first closing tag that balances, with the elements that are open
already. -/
theorem closingTagFrom_eq_some_iff {s : List Char} {n m : Nat} :
    closingTagFrom (tagOpener tag) (tagCloser tag) n depth 0 s = some m ↔
      ∃ k, m = n + k ∧ IsLeast {k | Balances tag depth s k} k := by
  induction s generalizing n depth with
  | nil =>
    have nowhere (k : Nat) : ¬ Balances tag depth [] k := by
      rintro ⟨⟨rest, hrest⟩, -⟩
      simp [tagCloser] at hrest
    simp only [closingTagFrom, reduceCtorEq, false_iff]
    rintro ⟨k, -, hk, -⟩
    exact nowhere k hk
  | cons c s ih =>
    -- from the second place on the search is the one behind the first character
    have later {d : Nat}
        (hzero : ¬ Balances tag depth (c :: s) 0)
        (hsucc : ∀ k, Balances tag depth (c :: s) (k + 1) ↔ Balances tag d s k) :
        (∃ k, m = n + 1 + k ∧ IsLeast {k | Balances tag d s k} k) ↔
          ∃ k, m = n + k ∧ IsLeast {k | Balances tag depth (c :: s) k} k := by
      simp only [isLeast_succ_iff hzero hsucc]
      constructor
      · rintro ⟨k, rfl, hk⟩
        exact ⟨k + 1, by omega, k, rfl, hk⟩
      · rintro ⟨_, rfl, k, rfl, hk⟩
        exact ⟨k, by omega, hk⟩
    by_cases hcloses : ClosesAt tag (c :: s) 0
    · have hopens := not_opensAt_of_closesAt hchars hne hcloses
      cases depth with
      | zero =>
        -- nothing is open, so that this is the closing tag that was looked for
        have first : IsLeast {k | Balances tag 0 (c :: s) k} 0 :=
          ⟨balances_zero_iff.2 ⟨hcloses, rfl⟩, fun k _ => k.zero_le⟩
        obtain ⟨rest, hrest⟩ := hcloses
        have found : closingTagFrom (tagOpener tag) (tagCloser tag) n 0 0 (c :: s) = some n := by
          rw [show c :: s = tagCloser tag ++ rest from hrest.symm, closingTagFrom_closer]
        rw [found, Option.some_inj]
        constructor
        · rintro rfl
          exact ⟨0, rfl, first⟩
        · rintro ⟨k, rfl, hk⟩
          rw [hk.unique first, Nat.add_zero]
      | succ d =>
        rw [closingTagFrom_of_closesAt hchars hcloses, ih]
        refine later (by simp [balances_zero_iff]) fun k => ?_
        rw [balances_succ_iff, if_pos hcloses, if_neg hopens, Balances]
        refine and_congr_right fun _ => ?_
        omega
    · rw [closingTagFrom_of_not_closesAt hchars hcloses, ih]
      refine later (by simp [balances_zero_iff, hcloses]) fun k => ?_
      rw [balances_succ_iff, if_neg hcloses, Balances]
      refine and_congr_right fun _ => ?_
      omega

/-- The content of an element ends at the first closing tag of its name up to which there is one
closing tag more than there are tags that need one. Where there is no such closing tag, the search
finds nothing. -/
theorem closingTag?_isLeast (s : List Char) :
    (∀ n, closingTag? tag s = some n ↔ IsLeast {n | ClosesAt tag s n ∧
      Nat.count (ClosesAt tag s) (n + 1) = 1 + Nat.count (OpensAt tag s) n} n) ∧
    (closingTag? tag s = none ↔ ∀ n, ¬ (ClosesAt tag s n ∧
      Nat.count (ClosesAt tag s) (n + 1) = 1 + Nat.count (OpensAt tag s) n)) := by
  have found (n : Nat) : closingTag? tag s = some n ↔ IsLeast {n | Balances tag 0 s n} n := by
    simpa [closingTag?] using closingTagFrom_eq_some_iff hne hchars (s := s) (n := 0) (m := n)
  simp only [Balances, Nat.zero_add] at found
  refine ⟨found, ?_⟩
  constructor
  · intro hnone n hn
    -- of the closing tags that balance there would be a first one
    have first := (found _).2 (Nat.isLeast_find ⟨n, hn⟩)
    simp [hnone] at first
  · intro nowhere
    rw [Option.eq_none_iff_forall_ne_some]
    intro n hn
    exact nowhere n ((found n).1 hn).1

end Balance

/-- Tags that close themselves, and names that only begin with the name, do not count. -/
theorem closingTag?_isLeast_nested :
    let tag := "div".toList
    let s := "<divider /><div id='a'><div/>b</div></divider>c</div>d</div>".toList
    (tag ≠ [] ∧ ∀ c ∈ tag, isTagNameChar c = true) ∧
      IsLeast {n | ClosesAt tag s n ∧
        Nat.count (ClosesAt tag s) (n + 1) = 1 + Nat.count (OpensAt tag s) n} 47 := by
  intro tag s
  have hne : tag ≠ [] := by decide
  have hchars : ∀ c ∈ tag, isTagNameChar c = true := List.all_eq_true.1 (by decide +kernel)
  have found : closingTag? tag s = some 47 := by decide +kernel
  exact ⟨⟨hne, hchars⟩, ((closingTag?_isLeast hne hchars s).1 47).1 found⟩

end RazorLayout.Template

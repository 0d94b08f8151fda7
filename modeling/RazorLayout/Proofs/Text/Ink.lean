import Mathlib.Data.List.Basic
import Mathlib.Data.List.TakeWhile
import Mathlib.Tactic.Common
import RazorLayout.Text.Blank
import RazorLayout.Text.Lines

/-!
# The ink of a text

The ink of a text is what is left of it when every blank is deleted. Layout moves, adds and
removes blanks, so it acts on texts by operations that keep the ink: trimming, cutting into
lines, joining with blank separators. This file has one law for each of them.

A list of lines has the ink of its lines, one after the other, `ls.flatMap withoutBlanks`.

## Main results

* `withoutBlanks_trim`, `withoutBlanks_collapse`: shortening runs of blanks keeps the ink
* `flatMap_withoutBlanks_lines`, `flatMap_withoutBlanks_split`: cutting a text into lines keeps
  the ink
* `withoutBlanks_joinWith`: joining with a blank separator keeps the ink
* `flatMap_withoutBlanks_dropWhile`, `flatMap_withoutBlanks_filter`: lines without ink can go
-/

namespace RazorLayout.Text

/-! ### Blank characters -/

/-- The code points of the blank characters. -/
def blankCodes : List Nat :=
  List.range' 9 5 ++ [0x20, 0x85, 0xA0, 0x1680] ++ List.range' 0x2000 11
    ++ [0x2028, 0x2029, 0x202F, 0x205F, 0x3000]

theorem toNat_mem_blankCodes {c : Char} (h : isBlank c = true) : c.toNat ∈ blankCodes := by
  simp only [isBlank, Bool.or_eq_true, Bool.and_eq_true, decide_eq_true_eq, beq_iff_eq] at h
  simp only [blankCodes, List.mem_append, List.mem_range'_1, List.mem_cons, List.not_mem_nil,
    or_false]
  omega

/-- A test that no blank passes. -/
theorem eq_false_of_isBlank (p : Char → Bool)
    (hp : blankCodes.all (fun n => !p (Char.ofNat n)) = true) {c : Char} (hc : isBlank c = true) :
    p c = false := by
  have failed := List.all_eq_true.1 hp c.toNat (toNat_mem_blankCodes hc)
  rw [Char.ofNat_toNat] at failed
  simpa using failed

/-! ### Blank texts -/

@[simp] theorem withoutBlanks_nil : withoutBlanks [] = [] := rfl

theorem withoutBlanks_cons (c : Char) (s : List Char) :
    withoutBlanks (c :: s) = if isBlank c then withoutBlanks s else c :: withoutBlanks s := by
  cases h : isBlank c <;> simp [withoutBlanks, h]

theorem withoutBlanks_cons_of_blank {c : Char} (h : isBlank c = true) (s : List Char) :
    withoutBlanks (c :: s) = withoutBlanks s := by
  simp [withoutBlanks, h]

theorem withoutBlanks_cons_of_not_blank {c : Char} (h : isBlank c = false) (s : List Char) :
    withoutBlanks (c :: s) = c :: withoutBlanks s := by
  simp [withoutBlanks, h]

theorem allBlank_iff {s : List Char} : allBlank s = true ↔ ∀ c ∈ s, isBlank c = true :=
  List.all_eq_true

/-- A text has no ink exactly when it is blank. -/
theorem withoutBlanks_eq_nil_iff {s : List Char} : withoutBlanks s = [] ↔ allBlank s = true := by
  simp [withoutBlanks, allBlank]

theorem withoutBlanks_of_allBlank {s : List Char} (h : allBlank s = true) :
    withoutBlanks s = [] :=
  withoutBlanks_eq_nil_iff.2 h

theorem not_mem_of_allBlank {s : List Char} (hs : allBlank s = true) {c : Char}
    (hc : isBlank c = false) : c ∉ s := by
  intro h
  simp [allBlank_iff.1 hs c h] at hc

@[simp] theorem allBlank_append (s t : List Char) :
    allBlank (s ++ t) = (allBlank s && allBlank t) :=
  List.all_append

theorem allBlank_takeWhile (s : List Char) : allBlank (s.takeWhile isBlank) = true :=
  List.all_takeWhile

/-! ### Trimming -/

theorem withoutBlanks_dropWhile (s : List Char) :
    withoutBlanks (s.dropWhile isBlank) = withoutBlanks s := by
  calc
    withoutBlanks (s.dropWhile isBlank)
      = withoutBlanks (s.takeWhile isBlank) ++ withoutBlanks (s.dropWhile isBlank) := by
        rw [withoutBlanks_of_allBlank (allBlank_takeWhile s), List.nil_append]
    _ = withoutBlanks s := by rw [← withoutBlanks_append, List.takeWhile_append_dropWhile]

theorem withoutBlanks_reverse (s : List Char) :
    withoutBlanks s.reverse = (withoutBlanks s).reverse :=
  List.filter_reverse

@[simp] theorem withoutBlanks_trimStart (s : List Char) :
    withoutBlanks (trimStart s) = withoutBlanks s :=
  withoutBlanks_dropWhile s

@[simp] theorem withoutBlanks_trimEnd (s : List Char) :
    withoutBlanks (trimEnd s) = withoutBlanks s := by
  rw [trimEnd, withoutBlanks_reverse, withoutBlanks_dropWhile, withoutBlanks_reverse,
    List.reverse_reverse]

@[simp] theorem withoutBlanks_trim (s : List Char) :
    withoutBlanks (trim s) = withoutBlanks s := by
  rw [trim, withoutBlanks_trimEnd, withoutBlanks_trimStart]

/-- Writing a run of blanks as one space keeps the ink. -/
@[simp] theorem withoutBlanks_collapse (s : List Char) :
    withoutBlanks (collapse s) = withoutBlanks s := by
  have space : isBlank ' ' = true := by decide
  fun_induction collapse s with
  | case1 => rfl
  | case2 c =>
    by_cases h : isBlank c = true
    · simp [h, space, withoutBlanks_cons_of_blank]
    · simp [h]
  | case3 c d s hc hd ih => rw [ih, withoutBlanks_cons_of_blank hc]
  | case4 c d s hc hd ih =>
    rw [withoutBlanks_cons_of_blank space, ih, withoutBlanks_cons_of_blank hc]
  | case5 c d s hc ih =>
    have hc : isBlank c = false := by simpa using hc
    rw [withoutBlanks_cons_of_not_blank hc, ih, withoutBlanks_cons_of_not_blank hc]

/-! ### Lines -/

/-- The line end, with the carriage return that may belong to it, is blank. -/
theorem flatMap_withoutBlanks_linesFrom (acc s : List Char) :
    (linesFrom acc s).flatMap withoutBlanks = withoutBlanks (acc.reverse ++ s) := by
  have feed : isBlank '\n' = true := by decide
  have carriage : isBlank '\r' = true := by decide
  fun_induction linesFrom acc s with
  | case1 acc h => simp_all
  | case2 acc h => simp
  | case3 acc s ih =>
    rw [List.flatMap_cons, ih, withoutBlanks_append acc.reverse, withoutBlanks_cons_of_blank feed]
    split
    · simp [withoutBlanks_cons_of_blank carriage]
    · simp
  | case4 acc c s h ih => simpa using ih

@[simp] theorem flatMap_withoutBlanks_lines (s : List Char) :
    (lines s).flatMap withoutBlanks = withoutBlanks s :=
  flatMap_withoutBlanks_linesFrom [] s

theorem flatMap_withoutBlanks_splitFrom {sep : Char} (h : isBlank sep = true)
    (acc s : List Char) :
    (splitFrom sep acc s).flatMap withoutBlanks = withoutBlanks (acc.reverse ++ s) := by
  fun_induction splitFrom sep acc s with
  | case1 acc => simp
  | case2 acc s ih => simp [ih, withoutBlanks_cons_of_blank, h]
  | case3 acc c s hc ih => simpa using ih

theorem flatMap_withoutBlanks_split {sep : Char} (h : isBlank sep = true) (s : List Char) :
    (split sep s).flatMap withoutBlanks = withoutBlanks s :=
  flatMap_withoutBlanks_splitFrom h [] s

theorem withoutBlanks_joinWith {sep : List Char} (h : allBlank sep = true)
    (ls : List (List Char)) : withoutBlanks (joinWith sep ls) = ls.flatMap withoutBlanks := by
  fun_induction joinWith sep ls with
  | case1 => rfl
  | case2 piece => simp
  | case3 piece next rest ih => simp [ih, withoutBlanks_of_allBlank h]

@[simp] theorem withoutBlanks_unlines (ls : List (List Char)) :
    withoutBlanks (unlines ls) = ls.flatMap withoutBlanks :=
  withoutBlanks_joinWith (by decide) ls

@[simp] theorem withoutBlanks_joinWith_space (ls : List (List Char)) :
    withoutBlanks (joinWith [' '] ls) = ls.flatMap withoutBlanks :=
  withoutBlanks_joinWith (by decide) ls

/-- Changing every line without touching its ink changes no ink. -/
theorem flatMap_withoutBlanks_map {f : List Char → List Char} {ls : List (List Char)}
    (h : ∀ l ∈ ls, withoutBlanks (f l) = withoutBlanks l) :
    (ls.map f).flatMap withoutBlanks = ls.flatMap withoutBlanks := by
  rw [List.flatMap_map]
  exact List.flatMap_congr h

/-- Lines that are left out by a test hold no ink. -/
theorem flatMap_withoutBlanks_filter {p : List Char → Bool} {ls : List (List Char)}
    (h : ∀ l ∈ ls, p l = false → allBlank l = true) :
    (ls.filter p).flatMap withoutBlanks = ls.flatMap withoutBlanks := by
  induction ls with
  | nil => rfl
  | cons l ls ih =>
    have ih := ih fun l' hl' => h l' (List.mem_cons_of_mem l hl')
    cases hp : p l with
    | true => simp [hp, ih]
    | false => simp [hp, ih, withoutBlanks_of_allBlank (h l List.mem_cons_self hp)]

theorem flatMap_withoutBlanks_eq_nil {ls : List (List Char)}
    (h : ∀ l ∈ ls, allBlank l = true) : ls.flatMap withoutBlanks = [] := by
  rw [List.flatMap_eq_nil_iff]
  exact fun l hl => withoutBlanks_of_allBlank (h l hl)

theorem flatMap_withoutBlanks_dropWhile {p : List Char → Bool}
    (h : ∀ l, p l = true → allBlank l = true) (ls : List (List Char)) :
    (ls.dropWhile p).flatMap withoutBlanks = ls.flatMap withoutBlanks := by
  have dropped : (ls.takeWhile p).flatMap withoutBlanks = [] :=
    flatMap_withoutBlanks_eq_nil fun l hl => h l (List.mem_takeWhile_imp hl)
  conv_rhs => rw [← List.takeWhile_append_dropWhile (p := p) (l := ls)]
  rw [List.flatMap_append, dropped, List.nil_append]

/-- Dropping lines without ink at both ends keeps the ink. -/
theorem flatMap_withoutBlanks_dropEdges {p : List Char → Bool}
    (h : ∀ l, p l = true → allBlank l = true) (ls : List (List Char)) :
    ((ls.dropWhile p).reverse.dropWhile p).reverse.flatMap withoutBlanks
      = ls.flatMap withoutBlanks := by
  rw [← flatMap_withoutBlanks_dropWhile h ls]
  generalize ls.dropWhile p = ls
  have dropped : (ls.reverse.takeWhile p).reverse.flatMap withoutBlanks = [] :=
    flatMap_withoutBlanks_eq_nil fun l hl =>
      h l (List.mem_takeWhile_imp (List.mem_reverse.1 hl))
  have parts : (ls.reverse.dropWhile p).reverse ++ (ls.reverse.takeWhile p).reverse = ls := by
    rw [← List.reverse_append, List.takeWhile_append_dropWhile, List.reverse_reverse]
  conv_rhs => rw [← parts]
  rw [List.flatMap_append, dropped, List.append_nil]

end RazorLayout.Text

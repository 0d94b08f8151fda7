import RazorLayout.Proofs.Code.Step

/-!
# What matched brackets enclose

A match is given by the number of characters before the closer. Behind an opener this file gives
the text between the two, so that a reader's piece of text can be written as
`opener :: inner ++ closer :: rest`.

## Main results

* `Bracket.matchPlain?_eq_some`, `Bracket.matchCode?_eq_some`: what a match encloses
* `Bracket.matchCode?_append`: a match is found no matter what stands behind the text
* `Bracket.matchCode?_of_append`: a match is found without what stands behind it
* `lineCommentStart?_eq_none`: a line without two slashes in a row has no line comment
* `lineCommentFrom_eq_some`: at a line comment there are two slashes
-/

namespace RazorLayout.Code

namespace Bracket

theorem eq_closer_of_count {b : Bracket} {depth : Nat} {c : Char}
    (h : b.count depth c = .closed) : c = b.closer := by
  by_contra hc
  unfold count at h
  split at h <;> simp at h

/-- A match ends at a closer. -/
theorem matchPlainFrom_eq_some {b : Bracket} {n depth k : Nat} {s : List Char}
    (h : matchPlainFrom b n depth s = some k) :
    ∃ inner rest, s = inner ++ b.closer :: rest ∧ k = n + inner.length := by
  induction s generalizing n depth with
  | nil => simp [matchPlainFrom] at h
  | cons c s ih =>
    rw [matchPlainFrom] at h
    split at h
    · obtain ⟨inner, rest, rfl, rfl⟩ := ih h
      exact ⟨c :: inner, rest, rfl, by simp only [List.length_cons]; omega⟩
    · rename_i hclosed
      obtain rfl := eq_closer_of_count hclosed
      simp only [Option.some.injEq] at h
      exact ⟨[], s, rfl, by simpa using h.symm⟩
    · simp at h

/-- Counting every character, a match behind an opener encloses a text. -/
theorem matchPlain?_eq_some {b : Bracket} {s : List Char} {k : Nat}
    (h : b.matchPlain? (b.opener :: s) = some k) :
    ∃ inner rest, s = inner ++ b.closer :: rest ∧ k = inner.length + 1 := by
  have opened : b.count 0 b.opener = .pending 1 := by simp [count]
  rw [matchPlain?, matchPlainFrom, opened] at h
  obtain ⟨inner, rest, rfl, rfl⟩ := matchPlainFrom_eq_some h
  exact ⟨inner, rest, rfl, by omega⟩

theorem matchCodeFrom_eq_some {b : Bracket} {lang : Language} {n depth skip k : Nat} {m : Mode}
    {s : List Char} (h : matchCodeFrom b lang n depth skip m s = some k) :
    ∃ inner rest, s = inner ++ b.closer :: rest ∧ k = n + inner.length := by
  fun_induction matchCodeFrom b lang n depth skip m s with
  | case1 => simp at h
  | case2 n depth skip m c s ih =>
    obtain ⟨inner, rest, rfl, rfl⟩ := ih h
    exact ⟨c :: inner, rest, rfl, by simp only [List.length_cons]; omega⟩
  | case3 n depth m c s st _ d _ ih =>
    obtain ⟨inner, rest, rfl, rfl⟩ := ih h
    exact ⟨c :: inner, rest, rfl, by simp only [List.length_cons]; omega⟩
  -- only the case that closes ends the count; in the others the match is further on
  | case4 n depth m c s st _ hclosed =>
    obtain rfl := eq_closer_of_count hclosed
    simp only [Option.some.injEq] at h
    exact ⟨[], s, rfl, by simpa using h.symm⟩
  | case5 => simp at h
  | case6 n depth m c s st _ ih =>
    obtain ⟨inner, rest, rfl, rfl⟩ := ih h
    exact ⟨c :: inner, rest, rfl, by simp only [List.length_cons]; omega⟩

/-- Counting code characters only, a match behind an opener that is code encloses a text. -/
theorem matchCode?_eq_some {b : Bracket} {s : List Char} {k : Nat}
    (hcode : step .csharp {} b.opener s = { role := .code, after := {} })
    (h : b.matchCode? (b.opener :: s) = some k) :
    ∃ inner rest, s = inner ++ b.closer :: rest ∧ k = inner.length + 1 := by
  have opened : b.count 0 b.opener = .pending 1 := by simp [count]
  simp only [matchCode?, matchCodeFrom_cons, hcode, opened] at h
  obtain ⟨inner, rest, rfl, rfl⟩ := matchCodeFrom_eq_some h
  exact ⟨inner, rest, rfl, by omega⟩

theorem paren_matchCode?_eq_some {s : List Char} {k : Nat}
    (h : paren.matchCode? ('(' :: s) = some k) :
    ∃ inner rest, s = inner ++ ')' :: rest ∧ k = inner.length + 1 :=
  matchCode?_eq_some (b := paren) (by simp [step, codeStep, paren]) h

theorem brace_matchCode?_eq_some {s : List Char} {k : Nat}
    (h : brace.matchCode? ('{' :: s) = some k) :
    ∃ inner rest, s = inner ++ '}' :: rest ∧ k = inner.length + 1 :=
  matchCode?_eq_some (b := brace) (by simp [step, codeStep, brace]) h

theorem brace_matchPlain?_eq_some {s : List Char} {k : Nat}
    (h : brace.matchPlain? ('{' :: s) = some k) :
    ∃ inner rest, s = inner ++ '}' :: rest ∧ k = inner.length + 1 :=
  matchPlain?_eq_some (b := brace) h

end Bracket

/-! ### What stands behind a match -/

/-- A step looks at the next character, and at the one after it only for the mark of a literal. -/
theorem step_congr (lang : Language) (m : Mode) (c : Char) {s s' : List Char}
    (hhead : s.head? = s'.head?) (hmark : s.take 2 = ['@', '"'] ↔ s'.take 2 = ['@', '"']) :
    step lang m c s = step lang m c s' := by
  simp only [step, stringStep, codeStep, hhead, hmark]

/-- The characters that begin marks of more than one character. -/
def marks : List Char := ['/', '*', '"', '@', '$']

/-- A step at any other character does not look ahead. -/
theorem step_of_not_mark (lang : Language) (m : Mode) {c : Char} (hc : c ∉ marks)
    (s s' : List Char) : step lang m c s = step lang m c s' := by
  simp only [marks, List.mem_cons, List.not_mem_nil, or_false, not_or] at hc
  obtain ⟨hslash, hstar, hquote, hat, hdollar⟩ := hc
  simp [step, stringStep, codeStep, hslash, hstar, hquote, hat, hdollar]

/-- A step does not look past a character that begins no mark. -/
theorem step_append (lang : Language) (m : Mode) (c : Char) {d : Char} (hd : d ∉ marks)
    (u r rest : List Char) : step lang m c (u ++ d :: r ++ rest) = step lang m c (u ++ d :: r) := by
  have hat : d ≠ '@' := by
    rintro rfl
    exact hd (by decide)
  -- `d` begins no mark, so that what stands behind it is not looked at
  apply step_congr
  · cases u <;> rfl
  · match u with
    | [] => simp [hat]
    | [x] => simp
    | x :: y :: u => simp

namespace Bracket

/-- A match is found no matter what stands behind the text. -/
theorem matchCodeFrom_append {b : Bracket} (hb : b.closer ∉ marks) {lang : Language}
    {n depth skip k : Nat} {m : Mode} {s : List Char}
    (h : matchCodeFrom b lang n depth skip m s = some k) (rest : List Char) :
    matchCodeFrom b lang n depth skip m (s ++ rest) = some k := by
  fun_induction matchCodeFrom b lang n depth skip m s with
  | case1 => simp at h
  | case2 n depth skip m c s ih => exact ih h
  | case3 n depth m c s t hyields d hcount ih =>
    -- the closer is still ahead, and the step does not see what stands behind it
    obtain ⟨inner, behind, rfl, -⟩ := matchCodeFrom_eq_some h
    have same := step_append lang m c hb inner behind rest
    have hrole := yields_turn_iff.1 hyields
    rw [List.cons_append, matchCodeFrom_cons, same]
    simp only [hrole, hcount]
    simpa [t] using ih h
  | case4 n depth m c s t hyields hclosed =>
    obtain rfl := eq_closer_of_count hclosed
    have hrole := yields_turn_iff.1 hyields
    rw [List.cons_append, matchCodeFrom_cons, step_of_not_mark lang m hb (s ++ rest) s]
    simp only [hrole, hclosed]
    exact h
  | case5 => simp at h
  | case6 n depth m c s t hhidden ih =>
    obtain ⟨inner, behind, rfl, -⟩ := matchCodeFrom_eq_some h
    have same := step_append lang m c hb inner behind rest
    rw [List.cons_append, matchCodeFrom_cons, same]
    split
    · rename_i hcode
      exact absurd (yields_turn_iff.2 hcode) hhidden
    · simpa [t] using ih h

theorem matchCode?_append {b : Bracket} (hb : b.closer ∉ marks) {s : List Char} {k : Nat}
    (h : b.matchCode? s = some k) (rest : List Char) : b.matchCode? (s ++ rest) = some k :=
  matchCodeFrom_append hb h rest

/-- A match that lies in a beginning of the text is found in the beginning alone. -/
theorem matchCodeFrom_of_append {b : Bracket} (hb : b.closer ∉ marks) {lang : Language}
    {n depth skip k : Nat} {m : Mode} {s rest : List Char}
    (h : matchCodeFrom b lang n depth skip m (s ++ rest) = some k) (hk : k < n + s.length) :
    matchCodeFrom b lang n depth skip m s = some k := by
  induction s generalizing n depth skip m with
  | nil =>
    obtain ⟨inner, behind, -, rfl⟩ := matchCodeFrom_eq_some h
    simp only [List.length_nil] at hk
    omega
  | cons c s ih =>
    have hk : k < n + 1 + s.length := by
      rw [List.length_cons] at hk
      omega
    cases skip with
    | succ skip => exact ih h hk
    | zero =>
      -- the closer is in the beginning, and the step does not see what stands behind it
      have same {n depth skip : Nat} {m' : Mode} (hk : k < n + s.length)
          (h : matchCodeFrom b lang n depth skip m' (s ++ rest) = some k) :
          step lang m c (s ++ rest) = step lang m c s := by
        obtain ⟨inner, behind, hs, rfl⟩ := matchCodeFrom_eq_some h
        rcases List.append_eq_append_iff.1 hs with ⟨w, rfl, -⟩ | ⟨w, rfl, hw⟩
        · simp only [List.length_append] at hk
          omega
        · cases w with
          | nil => simp at hk
          | cons d w =>
            obtain rfl : b.closer = d := (List.cons.inj hw).1
            exact step_append lang m c hb inner w rest
      rw [List.cons_append, matchCodeFrom_cons] at h
      rw [matchCodeFrom_cons]
      split at h
      · rename_i hrole
        split at h
        · rename_i d hcount
          rw [same hk h] at h hrole
          simp only [hrole]
          exact ih h hk
        · rename_i hclosed
          obtain rfl := eq_closer_of_count hclosed
          rw [step_of_not_mark lang m hb (s ++ rest) s] at hrole
          simp only [hrole]
          exact h
        · simp at h
      · rename_i hrole
        rw [same hk h] at h hrole
        split
        · rename_i hcode
          exact absurd hcode hrole
        · exact ih h hk

theorem matchCode?_of_append {b : Bracket} (hb : b.closer ∉ marks) {s rest : List Char} {k : Nat}
    (h : b.matchCode? (s ++ rest) = some k) (hk : k < s.length) : b.matchCode? s = some k :=
  matchCodeFrom_of_append hb h (by omega)

/-- Counting every character, a match is found no matter what stands behind the text. -/
theorem matchPlainFrom_append {b : Bracket} {n depth k : Nat} {s : List Char}
    (h : matchPlainFrom b n depth s = some k) (rest : List Char) :
    matchPlainFrom b n depth (s ++ rest) = some k := by
  induction s generalizing n depth with
  | nil => simp [matchPlainFrom] at h
  | cons c s ih =>
    rw [matchPlainFrom] at h
    rw [List.cons_append, matchPlainFrom]
    split at h
    · exact ih h
    · exact h
    · simp at h

theorem matchPlain?_append {b : Bracket} {s : List Char} {k : Nat} (h : b.matchPlain? s = some k)
    (rest : List Char) : b.matchPlain? (s ++ rest) = some k :=
  matchPlainFrom_append h rest

end Bracket

/-! ### Line comments -/

/-- A step enters a line comment only at two slashes in a row. -/
theorem inLineComment_step {lang : Language} {m : Mode} {c : Char} {s : List Char}
    (hm : m.inLineComment = false) (h : ¬ ['/', '/'] <+: c :: s) :
    (step lang m c s).after.inLineComment = false := by
  have hslash : ¬ (c = '/' ∧ s.head? = some '/') := by
    rintro ⟨rfl, hs⟩
    obtain ⟨s, rfl⟩ := List.head?_eq_some_iff.1 hs
    exact h ⟨s, rfl⟩
  -- the mode decides what a step does: comments, strings and code each in their own way
  unfold step
  rw [hm]
  simp only [Bool.false_eq_true, if_false]
  split
  · split
    · rfl
    · exact hm
  · split
    · rw [inLineComment_stringStep, hm]
    · unfold codeStep
      repeat' split
      all_goals simp_all [Mode.opening]

theorem lineCommentFrom_eq_none {lang : Language} {n skip : Nat} {m : Mode} {s : List Char}
    (hm : m.inLineComment = false) (h : ¬ ['/', '/'] <:+: s) :
    lineCommentFrom lang n skip m s = none := by
  induction s generalizing n skip m with
  | nil => cases skip <;> rfl
  | cons c s ih =>
    have behind : ¬ ['/', '/'] <:+: s := fun hs => h (hs.trans (List.suffix_cons c s).isInfix)
    cases skip with
    | succ skip => exact ih hm behind
    | zero =>
      have outside : (step lang m c s).after.inLineComment = false :=
        inLineComment_step hm fun hs => h hs.isInfix
      rw [lineCommentFrom_cons, outside, if_neg Bool.false_ne_true]
      exact ih outside behind

/-- A line comment begins at two slashes. -/
theorem lineCommentFrom_eq_some {lang : Language} {n skip k : Nat} {m : Mode} {s : List Char}
    (hm : m.inLineComment = false) (h : lineCommentFrom lang n skip m s = some k) :
    ∃ u note, s = u ++ '/' :: '/' :: note ∧ k = n + u.length := by
  induction s generalizing n skip m with
  | nil => simp [lineCommentFrom] at h
  | cons c s ih =>
    -- a comment further on is further on by this character
    have later {skip : Nat} {m : Mode} (hm : m.inLineComment = false)
        (h : lineCommentFrom lang (n + 1) skip m s = some k) :
        ∃ u note, c :: s = u ++ '/' :: '/' :: note ∧ k = n + u.length := by
      obtain ⟨u, note, rfl, rfl⟩ := ih hm h
      exact ⟨c :: u, note, rfl, by simp only [List.length_cons]; omega⟩
    cases skip with
    | succ skip => exact later hm h
    | zero =>
      rw [lineCommentFrom_cons] at h
      cases hafter : (step lang m c s).after.inLineComment with
      | true =>
        rw [hafter, if_pos rfl, Option.some.injEq] at h
        have slashes : ['/', '/'] <+: c :: s := by
          by_contra hno
          simp [inLineComment_step hm hno] at hafter
        obtain ⟨note, hnote⟩ := slashes
        exact ⟨[], note, hnote.symm, by simpa using h.symm⟩
      | false =>
        rw [hafter, if_neg Bool.false_ne_true] at h
        exact later hafter h

/-- A line without two slashes in a row has no line comment. -/
theorem lineCommentStart?_eq_none {lang : Language} {line : List Char}
    (h : ¬ ['/', '/'] <:+: line) : lineCommentStart? lang line = none :=
  lineCommentFrom_eq_none rfl h

end RazorLayout.Code

import RazorLayout.Proofs.Source.Blocks

/-!
# Reading constructs by places

Every construct that an `@` begins is found at the same places as by its reader. An expression is a
loop over its members, arguments and indices; the other constructs are cut out between delimiters of
one byte. Whether an `@` begins a construct at all depends on the character in front of it, which is
looked up in the text up to the place.

## Main results

* `scanExpression_eq`: expressions
* `scanRazor_eq`: the construct that an `@` begins
-/

namespace RazorLayout.Template

open Text Code

/-! ### Expressions -/

theorem expressionTail_eq (length : Nat) (s : List Char) :
    expressionTail length s = match Opening.member.length? s with
      | some n => some (length + n, n)
      | none => (argumentsCloser? s).map fun n => (length + n + 1, n + 1) := rfl

theorem byteLength_take_argumentsCloser? {s : List Char} {k : Nat}
    (h : argumentsCloser? s = some k) :
    byteLength (s.take (k + 1)) = byteLength (s.take k) + 1 := by
  unfold argumentsCloser? at h
  split at h
  · exact Bracket.byteLength_take_matchCode? rfl h
  · exact Bracket.byteLength_take_matchCode? rfl h
  · cases h

section Expressions

variable {t s : List Char} {place : Nat}

/-- A round goes on by what the reader takes. -/
theorem expressionRound_eq (h : RestAt t place s) (length : Nat) :
    expressionRound t place = .ok (match expressionTail length s with
      | some (_, n) => .again (place + byteLength (s.take n))
      | none => .done place) := by
  rw [expressionRound, h.sliceFrom, ok_bind, expressionTail_eq, Opening.stop?]
  cases Opening.member.length? s with
  | some n => rfl
  | none =>
    simp only [Option.map_none, scanCloser_eq h, ok_bind]
    cases hcloser : argumentsCloser? s with
    | none => rfl
    | some k =>
      simp only [Option.map_some, byteLength_take_argumentsCloser? hcloser, Nat.add_assoc]
      rfl

/-- The number of characters of an expression that a reader finds when it goes on behind `length`
characters of `s`. -/
def expressionFrom (s : List Char) (length : Nat) : Nat :=
  (advance expressionTail 0 length (s.drop length)).1

theorem expressionRound_keeps (h : RestAt t place s) {stop length : Nat}
    (hstop : stop = place + byteLength (s.take length)) :
    RoundKeeps (byteLength t) id (expressionRound t)
      (fun stop length => stop = place + byteLength (s.take length))
      (fun length => place + byteLength (s.take (expressionFrom s length))) stop length := by
  subst hstop
  have behind := h.drop length
  have round := expressionRound_eq behind length
  cases htail : expressionTail length (s.drop length) with
  | none =>
    refine .inl (round.trans ?_)
    simp only [htail, expressionFrom, advance_of_none htail]
  | some next =>
    obtain ⟨length', n⟩ := next
    rw [htail] at round
    obtain ⟨rfl, hn, hle⟩ := expressionTail_bounds htail
    have hne : s.drop length ≠ [] := List.ne_nil_of_length_pos (Nat.lt_of_lt_of_le hn hle)
    have moved := byteLength_pos (s := (s.drop length).take n) (by simpa [hne] using hn.ne')
    have bound := (behind.drop n).add_byteLength
    refine .inr ⟨_, length + n, round, ?_, ?_, ?_, ?_⟩
    · simpa using moved
    · exact Nat.le.intro bound
    · dsimp only
      rw [byteLength_take_add, Nat.add_assoc]
    · simp only [expressionFrom, advance_of_step htail hn hne, List.drop_drop]

theorem codeAt_eq (base : Nat) (kind : CodeKind) (code : List Char) (length : Nat) :
    codeAt base kind code place (place + byteLength (s.take length))
      = codeNode kind code (base + place) length s := by
  rw [codeAt, codeNode, Nat.add_assoc]

end Expressions

/-! ### Constructs -/

section Constructs

variable {t r : List Char} {place : Nat} (base : Nat)

theorem scanExpression_eq (h : RestAt t place ('@' :: r)) :
    scanExpression t base place
      = .ok (inPlaces place ('@' :: r) (readExpression? (base + place) ('@' :: r))) := by
  rw [scanExpression, h.sliceFrom, ok_bind, Opening.stop?, readExpression?]
  cases hopening : Opening.expression.length? ('@' :: r) with
  | none => rfl
  | some n =>
    obtain ⟨-, m, -, -, hn⟩ := Opening.partsLength?_word hopening
    have stop : loop (byteLength t) id (expressionRound t) (place + byteLength (('@' :: r).take n))
        = .ok (place + byteLength (('@' :: r).take (expressionFrom ('@' :: r) n))) :=
      loop_eq_ok (fun _ _ => expressionRound_keeps h) rfl
    have cut := h.slice_behind rfl (advance_expressionTail_pos
      (show 0 < n by rw [hn, List.length_singleton]; omega) (('@' :: r).drop n))
    simp only [Option.map_some, stop, expressionFrom, ok_bind, cut, codeAt_eq, pure_eq_ok,
      inPlaces_some]

theorem scanTemplateComment_eq (h : RestAt t place ('@' :: '*' :: r)) :
    scanTemplateComment t base place r = .ok (inPlaces place ('@' :: '*' :: r)
      (readTemplateComment? (base + place) ('@' :: '*' :: r))) := by
  rw [scanTemplateComment, findPlace?, readTemplateComment?, List.drop_succ_cons,
    List.drop_succ_cons, List.drop_zero]
  cases hfind : find? "*@".toList r with
  | none => rfl
  | some n =>
    have found : byteLength (r.take (n + 2)) = byteLength (r.take n) + 2 :=
      byteLength_take_find? hfind
    -- the two marks around the comment are as long in bytes as in characters
    have stop : place + 2 + byteLength (r.take n) + 2
        = place + byteLength (('@' :: '*' :: r).take (n + 4)) := by
      have marks : '@'.utf8Size = 1 ∧ '*'.utf8Size = 1 := by decide
      simp only [List.take_succ_cons, byteLength_cons, found, marks]
      omega
    have cut := h.slice_behind rfl (n := n + 4) (by omega)
    simp only [Option.map_some, stop, cut, ok_bind, codeAt_eq, pure_eq_ok, inPlaces_some]

/-- A match behind the `@`, one byte further on. -/
theorem byteLength_take_succ (r : List Char) (n : Nat) :
    byteLength (('@' :: r).take (n + 1)) = byteLength (r.take n) + 1 := by
  rw [List.take_succ_cons, byteLength_cons, Nat.add_comm]
  rfl

theorem scanInlineBlock_eq (h : RestAt t place ('@' :: r)) :
    scanInlineBlock t base place ('@' :: r)
      = .ok (inPlaces place ('@' :: r) (readInlineBlock? (base + place) ('@' :: r))) := by
  rw [scanInlineBlock, Opening.stop?, readInlineBlock?]
  cases hopening : Opening.inlineBlock.length? ('@' :: r) with
  | none => rfl
  | some k =>
    obtain ⟨inner, -, hbrace, -, -⟩ := Opening.partsLength?_word hopening
    obtain rfl : r = '{' :: inner := by simpa using hbrace
    have brace : RestAt t (place + 1) ('{' :: inner) := h.cons
    simp only [Option.map_some, scanCloser_eq brace, ok_bind, List.drop_one, List.tail_cons,
      Option.bind_eq_bind, Option.bind_some]
    cases hclose : Bracket.brace.matchCode? ('{' :: inner) with
    | none => rfl
    | some n =>
      obtain ⟨_, _, -, hn⟩ := Bracket.brace_matchCode?_eq_some hclose
      have cut := brace.slice_behind rfl (n := n) (by omega)
      have stop : place + 1 + byteLength (('{' :: inner).take n) + 1
          = place + byteLength (('@' :: '{' :: inner).take (n + 2)) := by
        rw [byteLength_take_succ, Bracket.byteLength_take_matchCode? rfl hclose]
        omega
      have code : (('@' :: '{' :: inner).take (n + 1)).drop 2 = (('{' :: inner).take n).drop 1 := by
        rw [List.take_succ_cons, List.drop_succ_cons]
      simp only [Option.map_some, cut, ok_bind, stop, codeAt_eq, code, pure_eq_ok, inPlaces_some,
        Option.bind_some, Option.pure_def]

theorem scanParenthesised_eq (h : RestAt t place ('@' :: '(' :: r)) :
    scanParenthesised t base place = .ok (inPlaces place ('@' :: '(' :: r)
      (readParenthesised? (base + place) ('@' :: '(' :: r))) := by
  have paren : RestAt t (place + 1) ('(' :: r) := h.cons
  rw [scanParenthesised, scanCloser_eq paren, ok_bind, readParenthesised?]
  simp only [List.drop_one, List.tail_cons]
  cases hclose : Bracket.paren.matchCode? ('(' :: r) with
  | none => rfl
  | some n =>
    have stop : place + 1 + byteLength (('(' :: r).take n) + 1
        = place + byteLength (('@' :: '(' :: r).take (n + 2)) := by
      rw [byteLength_take_succ, Bracket.byteLength_take_matchCode? rfl hclose]
      omega
    have cut := h.slice_behind rfl (n := n + 2) (by omega)
    rw [List.drop_one] at cut
    simp only [Option.map_some, stop, cut, ok_bind, codeAt_eq, pure_eq_ok, inPlaces_some]

theorem scanOutput_eq (h : RestAt t place ('@' :: r)) :
    scanOutput t base place ('@' :: r)
      = .ok (inPlaces place ('@' :: r) (readOutput? (base + place) ('@' :: r))) := by
  by_cases hparen : ∃ inner, r = '(' :: inner
  · obtain ⟨inner, rfl⟩ := hparen
    exact scanParenthesised_eq base h
  · have scanned : scanOutput t base place ('@' :: r) = scanExpression t base place := by
      unfold scanOutput
      split
      · exact absurd ⟨_, (List.cons.inj ‹_›).2⟩ hparen
      · rfl
    have name : r.head? ≠ some '(' := fun hhead =>
      hparen (List.head?_eq_some_iff.1 hhead)
    rw [scanned, readOutput?_eq, if_neg name, scanExpression_eq base h]

theorem orElse_ok {α : Type} (first second : Option α) :
    orElse (.ok first) (.ok second) = .ok (first <|> second) := by
  cases first <;> rfl

theorem inPlaces_orElse {α : Type} (place : Nat) (s : List Char) (first second : Option (α × Nat)) :
    inPlaces place s (first <|> second) = (inPlaces place s first <|> inPlaces place s second) := by
  cases first <;> rfl

theorem scanCode_eq (h : RestAt t place ('@' :: r)) :
    scanCode t base place ('@' :: r) = .ok (inPlaces place ('@' :: r)
      (readDirective? (base + place) ('@' :: r)
        <|> readIfChain? (base + place) ('@' :: r)
        <|> readForeach? (base + place) ('@' :: r)
        <|> readInlineBlock? (base + place) ('@' :: r)
        <|> readOutput? (base + place) ('@' :: r))) := by
  rw [scanCode, readDirective?]
  cases Directive.read? ('@' :: r) with
  | some d =>
    simp only [codeAt_eq]
    rfl
  | none =>
    simp only [scanIfChain_eq h, scanForeach_eq h, scanInlineBlock_eq base h, scanOutput_eq base h,
      orElse_ok, inPlaces_orElse]
    rfl

end Constructs

/-- The character in front of a place decides whether an `@` begins anything. -/
theorem scanBehindWord_eq (u s : List Char) (afterExpression : Bool) :
    scanBehindWord (u ++ s) afterExpression (byteLength u)
      = .ok (!afterExpression && u.getLast?.any isLetterOrDigit) := by
  have before := sliceTo_take (u ++ s) u.length
  rw [List.take_left] at before
  cases afterExpression with
  | true => rfl
  | false =>
    rw [scanBehindWord, before]
    rfl

/-- The construct that the `@` at a place begins. -/
theorem scanRazor_eq {u r : List Char} (base : Nat) (afterExpression : Bool) :
    scanRazor (u ++ '@' :: r) base afterExpression (byteLength u)
      = .ok (inPlaces (byteLength u) ('@' :: r)
          (readRazor? (base + byteLength u) u.getLast? afterExpression ('@' :: r))) := by
  have h : RestAt (u ++ '@' :: r) (byteLength u) ('@' :: r) := ⟨u, rfl, rfl⟩
  rw [scanRazor, h.sliceFrom, ok_bind]
  split
  · -- the mark `@@`
    rename_i r heq
    obtain rfl := (List.cons.inj heq).2
    rfl
  · rename_i inner heq
    obtain rfl : r = '*' :: inner := (List.cons.inj heq).2
    exact scanTemplateComment_eq base h
  · rename_i hmark hcomment
    have noMark : r.head? ≠ some '@' := fun hhead => by
      obtain ⟨rest, rfl⟩ := List.head?_eq_some_iff.1 hhead
      exact hmark rest rfl
    have noComment : r.head? ≠ some '*' := fun hhead => by
      obtain ⟨rest, rfl⟩ := List.head?_eq_some_iff.1 hhead
      exact hcomment rest rfl
    rw [scanBehindWord_eq, ok_bind, scanCode_eq base h, readRazor?_eq_of_ne noMark noComment]
    split <;> rfl

end RazorLayout.Template

import RazorLayout.Proofs.Source.Markup

/-!
# Reading blocks by places

The condition and the body of a block are cut out of the text one byte behind their opener, and the
block goes on one byte behind their closer. Both are right because the delimiters are found where
they are: the opening of a block ends with its parenthesis or brace, and a closer is found only at a
closer. A chain of branches is one loop, and every branch moves it forward.

## Main results

* `scanConditionLine_eq`: a line of a condition, cut at its comment
* `scanBlock_eq`: one block
* `scanIfChain_eq`, `scanForeach_eq`: chains of branches and loops
-/

namespace RazorLayout.Code

open Text

namespace Bracket

/-- A closer that is found is one byte wide. -/
theorem byteLength_take_matchCode? {b : Bracket} (hb : b.closer.utf8Size = 1) {s : List Char}
    {k : Nat} (h : b.matchCode? s = some k) :
    byteLength (s.take (k + 1)) = byteLength (s.take k) + 1 := by
  obtain ⟨inner, rest, rfl, hk⟩ := matchCodeFrom_eq_some h
  obtain rfl : inner.length = k := by omega
  exact byteLength_take_delimiter hb inner rest

theorem byteLength_take_matchPlain? {b : Bracket} (hb : b.closer.utf8Size = 1) {s : List Char}
    {k : Nat} (h : b.matchPlain? s = some k) :
    byteLength (s.take (k + 1)) = byteLength (s.take k) + 1 := by
  obtain ⟨inner, rest, rfl, hk⟩ := matchPlainFrom_eq_some h
  obtain rfl : inner.length = k := by omega
  exact byteLength_take_delimiter hb inner rest

end Bracket

end RazorLayout.Code

namespace RazorLayout.Template

open Text Code

/-! ### Openings -/

namespace Opening

/-- An opening that ends with a delimiter of one byte, of which the text behind begins with `c`. -/
def EndsAt (c : Char) (s : List Char) (n : Nat) : Prop :=
  ∃ u rest, s = u ++ c :: rest ∧ n = u.length + 1

/-- The place of the delimiter. -/
theorem EndsAt.delimiter {c : Char} {s : List Char} {n : Nat} (h : EndsAt c s n)
    (hc : c.utf8Size = 1) (place : Nat) :
    place + byteLength (s.take n) - 1 = place + byteLength (s.take (n - 1)) := by
  obtain ⟨u, rest, rfl, rfl⟩ := h
  rw [byteLength_take_delimiter hc, Nat.add_sub_cancel, ← Nat.add_assoc, Nat.add_sub_cancel]

theorem EndsAt.drop {c : Char} {s : List Char} {n : Nat} (h : EndsAt c s n) :
    ∃ rest, s.drop (n - 1) = c :: rest := by
  obtain ⟨u, rest, rfl, rfl⟩ := h
  exact ⟨rest, by rw [Nat.add_sub_cancel, List.drop_left]⟩

theorem endsAt_keyword {w : List Char} {c : Char} {s : List Char} {n : Nat}
    (h : partsLength? [.word w, .blanks, .word [c]] s = some n) : EndsAt c s n := by
  obtain ⟨gap, rest, rfl, -, rfl⟩ := partsLength?_keyword h
  exact ⟨_, rest, rfl, rfl⟩

theorem endsAt_elseIfBlock {s : List Char} {n : Nat} (h : elseIfBlock.length? s = some n) :
    EndsAt '(' s n := by
  obtain ⟨gap₁, gap₂, rest, rfl, -, -, rfl⟩ := elseIfBlock_length? h
  exact ⟨_, rest, rfl, rfl⟩

end Opening

/-! ### Conditions and bodies -/

theorem scanConditionLine_eq (line : List Char) :
    scanConditionLine line = .ok (conditionLine line) := by
  simp only [scanConditionLine, conditionLine]
  cases hstart : lineCommentStart? .csharp line with
  | none => rfl
  | some n =>
    obtain ⟨u, note, rfl, hn⟩ := lineCommentFrom_eq_some rfl hstart
    obtain rfl : u.length = n := by omega
    -- the note is cut two bytes behind the code, which is where the slashes end
    have slashes : RestAt (u ++ ['/', '/'] ++ note) (byteLength (u ++ ['/', '/'])) note :=
      ⟨_, rfl, rfl⟩
    have two : byteLength (u ++ ['/', '/']) = byteLength u + 2 := by rw [byteLength_append]; rfl
    rw [two, List.append_assoc, List.cons_append, List.cons_append, List.nil_append] at slashes
    have code := sliceTo_take (u ++ '/' :: '/' :: note) u.length
    have behind : (u ++ '/' :: '/' :: note).drop (u.length + 2) = note := by
      rw [← List.drop_drop, List.drop_left]
      rfl
    simp only [List.take_left] at code
    simp only [Option.map_some, List.take_left, code, behind, ok_bind]
    rw [slashes.sliceFrom, ok_bind]
    split <;> rfl

theorem mapM_scanConditionLine (condition : List Char) :
    (lines condition).mapM scanConditionLine = .ok ((lines condition).map conditionLine) := by
  induction lines condition with
  | nil => rfl
  | cons line rest ih =>
    rw [List.mapM_cons, scanConditionLine_eq, ok_bind, ih, ok_bind, List.map_cons, pure_eq_ok]

section Constructs

variable {t s r : List Char} {place : Nat}

theorem scanCondition_eq (h : RestAt t place ('(' :: r)) :
    scanCondition t place = .ok ((readCondition? ('(' :: r)).map fun (condition, n) =>
      (condition, place + byteLength (('(' :: r).take (n - 1)))) := by
  rw [scanCondition, scanCloser_eq h, ok_bind, readCondition?]
  cases hclose : Bracket.paren.matchCode? ('(' :: r) with
  | none => rfl
  | some k =>
    obtain ⟨_, _, -, hk⟩ := Bracket.paren_matchCode?_eq_some hclose
    have cut := h.slice_behind rfl (n := k) (by omega)
    simp only [Option.map_some, cut, ok_bind, mapM_scanConditionLine, pure_eq_ok, Nat.add_sub_cancel]
    rfl

theorem scanBraces_eq (h : RestAt t place ('{' :: r)) :
    scanBraces t place = .ok (inPlaces place ('{' :: r) (readBraces? ('{' :: r))) := by
  rw [scanBraces, scanCloser_eq h, ok_bind, readBraces?]
  cases hclose : Bracket.brace.matchPlain? ('{' :: r) with
  | none => rfl
  | some k =>
    obtain ⟨_, _, -, hk⟩ := Bracket.brace_matchPlain?_eq_some hclose
    have cut := h.slice_behind rfl (n := k) (by omega)
    have closer := Bracket.byteLength_take_matchPlain? rfl hclose
    simp only [Option.map_some, cut, ok_bind, pure_eq_ok, inPlaces_some, closer, Nat.add_assoc]

theorem scanBody_eq (h : RestAt t place s) :
    scanBody t place = .ok (inPlaces place s (readBody? s)) := by
  have opening := h.drop (countWhile isBlank s)
  rw [scanBody, skipBlanks_eq h, ok_bind, opening.sliceFrom, ok_bind, readBody?]
  cases hrest : s.drop (countWhile isBlank s) with
  | nil => rfl
  | cons c rest =>
    rw [hrest] at opening
    by_cases hc : c = '{'
    · subst hc
      have braces := scanBraces_eq opening
      rw [← hrest, inPlaces_drop, hrest] at braces
      simp only [List.head?_cons, beq_self_eq_true, if_true, braces]
    · simp [hc]

/-- A block, whose opening ends with its parenthesis. -/
theorem scanBlock_eq (h : RestAt t place s) {k : Nat} (hk : Opening.EndsAt '(' s k) (base : Nat)
    (kind : CodeKind) (word : List Char) :
    scanBlock t base kind word place (place + byteLength (s.take (k - 1)))
      = .ok (inPlaces place s (readBlock? kind word (base + place) k s)) := by
  obtain ⟨r, hdrop⟩ := hk.drop
  have opening := h.drop (k - 1)
  rw [hdrop] at opening
  rw [scanBlock, scanCondition_eq opening, ok_bind, readBlock?, hdrop]
  cases hcondition : readCondition? ('(' :: r) with
  | none => rfl
  | some found =>
    obtain ⟨condition, n⟩ := found
    have close : byteLength (('(' :: r).take n) = byteLength (('(' :: r).take (n - 1)) + 1 := by
      simp only [readCondition?, Option.map_eq_some_iff, Prod.mk.injEq] at hcondition
      obtain ⟨closer, hcloser, -, rfl⟩ := hcondition
      exact Bracket.byteLength_take_matchCode? rfl hcloser
    -- the body is looked for behind the closer of the condition
    have behind : RestAt t (place + byteLength (s.take (k - 1 + n))) (s.drop (k - 1 + n)) :=
      h.drop _
    have place' : place + byteLength (s.take (k - 1)) + byteLength (('(' :: r).take (n - 1)) + 1
        = place + byteLength (s.take (k - 1 + n)) := by
      rw [byteLength_take_add, hdrop, close]
      omega
    simp only [Option.map_some, place', scanBody_eq behind, ok_bind, pure_eq_ok, inPlaces_drop,
      Option.bind_eq_bind, Option.bind_some, Option.pure_def]
    cases readBody? (s.drop (k - 1 + n)) with
    | none => rfl
    | some body => simp only [Option.map_some, inPlaces_some, Option.bind_some, Nat.add_assoc]

end Constructs

/-! ### Chains of branches -/

/-- A branch takes at least one character, and it ends where its node ends. -/
theorem chainStep_eq_some {chain chain' : Chain} {s : List Char} {n : Nat}
    (h : chainStep chain s = some (chain', n)) :
    0 < n ∧ chain'.length = chain.length + n ∧
      chain'.pos = chain.pos + byteLength (s.take n) := by
  simp only [chainStep, Option.ite_none_right_eq_some, Option.map_eq_some_iff, Prod.mk.injEq,
    Prod.exists] at h
  obtain ⟨-, node, m, more, hbranch, rfl, rfl⟩ := h
  have block := isBlockAt_readBranch? hbranch
  have := block.progress
  refine ⟨by omega, by simp only; omega, ?_⟩
  simp only [byteLength_take_add, block.span_eq, Nat.add_assoc]

section Chains

variable {t s : List Char} {base : Nat}

/-- A round reads one branch, behind the blanks in front of it. -/
theorem chainRound_eq (base : Nat) {st : ChainProgress} (h : RestAt t st.place s) :
    chainRound t base st = .ok (
      let gap := countWhile isBlank s
      match readBranch? (base + st.place + byteLength (s.take gap)) (s.drop gap) with
      | none => .done st
      | some (node, n, more) =>
        let next : ChainProgress := ⟨st.place + byteLength (s.take (gap + n)), node :: st.branches⟩
        if more then .again next else .done next) := by
  have start := h.drop (countWhile isBlank s)
  have whole (n : Nat) : st.place + byteLength (s.take (countWhile isBlank s + n))
      = st.place + byteLength (s.take (countWhile isBlank s))
        + byteLength ((s.drop (countWhile isBlank s)).take n) := by
    rw [byteLength_take_add, Nat.add_assoc]
  rw [chainRound, skipBlanks_eq h, ok_bind, start.sliceFrom, ok_bind]
  simp only [whole, readBranch?, Opening.stop?, Nat.add_assoc base]
  generalize st.place + byteLength (s.take (countWhile isBlank s)) = place at *
  generalize s.drop (countWhile isBlank s) = rest at *
  cases hif : Opening.elseIfBlock.length? rest with
  | some k =>
    have ends := Opening.endsAt_elseIfBlock hif
    simp only [Option.map_some, ends.delimiter rfl, scanBlock_eq start ends, ok_bind]
    cases readBlock? .elseIfBlock "else if".toList (base + place) k rest <;> rfl
  | none =>
    cases helse : Opening.elseBlock.length? rest with
    | none => rfl
    | some k =>
      have ends := Opening.endsAt_keyword helse
      obtain ⟨r, hdrop⟩ := ends.drop
      have opening := start.drop (k - 1)
      rw [hdrop] at opening
      have braces := scanBraces_eq opening
      rw [← hdrop, inPlaces_drop] at braces
      simp only [Option.map_some, ends.delimiter rfl, Option.map_none, braces, ok_bind]
      cases readBraces? (rest.drop (k - 1)) with
      | none => rfl
      | some found =>
        simp only [inPlaces_some, Option.map_some, pure_eq_ok, Bool.false_eq_true, if_false]

/-- The chain that a reader finds when it goes on in front of a text. -/
def chainFrom (base : Nat) (x : Chain × List Char) : ChainProgress :=
  let (chain, _) := advance chainStep 0 x.1 x.2
  ⟨chain.pos - base, chain.branches⟩

/-- A chain that a reader is reading as well, in front of a text. -/
structure ChainProgress.Follows (t : List Char) (base : Nat) (st : ChainProgress)
    (x : Chain × List Char) : Prop where
  rest : RestAt t st.place x.2
  branches_eq : x.1.branches = st.branches
  pos_eq : x.1.pos = base + st.place
  mayContinue : x.1.mayContinue = true

theorem chainRound_keeps {st : ChainProgress} {x : Chain × List Char} (h : st.Follows t base x) :
    RoundKeeps (byteLength t) ChainProgress.place (chainRound t base)
      (ChainProgress.Follows t base) (chainFrom base) st x := by
  obtain ⟨chain, s⟩ := x
  obtain ⟨hrest, hbranches, hpos, hmore⟩ := h
  dsimp only at hrest hbranches hpos hmore
  have round := chainRound_eq base hrest
  simp only [← hpos] at round
  cases hbranch : readBranch? (chain.pos + byteLength (s.take (countWhile isBlank s)))
      (s.drop (countWhile isBlank s)) with
  | none =>
    have declines : chainStep chain s = none := by
      simp only [chainStep, hmore, if_true, hbranch, Option.map_none]
    rw [RoundKeeps, round, hbranch, chainFrom, advance_of_none declines]
    exact .inl (by simp only [hpos, hbranches, Nat.add_sub_cancel_left])
  | some found =>
    obtain ⟨node, n, more⟩ := found
    have step : chainStep chain s = some
        (⟨node :: chain.branches, chain.length + countWhile isBlank s + n, node.span.stop, more⟩,
          countWhile isBlank s + n) := by
      simp only [chainStep, hmore, if_true, hbranch, Option.map_some]
    have hne : s ≠ [] := by
      rintro rfl
      cases hbranch
    rw [hbranch] at round
    dsimp only at round
    generalize countWhile isBlank s + n = m at *
    obtain ⟨hm, -, hstop⟩ := chainStep_eq_some step
    dsimp only at hstop
    have behind := hrest.drop m
    have moved := byteLength_pos (s := s.take m) (by simpa [hne] using hm.ne')
    have bound := behind.add_byteLength
    have further := advance_of_step step hm hne
    cases more with
    | true =>
      refine .inr ⟨_, (⟨node :: chain.branches, chain.length + countWhile isBlank s + n,
        node.span.stop, true⟩, s.drop m), round, ?_, ?_, ⟨behind, ?_, ?_, rfl⟩, ?_⟩
      · simpa using moved
      · dsimp only
        omega
      · rw [hbranches]
      · dsimp only
        omega
      · rw [chainFrom, chainFrom, further]
    | false =>
      -- behind `else` the scanner is done, and the reader has no further step
      refine .inl (round.trans ?_)
      rw [chainFrom, further, advance_of_none (by simp [chainStep])]
      simp only [hbranches, hstop, hpos, Nat.add_assoc, Nat.add_sub_cancel_left, Bool.false_eq_true,
        if_false]

/-- Where a chain ends. -/
theorem chain_pos (s : List Char) (pos : Nat) {c : Chain}
    (hpos : c.pos = pos + byteLength (s.take c.length)) :
    (advance chainStep 0 c (s.drop c.length)).1.pos = pos
      + byteLength (s.take (advance chainStep 0 c (s.drop c.length)).1.length) := by
  refine (advance_invariant (I := fun (chain : Chain) rest => rest = s.drop chain.length ∧
    chain.pos = pos + byteLength (s.take chain.length)) ?_ c _ ⟨rfl, hpos⟩).2
  rintro chain _ chain' n - ⟨rfl, hpos⟩ hstep
  obtain ⟨hn, hlength, hpos'⟩ := chainStep_eq_some hstep
  refine ⟨hn, ?_, ?_⟩
  · rw [hlength, List.drop_drop]
  · rw [hpos', hpos, hlength, byteLength_take_add, Nat.add_assoc]

section Blocks

variable {place : Nat} (h : RestAt t place s)

include h

theorem scanIfChain_eq :
    scanIfChain t base place s = .ok (inPlaces place s (readIfChain? (base + place) s)) := by
  rw [scanIfChain, Opening.stop?, readIfChain?]
  cases hk : Opening.ifBlock.length? s with
  | none => rfl
  | some k =>
    have ends := Opening.endsAt_keyword hk
    simp only [Option.map_some, ends.delimiter rfl, scanBlock_eq h ends, ok_bind,
      Option.bind_eq_bind, Option.bind_some]
    cases hfirst : readBlock? .ifBlock "if".toList (base + place) k s with
    | none => rfl
    | some found =>
      obtain ⟨first, length⟩ := found
      have block := isBlockAt_readBlock? rfl hfirst
      have stop : first.span.stop = base + place + byteLength (s.take length) := by
        rw [block.span_eq]
      have start : ChainProgress.Follows t base ⟨place + byteLength (s.take length), [first]⟩
          (⟨[first], length, first.span.stop, true⟩, s.drop length) :=
        ⟨h.drop length, rfl, stop.trans (Nat.add_assoc ..), rfl⟩
      have chain := loop_eq_ok (fun _ _ => chainRound_keeps) start
      have reached := chain_pos s _ (c := ⟨[first], length, first.span.stop, true⟩) stop
      simp only [inPlaces_some, chain, ok_bind, chainFrom, Option.bind_some, Option.pure_def,
        reached, pure_eq_ok, Nat.add_assoc, Nat.add_sub_cancel_left]

theorem scanForeach_eq :
    scanForeach t base place s = .ok (inPlaces place s (readForeach? (base + place) s)) := by
  rw [scanForeach, Opening.stop?, readForeach?]
  cases hk : Opening.foreachBlock.length? s with
  | none => rfl
  | some k =>
    have ends := Opening.endsAt_keyword hk
    simp only [Option.map_some, ends.delimiter rfl, scanBlock_eq h ends, ok_bind,
      Option.bind_eq_bind, Option.bind_some]
    cases readBlock? .foreachBlock "foreach".toList (base + place) k s <;> rfl

end Blocks

end Chains

end RazorLayout.Template

import RazorLayout.Proofs.Template.Depth
import RazorLayout.Proofs.Template.InlineCode

/-!
# Code that is its own template

An expression, a comment or a directive is written as its code behind an `@`. Read alone, what is
written is one node again, with the same code. Several constructs compete for an `@`, and the text
behind it may decide which of them is read: `@if(x)` is an expression only where no body follows.
But a reader that declines a text declines every beginning of it, and a reader that takes a
beginning of a text takes it when it stands alone.

## Main definitions

* `CodeBlock.isVerbatim`: code that is written as it is
* `Holds`: the nodes of a tree

## Main results

* `readBlock?_append`: a block is read whatever stands behind it
* `readDirective?_of_append`, `readIfChain?_of_append`, `readForeach?_of_append`,
  `readInlineBlock?_of_append`: what is declined in front of a text is declined without it
* `advance_expressionTail_split`: how far an expression reaches is seen from itself
* `readNested_verbatim`: code that is written as it is is read back
-/

namespace RazorLayout

/-- Expressions, comments and directives of one line are written as they are, behind an `@`. -/
def CodeBlock.isVerbatim (block : CodeBlock) : Bool :=
  match block.kind with
  | .expression | .statement => true
  | .directive => !block.isSection
  | _ => false

theorem CodeBlock.isVerbatim_of_isControl {block : CodeBlock} (h : block.kind.isControl = true) :
    block.isVerbatim = false := by
  unfold isVerbatim
  split <;> simp_all [CodeKind.isControl]

end RazorLayout

namespace RazorLayout.Template

open Text Code

/-! ### Constructs in front of a text -/

/-- An opening is found whatever stands behind it. -/
theorem partsLength?_keyword_append {w : List Char} {c : Char} (hc : isBlank c = false)
    {s : List Char} {n : Nat}
    (h : Opening.partsLength? [.word w, .blanks, .word [c]] s = some n) (rest : List Char) :
    Opening.partsLength? [.word w, .blanks, .word [c]] (s ++ rest) = some n := by
  obtain ⟨gap, behind, rfl, hgap, rfl⟩ := Opening.partsLength?_keyword h
  rw [List.append_assoc _ (c :: behind), List.cons_append]
  exact Opening.partsLength?_of_keyword w hgap hc (behind ++ rest)

theorem readCondition?_append {s condition : List Char} {n : Nat}
    (h : readCondition? s = some (condition, n)) (rest : List Char) :
    readCondition? (s ++ rest) = some (condition, n) ∧ 0 < n ∧ n ≤ s.length := by
  simp only [readCondition?, Option.map_eq_some_iff, Prod.mk.injEq] at h
  obtain ⟨k, hk, rfl, rfl⟩ := h
  have found := Bracket.matchCode?_append (b := .paren) (by decide) hk rest
  obtain ⟨inner, behind, rfl, rfl⟩ := Bracket.matchCodeFrom_eq_some hk
  refine ⟨?_, by omega, by simp⟩
  rw [readCondition?, found, Option.map_some,
    List.take_append_of_le_length (by simp)]

theorem readBraces?_append {s body : List Char} {n : Nat} (h : readBraces? s = some (body, n))
    (rest : List Char) : readBraces? (s ++ rest) = some (body, n) := by
  simp only [readBraces?, Option.map_eq_some_iff, Prod.mk.injEq] at h
  obtain ⟨k, hk, rfl, rfl⟩ := h
  have found := Bracket.matchPlain?_append hk rest
  obtain ⟨inner, behind, rfl, rfl⟩ := Bracket.matchPlainFrom_eq_some hk
  rw [readBraces?, found, Option.map_some, List.take_append_of_le_length (by simp)]

theorem readBody?_append {s body : List Char} {n : Nat} (h : readBody? s = some (body, n))
    (rest : List Char) : readBody? (s ++ rest) = some (body, n) := by
  obtain ⟨gap, behind, rfl, hgap, -⟩ := readBody?_eq_some h
  rw [List.append_assoc gap, List.cons_append, readBody?_brace hgap] at h
  simp only [Option.map_eq_some_iff, Prod.exists, Prod.mk.injEq] at h
  obtain ⟨body', m, hm, rfl, rfl⟩ := h
  have read := readBraces?_append hm rest
  rw [List.append_assoc gap, List.cons_append, List.append_assoc gap, List.cons_append,
    readBody?_brace hgap]
  rw [List.cons_append] at read
  rw [read, Option.map_some]

/-- A block is read whatever stands behind it, and wherever it stands. -/
theorem readBlock?_append {kind : CodeKind} {word : List Char} {pos k n : Nat} {s : List Char}
    {node : Node} (h : readBlock? kind word pos k s = some (node, n)) (pos' : Nat)
    (rest : List Char) : readBlock? kind word pos' k (s ++ rest) ≠ none := by
  simp only [readBlock?, Option.bind_eq_bind, Option.bind_eq_some_iff, Option.pure_def,
    Option.some.injEq, Prod.mk.injEq, Prod.exists] at h
  obtain ⟨condition, m, hcondition, body, m', hbody, -, -⟩ := h
  obtain ⟨read, hm, hle⟩ := readCondition?_append hcondition rest
  rw [List.length_drop] at hle
  rw [← List.drop_append_of_le_length (by omega)] at read
  have read' := readBody?_append hbody rest
  rw [← List.drop_append_of_le_length (by omega)] at read'
  simp [readBlock?, read, read']

/-! ### What is declined -/

/-- A reader declines a text that it declines when something stands behind it. -/
theorem readDirective?_of_append {pos pos' : Nat} {s rest : List Char}
    (h : readDirective? pos ('@' :: (s ++ rest)) = none) :
    readDirective? pos' ('@' :: s) = none := by
  have none : Directive.read? ('@' :: (s ++ rest)) = none := by simpa [readDirective?] using h
  rw [Directive.read?, List.findSome?_eq_none_iff] at none
  suffices Directive.read? ('@' :: s) = Option.none by simp [readDirective?, this]
  rw [Directive.read?, List.findSome?_eq_none_iff]
  intro keyword hkeyword
  rw [Option.eq_none_iff_forall_ne_some]
  intro d hd
  obtain ⟨gap, raw, behind, rfl, harg, -⟩ := Directive.exists_argument hd
  refine harg.readWith?_ne_none keyword (behind ++ rest) ?_
  rw [← List.append_assoc]
  exact none keyword hkeyword

/-- A block is not read if it is not read in front of a text. -/
theorem readBlock?_of_append {kind : CodeKind} {w word : List Char} {pos pos' : Nat}
    {s rest : List Char}
    (h : ∀ n, Opening.partsLength? [.word w, .blanks, .word ['(']] (s ++ rest) = some n →
      readBlock? kind word pos n (s ++ rest) = none) (n : Nat)
    (hn : Opening.partsLength? [.word w, .blanks, .word ['(']] s = some n) :
    readBlock? kind word pos' n s = none := by
  rw [Option.eq_none_iff_forall_ne_some]
  rintro ⟨node, length⟩ hread
  have opened := partsLength?_keyword_append (by decide) hn rest
  exact readBlock?_append hread pos rest (h n opened)

theorem readIfChain?_eq_none_iff {pos : Nat} {s : List Char} :
    readIfChain? pos s = none ↔ ∀ n, Opening.ifBlock.length? s = some n →
      readBlock? .ifBlock "if".toList pos n s = none := by
  simp only [readIfChain?, Option.bind_eq_bind, Option.bind_eq_none_iff, Option.pure_def,
    reduceCtorEq, imp_false]
  simp only [Option.eq_none_iff_forall_ne_some, ne_eq]

theorem readForeach?_eq_none_iff {pos : Nat} {s : List Char} :
    readForeach? pos s = none ↔ ∀ n, Opening.foreachBlock.length? s = some n →
      readBlock? .foreachBlock "foreach".toList pos n s = none := by
  simp only [readForeach?, Option.bind_eq_bind, Option.bind_eq_none_iff, Option.pure_def,
    reduceCtorEq, imp_false]
  simp only [Option.eq_none_iff_forall_ne_some, ne_eq]

theorem readIfChain?_of_append {pos pos' : Nat} {s rest : List Char}
    (h : readIfChain? pos (s ++ rest) = none) : readIfChain? pos' s = none :=
  readIfChain?_eq_none_iff.2 (readBlock?_of_append (readIfChain?_eq_none_iff.1 h))

theorem readForeach?_of_append {pos pos' : Nat} {s rest : List Char}
    (h : readForeach? pos (s ++ rest) = none) : readForeach? pos' s = none :=
  readForeach?_eq_none_iff.2 (readBlock?_of_append (readForeach?_eq_none_iff.1 h))

theorem readInlineBlock?_of_append {pos pos' : Nat} {s rest : List Char}
    (h : readInlineBlock? pos ('@' :: (s ++ rest)) = none) :
    readInlineBlock? pos' ('@' :: s) = none := by
  rw [Option.eq_none_iff_forall_ne_some]
  rintro ⟨nodes, length⟩ hread
  simp only [readInlineBlock?, Option.bind_eq_bind, Option.bind_eq_some_iff, Option.pure_def,
    List.drop_one, List.tail_cons] at hread
  obtain ⟨k, hk, n, hn, -⟩ := hread
  obtain ⟨behind, m, hs, -, -⟩ := Opening.partsLength?_word hk
  obtain rfl : s = '{' :: behind := by simpa using hs
  have found := Bracket.matchCode?_append (b := .brace) (by decide) hn rest
  rw [List.cons_append] at found
  simp [readInlineBlock?, Opening.length?, Opening.parts, Opening.partsLength?,
    OpeningPart.length?, List.isPrefixOf, found] at h

/-! ### How far an expression reaches -/

theorem countWhile_of_append {p : Char → Bool} {s : List Char} (rest : List Char)
    (h : countWhile p (s ++ rest) ≤ s.length) : countWhile p s = countWhile p (s ++ rest) := by
  rw [countWhile, countWhile, List.takeWhile_append]
  split
  · rename_i hall
    rw [countWhile, List.takeWhile_append, if_pos hall, List.length_append] at h
    rw [List.length_append]
    omega
  · rfl

/-- A name that ends in a beginning of the text is the same in the beginning alone. -/
theorem partsLength?_identifier_of_append {w s rest : List Char} {n : Nat}
    (h : Opening.partsLength? [.word w, .identifier] (s ++ rest) = some n) (hn : n ≤ s.length) :
    Opening.partsLength? [.word w, .identifier] s = some n := by
  obtain ⟨c, behind, hs, hc, rfl⟩ := Opening.partsLength?_identifier_iff.1 h
  -- the word and the first character of the name lie in the beginning
  have short : (w ++ [c]).length ≤ s.length := by
    rw [List.length_append, List.length_singleton]
    omega
  obtain ⟨name, rfl⟩ : w ++ [c] <+: s :=
    List.prefix_of_prefix_length_le ⟨behind, by simpa using hs.symm⟩ (List.prefix_append s rest)
      short
  obtain rfl : name ++ rest = behind := by simpa using hs
  have same := countWhile_of_append (p := isIdentifierRest) (s := name) rest (by
    simp only [List.length_append, List.length_singleton] at hn
    omega)
  exact Opening.partsLength?_identifier_iff.2 ⟨c, name, by simp, hc, by rw [same]⟩

/-- One step on from an expression that ends in a beginning of the text is the same in the beginning
alone. -/
theorem expressionTail_of_append {length length' n : Nat} {s rest : List Char}
    (h : expressionTail length (s ++ rest) = some (length', n)) (hn : n ≤ s.length) :
    expressionTail length s = some (length', n) := by
  obtain ⟨rfl, hmember | ⟨b, inside, k, hb, hs, hk, rfl⟩⟩ := expressionTail_eq_some_iff.1 h
  · have member := partsLength?_identifier_of_append hmember hn
    exact expressionTail_eq_some_iff.2 ⟨rfl, .inl member⟩
  · have hcloser : b.closer ∉ marks := by rcases hb with rfl | rfl <;> decide
    have found := Bracket.matchCode?_of_append hcloser hk hn
    cases s with
    | nil => simp at hn
    | cons c s =>
      obtain rfl : c = b.opener := (List.cons.inj hs).1
      exact expressionTail_eq_some_iff.2 ⟨rfl, .inr ⟨b, s, k, hb, rfl, found, rfl⟩⟩

/-- What an expression takes, it takes when it stands alone. -/
theorem advance_expressionTail_split {length total : Nat} {s rest : List Char}
    (h : advance expressionTail 0 length s = (total, rest)) :
    ∃ u, s = u ++ rest ∧ total = length + u.length ∧
      advance expressionTail 0 length u = (total, []) := by
  induction hn : s.length using Nat.strong_induction_on generalizing length s with
  | _ n ih =>
    cases hstep : expressionTail length s with
    | none =>
      rw [advance_of_none hstep] at h
      obtain ⟨rfl, rfl⟩ := Prod.mk.inj h
      exact ⟨[], rfl, rfl, rfl⟩
    | some next =>
      obtain ⟨length', k⟩ := next
      obtain ⟨rfl, hpos, hle⟩ := expressionTail_bounds hstep
      have hs : s ≠ [] := List.ne_nil_of_length_pos (by omega)
      rw [advance_of_step hstep hpos hs] at h
      obtain ⟨u, hu, rfl, hread⟩ := ih (s.drop k).length (by rw [List.length_drop]; omega) h rfl
      have cut : s = s.take k ++ u ++ rest := by
        rw [List.append_assoc, ← hu, List.take_append_drop]
      have hk : (s.take k).length = k := List.length_take_of_le hle
      refine ⟨s.take k ++ u, cut, by rw [List.length_append, hk]; omega, ?_⟩
      -- the step ends where the rest of the expression begins
      rw [cut] at hstep
      have step := expressionTail_of_append hstep (by rw [List.length_append, hk]; omega)
      rw [advance_of_step step hpos (by rw [← List.length_pos_iff, List.length_append]; omega),
        List.drop_left' hk, hread]

/-! ### Constructs alone -/

/-- Alone behind an `@`, the code is the one node that is read. -/
def ReadsAlone (block : CodeBlock) : Prop :=
  readRazor? 0 none false ('@' :: block.code)
    = some ([.code { block with span := ⟨0, byteLength ('@' :: block.code)⟩ }],
        block.code.length + 1)

theorem codeNode_cut (kind : CodeKind) (code rest : List Char) {s : List Char}
    (hs : s = '@' :: (code ++ rest)) {n : Nat} (hn : n = code.length + 1) (pos : Nat) :
    codeNode kind ((s.take n).drop 1) pos n s
      = .code ⟨kind, code, ⟨pos, pos + byteLength ('@' :: code)⟩⟩ := by
  rw [hs, hn, codeNode_append]

theorem readsAlone_of_readTemplateComment? {pos n : Nat} {s : List Char} {nodes : List Node}
    (h : readTemplateComment? pos ('@' :: '*' :: s) = some (nodes, n)) :
    ∃ block, nodes = [.code block] ∧ ReadsAlone block := by
  simp only [readTemplateComment?, Option.map_eq_some_iff, Prod.mk.injEq] at h
  obtain ⟨k, hk, rfl, rfl⟩ := h
  obtain ⟨note, rest, hs, rfl⟩ := find?_eq_some hk
  obtain rfl : s = note ++ ("*@".toList ++ rest) := hs
  -- the end of the comment is found in the comment
  have found : find? "*@".toList (note ++ '*' :: '@' :: []) = some note.length := by
    have hk : find? "*@".toList (note ++ ['*', '@'] ++ rest) = some note.length := by
      simpa using hk
    exact find?_of_append hk (by simp)
  have alone := readTemplateComment?_of_find? found 0
  rw [List.append_nil, Nat.zero_add] at alone
  have node := codeNode_cut .statement ('*' :: (note ++ ['*', '@'])) rest
    (s := '@' :: '*' :: (note ++ ("*@".toList ++ rest))) (n := note.length + 4) (by simp) (by simp)
    pos
  exact ⟨_, congrArg (fun node => [node]) node, alone⟩

/-- An expression in parentheses is read again when it stands alone. -/
theorem readParenthesised?_cut {pos n : Nat} {s : List Char} {nodes : List Node}
    (h : readParenthesised? pos ('@' :: '(' :: s) = some (nodes, n)) :
    ∃ inner rest span, s = inner ++ rest ∧ nodes = [.code ⟨.expression, '(' :: inner, span⟩] ∧
      readParenthesised? 0 ('@' :: '(' :: inner)
        = some ([.code ⟨.expression, '(' :: inner, ⟨0, byteLength ('@' :: '(' :: inner)⟩⟩],
            ('(' :: inner).length + 1) := by
  simp only [readParenthesised?, Option.map_eq_some_iff, Prod.mk.injEq] at h
  obtain ⟨k, hk, rfl, rfl⟩ := h
  obtain ⟨inner, rest, rfl, rfl⟩ := Bracket.paren_matchCode?_eq_some hk
  have found : Bracket.paren.matchCode? ('(' :: (inner ++ [')'])) = some (inner.length + 1) := by
    have hk : Bracket.paren.matchCode? ('(' :: (inner ++ [')']) ++ rest)
        = some (inner.length + 1) := by simpa using hk
    exact Bracket.matchCode?_of_append (by decide) hk (by simp)
  have node (pos : Nat) (rest : List Char) :=
    codeNode_cut .expression ('(' :: (inner ++ [')'])) rest
    (s := '@' :: '(' :: (inner ++ ')' :: rest)) (n := inner.length + 1 + 2) (by simp) (by simp) pos
  refine ⟨inner ++ [')'], rest, _, by simp, congrArg (fun node => [node]) (node pos rest), ?_⟩
  simp only [readParenthesised?, List.drop_succ_cons, List.drop_zero, found, Option.map_some]
  rw [node 0 [], Nat.zero_add]
  simp

/-- An expression with a name is read again when it stands alone. -/
theorem readExpression?_cut {pos n : Nat} {s : List Char} {nodes : List Node}
    (h : readExpression? pos ('@' :: s) = some (nodes, n)) :
    ∃ code rest span, s = code ++ rest ∧ code ≠ [] ∧ nodes = [.code ⟨.expression, code, span⟩] ∧
      readExpression? 0 ('@' :: code)
        = some ([.code ⟨.expression, code, ⟨0, byteLength ('@' :: code)⟩⟩], code.length + 1) := by
  simp only [readExpression?, Option.map_eq_some_iff, Prod.mk.injEq] at h
  obtain ⟨k, hk, rfl, rfl⟩ := h
  obtain ⟨-, hle, hlt⟩ := partsLength?_identifier_append hk endsExpression_nil
  obtain ⟨k, rfl⟩ := Nat.exists_eq_add_one_of_ne_zero (Nat.ne_of_gt (Nat.zero_lt_of_lt hlt))
  rw [List.drop_succ_cons]
  cases hreach : advance expressionTail 0 (k + 1) (s.drop k) with | mk total rest
  obtain ⟨u, hu, rfl, alone⟩ := advance_expressionTail_split hreach
  -- the code is the name and what goes on with it
  have hname : (s.take k).length = k := List.length_take_of_le (by simpa using hle)
  have cut : s = s.take k ++ u ++ rest := by
    rw [List.append_assoc, ← hu, List.take_append_drop]
  generalize s.take k = name at hname cut
  subst cut
  have length : k + 1 + u.length = (name ++ u).length + 1 := by
    rw [List.length_append, hname]
    omega
  have found : Opening.expression.length? ('@' :: (name ++ u)) = some (k + 1) := by
    refine partsLength?_identifier_of_append (s := '@' :: (name ++ u)) hk ?_
    rw [List.length_cons, ← length]
    omega
  have node (pos : Nat) (rest : List Char) := codeNode_cut .expression (name ++ u) rest
    (s := '@' :: (name ++ u ++ rest)) rfl length pos
  refine ⟨name ++ u, rest, _, rfl, ?_, congrArg (fun node => [node]) (node pos rest), ?_⟩
  · have : 0 < name.length := by simpa [hname] using hlt
    exact List.ne_nil_of_length_pos (by rw [List.length_append]; omega)
  · rw [readExpression?, found, Option.map_some, List.drop_succ_cons, List.drop_left' hname, alone]
    have node := node 0 []
    rw [List.append_nil, Nat.zero_add] at node
    dsimp only
    rw [node, length]

/-- Expressions are looked for last. -/
def readPlain? (pos : Nat) (s : List Char) : Option (List Node × Nat) :=
  if s.head? = some '(' then readParenthesised? pos ('@' :: s) else readExpression? pos ('@' :: s)

/-- The readers that are asked for an `@` which begins neither an at sign nor a comment. -/
theorem readRazor?_eq {s : List Char} (hat : s.head? ≠ some '@') (hstar : s.head? ≠ some '*')
    (pos : Nat) (previous : Option Char) (afterExpression : Bool) :
    readRazor? pos previous afterExpression ('@' :: s)
      = if !afterExpression && previous.any isLetterOrDigit then none
        else readDirective? pos ('@' :: s) <|> readIfChain? pos ('@' :: s)
          <|> readForeach? pos ('@' :: s) <|> readInlineBlock? pos ('@' :: s)
          <|> readPlain? pos s := by
  rw [readRazor?_eq_of_ne hat hstar, readOutput?_eq]
  rfl

theorem readsAlone_of_readDirective? {pos n : Nat} {s : List Char} {nodes : List Node}
    (h : readDirective? pos ('@' :: s) = some (nodes, n)) {block : CodeBlock}
    (hmem : .code block ∈ nodes) : ReadsAlone block := by
  simp only [readDirective?, Option.map_eq_some_iff, Prod.mk.injEq] at h
  obtain ⟨d, hd, rfl, rfl⟩ := h
  obtain rfl : block = _ := by simpa [codeNode] using hmem
  have alone : readRazor? 0 none false ('@' :: (d.keyword ++ ' ' :: d.value ++ [])) = _ :=
    (isDirective_of_read? hd).readRazor?_eq rfl 0 rfl
  simpa [ReadsAlone, Directive.code] using alone

/-- An expression is read again when it stands alone. -/
theorem readPlain?_cut {pos n : Nat} {s : List Char} {nodes : List Node}
    (h : readPlain? pos s = some (nodes, n)) :
    ∃ code rest span, s = code ++ rest ∧ code.head? = s.head? ∧
      nodes = [.code ⟨.expression, code, span⟩] ∧
      readPlain? 0 code
        = some ([.code ⟨.expression, code, ⟨0, byteLength ('@' :: code)⟩⟩], code.length + 1) := by
  rw [readPlain?] at h
  split at h
  · rename_i hparen
    obtain ⟨s, rfl⟩ := List.head?_eq_some_iff.1 hparen
    obtain ⟨inner, rest, span, rfl, rfl, alone⟩ := readParenthesised?_cut h
    exact ⟨'(' :: inner, rest, span, rfl, rfl, rfl, alone⟩
  · rename_i hparen
    obtain ⟨code, rest, span, rfl, hne, rfl, alone⟩ := readExpression?_cut h
    have hhead : code.head? = (code ++ rest).head? := (List.head?_append_of_ne_nil code hne).symm
    refine ⟨code, rest, span, rfl, hhead, rfl, ?_⟩
    rwa [readPlain?, if_neg (by rwa [hhead])]

/-- What an `@` begins is read again when it stands alone, if it is written as it is. -/
theorem readsAlone_of_readRazor? {pos n : Nat} {previous : Option Char} {afterExpression : Bool}
    {s : List Char} {nodes : List Node}
    (h : readRazor? pos previous afterExpression ('@' :: s) = some (nodes, n)) {block : CodeBlock}
    (hmem : .code block ∈ nodes) (hblock : block.isVerbatim = true) : ReadsAlone block := by
  by_cases hat : s.head? = some '@'
  · obtain ⟨s, rfl⟩ := List.head?_eq_some_iff.1 hat
    obtain ⟨rfl, -⟩ := Prod.mk.inj (Option.some.inj h)
    simp at hmem
  by_cases hstar : s.head? = some '*'
  · obtain ⟨s, rfl⟩ := List.head?_eq_some_iff.1 hstar
    obtain ⟨block', rfl, alone⟩ := readsAlone_of_readTemplateComment? h
    obtain rfl : block = block' := by simpa using hmem
    exact alone
  rw [readRazor?_eq hat hstar] at h
  split at h
  · simp at h
  simp only [Option.orElse_eq_orElse, Option.orElse_eq_or, Option.or_eq_some_iff] at h
  rcases h with h | ⟨hdirective, h | ⟨hif, h | ⟨hforeach, h | ⟨hinline, h⟩⟩⟩⟩
  · exact readsAlone_of_readDirective? h hmem
  · have hcontrol := isControl_of_mem (control_readIfChain? h) hmem
    simp [CodeBlock.isVerbatim_of_isControl hcontrol] at hblock
  · have hcontrol := isControl_of_mem (control_readForeach? h) hmem
    simp [CodeBlock.isVerbatim_of_isControl hcontrol] at hblock
  · simp only [readInlineBlock?, Option.bind_eq_bind, Option.bind_eq_some_iff,
      Option.pure_def, Option.some.injEq, Prod.mk.injEq] at h
    obtain ⟨_, -, _, -, rfl, -⟩ := h
    obtain rfl : block = _ := by simpa [codeNode] using hmem
    simp [CodeBlock.isVerbatim] at hblock
  · -- all readers before have declined, and decline the expression alone
    obtain ⟨code, rest, span, rfl, hhead, rfl, alone⟩ := readPlain?_cut h
    obtain rfl : block = _ := by simpa using hmem
    rw [ReadsAlone, readRazor?_eq (hhead ▸ hat) (hhead ▸ hstar), if_neg (by simp),
      readDirective?_of_append hdirective, readIfChain?_of_append (s := '@' :: code) hif,
      readForeach?_of_append (s := '@' :: code) hforeach, readInlineBlock?_of_append hinline]
    exact alone

/-! ### Trees -/

/-- The nodes of a tree: those of the list, and those inside of its elements. -/
inductive Holds : List Node → Node → Prop
  | here {nodes : List Node} {node : Node} (h : node ∈ nodes) : Holds nodes node
  | inside {nodes children : List Node} {tag : Tag} {node : Node}
    (helement : .element tag children ∈ nodes) (h : Holds children node) : Holds nodes node

/-- Every node of a template was read at some depth. -/
theorem Holds.exists_readAt {nodes : List Node} {node : Node} (h : Holds nodes node) {depth : Nat}
    (hnodes : ∀ node ∈ nodes, ReadAt depth node) : ∃ depth, ReadAt depth node := by
  induction h generalizing depth with
  | here h => exact ⟨depth, hnodes _ h⟩
  | inside helement _ ih => exact ih fun _ hchild => (hnodes _ helement).child hchild

theorem ReadAt.readsAlone {depth : Nat} {block : CodeBlock} (h : ReadAt depth (.code block))
    (hblock : block.isVerbatim = true) : ReadsAlone block := by
  rcases h.text_or_code_or_mem with htext | ⟨-, block', heq, hsection⟩ | ⟨pos, s, hread⟩
  · simp [Node.isText] at htext
  · obtain rfl : block = block' := by simpa using heq
    have hkind : block.kind = .directive := by
      simp only [CodeBlock.isSection, Bool.and_eq_true, decide_eq_true_eq] at hsection
      exact hsection.1
    simp [CodeBlock.isVerbatim, hkind, hsection] at hblock
  · rw [readNested] at hread
    cases hlevels : maxNesting + 1 - depth with
    | zero =>
      rw [hlevels] at hread
      simpa [Node.isText] using isText_of_mem_readContent_zero hread
    | succ levels =>
      rw [hlevels] at hread
      rcases fromContent_of_mem_readContent hread with
        htext | ⟨_, _, _, _, _, _, hread, hmem⟩ | ⟨_, _, _, hmarkup⟩
      · simp [Node.isText] at htext
      · exact readsAlone_of_readRazor? hread hmem hblock
      · exact absurd hmarkup readMarkup?_ne_code

/-- Code that is written as it is, is read back: behind an `@` and alone, it is one node with the
same code. -/
theorem readNested_verbatim {t : List Char} {block : CodeBlock}
    (hholds : Holds (readDocument t) (.code block)) (hblock : block.isVerbatim = true) :
    readNested 0 0 ('@' :: block.code)
      = [.code { block with span := ⟨0, byteLength block.code + 1⟩ }] := by
  obtain ⟨depth, hread⟩ := hholds.exists_readAt fun _ h => ReadAt.template h
  have alone : readRazor? 0 none false ('@' :: (block.code ++ []))
      = some ([.code { block with span := ⟨0, byteLength ('@' :: block.code)⟩ }],
          block.code.length + 1) := by
    rw [List.append_nil]
    exact hread.readsAlone hblock
  have step := advance_contentStep_code (readContent maxNesting) (p := { pos := 0 }) alone
  rw [List.append_nil] at step
  have mark : '@'.utf8Size = 1 := by decide
  have length : byteLength ('@' :: block.code) = byteLength block.code + 1 := by
    rw [byteLength_cons, mark, Nat.add_comm]
  rw [readNested, Nat.sub_zero, readContent, step, ← length]
  rfl

/-- The word of a block begins an expression where no body follows, and so it does alone. -/
theorem readNested_verbatim_if :
    Holds (readDocument "<p>@if(x).y</p>".toList)
        (.code ⟨.expression, "if(x).y".toList, ⟨3, 11⟩⟩) ∧
      readNested 0 0 "@if(x).y".toList
        = [.code ⟨.expression, "if(x).y".toList, ⟨0, 8⟩⟩] := by
  have read : readDocument "<p>@if(x).y</p>".toList
      = [.element ⟨['p'], [], ⟨0, 15⟩⟩ [.code ⟨.expression, "if(x).y".toList, ⟨3, 11⟩⟩]] := by
    rfl
  have holds : Holds (readDocument "<p>@if(x).y</p>".toList)
      (.code ⟨.expression, "if(x).y".toList, ⟨3, 11⟩⟩) := by
    rw [read]
    exact .inside (List.mem_singleton.2 rfl) (.here (List.mem_singleton.2 rfl))
  exact ⟨holds, readNested_verbatim holds rfl⟩

end RazorLayout.Template

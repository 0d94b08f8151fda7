import RazorLayout.Proofs.Template.Construct
import RazorLayout.Template.Reader

/-!
# Steps through content

Content is read step by step: literal text up to the next place where something may begin, or
what begins there.

## Main definitions

* `Construct`, `Markup`: what an `@` or a `<` begins, by the reader that recognises it

## Main results

* `readRazor?_eq_of_ne`: the readers that are asked for an `@`, in order
* `construct_of_readRazor?`, `markup_of_readMarkup?`: what is read is one of these
* `advance_contentStep_text`, `advance_contentStep_markup`, `advance_contentStep_code`: a step
  over literal text, over an element, and over code
* `expressionTail_eq_some_iff`: with what an expression goes on
* `sectionStep_eq_some`: the pieces of a code section and of the content before it
-/

namespace RazorLayout.Template

open Text Code

/-! ### Constructs -/

/-- The reader of `@( … )` or of `@name`, which is asked last. -/
def readOutput? (pos : Nat) (s : List Char) : Option (List Node × Nat) :=
  match s with
  | '@' :: '(' :: _ => readParenthesised? pos s
  | _ => readExpression? pos s

theorem readOutput?_eq (pos : Nat) (s : List Char) :
    readOutput? pos ('@' :: s) =
      if s.head? = some '(' then readParenthesised? pos ('@' :: s)
      else readExpression? pos ('@' :: s) := by
  by_cases hparen : s.head? = some '('
  · obtain ⟨s, rfl⟩ := List.head?_eq_some_iff.1 hparen
    rfl
  · rw [if_neg hparen, readOutput?]
    rintro inner heq
    exact hparen (by rw [(List.cons.inj heq).2]; rfl)

/-- The readers that are asked for an `@` which begins neither an at sign nor a comment. -/
theorem readRazor?_eq_of_ne {pos : Nat} {previous : Option Char} {afterExpression : Bool}
    {s : List Char} (hmark : s.head? ≠ some '@') (hcomment : s.head? ≠ some '*') :
    readRazor? pos previous afterExpression ('@' :: s) =
      if !afterExpression && previous.any isLetterOrDigit then none
      else readDirective? pos ('@' :: s)
        <|> readIfChain? pos ('@' :: s)
        <|> readForeach? pos ('@' :: s)
        <|> readInlineBlock? pos ('@' :: s)
        <|> readOutput? pos ('@' :: s) := by
  unfold readRazor?
  split
  · rename_i heq
    exact absurd (by rw [(List.cons.inj heq).2]; rfl) hmark
  · rename_i heq
    exact absurd (by rw [(List.cons.inj heq).2]; rfl) hcomment
  · rfl

/-- What an `@` begins, by the reader that recognises it. All constructs but chains and loops are
one node. -/
inductive Construct (pos : Nat) (s : List Char) : List Node → Nat → Prop
  | mark {rest : List Char} (hs : s = '@' :: '@' :: rest) :
    Construct pos s [.text ['@', '@'] ⟨pos, pos + 2⟩] 2
  | comment {code : List Char} {n : Nat}
    (h : readTemplateComment? pos s = some ([codeNode .statement code pos n s], n)) :
    Construct pos s [codeNode .statement code pos n s] n
  | directive {d : Directive} (h : Directive.read? s = some d) :
    Construct pos s [codeNode .directive d.code pos d.length s] d.length
  | ifChain {nodes : List Node} {n : Nat} (h : readIfChain? pos s = some (nodes, n)) :
    Construct pos s nodes n
  | foreachLoop {nodes : List Node} {n : Nat} (h : readForeach? pos s = some (nodes, n)) :
    Construct pos s nodes n
  | inlineBlock {code : List Char} {n : Nat}
    (h : readInlineBlock? pos s = some ([codeNode .inlineBlock code pos n s], n)) :
    Construct pos s [codeNode .inlineBlock code pos n s] n
  | parenthesised {rest code : List Char} {n : Nat} (hs : s = '@' :: '(' :: rest)
    (h : readParenthesised? pos s = some ([codeNode .expression code pos n s], n)) :
    Construct pos s [codeNode .expression code pos n s] n
  | expression {code : List Char} {n : Nat}
    (h : readExpression? pos s = some ([codeNode .expression code pos n s], n)) :
    Construct pos s [codeNode .expression code pos n s] n

/-- The readers are tried one after the other. -/
theorem construct_of_readRazor? {pos n : Nat} {previous : Option Char} {afterExpression : Bool}
    {s : List Char} {nodes : List Node}
    (h : readRazor? pos previous afterExpression s = some (nodes, n)) :
    Construct pos s nodes n := by
  unfold readRazor? at h
  split at h
  · obtain ⟨rfl, rfl⟩ := Prod.mk.inj (Option.some.inj h)
    exact .mark rfl
  · have read := h
    simp only [readTemplateComment?, Option.map_eq_some_iff, Prod.mk.injEq] at h
    obtain ⟨_, -, rfl, rfl⟩ := h
    exact .comment read
  · split at h
    · simp at h
    · simp only [Option.orElse_eq_orElse, Option.orElse_eq_or, Option.or_eq_some_iff] at h
      rcases h with h | ⟨-, h | ⟨-, h | ⟨-, h | ⟨-, h⟩⟩⟩⟩
      · simp only [readDirective?, Option.map_eq_some_iff, Prod.mk.injEq] at h
        obtain ⟨d, hd, rfl, rfl⟩ := h
        exact .directive hd
      · exact .ifChain h
      · exact .foreachLoop h
      · have read := h
        simp only [readInlineBlock?, Option.bind_eq_bind, Option.bind_eq_some_iff,
          Option.pure_def, Option.some.injEq, Prod.mk.injEq] at h
        obtain ⟨_, -, _, -, rfl, rfl⟩ := h
        exact .inlineBlock read
      · split at h
        · have read := h
          simp only [readParenthesised?, Option.map_eq_some_iff, Prod.mk.injEq] at h
          obtain ⟨_, -, rfl, rfl⟩ := h
          exact .parenthesised rfl read
        · have read := h
          simp only [readExpression?, Option.map_eq_some_iff, Prod.mk.injEq] at h
          obtain ⟨_, -, rfl, rfl⟩ := h
          exact .expression read

/-! ### Markup -/

/-- The text behind a `<` and the blanks that follow it. -/
theorem drop_gap (t : List Char) :
    ('<' :: t).drop (1 + countWhile isBlank t) = t.dropWhile isBlank := by
  rw [Nat.add_comm, List.drop_succ_cons, drop_countWhile]

/-- What a `<` begins, by the reader that recognises it. -/
inductive Markup (children : Nat → List Char → List Node) (pos : Nat) (t : List Char) :
    Node → Nat → Prop
  | comment {content : List Char} {span : Span} {n : Nat}
    (h : readComment? pos (countWhile isBlank t) ('<' :: t) (t.dropWhile isBlank)
      = some (.text content span, n)) : Markup children pos t (.text content span) n
  | declaration {rest content : List Char} {span : Span} {n : Nat}
    (hrest : t.dropWhile isBlank = '!' :: rest)
    (h : readDeclaration? pos (countWhile isBlank t) ('<' :: t) ('!' :: rest)
      = some (.declaration content span, n)) : Markup children pos t (.declaration content span) n
  | element {c : Char} {rest : List Char} {node : Node} {n : Nat}
    (hrest : t.dropWhile isBlank = c :: rest) (hletter : isLetter c = true)
    (h : readElement? children pos (countWhile isBlank t) ('<' :: t)
      (('<' :: t).drop (1 + countWhile isBlank t)) = some (node, n)) : Markup children pos t node n

/-- The first character behind the blanks decides on the reader. -/
theorem markup_of_readMarkup? {children : Nat → List Char → List Node} {pos n : Nat}
    {t : List Char} {node : Node} (h : readMarkup? children pos ('<' :: t) = some (node, n)) :
    Markup children pos t node n := by
  simp only [readMarkup?, List.drop_one, List.tail_cons, drop_gap] at h
  split at h
  · rename_i hrest
    have read := h
    simp only [readComment?, Option.map_eq_some_iff, Prod.mk.injEq] at h
    obtain ⟨_, -, rfl, -⟩ := h
    exact .comment read
  · rename_i hrest
    rw [hrest] at h
    have read := h
    simp only [readDeclaration?, Option.map_eq_some_iff, Prod.mk.injEq] at h
    obtain ⟨_, -, rfl, -⟩ := h
    exact .declaration hrest read
  · rename_i hrest
    split at h
    · exact .element hrest ‹_› (by rwa [drop_gap])
    · simp at h
  · simp at h

/-! ### Steps -/

theorem contentStep_text (children : Nat → List Char → List Node) (p : Progress) {s : List Char}
    (h : mayBegin s = false) :
    contentStep children p s
      = some (p.push [literal p.pos (countUntil mayBegin s) s] (countUntil mayBegin s) s,
          countUntil mayBegin s) := by
  unfold mayBegin at h
  split at h
  · simp at h
  · simp at h
  · simp [contentStep]

theorem contentStep_markup {children : Nat → List Char → List Node} {p : Progress}
    {s : List Char} {node : Node} {n : Nat}
    (h : readMarkup? children p.pos ('<' :: s) = some (node, n)) :
    contentStep children p ('<' :: s) = some (p.push [node] n ('<' :: s), n) := by
  simp only [contentStep, h]

/-- The text ends, or something may begin at its head. -/
def mayStop : List Char → Bool
  | [] => true
  | s => mayBegin s

theorem head?_of_mayStop {s : List Char} (h : mayStop s = true) (c : Char)
    (hc : s.head? = some c) : c = '<' ∨ c = '@' := by
  obtain ⟨s, rfl⟩ := List.head?_eq_some_iff.1 hc
  by_contra hne
  rw [not_or] at hne
  simp [mayStop, mayBegin, hne] at h

/-- Text is one node, up to its end or to the next place where something may begin. -/
theorem advance_contentStep_text (children : Nat → List Char → List Node) (p : Progress)
    {piece rest : List Char} (hmarkup : '<' ∉ piece) (hmark : '@' ∉ piece) (hne : piece ≠ [])
    (hrest : mayStop rest = true) :
    advance (contentStep children) 0 p (piece ++ rest)
      = advance (contentStep children) 0 ⟨p.pos + byteLength piece, piece.getLast?, false,
          .text piece ⟨p.pos, p.pos + byteLength piece⟩ :: p.nodes⟩ rest := by
  -- inside of the piece nothing begins
  have inside (u v : List Char) (h : piece = u ++ v) (hv : v ≠ []) :
      mayBegin (v ++ rest) = false := by
    obtain ⟨c, v, rfl⟩ := List.exists_cons_of_ne_nil hv
    have hlt : c ≠ '<' := fun hc => hmarkup (by simp [h, hc])
    have hat : c ≠ '@' := fun hc => hmark (by simp [h, hc])
    simp [mayBegin, hlt, hat]
  have behind : rest = [] ∨ mayBegin rest = true := by
    cases rest with
    | nil => exact .inl rfl
    | cons c rest => exact .inr hrest
  have step := contentStep_text children p (inside [] piece rfl hne)
  rw [countUntil_append inside behind] at step
  rw [advance_of_step step (List.length_pos_of_ne_nil hne) (by simp [hne]), List.drop_left]
  simp [Progress.push, literal, Node.isExpression]

/-- Markup is one node. -/
theorem advance_contentStep_markup {children : Nat → List Char → List Node} {p : Progress}
    {s rest : List Char} {node : Node}
    (h : readMarkup? children p.pos ('<' :: s ++ rest) = some (node, ('<' :: s).length)) :
    advance (contentStep children) 0 p ('<' :: s ++ rest)
      = advance (contentStep children) 0 ⟨p.pos + byteLength ('<' :: s), ('<' :: s).getLast?,
          node.isExpression, node :: p.nodes⟩ rest := by
  have step : contentStep children p ('<' :: s ++ rest)
      = some (p.push [node] ('<' :: s).length ('<' :: s ++ rest), ('<' :: s).length) :=
    contentStep_markup h
  rw [advance_of_step step (by simp) (by simp), List.drop_left]
  simp [Progress.push]

/-- Code that is recognised is one node. -/
theorem advance_contentStep_code (children : Nat → List Char → List Node) {p : Progress}
    {code rest : List Char} {node : Node}
    (h : readRazor? p.pos p.previous p.afterExpression ('@' :: (code ++ rest))
      = some ([node], code.length + 1)) :
    advance (contentStep children) 0 p ('@' :: (code ++ rest))
      = advance (contentStep children) 0 ⟨p.pos + byteLength ('@' :: code), ('@' :: code).getLast?,
          node.isExpression, node :: p.nodes⟩ rest := by
  have step : contentStep children p ('@' :: (code ++ rest))
      = some (p.push [node] (code.length + 1) ('@' :: (code ++ rest)), code.length + 1) := by
    simp only [contentStep, h, Option.getD_some]
  have taken : ('@' :: (code ++ rest)).take (code.length + 1) = '@' :: code := by
    rw [List.take_succ_cons, List.take_left]
  rw [advance_of_step step (by simp) (by simp), List.drop_succ_cons, List.drop_left,
    Progress.push, taken]
  simp

/-! ### Expressions -/

/-- An expression goes on with a member, or with arguments or an index up to their closer. -/
theorem expressionTail_eq_some_iff {length length' n : Nat} {s : List Char} :
    expressionTail length s = some (length', n) ↔ length' = length + n ∧
      (Opening.member.length? s = some n ∨
        ∃ (b : Bracket) (rest : List Char) (k : Nat), (b = .paren ∨ b = .square) ∧
          s = b.opener :: rest ∧ b.matchCode? s = some k ∧ n = k + 1) := by
  constructor
  · intro h
    unfold expressionTail at h
    split at h
    · rename_i m hmember
      simp only [Option.some.injEq, Prod.mk.injEq] at h
      obtain ⟨rfl, rfl⟩ := h
      exact ⟨rfl, .inl hmember⟩
    · simp only [Option.map_eq_some_iff, Prod.mk.injEq] at h
      obtain ⟨k, hk, rfl, rfl⟩ := h
      refine ⟨Nat.add_assoc .., .inr ?_⟩
      split at hk
      · exact ⟨.paren, _, k, .inl rfl, rfl, hk, rfl⟩
      · exact ⟨.square, _, k, .inr rfl, rfl, hk, rfl⟩
      · cases hk
  · rintro ⟨rfl, hmember | ⟨b, rest, k, hb, rfl, hk, rfl⟩⟩
    · simp only [expressionTail, hmember]
    · -- a member begins with a dot, and no bracket does
      have noMember : Opening.member.length? (b.opener :: rest) = none := by
        rw [Option.eq_none_iff_forall_ne_some]
        intro n hn
        obtain ⟨c, name, hs, -⟩ := Opening.partsLength?_identifier_iff.1 hn
        rcases hb with rfl | rfl <;> cases hs
      unfold expressionTail
      rw [noMember]
      rcases hb with rfl | rfl <;> exact congrArg (Option.map fun n => (length + n + 1, n + 1)) hk

/-- An expression goes on by at least one character, and not beyond the end of the text. -/
theorem expressionTail_bounds {length length' n : Nat} {s : List Char}
    (h : expressionTail length s = some (length', n)) :
    length' = length + n ∧ 0 < n ∧ n ≤ s.length := by
  obtain ⟨rfl, hmember | ⟨b, rest, k, -, -, hk, rfl⟩⟩ := expressionTail_eq_some_iff.1 h
  · obtain ⟨c, rest, rfl, -, rfl⟩ := Opening.partsLength?_identifier_iff.1 hmember
    have short := countWhile_le_length isIdentifierRest rest
    refine ⟨rfl, by omega, ?_⟩
    simp only [List.length_append, List.length_cons]
    omega
  · obtain ⟨inner, behind, rfl, rfl⟩ := Bracket.matchCodeFrom_eq_some hk
    refine ⟨rfl, Nat.succ_pos _, ?_⟩
    rw [List.length_append, List.length_cons]
    omega

/-- An expression never shrinks while it is read on. -/
theorem advance_expressionTail_pos {length : Nat} (h : 0 < length) (s : List Char) :
    0 < (advance expressionTail 0 length s).1 := by
  refine advance_invariant (I := fun length _ => 0 < length) ?_ _ _ h
  rintro length rest length' n - hlength hstep
  obtain ⟨rfl, hn, -⟩ := expressionTail_bounds hstep
  exact ⟨hn, Nat.add_pos_left hlength n⟩

/-! ### Code sections -/

/-- The content before a code section, and the pieces of the section. -/
theorem sectionStep_eq_some {st st' : Sections} {s : List Char} {n : Nat}
    (h : sectionStep st s = some (st', n)) :
    ∃ before gap inner rest stop,
      s = before ++ "@code".toList ++ gap ++ '{' :: inner ++ ['}'] ++ rest ∧
      allBlank gap = true ∧
      st'.nodes = st.nodes ++ readNested 0 st.pos before
        ++ [.code ⟨.directive, CodeBlock.sectionWord ++ trim inner,
          ⟨st.pos + byteLength before, stop⟩⟩] ∧
      n = (before ++ "@code".toList ++ gap ++ '{' :: inner ++ ['}']).length := by
  simp only [sectionStep, Option.bind_eq_bind, Option.bind_eq_some_iff, Option.pure_def,
    Option.some.injEq, Prod.mk.injEq, Prod.exists] at h
  obtain ⟨start, k, hfind, m, hm, rfl, rfl⟩ := h
  obtain ⟨before, v, rfl, rfl, hv⟩ := search_eq_some hfind
  obtain ⟨gap, rest, rfl, hgap, rfl⟩ := Opening.partsLength?_keyword hv
  -- the section is matched from its brace on
  have brace : (before ++ ("@code".toList ++ gap ++ '{' :: rest)).drop
      (before.length + (("@code".toList ++ gap).length + 1) - 1) = '{' :: rest := by
    rw [← List.append_assoc]
    exact List.drop_left' (by simp)
  rw [brace] at hm
  obtain ⟨inner, rest, rfl, rfl⟩ := Bracket.brace_matchCode?_eq_some hm
  -- what is between the braces is cut out of the whole text
  have body : ((before ++ ("@code".toList ++ gap ++ '{' :: (inner ++ '}' :: rest))).take
      (before.length + (("@code".toList ++ gap).length + 1) + (inner.length + 1) - 1)).drop
        (before.length + (("@code".toList ++ gap).length + 1)) = inner := by
    rw [show before ++ ("@code".toList ++ gap ++ '{' :: (inner ++ '}' :: rest))
      = (before ++ "@code".toList ++ gap ++ ['{']) ++ inner ++ '}' :: rest by simp,
      List.take_left' (by simp; omega)]
    exact List.drop_left' (by simp)
  simp only [List.take_left, body]
  exact ⟨before, gap, inner, rest, _, by simp, hgap, rfl, by simp; omega⟩

end RazorLayout.Template

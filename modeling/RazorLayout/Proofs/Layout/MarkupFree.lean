import RazorLayout.Proofs.Layout.Ink
import RazorLayout.Proofs.Template.Construct
import RazorLayout.Proofs.Template.Content

/-!
# Templates without markup

A template without `<` holds text and constructs that `@` begins: directives, blocks, sections,
comments, expressions. Whatever the reader makes of it, down to the constructs that are never
closed, the layout has the ink of the template: nothing is lost, doubled or moved. Two slashes in
a row are left out, since a line comment in a condition becomes a block comment.

Each reader takes a beginning of the text and gives nodes for it; it keeps the ink when the nodes
have the ink of that beginning. Blocks hold their bodies as text, so a reader of blocks keeps the
ink when the bodies do. A body is read one level deeper than its block, and below the deepest
level there are no blocks, only literal text; this is where the recursion ends.

## Main definitions

* `MarkupFree`: neither markup nor two slashes in a row
* `KeepsInk`: what a reader gives has the ink of what it takes

## Main results

* `keepsInk_readRazor?`: every construct keeps the ink
* `nodesInk_readContent`, `bodyInk_of_markupFree`: content and bodies of blocks keep the ink
* `withoutBlanks_format_of_markupFree`: the layout has the ink of the template
-/

namespace RazorLayout.Layout

open Text Code Template

/-- A text with neither markup nor two slashes in a row. -/
structure MarkupFree (s : List Char) : Prop where
  no_markup : '<' ∉ s
  no_comment : ¬ ['/', '/'] <:+: s

theorem MarkupFree.of_infix {s t : List Char} (ht : MarkupFree t) (h : s <:+: t) :
    MarkupFree s where
  no_markup hs := ht.no_markup (h.subset hs)
  no_comment hs := ht.no_comment (hs.trans h)

/-! ### Headers and conditions -/

/-- A header on one line is written without the blanks at its ends. -/
theorem headerLine_of_newline_not_mem {header : List Char} (h : '\n' ∉ header) :
    headerLine header = trim header := by
  have one : ((lines header).map trim).filter (fun l => !l.isEmpty)
      = if (trim header).isEmpty then [] else [trim header] := by
    rw [lines, linesFrom_of_newline_not_mem h]
    cases header with
    | nil => rfl
    | cons c header => simp [List.filter]; split <;> simp_all
  rw [headerLine, one]
  split
  · rename_i hempty
    rw [List.isEmpty_iff.1 hempty]
    rfl
  · simp [joinWith]

/-- A header on one line keeps its ink. -/
theorem withoutBlanks_headerLine {header : List Char} (h : '\n' ∉ header) :
    withoutBlanks (headerLine header) = withoutBlanks header := by
  rw [headerLine_of_newline_not_mem h, withoutBlanks_trim]

/-- Joining the lines of a condition that has no line comments keeps its ink. -/
theorem withoutBlanks_joinCondition {condition : List Char}
    (h : ¬ ['/', '/'] <:+: condition) :
    withoutBlanks (joinCondition condition) = withoutBlanks condition := by
  have line : ∀ l ∈ lines condition, withoutBlanks (conditionLine l) = withoutBlanks l := by
    intro l hl
    rw [conditionLine, lineCommentStart?_eq_none fun hslash => h (hslash.trans
      (infix_of_mem_lines hl))]
    exact withoutBlanks_trim l
  rw [joinCondition, withoutBlanks_joinWith_space,
    flatMap_withoutBlanks_filter fun l _ hl => by simp_all, flatMap_withoutBlanks_map line,
    flatMap_withoutBlanks_lines]

/-! ### Nodes -/

section Reading

variable (attributes : List Attribute → List Char) (body : Nat → List Char → List Char)
  (level : Nat)

theorem nodesInk_append (nodes nodes' : List Node) :
    nodesInk attributes body level (nodes ++ nodes')
      = nodesInk attributes body level nodes ++ nodesInk attributes body level nodes' := by
  induction nodes with
  | nil => simp [nodesInk]
  | cons node nodes ih => simp [nodesInk, ih]

@[simp] theorem nodesInk_singleton (node : Node) :
    nodesInk attributes body level [node] = nodeInk attributes body level node := by
  simp [nodesInk]

theorem nodesInk_mergeOnto (node : Node) (nodes : List Node) :
    nodesInk attributes body level (node.mergeOnto nodes)
      = nodeInk attributes body level node ++ nodesInk attributes body level nodes := by
  unfold Node.mergeOnto
  split
  · split
    · rename_i hblank
      simp [nodeInk, withoutBlanks_of_allBlank hblank]
    · split
      · split <;> simp [nodesInk, nodeInk]
      · simp [nodesInk]
  · simp [nodesInk]

/-- Leaving out blank texts and joining texts keeps the ink. -/
theorem nodesInk_mergeTexts (nodes : List Node) :
    nodesInk attributes body level (Node.mergeTexts nodes)
      = nodesInk attributes body level nodes := by
  induction nodes with
  | nil => rfl
  | cons node nodes ih =>
    rw [Node.mergeTexts, List.foldr_cons, nodesInk_mergeOnto, nodesInk, ← Node.mergeTexts, ih]

/-- The nodes have the ink of the first `n` characters of the text, one at least. -/
structure KeptInk (s : List Char) (nodes : List Node) (n : Nat) : Prop where
  pos : 0 < n
  ink_eq : nodesInk attributes body level nodes = withoutBlanks (s.take n)

/-- What a reader gives has the ink of what it takes. -/
def KeepsInk (s : List Char) (answer : Option (List Node × Nat)) : Prop :=
  ∀ nodes n, answer = some (nodes, n) → KeptInk attributes body level s nodes n

variable {attributes body level}

/-- Nodes read one after the other. -/
theorem KeptInk.append {s : List Char} {nodes nodes' : List Node} {n m : Nat}
    (h : KeptInk attributes body level s nodes n)
    (h' : KeptInk attributes body level (s.drop n) nodes' m) :
    KeptInk attributes body level s (nodes ++ nodes') (n + m) where
  pos := Nat.add_pos_left h.pos m
  ink_eq := by rw [nodesInk_append, h.ink_eq, h'.ink_eq, List.take_add, withoutBlanks_append]

theorem KeepsInk.orElse {s : List Char} {a b : Option (List Node × Nat)}
    (ha : KeepsInk attributes body level s a) (hb : KeepsInk attributes body level s b) :
    KeepsInk attributes body level s (a <|> b) := by
  intro nodes n h
  cases a with
  | none => exact hb nodes n (by simpa using h)
  | some answer => exact ha nodes n (by simpa using h)

/-! ### Blocks -/

/-- The ink of a block whose body keeps its ink. -/
theorem nodeInk_control {kind : CodeKind} (hkind : kind.isControl = true) {header : List Char}
    (hheader : '\n' ∉ header) {inner : List Char}
    (hbody : body (level + 1) inner = withoutBlanks inner) (span : Span) :
    nodeInk attributes body level (.code (.control kind header inner span))
      = (if kind = .ifBlock || kind = .foreachBlock then ['@'] else []) ++ withoutBlanks header
        ++ ['{'] ++ withoutBlanks inner ++ ['}'] := by
  have hkind' : (CodeBlock.control kind header inner span).kind = kind := rfl
  rw [nodeInk, hkind', if_pos hkind, controlInk, CodeBlock.controlParts?_control hkind hheader]
  have inside : (if allBlank inner then [] else body (level + 1) inner) = withoutBlanks inner := by
    split
    · rename_i hblank
      rw [withoutBlanks_of_allBlank hblank]
    · exact hbody
  simp only [hkind', withoutBlanks_headerLine hheader, inside]

/-- A block has the ink of the pieces of its source. -/
theorem nodeInk_block {kind : CodeKind} (hkind : kind.isControl = true)
    {word opening condition gap inner : List Char} (hword : '\n' ∉ word)
    (hopening : (if kind = .ifBlock || kind = .foreachBlock then ['@'] else [])
      ++ withoutBlanks word = withoutBlanks opening)
    (hcondition : ¬ ['/', '/'] <:+: condition) (hgap : allBlank gap = true)
    (hbody : body (level + 1) inner = withoutBlanks inner) (span : Span) :
    nodeInk attributes body level
        (.code (.control kind (word ++ " (".toList ++ joinCondition condition ++ [')']) inner span))
      = withoutBlanks (opening ++ '(' :: condition ++ ')' :: gap ++ '{' :: inner ++ ['}']) := by
  have hheader : '\n' ∉ word ++ " (".toList ++ joinCondition condition ++ [')'] := by
    have := newline_not_mem_joinCondition condition
    simp_all
  have paren : withoutBlanks " (".toList = ['('] := rfl
  rw [nodeInk_control hkind hheader hbody]
  simp +decide only [withoutBlanks_append, withoutBlanks_cons,
    withoutBlanks_joinCondition hcondition, withoutBlanks_of_allBlank hgap, ← hopening, paren]
  simp

variable (hbody : ∀ inner, MarkupFree inner → body (level + 1) inner = withoutBlanks inner)

include hbody in
/-- A block that begins with the template keeps the ink. -/
theorem keptInk_readBlock? {kind : CodeKind} (hkind : kind.isControl = true)
    {word opening s : List Char} {pos length : Nat} {node : Node}
    (hs : MarkupFree (opening ++ '(' :: s)) (hword : '\n' ∉ word)
    (hopening : (if kind = .ifBlock || kind = .foreachBlock then ['@'] else [])
      ++ withoutBlanks word = withoutBlanks opening)
    (h : readBlock? kind word pos (opening.length + 1) (opening ++ '(' :: s)
      = some (node, length)) :
    KeptInk attributes body level (opening ++ '(' :: s) [node] length := by
  obtain ⟨condition, gap, inner, rest, span, hsource, hgap, rfl, rfl⟩ := readBlock?_eq_some h
  rw [hsource] at hs ⊢
  have hinner : MarkupFree inner :=
    hs.of_infix ⟨opening ++ '(' :: condition ++ ')' :: gap ++ ['{'], '}' :: rest, by simp⟩
  have hcondition : MarkupFree condition :=
    hs.of_infix ⟨opening ++ ['('], ')' :: gap ++ '{' :: inner ++ '}' :: rest, by simp⟩
  refine ⟨List.length_pos_of_ne_nil (by simp), ?_⟩
  rw [List.take_left, nodesInk_singleton]
  exact nodeInk_block hkind hword hopening hcondition.no_comment hgap (hbody inner hinner) span

include hbody in
theorem keptInk_readBranch? {pos length : Nat} {s : List Char} {node : Node} {more : Bool}
    (hs : MarkupFree s) (h : readBranch? pos s = some (node, length, more)) :
    KeptInk attributes body level s [node] length := by
  obtain ⟨gap₁, gap₂, condition, gap₃, inner, rest, span, rfl, hgap₁, hgap₂, hgap₃, rfl, rfl⟩ |
    ⟨gap, inner, rest, span, rfl, hgap, rfl, rfl⟩ := readBranch?_eq_some h
  · -- `else if`: the blanks between the two words are the only difference to a block
    have hinner : MarkupFree inner :=
      hs.of_infix ⟨"else".toList ++ gap₁ ++ "if".toList ++ gap₂ ++ '(' :: condition ++ ')' :: gap₃
        ++ ['{'], '}' :: rest, by simp⟩
    have hcondition : MarkupFree condition :=
      hs.of_infix ⟨"else".toList ++ gap₁ ++ "if".toList ++ gap₂ ++ ['('],
        ')' :: gap₃ ++ '{' :: inner ++ '}' :: rest, by simp⟩
    have hopening : withoutBlanks "else if".toList
        = withoutBlanks ("else".toList ++ gap₁ ++ "if".toList ++ gap₂) := by
      simp only [withoutBlanks_append, withoutBlanks_of_allBlank hgap₁,
        withoutBlanks_of_allBlank hgap₂]
      rfl
    refine ⟨by simp, ?_⟩
    rw [List.take_left, nodesInk_singleton]
    refine nodeInk_block rfl (by decide) ?_ hcondition.no_comment hgap₃ (hbody inner hinner) span
    exact hopening
  · -- `else`
    have hinner : MarkupFree inner :=
      hs.of_infix ⟨"else".toList ++ gap ++ ['{'], '}' :: rest, by simp⟩
    refine ⟨by simp, ?_⟩
    rw [List.take_left, nodesInk_singleton, nodeInk_control rfl (by decide) (hbody inner hinner)]
    simp +decide only [withoutBlanks_append, withoutBlanks_cons, withoutBlanks_of_allBlank hgap]
    simp

include hbody in
/-- One more branch keeps the ink, with the blanks in front of it. -/
theorem keptInk_chainStep {chain chain' : Chain} {s : List Char} {n : Nat} (hs : MarkupFree s)
    (h : chainStep chain s = some (chain', n)) :
    ∃ node, chain'.branches = node :: chain.branches ∧ chain'.length = chain.length + n ∧
      KeptInk attributes body level s [node] n := by
  unfold chainStep at h
  split at h
  · simp only [drop_countWhile, Option.map_eq_some_iff, Prod.mk.injEq, Prod.exists] at h
    obtain ⟨node, m, more, hbranch, rfl, rfl⟩ := h
    have kept : KeptInk attributes body level (s.dropWhile isBlank) [node] m :=
      keptInk_readBranch? hbody (hs.of_infix (List.dropWhile_suffix isBlank).isInfix) hbranch
    refine ⟨node, rfl, by simp only; omega, by have := kept.pos; omega, ?_⟩
    rw [List.take_add, take_countWhile, drop_countWhile, withoutBlanks_append,
      withoutBlanks_of_allBlank (allBlank_takeWhile s), List.nil_append, kept.ink_eq]
  · simp at h

include hbody in
theorem keepsInk_readIfChain? {pos : Nat} {s : List Char} (hs : MarkupFree s) :
    KeepsInk attributes body level s (readIfChain? pos s) := by
  intro nodes n h
  simp only [readIfChain?, Option.bind_eq_bind, Option.bind_eq_some_iff, Option.pure_def,
    Option.some.injEq, Prod.mk.injEq, Prod.exists] at h
  obtain ⟨k, hk, first, length, hfirst, rfl, rfl⟩ := h
  obtain ⟨gap, rest, rfl, hgap, rfl⟩ := Opening.partsLength?_keyword hk
  have hopening : '@' :: withoutBlanks "if".toList = withoutBlanks ("@if".toList ++ gap) := by
    rw [withoutBlanks_append, withoutBlanks_of_allBlank hgap]
    rfl
  have kept : KeptInk attributes body level ("@if".toList ++ gap ++ '(' :: rest) [first] length :=
    keptInk_readBlock? hbody rfl hs (by decide) (by exact hopening) hfirst
  generalize "@if".toList ++ gap ++ '(' :: rest = s at hs kept ⊢
  -- the branches so far have the ink of the source up to the place that is reached
  have start : s.drop length = s.drop length ∧
      KeptInk attributes body level s [first].reverse length := ⟨rfl, kept⟩
  refine (advance_invariant (I := fun (chain : Chain) rest => rest = s.drop chain.length ∧
    KeptInk attributes body level s chain.branches.reverse chain.length) ?_ _ _ start).2
  rintro chain _ chain' m - ⟨rfl, hchain⟩ hstep
  obtain ⟨node, hbranches, hlength, hnode⟩ :=
    keptInk_chainStep hbody (hs.of_infix (List.drop_suffix _ _).isInfix) hstep
  rw [hbranches, hlength, List.reverse_cons]
  exact ⟨hnode.pos, List.drop_drop, hchain.append hnode⟩

include hbody in
theorem keepsInk_readForeach? {pos : Nat} {s : List Char} (hs : MarkupFree s) :
    KeepsInk attributes body level s (readForeach? pos s) := by
  intro nodes n h
  simp only [readForeach?, Option.bind_eq_bind, Option.bind_eq_some_iff, Option.pure_def,
    Option.some.injEq, Prod.mk.injEq, Prod.exists] at h
  obtain ⟨k, hk, node, length, hnode, rfl, rfl⟩ := h
  obtain ⟨gap, rest, rfl, hgap, rfl⟩ := Opening.partsLength?_keyword hk
  have hopening : '@' :: withoutBlanks "foreach".toList
      = withoutBlanks ("@foreach".toList ++ gap) := by
    rw [withoutBlanks_append, withoutBlanks_of_allBlank hgap]
    rfl
  exact keptInk_readBlock? hbody rfl hs (by decide) (by exact hopening) hnode

/-! ### Constructs of one line -/

theorem keepsInk_readDirective? {pos : Nat} (s : List Char) :
    KeepsInk attributes body level ('@' :: s) (readDirective? pos ('@' :: s)) := by
  intro nodes n h
  simp only [readDirective?, Option.map_eq_some_iff, Prod.mk.injEq] at h
  obtain ⟨d, hd, rfl, rfl⟩ := h
  obtain ⟨keyword, hkeyword, gap, raw, rest, rfl, hgap, -, rfl⟩ := Directive.read?_eq_some hd
  refine ⟨by simp, ?_⟩
  rw [nodesInk_singleton, codeNode, nodeInk, if_neg (by simp [CodeKind.isControl])]
  simp only [codeInk, Directive.isSection_code (d := ⟨keyword, trim raw, _⟩) hkeyword]
  rw [show '@' :: (keyword ++ gap ++ raw ++ rest) = '@' :: keyword ++ gap ++ raw ++ rest by simp,
    List.take_left]
  simp +decide [Directive.code, withoutBlanks_cons, withoutBlanks_of_allBlank hgap]

/-- Code that is kept as it is written behind `@`. -/
theorem keptInk_codeNode {kind : CodeKind} (hkind : kind = .expression ∨ kind = .statement)
    (pos : Nat) {n : Nat} (hn : 0 < n) (s : List Char) :
    KeptInk attributes body level ('@' :: s)
      [codeNode kind ((('@' :: s).take n).drop 1) pos n ('@' :: s)] n := by
  obtain ⟨n, rfl⟩ := Nat.exists_eq_add_one_of_ne_zero hn.ne'
  refine ⟨hn, ?_⟩
  rcases hkind with rfl | rfl <;>
    simp [codeNode, nodeInk, codeInk, CodeKind.isControl, CodeBlock.isSection]

theorem keepsInk_readInlineBlock? {pos : Nat} (s : List Char) :
    KeepsInk attributes body level ('@' :: s) (readInlineBlock? pos ('@' :: s)) := by
  intro nodes n h
  simp only [readInlineBlock?, Option.bind_eq_bind, Option.bind_eq_some_iff, Option.pure_def,
    Option.some.injEq, Prod.mk.injEq] at h
  obtain ⟨k, hk, m, hm, rfl, rfl⟩ := h
  obtain ⟨rest, -, hs, -, -⟩ := Opening.partsLength?_word hk
  obtain rfl : s = '{' :: rest := by simpa using hs
  obtain ⟨inner, rest, rfl, rfl⟩ := Bracket.brace_matchCode?_eq_some hm
  refine ⟨by omega, ?_⟩
  have code : (('@' :: '{' :: (inner ++ '}' :: rest)).take (inner.length + 1 + 1)).drop 2
      = inner := by simp
  have whole : ('@' :: '{' :: (inner ++ '}' :: rest)).take (inner.length + 1 + 2)
      = '@' :: '{' :: (inner ++ ['}']) := by
    rw [show '@' :: '{' :: (inner ++ '}' :: rest) = '@' :: '{' :: (inner ++ ['}']) ++ rest by simp]
    exact List.take_left' (by simp)
  rw [nodesInk_singleton, codeNode, code, whole]
  simp +decide [nodeInk, codeInk, CodeKind.isControl, withoutBlanks_cons]

theorem keepsInk_readExpression? {pos : Nat} (s : List Char) :
    KeepsInk attributes body level ('@' :: s) (readExpression? pos ('@' :: s)) := by
  intro nodes n h
  simp only [readExpression?, Option.map_eq_some_iff, Prod.mk.injEq] at h
  obtain ⟨k, hk, rfl, rfl⟩ := h
  obtain ⟨-, m, -, -, rfl⟩ := Opening.partsLength?_word hk
  exact keptInk_codeNode (.inl rfl) pos
    (advance_expressionTail_pos (Nat.add_pos_left (by decide) m) _) s

/-! ### Content -/

include hbody in
/-- Every construct that an `@` begins keeps the ink. -/
theorem keepsInk_readRazor? {pos : Nat} {previous : Option Char} {afterExpression : Bool}
    {s : List Char} (hs : MarkupFree ('@' :: s)) :
    KeepsInk attributes body level ('@' :: s)
      (readRazor? pos previous afterExpression ('@' :: s)) := by
  unfold readRazor?
  split
  · -- `@@` is literal text
    rename_i rest hrest
    rintro _ _ ⟨⟩
    refine ⟨by decide, ?_⟩
    rw [hrest]
    rfl
  · -- a comment
    intro nodes n h
    simp only [readTemplateComment?, Option.map_eq_some_iff, Prod.mk.injEq] at h
    obtain ⟨k, -, rfl, rfl⟩ := h
    exact keptInk_codeNode (.inr rfl) pos (by omega) s
  · split
    · intro nodes n h
      simp at h
    · -- the readers are tried one after the other, and each of them keeps the ink
      refine (keepsInk_readDirective? s).orElse <| (keepsInk_readIfChain? hbody hs).orElse <|
        (keepsInk_readForeach? hbody hs).orElse <| (keepsInk_readInlineBlock? s).orElse ?_
      split
      · intro nodes n h
        simp only [readParenthesised?, Option.map_eq_some_iff, Prod.mk.injEq] at h
        obtain ⟨k, -, rfl, rfl⟩ := h
        exact keptInk_codeNode (.inl rfl) pos (by omega) s
      · exact keepsInk_readExpression? s

theorem keptInk_literal (pos : Nat) {n : Nat} (hn : 0 < n) (s : List Char) :
    KeptInk attributes body level s [literal pos n s] n :=
  ⟨hn, by simp [literal, nodeInk]⟩

include hbody in
/-- One step through content gives nodes with the ink of what it takes. -/
theorem keptInk_contentStep {children : Nat → List Char → List Node} {p p' : Progress}
    {s : List Char} {n : Nat} (hs : MarkupFree s) (hne : s ≠ [])
    (h : contentStep children p s = some (p', n)) :
    ∃ nodes, p'.nodes = nodes.reverse ++ p.nodes ∧ KeptInk attributes body level s nodes n := by
  match s, hne with
  | c :: s, _ =>
    by_cases hat : c = '@'
    · subst hat
      cases hread : readRazor? p.pos p.previous p.afterExpression ('@' :: s) with
      | none =>
        -- an `@` that begins nothing is a character of text
        simp only [contentStep, hread, Option.getD_none, Option.some.injEq, Prod.mk.injEq] at h
        obtain ⟨rfl, rfl⟩ := h
        exact ⟨_, rfl, keptInk_literal p.pos Nat.one_pos _⟩
      | some read =>
        simp only [contentStep, hread, Option.getD_some, Option.some.injEq, Prod.mk.injEq] at h
        obtain ⟨rfl, rfl⟩ := h
        exact ⟨_, rfl, keepsInk_readRazor? hbody hs _ _ hread⟩
    · -- text up to the next mark, since there is no markup
      have hlt : c ≠ '<' := by
        rintro rfl
        exact hs.no_markup List.mem_cons_self
      have hbegin : mayBegin (c :: s) = false := by simp [mayBegin, hat, hlt]
      rw [contentStep_text children p hbegin] at h
      simp only [Option.some.injEq, Prod.mk.injEq] at h
      obtain ⟨rfl, rfl⟩ := h
      exact ⟨_, rfl, keptInk_literal p.pos (countUntil_pos hbegin) _⟩

/-- Content keeps its ink, if the bodies of its blocks do. Below the deepest level there are no
blocks. -/
theorem nodesInk_readContent {levels pos : Nat} {s : List Char} (hs : MarkupFree s)
    (hbody : levels ≠ 0 → ∀ inner, MarkupFree inner →
      body (level + 1) inner = withoutBlanks inner) :
    nodesInk attributes body level (readContent levels pos s) = withoutBlanks s := by
  cases levels with
  | zero => simp [readContent, nodesInk_mergeTexts, literal, nodeInk]
  | succ levels =>
    rw [readContent, nodesInk_mergeTexts]
    -- the nodes so far and the rest of the text have the ink of the whole text
    have step : ∀ (p : Progress) rest p' n, rest ≠ [] → (MarkupFree rest ∧
        nodesInk attributes body level p.nodes.reverse ++ withoutBlanks rest = withoutBlanks s) →
        contentStep (readContent levels) p rest = some (p', n) → 0 < n ∧ MarkupFree (rest.drop n) ∧
          nodesInk attributes body level p'.nodes.reverse ++ withoutBlanks (rest.drop n)
            = withoutBlanks s := by
      rintro p rest p' n hne ⟨hrest, hink⟩ hstep
      obtain ⟨nodes, hnodes, kept⟩ : ∃ nodes, p'.nodes = nodes.reverse ++ p.nodes ∧
          KeptInk attributes body level rest nodes n :=
        keptInk_contentStep (hbody (Nat.succ_ne_zero levels)) hrest hne hstep
      refine ⟨kept.pos, hrest.of_infix (List.drop_suffix n rest).isInfix, ?_⟩
      rw [hnodes, List.reverse_append, List.reverse_reverse, nodesInk_append, kept.ink_eq,
        List.append_assoc, ← withoutBlanks_append, List.take_append_drop, hink]
    have read := (advance_invariant step { pos } s ⟨hs, by simp [nodesInk]⟩).2
    rw [advance_rest_eq_nil (fun p s => by simp [contentStep])] at read
    simpa using read

end Reading

/-! ### Bodies and templates -/

/-- The body of a block keeps its ink when there are enough levels left to read it to the deepest
one. -/
theorem bodyInk_of_markupFree (attributes : List Attribute → List Char) {blocks level : Nat}
    (h : maxNesting < blocks + level) {inner : List Char} (hinner : MarkupFree inner) :
    bodyInk attributes blocks level inner = withoutBlanks inner := by
  induction blocks generalizing level inner with
  | zero =>
    rw [bodyInk, readNested]
    -- no levels are left, so that the body is literal text
    exact nodesInk_readContent hinner fun hlevels => by omega
  | succ blocks ih =>
    rw [bodyInk, readNested]
    exact nodesInk_readContent hinner fun _ inner hinner => ih (by omega) hinner

/-- A code section has the ink of its source. -/
theorem nodeInk_section (attributes : List Attribute → List Char)
    (body : Nat → List Char → List Char) (level : Nat) {gap : List Char}
    (hgap : allBlank gap = true) (inner : List Char) (span : Span) :
    nodeInk attributes body level
        (.code ⟨.directive, CodeBlock.sectionWord ++ trim inner, span⟩)
      = withoutBlanks ("@code".toList ++ gap ++ '{' :: inner ++ ['}']) := by
  have isSection : CodeBlock.isSection ⟨.directive, CodeBlock.sectionWord ++ trim inner, span⟩
      = true := by
    simp [CodeBlock.isSection, CodeBlock.sectionWord]
  rw [nodeInk, if_neg (by simp [CodeKind.isControl])]
  simp only [codeInk, isSection, if_true, List.drop_left, withoutBlanks_append, withoutBlanks_trim,
    withoutBlanks_of_allBlank hgap]
  simp +decide [withoutBlanks_cons]

theorem keptInk_sectionStep (attributes : List Attribute → List Char) {st st' : Sections}
    {s : List Char} {n : Nat} (hs : MarkupFree s)
    (h : sectionStep st s = some (st', n)) :
    ∃ nodes, st'.nodes = st.nodes ++ nodes ∧
      KeptInk attributes (bodyInk attributes maxNesting) 0 s nodes n := by
  obtain ⟨before, gap, inner, rest, stop, rfl, hgap, hnodes, rfl⟩ := sectionStep_eq_some h
  have hbefore : MarkupFree before :=
    hs.of_infix ⟨[], "@code".toList ++ gap ++ '{' :: inner ++ '}' :: rest, by simp⟩
  refine ⟨_, hnodes.trans (List.append_assoc ..), List.length_pos_of_ne_nil (by simp), ?_⟩
  rw [List.take_left, nodesInk_append, nodesInk_singleton, nodeInk_section attributes _ 0 hgap,
    readNested, nodesInk_readContent hbefore
      fun _ inner hinner => bodyInk_of_markupFree attributes (by omega) hinner]
  simp only [withoutBlanks_append, List.append_assoc]

/-- The nodes of a template have its ink. -/
theorem nodesInk_readDocument (attributes : List Attribute → List Char) {t : List Char}
    (ht : MarkupFree t) :
    nodesInk attributes (bodyInk attributes maxNesting) 0 (readDocument t) = withoutBlanks t := by
  have content {s : List Char} (hs : MarkupFree s) (pos : Nat) :
      nodesInk attributes (bodyInk attributes maxNesting) 0 (readNested 0 pos s)
        = withoutBlanks s :=
    nodesInk_readContent hs fun _ inner hinner => bodyInk_of_markupFree _ (by omega) hinner
  -- as for content, with one code section and what stands in front of it for a step
  have step : ∀ (st : Sections) rest st' n, rest ≠ [] → (MarkupFree rest ∧
      nodesInk attributes (bodyInk attributes maxNesting) 0 st.nodes ++ withoutBlanks rest
        = withoutBlanks t) →
      sectionStep st rest = some (st', n) → 0 < n ∧ MarkupFree (rest.drop n) ∧
        nodesInk attributes (bodyInk attributes maxNesting) 0 st'.nodes
          ++ withoutBlanks (rest.drop n) = withoutBlanks t := by
    rintro st rest st' n - ⟨hrest, hink⟩ hstep
    obtain ⟨nodes, hnodes, kept⟩ := keptInk_sectionStep attributes hrest hstep
    refine ⟨kept.pos, hrest.of_infix (List.drop_suffix n rest).isInfix, ?_⟩
    rw [hnodes, nodesInk_append, kept.ink_eq, List.append_assoc, ← withoutBlanks_append,
      List.take_append_drop, hink]
  obtain ⟨hrest, hink⟩ := advance_invariant step {} t ⟨ht, by simp [nodesInk]⟩
  rw [readDocument, nodesInk_append, content hrest, hink]

/-- The layout of a template without markup and without two slashes in a row has the ink of the
template. -/
theorem withoutBlanks_format_of_markupFree (settings : Settings) {t : List Char}
    (hmarkup : '<' ∉ t) (hcomment : ¬ ['/', '/'] <:+: t) :
    withoutBlanks (format settings t) = withoutBlanks t := by
  rw [withoutBlanks_format]
  exact nodesInk_readDocument _ ⟨hmarkup, hcomment⟩

/-- A code section, a chain of branches and a block that is never closed are all kept. -/
theorem withoutBlanks_format_sections :
    withoutBlanks
        (format {} "@code\x7bint n;\x7d@if(a)\x7bb\x7delse\x7b@c.d[0]\x7d@foreach(x".toList)
      = "@code\x7bintn;\x7d@if(a)\x7bb\x7delse\x7b@c.d[0]\x7d@foreach(x".toList := by
  rw [withoutBlanks_format_of_markupFree]
  · decide +kernel
  · decide +kernel
  · decide +kernel

end RazorLayout.Layout

import RazorLayout.Proofs.Template.Content
import RazorLayout.Proofs.Template.Tiling

/-!
# The nodes of a template account for its source

Whatever stands in a template, reading it loses no place: the ranges of the nodes lie one behind
the other and leave nothing but blanks, and so it is again between the tags of every element. What
a text or an expression holds is exactly what stands in its range.

Every reader stands at a place of the source and gives nodes for the characters that it takes. It
is shown of each of them that its nodes tile these characters (`Reads`). Positions are counted from
the place where a reader stands, so the place is a parameter of everything; the induction is on the
number of levels that content may still have.

## Main definitions

* `Reads`: the nodes of a reader tile what it takes

## Main results

* `reads_readRazor?`, `reads_readMarkup?`: constructs and markup tile what they take
* `laid_readContent`: content accounts for its text
* `readContent_invariant`, `sections_invariant`: what is kept from step to step, with the place in
  the source
* `covered_readDocument`: the nodes of a template account for its source
-/

namespace RazorLayout.Template

open Text Code

/-- The nodes tile the first `n` characters of the text at the place `pos`, one at least. -/
structure Reads (source : List Char) (pos : Nat) (s : List Char) (nodes : List Node) (n : Nat) :
    Prop where
  progress : 0 < n
  tiled : Tiled source (Fragment source) pos nodes (pos + byteLength (s.take n))

/-- Nodes read one after the other. -/
theorem Reads.append {source s : List Char} {pos n m : Nat} {nodes nodes' : List Node}
    (h : Reads source pos s nodes n)
    (h' : Reads source (pos + byteLength (s.take n)) (s.drop n) nodes' m) :
    Reads source pos s (nodes ++ nodes') (n + m) where
  progress := Nat.add_pos_left h.progress m
  tiled := by
    rw [List.take_add, byteLength_append, ← Nat.add_assoc]
    exact h.tiled.append h'.tiled

section Readers

variable {source s : List Char} {pos stop : Nat} (hs : Between source pos stop s)

include hs

/-- A reader that gives one node for the characters that it takes. -/
theorem reads_singleton (hne : s ≠ []) {n : Nat} (hn : 0 < n) {node : Node}
    (hspan : node.span = ⟨pos, pos + byteLength (s.take n)⟩) (hnode : Fragment source node) :
    Reads source pos s [node] n :=
  ⟨hn, tiled_singleton hs hne hn hspan hnode⟩

theorem reads_literal (hne : s ≠ []) {n : Nat} (hn : 0 < n) :
    Reads source pos s [literal pos n s] n :=
  reads_singleton hs hne hn rfl (hs.take n)

/-! ### Code of one line -/

/-- Code that is kept as it is written behind `@`. -/
theorem reads_codeNode {rest : List Char} (hat : s = '@' :: rest) {kind : CodeKind}
    (hkind : kind = .expression ∨ kind = .statement) {n : Nat} (hn : 0 < n) :
    Reads source pos s [codeNode kind ((s.take n).drop 1) pos n s] n := by
  have written : '@' :: (s.take n).drop 1 = s.take n := by
    obtain ⟨n, rfl⟩ := Nat.exists_eq_add_one_of_ne_zero hn.ne'
    simp [hat]
  have stands : CodePlaced source
      ⟨kind, (s.take n).drop 1, ⟨pos, pos + byteLength (s.take n)⟩⟩ := by
    rcases hkind with rfl | rfl <;>
    · simp only [CodePlaced, written]
      exact hs.take n
  exact reads_singleton hs (by simp [hat]) hn rfl (Placed.code stands)

theorem reads_readTemplateComment? {rest : List Char} (hat : s = '@' :: rest)
    {nodes : List Node} {n : Nat} (h : readTemplateComment? pos s = some (nodes, n)) :
    Reads source pos s nodes n := by
  simp only [readTemplateComment?, Option.map_eq_some_iff, Prod.mk.injEq] at h
  obtain ⟨k, -, rfl, rfl⟩ := h
  exact reads_codeNode hs hat (.inr rfl) (by omega)

theorem reads_readParenthesised? {rest : List Char} (hat : s = '@' :: rest) {nodes : List Node}
    {n : Nat} (h : readParenthesised? pos s = some (nodes, n)) : Reads source pos s nodes n := by
  simp only [readParenthesised?, Option.map_eq_some_iff, Prod.mk.injEq] at h
  obtain ⟨k, -, rfl, rfl⟩ := h
  exact reads_codeNode hs hat (.inl rfl) (by omega)

theorem reads_readExpression? {rest : List Char} (hat : s = '@' :: rest) {nodes : List Node}
    {n : Nat} (h : readExpression? pos s = some (nodes, n)) : Reads source pos s nodes n := by
  simp only [readExpression?, Option.map_eq_some_iff, Prod.mk.injEq] at h
  obtain ⟨k, hk, rfl, rfl⟩ := h
  obtain ⟨-, m, -, -, rfl⟩ := Opening.partsLength?_word hk
  exact reads_codeNode hs hat (.inl rfl)
    (advance_expressionTail_pos (Nat.add_pos_left (by decide) m) _)

theorem reads_readInlineBlock? {rest : List Char} (hat : s = '@' :: rest) {nodes : List Node}
    {n : Nat} (h : readInlineBlock? pos s = some (nodes, n)) : Reads source pos s nodes n := by
  subst hat
  simp only [readInlineBlock?, Option.bind_eq_bind, Option.bind_eq_some_iff, Option.pure_def,
    Option.some.injEq, Prod.mk.injEq] at h
  obtain ⟨k, hk, m, hm, rfl, rfl⟩ := h
  obtain ⟨rest, -, hbrace, -, -⟩ := Opening.partsLength?_word hk
  obtain rfl : _ = '{' :: rest := by simpa using hbrace
  obtain ⟨inner, rest, rfl, rfl⟩ := Bracket.brace_matchCode?_eq_some hm
  have code : (('@' :: '{' :: (inner ++ '}' :: rest)).take (inner.length + 1 + 1)).drop 2
      = inner := by simp
  have taken : ('@' :: '{' :: (inner ++ '}' :: rest)).take (inner.length + 1 + 2)
      = '@' :: '{' :: inner ++ ['}'] := by
    rw [show '@' :: '{' :: (inner ++ '}' :: rest) = '@' :: '{' :: inner ++ ['}'] ++ rest by simp]
    exact List.take_left' (by simp)
  have stands := hs.take (inner.length + 1 + 2)
  refine reads_singleton hs (by simp) (by omega) rfl (Placed.code ?_)
  rw [taken] at stands
  simpa only [CodePlaced, code, taken] using stands

theorem reads_readDirective? {rest : List Char} (hat : s = '@' :: rest) {nodes : List Node}
    {n : Nat} (h : readDirective? pos s = some (nodes, n)) : Reads source pos s nodes n := by
  subst hat
  simp only [readDirective?, Option.map_eq_some_iff, Prod.mk.injEq] at h
  obtain ⟨d, hd, rfl, rfl⟩ := h
  obtain ⟨keyword, -, gap, raw, rest, -, -, -, rfl⟩ := Directive.read?_eq_some hd
  exact reads_singleton hs (by simp) (by simp) rfl (Placed.code trivial)

end Readers

/-! ### Blocks -/

/-- A block with header and body that takes the first `n` characters. -/
structure IsBlockAt (pos : Nat) (s : List Char) (node : Node) (n : Nat) : Prop where
  control : ∃ block, node = .code block ∧ block.kind.isControl = true
  progress : 0 < n
  span_eq : node.span = ⟨pos, pos + byteLength (s.take n)⟩

theorem isBlockAt_readBlock? {kind : CodeKind} (hkind : kind.isControl = true)
    {word s : List Char} {pos k n : Nat} {node : Node}
    (h : readBlock? kind word pos k s = some (node, n)) : IsBlockAt pos s node n := by
  simp only [readBlock?, Option.bind_eq_bind, Option.bind_eq_some_iff, Option.pure_def,
    Option.some.injEq, Prod.mk.injEq, Prod.exists] at h
  obtain ⟨condition, m, hcondition, body, m', -, rfl, rfl⟩ := h
  simp only [readCondition?, Option.map_eq_some_iff, Prod.mk.injEq] at hcondition
  obtain ⟨closer, -, -, rfl⟩ := hcondition
  exact ⟨⟨_, rfl, hkind⟩, by omega, rfl⟩

theorem isBlockAt_readBranch? {s : List Char} {pos n : Nat} {node : Node} {more : Bool}
    (h : readBranch? pos s = some (node, n, more)) : IsBlockAt pos s node n := by
  unfold readBranch? at h
  split at h
  · simp only [Option.map_eq_some_iff, Prod.mk.injEq, Prod.exists] at h
    obtain ⟨node', n', hblock, rfl, rfl, -⟩ := h
    exact isBlockAt_readBlock? rfl hblock
  · split at h
    · rename_i k hk
      simp only [Option.map_eq_some_iff, Prod.mk.injEq, Prod.exists] at h
      obtain ⟨body, m, hbody, rfl, rfl, -⟩ := h
      simp only [readBraces?, Option.map_eq_some_iff, Prod.mk.injEq] at hbody
      obtain ⟨closer, -, -, rfl⟩ := hbody
      exact ⟨⟨_, rfl, rfl⟩, by omega, rfl⟩
    · simp at h

theorem IsBlockAt.fragment {pos n : Nat} {s : List Char} {node : Node} (h : IsBlockAt pos s node n)
    (source : List Char) : Fragment source node := by
  obtain ⟨⟨block, rfl, hkind⟩, -, -⟩ := h
  refine Placed.code ?_
  unfold CodePlaced
  split <;> simp_all [CodeKind.isControl]

/-- One more branch, with the blanks in front of it. -/
theorem reads_chainStep {source s : List Char} {stop n : Nat} {chain chain' : Chain}
    (hs : Between source chain.pos stop s) (h : chainStep chain s = some (chain', n)) :
    ∃ node, chain'.branches = node :: chain.branches ∧ chain'.length = chain.length + n ∧
      chain'.pos = chain.pos + byteLength (s.take n) ∧ Reads source chain.pos s [node] n := by
  unfold chainStep at h
  split at h
  · simp only [Option.map_eq_some_iff, Prod.mk.injEq, Prod.exists] at h
    obtain ⟨node, m, more, hbranch, rfl, rfl⟩ := h
    have hblock := isBlockAt_readBranch? hbranch
    have hne : s.drop (countWhile isBlank s) ≠ [] := by
      obtain ⟨_, _, _, _, _, _, _, hs, -⟩ | ⟨_, _, _, _, hs, -⟩ := readBranch?_eq_some hbranch <;>
        simp [hs]
    have hgap := hs.take (countWhile isBlank s)
    have blank : allBlank (s.take (countWhile isBlank s)) = true := by
      rw [take_countWhile]
      exact allBlank_takeWhile s
    have branch := tiled_singleton (hs.drop (countWhile isBlank s)) hne hblock.progress
      hblock.span_eq (hblock.fragment source)
    have length : byteLength (s.take (countWhile isBlank s + m))
        = byteLength (s.take (countWhile isBlank s))
          + byteLength ((s.drop (countWhile isBlank s)).take m) := by
      rw [List.take_add, byteLength_append]
    refine ⟨node, rfl, by simp only; omega, ?_, by have := hblock.progress; omega, ?_⟩
    · simp only [hblock.span_eq, length]
      omega
    · rw [length, ← Nat.add_assoc]
      exact branch.blank_append hgap blank
  · simp at h

section Readers

variable {source s : List Char} {pos stop : Nat} (hs : Between source pos stop s)

include hs

theorem reads_readIfChain? (hne : s ≠ []) {nodes : List Node} {n : Nat}
    (h : readIfChain? pos s = some (nodes, n)) : Reads source pos s nodes n := by
  simp only [readIfChain?, Option.bind_eq_bind, Option.bind_eq_some_iff, Option.pure_def,
    Option.some.injEq, Prod.mk.injEq, Prod.exists] at h
  obtain ⟨k, -, first, length, hfirst, rfl, rfl⟩ := h
  have hblock := isBlockAt_readBlock? rfl hfirst
  have start : Reads source pos s [first].reverse length :=
    reads_singleton hs hne hblock.progress hblock.span_eq (hblock.fragment source)
  have reached : first.span.stop = pos + byteLength (s.take length) := by rw [hblock.span_eq]
  -- the branches so far tile the source up to the place that is reached
  refine (advance_invariant (I := fun (chain : Chain) rest => rest = s.drop chain.length ∧
    chain.pos = pos + byteLength (s.take chain.length) ∧
    Reads source pos s chain.branches.reverse chain.length) ?_ ⟨[first], length, _, true⟩ _
    ⟨rfl, reached, start⟩).2.2
  rintro chain _ chain' m - ⟨rfl, hpos, hchain⟩ hstep
  have hrest := hs.drop chain.length
  rw [← hpos] at hrest
  obtain ⟨node, hbranches, hlength, hpos', hnode⟩ := reads_chainStep hrest hstep
  rw [hpos] at hnode
  refine ⟨hnode.progress, ?_, ?_, ?_⟩
  · rw [hlength, List.drop_drop]
  · rw [hpos', hpos, hlength, List.take_add, byteLength_append, Nat.add_assoc]
  · rw [hbranches, hlength, List.reverse_cons]
    exact hchain.append hnode

theorem reads_readForeach? (hne : s ≠ []) {nodes : List Node} {n : Nat}
    (h : readForeach? pos s = some (nodes, n)) : Reads source pos s nodes n := by
  simp only [readForeach?, Option.bind_eq_bind, Option.bind_eq_some_iff, Option.pure_def,
    Option.some.injEq, Prod.mk.injEq, Prod.exists] at h
  obtain ⟨k, -, node, length, hnode, rfl, rfl⟩ := h
  have hblock := isBlockAt_readBlock? rfl hnode
  exact reads_singleton hs hne hblock.progress hblock.span_eq (hblock.fragment source)

/-- Every construct that an `@` begins tiles what it takes. -/
theorem reads_readRazor? {rest : List Char} (hat : s = '@' :: rest) {previous : Option Char}
    {afterExpression : Bool} {nodes : List Node} {n : Nat}
    (h : readRazor? pos previous afterExpression s = some (nodes, n)) :
    Reads source pos s nodes n := by
  have hne : s ≠ [] := by simp [hat]
  cases construct_of_readRazor? h with
  | mark hmark =>
    -- `@@` is literal text
    rw [hmark] at hs hne ⊢
    exact reads_singleton hs hne (by decide) rfl (hs.take 2)
  | comment hread => exact reads_readTemplateComment? hs hat hread
  | directive hread =>
    exact reads_readDirective? hs hat (by rw [readDirective?, hread, Option.map_some])
  | ifChain hread => exact reads_readIfChain? hs hne hread
  | foreachLoop hread => exact reads_readForeach? hs hne hread
  | inlineBlock hread => exact reads_readInlineBlock? hs hat hread
  | parenthesised _ hread => exact reads_readParenthesised? hs hat hread
  | expression hread => exact reads_readExpression? hs hat hread

end Readers

/-! ### Markup -/

/-- The text of an element ends where its closing tag begins. -/
theorem closingTagFrom_eq_some {opener closer s : List Char} {n depth skip k : Nat}
    (h : closingTagFrom opener closer n depth skip s = some k) :
    ∃ inner rest, s = inner ++ closer ++ rest ∧ k = n + inner.length := by
  have later {n : Nat} {c : Char} {s : List Char}
      (ih : ∃ inner rest, s = inner ++ closer ++ rest ∧ k = n + 1 + inner.length) :
      ∃ inner rest, c :: s = inner ++ closer ++ rest ∧ k = n + inner.length := by
    obtain ⟨inner, rest, rfl, rfl⟩ := ih
    exact ⟨c :: inner, rest, rfl, by simp only [List.length_cons]; omega⟩
  fun_induction closingTagFrom opener closer n depth skip s with
  | case1 => simp at h
  | case2 _ _ _ _ _ ih => exact later (ih h)
  | case3 n c s hcloser =>
    obtain ⟨rest, hrest⟩ := List.isPrefixOf_iff_prefix.1 hcloser
    exact ⟨[], rest, hrest.symm, by simpa using h.symm⟩
  | case4 _ _ _ _ _ ih => exact later (ih h)
  | case5 _ _ _ _ _ _ _ ih => exact later (ih h)
  | case6 _ _ _ _ _ _ ih => exact later (ih h)

theorem readAttribute?_pos {s : List Char} {a : Attribute} {n : Nat}
    (h : readAttribute? s = some (a, n)) : 0 < n := by
  simp only [readAttribute?] at h
  split at h
  · simp at h
  · rename_i hname
    split at h
    · simp only [Option.map_eq_some_iff, Prod.mk.injEq, Prod.exists] at h
      obtain ⟨value, m, -, -, rfl⟩ := h
      omega
    · obtain ⟨-, rfl⟩ := Prod.mk.inj (Option.some.inj h)
      omega

/-- The attributes of a tag reach up to the text that is left of them. -/
theorem readAttributes_rest {s : List Char} {attributes : List Attribute} {n : Nat}
    {left : List Char} (h : readAttributes s = (attributes, n, left)) : left = s.drop n := by
  have step : ∀ (st : List Attribute × Nat) rest st' m, rest ≠ [] → rest = s.drop st.2 →
      attributeStep st rest = some (st', m) → 0 < m ∧ rest.drop m = s.drop st'.2 := by
    rintro st _ st' m - rfl hstep
    unfold attributeStep at hstep
    split at hstep
    · simp at hstep
    · split at hstep
      · rename_i a k hattribute
        obtain ⟨rfl, rfl⟩ : ((a :: st.1, st.2 + k) = st') ∧ k = m := by simpa using hstep
        exact ⟨readAttribute?_pos hattribute, by rw [List.drop_drop]⟩
      · obtain ⟨rfl, rfl⟩ : ((st.1, st.2 + 1) = st') ∧ 1 = m := by simpa using hstep
        exact ⟨Nat.one_pos, by rw [List.drop_drop]⟩
  have reached := advance_invariant step ([], 0) s rfl
  simp only [readAttributes, Prod.mk.injEq] at h
  obtain ⟨-, rfl, rfl⟩ := h
  exact reached

/-- The pieces of an element: its tag, its content and its closing tag; or it has no content. -/
theorem readElement?_eq_some {children : Nat → List Char → List Node} {pos gap n : Nat}
    {s rest : List Char} (hlt : s = '<' :: rest) {node : Node}
    (h : readElement? children pos gap s (s.drop (1 + gap)) = some (node, n)) :
    (∃ tag, node = .selfClosing tag ∧ tag.span = ⟨pos, pos + byteLength (s.take n)⟩ ∧ 0 < n) ∨
    ∃ opening inner behind name attributes,
      s = '<' :: opening ++ ['>'] ++ (inner ++ tagCloser name) ++ behind ∧
      n = ('<' :: opening ++ ['>'] ++ (inner ++ tagCloser name)).length ∧
      node = .element
        ⟨name, attributes,
          ⟨pos, pos + byteLength ('<' :: opening ++ ['>'] ++ (inner ++ tagCloser name))⟩⟩
        (readChildren children name (pos + byteLength ('<' :: opening ++ ['>'])) inner) := by
  unfold readElement? at h
  generalize countWhile isTagNameChar (s.drop (1 + gap)) = nameLength at h
  cases hattributes : readAttributes ((s.drop (1 + gap)).drop nameLength) with | mk attributes read
  obtain ⟨k, left⟩ := read
  have hleft := readAttributes_rest hattributes
  rw [List.drop_drop, List.drop_drop, ← Nat.add_assoc] at hleft
  simp only [hattributes] at h
  generalize hlength : 1 + gap + nameLength + k = tagLength at h hleft
  split at h
  · obtain ⟨rfl, rfl⟩ := Prod.mk.inj (Option.some.inj h)
    exact .inl ⟨_, rfl, rfl, by omega⟩
  · rename_i content
    split at h
    · obtain ⟨rfl, rfl⟩ := Prod.mk.inj (Option.some.inj h)
      exact .inl ⟨_, rfl, rfl, by omega⟩
    · simp only [Option.map_eq_some_iff, Prod.mk.injEq] at h
      obtain ⟨m, hm, rfl, rfl⟩ := h
      obtain ⟨inner, behind, rfl, rfl⟩ := closingTagFrom_eq_some hm
      generalize (s.drop (1 + gap)).take nameLength = name at *
      -- the tag begins with `<`, and its length is that of what stands in front of its end
      obtain ⟨opening, hopening⟩ : ∃ opening, s.take tagLength = '<' :: opening := by
        obtain ⟨m, rfl⟩ := Nat.exists_eq_add_of_le (show 1 ≤ tagLength by omega)
        exact ⟨rest.take m, by rw [hlt, Nat.add_comm, List.take_succ_cons]⟩
      have hcut : s = '<' :: opening ++ ['>'] ++ (inner ++ tagCloser name) ++ behind := by
        rw [← List.take_append_drop tagLength s, ← hleft, hopening]
        simp
      have tagLength_eq : opening.length + 1 = tagLength := by
        have := congrArg List.length hleft
        rw [← List.length_cons, ← hopening, List.length_take, Nat.min_eq_left]
        simp only [List.length_cons, List.length_drop] at this
        omega
      have length_eq : ('<' :: opening ++ ['>'] ++ (inner ++ tagCloser name)).length
          = tagLength + 1 + (0 + inner.length) + (tagCloser name).length := by
        simp only [List.length_append, List.length_cons, List.length_nil]
        omega
      have whole : s.take (tagLength + 1 + (0 + inner.length) + (tagCloser name).length)
          = '<' :: opening ++ ['>'] ++ (inner ++ tagCloser name) := by
        rw [hcut]
        exact List.take_left' length_eq
      have front : s.take (tagLength + 1) = '<' :: opening ++ ['>'] := by
        rw [hcut, List.append_assoc]
        exact List.take_left' (by simp [tagLength_eq])
      have inside : (inner ++ tagCloser name ++ behind).take (0 + inner.length) = inner := by
        rw [List.append_assoc]
        exact List.take_left' (by simp)
      rw [whole, front, inside]
      exact .inr ⟨opening, inner, behind, name, attributes, hcut, length_eq.symm, rfl⟩
  · simp at h

/-- One text, or nothing when it is blank. -/
theorem laid_text {source s : List Char} {pos stop : Nat} (hs : Between source pos stop s) :
    Laid source pos (Node.mergeTexts [.text s ⟨pos, stop⟩]) stop := by
  cases blank : allBlank s with
  | true =>
    have merged : Node.mergeTexts [.text s ⟨pos, stop⟩] = [] := by
      simp [Node.mergeTexts, Node.mergeOnto, blank]
    rw [merged]
    exact ⟨.nil hs blank, .nil⟩
  | false => exact laid_mergeText hs.start_nil rfl hs blank ⟨.nil hs.stop_nil rfl, .nil⟩

/-- The content of an element ends where its closing tag begins. -/
theorem between_content {source : List Char} {pos stop : Nat}
    {opening inner behind name : List Char}
    (hs : Between source pos stop
      ('<' :: opening ++ ['>'] ++ (inner ++ tagCloser name) ++ behind)) :
    Between source (pos + byteLength ('<' :: opening ++ ['>']))
      (pos + byteLength ('<' :: opening ++ ['>'] ++ (inner ++ tagCloser name))
        - byteLength (tagCloser name)) inner := by
  have content_stop : pos + byteLength ('<' :: opening ++ ['>'] ++ (inner ++ tagCloser name))
      - byteLength (tagCloser name)
      = pos + byteLength ('<' :: opening ++ ['>']) + byteLength inner := by
    simp only [byteLength_append]
    omega
  rw [content_stop]
  exact hs.split.1.split.2.split.1

section Markup

variable {source : List Char} {children : Nat → List Char → List Node}
  (hchildren : ∀ pos stop inner, Between source pos stop inner →
    Laid source pos (children pos inner) stop)

include hchildren

theorem laid_readChildren (name : List Char) {pos stop : Nat} {inner : List Char}
    (hinner : Between source pos stop inner) :
    Laid source pos (readChildren children name pos inner) stop := by
  unfold readChildren
  split
  · rw [← hinner.stop_eq]
    exact laid_text hinner
  · exact hchildren pos stop inner hinner

/-- An element from its `<` to its closing tag, whose content is accounted for. -/
theorem placed_element {pos stop : Nat} {opening inner behind name : List Char}
    {attributes : List Attribute}
    (hs : Between source pos stop
      ('<' :: opening ++ ['>'] ++ (inner ++ tagCloser name) ++ behind)) :
    Placed source (.element
      ⟨name, attributes,
        ⟨pos, pos + byteLength ('<' :: opening ++ ['>'] ++ (inner ++ tagCloser name))⟩⟩
      (readChildren children name (pos + byteLength ('<' :: opening ++ ['>'])) inner)) := by
  obtain ⟨hopening, hcontent⟩ := hs.split.1.split
  exact .element hopening hcontent (laid_readChildren hchildren name (between_content hs)).covered

variable {s rest : List Char} {pos stop : Nat} (hs : Between source pos stop s)
  (hlt : s = '<' :: rest)

include hs hlt

theorem reads_readElement? {gap n : Nat} {node : Node}
    (h : readElement? children pos gap s (s.drop (1 + gap)) = some (node, n)) :
    Reads source pos s [node] n := by
  have hne : s ≠ [] := by simp [hlt]
  obtain ⟨tag, rfl, hspan, hn⟩ | ⟨opening, inner, behind, name, attributes, hcut, rfl, rfl⟩ :=
    readElement?_eq_some hlt h
  · exact reads_singleton hs hne hn hspan (Placed.selfClosing tag)
  · refine reads_singleton hs hne (by simp) ?_ ?_
    · rw [hcut, List.take_left]
      rfl
    · rw [hcut] at hs
      exact placed_element hchildren hs

/-- Markup tiles what it takes. -/
theorem reads_readMarkup? {node : Node} {n : Nat}
    (h : readMarkup? children pos s = some (node, n)) : Reads source pos s [node] n := by
  have hne : s ≠ [] := by simp [hlt]
  subst hlt
  cases markup_of_readMarkup? h with
  | comment hread =>
    simp only [readComment?, Option.map_eq_some_iff, Prod.mk.injEq, Node.text.injEq] at hread
    obtain ⟨m, -, ⟨rfl, rfl⟩, rfl⟩ := hread
    exact reads_singleton hs hne (by omega) rfl (hs.take _)
  | declaration _ hread =>
    simp only [readDeclaration?, Option.map_eq_some_iff, Prod.mk.injEq,
      Node.declaration.injEq] at hread
    obtain ⟨m, -, ⟨rfl, rfl⟩, rfl⟩ := hread
    exact reads_singleton hs hne (by omega) rfl (Placed.declaration _ _)
  | element _ _ hread => exact reads_readElement? hchildren hs rfl hread

end Markup

/-! ### Content -/

/-- One step through content gives nodes that tile what it takes. -/
theorem reads_contentStep {source : List Char} {children : Nat → List Char → List Node}
    (hchildren : ∀ pos stop inner, Between source pos stop inner →
      Laid source pos (children pos inner) stop)
    {p p' : Progress} {s : List Char} {stop n : Nat} (hs : Between source p.pos stop s)
    (hne : s ≠ []) (h : contentStep children p s = some (p', n)) :
    ∃ nodes, p'.nodes = nodes.reverse ++ p.nodes ∧ p'.pos = p.pos + byteLength (s.take n) ∧
      Reads source p.pos s nodes n := by
  simp only [contentStep, Option.some.injEq, Prod.mk.injEq] at h
  obtain ⟨rfl, rfl⟩ := h
  refine ⟨_, rfl, rfl, ?_⟩
  split
  · -- a construct, or an `@` that begins nothing
    cases hread : readRazor? p.pos p.previous p.afterExpression _ with
    | none => exact reads_literal hs hne Nat.one_pos
    | some read => exact reads_readRazor? hs rfl hread
  · split
    · rename_i hread
      exact reads_readMarkup? hchildren hs rfl hread
    · exact reads_literal hs hne Nat.one_pos
  · -- text up to the next place where something may begin
    obtain ⟨c, s, rfl⟩ := List.exists_cons_of_ne_nil hne
    have hbegin : mayBegin (c :: s) = false := by simp [mayBegin]
    exact reads_literal hs hne (countUntil_pos hbegin)

/-- Content accounts for its text, at any depth. -/
theorem laid_readContent {source s : List Char} {pos stop : Nat} (levels : Nat)
    (hs : Between source pos stop s) : Laid source pos (readContent levels pos s) stop := by
  induction levels generalizing pos stop s with
  | zero =>
    rw [readContent, literal, List.take_length, ← hs.stop_eq]
    exact laid_text hs
  | succ levels ih =>
    rw [readContent]
    -- the nodes so far tile the text up to the place that is reached
    have step : ∀ (p : Progress) rest p' n, rest ≠ [] → (Between source p.pos stop rest ∧
        Tiled source (Fragment source) pos p.nodes.reverse p.pos) →
        contentStep (readContent levels) p rest = some (p', n) → 0 < n ∧
          Between source p'.pos stop (rest.drop n) ∧
          Tiled source (Fragment source) pos p'.nodes.reverse p'.pos := by
      rintro p rest p' n hne ⟨hrest, htiled⟩ hstep
      obtain ⟨nodes, hnodes, hpos, hreads⟩ :=
        reads_contentStep (fun _ _ _ hinner => ih hinner) hrest hne hstep
      refine ⟨hreads.progress, ?_, ?_⟩
      · rw [hpos]
        exact hrest.drop n
      · rw [hnodes, hpos, List.reverse_append, List.reverse_reverse]
        exact htiled.append hreads.tiled
    obtain ⟨hrest, htiled⟩ := advance_invariant step { pos } s ⟨hs, .nil hs.start_nil rfl⟩
    rw [advance_rest_eq_nil (fun p s => by simp [contentStep])] at hrest
    have reached := hrest.stop_eq
    rw [byteLength_nil, Nat.add_zero] at reached
    rw [← reached] at htiled
    exact laid_mergeTexts htiled

/-- What every step through content keeps, at any place of the text, is kept of its nodes. -/
theorem readContent_invariant {source s : List Char} {pos stop : Nat} (levels : Nat)
    (hs : Between source pos stop s) {I : List Node → Prop} (hnil : I [])
    (hstep : ∀ (p : Progress) rest p' n, Between source p.pos stop rest → I p.nodes.reverse →
      contentStep (readContent levels) p rest = some (p', n) → I p'.nodes.reverse) :
    I (advance (contentStep (readContent levels)) 0 { pos } s).1.nodes.reverse := by
  have step : ∀ (p : Progress) rest p' n, rest ≠ [] →
      (Between source p.pos stop rest ∧ I p.nodes.reverse) →
      contentStep (readContent levels) p rest = some (p', n) → 0 < n ∧
        Between source p'.pos stop (rest.drop n) ∧ I p'.nodes.reverse := by
    rintro p rest p' n hne ⟨hrest, hI⟩ hnext
    obtain ⟨_, -, hpos, hreads⟩ :=
      reads_contentStep (fun _ _ _ hinner => laid_readContent levels hinner) hrest hne hnext
    refine ⟨hreads.progress, ?_, hstep p rest p' n hrest hI hnext⟩
    rw [hpos]
    exact hrest.drop n
  exact (advance_invariant step { pos } s ⟨hs, hnil⟩).2

/-! ### Templates -/

theorem TextsApart.append {nodes nodes' : List Node} (h : TextsApart nodes)
    (h' : TextsApart nodes') (hlast : ∀ node ∈ nodes.getLast?, node.isText = false) :
    TextsApart (nodes ++ nodes') := by
  refine List.isChain_append.2 ⟨h, h', ?_⟩
  intro node hnode next _ htext
  simp [hlast node hnode] at htext

/-- The content before a code section, and the section, account for what they take. -/
theorem laid_sectionStep {source s : List Char} {stop n : Nat} {st st' : Sections}
    (hs : Between source st.pos stop s) (h : sectionStep st s = some (st', n)) :
    0 < n ∧ st'.pos = st.pos + byteLength (s.take n) ∧ ∃ nodes block,
      st'.nodes = st.nodes ++ (nodes ++ [.code block]) ∧
      Laid source st.pos (nodes ++ [.code block]) st'.pos := by
  simp only [sectionStep, Option.bind_eq_bind, Option.bind_eq_some_iff, Option.pure_def,
    Option.some.injEq, Prod.mk.injEq, Prod.exists] at h
  obtain ⟨front, k, hfind, m, -, rfl, rfl⟩ := h
  obtain ⟨before, v, rfl, rfl, hv⟩ := search_eq_some hfind
  obtain ⟨gap, rest, rfl, -, rfl⟩ := Opening.partsLength?_keyword hv
  generalize hk : ("@code".toList ++ gap).length + 1 = k
  have hne : "@code".toList ++ gap ++ '{' :: rest ≠ [] := by simp
  generalize "@code".toList ++ gap ++ '{' :: rest = v at *
  obtain ⟨hbefore, hsection⟩ := hs.split
  have content : Laid source st.pos (readNested 0 st.pos before) (st.pos + byteLength before) :=
    laid_readContent _ hbefore
  -- behind the content the section is one node
  have taken : st.pos + byteLength ((before ++ v).take (before.length + k + m))
      = st.pos + byteLength before + byteLength (v.take (k + m)) := by
    rw [Nat.add_assoc before.length, List.take_length_add_append, byteLength_append, Nat.add_assoc]
  rw [List.take_left, taken]
  let block : CodeBlock :=
    ⟨.directive, CodeBlock.sectionWord ++
        trim (((before ++ v).take (before.length + k + m - 1)).drop (before.length + k)),
      ⟨st.pos + byteLength before, st.pos + byteLength before + byteLength (v.take (k + m))⟩⟩
  have node : Tiled source (Placed source) (st.pos + byteLength before) [.code block]
      (st.pos + byteLength before + byteLength (v.take (k + m))) :=
    tiled_singleton hsection hne (by omega) rfl (.code trivial)
  refine ⟨by omega, rfl, readNested 0 st.pos before, block, List.append_assoc .., ?_⟩
  refine ⟨content.tiled.append node, List.isChain_append.2 ⟨content.apart, .singleton _, ?_⟩⟩
  simp [Node.isText]

/-- The content in front of a code section, with its place in the source. -/
theorem sectionStep_content {source s : List Char} {stop n : Nat} {st st' : Sections}
    (hs : Between source st.pos stop s) (h : sectionStep st s = some (st', n)) :
    ∃ before block, st'.nodes = st.nodes ++ (readNested 0 st.pos before ++ [.code block]) ∧
      Between source st.pos block.span.start before ∧ block.isSection = true := by
  obtain ⟨before, gap, inner, rest, stop', hcut, -, hnodes, -⟩ := sectionStep_eq_some h
  have hbefore : Between source st.pos (st.pos + byteLength before) before := by
    rw [hcut] at hs
    simp only [List.append_assoc] at hs
    exact hs.split.1
  exact ⟨before, _, by rw [hnodes, List.append_assoc], hbefore, by simp [CodeBlock.isSection]⟩

/-- What every step from section to section keeps, at any place of the source, is kept of the nodes
in front of the rest. -/
theorem sections_invariant (source : List Char) {I : List Node → Prop} (hnil : I [])
    (hstep : ∀ (st : Sections) rest st' n, Between source st.pos (byteLength source) rest →
      I st.nodes → sectionStep st rest = some (st', n) → I st'.nodes) :
    Between source (advance sectionStep 0 {} source).1.pos (byteLength source)
        (advance sectionStep 0 {} source).2 ∧
      I (advance sectionStep 0 {} source).1.nodes := by
  have step : ∀ (st : Sections) rest st' n, rest ≠ [] →
      (Between source st.pos (byteLength source) rest ∧ I st.nodes) →
      sectionStep st rest = some (st', n) → 0 < n ∧
        Between source st'.pos (byteLength source) (rest.drop n) ∧ I st'.nodes := by
    rintro st rest st' n - ⟨hrest, hI⟩ hnext
    obtain ⟨hn, hpos, -⟩ := laid_sectionStep hrest hnext
    refine ⟨hn, ?_, hstep st rest st' n hrest hI hnext⟩
    rw [hpos]
    exact hrest.drop n
  exact advance_invariant step {} source ⟨Between.whole source, hnil⟩

/-- The nodes of a template account for its source. -/
theorem covered_readDocument (source : List Char) :
    Covered source 0 (byteLength source) (readDocument source) := by
  have step : ∀ (st : Sections) rest st' n, rest ≠ [] →
      (Between source st.pos (byteLength source) rest ∧ Laid source 0 st.nodes st.pos ∧
        ∀ node ∈ st.nodes.getLast?, node.isText = false) →
      sectionStep st rest = some (st', n) → 0 < n ∧
        Between source st'.pos (byteLength source) (rest.drop n) ∧
        Laid source 0 st'.nodes st'.pos ∧ ∀ node ∈ st'.nodes.getLast?, node.isText = false := by
    rintro st rest st' n - ⟨hrest, hlaid, hlast⟩ hstep
    obtain ⟨hn, hpos, nodes, block, hnodes, hlaid'⟩ := laid_sectionStep hrest hstep
    refine ⟨hn, ?_, ?_, ?_⟩
    · rw [hpos]
      exact hrest.drop n
    · rw [hnodes]
      exact ⟨hlaid.tiled.append hlaid'.tiled, hlaid.apart.append hlaid'.apart hlast⟩
    · simp [hnodes, Node.isText]
  have whole := Between.whole source
  obtain ⟨hrest, hlaid, hlast⟩ := advance_invariant step {} source
    ⟨whole, ⟨.nil whole.start_nil rfl, .nil⟩, by simp⟩
  have content := laid_readContent (maxNesting + 1) hrest
  exact covered_of_tiled (hlaid.tiled.append content.tiled)
    (hlaid.apart.append content.apart hlast)

end RazorLayout.Template

import RazorLayout.Proofs.Template.Coverage

/-!
# How deep nodes stand

Content is read at a depth: that of a template is `0`, that of an element or of the body of a block
is one more than the depth of the element or block. Content that is too deep is literal text.
This file says which nodes can come from which depth. Since only elements hold nodes, everything
follows from one fact: the children of an element that is read at a depth are read one level
deeper.

## Main definitions

* `FromContent`: what content is made of
* `ReadAt`: the nodes that reading gives at a depth
* `NestedWithin`: nodes with a limited number of levels

## Main results

* `readRazor?_cases`: what an `@` begins
* `ReadAt.child`: the children of an element are read one level deeper
* `ReadAt.le_maxNesting`: whatever is not text is not too deep
* `ReadAt.nestedWithin`: the levels below a node are limited by its depth
-/

namespace RazorLayout.Template

open Text

/-- Putting texts together changes nothing but texts. -/
theorem mem_mergeTexts {node : Node} {nodes : List Node} (h : node ∈ Node.mergeTexts nodes) :
    node.isText = true ∨ node ∈ nodes := by
  induction nodes with
  | nil => simp [Node.mergeTexts] at h
  | cons first nodes ih =>
    rw [Node.mergeTexts, List.foldr_cons, ← Node.mergeTexts] at h
    have later (h : node ∈ Node.mergeTexts nodes) : node.isText = true ∨ node ∈ first :: nodes :=
      (ih h).imp_right (List.mem_cons_of_mem first)
    have either (h : node ∈ first :: Node.mergeTexts nodes) :
        node.isText = true ∨ node ∈ first :: nodes := by
      rcases List.mem_cons.1 h with rfl | h
      · exact .inr List.mem_cons_self
      · exact later h
    unfold Node.mergeOnto at h
    split at h
    · split at h
      · exact later h
      · split at h
        · rename_i hmerged
          split at h
          · rcases List.mem_cons.1 h with rfl | h
            · exact .inl rfl
            · rw [hmerged] at later
              exact later (List.mem_cons_of_mem _ h)
          · exact either (hmerged ▸ h)
        · exact either h
    · exact either h

/-! ### Where the content of elements comes from -/

/-- If the node is an element, its content was read by `children`. -/
def HoldsContent (children : Nat → List Char → List Node) (node : Node) : Prop :=
  ∀ tag nodes, node = .element tag nodes →
    ∃ pos inner, nodes = readChildren children tag.name pos inner

section Readers

variable {children : Nat → List Char → List Node}

theorem holdsContent_of_not_isMarkup {node : Node} (h : node.isMarkup = false) :
    HoldsContent children node := by
  rintro tag nodes rfl
  simp [Node.isMarkup] at h

theorem isMarkup_of_isPlain {node : Node} (h : node.isPlain = true) : node.isMarkup = false := by
  cases node <;> simp_all [Node.isPlain, Node.isMarkup]

theorem isMarkup_of_isText {node : Node} (h : node.isText = true) : node.isMarkup = false := by
  cases node <;> simp_all [Node.isText, Node.isMarkup]

/-- The branches of a chain are blocks. -/
theorem control_readIfChain? {s : List Char} {pos n : Nat} {nodes : List Node}
    (h : readIfChain? pos s = some (nodes, n)) :
    ∀ node ∈ nodes, ∃ block, node = .code block ∧ block.kind.isControl = true := by
  simp only [readIfChain?, Option.bind_eq_bind, Option.bind_eq_some_iff, Option.pure_def,
    Option.some.injEq, Prod.mk.injEq, Prod.exists] at h
  obtain ⟨k, -, first, length, hfirst, rfl, -⟩ := h
  have step : ∀ (chain : Chain) rest chain' m,
      (∀ node ∈ chain.branches, ∃ block, node = .code block ∧ block.kind.isControl = true) →
      chainStep chain rest = some (chain', m) →
      ∀ node ∈ chain'.branches, ∃ block, node = .code block ∧ block.kind.isControl = true := by
    intro chain rest chain' m hchain hstep
    unfold chainStep at hstep
    split at hstep
    · simp only [Option.map_eq_some_iff, Prod.mk.injEq, Prod.exists] at hstep
      obtain ⟨node, m, more, hbranch, rfl, rfl⟩ := hstep
      exact List.forall_mem_cons.2 ⟨(isBlockAt_readBranch? hbranch).control, hchain⟩
    · simp at hstep
  intro node hnode
  refine advance_state_invariant step 0 ⟨[first], length, first.span.stop, true⟩ _ ?_ node
    (List.mem_reverse.1 hnode)
  simpa using (isBlockAt_readBlock? rfl hfirst).control

theorem control_readForeach? {s : List Char} {pos n : Nat} {nodes : List Node}
    (h : readForeach? pos s = some (nodes, n)) :
    ∀ node ∈ nodes, ∃ block, node = .code block ∧ block.kind.isControl = true := by
  simp only [readForeach?, Option.bind_eq_bind, Option.bind_eq_some_iff, Option.pure_def,
    Option.some.injEq, Prod.mk.injEq, Prod.exists] at h
  obtain ⟨_, -, node, _, hnode, rfl, -⟩ := h
  simpa using (isBlockAt_readBlock? rfl hnode).control

/-- Code among blocks is a block. -/
theorem isControl_of_mem {nodes : List Node}
    (h : ∀ node ∈ nodes, ∃ block, node = .code block ∧ block.kind.isControl = true)
    {block : CodeBlock} (hmem : .code block ∈ nodes) : block.kind.isControl = true := by
  obtain ⟨_, hcode, hcontrol⟩ := h _ hmem
  rwa [Node.code.inj hcode]

/-- A construct is one node without a body, or it is made of blocks. -/
theorem readRazor?_cases {s : List Char} {pos n : Nat} {previous : Option Char}
    {afterExpression : Bool} {nodes : List Node}
    (h : readRazor? pos previous afterExpression ('@' :: s) = some (nodes, n)) :
    (∃ node, nodes = [node] ∧ node.isPlain = true) ∨
      readIfChain? pos ('@' :: s) = some (nodes, n) ∨
      readForeach? pos ('@' :: s) = some (nodes, n) := by
  cases construct_of_readRazor? h with
  | @directive d hread =>
    obtain ⟨keyword, hkeyword, _, _, _, -, -, -, heq⟩ := Directive.read?_eq_some hread
    have hd : d.keyword ∈ Directive.keywords := by rwa [heq]
    refine .inl ⟨_, rfl, ?_⟩
    simp [codeNode, Node.isPlain, Directive.isSection_code hd, CodeKind.isControl]
  | ifChain hread => exact .inr (.inl hread)
  | foreachLoop hread => exact .inr (.inr hread)
  | mark | comment | inlineBlock | parenthesised | expression => exact .inl ⟨_, rfl, rfl⟩

/-- The nodes of constructs are plain, or they are blocks. -/
theorem plain_or_control_readRazor? {s : List Char} {pos n : Nat} {previous : Option Char}
    {afterExpression : Bool} {nodes : List Node}
    (h : readRazor? pos previous afterExpression ('@' :: s) = some (nodes, n)) {node : Node}
    (hnode : node ∈ nodes) :
    node.isPlain = true ∨ ∃ block, node = .code block ∧ block.kind.isControl = true := by
  obtain ⟨_, rfl, hplain⟩ | h | h := readRazor?_cases h
  · obtain rfl := List.mem_singleton.1 hnode
    exact .inl hplain
  · exact .inr (control_readIfChain? h node hnode)
  · exact .inr (control_readForeach? h node hnode)

/-- The constructs that an `@` begins are texts and code. -/
theorem isMarkup_readRazor? {s : List Char} {pos n : Nat} {previous : Option Char}
    {afterExpression : Bool} {nodes : List Node}
    (h : readRazor? pos previous afterExpression ('@' :: s) = some (nodes, n)) :
    ∀ node ∈ nodes, node.isMarkup = false := by
  intro node hnode
  obtain hplain | ⟨block, rfl, -⟩ := plain_or_control_readRazor? h hnode
  · exact isMarkup_of_isPlain hplain
  · rfl

/-- The pieces of an element that is read. -/
theorem readMarkup?_eq_element {pos n : Nat} {t : List Char} {tag : Tag} {nodes : List Node}
    (h : readMarkup? children pos ('<' :: t) = some (.element tag nodes, n)) :
    ∃ opening inner behind,
      '<' :: t = '<' :: opening ++ ['>'] ++ (inner ++ tagCloser tag.name) ++ behind ∧
      tag.span
        = ⟨pos, pos + byteLength ('<' :: opening ++ ['>'] ++ (inner ++ tagCloser tag.name))⟩ ∧
      nodes
        = readChildren children tag.name (pos + byteLength ('<' :: opening ++ ['>'])) inner := by
  cases markup_of_readMarkup? h with
  | element _ _ hread =>
    obtain ⟨tag, htag, -⟩ | ⟨opening, inner, behind, name, attributes, hcut, -, helement⟩ :=
      readElement?_eq_some rfl hread
    · simp at htag
    · cases helement
      exact ⟨opening, inner, behind, hcut, rfl, rfl⟩

theorem holdsContent_readMarkup? {pos n : Nat} {t : List Char} {node : Node}
    (h : readMarkup? children pos ('<' :: t) = some (node, n)) : HoldsContent children node := by
  rintro tag nodes rfl
  obtain ⟨opening, inner, behind, -, -, rfl⟩ := readMarkup?_eq_element h
  exact ⟨_, _, rfl⟩

/-- Markup is no code. -/
theorem readMarkup?_ne_code {pos n : Nat} {t : List Char} {block : CodeBlock} :
    readMarkup? children pos ('<' :: t) ≠ some (.code block, n) := by
  intro h
  cases markup_of_readMarkup? h with
  | element _ _ hread =>
    obtain ⟨tag, htag, -⟩ | ⟨_, _, _, _, _, -, -, helement⟩ := readElement?_eq_some rfl hread
    · simp at htag
    · simp at helement

/-- What content is made of: literal text, the constructs that an `@` begins, and the markup that a
`<` begins. -/
def FromContent (children : Nat → List Char → List Node) (node : Node) : Prop :=
  node.isText = true ∨
  (∃ pos previous afterExpression t nodes n,
    readRazor? pos previous afterExpression ('@' :: t) = some (nodes, n) ∧ node ∈ nodes) ∨
  ∃ pos t n, readMarkup? children pos ('<' :: t) = some (node, n)

theorem FromContent.isMarkup_or {node : Node} (h : FromContent children node) :
    node.isMarkup = false ∨
      ∃ pos t n, readMarkup? children pos ('<' :: t) = some (node, n) := by
  rcases h with htext | ⟨_, _, _, _, _, _, hread, hnode⟩ | hmarkup
  · exact .inl (isMarkup_of_isText htext)
  · exact .inl (isMarkup_readRazor? hread _ hnode)
  · exact .inr hmarkup

/-- Whatever a step through content adds is content. -/
theorem mem_contentStep {p p' : Progress} {s : List Char} {n : Nat}
    (h : contentStep children p s = some (p', n)) {node : Node} (hnode : node ∈ p'.nodes) :
    node ∈ p.nodes ∨ FromContent children node := by
  simp only [contentStep, Option.some.injEq, Prod.mk.injEq] at h
  obtain ⟨rfl, -⟩ := h
  rcases List.mem_append.1 hnode with hnode | hnode
  · rw [List.mem_reverse] at hnode
    right
    split at hnode
    · cases hread : readRazor? p.pos p.previous p.afterExpression _ with
      | none =>
        rw [hread] at hnode
        obtain rfl := List.mem_singleton.1 hnode
        exact .inl rfl
      | some read =>
        rw [hread] at hnode
        exact .inr (.inl ⟨_, _, _, _, _, _, hread, hnode⟩)
    · split at hnode
      · rename_i hread
        obtain rfl := List.mem_singleton.1 hnode
        exact .inr (.inr ⟨_, _, _, hread⟩)
      · obtain rfl := List.mem_singleton.1 hnode
        exact .inl rfl
    · obtain rfl := List.mem_singleton.1 hnode
      exact .inl rfl
  · exact .inl hnode

end Readers

/-- The nodes of content, with one level less for what elements hold. -/
theorem fromContent_of_mem_readContent {levels pos : Nat} {s : List Char} {node : Node}
    (h : node ∈ readContent (levels + 1) pos s) : FromContent (readContent levels) node := by
  rw [readContent] at h
  rcases mem_mergeTexts h with htext | hread
  · exact .inl htext
  · have step : ∀ (p : Progress) rest p' n,
        (∀ node ∈ p.nodes, FromContent (readContent levels) node) →
        contentStep (readContent levels) p rest = some (p', n) →
        ∀ node ∈ p'.nodes, FromContent (readContent levels) node :=
      fun p rest p' n hp hstep node hnode => (mem_contentStep hstep hnode).elim (hp node) id
    exact advance_state_invariant step 0 { pos } s (by simp) node (List.mem_reverse.1 hread)

/-- The elements and declarations of content were read from a `<`, with one level less for what
they hold. -/
theorem mem_readContent {levels pos : Nat} {s : List Char} {node : Node}
    (h : node ∈ readContent (levels + 1) pos s) :
    node.isMarkup = false ∨
      ∃ pos t n, readMarkup? (readContent levels) pos ('<' :: t) = some (node, n) :=
  (fromContent_of_mem_readContent h).isMarkup_or

/-- The content of an element is read with one level less than the content that it stands in. -/
theorem holdsContent_readContent {levels pos : Nat} {s : List Char} {node : Node}
    (h : node ∈ readContent (levels + 1) pos s) : HoldsContent (readContent levels) node := by
  rcases mem_readContent h with hmarkup | ⟨_, _, _, hread⟩
  · exact holdsContent_of_not_isMarkup hmarkup
  · exact holdsContent_readMarkup? hread

/-- Content that is too deep is text. -/
theorem isText_of_mem_readContent_zero {pos : Nat} {s : List Char} {node : Node}
    (h : node ∈ readContent 0 pos s) : node.isText = true := by
  rw [readContent] at h
  rcases mem_mergeTexts h with htext | hread
  · exact htext
  · rw [List.mem_singleton.1 hread]
    rfl

/-- The nodes of a template are code sections and nodes of content. -/
theorem mem_readDocument {t : List Char} {node : Node} (h : node ∈ readDocument t) :
    (∃ block, node = .code block ∧ block.isSection = true) ∨
      ∃ pos s, node ∈ readNested 0 pos s := by
  have step : ∀ (st : Sections) rest st' n,
      (∀ node ∈ st.nodes, (∃ block, node = .code block ∧ block.isSection = true) ∨
        ∃ pos s, node ∈ readNested 0 pos s) →
      sectionStep st rest = some (st', n) →
      ∀ node ∈ st'.nodes, (∃ block, node = .code block ∧ block.isSection = true) ∨
        ∃ pos s, node ∈ readNested 0 pos s := by
    intro st rest st' n hst hstep node hnode
    obtain ⟨before, gap, inner, behind, stop, -, -, hnodes, -⟩ := sectionStep_eq_some hstep
    simp only [hnodes, List.mem_append, List.mem_singleton] at hnode
    rcases hnode with (hnode | hnode) | hnode
    · exact hst node hnode
    · exact .inr ⟨_, _, hnode⟩
    · exact .inl ⟨_, hnode, by simp [CodeBlock.isSection]⟩
  rcases List.mem_append.1 h with h | h
  · exact advance_state_invariant step 0 {} t (by simp) node h
  · exact .inr ⟨_, _, h⟩

/-! ### Depth -/

/-- The nodes that reading gives `depth` levels deep: those of a template, of the content of an
element and of the body of a block. -/
inductive ReadAt : (depth : Nat) → Node → Prop
  | template {t : List Char} {node : Node} (h : node ∈ readDocument t) : ReadAt 0 node
  | content {depth pos : Nat} {name inner : List Char} {node : Node}
    (h : node ∈ readChildren (readNested (depth + 1)) name pos inner) : ReadAt (depth + 1) node
  | body {depth : Nat} {inner : List Char} {node : Node} (h : node ∈ readNested depth 0 inner) :
    ReadAt depth node

namespace ReadAt

variable {depth : Nat}

/-- Whatever is read at a depth is text, a section of a template, or comes from content there. -/
theorem text_or_code_or_mem {node : Node} (h : ReadAt depth node) :
    node.isText = true ∨ (depth = 0 ∧ ∃ block, node = .code block ∧ block.isSection = true) ∨
      ∃ pos s, node ∈ readNested depth pos s := by
  cases h with
  | template h => exact .inr ((mem_readDocument h).imp_left fun hcode => ⟨rfl, hcode⟩)
  | content h =>
    unfold readChildren at h
    split at h
    · rcases mem_mergeTexts h with htext | hread
      · exact .inl htext
      · exact .inl (by rw [List.mem_singleton.1 hread]; rfl)
    · exact .inr (.inr ⟨_, _, h⟩)
  | body h => exact .inr (.inr ⟨_, _, h⟩)

theorem le_maxNesting {node : Node} (h : ReadAt depth node) (hnode : node.isText = false) :
    depth ≤ maxNesting := by
  rcases h.text_or_code_or_mem with htext | ⟨rfl, -⟩ | ⟨pos, s, hread⟩
  · simp [hnode] at htext
  · exact Nat.zero_le _
  · by_contra hdeep
    rw [readNested, show maxNesting + 1 - depth = 0 by omega] at hread
    simp [isText_of_mem_readContent_zero hread] at hnode

/-- The children of an element are read one level deeper. -/
theorem child {tag : Tag} {children : List Node} (h : ReadAt depth (.element tag children))
    {child : Node} (hchild : child ∈ children) : ReadAt (depth + 1) child := by
  have hdepth : depth ≤ maxNesting := h.le_maxNesting rfl
  rcases h.text_or_code_or_mem with htext | ⟨-, block, hcode, -⟩ | ⟨pos, s, hread⟩
  · simp [Node.isText] at htext
  · simp at hcode
  · have deeper : maxNesting + 1 - depth = maxNesting + 1 - (depth + 1) + 1 := by omega
    rw [readNested, deeper] at hread
    obtain ⟨pos', inner, rfl⟩ := holdsContent_readContent hread tag children rfl
    exact .content hchild

end ReadAt

/-- Nodes with at most `levels` levels of elements. -/
inductive NestedWithin : (levels : Nat) → Node → Prop
  | leaf {levels : Nat} {node : Node} (h : ∀ tag children, node ≠ .element tag children) :
    NestedWithin levels node
  | element {levels : Nat} {tag : Tag} {children : List Node}
    (h : ∀ child ∈ children, NestedWithin levels child) :
    NestedWithin (levels + 1) (.element tag children)

/-- The levels below a node are limited by its depth. -/
theorem ReadAt.nestedWithin {depth : Nat} {node : Node} (h : ReadAt depth node) :
    NestedWithin (maxNesting + 1 - depth) node := by
  -- on the number of levels that are left
  induction hlevels : maxNesting + 1 - depth generalizing depth node with
  | zero =>
    refine .leaf ?_
    rintro tag children rfl
    have := h.le_maxNesting rfl
    omega
  | succ levels ih =>
    cases node with
    | element tag children => exact .element fun child hchild => ih (h.child hchild) (by omega)
    | _ => exact .leaf (by simp)

end RazorLayout.Template

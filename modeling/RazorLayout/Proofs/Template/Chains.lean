import RazorLayout.Proofs.Template.Depth

/-!
# Chains of branches

A branch `else { … }` or `else if (…) { … }` is read only as part of a chain that begins with
`@if (…) { … }`. This file shows what this means for the nodes that stand next to each other, in a
template, in an element and in the body of a block: in front of a branch stands the block that it
belongs to, with nothing but blanks between them; and where a chain ends with a block that another
branch may follow, no branch follows in the text, or it is not closed there.

The text of a template ends for a chain where the next code section begins, since sections are
looked for first. A branch that holds a code section is cut off by it.

## Main definitions

* `BeginsBranch`: a text that begins with a branch
* `Chained`: nodes in which every branch belongs to a chain, and chains go on as far as they can
* `ChainedTree`: the same, and so on inside of elements

## Main results

* `readBranch?_ne_none`: a branch at the head of a text is read
* `linked_readIfChain?`: the nodes of a chain
* `linkedContent_readContent`: the nodes of content
* `chainedTree_of_reading`: the nodes of a template, and of a body
-/

namespace RazorLayout.Node

/-- The blocks that a branch may follow. -/
def awaitsBranch : Node → Bool
  | code block => block.kind = .ifBlock || block.kind = .elseIfBlock
  | _ => false

/-- The blocks that follow another one. -/
def isBranch : Node → Bool
  | code block => block.kind = .elseIfBlock || block.kind = .elseBlock
  | _ => false

/-- The code sections of a template. -/
def isSection : Node → Bool
  | code block => block.isSection
  | _ => false

end RazorLayout.Node

namespace RazorLayout.Template

open Text Code

/-! ### Branches at the head of a text -/

/-- The text begins with blanks and a body, whose brace is closed in the text. -/
def BeginsBody (s : List Char) : Prop :=
  ∃ gap rest, s = gap ++ '{' :: rest ∧ allBlank gap = true ∧
    Bracket.brace.matchPlain? ('{' :: rest) ≠ none

/-- The text begins with a branch, whose parentheses and braces are closed in the text. -/
inductive BeginsBranch : List Char → Prop
  | elseIfBlock {gap₁ gap₂ condition rest : List Char} (hgap₁ : allBlank gap₁ = true)
    (hne : gap₁ ≠ []) (hgap₂ : allBlank gap₂ = true)
    (hcondition : Bracket.paren.matchCode? ('(' :: (condition ++ ')' :: rest))
      = some (condition.length + 1))
    (hbody : BeginsBody rest) :
    BeginsBranch ("else".toList ++ gap₁ ++ "if".toList ++ gap₂ ++ '(' :: (condition ++ ')' :: rest))
  | elseBlock {rest : List Char} (hbody : BeginsBody rest) : BeginsBranch ("else".toList ++ rest)

theorem BeginsBody.readBody?_ne_none {s : List Char} (h : BeginsBody s) : readBody? s ≠ none := by
  obtain ⟨gap, rest, rfl, hgap, hclosed⟩ := h
  rw [readBody?_brace hgap, Ne, Option.map_eq_none_iff, readBraces?, Option.map_eq_none_iff]
  exact hclosed

theorem readBlock?_ne_none {kind : CodeKind} {word : List Char} (pos : Nat)
    (opening : List Char) {condition rest : List Char}
    (hcondition : Bracket.paren.matchCode? ('(' :: (condition ++ ')' :: rest))
      = some (condition.length + 1))
    (hbody : BeginsBody rest) :
    readBlock? kind word pos (opening.length + 1) (opening ++ '(' :: (condition ++ ')' :: rest))
      ≠ none := by
  obtain ⟨⟨body, n⟩, hbody⟩ := Option.ne_none_iff_exists'.1 hbody.readBody?_ne_none
  simp [readBlock?, readCondition?, hcondition, hbody]

theorem elseIfBlock_length?_eq {gap₁ gap₂ : List Char} (hgap₁ : allBlank gap₁ = true)
    (hne : gap₁ ≠ []) (hgap₂ : allBlank gap₂ = true) (s : List Char) :
    Opening.elseIfBlock.length? ("else".toList ++ gap₁ ++ "if".toList ++ gap₂ ++ '(' :: s)
      = some (("else".toList ++ gap₁ ++ "if".toList ++ gap₂).length + 1) := by
  have count : countWhile isBlank (gap₁ ++ ("if".toList ++ gap₂ ++ '(' :: s)) = gap₁.length :=
    countWhile_append_of_all (allBlank_iff.1 hgap₁) fun d hd => by
      obtain rfl : 'i' = d := by simpa using hd
      decide
  have blanks : OpeningPart.someBlanks.length? (gap₁ ++ ("if".toList ++ gap₂ ++ '(' :: s))
      = some gap₁.length := by
    simp only [OpeningPart.length?, count]
    split
    · rename_i hzero
      exact absurd (List.eq_nil_of_length_eq_zero hzero) hne
    · rfl
  have rest := Opening.partsLength?_of_keyword "if".toList hgap₂ (c := '(') (by decide) s
  have word : "else".toList.isPrefixOf
      ("else".toList ++ (gap₁ ++ ("if".toList ++ gap₂ ++ '(' :: s))) = true :=
    List.isPrefixOf_iff_prefix.2 (List.prefix_append _ _)
  rw [show "else".toList ++ gap₁ ++ "if".toList ++ gap₂ ++ '(' :: s
    = "else".toList ++ (gap₁ ++ ("if".toList ++ gap₂ ++ '(' :: s)) by simp only [List.append_assoc]]
  rw [Opening.length?, Opening.parts, Opening.partsLength?, OpeningPart.length?, if_pos word,
    Option.bind_eq_bind, Option.bind_some, List.drop_left, Opening.partsLength?, blanks,
    Option.bind_eq_bind, Option.bind_some, List.drop_left, rest]
  simp
  omega

theorem elseIfBlock_length?_eq_none {gap : List Char} (hgap : allBlank gap = true)
    (s : List Char) :
    Opening.elseIfBlock.length? ("else".toList ++ gap ++ '{' :: s) = none := by
  rw [Option.eq_none_iff_forall_ne_some]
  intro n hn
  obtain ⟨gap₁, gap₂, rest, heq, hgap₁, -, -⟩ := Opening.elseIfBlock_length? hn
  have heq : gap ++ '{' :: s = gap₁ ++ ("if".toList ++ gap₂ ++ '(' :: rest) := by
    simpa using heq
  -- behind the blanks stands the brace, and not the second word
  have first := congrArg (List.dropWhile isBlank) heq
  rw [List.dropWhile_append_of_pos (allBlank_iff.1 hgap),
    List.dropWhile_append_of_pos (allBlank_iff.1 hgap₁), List.dropWhile_cons_of_neg (by decide)]
    at first
  exact absurd (List.cons.inj first).1 (by decide)

/-- A branch at the head of a text is read. -/
theorem readBranch?_ne_none {s : List Char} (h : BeginsBranch s) (pos : Nat) :
    readBranch? pos s ≠ none := by
  cases h with
  | @elseIfBlock gap₁ gap₂ condition rest hgap₁ hne hgap₂ hcondition hbody =>
    rw [readBranch?, elseIfBlock_length?_eq hgap₁ hne hgap₂]
    simpa using readBlock?_ne_none pos ("else".toList ++ gap₁ ++ "if".toList ++ gap₂)
      hcondition hbody
  | elseBlock hbody =>
    obtain ⟨gap, rest, rfl, hgap, hclosed⟩ := hbody
    have opened : Opening.elseBlock.length? ("else".toList ++ gap ++ '{' :: rest)
        = some (("else".toList ++ gap).length + 1) :=
      Opening.partsLength?_of_keyword "else".toList hgap (by decide) rest
    rw [← List.append_assoc, readBranch?, elseIfBlock_length?_eq_none hgap, opened]
    simp only [Nat.add_sub_cancel, List.drop_left]
    rw [Ne, Option.map_eq_none_iff, readBraces?, Option.map_eq_none_iff]
    exact hclosed

/-! ### Nodes next to each other -/

/-- No branch begins between the two places, behind blanks. -/
def NoBranch (source : List Char) (start stop : Nat) : Prop :=
  ∃ rest, Between source start stop rest ∧ ¬ BeginsBranch (trimStart rest)

/-- A branch follows the block that it belongs to, with blanks between them. -/
def Joined (source : List Char) (block branch : Node) : Prop :=
  block.awaitsBranch = true ∧
    ∃ gap, Between source block.span.stop branch.span.start gap ∧ allBlank gap = true

/-- The branch that the nodes begin with. -/
def firstBranch? (nodes : List Node) : Option Node := nodes.head?.filter Node.isBranch

/-- Every branch follows the block that it belongs to, and every block that a branch may follow, and
none does, has the property `P`, together with the nodes behind it. -/
def Linked (source : List Char) (P : Node → List Node → Prop) : List Node → Prop
  | [] => True
  | node :: nodes =>
    (∀ branch ∈ firstBranch? nodes, Joined source node branch) ∧
    (node.awaitsBranch = true → firstBranch? nodes = none → P node nodes) ∧
    Linked source P nodes

section Linked

variable {source : List Char} {P P' : Node → List Node → Prop} {nodes nodes' : List Node}

theorem firstBranch?_cons_of_not_isBranch {node : Node} (h : node.isBranch = false)
    (nodes : List Node) : firstBranch? (node :: nodes) = none := by
  simp [firstBranch?, h]

theorem firstBranch?_append (nodes : List Node) (h : firstBranch? nodes' = none) :
    firstBranch? (nodes ++ nodes') = firstBranch? nodes := by
  cases nodes with
  | nil => exact h
  | cons => rfl

/-- Behind a node that awaits no branch there is none. -/
theorem Linked.firstBranch?_tail {node : Node} (h : Linked source P (node :: nodes))
    (hnode : node.awaitsBranch = false) : firstBranch? nodes = none := by
  rw [Option.eq_none_iff_forall_ne_some]
  intro branch hbranch
  have joined := h.1 branch hbranch
  simp [joined.1] at hnode

theorem linked_singleton {node : Node} (hnode : node.awaitsBranch = false) :
    Linked source P [node] :=
  ⟨by simp [firstBranch?], by simp [hnode], trivial⟩

theorem linked_cons_of_not_awaits {node : Node} (hnode : node.awaitsBranch = false)
    (hnodes : firstBranch? nodes = none) (h : Linked source P nodes) :
    Linked source P (node :: nodes) :=
  ⟨by simp [hnodes], by simp [hnode], h⟩

/-- Nodes one after the other. The second part does not begin with a branch, so that the parts do
not know of each other except for the property `P`. -/
theorem Linked.append (h : Linked source P nodes) (h' : Linked source P' nodes')
    (hstart : firstBranch? nodes' = none)
    (hP : ∀ node back, back ⊆ nodes → P node back → P' node (back ++ nodes')) :
    Linked source P' (nodes ++ nodes') := by
  induction nodes with
  | nil => exact h'
  | cons node nodes ih =>
    obtain ⟨joined, ends, rest⟩ := h
    have first := firstBranch?_append nodes hstart
    have later := ih rest fun node back hback =>
      hP node back (List.Subset.trans hback (List.subset_cons_self ..))
    rw [List.cons_append, Linked, first]
    refine ⟨joined, fun hnode hend => ?_, later⟩
    exact hP node nodes (List.subset_cons_self ..) (ends hnode hend)

theorem Linked.mono (h : Linked source P nodes)
    (hP : ∀ node back, back ⊆ nodes → P node back → P' node back) : Linked source P' nodes := by
  have whole : Linked source P' (nodes ++ []) := h.append trivial rfl fun node back hback hend => by
    rw [List.append_nil]
    exact hP node back hback hend
  rwa [List.append_nil] at whole

/-- The nodes of a chain, each of which is followed by a branch except for the last one. -/
theorem linked_of_isChain
    (h : nodes.IsChain fun block branch => branch.isBranch = true ∧ Joined source block branch)
    (hlast : ∀ last ∈ nodes.getLast?, last.awaitsBranch = true → P last []) :
    Linked source P nodes := by
  induction nodes with
  | nil => trivial
  | cons node nodes ih =>
    obtain ⟨hhead, hchain⟩ := List.isChain_cons.1 h
    cases nodes with
    | nil => exact ⟨by simp [firstBranch?], fun hnode _ => hlast node rfl hnode, trivial⟩
    | cons next nodes =>
      refine ⟨?_, fun _ hend => ?_, ih hchain hlast⟩
      · intro branch hbranch
        obtain rfl : next = branch := by
          simpa using (Option.mem_filter_iff.1 hbranch).1
        exact (hhead next rfl).2
      · simp [firstBranch?, (hhead next rfl).1] at hend

/-! ### Putting texts together -/

theorem awaitsBranch_of_isText {node : Node} (h : node.isText = true) :
    node.awaitsBranch = false := by
  cases node <;> simp_all [Node.isText, Node.awaitsBranch]

theorem isBranch_of_isText {node : Node} (h : node.isText = true) : node.isBranch = false := by
  cases node <;> simp_all [Node.isText, Node.isBranch]

/-- What putting a text in front of nodes does: nothing, when it is blank; otherwise the nodes begin
with a text, which may hold the first text that was there. -/
theorem mergeOnto_text_cases (content : List Char) (span : Span) (nodes : List Node) :
    Node.mergeOnto (.text content span) nodes = nodes ∨
    ∃ text rest, Node.mergeOnto (.text content span) nodes = text :: rest ∧ text.isText = true ∧
      (nodes = rest ∨ ∃ next, next.isText = true ∧ nodes = next :: rest) := by
  unfold Node.mergeOnto
  split
  · rename_i heq
    split
    · exact .inl rfl
    · right
      split
      · split
        · exact ⟨_, _, rfl, rfl, .inr ⟨_, rfl, rfl⟩⟩
        · exact ⟨_, _, rfl, rfl, .inl rfl⟩
      · exact ⟨_, _, rfl, rfl, .inl rfl⟩
  · rename_i hnot
    exact absurd rfl (hnot content span)

/-- Putting texts together does not come between a block and its branch. -/
theorem linked_mergeTexts {Q : Node → Prop} (h : Linked source (fun node _ => Q node) nodes) :
    Linked source (fun node _ => Q node) (Node.mergeTexts nodes) ∧
      firstBranch? (Node.mergeTexts nodes) = firstBranch? nodes := by
  induction nodes with
  | nil => exact ⟨h, rfl⟩
  | cons node nodes ih =>
    obtain ⟨merged, first⟩ := ih h.2.2
    rw [Node.mergeTexts, List.foldr_cons, ← Node.mergeTexts]
    cases htext : node.isText with
    | false =>
      have kept : Node.mergeOnto node (Node.mergeTexts nodes) = node :: Node.mergeTexts nodes := by
        cases node <;> simp_all [Node.isText, Node.mergeOnto]
      rw [kept]
      exact ⟨⟨by rw [first]; exact h.1, by rw [first]; exact h.2.1, merged⟩, rfl⟩
    | true =>
      -- a text awaits no branch, so that none comes to stand behind another node
      have none : firstBranch? nodes = none := h.firstBranch?_tail (awaitsBranch_of_isText htext)
      rw [none] at first
      rw [firstBranch?_cons_of_not_isBranch (isBranch_of_isText htext)]
      obtain ⟨content, span, rfl⟩ : ∃ content span, node = .text content span := by
        cases node <;> simp_all [Node.isText]
      obtain heq | ⟨text, rest, heq, htext', hnodes⟩ :=
        mergeOnto_text_cases content span (Node.mergeTexts nodes)
      · rw [heq]
        exact ⟨merged, first⟩
      · rw [heq]
        refine ⟨?_, firstBranch?_cons_of_not_isBranch (isBranch_of_isText htext') _⟩
        obtain rfl | ⟨next, hnext, hnodes⟩ := hnodes
        · exact linked_cons_of_not_awaits (awaitsBranch_of_isText htext') first merged
        · rw [hnodes] at merged
          exact linked_cons_of_not_awaits (awaitsBranch_of_isText htext')
            (merged.firstBranch?_tail (awaitsBranch_of_isText hnext)) merged.2.2

end Linked

/-! ### Chains -/

theorem readBlock?_kind {kind : CodeKind} {word : List Char} {pos k n : Nat} {s : List Char}
    {node : Node} (h : readBlock? kind word pos k s = some (node, n)) :
    ∃ block, node = .code block ∧ block.kind = kind := by
  simp only [readBlock?, Option.bind_eq_bind, Option.bind_eq_some_iff, Option.pure_def,
    Option.some.injEq, Prod.mk.injEq, Prod.exists] at h
  obtain ⟨_, _, -, _, _, -, rfl, -⟩ := h
  exact ⟨_, rfl, rfl⟩

/-- The mark of a branch says whether it is followed by another one. -/
theorem readBranch?_kind {pos n : Nat} {s : List Char} {node : Node} {more : Bool}
    (h : readBranch? pos s = some (node, n, more)) :
    node.isBranch = true ∧ node.awaitsBranch = more := by
  unfold readBranch? at h
  split at h
  · simp only [Option.map_eq_some_iff, Prod.mk.injEq, Prod.exists] at h
    obtain ⟨node', n', hblock, rfl, -, rfl⟩ := h
    obtain ⟨block, rfl, hkind⟩ := readBlock?_kind hblock
    simp [Node.isBranch, Node.awaitsBranch, hkind]
  · split at h
    · simp only [Option.map_eq_some_iff, Prod.mk.injEq, Prod.exists] at h
      obtain ⟨_, _, -, rfl, -, rfl⟩ := h
      simp [Node.isBranch, Node.awaitsBranch, CodeBlock.control]
    · simp at h

/-- A chain that is being read, in front of the rest of the text: the branches so far, and the last
one of them. -/
structure ReadsChain (source : List Char) (stop : Nat) (chain : Chain) (rest : List Char) :
    Prop where
  between : Between source chain.pos stop rest
  joined : chain.branches.IsChain fun branch block =>
    branch.isBranch = true ∧ Joined source block branch
  first : ∀ first ∈ chain.branches.getLast?, first.isBranch = false
  last : ∃ last earlier, chain.branches = last :: earlier ∧ last.span.stop = chain.pos ∧
    last.awaitsBranch = chain.mayContinue

section Readers

variable {source : List Char} {stop : Nat}

/-- One more branch. -/
theorem readsChain_chainStep {chain chain' : Chain} {s : List Char} {n : Nat}
    (h : ReadsChain source stop chain s) (hstep : chainStep chain s = some (chain', n)) :
    0 < n ∧ ReadsChain source stop chain' (s.drop n) := by
  obtain ⟨node, hbranches, -, hpos, reads⟩ := reads_chainStep h.between hstep
  obtain ⟨last, earlier, hlast, hstop, hmore⟩ := h.last
  have between := h.between.drop n
  rw [← hpos] at between
  -- the blanks in front of the branch begin where the last one ends
  cases reads.tiled with
  | cons hgap blank _ _ _ _ =>
    unfold chainStep at hstep
    split at hstep
    · rename_i hcontinue
      simp only [Option.map_eq_some_iff, Prod.mk.injEq, Prod.exists] at hstep
      obtain ⟨node', m, more, hbranch, rfl, rfl⟩ := hstep
      obtain rfl : node' = node := (List.cons.inj hbranches).1
      obtain ⟨hisBranch, hawaits⟩ := readBranch?_kind hbranch
      have joined : Joined source last node' :=
        ⟨hmore.trans hcontinue, _, by rwa [hstop], blank⟩
      refine ⟨reads.progress, between, ?_, ?_, node', chain.branches, rfl, rfl, hawaits⟩
      · refine List.isChain_cons.2 ⟨?_, h.joined⟩
        intro block hblock
        obtain rfl : last = block := by simpa [hlast] using hblock
        exact ⟨hisBranch, joined⟩
      · rw [List.getLast?_cons_of_ne_nil (by simp [hlast])]
        exact h.first
    · simp at hstep

/-- A chain ends where no branch follows. -/
theorem not_beginsBranch_of_chainStep {chain : Chain} {rest : List Char}
    (hcontinue : chain.mayContinue = true) (hstop : rest = [] ∨ chainStep chain rest = none) :
    ¬ BeginsBranch (trimStart rest) := by
  intro hbegins
  rcases hstop with rfl | hnone
  · exact readBranch?_ne_none hbegins 0 rfl
  · rw [chainStep, if_pos hcontinue] at hnone
    simp only [Option.map_eq_none_iff, drop_countWhile] at hnone
    exact readBranch?_ne_none hbegins _ hnone

/-- The nodes of a chain: every branch follows its block, and no branch follows the last one. -/
theorem linked_readIfChain? {s : List Char} {pos n : Nat} (hs : Between source pos stop s)
    {nodes : List Node} (h : readIfChain? pos s = some (nodes, n)) :
    Linked source (fun node _ => NoBranch source node.span.stop stop) nodes ∧
      firstBranch? nodes = none := by
  simp only [readIfChain?, Option.bind_eq_bind, Option.bind_eq_some_iff, Option.pure_def,
    Option.some.injEq, Prod.mk.injEq, Prod.exists] at h
  obtain ⟨k, -, first, length, hfirst, rfl, -⟩ := h
  have hblock := isBlockAt_readBlock? rfl hfirst
  obtain ⟨block, rfl, hkind⟩ := readBlock?_kind hfirst
  have start : ReadsChain source stop
      ⟨[.code block], length, (Node.code block).span.stop, true⟩ (s.drop length) := by
    refine ⟨?_, .singleton _, ?_, .code block, [], rfl, rfl, ?_⟩
    · rw [hblock.span_eq]
      exact hs.drop length
    · simp [Node.isBranch, hkind]
    · simp [Node.awaitsBranch, hkind]
  have run := advance_invariant (I := ReadsChain source stop)
    (fun chain rest chain' m _ hchain hstep => readsChain_chainStep hchain hstep) _ _ start
  have stops := advance_stops chainStep 0
    ⟨[.code block], length, (Node.code block).span.stop, true⟩ (s.drop length)
  generalize advance chainStep 0 ⟨[.code block], length, (Node.code block).span.stop, true⟩
    (s.drop length) = reached at run stops
  obtain ⟨chain, rest⟩ := reached
  have run : ReadsChain source stop chain rest := run
  obtain ⟨last, earlier, hlast, hstop, hmore⟩ := run.last
  refine ⟨linked_of_isChain (List.isChain_reverse.2 run.joined) ?_, ?_⟩
  · intro last' hlast' hawaits
    obtain rfl : last = last' := by simpa [hlast] using hlast'
    refine ⟨rest, by rw [hstop]; exact run.between, ?_⟩
    exact not_beginsBranch_of_chainStep (hmore.symm.trans hawaits) stops
  · rw [Option.eq_none_iff_forall_ne_some]
    intro branch hbranch
    obtain ⟨hhead, hisBranch⟩ := Option.mem_filter_iff.1 hbranch
    rw [List.head?_reverse] at hhead
    simp [run.first branch hhead] at hisBranch

end Readers

/-! ### Chained nodes -/

/-- Nodes in which every branch belongs to a chain, and chains go on as far as they can. The text
behind a block ends at a place that may depend on the nodes behind it. -/
structure Chained (source : List Char) (limit : List Node → Nat) (nodes : List Node) : Prop where
  /-- In front of a branch stands the block that it belongs to. -/
  joined : ∀ front branch back, nodes = front ++ branch :: back → branch.isBranch = true →
    ∃ front' block, front = front' ++ [block] ∧ Joined source block branch
  /-- A block that a branch may follow is followed by none in the text, if it is followed by none
  among the nodes. -/
  maximal : ∀ front block back, nodes = front ++ block :: back → block.awaitsBranch = true →
    firstBranch? back = none → NoBranch source block.span.stop (limit back)

/-- Chained nodes, whose elements hold chained nodes. The text of an element ends where its closing
tag begins. -/
inductive ChainedTree (source : List Char) : (List Node → Nat) → List Node → Prop
  | intro {limit : List Node → Nat} {nodes : List Node} (here : Chained source limit nodes)
    (inside : ∀ tag children, .element tag children ∈ nodes →
      ChainedTree source (fun _ => tag.span.stop - byteLength (tagCloser tag.name)) children) :
    ChainedTree source limit nodes

theorem Linked.of_append {source : List Char} {P : Node → List Node → Prop}
    {nodes nodes' : List Node} (h : Linked source P (nodes ++ nodes')) :
    Linked source P nodes' := by
  induction nodes with
  | nil => exact h
  | cons node nodes ih => exact ih h.2.2

theorem chained_of_linked {source : List Char} {limit : List Node → Nat} {nodes : List Node}
    (h : Linked source (fun node back => NoBranch source node.span.stop (limit back)) nodes)
    (hfirst : firstBranch? nodes = none) : Chained source limit nodes where
  joined := by
    rintro front branch back rfl hbranch
    rcases List.eq_nil_or_concat front with rfl | ⟨front, block, rfl⟩
    · simp [firstBranch?, hbranch] at hfirst
    · rw [List.concat_eq_append, List.append_assoc] at h
      refine ⟨front, block, List.concat_eq_append, h.of_append.1 branch ?_⟩
      simp [firstBranch?, hbranch]
  maximal := by
    rintro front block back rfl hawaits hend
    exact h.of_append.2.1 hawaits hend

/-! ### Content -/

/-- Nodes of content whose text ends at `stop`. -/
structure LinkedContent (source : List Char) (stop : Nat) (nodes : List Node) : Prop where
  linked : Linked source (fun node _ => NoBranch source node.span.stop stop) nodes
  first : firstBranch? nodes = none
  inside : ∀ tag children, .element tag children ∈ nodes →
    ChainedTree source (fun _ => tag.span.stop - byteLength (tagCloser tag.name)) children

namespace LinkedContent

variable {source : List Char} {stop : Nat} {nodes nodes' : List Node}

theorem append (h : LinkedContent source stop nodes) (h' : LinkedContent source stop nodes') :
    LinkedContent source stop (nodes ++ nodes') where
  linked := h.linked.append h'.linked h'.first fun _ _ _ hend => hend
  first := (firstBranch?_append nodes h'.first).trans h.first
  inside tag children hmem :=
    (List.mem_append.1 hmem).elim (h.inside tag children) (h'.inside tag children)

theorem mergeTexts (h : LinkedContent source stop nodes) :
    LinkedContent source stop (Node.mergeTexts nodes) where
  linked := (linked_mergeTexts h.linked).1
  first := (linked_mergeTexts h.linked).2.trans h.first
  inside tag children hmem := by
    refine h.inside tag children ((mem_mergeTexts hmem).resolve_left ?_)
    simp [Node.isText]

theorem chainedTree (h : LinkedContent source stop nodes) :
    ChainedTree source (fun _ => stop) nodes :=
  .intro (chained_of_linked h.linked h.first) h.inside

theorem nil : LinkedContent source stop [] := ⟨trivial, rfl, by simp⟩

/-- One node that has no part in a chain. -/
theorem singleton {node : Node} (hawaits : node.awaitsBranch = false)
    (hbranch : node.isBranch = false)
    (hinside : ∀ tag children, node = .element tag children →
      ChainedTree source (fun _ => tag.span.stop - byteLength (tagCloser tag.name)) children) :
    LinkedContent source stop [node] where
  linked := linked_singleton hawaits
  first := firstBranch?_cons_of_not_isBranch hbranch []
  inside tag children hmem := hinside tag children (List.mem_singleton.1 hmem).symm

theorem singleton_of_isPlain {node : Node} (h : node.isPlain = true) :
    LinkedContent source stop [node] := by
  cases node with
  | text content span => exact singleton rfl rfl (by simp)
  | code block =>
    have hkind : block.kind.isControl = false := by
      simp only [Node.isPlain, Bool.and_eq_true, Bool.not_eq_true'] at h
      exact h.1
    refine singleton ?_ ?_ (by simp)
    · cases hblock : block.kind <;> simp_all [Node.awaitsBranch, CodeKind.isControl]
    · cases hblock : block.kind <;> simp_all [Node.isBranch, CodeKind.isControl]
  | selfClosing | element | declaration => simp [Node.isPlain] at h

end LinkedContent

section Content

variable {source : List Char} {children : Nat → List Char → List Node}

theorem linkedContent_readRazor? {s : List Char} {pos stop n : Nat}
    (hs : Between source pos stop ('@' :: s)) {previous : Option Char} {afterExpression : Bool}
    {nodes : List Node}
    (h : readRazor? pos previous afterExpression ('@' :: s) = some (nodes, n)) :
    LinkedContent source stop nodes := by
  obtain ⟨node, rfl, hplain⟩ | hchain | hforeach := readRazor?_cases h
  · exact .singleton_of_isPlain hplain
  · obtain ⟨linked, first⟩ := linked_readIfChain? hs hchain
    refine ⟨linked, first, fun tag children hmem => ?_⟩
    obtain ⟨block, heq, -⟩ := control_readIfChain? hchain _ hmem
    simp at heq
  · simp only [readForeach?, Option.bind_eq_bind, Option.bind_eq_some_iff, Option.pure_def,
      Option.some.injEq, Prod.mk.injEq, Prod.exists] at hforeach
    obtain ⟨_, -, node, _, hnode, rfl, -⟩ := hforeach
    obtain ⟨block, rfl, hkind⟩ := readBlock?_kind hnode
    exact .singleton (by simp [Node.awaitsBranch, hkind]) (by simp [Node.isBranch, hkind]) (by simp)

variable (hchildren : ∀ pos stop inner, Between source pos stop inner →
    LinkedContent source stop (children pos inner))

include hchildren

theorem linkedContent_readChildren (name : List Char) {pos stop : Nat} {inner : List Char}
    (hinner : Between source pos stop inner) :
    LinkedContent source stop (readChildren children name pos inner) := by
  unfold readChildren
  split
  · exact (LinkedContent.singleton_of_isPlain rfl).mergeTexts
  · exact hchildren pos stop inner hinner

theorem linkedContent_readMarkup? {s : List Char} {pos stop n : Nat}
    (hs : Between source pos stop ('<' :: s)) {node : Node}
    (h : readMarkup? children pos ('<' :: s) = some (node, n)) :
    LinkedContent source stop [node] := by
  have noCode : ∀ block, node ≠ .code block := by
    rintro block rfl
    exact readMarkup?_ne_code h
  refine .singleton ?_ ?_ ?_
  · cases node <;> simp_all [Node.awaitsBranch]
  · cases node <;> simp_all [Node.isBranch]
  · rintro tag nodes rfl
    obtain ⟨opening, inner, behind, hcut, hspan, rfl⟩ := readMarkup?_eq_element h
    rw [hcut] at hs
    rw [hspan]
    exact (linkedContent_readChildren hchildren tag.name (between_content hs)).chainedTree

/-- One step through content adds nodes that are linked. -/
theorem linkedContent_contentStep {p p' : Progress} {s : List Char} {stop n : Nat}
    (hs : Between source p.pos stop s) (h : contentStep children p s = some (p', n)) :
    ∃ nodes, p'.nodes = nodes.reverse ++ p.nodes ∧ LinkedContent source stop nodes := by
  simp only [contentStep, Option.some.injEq, Prod.mk.injEq] at h
  obtain ⟨rfl, -⟩ := h
  refine ⟨_, rfl, ?_⟩
  split
  · cases hread : readRazor? p.pos p.previous p.afterExpression _ with
    | none => exact .singleton_of_isPlain rfl
    | some read => exact linkedContent_readRazor? hs hread
  · split
    · rename_i hread
      exact linkedContent_readMarkup? hchildren hs hread
    · exact .singleton_of_isPlain rfl
  · exact .singleton_of_isPlain rfl

end Content

/-- The nodes of content are linked, at any depth. -/
theorem linkedContent_readContent {source s : List Char} {pos stop : Nat} (levels : Nat)
    (hs : Between source pos stop s) : LinkedContent source stop (readContent levels pos s) := by
  induction levels generalizing pos stop s with
  | zero => exact (LinkedContent.singleton_of_isPlain rfl).mergeTexts
  | succ levels ih =>
    rw [readContent]
    refine LinkedContent.mergeTexts (readContent_invariant levels hs .nil ?_)
    intro p rest p' n hrest hlinked hstep
    obtain ⟨nodes, hnodes, hadded⟩ :=
      linkedContent_contentStep (fun _ _ _ hinner => ih hinner) hrest hstep
    rw [hnodes, List.reverse_append, List.reverse_reverse]
    exact hlinked.append hadded

/-! ### Templates -/

/-- The place where the first code section begins. -/
def sectionStart? (nodes : List Node) : Option Nat :=
  (nodes.find? Node.isSection).map fun node => node.span.start

/-- The place where the text in front of nodes of a template ends: at the first code section, or at
`stop`. -/
def contentStop (stop : Nat) (nodes : List Node) : Nat := (sectionStart? nodes).getD stop

theorem sectionStart?_append (nodes nodes' : List Node) :
    sectionStart? (nodes ++ nodes') = (sectionStart? nodes).or (sectionStart? nodes') := by
  rw [sectionStart?, sectionStart?, sectionStart?, List.find?_append, Option.map_or]

/-- There are no code sections in content. -/
theorem isSection_of_mem_readContent {levels pos : Nat} {s : List Char} {node : Node}
    (h : node ∈ readContent levels pos s) : node.isSection = false := by
  have ofText (htext : node.isText = true) : node.isSection = false := by
    cases node <;> simp_all [Node.isText, Node.isSection]
  cases levels with
  | zero => exact ofText (isText_of_mem_readContent_zero h)
  | succ levels =>
    rcases fromContent_of_mem_readContent h with
      htext | ⟨_, _, _, _, _, _, hread, hnode⟩ | ⟨_, _, _, hmarkup⟩
    · exact ofText htext
    · obtain hplain | ⟨block, rfl, hcontrol⟩ := plain_or_control_readRazor? hread hnode
      · cases node <;> simp_all [Node.isPlain, Node.isSection]
      · cases hkind : block.kind <;>
          simp_all [Node.isSection, CodeBlock.isSection, CodeKind.isControl]
    · cases node with
      | code block => exact absurd hmarkup readMarkup?_ne_code
      | _ => rfl

theorem sectionStart?_of_subset {levels pos : Nat} {s : List Char} {nodes : List Node}
    (h : nodes ⊆ readContent levels pos s) : sectionStart? nodes = none := by
  rw [sectionStart?, Option.map_eq_none_iff, List.find?_eq_none]
  intro node hnode
  simp [isSection_of_mem_readContent (h hnode)]

/-- Nodes of a template up to the end of a code section. -/
structure LinkedSections (source : List Char) (nodes : List Node) : Prop where
  linked : Linked source (fun node back =>
    ∃ stop, sectionStart? back = some stop ∧ NoBranch source node.span.stop stop) nodes
  first : firstBranch? nodes = none
  inside : ∀ tag children, .element tag children ∈ nodes →
    ChainedTree source (fun _ => tag.span.stop - byteLength (tagCloser tag.name)) children

theorem LinkedSections.append {source : List Char} {nodes nodes' : List Node}
    (h : LinkedSections source nodes) (h' : LinkedSections source nodes') :
    LinkedSections source (nodes ++ nodes') where
  linked := by
    refine h.linked.append h'.linked h'.first ?_
    rintro node back - ⟨stop, hstop, hend⟩
    exact ⟨stop, by rw [sectionStart?_append, hstop, Option.some_or], hend⟩
  first := (firstBranch?_append nodes h'.first).trans h.first
  inside tag children hmem :=
    (List.mem_append.1 hmem).elim (h.inside tag children) (h'.inside tag children)

/-- The content in front of a code section, and the section. -/
theorem linkedSections_concat {source s : List Char} {levels pos stop : Nat}
    (hs : Between source pos stop s) {block : CodeBlock} (hblock : block.isSection = true)
    (hstart : block.span.start = stop) :
    LinkedSections source (readContent levels pos s ++ [.code block]) := by
  have content := linkedContent_readContent levels hs
  have hkind : block.kind = .directive := by
    simp only [CodeBlock.isSection, Bool.and_eq_true, decide_eq_true_eq] at hblock
    exact hblock.1
  have first : firstBranch? [.code block] = none :=
    firstBranch?_cons_of_not_isBranch (by simp [Node.isBranch, hkind]) []
  have start : sectionStart? [.code block] = some stop := by
    simp [sectionStart?, Node.isSection, hblock, Node.span, hstart]
  refine ⟨?_, (firstBranch?_append _ first).trans content.first, fun tag children hmem => ?_⟩
  · refine content.linked.append (linked_singleton ?_) first fun node back hback hend => ?_
    · simp [Node.awaitsBranch, hkind]
    · exact ⟨stop, by rw [sectionStart?_append, sectionStart?_of_subset hback, start,
        Option.none_or], hend⟩
  · simp only [List.mem_append, List.mem_singleton, reduceCtorEq, or_false] at hmem
    exact content.inside tag children hmem

theorem linkedSections_sectionStep {source s : List Char} {stop n : Nat} {st st' : Sections}
    (hs : Between source st.pos stop s) (hst : LinkedSections source st.nodes)
    (h : sectionStep st s = some (st', n)) : LinkedSections source st'.nodes := by
  obtain ⟨before, block, hnodes, hbefore, hsection⟩ := sectionStep_content hs h
  rw [hnodes]
  exact hst.append (linkedSections_concat hbefore hsection rfl)

theorem chainedTree_readDocument (source : List Char) :
    ChainedTree source (contentStop (byteLength source)) (readDocument source) := by
  have start : LinkedSections source [] := ⟨trivial, rfl, by simp⟩
  obtain ⟨hrest, sections⟩ := sections_invariant source start
    fun _ _ _ _ hrest hst hstep => linkedSections_sectionStep hrest hst hstep
  have content := linkedContent_readContent (maxNesting + 1) hrest
  -- behind the last section there is none, and in front of it the next one is a limit
  have behind : Linked source
      (fun node back => NoBranch source node.span.stop (contentStop (byteLength source) back))
      (readContent (maxNesting + 1) (advance sectionStep 0 {} source).1.pos
        (advance sectionStep 0 {} source).2) := by
    refine content.linked.mono fun node back hback hend => ?_
    rwa [contentStop, sectionStart?_of_subset hback]
  refine .intro (chained_of_linked (sections.linked.append behind content.first ?_) ?_) ?_
  · rintro node back - ⟨stop, hstop, hend⟩
    rwa [contentStop, sectionStart?_append, hstop]
  · exact (firstBranch?_append _ content.first).trans sections.first
  · intro tag children hmem
    exact (List.mem_append.1 hmem).elim (sections.inside tag children) (content.inside tag children)

theorem chainedTree_readNested (depth : Nat) (body : List Char) :
    ChainedTree body (fun _ => byteLength body) (readNested depth 0 body) :=
  (linkedContent_readContent _ (Between.whole body)).chainedTree

/-- Every branch directly follows the block that it belongs to, and a chain goes on as far as it
can: among the nodes of a template, of an element and of a body. In a template the text behind a
chain ends at the next code section. -/
theorem chainedTree_of_reading :
    (∀ t, ChainedTree t (contentStop (byteLength t)) (readDocument t)) ∧
      ∀ depth body, ChainedTree body (fun _ => byteLength body) (readNested depth 0 body) :=
  ⟨chainedTree_readDocument, chainedTree_readNested⟩

/-- A branch that holds a code section is closed in the text of the template, and is no part of the
chain in front of it. -/
theorem not_chained_of_section :
    ¬ Chained "@if (a) \x7b b \x7d else \x7b @code \x7b x \x7d \x7d".toList
      (fun _ => byteLength "@if (a) \x7b b \x7d else \x7b @code \x7b x \x7d \x7d".toList)
      (readDocument "@if (a) \x7b b \x7d else \x7b @code \x7b x \x7d \x7d".toList) := by
  intro h
  have read : readDocument "@if (a) \x7b b \x7d else \x7b @code \x7b x \x7d \x7d".toList
      = [.code (.control .ifBlock "if (a)".toList " b ".toList ⟨0, 13⟩),
        .text " else \x7b ".toList ⟨13, 21⟩, .code ⟨.directive, "code x".toList, ⟨21, 32⟩⟩,
        .text " \x7d".toList ⟨32, 34⟩] := by
    rfl
  obtain ⟨rest, hrest, hnone⟩ := h.maximal [] _ _ read rfl rfl
  have here : Between "@if (a) \x7b b \x7d else \x7b @code \x7b x \x7d \x7d".toList 13 34
      " else \x7b @code \x7b x \x7d \x7d".toList :=
    ⟨"@if (a) \x7b b \x7d".toList, [], rfl, rfl, rfl⟩
  obtain rfl := hrest.unique here
  exact hnone (.elseBlock ⟨[' '], " @code \x7b x \x7d \x7d".toList, rfl, rfl, by decide⟩)

end RazorLayout.Template

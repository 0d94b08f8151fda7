import RazorLayout.Proofs.Template.Verbatim

/-!
# Where the nodes of a template come from

A template is read in pieces: its content falls into the pieces between the code sections, and the
content of an element is a piece again. What is read does not depend on how deep a piece lies. Every
node of a template, inside of elements too, was read at a place of the source: constructs at an `@`,
markup at a `<`. What is to be shown of all nodes of one kind can be shown of the reader that gives
them, at any place of the source.

## Main definitions

* `FoundIn`: what the nodes of a template are read from
* `AllFound`: a tree of such nodes

## Main results

* `allFound_readContent`: content is found in its text, at any depth
* `Holds.foundIn`: every node of a template is found in the source
* `Holds.exists_readBlocks`: every block of a template was read at an `@` of the source
-/

namespace RazorLayout.Template

open Text

/-- What a node of a template is read from: it is literal text or a code section, or it was read at
a place of the source. -/
inductive FoundIn (source : List Char) : Node → Prop
  | text {node : Node} (h : node.isText = true) : FoundIn source node
  | codeSection {block : CodeBlock} (h : block.isSection = true) : FoundIn source (.code block)
  | construct {pos stop n : Nat} {previous : Option Char} {afterExpression : Bool} {s : List Char}
    {nodes : List Node} {node : Node} (hs : Between source pos stop ('@' :: s))
    (h : readRazor? pos previous afterExpression ('@' :: s) = some (nodes, n))
    (hnode : node ∈ nodes) : FoundIn source node
  | markup {children : Nat → List Char → List Node} {pos stop n : Nat} {s : List Char} {node : Node}
    (hs : Between source pos stop ('<' :: s))
    (h : readMarkup? children pos ('<' :: s) = some (node, n)) : FoundIn source node

/-- Nodes that are found in the source, and so are all nodes inside of them. -/
def AllFound (source : List Char) (nodes : List Node) : Prop :=
  ∀ node, Holds nodes node → FoundIn source node

namespace AllFound

variable {source : List Char} {nodes nodes' : List Node}

theorem nil : AllFound source [] := by
  intro node h
  cases h with
  | here h => simp at h
  | inside helement _ => simp at helement

theorem append (h : AllFound source nodes) (h' : AllFound source nodes') :
    AllFound source (nodes ++ nodes') := by
  intro node hnode
  cases hnode with
  | here hmem => exact (List.mem_append.1 hmem).elim (h node ∘ .here) (h' node ∘ .here)
  | inside helement hchild =>
    exact (List.mem_append.1 helement).elim (fun hmem => h node (.inside hmem hchild))
      fun hmem => h' node (.inside hmem hchild)

/-- Putting texts together adds nothing but texts. -/
theorem mergeTexts (h : AllFound source nodes) : AllFound source (Node.mergeTexts nodes) := by
  intro node hnode
  cases hnode with
  | here hmem => exact (mem_mergeTexts hmem).elim .text (h node ∘ .here)
  | inside helement hchild =>
    refine h node (.inside ((mem_mergeTexts helement).resolve_left ?_) hchild)
    simp [Node.isText]

/-- Nodes that hold no other nodes. -/
theorem of_not_isMarkup (hmarkup : ∀ node ∈ nodes, node.isMarkup = false)
    (h : ∀ node ∈ nodes, FoundIn source node) : AllFound source nodes := by
  intro node hnode
  cases hnode with
  | here hmem => exact h node hmem
  | inside helement _ =>
    have := hmarkup _ helement
    simp [Node.isMarkup] at this

theorem text (content : List Char) (span : Span) : AllFound source [.text content span] := by
  refine of_not_isMarkup ?_ ?_
  · simp [Node.isMarkup]
  · intro node hnode
    obtain rfl := List.mem_singleton.1 hnode
    exact .text rfl

end AllFound

/-! ### Content -/

section Content

variable {source : List Char} {children : Nat → List Char → List Node}

theorem allFound_readRazor? {s : List Char} {pos stop n : Nat}
    (hs : Between source pos stop ('@' :: s)) {previous : Option Char} {afterExpression : Bool}
    {nodes : List Node}
    (h : readRazor? pos previous afterExpression ('@' :: s) = some (nodes, n)) :
    AllFound source nodes :=
  .of_not_isMarkup (isMarkup_readRazor? h) fun _ hnode => .construct hs h hnode

variable (hchildren : ∀ pos stop inner, Between source pos stop inner →
    AllFound source (children pos inner))

include hchildren

theorem allFound_readMarkup? {s : List Char} {pos stop n : Nat}
    (hs : Between source pos stop ('<' :: s)) {node : Node}
    (h : readMarkup? children pos ('<' :: s) = some (node, n)) : AllFound source [node] := by
  intro found hfound
  cases hfound with
  | here hmem =>
    obtain rfl := List.mem_singleton.1 hmem
    exact .markup hs h
  | inside helement hchild =>
    -- the children of an element are read from the text between its tags
    obtain rfl := List.mem_singleton.1 helement
    obtain ⟨opening, inner, behind, hcut, -, rfl⟩ := readMarkup?_eq_element h
    rw [hcut] at hs
    unfold readChildren at hchild
    split at hchild
    · exact (AllFound.text _ _).mergeTexts found hchild
    · exact hchildren _ _ inner (between_content hs) found hchild

/-- One step through content adds nodes that are found in the source. -/
theorem allFound_contentStep {p p' : Progress} {s : List Char} {stop n : Nat}
    (hs : Between source p.pos stop s) (h : contentStep children p s = some (p', n)) :
    ∃ nodes, p'.nodes = nodes.reverse ++ p.nodes ∧ AllFound source nodes := by
  simp only [contentStep, Option.some.injEq, Prod.mk.injEq] at h
  obtain ⟨rfl, -⟩ := h
  refine ⟨_, rfl, ?_⟩
  split
  · cases hread : readRazor? p.pos p.previous p.afterExpression _ with
    | none => exact .text _ _
    | some read => exact allFound_readRazor? hs hread
  · split
    · rename_i hread
      exact allFound_readMarkup? hchildren hs hread
    · exact .text _ _
  · exact .text _ _

end Content

/-- The nodes of content are found in its text, at any depth. -/
theorem allFound_readContent {source s : List Char} {pos stop : Nat} (levels : Nat)
    (hs : Between source pos stop s) : AllFound source (readContent levels pos s) := by
  induction levels generalizing pos stop s with
  | zero => exact (AllFound.text _ _).mergeTexts
  | succ levels ih =>
    rw [readContent]
    refine AllFound.mergeTexts (readContent_invariant levels hs .nil ?_)
    intro p rest p' n hrest hfound hstep
    obtain ⟨nodes, hnodes, hadded⟩ :=
      allFound_contentStep (fun _ _ _ hinner => ih hinner) hrest hstep
    rw [hnodes, List.reverse_append, List.reverse_reverse]
    exact hfound.append hadded

/-! ### Templates -/

theorem allFound_sectionStep {source s : List Char} {stop n : Nat} {st st' : Sections}
    (hs : Between source st.pos stop s) (hst : AllFound source st.nodes)
    (h : sectionStep st s = some (st', n)) : AllFound source st'.nodes := by
  obtain ⟨before, block, hnodes, hbefore, hsection⟩ := sectionStep_content hs h
  have here : AllFound source [.code block] := by
    refine .of_not_isMarkup (by simp [Node.isMarkup]) ?_
    intro node hnode
    obtain rfl := List.mem_singleton.1 hnode
    exact .codeSection hsection
  rw [hnodes]
  exact hst.append ((allFound_readContent _ hbefore).append here)

theorem allFound_readDocument (source : List Char) : AllFound source (readDocument source) := by
  have start : AllFound source [] := .nil
  obtain ⟨hrest, hsections⟩ := sections_invariant source start
    fun _ _ _ _ hrest hst hstep => allFound_sectionStep hrest hst hstep
  exact hsections.append (allFound_readContent (maxNesting + 1) hrest)

/-- Every node of a template is found in the source. -/
theorem Holds.foundIn {source : List Char} {node : Node} (h : Holds (readDocument source) node) :
    FoundIn source node :=
  allFound_readDocument source node h

/-- Every block of a template was read at an `@` of the source, as a part of a chain or as a
loop. -/
theorem Holds.exists_readBlocks {source : List Char} {block : CodeBlock}
    (h : Holds (readDocument source) (.code block)) (hkind : block.kind.isControl = true) :
    ∃ pos stop s nodes n, Between source pos stop ('@' :: s) ∧ .code block ∈ nodes ∧
      (readIfChain? pos ('@' :: s) = some (nodes, n) ∨
        readForeach? pos ('@' :: s) = some (nodes, n)) := by
  cases h.foundIn with
  | text htext => simp [Node.isText] at htext
  | codeSection hsection =>
    simp only [CodeBlock.isSection, Bool.and_eq_true, decide_eq_true_eq] at hsection
    simp [hsection.1, CodeKind.isControl] at hkind
  | construct hs hread hnode =>
    obtain ⟨node, rfl, hplain⟩ | hblocks := readRazor?_cases hread
    · obtain rfl := List.mem_singleton.1 hnode
      simp [Node.isPlain, hkind] at hplain
    · exact ⟨_, _, _, _, _, hs, hnode, hblocks⟩
  | markup _ hread => exact absurd hread readMarkup?_ne_code

end RazorLayout.Template

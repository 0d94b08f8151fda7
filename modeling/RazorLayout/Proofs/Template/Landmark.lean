import RazorLayout.Proofs.Template.CodeSection
import RazorLayout.Proofs.Template.Origin

/-!
# Directives and declarations, and where they occur

Directives of one line and declarations are the landmarks of a template: nodes that never break
across lines. They stand at any depth, inside of elements and in the bodies of blocks, and a body is
read again when its block is written, as a text of its own. A node is found by its place, which has
one position for each element and block around the node.

What a landmark is made of does not depend on where it stands, because content is read in the same
way at every depth.

## Main definitions

* `Node.isLandmark`: directives of one line, and declarations
* `Occurrence`, `Occurs`: a node at its place, with the text that it was read from

## Main results

* `Occurs.foundIn`: every node was read from its text
* `FoundIn.exists_isDirective`: a directive is a keyword and a value
* `FoundIn.exists_declaration`: a declaration is a piece of its text on one line
-/

namespace RazorLayout

/-- Directives of one line, and declarations. -/
def Node.isLandmark : Node → Bool
  | .declaration _ _ => true
  | .code block => block.kind = .directive && !block.isSection
  | _ => false

namespace Template

open Text

/-! ### What landmarks are made of -/

/-- A directive among the nodes of a construct is the whole construct. -/
theorem directive_of_readRazor? {s : List Char} {pos n : Nat} {previous : Option Char}
    {afterExpression : Bool} {nodes : List Node}
    (h : readRazor? pos previous afterExpression ('@' :: s) = some (nodes, n)) {block : CodeBlock}
    (hmem : .code block ∈ nodes) (hkind : block.kind = .directive) :
    ∃ d, Directive.read? ('@' :: s) = some d ∧ block.code = d.code := by
  have control : ¬ block.kind.isControl = true := by simp [hkind, CodeKind.isControl]
  cases construct_of_readRazor? h with
  | mark => simp at hmem
  | directive hread =>
    obtain rfl := Node.code.inj (List.mem_singleton.1 hmem)
    exact ⟨_, hread, rfl⟩
  | ifChain hread => exact absurd (isControl_of_mem (control_readIfChain? hread) hmem) control
  | foreachLoop hread => exact absurd (isControl_of_mem (control_readForeach? hread) hmem) control
  | comment | inlineBlock | parenthesised | expression =>
    obtain rfl := Node.code.inj (List.mem_singleton.1 hmem)
    simp at hkind

/-- A directive is a keyword and a value on one line. -/
theorem FoundIn.exists_isDirective {source : List Char} {block : CodeBlock}
    (h : FoundIn source (.code block)) (hlandmark : (Node.code block).isLandmark = true) :
    ∃ keyword value, IsDirective keyword value ∧
      block = ⟨.directive, keyword ++ ' ' :: value, block.span⟩ := by
  simp only [Node.isLandmark, Bool.and_eq_true, decide_eq_true_eq, Bool.not_eq_true'] at hlandmark
  cases h with
  | text h => simp [Node.isText] at h
  | codeSection h => simp [hlandmark.2] at h
  | construct hs h hnode =>
    obtain ⟨d, hd, hcode⟩ := directive_of_readRazor? h hnode hlandmark.1
    refine ⟨d.keyword, d.value, isDirective_of_read? hd, ?_⟩
    obtain ⟨kind, code, span⟩ := block
    simp_all [Directive.code]
  | markup hs h => exact absurd h readMarkup?_ne_code

/-- The pieces of a declaration. -/
theorem readDeclaration?_eq_some {pos n : Nat} {gap rest : List Char} {node : Node}
    (h : readDeclaration? pos gap.length ('<' :: (gap ++ '!' :: rest)) ('!' :: rest)
      = some (node, n)) :
    ∃ inner behind, '<' :: (gap ++ '!' :: rest) = '<' :: gap ++ '!' :: (inner ++ ['>']) ++ behind ∧
      node = .declaration (collapse ('<' :: '!' :: (inner ++ ['>'])))
        ⟨pos, pos + byteLength ('<' :: gap ++ '!' :: (inner ++ ['>']))⟩ := by
  simp only [readDeclaration?, Option.map_eq_some_iff, Prod.mk.injEq] at h
  obtain ⟨k, hk, rfl, -⟩ := h
  obtain ⟨u, v, huv, rfl⟩ := find?_eq_some hk
  obtain ⟨inner, rfl, rfl⟩ : ∃ inner, u = '!' :: inner ∧ rest = inner ++ ['>'] ++ v := by
    cases u with
    | nil => simp at huv
    | cons c inner =>
      obtain ⟨rfl, hrest⟩ := List.cons.inj huv
      exact ⟨inner, rfl, by simpa using hrest⟩
  have cut : '<' :: (gap ++ '!' :: (inner ++ ['>'] ++ v))
      = '<' :: gap ++ '!' :: (inner ++ ['>']) ++ v := by simp
  have length : 1 + gap.length + ('!' :: inner).length + 1
      = ('<' :: gap ++ '!' :: (inner ++ ['>'])).length := by
    simp
    omega
  have inside : ('!' :: (inner ++ ['>']) ++ v).take (('!' :: inner).length + 1)
      = '!' :: (inner ++ ['>']) :=
    List.take_left' (by simp)
  have inked : ∀ c ∈ ['<'], isBlank c = false := by simp [show isBlank '<' = false by decide]
  have first : collapse ('<' :: '!' :: (inner ++ ['>']))
      = '<' :: collapse ('!' :: (inner ++ ['>'])) := collapse_append_of_inked inked _
  refine ⟨inner, v, cut, ?_⟩
  rw [cut, length, List.take_left, first, ← inside]
  rfl

/-- A declaration is a piece of its text, from `<` and `!` to the next `>`, on one line. Blanks
between the first two characters are left out. -/
theorem FoundIn.exists_declaration {source content : List Char} {span : Span}
    (h : FoundIn source (.declaration content span)) :
    ∃ gap inner, Between source span.start span.stop ('<' :: gap ++ '!' :: (inner ++ ['>'])) ∧
      allBlank gap = true ∧ content = collapse ('<' :: '!' :: (inner ++ ['>'])) := by
  cases h with
  | text h => simp [Node.isText] at h
  | construct hs h hnode =>
    have := isMarkup_readRazor? h _ hnode
    simp [Node.isMarkup] at this
  | @markup children pos stop n s _ hs h =>
    cases markup_of_readMarkup? h with
    | @declaration rest _ _ _ hrest hread =>
      have parts : s = s.takeWhile isBlank ++ '!' :: rest := by
        conv_lhs => rw [← List.takeWhile_append_dropWhile (p := isBlank) (l := s), hrest]
      rw [countWhile] at hread
      generalize hgap : s.takeWhile isBlank = gap at hread parts
      subst parts
      obtain ⟨inner, behind, hcut, hnode⟩ := readDeclaration?_eq_some hread
      obtain ⟨rfl, rfl⟩ := Node.declaration.inj hnode
      rw [hcut] at hs
      exact ⟨gap, inner, hs.split.1, hgap ▸ allBlank_takeWhile _, rfl⟩
    | element _ _ hread =>
      obtain ⟨_, hnode, -⟩ | ⟨_, _, _, _, _, -, -, hnode⟩ := readElement?_eq_some rfl hread <;>
        simp at hnode

/-! ### Places -/

/-- A node at its place, with the text that it was read from. The place is the position of the node
among its neighbours, behind the positions of the elements and blocks around it. -/
structure Occurrence where
  place : List Nat
  source : List Char
  node : Node

/-- The nodes of a template: those at the outermost level, those inside of elements, and those in
the bodies of blocks. A body is a text of its own, and is read as deep as it stands. -/
inductive Occurs (template : List Char) : Occurrence → Prop
  | template {i : Nat} {node : Node} (h : (readDocument template)[i]? = some node) :
    Occurs template ⟨[i], template, node⟩
  | child {place : List Nat} {source : List Char} {tag : Tag} {children : List Node} {i : Nat}
    {node : Node} (h : Occurs template ⟨place, source, .element tag children⟩)
    (hnode : children[i]? = some node) : Occurs template ⟨place ++ [i], source, node⟩
  | body {place : List Nat} {source header inner : List Char} {block : CodeBlock} {i : Nat}
    {node : Node} (h : Occurs template ⟨place, source, .code block⟩)
    (hparts : block.controlParts? = some (header, inner))
    (hnode : (readNested place.length 0 inner)[i]? = some node) :
    Occurs template ⟨place ++ [i], inner, node⟩

namespace Occurs

variable {template : List Char} {occurrence : Occurrence}

/-- A node and everything inside of it was read from its text. -/
theorem allFound (h : Occurs template occurrence) :
    AllFound occurrence.source [occurrence.node] := by
  have one {source : List Char} {nodes : List Node} (h : AllFound source nodes) {i : Nat}
      {node : Node} (hnode : nodes[i]? = some node) : AllFound source [node] := by
    have hmem := List.mem_of_getElem? hnode
    intro found hfound
    cases hfound with
    | here hfound => exact h found (.here (List.mem_singleton.1 hfound ▸ hmem))
    | inside helement hfound =>
      exact h found (.inside (List.mem_singleton.1 helement ▸ hmem) hfound)
  induction h with
  | template h => exact one (allFound_readDocument template) h
  | child _ hnode ih =>
    exact one (fun found hfound => ih found (.inside List.mem_cons_self hfound)) hnode
  | body _ _ hnode => exact one (allFound_readContent _ (.whole _)) hnode

theorem foundIn (h : Occurs template occurrence) :
    FoundIn occurrence.source occurrence.node :=
  h.allFound _ (.here List.mem_cons_self)

end Occurs

/-! ### All landmarks of a template -/

theorem readNested_of_allBlank (depth : Nat) {inner : List Char} (h : allBlank inner = true) :
    readNested depth 0 inner = [] := by
  rw [readNested]
  generalize maxNesting + 1 - depth = levels
  cases levels with
  | zero => simp [readContent, literal, Node.mergeTexts, Node.mergeOnto, h]
  | succ levels => exact readContent_of_blank levels 0 h

mutual

/-- The landmarks of a node, in the order of the source; `body` gives those of the body of the block
at a place. -/
def landmarksOf (body : List Nat → List Char → List Occurrence) (source : List Char)
    (place : List Nat) : Node → List Occurrence
  | .element _ children => landmarksFrom body source place 0 children
  | .code block =>
    match block.controlParts? with
    | some (_, inner) => body place inner
    | none => if (Node.code block).isLandmark then [⟨place, source, .code block⟩] else []
  | .declaration content span => [⟨place, source, .declaration content span⟩]
  | .text _ _ | .selfClosing _ => []

/-- The landmarks of neighbours, the first of which stands at position `i`. -/
def landmarksFrom (body : List Nat → List Char → List Occurrence) (source : List Char)
    (place : List Nat) : (i : Nat) → List Node → List Occurrence
  | _, [] => []
  | i, node :: nodes =>
    landmarksOf body source (place ++ [i]) node ++ landmarksFrom body source place (i + 1) nodes

end

/-- The landmarks of the body of a block, with `blocks` more levels of blocks inside of it. -/
def bodyLandmarks : (blocks : Nat) → (place : List Nat) → (inner : List Char) → List Occurrence
  | 0, _, _ => []
  | blocks + 1, place, inner =>
    landmarksFrom (bodyLandmarks blocks) inner place 0 (readNested place.length 0 inner)

/-- The landmarks of a template, in the order of the source. -/
def landmarks (template : List Char) : List Occurrence :=
  landmarksFrom (bodyLandmarks maxNesting) template [] 0 (readDocument template)

/-- Text and expressions hold no landmarks. -/
theorem landmarksFrom_of_isInline (body : List Nat → List Char → List Occurrence)
    (source : List Char) (place : List Nat) (i : Nat) {nodes : List Node}
    (h : ∀ node ∈ nodes, node.isInline = true) : landmarksFrom body source place i nodes = [] := by
  induction nodes generalizing i with
  | nil => rfl
  | cons node nodes ih =>
    obtain ⟨hnode, hnodes⟩ := List.forall_mem_cons.1 h
    rw [landmarksFrom, ih (i + 1) hnodes, List.append_nil]
    cases node with
    | text => rfl
    | code block =>
      have hkind : block.kind = .expression := by
        simpa [Node.isInline, Node.isExpression] using hnode
      simp [landmarksOf, CodeBlock.controlParts?, Node.isLandmark, hkind, CodeKind.isControl]
    | _ => simp [Node.isInline, Node.isExpression] at hnode

theorem bodyLandmarks_of_allBlank (blocks : Nat) (place : List Nat) {inner : List Char}
    (h : allBlank inner = true) : bodyLandmarks blocks place inner = [] := by
  cases blocks with
  | zero => rfl
  | succ blocks => rw [bodyLandmarks, readNested_of_allBlank _ h, landmarksFrom]

section Order

variable {body : List Nat → List Char → List Occurrence}

/-- Landmarks come in the order of their places, which begin with the place around them. -/
theorem pairwise_landmarksFrom
    (hbody : ∀ place inner, (body place inner).Pairwise (·.place < ·.place) ∧
      ∀ found ∈ body place inner, place <+: found.place) :
    (∀ node source place, (landmarksOf body source place node).Pairwise (·.place < ·.place) ∧
      ∀ found ∈ landmarksOf body source place node, place <+: found.place) ∧
    ∀ nodes source place i,
      (landmarksFrom body source place i nodes).Pairwise (·.place < ·.place) ∧
      ∀ found ∈ landmarksFrom body source place i nodes,
        ∃ j rest, i ≤ j ∧ found.place = place ++ j :: rest := by
  apply Node.induction
  case selfClosing | text => simp [landmarksOf]
  case declaration => simp [landmarksOf]
  case element =>
    intro tag children ih source place
    rw [landmarksOf]
    refine ⟨(ih source place 0).1, fun found hfound => ?_⟩
    obtain ⟨j, rest, -, hplace⟩ := (ih source place 0).2 found hfound
    exact ⟨j :: rest, hplace.symm⟩
  case code =>
    intro block source place
    rw [landmarksOf]
    split
    · exact hbody place _
    · split <;> simp
  case nil => simp [landmarksFrom]
  case cons =>
    intro node nodes hnode hnodes source place i
    obtain ⟨sorted, inside⟩ := hnode source (place ++ [i])
    obtain ⟨sorted', behind⟩ := hnodes source place (i + 1)
    have inside : ∀ found ∈ landmarksOf body source (place ++ [i]) node,
        ∃ rest, found.place = place ++ i :: rest := by
      intro found hfound
      obtain ⟨rest, hrest⟩ := inside found hfound
      exact ⟨rest, by simp [← hrest]⟩
    rw [landmarksFrom]
    refine ⟨List.pairwise_append.2 ⟨sorted, sorted', fun a ha b hb => ?_⟩, fun found hfound => ?_⟩
    · -- the first position that differs is that of the neighbour
      obtain ⟨rest, ha⟩ := inside a ha
      obtain ⟨j, rest', hij, hb⟩ := behind b hb
      rw [ha, hb]
      exact List.append_left_lt (List.cons_lt_cons_iff.2 (.inl hij))
    · rcases List.mem_append.1 hfound with hfound | hfound
      · obtain ⟨rest, hrest⟩ := inside found hfound
        exact ⟨i, rest, le_rfl, hrest⟩
      · obtain ⟨j, rest, hij, hrest⟩ := behind found hfound
        exact ⟨j, rest, by omega, hrest⟩

theorem pairwise_bodyLandmarks (blocks : Nat) (place : List Nat) (inner : List Char) :
    (bodyLandmarks blocks place inner).Pairwise (·.place < ·.place) ∧
      ∀ found ∈ bodyLandmarks blocks place inner, place <+: found.place := by
  induction blocks generalizing place inner with
  | zero => simp [bodyLandmarks]
  | succ blocks ih =>
    obtain ⟨sorted, inside⟩ := (pairwise_landmarksFrom ih).2 (readNested place.length 0 inner) inner
      place 0
    refine ⟨sorted, fun found hfound => ?_⟩
    obtain ⟨j, rest, -, hplace⟩ := inside found hfound
    exact ⟨j :: rest, hplace.symm⟩

/-- The landmarks of a template come in the order of their places. -/
theorem pairwise_landmarks (template : List Char) :
    (landmarks template).Pairwise (·.place < ·.place) :=
  ((pairwise_landmarksFrom (pairwise_bodyLandmarks maxNesting)).2 _ template [] 0).1

end Order

section Membership

variable {template : List Char} {body : List Nat → List Char → List Occurrence}

/-- What is listed for nodes that occur are landmarks that occur. -/
theorem of_mem_landmarksFrom
    (hbody : ∀ place inner, (∀ i node, (readNested place.length 0 inner)[i]? = some node →
        Occurs template ⟨place ++ [i], inner, node⟩) →
      ∀ found ∈ body place inner, found.node.isLandmark = true ∧ Occurs template found) :
    (∀ node source place, Occurs template ⟨place, source, node⟩ →
      ∀ found ∈ landmarksOf body source place node,
        found.node.isLandmark = true ∧ Occurs template found) ∧
    ∀ nodes source place i,
      (∀ k node, nodes[k]? = some node → Occurs template ⟨place ++ [i + k], source, node⟩) →
      ∀ found ∈ landmarksFrom body source place i nodes,
        found.node.isLandmark = true ∧ Occurs template found := by
  apply Node.induction
  case selfClosing | text => simp [landmarksOf]
  case declaration =>
    intro content span source place h found hfound
    obtain rfl := List.mem_singleton.1 hfound
    exact ⟨rfl, h⟩
  case element =>
    intro tag children ih source place h
    rw [landmarksOf]
    exact ih source place 0 fun k node hnode => by simpa using h.child hnode
  case code =>
    intro block source place h found hfound
    rw [landmarksOf] at hfound
    split at hfound
    · rename_i hparts
      exact hbody place _ (fun i node hnode => h.body hparts hnode) found hfound
    · split at hfound
      · rename_i hlandmark
        obtain rfl := List.mem_singleton.1 hfound
        exact ⟨hlandmark, h⟩
      · simp at hfound
  case nil => simp [landmarksFrom]
  case cons =>
    intro node nodes hnode hnodes source place i h found hfound
    rw [landmarksFrom] at hfound
    rcases List.mem_append.1 hfound with hfound | hfound
    · exact hnode source _ (h 0 node rfl) found hfound
    · refine hnodes source place (i + 1) (fun k next hnext => ?_) found hfound
      simpa [Nat.add_assoc, Nat.add_comm 1] using h (k + 1) next hnext

theorem of_mem_bodyLandmarks (blocks : Nat) (place : List Nat) (inner : List Char)
    (h : ∀ i node, (readNested place.length 0 inner)[i]? = some node →
      Occurs template ⟨place ++ [i], inner, node⟩) :
    ∀ found ∈ bodyLandmarks blocks place inner,
      found.node.isLandmark = true ∧ Occurs template found := by
  induction blocks generalizing place inner with
  | zero => simp [bodyLandmarks]
  | succ blocks ih =>
    refine (of_mem_landmarksFrom ih).2 _ inner place 0 fun k node hnode => ?_
    simpa using h k node hnode

theorem landmarksOf_subset {source : List Char} {place : List Nat} {nodes : List Node} {k : Nat}
    {node : Node} (h : nodes[k]? = some node) (i : Nat) :
    landmarksOf body source (place ++ [i + k]) node ⊆ landmarksFrom body source place i nodes := by
  induction nodes generalizing i k with
  | nil => simp at h
  | cons next nodes ih =>
    rw [landmarksFrom]
    cases k with
    | zero =>
      obtain rfl : next = node := by simpa using h
      exact List.subset_append_left ..
    | succ k =>
      have rest := ih (k := k) (by simpa using h) (i + 1)
      rw [Nat.add_assoc, Nat.add_comm 1] at rest
      exact List.subset_append_of_subset_right _ rest

/-- The landmarks of a node that occurs are listed, with enough levels of blocks to reach the bodies
that are too deep to hold any. -/
theorem Occurs.landmarksOf_subset_landmarks {occurrence : Occurrence}
    (h : Occurs template occurrence) :
    ∃ blocks, maxNesting < blocks + occurrence.place.length ∧
      landmarksOf (bodyLandmarks blocks) occurrence.source occurrence.place occurrence.node
        ⊆ landmarks template := by
  induction h with
  | @template i node h =>
    have listed := @landmarksOf_subset (bodyLandmarks maxNesting) template [] _ i node h 0
    exact ⟨maxNesting, by simp, by simpa [landmarks] using listed⟩
  | child _ hnode ih =>
    obtain ⟨blocks, hblocks, ih⟩ := ih
    refine ⟨blocks, hblocks.trans_le (by simp), fun found hfound => ih ?_⟩
    rw [landmarksOf]
    exact landmarksOf_subset hnode 0 (by simpa using hfound)
  | @body place source header inner block i node _ hparts hnode ih =>
    obtain ⟨blocks, hblocks, ih⟩ := ih
    simp only [landmarksOf, hparts] at ih hblocks
    cases blocks with
    | zero =>
      have htext : node.isText = true := by
        rw [readNested, show maxNesting + 1 - place.length = 0 by omega] at hnode
        exact isText_of_mem_readContent_zero (List.mem_of_getElem? hnode)
      refine ⟨0, by simp; omega, ?_⟩
      cases node <;> simp_all [Node.isText, landmarksOf]
    | succ blocks =>
      refine ⟨blocks, by simp; omega, fun found hfound => ih ?_⟩
      rw [bodyLandmarks]
      exact landmarksOf_subset hnode 0 (by simpa using hfound)

/-- The list holds the landmarks that occur, and nothing else. -/
theorem mem_landmarks_iff {found : Occurrence} :
    found ∈ landmarks template ↔ found.node.isLandmark = true ∧ Occurs template found := by
  constructor
  · exact (of_mem_landmarksFrom (of_mem_bodyLandmarks maxNesting)).2 _ template [] 0
      (fun k node hnode => by simpa using Occurs.template hnode) found
  · rintro ⟨hlandmark, h⟩
    obtain ⟨blocks, -, hsubset⟩ := h.landmarksOf_subset_landmarks
    refine hsubset ?_
    obtain ⟨place, source, node⟩ := found
    cases node with
    | declaration content span => simp [landmarksOf]
    | code block =>
      have hparts : block.controlParts? = none := by
        simp only [Node.isLandmark, Bool.and_eq_true, decide_eq_true_eq] at hlandmark
        simp [CodeBlock.controlParts?, hlandmark.1, CodeKind.isControl]
      simp [landmarksOf, hparts, hlandmark]
    | _ => simp [Node.isLandmark] at hlandmark

end Membership

/-- A directive in the body of a block, next to an element with another one. -/
example : (landmarks "<!DOCTYPE html>@if (a) \x7b @using B\n<p>@page C</p> \x7d".toList).map
    (·.place) = [[0], [1, 0], [1, 1, 0]] := by
  decide +kernel

end Template

end RazorLayout

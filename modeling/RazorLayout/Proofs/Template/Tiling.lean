import Mathlib.Data.List.Chain
import RazorLayout.Proofs.Template.Node
import RazorLayout.Proofs.Text.Ink
import RazorLayout.Template.Element

/-!
# Nodes and their places in the source

The nodes of a template know the range of bytes that they were read from. This file says what it
means that nodes account for a part of the source: their ranges lie one behind the other, nothing
but blanks is left between them, and inside of an element the same holds of its content.

Readers go through the source from one place to the next, and so do the proofs: `Tiled` follows
the nodes from a start to a stop, with the blanks in front of each. What a reader gives are
fragments, among them texts that are blank or that touch each other; `laid_mergeTexts` shows that
putting texts together keeps the tiling.

## Main definitions

* `Between`: the piece of the source between two places
* `Covers`: ranges that leave nothing but blanks
* `Covered`, `Placed`: nodes that account for a part of the source, at every depth
* `Tiled`: nodes one behind the other, with blanks between them

## Main results

* `Tiled.append`: tilings that meet are one tiling
* `Tiled.covers`: the ranges of a tiling leave nothing but blanks
* `laid_mergeTexts`: texts put together are not blank and do not touch
-/

namespace RazorLayout.Text

/-! ### Places in the source -/

theorem byteLength_pos {s : List Char} (h : s ≠ []) : 0 < byteLength s := by
  obtain ⟨c, s, rfl⟩ := List.exists_cons_of_ne_nil h
  have := c.utf8Size_pos
  rw [byteLength_cons]
  omega

/-- Of two beginnings of a text the one with fewer bytes is a beginning of the other. -/
theorem prefix_of_byteLength_le {u w s : List Char} (hu : u <+: s) (hw : w <+: s)
    (h : byteLength u ≤ byteLength w) : u <+: w := by
  rcases List.prefix_or_prefix_of_prefix hu hw with huw | ⟨v, rfl⟩
  · exact huw
  · -- the longer one has no bytes more, hence no characters more
    have hv : v = [] := by
      by_contra hne
      have := byteLength_pos hne
      rw [byteLength_append] at h
      omega
    simp [hv]

/-- A text has one beginning of so many bytes. -/
theorem eq_of_byteLength_eq {u w s : List Char} (hu : u <+: s) (hw : w <+: s)
    (h : byteLength u = byteLength w) : u = w :=
  (prefix_of_byteLength_le hu hw h.le).eq_of_length_le
    (prefix_of_byteLength_le hw hu h.ge).length_le

/-- The piece of the source between two places, which are numbers of bytes. -/
def Between (source : List Char) (start stop : Nat) (piece : List Char) : Prop :=
  ∃ before behind, source = before ++ piece ++ behind ∧ byteLength before = start ∧
    byteLength (before ++ piece) = stop

namespace Between

variable {source piece piece' : List Char} {start middle stop : Nat}

theorem whole (source : List Char) : Between source 0 (byteLength source) source :=
  ⟨[], [], by simp, rfl, rfl⟩

theorem stop_eq (h : Between source start stop piece) : stop = start + byteLength piece := by
  obtain ⟨before, behind, -, rfl, rfl⟩ := h
  exact byteLength_append before piece

theorem le (h : Between source start stop piece) : start ≤ stop := by
  have := h.stop_eq
  omega

theorem lt (h : Between source start stop piece) (hne : piece ≠ []) : start < stop := by
  have := h.stop_eq
  have := byteLength_pos hne
  omega

/-- A piece falls into two where it is cut. -/
theorem split (h : Between source start stop (piece ++ piece')) :
    Between source start (start + byteLength piece) piece ∧
      Between source (start + byteLength piece) stop piece' := by
  obtain ⟨before, behind, rfl, rfl, rfl⟩ := h
  refine ⟨⟨before, piece' ++ behind, by simp, rfl, byteLength_append before piece⟩,
    before ++ piece, behind, by simp, byteLength_append before piece, ?_⟩
  rw [List.append_assoc]

theorem take (h : Between source start stop piece) (n : Nat) :
    Between source start (start + byteLength (piece.take n)) (piece.take n) := by
  rw [← List.take_append_drop n piece] at h
  exact h.split.1

theorem drop (h : Between source start stop piece) (n : Nat) :
    Between source (start + byteLength (piece.take n)) stop (piece.drop n) := by
  rw [← List.take_append_drop n piece] at h
  exact h.split.2

/-- Nothing stands between a place and itself. -/
theorem start_nil (h : Between source start stop piece) : Between source start start [] := by
  simpa using h.take 0

theorem stop_nil (h : Between source start stop piece) : Between source stop stop [] := by
  rw [← List.append_nil piece] at h
  have := h.split.2
  rwa [← h.split.1.stop_eq, ← List.append_nil piece, ← h.stop_eq] at this

/-- Pieces that meet are one piece. -/
theorem append (h : Between source start middle piece) (h' : Between source middle stop piece') :
    Between source start stop (piece ++ piece') := by
  obtain ⟨before, behind, rfl, rfl, rfl⟩ := h
  obtain ⟨before', behind', hsource, hmiddle, rfl⟩ := h'
  -- both pieces know the place where they meet, and the source has only one beginning up to it
  have same : before' = before ++ piece := by
    have hbefore' : before' <+: before ++ piece ++ behind :=
      ⟨piece' ++ behind', by rw [hsource, List.append_assoc]⟩
    have hbefore : before ++ piece <+: before ++ piece ++ behind := List.prefix_append ..
    exact eq_of_byteLength_eq hbefore' hbefore hmiddle
  subst same
  exact ⟨before, behind', by rw [hsource]; simp, rfl, by simp⟩

/-- Between two places stands one piece. -/
theorem unique (h : Between source start stop piece) (h' : Between source start stop piece') :
    piece = piece' := by
  obtain ⟨before, behind, hsource, hstart, rfl⟩ := h
  obtain ⟨before', behind', hsource', hstart', hstop⟩ := h'
  have hbefore : before <+: source := ⟨piece ++ behind, by rw [hsource, List.append_assoc]⟩
  have hbefore' : before' <+: source := ⟨piece' ++ behind', by rw [hsource', List.append_assoc]⟩
  obtain rfl : before = before' :=
    eq_of_byteLength_eq hbefore hbefore' (hstart.trans hstart'.symm)
  exact List.append_cancel_left
    (eq_of_byteLength_eq ⟨behind, hsource.symm⟩ ⟨behind', hsource'.symm⟩ hstop.symm)

/-- A character that stands between the two places is in the piece. -/
theorem mem (h : Between source start stop piece) {before behind : List Char} {c : Char}
    (hsource : source = before ++ c :: behind) (hstart : start ≤ byteLength before)
    (hstop : byteLength before < stop) : c ∈ piece := by
  obtain ⟨before', behind', hsource', rfl, rfl⟩ := h
  have hbefore : before <+: source := ⟨c :: behind, hsource.symm⟩
  have hbefore' : before' <+: source := ⟨piece ++ behind', by rw [hsource', List.append_assoc]⟩
  obtain ⟨w, rfl⟩ := prefix_of_byteLength_le hbefore' hbefore hstart
  have hrest : w ++ c :: behind = piece ++ behind' := by
    rw [hsource, List.append_assoc, List.append_assoc] at hsource'
    exact List.append_cancel_left hsource'
  -- the piece reaches beyond what stands in front of the character
  have hw : ¬ piece <+: w := by
    rintro ⟨v, rfl⟩
    simp only [byteLength_append] at hstop
    omega
  have hprefix : w ++ [c] <+: w ++ c :: behind := ⟨behind, by simp⟩
  have hpiece : piece <+: w ++ c :: behind := ⟨behind', hrest.symm⟩
  rcases List.prefix_or_prefix_of_prefix hprefix hpiece with hle | hle
  · exact hle.subset (by simp)
  · rcases List.prefix_concat_iff.1 hle with rfl | hle
    · simp
    · exact absurd hle hw

end Between

end RazorLayout.Text

namespace RazorLayout.Template

open Text

/-! ### Nodes that account for the source -/

/-- Ranges that lie one behind the other, on characters, in a part of the source; outside of them
that part is blank. -/
structure Covers (source : List Char) (start stop : Nat) (spans : List Span) : Prop where
  nonempty : ∀ span ∈ spans, span.start < span.stop
  on_characters : ∀ span ∈ spans, ∃ piece, Between source span.start span.stop piece
  within : ∀ span ∈ spans, start ≤ span.start ∧ span.stop ≤ stop
  ordered : spans.Pairwise fun a b => a.stop ≤ b.start
  blank_outside : ∀ before c behind, source = before ++ c :: behind →
    start ≤ byteLength before → byteLength before < stop →
    (∀ span ∈ spans, ¬ (span.start ≤ byteLength before ∧ byteLength before < span.stop)) →
    isBlank c = true

/-- Literal texts that are neighbours do not touch. -/
def TextsApart (nodes : List Node) : Prop :=
  nodes.IsChain fun a b => a.isText = true → b.isText = true → a.span.stop ≠ b.span.start

/-- Embedded code that is kept as it is written stands in the source. -/
def CodePlaced (source : List Char) (block : CodeBlock) : Prop :=
  match block.kind with
  | .expression | .statement =>
    Between source block.span.start block.span.stop ('@' :: block.code)
  | .inlineBlock =>
    Between source block.span.start block.span.stop ('@' :: '{' :: block.code ++ ['}'])
  | _ => True

mutual

/-- A node that holds what its range of the source holds. Elements without content have no
children, so that nothing is asked of them. -/
inductive Placed (source : List Char) : Node → Prop
  | text {content : List Char} {span : Span}
    (stands : Between source span.start span.stop content) (ink : allBlank content = false) :
    Placed source (.text content span)
  | code {block : CodeBlock} (stands : CodePlaced source block) : Placed source (.code block)
  | selfClosing (tag : Tag) : Placed source (.selfClosing tag)
  | declaration (content : List Char) (span : Span) : Placed source (.declaration content span)
  /-- The range reaches from `<` to the closing tag; the content begins behind a `>` at the place
  `start` and ends in front of the closing tag. -/
  | element {tag : Tag} {children : List Node} {start : Nat} {opening content : List Char}
    (opened : Between source tag.span.start start ('<' :: opening ++ ['>']))
    (closed : Between source start tag.span.stop (content ++ tagCloser tag.name))
    (inside : Covered source start (tag.span.stop - byteLength (tagCloser tag.name)) children) :
    Placed source (.element tag children)

/-- Nodes that account for the source from `start` to `stop`. -/
inductive Covered (source : List Char) : Nat → Nat → List Node → Prop
  | intro {start stop : Nat} {nodes : List Node}
    (covers : Covers source start stop (nodes.map Node.span)) (apart : TextsApart nodes)
    (placed : ∀ node ∈ nodes, Placed source node) : Covered source start stop nodes

end

/-! ### Tilings -/

/-- Nodes one behind the other from `start` to `stop`, each of them with the property `P`, with
blanks in front of each and behind the last. -/
inductive Tiled (source : List Char) (P : Node → Prop) : Nat → List Node → Nat → Prop
  | nil {start stop : Nat} {gap : List Char} (hgap : Between source start stop gap)
    (blank : allBlank gap = true) : Tiled source P start [] stop
  | cons {start stop : Nat} {gap piece : List Char} {node : Node} {nodes : List Node}
    (hgap : Between source start node.span.start gap) (blank : allBlank gap = true)
    (stands : Between source node.span.start node.span.stop piece) (hne : piece ≠ [])
    (hnode : P node) (rest : Tiled source P node.span.stop nodes stop) :
    Tiled source P start (node :: nodes) stop

section Tilings

variable {source : List Char} {P : Node → Prop} {start middle stop : Nat}
  {nodes nodes' : List Node}

theorem Tiled.blank_append {gap : List Char} (hgap : Between source start middle gap)
    (blank : allBlank gap = true) (h : Tiled source P middle nodes stop) :
    Tiled source P start nodes stop := by
  cases h with
  | nil hgap' blank' => exact .nil (hgap.append hgap') (by simp [blank, blank'])
  | cons hgap' blank' stands hne hnode rest =>
    exact .cons (hgap.append hgap') (by simp [blank, blank']) stands hne hnode rest

/-- Tilings that meet are one tiling. -/
theorem Tiled.append (h : Tiled source P start nodes middle)
    (h' : Tiled source P middle nodes' stop) : Tiled source P start (nodes ++ nodes') stop := by
  induction h with
  | nil hgap blank => exact h'.blank_append hgap blank
  | cons hgap blank stands hne hnode _ ih => exact .cons hgap blank stands hne hnode (ih h')

/-- One node that takes the first characters of a text. -/
theorem tiled_singleton {s : List Char} (hs : Between source start stop s) (hne : s ≠ []) {n : Nat}
    (hn : 0 < n) {node : Node} (hspan : node.span = ⟨start, start + byteLength (s.take n)⟩)
    (hnode : P node) : Tiled source P start [node] (start + byteLength (s.take n)) := by
  have stands : Between source node.span.start node.span.stop (s.take n) := by
    rw [hspan]
    exact hs.take n
  have hgap : Between source start node.span.start [] := by
    rw [hspan]
    exact hs.start_nil
  have behind : Between source node.span.stop (start + byteLength (s.take n)) [] := by
    rw [hspan]
    exact (hs.take n).stop_nil
  have hpiece : s.take n ≠ [] := by
    rw [Ne, List.take_eq_nil_iff]
    exact not_or.2 ⟨hn.ne', hne⟩
  exact .cons hgap rfl stands hpiece hnode (.nil behind rfl)

theorem Tiled.le (h : Tiled source P start nodes stop) : start ≤ stop := by
  induction h with
  | nil hgap _ => exact hgap.le
  | cons hgap _ stands _ _ _ ih => exact hgap.le.trans (stands.le.trans ih)

theorem Tiled.forall_mem (h : Tiled source P start nodes stop) : ∀ node ∈ nodes, P node := by
  induction h with
  | nil => simp
  | cons _ _ _ _ hnode _ ih => exact List.forall_mem_cons.2 ⟨hnode, ih⟩

/-- The ranges of a tiling leave nothing but blanks. -/
theorem Tiled.covers (h : Tiled source P start nodes stop) :
    Covers source start stop (nodes.map Node.span) := by
  induction h with
  | nil hgap blank =>
    refine ⟨by simp, by simp, by simp, by simp, ?_⟩
    intro before c behind hsource hstart hstop _
    exact allBlank_iff.1 blank c (hgap.mem hsource hstart hstop)
  | @cons start stop gap piece node nodes hgap blank stands hne hnode rest ih =>
    -- the other ranges begin behind this one
    have behind : ∀ span ∈ nodes.map Node.span, node.span.stop ≤ span.start :=
      fun span hspan => (ih.within span hspan).1
    have before : start ≤ node.span.start := hgap.le
    have inside : node.span.start < node.span.stop := stands.lt hne
    refine ⟨?_, ?_, ?_, List.pairwise_cons.2 ⟨behind, ih.ordered⟩, ?_⟩
    · exact List.forall_mem_cons.2 ⟨inside, ih.nonempty⟩
    · exact List.forall_mem_cons.2 ⟨⟨piece, stands⟩, ih.on_characters⟩
    · refine List.forall_mem_cons.2 ⟨⟨before, rest.le⟩, fun span hspan => ?_⟩
      have := ih.within span hspan
      omega
    · intro u c v hsource hstart hstop outside
      rw [List.map_cons, List.forall_mem_cons] at outside
      -- the character stands in front of the node or behind it
      by_cases hfront : byteLength u < node.span.start
      · exact allBlank_iff.1 blank c (hgap.mem hsource hstart hfront)
      · exact ih.blank_outside u c v hsource (by omega) hstop outside.2

theorem covered_of_tiled (h : Tiled source (Placed source) start nodes stop)
    (apart : TextsApart nodes) : Covered source start stop nodes :=
  .intro h.covers apart h.forall_mem

/-! ### Putting texts together -/

/-- What a reader gives: a node that is placed, or a piece of text, which may be blank. -/
def Fragment (source : List Char) : Node → Prop
  | .text content span => Between source span.start span.stop content
  | node => Placed source node

theorem Fragment.placed {node : Node} (h : Fragment source node) (hnode : node.isText = false) :
    Placed source node := by
  cases node with
  | text content span => simp [Node.isText] at hnode
  | selfClosing tag => exact h
  | element tag children => exact h
  | declaration content span => exact h
  | code block => exact h

/-- Nodes as content has them: placed one behind the other, with texts that do not touch. -/
structure Laid (source : List Char) (start : Nat) (nodes : List Node) (stop : Nat) : Prop where
  tiled : Tiled source (Placed source) start nodes stop
  apart : TextsApart nodes

theorem Laid.covered (h : Laid source start nodes stop) : Covered source start stop nodes :=
  covered_of_tiled h.tiled h.apart

theorem textsApart_cons {node : Node} (h : TextsApart nodes)
    (hhead : ∀ next ∈ nodes.head?, node.isText = true → next.isText = true →
      node.span.stop ≠ next.span.start) : TextsApart (node :: nodes) :=
  List.isChain_cons.2 ⟨hhead, h⟩

/-- A piece of text that is not blank in front of laid nodes. -/
theorem laid_mergeText {gap content : List Char} {span : Span}
    (hgap : Between source start span.start gap) (blank : allBlank gap = true)
    (stands : Between source span.start span.stop content) (ink : allBlank content = false)
    (h : Laid source span.stop nodes stop) :
    Laid source start (Node.mergeOnto (.text content span) nodes) stop := by
  have hne : content ≠ [] := by
    rintro rfl
    simp at ink
  have alone : Tiled source (Placed source) start (.text content span :: nodes) stop :=
    .cons hgap blank stands hne (.text stands ink) h.tiled
  unfold Node.mergeOnto
  simp only [ink, Bool.false_eq_true, if_false]
  split
  · rename_i next nextSpan rest
    split
    · -- the texts touch, and become one text
      rename_i htouch
      obtain ⟨hhead, hchain⟩ := List.isChain_cons.1 h.apart
      cases h.tiled with
      | cons _ _ _ _ hnext hrest =>
        cases hnext with
        | text standsNext _ =>
          rw [← htouch] at standsNext
          have joined := stands.append standsNext
          have tiled : Tiled source (Placed source) start
              (.text (content ++ next) ⟨span.start, nextSpan.stop⟩ :: rest) stop :=
            .cons hgap blank joined (by simp [hne]) (.text joined (by simp [ink])) hrest
          exact ⟨tiled, textsApart_cons hchain hhead⟩
    · rename_i htouch
      refine ⟨alone, textsApart_cons h.apart ?_⟩
      simpa [Node.span] using fun _ _ => htouch
  · rename_i hnext
    refine ⟨alone, textsApart_cons h.apart ?_⟩
    intro next hmem _ htext
    cases nodes with
    | nil => simp at hmem
    | cons node nodes =>
      obtain rfl : node = next := by simpa using hmem
      cases node with
      | text next nextSpan => exact absurd rfl (hnext next nextSpan nodes)
      | _ => simp [Node.isText] at htext

/-- Fragments of a part of the source, put together, are placed in it. -/
theorem laid_mergeTexts (h : Tiled source (Fragment source) start nodes stop) :
    Laid source start (Node.mergeTexts nodes) stop := by
  induction h with
  | nil hgap blank => exact ⟨.nil hgap blank, .nil⟩
  | @cons start stop gap piece node nodes hgap blank stands hne hnode _ ih =>
    rw [Node.mergeTexts, List.foldr_cons, ← Node.mergeTexts]
    cases node with
    | text content span =>
      cases ink : allBlank content with
      | true =>
        -- a blank text is dropped
        have merged : Node.mergeOnto (.text content span) (Node.mergeTexts nodes)
            = Node.mergeTexts nodes := by
          simp [Node.mergeOnto, ink]
        rw [merged]
        exact ⟨ih.tiled.blank_append (hgap.append hnode) (by simp [blank, ink]), ih.apart⟩
      | false => exact laid_mergeText hgap blank hnode ink ih
    | selfClosing | element | declaration | code =>
      refine ⟨.cons hgap blank stands hne (hnode.placed rfl) ih.tiled, ?_⟩
      exact textsApart_cons ih.apart fun _ _ htext => by simp [Node.isText] at htext

end Tilings

end RazorLayout.Template

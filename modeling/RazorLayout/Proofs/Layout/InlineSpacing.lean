import RazorLayout.Layout.Inline
import RazorLayout.Proofs.Template.Depth
import RazorLayout.Proofs.Template.InlineCode
import RazorLayout.Proofs.Text.Margin

/-!
# Blanks between texts and expressions

Where two words of a page touch and where they are apart must not change when text and expressions
are written on one line. This file shows that nothing of the sort happens: up to the length of its
runs of blanks, the line is the source without the blanks at its ends.

The blanks between two neighbours stand in three places: at the end of the first, at the beginning
of the second, and in a gap between their ranges, when a text of blanks has been dropped there. The
proof follows the tiling of the source by the nodes. Every node is cut into blanks, a core and
blanks again; what is not core up to the next node is one run of blanks, and the line has a space
for it exactly when it is not empty.

## Main definitions

* `InlineSource`: blanks, core and blanks of a node within a line

## Main results

* `collapse_append_congr`: runs of blanks can be shortened piece by piece
* `endsWithInk_of_mem_readContent`: expressions do not end with a blank
* `collapse_joinInline_readNested`: a line of texts and expressions is the source, up to the length
  of its runs of blanks
-/

namespace RazorLayout.Text

/-! ### Runs of blanks, piece by piece -/

/-- A blank at the head is a space, unless the run of blanks goes on. -/
theorem collapse_cons (c : Char) (s : List Char) :
    collapse (c :: s)
      = if isBlank c then (if s.head?.any isBlank then collapse s else ' ' :: collapse s)
        else c :: collapse s := by
  cases s with
  | nil => by_cases hc : isBlank c = true <;> simp [collapse, hc]
  | cons d s => rfl

theorem head?_collapse (s : List Char) :
    (collapse s).head?.any isBlank = s.head?.any isBlank := by
  induction s with
  | nil => rfl
  | cons c s ih =>
    rw [collapse_cons]
    by_cases hc : isBlank c = true
    · by_cases hs : s.head?.any isBlank = true
      · simp [hc, hs, ih]
      · simp [hc, hs, show isBlank ' ' = true by decide]
    · simp [hc]

/-- Whatever stands behind a blank counts up to the length of its runs of blanks, and the blanks
themselves are alike. -/
theorem collapse_cons_congr_of_blank {c c' : Char} (hc : isBlank c = true) (hc' : isBlank c' = true)
    {s t : List Char} (h : collapse s = collapse t) : collapse (c :: s) = collapse (c' :: t) := by
  have head : s.head?.any isBlank = t.head?.any isBlank := by
    rw [← head?_collapse s, h, head?_collapse]
  rw [collapse_cons, collapse_cons, if_pos hc, if_pos hc', head, h]

theorem collapse_cons_congr (c : Char) {s t : List Char} (h : collapse s = collapse t) :
    collapse (c :: s) = collapse (c :: t) := by
  by_cases hc : isBlank c = true
  · exact collapse_cons_congr_of_blank hc hc h
  · rw [collapse_cons, collapse_cons, if_neg hc, if_neg hc, h]

/-- Shortening the runs of a beginning first changes nothing. -/
theorem collapse_collapse_append (s t : List Char) :
    collapse (collapse s ++ t) = collapse (s ++ t) := by
  induction s with
  | nil => rfl
  | cons c s ih =>
    rw [List.cons_append, collapse_cons c s]
    by_cases hc : isBlank c = true
    · by_cases hs : s.head?.any isBlank = true
      · -- the run goes on in the beginning
        have hst : (s ++ t).head?.any isBlank = true := by
          cases s with
          | nil => simp at hs
          | cons d s => exact hs
        rw [if_pos hc, if_pos hs, ih, collapse_cons, if_pos hc, if_pos hst]
      · rw [if_pos hc, if_neg hs, List.cons_append]
        exact collapse_cons_congr_of_blank (by decide) hc ih
    · rw [if_neg hc, List.cons_append]
      exact collapse_cons_congr c ih

theorem collapse_collapse (s : List Char) : collapse (collapse s) = collapse s := by
  simpa using collapse_collapse_append s []

/-- Runs of blanks can be shortened piece by piece. -/
theorem collapse_append_congr {s s' t t' : List Char} (hs : collapse s = collapse s')
    (ht : collapse t = collapse t') : collapse (s ++ t) = collapse (s' ++ t') := by
  have behind : ∀ u : List Char, collapse (u ++ t) = collapse (u ++ t') := by
    intro u
    induction u with
    | nil => exact ht
    | cons c u ih => exact collapse_cons_congr c ih
  calc
    collapse (s ++ t) = collapse (collapse s ++ t) := (collapse_collapse_append s t).symm
    _ = collapse (collapse s' ++ t) := by rw [hs]
    _ = collapse (s' ++ t) := collapse_collapse_append s' t
    _ = collapse (s' ++ t') := behind s'

/-- A run of blanks is one space, if there is any. -/
theorem collapse_of_allBlank {g : List Char} (hg : allBlank g = true) :
    collapse g = if g.isEmpty then [] else [' '] := by
  induction g with
  | nil => rfl
  | cons c g ih =>
    simp only [allBlank_cons, Bool.and_eq_true] at hg
    rw [collapse_cons, if_pos hg.1, ih hg.2]
    cases g with
    | nil => rfl
    | cons d g =>
      have hd : isBlank d = true := allBlank_iff.1 hg.2 d List.mem_cons_self
      simp [hd]

theorem endsWithInk_of_inked {w : List Char} (hne : w ≠ []) (hw : ∀ c ∈ w, isBlank c = false) :
    EndsWithInk w :=
  ⟨w.dropLast, w.getLast hne, (List.dropLast_append_getLast hne).symm,
    hw _ (List.getLast_mem hne)⟩

theorem beginsWithInk_trim {s : List Char} (hs : allBlank s = false) :
    ∃ c u, trim s = c :: u ∧ isBlank c = false := by
  have hne : trim s ≠ [] := fun h => by simp [trim_eq_nil_iff.1 h] at hs
  obtain ⟨c, u, htrim⟩ := List.exists_cons_of_ne_nil hne
  have trimmed : (c :: u).dropWhile isBlank = c :: u := htrim ▸ trimStart_trim s
  refine ⟨c, u, htrim, ?_⟩
  simpa using List.dropWhile_eq_self_iff.1 trimmed

/-- Blanks are taken away behind the last character that is not blank. -/
theorem EndsWithInk.trimEnd_append {s : List Char} (hs : EndsWithInk s) (t : List Char) :
    trimEnd (s ++ t) = s ++ trimEnd t := by
  by_cases ht : allBlank t = true
  · rw [trimEnd_append_of_allBlank s ht, hs.trimEnd_eq, trimEnd_eq_nil_iff.2 ht, List.append_nil]
  · exact trimEnd_append_of_ink (by simpa using ht) s

end RazorLayout.Text

namespace RazorLayout.Template

open Text Code

/-! ### Expressions end with ink -/

theorem isBlank_of_isIdentifierRest {c : Char} (h : isIdentifierRest c = true) :
    isBlank c = false := by
  by_contra hc
  rw [Bool.not_eq_false] at hc
  rw [isIdentifierRest_of_isBlank hc] at h
  exact Bool.false_ne_true h

/-- A name behind a word ends with ink. -/
theorem endsWithInk_identifier {w s : List Char} {n : Nat}
    (h : Opening.partsLength? [.word w, .identifier] s = some n) : EndsWithInk (s.take n) := by
  obtain ⟨c, rest, rfl, hc, rfl⟩ := Opening.partsLength?_identifier_iff.1 h
  have start : isBlank c = false := by
    apply isBlank_of_isIdentifierRest
    simp only [isIdentifierStart, Bool.or_eq_true] at hc
    rcases hc with hc | hc <;> simp [isIdentifierRest, Char.isAlphanum, hc]
  rw [List.take_length_add_append, List.take_succ_cons, take_countWhile]
  apply EndsWithInk.append
  apply endsWithInk_of_inked (List.cons_ne_nil _ _)
  intro d hd
  rcases List.mem_cons.1 hd with rfl | hd
  · exact start
  · exact isBlank_of_isIdentifierRest (List.mem_takeWhile_imp hd)

/-- Members, arguments and indices end with ink. -/
theorem endsWithInk_expressionTail {length length' n : Nat} {s : List Char}
    (h : expressionTail length s = some (length', n)) : EndsWithInk (s.take n) := by
  obtain ⟨-, hmember | ⟨b, rest, k, hb, -, hk, rfl⟩⟩ := expressionTail_eq_some_iff.1 h
  · exact endsWithInk_identifier hmember
  · -- arguments and indices end with a closer
    have hcloser : isBlank b.closer = false := by rcases hb with rfl | rfl <;> decide
    obtain ⟨inner, behind, rfl, rfl⟩ := Bracket.matchCodeFrom_eq_some hk
    refine ⟨inner, b.closer, ?_, hcloser⟩
    simp [List.take_append, List.take_of_length_le]

/-- An expression with everything that belongs to it ends with ink. -/
theorem endsWithInk_readExpression? {pos n : Nat} {s : List Char} {nodes : List Node}
    (h : readExpression? pos s = some (nodes, n)) :
    nodes = [codeNode .expression ((s.take n).drop 1) pos n s] ∧ EndsWithInk (s.take n) := by
  simp only [readExpression?, Option.map_eq_some_iff, Prod.mk.injEq] at h
  obtain ⟨k, hk, rfl, rfl⟩ := h
  refine ⟨rfl, ?_⟩
  have hink := endsWithInk_identifier hk
  -- what has been read so far ends with ink, and the next step goes on behind it
  refine (advance_invariant (I := fun length rest => rest = s.drop length ∧
    EndsWithInk (s.take length)) ?_ k (s.drop k) ⟨rfl, hink⟩).2
  rintro length _ length' m - ⟨rfl, hlength⟩ hstep
  obtain ⟨rfl, hpos, -⟩ := expressionTail_bounds hstep
  refine ⟨hpos, List.drop_drop .., ?_⟩
  rw [List.take_add]
  exact (endsWithInk_expressionTail hstep).append _

theorem endsWithInk_readParenthesised? {pos n : Nat} {s : List Char} {nodes : List Node}
    (h : readParenthesised? pos ('@' :: '(' :: s) = some (nodes, n)) :
    nodes = [codeNode .expression (('@' :: '(' :: s).take n |>.drop 1) pos n ('@' :: '(' :: s)] ∧
      EndsWithInk (('@' :: '(' :: s).take n) := by
  simp only [readParenthesised?, Option.map_eq_some_iff, Prod.mk.injEq] at h
  obtain ⟨k, hk, rfl, rfl⟩ := h
  refine ⟨rfl, ?_⟩
  obtain ⟨inner, rest, rfl, rfl⟩ := Bracket.paren_matchCode?_eq_some hk
  exact ⟨'@' :: '(' :: inner, ')', by simp [List.take_append, List.take_of_length_le], by decide⟩

/-- The only nodes of the kind of an expression are expressions, and these end with ink. -/
theorem endsWithInk_readRazor? {s : List Char} {pos n : Nat} {previous : Option Char}
    {afterExpression : Bool} {nodes : List Node}
    (h : readRazor? pos previous afterExpression ('@' :: s) = some (nodes, n)) {block : CodeBlock}
    (hblock : .code block ∈ nodes) (hkind : block.kind = .expression) :
    EndsWithInk ('@' :: block.code) := by
  -- what has the code of an expression is cut off behind its `@`
  have expression {t : List Char} {m : Nat} (hm : EndsWithInk (('@' :: t).take m))
      (hnodes : nodes = [codeNode .expression ((('@' :: t).take m).drop 1) pos m ('@' :: t)]) :
      EndsWithInk ('@' :: block.code) := by
    subst hnodes
    obtain rfl : block = _ := by simpa [codeNode] using hblock
    cases m with
    | zero =>
      obtain ⟨u, c, hu, -⟩ := hm
      simp at hu
    | succ m => exact hm
  -- nodes of another kind
  have other {kind : CodeKind} (hne : kind ≠ .expression) {code : List Char} {m : Nat}
      (hnodes : nodes = [codeNode kind code pos m ('@' :: s)]) :
      EndsWithInk ('@' :: block.code) := by
    subst hnodes
    obtain rfl : block = _ := by simpa [codeNode] using hblock
    exact absurd hkind hne
  have control : ¬ block.kind.isControl = true := by simp [hkind, CodeKind.isControl]
  cases construct_of_readRazor? h with
  | mark => simp at hblock
  | comment | directive | inlineBlock => exact other (by decide) rfl
  | ifChain hread => exact absurd (isControl_of_mem (control_readIfChain? hread) hblock) control
  | foreachLoop hread => exact absurd (isControl_of_mem (control_readForeach? hread) hblock) control
  | parenthesised hs hread =>
    obtain rfl := (List.cons.inj hs).2
    obtain ⟨hnodes, hink⟩ := endsWithInk_readParenthesised? hread
    exact expression hink hnodes
  | expression hread =>
    obtain ⟨hnodes, hink⟩ := endsWithInk_readExpression? hread
    exact expression hink hnodes

/-- The expressions of content end with ink. -/
theorem endsWithInk_of_mem_readContent {levels pos : Nat} {s : List Char} {block : CodeBlock}
    (h : .code block ∈ readContent levels pos s) (hkind : block.kind = .expression) :
    EndsWithInk ('@' :: block.code) := by
  cases levels with
  | zero => simpa [Node.isText] using isText_of_mem_readContent_zero h
  | succ levels =>
    rcases fromContent_of_mem_readContent h with htext | ⟨_, _, _, _, _, _, hread, hmem⟩ | hmarkup
    · simp [Node.isText] at htext
    · exact endsWithInk_readRazor? hread hmem hkind
    · obtain ⟨_, _, _, hread⟩ := hmarkup
      exact absurd hread readMarkup?_ne_code

end RazorLayout.Template

namespace RazorLayout.Layout

open Text Template

/-! ### Blanks, core and blanks -/

/-- The piece of the source that a node within a line was read from: blanks, a core with ink at
both ends, and blanks again. The node knows of the blanks, and the line has the core. -/
structure InlineSource (source : List Char) (node : Node) (lead core trail : List Char) :
    Prop where
  stands : Between source node.span.start node.span.stop (lead ++ core ++ trail)
  blank_lead : allBlank lead = true
  blank_trail : allBlank trail = true
  begins : ∃ c u, core = c :: u ∧ isBlank c = false
  ends : EndsWithInk core
  startsBlank_eq : startsBlank node = !lead.isEmpty
  endsBlank_eq : endsBlank node = !trail.isEmpty
  part_ne : inlinePart node ≠ []
  collapse_part : collapse (inlinePart node) = collapse core

theorem startsBlank_text {lead core rest : List Char} {span : Span} (hlead : allBlank lead = true)
    (hcore : ∃ c u, core = c :: u ∧ isBlank c = false) :
    startsBlank (.text (lead ++ core ++ rest) span) = !lead.isEmpty := by
  obtain ⟨c, u, rfl, hc⟩ := hcore
  cases lead with
  | nil => simp [startsBlank, hc]
  | cons d lead =>
    rw [allBlank_cons, Bool.and_eq_true] at hlead
    simp [startsBlank, hlead.1]

theorem endsBlank_text {front core trail : List Char} {span : Span} (hcore : EndsWithInk core)
    (htrail : allBlank trail = true) :
    endsBlank (.text (front ++ core ++ trail) span) = !trail.isEmpty := by
  by_cases hne : trail = []
  · obtain ⟨u, c, rfl, hc⟩ := hcore
    simp [endsBlank, hne, hc]
  · have hlast : isBlank (trail.getLast hne) = true :=
      allBlank_iff.1 htrail _ (List.getLast_mem hne)
    simp [endsBlank, hne, List.getLast?_append, List.getLast?_eq_some_getLast hne, hlast]

/-- The core of a text is the text without the blanks at its ends. -/
theorem inlineSource_text {source content : List Char} {span : Span}
    (stands : Between source span.start span.stop content) (ink : allBlank content = false) :
    ∃ lead trail, InlineSource source (.text content span) lead (trim content) trail := by
  obtain ⟨lead, trail, hlead, htrail, hparts⟩ := trim_parts content
  have begins := beginsWithInk_trim ink
  have ends := endsWithInk_trim ink
  refine ⟨lead, trail, ?_, hlead, htrail, begins, ends, ?_, ?_, ?_, collapse_collapse _⟩
  · rwa [← hparts]
  · conv_lhs => rw [hparts]
    exact startsBlank_text hlead begins
  · conv_lhs => rw [hparts]
    exact endsBlank_text ends htrail
  · obtain ⟨c, u, hcore, hc⟩ := begins
    simp [inlinePart, hcore, collapse_cons, hc]

/-- An expression is all core. -/
theorem inlineSource_expression {source : List Char} {block : CodeBlock}
    (stands : CodePlaced source block) (hkind : block.kind = .expression)
    (ink : EndsWithInk ('@' :: block.code)) :
    InlineSource source (.code block) [] ('@' :: block.code) [] where
  stands := by simpa [CodePlaced, hkind, Node.span] using stands
  blank_lead := rfl
  blank_trail := rfl
  begins := ⟨'@', block.code, rfl, by decide⟩
  ends := ink
  startsBlank_eq := rfl
  endsBlank_eq := rfl
  part_ne := List.cons_ne_nil _ _
  collapse_part := rfl

/-- Every node within a line that is placed in the source has its blanks and its core. -/
theorem exists_inlineSource {source : List Char} {node : Node} (placed : Placed source node)
    (inline : node.isInline = true)
    (ink : ∀ block, node = .code block → block.kind = .expression →
      EndsWithInk ('@' :: block.code)) :
    ∃ lead core trail, InlineSource source node lead core trail := by
  cases placed with
  | text stands hne =>
    obtain ⟨lead, trail, h⟩ := inlineSource_text stands hne
    exact ⟨lead, _, trail, h⟩
  | @code block stands =>
    have hkind : block.kind = .expression := by
      simpa [Node.isInline, Node.isExpression] using inline
    exact ⟨[], _, [], inlineSource_expression stands hkind (ink block rfl hkind)⟩
  | selfClosing | declaration | element => simp [Node.isInline, Node.isExpression] at inline

/-! ### The line -/

section Line

variable {source : List Char} {P : Node → Prop} {start stop : Nat} {nodes : List Node}

/-- Two neighbours are apart exactly when there are blanks between their cores: behind the first
core, between the ranges, or in front of the second core. -/
theorem separated_eq {previous node : Node} {trail gap lead : List Char}
    (hgap : Between source previous.span.stop node.span.start gap)
    (hprevious : endsBlank previous = !trail.isEmpty) (hnode : startsBlank node = !lead.isEmpty) :
    separated previous node = !(trail ++ gap ++ lead).isEmpty := by
  have apart : decide (previous.span.stop < node.span.start) = !gap.isEmpty := by
    by_cases hempty : gap = []
    · have := hgap.stop_eq
      subst hempty
      simp [this]
    · simp [hgap.lt hempty, hempty]
  rw [separated, hprevious, hnode, apart]
  cases trail <;> cases gap <;> cases lead <;> rfl

/-- The line behind a node is what stands behind the core of that node, up to the length of its
runs of blanks and without the blanks at its end. -/
theorem collapse_joinInlineAfter (tiled : Tiled source P start nodes stop)
    (hnodes : ∀ node ∈ nodes, ∃ lead core trail, InlineSource source node lead core trail)
    {previous : Node} (hstart : previous.span.stop = start) {trail : List Char}
    (htrail : allBlank trail = true) (hprevious : endsBlank previous = !trail.isEmpty) :
    ∃ rest, Between source start stop rest ∧
      collapse (joinInlineAfter (some previous) nodes) = collapse (trimEnd (trail ++ rest)) := by
  induction tiled generalizing previous trail with
  | @nil start stop gap hgap blank =>
    refine ⟨gap, hgap, ?_⟩
    rw [trimEnd_eq_nil_iff.2 (by simp [htrail, blank])]
    rfl
  | @cons start stop gap piece node nodes hgap blank stands hne hnode rest ih =>
    rw [List.forall_mem_cons] at hnodes
    obtain ⟨⟨lead, core, trail', cut⟩, hnodes⟩ := hnodes
    obtain ⟨behind, hbehind, hline⟩ := ih hnodes rfl cut.blank_trail cut.endsBlank_eq
    refine ⟨gap ++ (lead ++ core ++ trail') ++ behind, (hgap.append cut.stands).append hbehind, ?_⟩
    -- the blanks in front of the core are one run, and the line has a space for it
    have blanks : allBlank (trail ++ gap ++ lead) = true := by
      simp [htrail, blank, cut.blank_lead]
    have space : collapse (if separated previous node then [' '] else [])
        = collapse (trail ++ gap ++ lead) := by
      subst hstart
      rw [collapse_of_allBlank blanks, separated_eq hgap hprevious cut.startsBlank_eq]
      cases (trail ++ gap ++ lead).isEmpty <;> rfl
    calc
      collapse (joinInlineAfter (some previous) (node :: nodes))
        = collapse ((if separated previous node then [' '] else []) ++ inlinePart node
            ++ joinInlineAfter (some node) nodes) := by
          simp [joinInlineAfter, cut.part_ne]
      _ = collapse (trail ++ gap ++ lead ++ core ++ trimEnd (trail' ++ behind)) :=
          collapse_append_congr (collapse_append_congr space cut.collapse_part) hline
      _ = collapse (trimEnd (trail ++ (gap ++ (lead ++ core ++ trail') ++ behind))) := by
          rw [← (cut.ends.append _).trimEnd_append]
          simp only [List.append_assoc]

end Line

/-- Text and expressions on one line are the source without the blanks at its ends, up to the length
of its runs of blanks: no space is added where the source has none, and none is lost between two
nodes. -/
theorem collapse_joinInline_readNested (s : List Char)
    (h : (readNested 0 0 s).all Node.isInline = true) :
    collapse (joinInline (readNested 0 0 s)) = collapse (trim s) := by
  have laid : Laid s 0 (readNested 0 0 s) (byteLength s) := laid_readContent _ (Between.whole s)
  have hnodes : ∀ node ∈ readNested 0 0 s,
      ∃ lead core trail, InlineSource s node lead core trail := by
    intro node hnode
    apply exists_inlineSource (laid.tiled.forall_mem node hnode) (List.all_eq_true.1 h node hnode)
    rintro block rfl hkind
    exact endsWithInk_of_mem_readContent hnode hkind
  have tiled := laid.tiled
  clear laid h
  generalize readNested 0 0 s = nodes at tiled hnodes
  cases tiled with
  | nil hgap blank =>
    rw [(Between.whole s).unique hgap, trim_eq_nil_iff.2 blank]
    rfl
  | @cons _ _ gap piece node nodes hgap blank stands hne hnode rest =>
    rw [List.forall_mem_cons] at hnodes
    obtain ⟨⟨lead, core, trail, cut⟩, hnodes⟩ := hnodes
    obtain ⟨behind, hbehind, hline⟩ :=
      collapse_joinInlineAfter rest hnodes rfl cut.blank_trail cut.endsBlank_eq
    have source_eq : s = gap ++ (lead ++ core ++ trail) ++ behind :=
      (Between.whole s).unique ((hgap.append cut.stands).append hbehind)
    obtain ⟨c, u, rfl, hc⟩ := cut.begins
    have trimmed : trim s = c :: u ++ trimEnd (trail ++ behind) := by
      rw [source_eq, ← cut.ends.trimEnd_append, trim]
      have : gap ++ (lead ++ c :: u ++ trail) ++ behind
          = (gap ++ lead) ++ (c :: u ++ (trail ++ behind)) := by simp
      rw [this, trimStart_append_of_allBlank (by simp [blank, cut.blank_lead]), trimStart,
        List.cons_append, List.dropWhile_cons_of_neg (by simp [hc])]
    rw [trimmed]
    calc
      collapse (joinInline (node :: nodes))
        = collapse (inlinePart node ++ joinInlineAfter (some node) nodes) := by
          simp [joinInline, joinInlineAfter, cut.part_ne]
      _ = collapse (c :: u ++ trimEnd (trail ++ behind)) :=
          collapse_append_congr cut.collapse_part hline

/-- Blanks inside of a text, at its edges, in a gap between two expressions, and none at all. -/
theorem collapse_joinInline_greeting :
    (readNested 0 0 " Hello  @name , @first @last\n(@(a  + b)!) ".toList).all Node.isInline = true ∧
      collapse (joinInline (readNested 0 0 " Hello  @name , @first @last\n(@(a  + b)!) ".toList))
        = "Hello @name , @first @last (@(a + b)!)".toList := by
  have inline : (readNested 0 0 " Hello  @name , @first @last\n(@(a  + b)!) ".toList).all
      Node.isInline = true := by decide +kernel
  refine ⟨inline, (collapse_joinInline_readNested _ inline).trans ?_⟩
  decide +kernel

end RazorLayout.Layout

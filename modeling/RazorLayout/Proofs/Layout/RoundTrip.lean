import RazorLayout.Proofs.Layout.PageSpelling

/-!
# Markup is read as it was written

The page of plain markup is one of its spellings, so that reading it gives the nodes back: up to
their places in the source, the blanks in and around texts, and the order of attributes, which is
the order of writing. Writing these nodes again gives the same page. It follows that the layout of
plain markup is stable.

## Main definitions

* `SortedByName`: attributes in the order of their names
* `SameBefore`: nodes in front that leave the same line open and the same gap
* `normalNodes`: nodes without places, with texts on one line

## Main results

* `sortedByName_orderedAttributes`: attributes are sorted by name and nothing else
* `Reread.nodesText_eq`: nodes that were read again have the same page
* `markup_round_trip`: plain markup is read back from its layout
* `format_format_of_isMarkup`: the layout of plain markup is stable
-/

namespace RazorLayout.Layout

open Text Template

/-! ### The order of attributes -/

/-- The first attribute may stand in front of the second when attributes are sorted. -/
def nameLe (a b : Attribute) : Bool := !decide (lower b.name < lower a.name)

theorem nameLe_trans (a b c : Attribute) (h : nameLe a b = true) (h' : nameLe b c = true) :
    nameLe a c = true := by
  simp only [nameLe, Bool.not_eq_true', decide_eq_false_iff_not] at h h' ⊢
  exact List.le_trans (α := Char) h h'

theorem nameLe_total (a b : Attribute) : (nameLe a b || nameLe b a) = true := by
  simp only [nameLe, Bool.or_eq_true, Bool.not_eq_true', decide_eq_false_iff_not]
  exact List.le_total (α := Char) (lower a.name) (lower b.name)

theorem orderedAttributes_of_sort {settings : Settings} (h : settings.sortAttributes = true)
    (attributes : List Attribute) :
    orderedAttributes settings attributes = attributes.mergeSort nameLe := by
  rw [orderedAttributes, if_pos h]
  rfl

/-- The attributes in the order of their names, without regard to case. Attributes whose names are
the same then stay in the order that they had. -/
structure SortedByName (attributes sorted : List Attribute) : Prop where
  perm : sorted.Perm attributes
  ordered : sorted.Pairwise fun a b => ¬ lower b.name < lower a.name
  stable : ∀ name, sorted.filter (lower ·.name = name) = attributes.filter (lower ·.name = name)

/-- Attributes are sorted by name and nothing else. -/
theorem sortedByName_orderedAttributes {settings : Settings} (h : settings.sortAttributes = true)
    (attributes : List Attribute) :
    SortedByName attributes (orderedAttributes settings attributes) := by
  rw [orderedAttributes_of_sort h]
  have perm := List.mergeSort_perm attributes nameLe
  refine ⟨perm, ?_, fun name => ?_⟩
  · refine (List.pairwise_mergeSort nameLe_trans nameLe_total attributes).imp fun hle => ?_
    simpa [nameLe] using hle
  · -- attributes of one name are in order, so that they are still there in this order
    have alike : (attributes.filter (lower ·.name = name)).Pairwise (nameLe · ·) := by
      rw [List.pairwise_filter]
      refine List.pairwise_of_forall fun a b ha hb => ?_
      simp only [decide_eq_true_eq] at ha hb
      simp [nameLe, ha, hb]
    have kept := (List.sublist_mergeSort nameLe_trans nameLe_total alike List.filter_sublist).filter
      (lower ·.name = name)
    rw [List.filter_filter] at kept
    simp only [Bool.and_self] at kept
    exact (kept.eq_of_length (perm.filter _).length_eq.symm).symm

/-- The order of writing is kept when it is applied again. -/
theorem orderedAttributes_idem (settings : Settings) (attributes : List Attribute) :
    orderedAttributes settings (orderedAttributes settings attributes)
      = orderedAttributes settings attributes := by
  cases h : settings.sortAttributes with
  | true =>
    rw [orderedAttributes_of_sort h, orderedAttributes_of_sort h]
    exact List.mergeSort_of_pairwise (List.pairwise_mergeSort nameLe_trans nameLe_total attributes)
  | false => simp [orderedAttributes, h]

/-! ### Reading again -/

section Rereading

variable {settings : Settings} {ownLines : Bool} {nodes nodes' : List Node}

theorem Reread.length_eq (h : Reread settings ownLines nodes nodes') :
    nodes'.length = nodes.length := by
  induction h with
  | nil => rfl
  | text _ _ _ _ _ ih | expression _ _ _ ih | line _ _ ih | declaration _ ih | selfClosing _ ih
  | element _ _ _ _ ih => rw [List.length_cons, List.length_cons, ih]

theorem Reread.any_isBlock (h : Reread settings ownLines nodes nodes') :
    nodes'.any Node.isBlock = nodes.any Node.isBlock := by
  induction h with
  | nil => rfl
  | text _ _ _ _ _ ih | expression _ _ _ ih | line _ _ ih | declaration _ ih | selfClosing _ ih
  | element _ _ _ _ ih => simp [ih, Node.isBlock, Node.isInline, Node.isExpression]

/-- The nodes in front leave the same line open, and the same gap where a gap shows. -/
structure SameBefore (ownLines : Bool) (previous previous' : Option Node)
    (nodes nodes' : List Node) : Prop where
  open_eq : previous'.any Node.isExpression = previous.any Node.isExpression
  gap_eq : ∀ next ∈ nodes.head?, ∀ next' ∈ nodes'.head?,
    ownLines = false ∨ (previous.any Node.isExpression && goesOn next) = true →
    previous'.any (separated · next') = previous.any (separated · next)

theorem sameBefore_none (ownLines : Bool) (nodes nodes' : List Node) :
    SameBefore ownLines none none nodes nodes' :=
  ⟨rfl, fun _ _ _ _ _ => rfl⟩

theorem Reread.sameBefore {node node' : Node}
    (h : Reread settings ownLines (node :: nodes) (node' :: nodes'))
    (hinline : ownLines = false → node.isBlock = false) :
    SameBefore ownLines (some node) (some node') nodes nodes' := by
  -- behind a node that is on lines of its own no gap shows
  have shut {node node' : Node} (hnode : node.isExpression = false)
      (hnode' : node'.isExpression = false) (hblock : node.isBlock = true)
      (hinline : ownLines = false → node.isBlock = false) :
      SameBefore ownLines (some node) (some node') nodes nodes' := by
    refine ⟨by simp [hnode, hnode'], fun next _ next' _ hshows => ?_⟩
    simp_all
  cases h with
  | text _ _ hgap | expression hgap =>
    exact ⟨rfl, fun next hnext next' hnext' h => (hgap next' hnext' next hnext h).symm⟩
  | line hblock =>
    refine shut ?_ ?_ ?_ hinline <;>
      simp [Node.isBlock, Node.isInline, Node.isExpression, hblock.kind_ne]
  | declaration | selfClosing | element => exact shut rfl rfl rfl hinline

/-- Nodes that were read again are the same on one line. -/
theorem Reread.joinInlineAfter_eq (h : Reread settings ownLines nodes nodes')
    (hown : ownLines = false) (hinline : nodes.any Node.isBlock = false)
    {previous previous' : Option Node}
    (hbefore : SameBefore ownLines previous previous' nodes nodes') :
    joinInlineAfter previous' nodes' = joinInlineAfter previous nodes := by
  -- a node that leaves the same piece on the line, behind the same gap
  have cons {ownLines : Bool} (hown : ownLines = false) {node node' : Node}
      {nodes nodes' : List Node} (hpart : inlinePart node' = inlinePart node)
      (hne : inlinePart node ≠ [])
      (hrest : joinInlineAfter (some node') nodes' = joinInlineAfter (some node) nodes)
      {previous previous' : Option Node}
      (hbefore : SameBefore ownLines previous previous' (node :: nodes) (node' :: nodes')) :
      joinInlineAfter previous' (node' :: nodes') = joinInlineAfter previous (node :: nodes) := by
    rw [joinInlineAfter, joinInlineAfter, hpart, hrest, hbefore.gap_eq _ rfl _ rfl (.inl hown)]
    simp [hne]
  induction h generalizing previous previous' with
  | nil => rfl
  | @text ownLines content piece span span' nodes nodes' hpiece hsame hgap hapart hrest ih =>
    have part : inlinePart (.text piece span') = inlinePart (.text content span) :=
      (collapse_trim_congr hsame.words_eq).symm
    rw [List.any_cons, Bool.or_eq_false_iff] at hinline
    refine cons hown part ?_ (ih hown hinline.2 ?_) hbefore
    · rw [← part]
      exact (tidyLine_collapse_trim hpiece).ne_nil
    · exact (Reread.text hpiece hsame hgap hapart hrest).sameBefore fun _ => hinline.1
  | @expression ownLines code span span' nodes nodes' hgap hapart hrest ih =>
    have part : inlinePart (.code ⟨.expression, code, span'⟩)
        = inlinePart (.code ⟨.expression, code, span⟩) := rfl
    rw [List.any_cons, Bool.or_eq_false_iff] at hinline
    refine cons hown part ?_ (ih hown hinline.2 ?_) hbefore
    · exact List.cons_ne_nil '@' code
    · exact (Reread.expression hgap hapart hrest).sameBefore fun _ => hinline.1
  | line hblock => simp [Node.isBlock, Node.isInline, Node.isExpression, hblock.kind_ne] at hinline
  | declaration | selfClosing | element =>
    simp [Node.isBlock, Node.isInline, Node.isExpression] at hinline

/-! ### Writing again -/

theorem attributesBreak_reread (tag : Tag) (span : Span) :
    attributesBreak settings ⟨tag.name, orderedAttributes settings tag.attributes, span⟩
      = attributesBreak settings tag := by
  have empty : (orderedAttributes settings tag.attributes).isEmpty = tag.attributes.isEmpty := by
    rw [Bool.eq_iff_iff, List.isEmpty_iff_length_eq_zero, List.isEmpty_iff_length_eq_zero,
      length_orderedAttributes]
  rw [attributesBreak, attributesBreak, empty, length_orderedAttributes]

theorem contentBreaks_reread (tag : Tag) (span : Span) :
    contentBreaks settings ⟨tag.name, orderedAttributes settings tag.attributes, span⟩
      = contentBreaks settings tag := by
  rw [contentBreaks, contentBreaks, attributesBreak_reread, length_orderedAttributes]

theorem attributesText_reread (level : Nat) (tag : Tag) (span : Span) :
    attributesText settings level ⟨tag.name, orderedAttributes settings tag.attributes, span⟩
      = attributesText settings level tag := by
  rw [attributesText, attributesText, attributesBreak_reread, orderedAttributes_idem]

theorem tagEndGap_reread (level : Nat) (tag : Tag) (span : Span) :
    tagEndGap settings level ⟨tag.name, orderedAttributes settings tag.attributes, span⟩
      = tagEndGap settings level tag := by
  rw [tagEndGap, tagEndGap, attributesBreak_reread, contentBreaks_reread]

theorem Reread.inlineText_eq (h : Reread settings false nodes nodes')
    (hinline : nodes.any Node.isBlock = false) (level : Nat) :
    inlineText settings level nodes' = inlineText settings level nodes := by
  have joined := h.joinInlineAfter_eq rfl hinline (sameBefore_none false nodes nodes')
  rw [inlineText, inlineText, joinInline, joinInline, h.length_eq, joined]

theorem SameBefore.lineEnd_eq {previous previous' : Option Node}
    (h : SameBefore ownLines previous previous' nodes nodes') :
    lineEnd previous' = lineEnd previous := by
  rw [lineEnd, lineEnd, h.open_eq]

theorem SameBefore.lineStart_eq {previous previous' : Option Node} {node node' : Node}
    (h : SameBefore ownLines previous previous' (node :: nodes) (node' :: nodes'))
    (hnode : goesOn node = true) (level : Nat) :
    lineStart settings level previous' node' = lineStart settings level previous node := by
  rw [lineStart, lineStart, h.open_eq]
  split
  · rename_i hopen
    rw [h.gap_eq node rfl node' rfl (.inr (by simp [hopen, hnode]))]
  · rfl

/-- Nodes that were read again have the same page. -/
theorem Reread.nodesText_eq (h : Reread settings ownLines nodes nodes') (hown : ownLines = true)
    (level : Nat) {previous previous' : Option Node}
    (hbefore : SameBefore ownLines previous previous' nodes nodes') :
    nodesText settings level previous' nodes' = nodesText settings level previous nodes := by
  have lines {ownLines : Bool} (hown : ownLines = true) {node : Node} (h : ownLines = false) :
      node.isBlock = false := by simp [hown] at h
  -- the line that the node before leaves open and the gap behind it are part of the statement
  induction h generalizing level previous previous' with
  | nil => exact hbefore.lineEnd_eq
  | text hpiece hsame hgap hapart hrest ih =>
    have before := (Reread.text hpiece hsame hgap hapart hrest).sameBefore (lines hown)
    rw [nodesText, nodesText, ih hown level before, nodeText, nodeText, hbefore.lineEnd_eq,
      hsame.lines_eq hown]
  | expression hgap hapart hrest ih =>
    have before := (Reread.expression hgap hapart hrest).sameBefore (lines hown)
    rw [nodesText, nodesText, ih hown level before, nodeText, nodeText, if_pos rfl, if_pos rfl,
      hbefore.lineStart_eq rfl]
  | line hblock hrest ih =>
    rw [nodesText, nodesText, ih hown level ((Reread.line hblock hrest).sameBefore (lines hown)),
      nodeText, nodeText, if_neg hblock.kind_ne,
      if_neg hblock.kind_ne, hbefore.lineEnd_eq]
  | declaration hrest ih =>
    rw [nodesText, nodesText, ih hown level ((Reread.declaration hrest).sameBefore (lines hown)),
      nodeText, nodeText, hbefore.lineStart_eq rfl]
  | selfClosing hrest ih =>
    rw [nodesText, nodesText, ih hown level ((Reread.selfClosing hrest).sameBefore (lines hown)),
      nodeText, nodeText, attributesText_reread,
      hbefore.lineStart_eq rfl]
  | @element ownLines inner tag span children children' nodes nodes' hinner hchildren hrest ihc
      ih =>
    have content : (if !children'.isEmpty && (children'.any Node.isBlock
          || contentBreaks settings tag) then
          ['\n'] ++ nodesText settings (level + 1) none children'
            ++ Code.indentation settings.indentUnit level
        else inlineText settings level children')
        = if !children.isEmpty && (children.any Node.isBlock || contentBreaks settings tag) then
          ['\n'] ++ nodesText settings (level + 1) none children
            ++ Code.indentation settings.indentUnit level
        else inlineText settings level children := by
      have empty : children'.isEmpty = children.isEmpty := by cases hchildren <;> rfl
      -- content was read from lines of its own exactly when it is written there
      rw [empty, hchildren.any_isBlock, ← hinner]
      cases inner with
      | true =>
        rw [ihc rfl (level + 1) (sameBefore_none true children children')]
        split
        · rfl
        · -- without content both sides are empty
          rename_i hempty
          obtain rfl : children = [] := by simpa using hempty
          cases hchildren
          rfl
      | false =>
        have hinline := (Bool.or_eq_false_iff.1 hinner.symm).1
        rw [Bool.and_false, if_neg (by simp), if_neg (by simp), hchildren.inlineText_eq hinline]
    rw [nodesText, nodesText,
      ih hown level ((Reread.element hinner hchildren hrest).sameBefore (lines hown)), nodeText,
      nodeText, attributesText_reread, tagEndGap_reread, contentBreaks_reread, content,
      hbefore.lineStart_eq rfl]

theorem isLine_span {block : CodeBlock} (h : IsLine block) (span : Span) :
    IsLine { block with span := span } := by
  cases h with
  | directive h hmarkup hmark => exact .directive h hmarkup hmark
  | comment hline hmarkup hmark => exact .comment hline hmarkup hmark

/-- Nodes that were read again are plain markup. -/
theorem Reread.isMarkup (h : Reread settings ownLines nodes nodes') {levels : Nat}
    (hnodes : IsMarkup levels nodes) : IsMarkup levels nodes' := by
  induction h generalizing levels with
  | nil => exact .nil
  | text hpiece _ _ hapart _ ih => exact .text hpiece hapart (ih hnodes.tail)
  | expression _ hapart _ ih =>
    cases hnodes with
    | expression hcode _ hnodes => exact .expression hcode hapart (ih hnodes)
    | line hblock => exact absurd rfl hblock.kind_ne
  | line hblock _ ih =>
    cases hnodes with
    | expression => exact absurd rfl hblock.kind_ne
    | line _ hnodes => exact .line (isLine_span hblock _) (ih hnodes)
  | declaration _ ih =>
    cases hnodes with
    | declaration hname hnodes => exact .declaration hname (ih hnodes)
  | selfClosing _ ih =>
    cases hnodes with
    | selfClosing hname hattributes hnodes =>
      exact .selfClosing hname (fun a ha => hattributes a (mem_orderedAttributes.1 ha)) (ih hnodes)
  | element _ _ _ ihc ih =>
    cases hnodes with
    | element hname hvoid hraw hattributes hchildren hnodes =>
      exact .element hname hvoid hraw (fun a ha => hattributes a (mem_orderedAttributes.1 ha))
        (ihc hchildren) (ih hnodes)

end Rereading

/-! ### The round trip -/

mutual

/-- A node without its place, with text on one line and attributes in the given order. -/
def normalNode (order : List Attribute → List Attribute) : Node → Node
  | .selfClosing tag => .selfClosing ⟨tag.name, order tag.attributes, ⟨0, 0⟩⟩
  | .element tag children =>
    .element ⟨tag.name, order tag.attributes, ⟨0, 0⟩⟩ (normalNodes order children)
  | .declaration content _ => .declaration content ⟨0, 0⟩
  | .text content _ => .text (collapse (trim content)) ⟨0, 0⟩
  | .code block => .code { block with span := ⟨0, 0⟩ }

/-- Nodes without their places, with texts on one line and attributes in the given order. -/
def normalNodes (order : List Attribute → List Attribute) : List Node → List Node
  | [] => []
  | node :: nodes => normalNode order node :: normalNodes order nodes

end

/-- Nodes that were read again are the same up to places, blanks and the order of attributes. -/
theorem Reread.normalNodes_eq {settings : Settings} {ownLines : Bool} {nodes nodes' : List Node}
    (h : Reread settings ownLines nodes nodes') :
    normalNodes id nodes' = normalNodes (orderedAttributes settings) nodes := by
  induction h with
  | nil => rfl
  | text _ hsame _ _ _ ih =>
    rw [normalNodes, normalNodes, ih, normalNode, normalNode, collapse_trim_congr hsame.words_eq]
  | expression _ _ _ ih | line _ _ ih | declaration _ ih =>
    rw [normalNodes, normalNodes, ih, normalNode, normalNode]
  | selfClosing _ ih =>
    rw [normalNodes, normalNodes, ih, normalNode, normalNode]
    rfl
  | element _ _ _ ihc ih =>
    rw [normalNodes, normalNodes, ih, normalNode, normalNode, ihc]
    rfl

/-- The layout of plain markup spells it. -/
theorem spelt_cleanUp_write (indenter : Indenter) (settings : Settings) {levels : Nat}
    {nodes : List Node} (h : IsMarkup levels nodes) :
    Spelt settings true levels nodes
      (cleanUp settings (write ⟨settings, indenter⟩ nodes (Buffer.new settings)).output) := by
  have page : Spelt settings true levels nodes (nodesText settings 0 none nodes) := by
    simpa using spelt_nodesText settings h 0 none allBlank_nil
  obtain ⟨ls, hls, hpage, houtput⟩ := exists_lines_write indenter settings h
  rw [hpage] at page
  rw [houtput, cleanUp_unlines settings hls]
  split
  · exact page
  · -- the page loses its last line feed, a blank
    by_cases hne : ls = []
    · subst hne
      exact page
    · rw [← unlines_append_newline hne] at page
      exact page.of_append_blank rfl

/-- What is read from the layout of plain markup. -/
theorem reread_cleanUp_write (indenter : Indenter) (settings : Settings) {nodes : List Node}
    (h : IsMarkup (maxNesting + 1) nodes) :
    Reread settings true nodes (readDocument
      (cleanUp settings (write ⟨settings, indenter⟩ nodes (Buffer.new settings)).output)) :=
  (spelt_cleanUp_write indenter settings h).reread

/-- The layout of plain markup is left as it is. -/
theorem formatWith_cleanUp_write (indenter : Indenter) (settings : Settings) {nodes : List Node}
    (h : IsMarkup (maxNesting + 1) nodes) :
    formatWith indenter settings
        (cleanUp settings (write ⟨settings, indenter⟩ nodes (Buffer.new settings)).output)
      = cleanUp settings (write ⟨settings, indenter⟩ nodes (Buffer.new settings)).output := by
  have reread := reread_cleanUp_write indenter settings h
  have page := reread.nodesText_eq rfl 0 (sameBefore_none true _ _)
  rw [formatWith, cleanUp_write indenter settings (reread.isMarkup h), page,
    cleanUp_write indenter settings h]

/-- Plain markup is read back from its layout, up to places, blanks in texts and the order of
attributes, and its layout is left as it is. -/
theorem markup_round_trip (indenter : Indenter) (settings : Settings) {nodes : List Node}
    (h : IsMarkup (maxNesting + 1) nodes) :
    let out := cleanUp settings (write ⟨settings, indenter⟩ nodes (Buffer.new settings)).output
    normalNodes id (readDocument out) = normalNodes (orderedAttributes settings) nodes ∧
    (∀ attributes, if settings.sortAttributes then
        SortedByName attributes (orderedAttributes settings attributes)
      else orderedAttributes settings attributes = attributes) ∧
    formatWith indenter settings out = out := by
  refine ⟨(reread_cleanUp_write indenter settings h).normalNodes_eq, fun attributes => ?_,
    formatWith_cleanUp_write indenter settings h⟩
  split
  · rename_i hsort
    exact sortedByName_orderedAttributes hsort attributes
  · rename_i hsort
    rw [orderedAttributes, if_neg hsort]

/-- Elements of one name in each other, next to one whose name begins with it. -/
theorem markup_round_trip_nested :
    let settings : Settings := { sortAttributes := true }
    let nodes : List Node :=
      [.element ⟨"p".toList, [⟨"id".toList, some "it's".toList⟩, ⟨"Class".toList, none⟩], ⟨0, 0⟩⟩
        [.element ⟨"p".toList, [], ⟨0, 0⟩⟩ [.text " one\n  two ".toList ⟨0, 0⟩],
          .selfClosing ⟨"p".toList, [], ⟨0, 0⟩⟩, .element ⟨"pre".toList, [], ⟨0, 0⟩⟩ []],
        .text "three".toList ⟨0, 0⟩]
    let out := cleanUp settings (write ⟨settings, Code.indent⟩ nodes (Buffer.new settings)).output
    IsMarkup (maxNesting + 1) nodes ∧
    normalNodes id (readDocument out) = normalNodes (orderedAttributes settings) nodes ∧
    formatWith Code.indent settings out = out := by
  intro settings nodes out
  have h : IsMarkup (maxNesting + 1) nodes := by decide +kernel
  have round_trip := markup_round_trip Code.indent settings h
  exact ⟨h, round_trip.1, round_trip.2.2⟩

/-! ### Stability -/

/-- The layout of a template that is read as plain markup is left as it is. -/
theorem format_format_of_isMarkup (settings : Settings) {template : List Char}
    (h : IsMarkup (maxNesting + 1) (readDocument template)) :
    format settings (format settings template) = format settings template :=
  formatWith_cleanUp_write Code.indent settings h

/-- A page whose list items are laid out in different ways. -/
theorem format_format_list :
    let template :=
      "@model A\n<!DOCTYPE html><ul><li>Hi @B!<br></li><li x y=1 z>@c, @(d)</li></ul>@* e *@".toList
    IsMarkup (maxNesting + 1) (readDocument template) ∧
    format {} (format {} template) = format {} template := by
  intro template
  have h : IsMarkup (maxNesting + 1) (readDocument template) := by decide +kernel
  refine ⟨h, ?_⟩
  apply format_format_of_isMarkup
  exact h

/-- The layout is not stable in general: an expression that has the name of a directive takes the
markup next to it for its value, once they are on one line. -/
theorem format_format_ne :
    ¬ ∀ (settings : Settings) (template : List Char),
      format settings (format settings template) = format settings template := by
  intro h
  have first : format {} "@page\n<div><br></div>".toList
      = "@page <div>\n    <br />\n</div>\n".toList := by decide +kernel
  have second : format {} "@page <div>\n    <br />\n</div>\n".toList
      = "@page <div>\n<br />\n</div>\n".toList := by decide +kernel
  have stable := h {} "@page\n<div><br></div>".toList
  rw [first, second] at stable
  exact absurd stable (by decide +kernel)

end RazorLayout.Layout

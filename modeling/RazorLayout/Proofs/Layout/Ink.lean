import RazorLayout.Layout.Format
import RazorLayout.Proofs.Template.Node
import RazorLayout.Proofs.Text.Ink

/-!
# The ink of a layout

Settings decide where lines break and how far they are indented, but hardly what is on the
page. This file computes the ink of a layout, everything but its blanks, from the nodes alone:
of all settings only the quote and the order of attributes have a say in it.

A buffer is written to by many operations in many orders. What each of them does to the page is
said once, by `Buffer.Inked`: so much ink is added behind the ink that was there, and the level
is as before. The level matters because the body of a block is read again when it is laid out,
at the depth that the buffer has reached; it is the same in every layout.

## Main definitions

* `Buffer.ink`: what is on the page so far
* `Buffer.Inked`: what one operation adds
* `nodesInk`, `bodyInk`: the ink of nodes, and of the body of a block

## Main results

* `inked_writeNodes`: nodes leave their own ink, however they are laid out
* `withoutBlanks_format`: the ink of a formatted template
* `withoutBlanks_format_congr`: settings that agree on quotes and on the order of attributes
  give the same ink
-/

namespace RazorLayout.Layout

open Text

/-! ### The ink of a buffer -/

namespace Buffer

/-- Everything that has been written so far, without blanks. -/
def ink (b : Buffer) : List Char := b.lines.flatMap withoutBlanks ++ withoutBlanks b.pending

/-- The second buffer has the ink `s` behind the ink of the first one, and the same level. -/
structure Inked (s : List Char) (b b' : Buffer) : Prop where
  unit_eq : b'.unit = b.unit
  level_eq : b'.level = b.level
  ink_eq : allBlank b.unit = true → b'.ink = b.ink ++ s

theorem Inked.refl (b : Buffer) : Inked [] b b :=
  ⟨rfl, rfl, fun _ => (List.append_nil _).symm⟩

theorem Inked.trans {s t : List Char} {b b' b'' : Buffer} (h : Inked s b b')
    (h' : Inked t b' b'') : Inked (s ++ t) b b'' where
  unit_eq := h'.unit_eq.trans h.unit_eq
  level_eq := h'.level_eq.trans h.level_eq
  ink_eq hunit := by
    rw [h'.ink_eq (h.unit_eq ▸ hunit), h.ink_eq hunit, List.append_assoc]

/-- What is written one level deeper is on the page all the same. -/
theorem Inked.deeper {s : List Char} {b b' : Buffer} (h : Inked s b.indent b') :
    Inked s b b'.dedent where
  unit_eq := h.unit_eq
  level_eq := by
    have : b'.level = b.level + 1 := h.level_eq
    simp [dedent, this]
  ink_eq := h.ink_eq

theorem allBlank_indentation {unit : List Char} (h : allBlank unit = true) (level : Nat) :
    allBlank (Code.indentation unit level) = true := by
  rw [allBlank_iff] at h ⊢
  intro c hc
  obtain ⟨l, hl, hcl⟩ := List.mem_flatten.1 hc
  rw [List.eq_of_mem_replicate hl] at hcl
  exact h c hcl

theorem inked_write (s : List Char) (b : Buffer) : Inked (withoutBlanks s) b (b.write s) where
  unit_eq := rfl
  level_eq := rfl
  ink_eq hunit := by
    have indented : withoutBlanks b.indentation = [] :=
      withoutBlanks_of_allBlank (allBlank_indentation hunit b.level)
    have pending : withoutBlanks (if b.pending.isEmpty then b.indentation else b.pending)
        = withoutBlanks b.pending := by
      cases h : b.pending with
      | nil => simp [indented]
      | cons c p => simp
    rw [ink, ink, lines_write, write, withoutBlanks_append, pending, List.append_assoc]

theorem inked_finishLine (b : Buffer) : Inked [] b b.finishLine where
  unit_eq := by
    unfold finishLine
    split <;> rfl
  level_eq := level_finishLine b
  ink_eq _ := by
    rw [ink, ink, lines_finishLine, pending_finishLine]
    cases h : b.pending with
    | nil => simp
    | cons c p => simp

/-- Completing the line adds nothing to what was added before. -/
theorem Inked.finishLine {s : List Char} {b b' : Buffer} (h : Inked s b b') :
    Inked s b b'.finishLine := by
  have finished := h.trans (inked_finishLine b')
  rwa [List.append_nil] at finished

theorem inked_writeLine (s : List Char) (b : Buffer) :
    Inked (withoutBlanks s) b (b.writeLine s) where
  unit_eq := (inked_finishLine b).unit_eq
  level_eq := level_writeLine s b
  ink_eq hunit := by
    have finished := (inked_finishLine b).ink_eq hunit
    have indented : withoutBlanks b.finishLine.indentation = [] := by
      rw [indentation, (inked_finishLine b).unit_eq]
      exact withoutBlanks_of_allBlank (allBlank_indentation hunit _)
    simp only [ink, pending_finishLine, withoutBlanks_nil, List.append_nil] at finished
    rw [ink, ink, lines_writeLine, pending_writeLine, List.flatMap_append, finished]
    cases s with
    | nil => simp
    | cons c s => simp [indented]

theorem inked_writeLines (ls : List (List Char)) (b : Buffer) :
    Inked (ls.flatMap withoutBlanks) b (b.writeLines ls) := by
  induction ls generalizing b with
  | nil => exact Inked.refl b
  | cons l ls ih => exact (inked_writeLine l b).trans (ih (b.writeLine l))

theorem withoutBlanks_output (b : Buffer) (hunit : allBlank b.unit = true) :
    withoutBlanks b.output = b.ink := by
  have finished := (inked_finishLine b).ink_eq hunit
  rw [List.append_nil] at finished
  rw [output, withoutBlanks_unlines, toLines, ← finished, ink, pending_finishLine]
  simp

end Buffer

/-! ### Embedded code -/

theorem allBlank_indentUnit (useTabs : Bool) (width : Nat) :
    allBlank (Code.indentUnit useTabs width) = true := by
  cases useTabs with
  | true => rfl
  | false =>
    rw [allBlank_iff]
    intro c hc
    rw [List.eq_of_mem_replicate hc]
    decide

theorem withoutBlanks_placeLine {unit : List Char} (h : allBlank unit = true) (depth : Nat)
    (inComment : Bool) (line : List Char) :
    withoutBlanks (Code.placeLine unit depth inComment line) = withoutBlanks line := by
  have indented (level : Nat) : withoutBlanks (Code.indentation unit level) = [] :=
    withoutBlanks_of_allBlank (Buffer.allBlank_indentation h level)
  have star : withoutBlanks (if line.head? = some '*' then [' '] else []) = [] := by
    split <;> decide
  unfold Code.placeLine
  split
  · simp_all
  · split <;> simp [indented, star]

/-- Indenting puts blanks in front of lines and removes blanks at their ends. -/
theorem flatMap_withoutBlanks_indentLines {lang : Code.Language} {unit : List Char}
    (h : allBlank unit = true) {line depth : Nat} {st : Code.ScanState}
    {ls placed : List (List Char)}
    (hok : Code.indentLines lang unit line depth st ls = .ok placed) :
    placed.flatMap withoutBlanks = ls.flatMap withoutBlanks := by
  fun_induction Code.indentLines lang unit line depth st ls generalizing placed with
  | case1 | case2 | case4 | case5 | case6 | case7 => simp at hok
  | case3 =>
    obtain rfl := Except.ok.inj hok
    rfl
  | case8 =>
    rename_i placed' hrest ih
    obtain rfl := Except.ok.inj hok
    rw [List.flatMap_cons, List.flatMap_cons, ih hrest, withoutBlanks_placeLine h,
      withoutBlanks_trim]

/-- An indenter that moves code about without changing any of it. -/
def Indenter.KeepsInk (indenter : Indenter) : Prop :=
  ∀ style body indented, indenter style body = .ok indented →
    withoutBlanks indented = withoutBlanks body

theorem keepsInk_indent : Indenter.KeepsInk Code.indent := by
  intro style body indented hok
  cases hplaced : Code.indentLines style.language
      (Code.indentUnit style.useTabs style.indentWidth) 1 0 {} (lines body) with
  | error e => simp [Code.indent, hplaced, Except.map] at hok
  | ok placed =>
    have edges : (Code.stripEmptyEdges placed).flatMap withoutBlanks
        = placed.flatMap withoutBlanks :=
      flatMap_withoutBlanks_dropEdges (fun l hl => by simp_all) placed
    simp only [Code.indent, hplaced, Except.map, Except.ok.injEq] at hok
    rw [← hok, withoutBlanks_unlines, edges,
      flatMap_withoutBlanks_indentLines (allBlank_indentUnit _ _) hplaced,
      flatMap_withoutBlanks_lines]

theorem flatMap_withoutBlanks_stripBlankEdges (ls : List (List Char)) :
    (stripBlankEdges ls).flatMap withoutBlanks = ls.flatMap withoutBlanks :=
  flatMap_withoutBlanks_dropEdges (fun _ hl => hl) ls

theorem withoutBlanks_drop_margin {margin : Nat} {line : List Char}
    (h : margin ≤ countWhile isBlank line) :
    withoutBlanks (line.drop margin) = withoutBlanks line := by
  have margin_blank : allBlank (line.take margin) = true := by
    have within : line.take margin <+: line.takeWhile isBlank :=
      List.prefix_of_prefix_length_le (List.take_prefix margin line)
        (List.takeWhile_prefix isBlank) ((List.length_take_le margin line).trans h)
    rw [allBlank_iff]
    exact fun c hc => List.mem_takeWhile_imp (within.subset hc)
  conv_rhs => rw [← List.take_append_drop margin line]
  rw [withoutBlanks_append, withoutBlanks_of_allBlank margin_blank, List.nil_append]

/-- The common margin is not wider than the margin of any line with ink. -/
theorem commonMargin_le {ls : List (List Char)} {l : List Char} (hl : l ∈ ls)
    (hink : allBlank l = false) : commonMargin ls ≤ countWhile isBlank l :=
  List.min?_getD_le_of_mem (List.mem_map_of_mem (List.mem_filter.2 ⟨hl, by simp [hink]⟩))

theorem flatMap_withoutBlanks_shiftedLines (body : List Char) :
    (shiftedLines body).flatMap withoutBlanks = withoutBlanks body := by
  rw [← flatMap_withoutBlanks_lines body, ← flatMap_withoutBlanks_stripBlankEdges (lines body)]
  unfold shiftedLines
  split
  · simp_all
  · rename_i first rest h
    rw [h, List.flatMap_cons, List.flatMap_cons, withoutBlanks_trim,
      flatMap_withoutBlanks_map fun l hl => ?_]
    unfold shiftLine
    cases hink : allBlank l with
    | true => simp [withoutBlanks_of_allBlank hink]
    | false => simp [withoutBlanks_drop_margin (commonMargin_le hl hink)]

/-- However a body becomes lines, its ink stays. -/
theorem flatMap_withoutBlanks_snippetLines {indenter : Indenter} (h : indenter.KeepsInk)
    (settings : Settings) (language : Code.Language) (body : List Char) :
    (snippetLines settings indenter language body).flatMap withoutBlanks = withoutBlanks body := by
  unfold snippetLines
  split
  · split
    · rename_i indented hok
      rw [flatMap_withoutBlanks_stripBlankEdges,
        flatMap_withoutBlanks_map fun l _ => withoutBlanks_trimEnd l, flatMap_withoutBlanks_lines,
        h _ _ _ hok]
    · exact flatMap_withoutBlanks_shiftedLines body
  · rw [trimmedLines, flatMap_withoutBlanks_stripBlankEdges,
      flatMap_withoutBlanks_map fun l _ => withoutBlanks_trim l, flatMap_withoutBlanks_lines]

/-! ### Attributes and tags -/

/-- The ink of the attributes of a tag. -/
def attributesInk (settings : Settings) (attributes : List Attribute) : List Char :=
  (orderedAttributes settings attributes).flatMap fun a =>
    withoutBlanks (a.render settings.quoteStyle)

theorem attributesInk_congr {s₁ s₂ : Settings} (hquote : s₁.quoteStyle = s₂.quoteStyle)
    (hsort : s₁.sortAttributes = s₂.sortAttributes) : attributesInk s₁ = attributesInk s₂ := by
  funext attributes
  rw [attributesInk, attributesInk, orderedAttributes, orderedAttributes, hquote, hsort]

theorem flatMap_groupsFrom {α β : Type} (f : α → List β) (size room : Nat) (taken as : List α) :
    (groupsFrom size room taken as).flatMap (·.flatMap f) = (taken.reverse ++ as).flatMap f := by
  fun_induction groupsFrom size room taken as with
  | case1 room taken h => simp_all
  | case2 room taken h => simp
  | case3 taken a as ih => simp [ih]
  | case4 room taken a as ih => simpa using ih

/-- Grouping loses nothing and keeps the order. -/
theorem flatMap_groups {α β : Type} (f : α → List β) (size : Nat) (as : List α) :
    (groups size as).flatMap (·.flatMap f) = as.flatMap f :=
  flatMap_groupsFrom f _ _ [] as

theorem inked_foldl_write (ls : List (List Char)) (b : Buffer) :
    Buffer.Inked (ls.flatMap withoutBlanks) b
      (ls.foldl (fun b a => (b.write [' ']).write a) b) := by
  induction ls generalizing b with
  | nil => exact .refl b
  | cons l ls ih =>
    exact ((b.inked_write [' ']).trans (Buffer.inked_write l _)).trans (ih _)

theorem inked_foldl_group (gs : List (List (List Char))) (b : Buffer) :
    Buffer.Inked (gs.flatMap (·.flatMap withoutBlanks)) b
      (gs.foldl (fun b group => b.finishLine.write (joinWith [' '] group)) b) := by
  induction gs generalizing b with
  | nil => exact .refl b
  | cons g gs ih =>
    have written := b.inked_finishLine.trans (Buffer.inked_write (joinWith [' '] g) _)
    rw [withoutBlanks_joinWith_space, List.nil_append] at written
    exact written.trans (ih _)

theorem inked_writeAttributes (settings : Settings) (attributes : List Attribute) (b : Buffer) :
    Buffer.Inked (attributesInk settings attributes) b
      (writeAttributes settings attributes b).2 := by
  have rendered : attributesInk settings attributes
      = ((orderedAttributes settings attributes).map
          (·.render settings.quoteStyle)).flatMap withoutBlanks := by
    rw [attributesInk, List.flatMap_map]
  rw [rendered]
  unfold writeAttributes
  split
  · rename_i h
    obtain rfl : attributes = [] := List.isEmpty_iff.1 h
    simpa [orderedAttributes] using Buffer.Inked.refl b
  · dsimp only
    split
    · -- on lines of their own attributes are written group by group
      rw [← flatMap_groups]
      exact (inked_foldl_group _ b.indent).deeper
    · exact inked_foldl_write _ b

/-- The ink of a tag up to its end; `attributes` is the ink of attributes. -/
def tagInk (attributes : List Attribute → List Char) (tag : Tag) : List Char :=
  withoutBlanks ('<' :: tag.name) ++ attributes tag.attributes

theorem inked_writeTag (settings : Settings) (tag : Tag) (b : Buffer) :
    Buffer.Inked (tagInk (attributesInk settings) tag) b
      (writeAttributes settings tag.attributes (b.write ('<' :: tag.name))).2 :=
  (b.inked_write _).trans (inked_writeAttributes settings tag.attributes _)

theorem inked_writeOpenTag (settings : Settings) (tag : Tag) (b : Buffer) :
    Buffer.Inked (tagInk (attributesInk settings) tag ++ ['>']) b
      (writeOpenTag settings tag b).2 := by
  have written := inked_writeTag settings tag b
  unfold writeOpenTag
  dsimp only
  split
  · exact written.finishLine.trans (Buffer.inked_write ['>'] _)
  · exact written.trans (Buffer.inked_write ['>'] _)

theorem inked_writeSelfClosing (settings : Settings) (tag : Tag) (b : Buffer) :
    Buffer.Inked (tagInk (attributesInk settings) tag ++ ['/', '>']) b
      (writeSelfClosing settings tag b) :=
  ((inked_writeTag settings tag b).trans (Buffer.inked_write " />".toList _)).finishLine

/-! ### Nodes -/

/-- The ink of embedded code that is no block. -/
def codeInk (block : CodeBlock) : List Char :=
  match block.kind with
  | .expression => withoutBlanks ('@' :: block.code)
  | .inlineBlock => ['@', '{'] ++ withoutBlanks block.code ++ ['}']
  | _ =>
    if block.isSection then
      "@code\x7b".toList ++ withoutBlanks (block.code.drop CodeBlock.sectionWord.length) ++ ['}']
    else withoutBlanks ('@' :: block.code)

/-- The ink of a block; `body` is the ink of its body. -/
def controlInk (body : List Char → List Char) (block : CodeBlock) : List Char :=
  match block.controlParts? with
  | none => withoutBlanks ('@' :: block.code)
  | some (header, inner) =>
    (if block.kind = .ifBlock || block.kind = .foreachBlock then ['@'] else [])
      ++ withoutBlanks (headerLine header) ++ ['{']
      ++ (if allBlank inner then [] else body inner) ++ ['}']

mutual

/-- The ink of a node that is written at the given level. The ink of attributes and of the bodies
of blocks, at their levels, is given. -/
def nodeInk (attributes : List Attribute → List Char) (body : Nat → List Char → List Char)
    (level : Nat) : Node → List Char
  | .text content _ => withoutBlanks content
  | .declaration content _ => withoutBlanks content
  | .selfClosing tag => tagInk attributes tag ++ ['/', '>']
  | .code block =>
    if block.kind.isControl then controlInk (body (level + 1)) block else codeInk block
  | .element tag children =>
    tagInk attributes tag ++ ['>'] ++ nodesInk attributes body (level + 1) children
      ++ withoutBlanks (Template.tagCloser tag.name)

/-- The ink of nodes, one after the other. -/
def nodesInk (attributes : List Attribute → List Char) (body : Nat → List Char → List Char)
    (level : Nat) : List Node → List Char
  | [] => []
  | node :: nodes => nodeInk attributes body level node ++ nodesInk attributes body level nodes

end

/-- The ink of the body of a block at its level, inside of which `blocks` more levels of blocks are
read. -/
def bodyInk (attributes : List Attribute → List Char) : (blocks level : Nat) → List Char →
    List Char
  | 0, level, inner => nodesInk attributes (fun _ _ => []) level (Template.readNested level 0 inner)
  | blocks + 1, level, inner =>
    nodesInk attributes (bodyInk attributes blocks) level (Template.readNested level 0 inner)

theorem inked_writeText (content : List Char) (b : Buffer) :
    Buffer.Inked (withoutBlanks content) b (writeText content b) := by
  have kept : (((lines content).map trim).filter fun l => !l.isEmpty).flatMap withoutBlanks
      = withoutBlanks content := by
    rw [flatMap_withoutBlanks_filter fun l _ hl => by simp_all,
      flatMap_withoutBlanks_map fun l _ => withoutBlanks_trim l, flatMap_withoutBlanks_lines]
  rw [← kept]
  exact b.inked_writeLines _

section Nodes

variable {env : Surroundings} (keeps : env.indenter.KeepsInk)

include keeps in
theorem inked_writeSnippet (language : Code.Language) (body : List Char) (b : Buffer) :
    Buffer.Inked (withoutBlanks body) b (writeSnippet env language body b) := by
  rw [← flatMap_withoutBlanks_snippetLines keeps env.settings language body]
  exact (b.indent.inked_writeLines _).deeper

include keeps in
theorem inked_writeSection (body : List Char) (b : Buffer) :
    Buffer.Inked ("@code\x7b".toList ++ withoutBlanks body ++ ['}']) b
      ((writeSnippet env .csharp body
        (((if b.isEmpty then b else b.writeLine []).writeLine "@code".toList).writeLine
          ['{'])).writeLine ['}']) := by
  have blankLine : Buffer.Inked [] b (if b.isEmpty then b else b.writeLine []) := by
    split
    · exact .refl b
    · exact b.inked_writeLine []
  have opened := (blankLine.trans (Buffer.inked_writeLine "@code".toList _)).trans
    (Buffer.inked_writeLine ['{'] _)
  exact (opened.trans (inked_writeSnippet keeps ..)).trans (Buffer.inked_writeLine ['}'] _)

include keeps in
theorem inked_writeCode (block : CodeBlock) (b : Buffer) :
    Buffer.Inked (codeInk block) b (writeCode env block b) := by
  obtain ⟨kind, code, span⟩ := block
  cases kind with
  | expression => exact b.inked_write _
  | inlineBlock =>
    exact ((b.inked_writeLine ['@', '{']).trans (inked_writeSnippet keeps ..)).trans
      (Buffer.inked_writeLine ['}'] _)
  | statement | directive | ifBlock | foreachBlock | elseBlock | elseIfBlock =>
    simp only [codeInk, writeCode]
    split
    · exact inked_writeSection keeps _ b
    · exact b.inked_writeLine _

theorem inked_writeControl {body : List Char → Buffer → Buffer} {ink : List Char → List Char}
    (block : CodeBlock) (b : Buffer)
    (hbody : ∀ inner b', b'.level = b.level + 1 → Buffer.Inked (ink inner) b' (body inner b')) :
    Buffer.Inked (controlInk ink block) b (writeControl body block b) := by
  unfold controlInk writeControl
  cases block.controlParts? with
  | none => exact b.inked_writeLine _
  | some parts =>
    obtain ⟨header, inner⟩ := parts
    dsimp only
    -- only the first block of a chain has the mark
    generalize hmark : (if block.kind = .ifBlock || block.kind = .foreachBlock then ['@']
      else []) = mark
    have hmark : withoutBlanks mark = mark := by
      rw [← hmark]
      split <;> rfl
    have opened := (b.inked_writeLine (mark ++ headerLine header)).trans
      (Buffer.inked_writeLine ['{'] _)
    rw [withoutBlanks_append, hmark] at opened
    refine Buffer.Inked.trans ?_ (Buffer.inked_writeLine ['}'] _)
    -- a body without ink is not written at all
    split
    · rw [List.append_nil]
      exact opened
    · exact opened.trans (hbody inner _ (by simp [Buffer.indent])).deeper

theorem inked_writeGap (previous : Option Node) (node : Node) (b : Buffer) :
    Buffer.Inked [] b (writeGap previous node b) := by
  unfold writeGap
  split
  · exact b.inked_write [' ']
  · exact .refl b

/-- Text and expressions on one line have their own ink. -/
theorem withoutBlanks_inlinePart {node : Node} (h : node.isInline = true)
    (attributes : List Attribute → List Char) (body : Nat → List Char → List Char)
    (level : Nat) :
    withoutBlanks (inlinePart node) = nodeInk attributes body level node := by
  match node with
  | .text content span => simp [inlinePart, nodeInk]
  | .code block =>
    have expression : block.kind = .expression := by
      simpa [Node.isInline, Node.isExpression] using h
    simp [inlinePart, nodeInk, codeInk, expression, CodeKind.isControl]

theorem withoutBlanks_joinInlineAfter (attributes : List Attribute → List Char)
    (body : Nat → List Char → List Char) (level : Nat) (previous : Option Node)
    {nodes : List Node} (h : ∀ node ∈ nodes, node.isInline = true) :
    withoutBlanks (joinInlineAfter previous nodes) = nodesInk attributes body level nodes := by
  induction nodes generalizing previous with
  | nil => simp [joinInlineAfter, nodesInk]
  | cons node nodes ih =>
    have part := withoutBlanks_inlinePart (h node List.mem_cons_self) attributes body level
    have rest (previous : Option Node) :=
      ih previous fun node' hnode' => h node' (List.mem_cons_of_mem node hnode')
    have space : withoutBlanks (if previous.any (separated · node) then [' '] else []) = [] := by
      split <;> rfl
    rw [nodesInk, joinInlineAfter, ← part]
    split
    · simp_all
    · simp only [withoutBlanks_append, space, rest, List.nil_append]

theorem inked_writeInline (attributes : List Attribute → List Char)
    (body : Nat → List Char → List Char) (level : Nat) (tag : Tag) {children : List Node}
    (h : ∀ node ∈ children, node.isInline = true) (b : Buffer) :
    Buffer.Inked (nodesInk attributes body level children
      ++ withoutBlanks (Template.tagCloser tag.name)) b (writeInline tag children b) := by
  unfold writeInline
  refine (Buffer.Inked.trans ?_ (Buffer.inked_write _ _)).finishLine
  split
  · rw [nodesInk]
    exact .refl b
  · -- raw text keeps its lines, other text is put on one
    rename_i content span
    rw [nodesInk, nodesInk, List.append_nil, nodeInk]
    split
    · rw [← withoutBlanks_trim content]
      exact b.inked_write _
    · rw [← withoutBlanks_trim content, ← withoutBlanks_collapse (trim content)]
      exact b.inked_write _
  · -- an expression alone
    rename_i only _
    rw [nodesInk, nodesInk, List.append_nil,
      ← withoutBlanks_inlinePart (h only List.mem_cons_self)]
    exact b.inked_write _
  · rw [← withoutBlanks_joinInlineAfter attributes body level none h]
    have written := b.inked_finishLine.trans
      (Buffer.inked_writeLine (joinInline children) b.finishLine.indent).deeper
    exact written

/-- Content that gets no lines of its own is text and expressions. -/
theorem isInline_of_flat {children : List Node} {breaks : Bool}
    (h : ¬ (!children.isEmpty && (children.any Node.isBlock || breaks)) = true) :
    ∀ node ∈ children, node.isInline = true := by
  intro node hnode
  by_contra hblock
  have hany : children.any Node.isBlock = true :=
    List.any_eq_true.2 ⟨node, hnode, by simp [Node.isBlock, hblock]⟩
  exact h (by simp [hany, List.ne_nil_of_mem hnode])

theorem nodesInk_of_embeddedBody? {settings : Settings} {tag : Tag} {children : List Node}
    {language : Code.Language} {inner : List Char}
    (h : embeddedBody? settings tag children = some (language, inner))
    (attributes : List Attribute → List Char) (body : Nat → List Char → List Char)
    (level : Nat) : nodesInk attributes body level children = withoutBlanks inner := by
  unfold embeddedBody? at h
  split at h
  · split at h
    · simp_all [nodesInk, nodeInk]
    · simp at h
  · simp at h

include keeps in
/-- Nodes leave their own ink, however the settings lay them out. -/
theorem inked_writeNodesAfter {body : List Char → Buffer → Buffer}
    {ink : Nat → List Char → List Char}
    (hbody : ∀ inner b, Buffer.Inked (ink b.level inner) b (body inner b)) :
    (∀ node b, Buffer.Inked (nodeInk (attributesInk env.settings) ink b.level node) b
      (writeNode env body node b)) ∧
    ∀ nodes previous b, Buffer.Inked (nodesInk (attributesInk env.settings) ink b.level nodes) b
      (writeNodesAfter env body previous nodes b) := by
  apply Node.induction
  case selfClosing =>
    intro tag b
    rw [nodeInk, writeNode_selfClosing]
    exact inked_writeSelfClosing env.settings tag b
  case element =>
    -- embedded code, content on lines of its own, or content on one line
    intro tag children ih b
    rw [nodeInk, writeNode_element]
    have opened := inked_writeOpenTag env.settings tag b
    cases hembedded : embeddedBody? env.settings tag children with
    | some parts =>
      obtain ⟨language, inner⟩ := parts
      rw [nodesInk_of_embeddedBody? hembedded]
      exact (opened.finishLine.trans (inked_writeSnippet keeps language inner _)).trans
        (Buffer.inked_writeLine _ _)
    | none =>
      dsimp only
      split
      · have inside := ih none (writeOpenTag env.settings tag b).2.finishLine.indent
        rw [show (writeOpenTag env.settings tag b).2.finishLine.indent.level = b.level + 1 by
          rw [← opened.finishLine.level_eq]; rfl] at inside
        exact (opened.finishLine.trans inside.deeper).trans (Buffer.inked_writeLine _ _)
      · rename_i hflat
        rw [List.append_assoc]
        exact opened.trans (inked_writeInline _ _ _ tag (isInline_of_flat hflat) _)
  case declaration =>
    intro content span b
    rw [nodeInk, writeNode_declaration]
    exact (b.inked_write content).finishLine
  case text =>
    intro content span b
    rw [nodeInk, writeNode_text]
    exact inked_writeText content b
  case code =>
    -- the body of a block is one level deeper
    intro block b
    rw [nodeInk, writeNode_code]
    split
    · refine inked_writeControl block b fun inner b' hlevel => ?_
      rw [← hlevel]
      exact hbody inner b'
    · exact inked_writeCode keeps block b
  case nil =>
    intro previous b
    rw [nodesInk, writeNodesAfter]
    exact .refl b
  case cons =>
    -- the second node is written at the level of the first, which leaves the level as it was
    intro node nodes hnode hnodes previous b
    rw [nodesInk, writeNodesAfter]
    have gap := inked_writeGap previous node b
    have first := gap.trans (hnode (writeGap previous node b))
    rw [List.nil_append, gap.level_eq] at first
    have second := hnodes (some node) (writeNode env body node (writeGap previous node b))
    rw [first.level_eq] at second
    exact first.trans second

include keeps in
theorem inked_writeNodes {body : List Char → Buffer → Buffer}
    {ink : Nat → List Char → List Char}
    (hbody : ∀ inner b, Buffer.Inked (ink b.level inner) b (body inner b)) (nodes : List Node)
    (b : Buffer) :
    Buffer.Inked (nodesInk (attributesInk env.settings) ink b.level nodes) b
      (writeNodes env body nodes b) :=
  (inked_writeNodesAfter keeps hbody).2 nodes none b

include keeps in
theorem inked_writeBody (blocks : Nat) (inner : List Char) (b : Buffer) :
    Buffer.Inked (bodyInk (attributesInk env.settings) blocks b.level inner) b
      (writeBody env blocks inner b) := by
  induction blocks generalizing inner b with
  | zero => exact inked_writeNodes keeps (fun _ b => .refl b) _ b
  | succ blocks ih => exact inked_writeNodes keeps ih _ b

include keeps in
theorem inked_write (nodes : List Node) (b : Buffer) :
    Buffer.Inked
      (nodesInk (attributesInk env.settings)
        (bodyInk (attributesInk env.settings) Template.maxNesting) b.level nodes) b
      (write env nodes b) :=
  inked_writeNodes keeps (inked_writeBody keeps Template.maxNesting) nodes b

end Nodes

/-! ### Templates -/

theorem withoutBlanks_cleanUp (settings : Settings) (out : List Char) :
    withoutBlanks (cleanUp settings out) = withoutBlanks out := by
  have feed : withoutBlanks ['\n'] = [] := rfl
  have trimmed : withoutBlanks (if settings.removeTrailingWhitespace then
      unlines ((split '\n' out).map trimEnd) else out) = withoutBlanks out := by
    split
    · rw [withoutBlanks_unlines, flatMap_withoutBlanks_map fun l _ => withoutBlanks_trimEnd l,
        flatMap_withoutBlanks_split (by decide)]
    · rfl
  rw [← trimmed]
  unfold cleanUp
  dsimp only
  -- what is left to decide is the last line feed
  generalize (if settings.removeTrailingWhitespace then
      unlines ((split '\n' out).map trimEnd) else out) = out'
  split
  · split
    · rename_i h
      rw [← withoutBlanks_trimEnd out', List.isEmpty_iff.1 h]
    · rw [withoutBlanks_append, withoutBlanks_trimEnd, feed, List.append_nil]
  · rfl

/-- The ink of a formatted template, by its nodes. Attributes apart, no setting has a say in
it. -/
theorem withoutBlanks_format (settings : Settings) (template : List Char) :
    withoutBlanks (format settings template)
      = nodesInk (attributesInk settings) (bodyInk (attributesInk settings) Template.maxNesting) 0
          (Template.readDocument template) := by
  have written := @inked_write ⟨settings, Code.indent⟩ keepsInk_indent
    (Template.readDocument template) (Buffer.new settings)
  have hunit : allBlank (Buffer.new settings).unit = true := allBlank_indentUnit _ _
  rw [format, formatWith, withoutBlanks_cleanUp, Buffer.withoutBlanks_output _
    (written.unit_eq ▸ hunit), written.ink_eq hunit]
  rfl

/-- Layouts of one template under settings that agree on quotes and on the order of attributes
differ in blanks only. -/
theorem withoutBlanks_format_congr (s₁ s₂ : Settings) (hquote : s₁.quoteStyle = s₂.quoteStyle)
    (hsort : s₁.sortAttributes = s₂.sortAttributes) (template : List Char) :
    withoutBlanks (format s₁ template) = withoutBlanks (format s₂ template) := by
  rw [withoutBlanks_format, withoutBlanks_format, attributesInk_congr hquote hsort]

/-- Two layouts that break their lines in different places, with the same ink. -/
theorem withoutBlanks_format_tabs :
    format {} "<p b='1' c>d</p>".toList = "<p b=\"1\" c>\n    d\n</p>\n".toList ∧
    format { useTabs := true, attributeLayout := .multilineAlways, breakContent := false }
        "<p b='1' c>d</p>".toList = "<p\n\tb=\"1\"\n\tc\n>d</p>\n".toList ∧
    withoutBlanks (format {} "<p b='1' c>d</p>".toList)
      = withoutBlanks (format
          { useTabs := true, attributeLayout := .multilineAlways, breakContent := false }
          "<p b='1' c>d</p>".toList) := by
  refine ⟨by decide +kernel, by decide +kernel, ?_⟩
  apply withoutBlanks_format_congr
  · rfl
  · rfl

end RazorLayout.Layout

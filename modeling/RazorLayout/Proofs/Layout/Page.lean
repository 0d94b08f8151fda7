import RazorLayout.Layout.Format
import RazorLayout.Proofs.Layout.Spelling

/-!
# The page that markup is written on

Plain markup is written line by line into a buffer. This file computes the page from the nodes
alone: `nodesText` is everything that is written, line feeds included. The lines of the page have
ink at their ends, so that cleaning up leaves it as it is, up to the last line feed.

Each operation on a buffer is described by `Buffer.Wrote`: the page grows by a piece of text, and
the last line is left open or is complete. Of all nodes only an expression leaves its line open, so
the node before decides how the next one begins: it goes on with the line, behind a space if the
source has a gap there, or it stands on a new line.

## Main definitions

* `Buffer.page`: everything written so far, as one text
* `Buffer.Wrote`: what an operation adds to the page
* `nodesText`: the page of plain markup

## Main results

* `wrote_writeNodesAfter`: plain markup is written as its page
* `cleanUp_write`: the page after cleaning up
-/

namespace RazorLayout.Layout

open Text Template

/-! ### Pages -/

/-- A line as cleaning up leaves it: with ink at its end, and on one line. -/
structure TidyLine (l : List Char) : Prop where
  ink : EndsWithInk l
  one_line : '\n' ∉ l

theorem TidyLine.append {u s : List Char} (hu : '\n' ∉ u) (hs : TidyLine s) :
    TidyLine (u ++ s) where
  ink := hs.ink.append u
  one_line := by simp [hu, hs.one_line]

theorem TidyLine.ne_nil {l : List Char} (h : TidyLine l) : l ≠ [] := by
  obtain ⟨u, c, rfl, -⟩ := h.ink
  simp

namespace Buffer

/-- Everything that is written so far. -/
def page (b : Buffer) : List Char := b.lines.flatMap (· ++ ['\n']) ++ b.pending

/-- Every line, the pending one included, is as cleaning up leaves it. -/
structure Tidy (b : Buffer) : Prop where
  lines : ∀ l ∈ b.lines, TidyLine l
  pending : b.pending ≠ [] → TidyLine b.pending

/-- The second buffer has the text `t` behind the page of the first one. Its last line is pending
or complete. -/
structure Wrote (t : List Char) (isOpen : Bool) (b b' : Buffer) : Prop where
  unit_eq : b'.unit = b.unit
  level_eq : b'.level = b.level
  page_eq : b'.page = b.page ++ t
  open_eq : b'.pending.isEmpty = !isOpen
  tidy : '\n' ∉ b.unit → b.Tidy → b'.Tidy

theorem Wrote.refl {b : Buffer} {isOpen : Bool} (hb : b.pending.isEmpty = !isOpen) :
    Wrote [] isOpen b b :=
  ⟨rfl, rfl, by simp, hb, fun _ h => h⟩

theorem Wrote.trans {t t' : List Char} {o o' : Bool} {b b' b'' : Buffer} (h : Wrote t o b b')
    (h' : Wrote t' o' b' b'') : Wrote (t ++ t') o' b b'' where
  unit_eq := h'.unit_eq.trans h.unit_eq
  level_eq := h'.level_eq.trans h.level_eq
  page_eq := by rw [h'.page_eq, h.page_eq, List.append_assoc]
  open_eq := h'.open_eq
  tidy hunit hb := h'.tidy (h.unit_eq ▸ hunit) (h.tidy hunit hb)

theorem Wrote.pending_ne_nil {t : List Char} {b b' : Buffer} (h : Wrote t true b b') :
    b'.pending ≠ [] := by
  simpa using h.open_eq

theorem Wrote.pending_eq_nil {t : List Char} {b b' : Buffer} (h : Wrote t false b b') :
    b'.pending = [] := by
  simpa using h.open_eq

/-- What is written one level deeper is on the page all the same. -/
theorem Wrote.deeper {t : List Char} {o : Bool} {b b' : Buffer} (h : Wrote t o b.indent b') :
    Wrote t o b b'.dedent where
  unit_eq := h.unit_eq
  level_eq := by
    have : b'.level = b.level + 1 := h.level_eq
    simp [dedent, this]
  page_eq := h.page_eq
  open_eq := h.open_eq
  tidy hunit hb := by
    have := h.tidy hunit ⟨hb.lines, hb.pending⟩
    exact ⟨this.lines, this.pending⟩

theorem newline_not_mem_indentation {unit : List Char} (h : '\n' ∉ unit) (level : Nat) :
    '\n' ∉ Code.indentation unit level := by
  intro hmem
  obtain ⟨l, hl, hcl⟩ := List.mem_flatten.1 hmem
  rw [List.eq_of_mem_replicate hl] at hcl
  exact h hcl

/-- A new line begins with its indentation. -/
theorem wrote_start {b : Buffer} (hb : b.pending = []) {s : List Char} (hs : TidyLine s) :
    Wrote (b.indentation ++ s) true b (b.write s) where
  unit_eq := rfl
  level_eq := rfl
  page_eq := by simp [page, write, hb, lines]
  open_eq := by simp [write, hb, hs.ne_nil]
  tidy hunit h := by
    refine ⟨h.lines, fun _ => ?_⟩
    simpa [write, hb, indentation] using
      TidyLine.append (newline_not_mem_indentation hunit b.level) hs

/-- A pending line goes on. -/
theorem wrote_write {b : Buffer} (hb : b.pending ≠ []) {s : List Char} (hs : TidyLine s) :
    Wrote s true b (b.write s) where
  unit_eq := rfl
  level_eq := rfl
  page_eq := by simp [page, write, hb, lines]
  open_eq := by simp [write, hb]
  tidy _ h := by
    refine ⟨h.lines, fun _ => ?_⟩
    simpa [write, hb] using TidyLine.append (h.pending hb).one_line hs

theorem wrote_finishLine {b : Buffer} (hb : b.pending ≠ []) :
    Wrote ['\n'] false b b.finishLine where
  unit_eq := by
    unfold finishLine
    split <;> rfl
  level_eq := level_finishLine b
  page_eq := by simp [page, lines_finishLine, hb]
  open_eq := by simp
  tidy _ h := by
    refine ⟨fun l hl => ?_, fun hne => absurd (pending_finishLine b) hne⟩
    rw [lines_finishLine, List.mem_append] at hl
    rcases hl with hl | hl
    · exact h.lines l hl
    · obtain rfl : l = b.pending := by simpa [hb] using hl
      exact h.pending hb

theorem Wrote.finishLine {t : List Char} {b b' : Buffer} (h : Wrote t true b b') :
    Wrote (t ++ ['\n']) false b b'.finishLine :=
  h.trans (wrote_finishLine h.pending_ne_nil)

theorem wrote_writeLine {b : Buffer} (hb : b.pending = []) {s : List Char} (hs : TidyLine s) :
    Wrote (b.indentation ++ s ++ ['\n']) false b (b.writeLine s) := by
  have eq : b.writeLine s = (b.write s).finishLine := by
    simp [writeLine, write, finishLine, hb, hs.ne_nil]
  rw [eq]
  exact (wrote_start hb hs).finishLine

theorem finishLine_finishLine (b : Buffer) : b.finishLine.finishLine = b.finishLine := by
  rw [finishLine, if_pos (by simp)]

theorem writeLine_finishLine (b : Buffer) (s : List Char) :
    b.finishLine.writeLine s = b.writeLine s := by
  rw [writeLine, writeLine, finishLine_finishLine]

theorem finishLine_dedent (b : Buffer) : b.dedent.finishLine = b.finishLine.dedent := by
  unfold finishLine dedent
  split <;> rfl

end Buffer

/-! ### The page of markup -/

/-- The attributes of a tag at the given level, as they are written. -/
def attributesText (settings : Settings) (level : Nat) (tag : Tag) : List Char :=
  let rendered := (orderedAttributes settings tag.attributes).map (·.render settings.quoteStyle)
  if attributesBreak settings tag then
    (groups settings.attributesPerLine rendered).flatMap fun group =>
      '\n' :: (Code.indentation settings.indentUnit (level + 1) ++ joinWith [' '] group)
  else rendered.flatMap fun a => ' ' :: a

/-- The blanks in front of the end of a tag: a line of its own, when the attributes have lines of
their own and the content does not. -/
def tagEndGap (settings : Settings) (level : Nat) (tag : Tag) : List Char :=
  if attributesBreak settings tag && !contentBreaks settings tag then
    '\n' :: Code.indentation settings.indentUnit level
  else []

/-- The content of an element that is not on lines of its own: one node on the line of the tags, or
several on a line between them. -/
def inlineText (settings : Settings) (level : Nat) (nodes : List Node) : List Char :=
  if nodes.length ≤ 1 then joinInline nodes
  else
    '\n' :: (Code.indentation settings.indentUnit (level + 1) ++ joinInline nodes
      ++ '\n' :: Code.indentation settings.indentUnit level)

theorem joinInline_singleton (node : Node) : joinInline [node] = inlinePart node := by
  simp [joinInline, joinInlineAfter]

/-- What ends the line that the node before leaves open. -/
def lineEnd (previous : Option Node) : List Char :=
  if previous.any Node.isExpression then ['\n'] else []

/-- What stands in front of a node that goes on with an open line, or begins a new one. -/
def lineStart (settings : Settings) (level : Nat) (previous : Option Node) (node : Node) :
    List Char :=
  if previous.any Node.isExpression then
    if previous.any (separated · node) then [' '] else []
  else Code.indentation settings.indentUnit level

mutual

/-- The page of a node at the given level, behind the node before it. -/
def nodeText (settings : Settings) (level : Nat) (previous : Option Node) : Node → List Char
  | .text content _ =>
    lineEnd previous ++ (textLines content).flatMap fun l =>
      Code.indentation settings.indentUnit level ++ l ++ ['\n']
  | .code block =>
    if block.kind = .expression then
      lineStart settings level previous (.code block) ++ '@' :: block.code
    else
      lineEnd previous
        ++ (Code.indentation settings.indentUnit level ++ '@' :: block.code ++ ['\n'])
  | .declaration content span =>
    lineStart settings level previous (.declaration content span) ++ content ++ ['\n']
  | .selfClosing tag =>
    lineStart settings level previous (.selfClosing tag) ++ '<' :: tag.name
      ++ attributesText settings level tag ++ " />".toList ++ ['\n']
  | .element tag children =>
    lineStart settings level previous (.element tag children) ++ '<' :: tag.name
      ++ attributesText settings level tag ++ tagEndGap settings level tag ++ ['>']
      ++ (if !children.isEmpty && (children.any Node.isBlock || contentBreaks settings tag) then
          ['\n'] ++ nodesText settings (level + 1) none children
            ++ Code.indentation settings.indentUnit level
        else inlineText settings level children)
      ++ tagCloser tag.name ++ ['\n']

/-- The page of nodes, one after the other, up to the end of the last line. -/
def nodesText (settings : Settings) (level : Nat) (previous : Option Node) :
    List Node → List Char
  | [] => lineEnd previous
  | node :: nodes =>
    nodeText settings level previous node ++ nodesText settings level (some node) nodes

end

/-! ### Tags -/

theorem tidyLine_tag {name : List Char} (hname : IsTagName name) : TidyLine ('<' :: name) := by
  have inked : ∀ c ∈ name, isBlank c = false := fun c hc =>
    isBlank_of_isAttributeNameChar (isAttributeNameChar_of_isTagNameChar (hname.chars c hc))
  obtain ⟨c, rest, rfl, -⟩ := hname.letter
  refine ⟨⟨'<' :: (c :: rest).dropLast, (c :: rest).getLast (by simp), ?_, ?_⟩, ?_⟩
  · rw [List.cons_append, List.dropLast_append_getLast]
  · exact inked _ (List.getLast_mem _)
  · intro h
    rcases List.mem_cons.1 h with h | h
    · simp at h
    · exact absurd (inked '\n' h) (by decide)

theorem tidyLine_closer {name : List Char} (hname : IsTagName name) :
    TidyLine (tagCloser name) := by
  have h := (tidyLine_tag hname).one_line
  refine ⟨⟨['<', '/'] ++ name, '>', rfl, by decide⟩, ?_⟩
  simp_all [tagCloser]

theorem tidyLine_render {a : Attribute} (ha : IsAttribute a) (style : QuoteStyle) :
    TidyLine (a.render style) := by
  obtain ⟨-, -, u, c, h, hc, -⟩ := (spelt_render ha.value_quote style).not_mem ha
  refine ⟨⟨u, c, h, hc⟩, ?_⟩
  have hname : '\n' ∉ a.name := fun h => by
    have := isBlank_of_isAttributeNameChar (ha.name_chars _ h)
    exact absurd this (by decide)
  have hquote (style : QuoteStyle) : '\n' ≠ style.char := by cases style <;> decide
  unfold Attribute.render
  split
  · exact hname
  · rename_i value hvalue
    have hvalue := ha.value_line value hvalue
    dsimp only
    split <;> simp [hname, hvalue, hquote]

theorem tidyLine_joinWith {ls : List (List Char)} (hne : ls ≠ []) (hls : ∀ l ∈ ls, TidyLine l) :
    TidyLine (joinWith [' '] ls) := by
  fun_induction joinWith [' '] ls with
  | case1 => simp at hne
  | case2 l => exact hls l List.mem_cons_self
  | case3 l next rest ih =>
    refine TidyLine.append ?_ (ih (by simp) fun l' hl' => hls l' (List.mem_cons_of_mem l hl'))
    simp [(hls l List.mem_cons_self).one_line]

theorem of_mem_groupsFrom {α : Type} {size room : Nat} {taken as group : List α}
    (hroom : taken ≠ [] ∨ 0 < room) (hg : group ∈ groupsFrom size room taken as) :
    group ≠ [] ∧ ∀ a ∈ group, a ∈ taken ∨ a ∈ as := by
  fun_induction groupsFrom size room taken as with
  | case1 => simp at hg
  | case2 room taken h =>
    obtain rfl : group = taken.reverse := by simpa using hg
    simp_all
  | case3 taken a as ih =>
    -- the group is full: it is the one that was begun, or a later one
    rcases List.mem_cons.1 hg with rfl | hg
    · simp_all
    · obtain ⟨hne, hmem⟩ := ih (.inl (by simp)) hg
      refine ⟨hne, fun b hb => .inr ?_⟩
      simpa using hmem b hb
  | case4 room taken a as ih =>
    obtain ⟨hne, hmem⟩ := ih (.inl (by simp)) hg
    refine ⟨hne, fun b hb => ?_⟩
    have := hmem b hb
    simp only [List.mem_cons] at this ⊢
    tauto

/-- Groups are not empty and are made of what is grouped. -/
theorem of_mem_groups {α : Type} {size : Nat} {as group : List α} (hg : group ∈ groups size as) :
    group ≠ [] ∧ ∀ a ∈ group, a ∈ as := by
  obtain ⟨hne, hmem⟩ := of_mem_groupsFrom (.inr (by omega)) hg
  exact ⟨hne, fun a ha => by simpa using hmem a ha⟩

section Writing

variable {settings : Settings}

theorem mem_orderedAttributes {attributes : List Attribute} {a : Attribute} :
    a ∈ orderedAttributes settings attributes ↔ a ∈ attributes := by
  unfold orderedAttributes
  split
  · exact List.mem_mergeSort
  · rfl

theorem length_orderedAttributes (attributes : List Attribute) :
    (orderedAttributes settings attributes).length = attributes.length := by
  unfold orderedAttributes
  split
  · exact List.length_mergeSort ..
  · rfl

theorem wrote_attributeLines {gs : List (List (List Char))}
    (hgs : ∀ g ∈ gs, TidyLine (joinWith [' '] g)) {b : Buffer} (hb : b.pending ≠ []) :
    Buffer.Wrote (gs.flatMap fun g => '\n' :: (b.indentation ++ joinWith [' '] g)) true b
      (gs.foldl (fun b g => b.finishLine.write (joinWith [' '] g)) b) := by
  induction gs generalizing b with
  | nil => exact .refl (by simp [hb])
  | cons g gs ih =>
    -- each group finishes the line before it, so that the last one is left open
    have finished := Buffer.wrote_finishLine hb
    have written := finished.trans
      (Buffer.wrote_start (by simp) (hgs g List.mem_cons_self) : Buffer.Wrote _ _ b.finishLine _)
    have rest := ih (fun g' hg' => hgs g' (List.mem_cons_of_mem g hg'))
      written.pending_ne_nil
    have indented : (b.finishLine.write (joinWith [' '] g)).indentation = b.indentation := by
      rw [Buffer.indentation, Buffer.indentation, written.unit_eq, written.level_eq]
    have indented' : b.finishLine.indentation = b.indentation := by
      rw [Buffer.indentation, Buffer.indentation, finished.unit_eq, finished.level_eq]
    rw [indented] at rest
    rw [indented'] at written
    exact written.trans rest

theorem wrote_attributesInline {ls : List (List Char)} (hls : ∀ l ∈ ls, TidyLine l) {b : Buffer}
    (hb : b.pending ≠ []) :
    Buffer.Wrote (ls.flatMap fun l => ' ' :: l) true b
      (ls.foldl (fun b l => (b.write [' ']).write l) b) := by
  induction ls generalizing b with
  | nil => exact .refl (by simp [hb])
  | cons l ls ih =>
    have joined : (b.write [' ']).write l = b.write (' ' :: l) := by
      simp [Buffer.write, hb]
    have tidy : TidyLine (' ' :: l) :=
      TidyLine.append (u := [' ']) (by decide) (hls l List.mem_cons_self)
    have written := Buffer.wrote_write hb tidy
    rw [List.foldl_cons, joined, List.flatMap_cons]
    exact written.trans (ih (fun l' hl' => hls l' (List.mem_cons_of_mem l hl'))
      written.pending_ne_nil)

theorem wrote_writeAttributes {tag : Tag} (htag : ∀ a ∈ tag.attributes, IsAttribute a)
    {b : Buffer} (hb : b.pending ≠ []) (hunit : b.unit = settings.indentUnit) :
    (writeAttributes settings tag.attributes b).1 = attributesBreak settings tag ∧
    Buffer.Wrote (attributesText settings b.level tag) true b
      (writeAttributes settings tag.attributes b).2 := by
  have rendered : ∀ l ∈ (orderedAttributes settings tag.attributes).map
      (·.render settings.quoteStyle), TidyLine l := by
    intro l hl
    obtain ⟨a, ha, rfl⟩ := List.mem_map.1 hl
    exact tidyLine_render (htag a (mem_orderedAttributes.1 ha)) settings.quoteStyle
  unfold writeAttributes attributesText
  split
  · rename_i hempty
    have hempty : tag.attributes = [] := by simpa using hempty
    refine ⟨by simp [attributesBreak, hempty], ?_⟩
    have nothing : Buffer.Wrote [] true b b := .refl (by simp [hb])
    simpa [attributesBreak, hempty, orderedAttributes] using nothing
  · rename_i hne
    -- the order of attributes does not change how many there are
    have breaks : breaksAttributes settings ((orderedAttributes settings tag.attributes).map
        (·.render settings.quoteStyle)).length = attributesBreak settings tag := by
      simp [attributesBreak, hne, length_orderedAttributes]
    dsimp only
    rw [breaks]
    split
    · rename_i hbreak
      refine ⟨hbreak.symm, ?_⟩
      -- one group of attributes on each line
      have grouped : ∀ g ∈ groups settings.attributesPerLine ((orderedAttributes settings
          tag.attributes).map (·.render settings.quoteStyle)), TidyLine (joinWith [' '] g) := by
        intro g hg
        obtain ⟨hne, hmem⟩ := of_mem_groups hg
        exact tidyLine_joinWith hne fun l hl => rendered l (hmem l hl)
      have lines := wrote_attributeLines (b := b.indent) grouped hb
      have indented : b.indent.indentation
          = Code.indentation settings.indentUnit (b.level + 1) := by
        rw [← hunit]
        rfl
      rw [indented] at lines
      exact lines.deeper
    · rename_i hbreak
      exact ⟨(Bool.eq_false_iff.2 hbreak).symm, wrote_attributesInline rendered hb⟩

/-- A tag with its attributes, up to its end, once its name is written. -/
theorem wrote_writeTag {tag : Tag} (htag : ∀ a ∈ tag.attributes, IsAttribute a) {b c : Buffer}
    {start : List Char} (started : Buffer.Wrote start true b (c.write ('<' :: tag.name)))
    (hunit : b.unit = settings.indentUnit) :
    (writeAttributes settings tag.attributes (c.write ('<' :: tag.name))).1
        = attributesBreak settings tag ∧
    Buffer.Wrote (start ++ attributesText settings b.level tag) true b
      (writeAttributes settings tag.attributes (c.write ('<' :: tag.name))).2 := by
  obtain ⟨breaks, written⟩ := wrote_writeAttributes htag started.pending_ne_nil
    (started.unit_eq.trans hunit)
  rw [started.level_eq] at written
  exact ⟨breaks, started.trans written⟩

theorem wrote_writeOpenTag {tag : Tag} (htag : ∀ a ∈ tag.attributes, IsAttribute a)
    {b c : Buffer} {start : List Char}
    (started : Buffer.Wrote start true b (c.write ('<' :: tag.name)))
    (hunit : b.unit = settings.indentUnit) :
    (writeOpenTag settings tag c).1 = contentBreaks settings tag ∧
    Buffer.Wrote (start ++ attributesText settings b.level tag ++ tagEndGap settings b.level tag
      ++ ['>']) true b (writeOpenTag settings tag c).2 := by
  obtain ⟨breaks, written⟩ := wrote_writeTag htag started hunit
  have bracket : TidyLine ['>'] := ⟨⟨[], '>', rfl, by decide⟩, by decide⟩
  unfold writeOpenTag tagEndGap
  dsimp only
  rw [breaks, ← contentBreaks]
  refine ⟨rfl, ?_⟩
  split
  · -- the end of the tag stands on a line of its own
    have finished := written.finishLine
    have ended := finished.trans (Buffer.wrote_start (by simp) bracket)
    rw [Buffer.indentation, finished.unit_eq, finished.level_eq, hunit] at ended
    simpa using ended
  · simpa using written.trans (Buffer.wrote_write written.pending_ne_nil bracket)

theorem wrote_writeSelfClosing {tag : Tag} (htag : ∀ a ∈ tag.attributes, IsAttribute a)
    {b c : Buffer} {start : List Char}
    (started : Buffer.Wrote start true b (c.write ('<' :: tag.name)))
    (hunit : b.unit = settings.indentUnit) :
    Buffer.Wrote (start ++ attributesText settings b.level tag ++ " />".toList ++ ['\n']) false b
      (writeSelfClosing settings tag c) := by
  obtain ⟨-, written⟩ := wrote_writeTag htag started hunit
  have bracket : TidyLine " />".toList := ⟨⟨[' ', '/'], '>', rfl, by decide⟩, by decide⟩
  have ended := written.trans (Buffer.wrote_write written.pending_ne_nil bracket)
  exact ended.finishLine

/-! ### Lines -/

section Lines

variable {previous : Option Node} {b : Buffer}
  (hb : b.pending.isEmpty = !previous.any Node.isExpression)

include hb

/-- The line that the node before leaves open is completed. -/
theorem wrote_lineEnd : Buffer.Wrote (lineEnd previous) false b b.finishLine := by
  unfold lineEnd
  cases hopen : previous.any Node.isExpression with
  | false =>
    have hb : b.pending = [] := by simpa [hopen] using hb
    have same : b.finishLine = b := by rw [Buffer.finishLine, if_pos (by simp [hb])]
    rw [same]
    exact .refl (by simp [hb])
  | true => exact Buffer.wrote_finishLine (by simpa [hopen] using hb)

/-- A node goes on with an open line, or begins a new one. -/
theorem wrote_writeGap (hunit : b.unit = settings.indentUnit) (node : Node)
    (hnode : goesOn node = true) {s : List Char} (hs : TidyLine s) :
    Buffer.Wrote (lineStart settings b.level previous node ++ s) true b
      ((writeGap previous node b).write s) := by
  unfold writeGap lineStart
  rw [← goesOn, hnode, hb, Bool.true_and, Bool.not_not]
  cases hopen : previous.any Node.isExpression with
  | false =>
    have hb : b.pending = [] := by simpa [hopen] using hb
    have started := Buffer.wrote_start hb hs
    rw [Buffer.indentation, hunit] at started
    exact started
  | true =>
    have hb : b.pending ≠ [] := by simpa [hopen] using hb
    cases previous.any (separated · node) with
    | false => exact Buffer.wrote_write hb hs
    | true =>
      -- the space and the piece behind it are written as one, since a space alone is not tidy
      have joined : (b.write [' ']).write s = b.write (' ' :: s) := by simp [Buffer.write, hb]
      have tidy : TidyLine (' ' :: s) := TidyLine.append (u := [' ']) (by decide) hs
      have written := Buffer.wrote_write hb tidy
      rw [← joined] at written
      exact written

/-- Lines of their own, behind the line that is left open. -/
theorem wrote_writeLines (hunit : b.unit = settings.indentUnit) {ls : List (List Char)}
    (hne : ls ≠ []) (hls : ∀ l ∈ ls, TidyLine l) :
    Buffer.Wrote (lineEnd previous ++ ls.flatMap fun l =>
        Code.indentation settings.indentUnit b.level ++ l ++ ['\n']) false b (b.writeLines ls) := by
  -- behind a complete line the lines are written one after the other
  have lines {ls : List (List Char)} (hls : ∀ l ∈ ls, TidyLine l) {b : Buffer}
      (hb : b.pending = []) (hunit : b.unit = settings.indentUnit) :
      Buffer.Wrote (ls.flatMap fun l =>
        Code.indentation settings.indentUnit b.level ++ l ++ ['\n']) false b (b.writeLines ls) := by
    induction ls generalizing b with
    | nil => exact .refl (by simp [hb])
    | cons l ls ih =>
      have written := Buffer.wrote_writeLine hb (hls l List.mem_cons_self)
      rw [Buffer.indentation, hunit] at written
      have rest := ih (fun l' hl' => hls l' (List.mem_cons_of_mem l hl'))
        (Buffer.pending_writeLine l b) (written.unit_eq.trans hunit)
      rw [written.level_eq] at rest
      exact written.trans rest
  have finished := wrote_lineEnd hb
  obtain ⟨l, ls, rfl⟩ := List.exists_cons_of_ne_nil hne
  have same : b.writeLines (l :: ls) = b.finishLine.writeLines (l :: ls) := by
    rw [Buffer.writeLines, Buffer.writeLines, List.foldl_cons, List.foldl_cons,
      Buffer.writeLine_finishLine]
  have rest := lines hls (Buffer.pending_finishLine b) (finished.unit_eq.trans hunit)
  rw [finished.level_eq, ← same] at rest
  exact finished.trans rest

end Lines

/-! ### Content -/

theorem newline_not_mem_collapse (s : List Char) : '\n' ∉ collapse s := by
  have inked {c : Char} (hc : ¬ isBlank c = true) : c ≠ '\n' := by
    rintro rfl
    exact hc (by decide)
  fun_induction collapse s with
  | case1 => simp
  | case2 c =>
    split
    · decide
    · rename_i hc
      simpa using (inked hc).symm
  | case3 c d s _ _ ih => exact ih
  | case4 c d s _ _ ih => simpa using ih
  | case5 c d s hc ih => simpa [(inked hc).symm] using ih

theorem tidyLine_collapse_trim {content : List Char} (h : IsText content) :
    TidyLine (collapse (trim content)) := by
  rw [collapse_trim]
  refine tidyLine_joinWith (words_ne_nil h.not_blank) fun w hw => ?_
  obtain ⟨hne, hink⟩ := of_mem_words hw
  refine ⟨⟨w.dropLast, w.getLast hne, ?_, hink _ (List.getLast_mem hne)⟩, fun hmem => ?_⟩
  · rw [List.dropLast_append_getLast]
  · exact absurd (hink '\n' hmem) (by decide)

theorem tidyLine_expression {code : List Char} (h : IsExpression code) : TidyLine ('@' :: code) :=
  ⟨h.ink.append ['@'], by simp [h.one_line]⟩

theorem tidyLine_directive {keyword value : List Char} (h : IsDirective keyword value) :
    TidyLine ('@' :: (keyword ++ ' ' :: value)) := by
  have keywords : Directive.keywords.all (!·.contains '\n') = true := by decide
  have hkeyword := List.all_eq_true.1 keywords keyword h.keyword_mem
  have hline : '\n' ∉ value := fun hmem => absurd (h.value_chars '\n' hmem) (by decide)
  have hink : EndsWithInk value := by
    rw [← h.value_trim]
    refine endsWithInk_trim ?_
    rw [Bool.eq_false_iff]
    intro hblank
    exact h.value_ne_nil (h.value_trim ▸ trim_eq_nil_iff.2 hblank)
  refine ⟨?_, by simp_all⟩
  simpa using hink.append ('@' :: keyword ++ [' '])

theorem tidyLine_line {block : CodeBlock} (h : IsLine block) : TidyLine ('@' :: block.code) := by
  cases h with
  | @directive keyword value span h hmarkup hmark => exact tidyLine_directive h
  | @comment note span hline hmarkup hmark =>
    exact ⟨⟨'@' :: '*' :: (note ++ ['*']), '@', by simp, by decide⟩, by simp [hline]⟩

theorem tidyLine_declaration {name : List Char} (h : IsDeclaration name) :
    TidyLine ('<' :: '!' :: (name ++ ['>'])) := by
  refine ⟨⟨'<' :: '!' :: name, '>', rfl, by decide⟩, ?_⟩
  have hline := newline_not_mem_collapse ('!' :: (name ++ ['>']))
  rw [h.collapsed] at hline
  simpa using hline

/-- Text and expressions within a line. -/
theorem tidyLine_inlinePart {levels : Nat} {node : Node} {nodes : List Node}
    (h : IsMarkup levels (node :: nodes)) (hinline : node.isBlock = false) :
    TidyLine (inlinePart node) := by
  rcases h.inline_cases hinline with ⟨content, span, rfl, hcontent⟩ | ⟨code, span, rfl, hcode⟩
  · exact tidyLine_collapse_trim hcontent
  · exact tidyLine_expression hcode

/-- On a line no text and no expression is passed over. -/
theorem joinInlineAfter_cons {levels : Nat} {node : Node} {nodes : List Node}
    (h : IsMarkup levels (node :: nodes)) (hinline : node.isBlock = false)
    (previous : Option Node) :
    joinInlineAfter previous (node :: nodes)
      = (if previous.any (separated · node) then [' '] else []) ++ inlinePart node
        ++ joinInlineAfter (some node) nodes := by
  rw [joinInlineAfter, if_neg (by simpa using (tidyLine_inlinePart h hinline).ne_nil)]

theorem tidyLine_joinInlineAfter {levels : Nat} {nodes : List Node} (h : IsMarkup levels nodes)
    (hinline : nodes.any Node.isBlock = false) (hne : nodes ≠ []) (previous : Option Node) :
    TidyLine (joinInlineAfter previous nodes) := by
  induction nodes generalizing previous with
  | nil => exact absurd rfl hne
  | cons node nodes ih =>
    rw [List.any_cons, Bool.or_eq_false_iff] at hinline
    have part := tidyLine_inlinePart h hinline.1
    have gap : '\n' ∉ (if previous.any (separated · node) then [' '] else []) := by
      split <;> decide
    rw [joinInlineAfter_cons h hinline.1]
    by_cases hnodes : nodes = []
    · subst hnodes
      rw [joinInlineAfter, List.append_nil]
      exact part.append gap
    · exact (ih h.tail hinline.2 hnodes (some node)).append (by simp [gap, part.one_line])

/-- Content that is not on lines of its own. -/
theorem wrote_writeInline {levels : Nat} {tag : Tag} (hname : IsTagName tag.name)
    (hraw : isRawText tag.name = false) {children : List Node} (h : IsMarkup levels children)
    (hinline : children.any Node.isBlock = false) {b : Buffer} (hb : b.pending ≠ [])
    (hunit : b.unit = settings.indentUnit) :
    Buffer.Wrote (inlineText settings b.level children ++ tagCloser tag.name ++ ['\n']) false b
      (writeInline tag children b) := by
  -- one node and the closing tag are one piece of the line
  have alone {node : Node} (h : IsMarkup levels [node]) (hnode : node.isBlock = false) :
      Buffer.Wrote (inlinePart node ++ tagCloser tag.name ++ ['\n']) false b
        ((b.write (inlinePart node)).write (tagCloser tag.name)).finishLine := by
    have tidy := (tidyLine_closer hname).append (tidyLine_inlinePart h hnode).one_line
    have joined : (b.write (inlinePart node)).write (tagCloser tag.name)
        = b.write (inlinePart node ++ tagCloser tag.name) := by simp [Buffer.write, hb]
    have closed := Buffer.wrote_write hb tidy
    rw [joined]
    exact closed.finishLine
  match children, h, hinline with
  | [], _, _ =>
    have closed := Buffer.wrote_write hb (tidyLine_closer hname)
    exact closed.finishLine
  | [.text content span], h, hinline =>
    simpa [writeInline, hraw, inlineText, joinInline_singleton] using
      alone h (by simpa using hinline)
  | [.code block], h, hinline =>
    simpa [writeInline, inlineText, joinInline_singleton] using alone h (by simpa using hinline)
  | [.selfClosing _], _, hinline | [.element _ _], _, hinline | [.declaration _ _], _, hinline =>
    simp [Node.isBlock, Node.isInline, Node.isExpression] at hinline
  | first :: second :: rest, h, hinline =>
    -- several nodes stand on a line between the tags, one level deeper
    have tidy := tidyLine_joinInlineAfter h hinline (by simp) none
    have finished := Buffer.wrote_finishLine hb
    have line := (Buffer.wrote_writeLine (b := b.finishLine.indent) (by simp [Buffer.indent])
      tidy).deeper
    have content := finished.trans line
    have started := content.trans (Buffer.wrote_start content.pending_eq_nil
      (tidyLine_closer hname))
    have closed := started.finishLine
    have indented : b.finishLine.indent.indentation
        = Code.indentation settings.indentUnit (b.level + 1) := by
      rw [← hunit, ← finished.unit_eq, ← finished.level_eq]
      rfl
    have outside : ((b.finishLine.indent.writeLine
        (joinInlineAfter none (first :: second :: rest))).dedent).indentation
        = Code.indentation settings.indentUnit b.level := by
      rw [Buffer.indentation, content.unit_eq, content.level_eq, hunit]
    rw [indented, outside] at closed
    simpa [writeInline, inlineText, joinInline] using closed

/-- A text stands on lines of its own, behind the line that is left open. -/
theorem wrote_writeText {previous : Option Node} {b : Buffer}
    (hb : b.pending.isEmpty = !previous.any Node.isExpression)
    (hunit : b.unit = settings.indentUnit) {content : List Char} (h : IsText content) :
    Buffer.Wrote (lineEnd previous ++ (textLines content).flatMap fun l =>
        Code.indentation settings.indentUnit b.level ++ l ++ ['\n']) false b
      (writeText content b) := by
  refine wrote_writeLines hb hunit (textLines_ne_nil h.not_blank) fun l hl => ?_
  have tidy := of_mem_textLines hl
  exact ⟨tidy.2.1, tidy.2.2.1⟩

theorem embeddedBody?_eq_none {tag : Tag} (hraw : isRawText tag.name = false)
    (children : List Node) : embeddedBody? settings tag children = none := by
  have hlanguage : embeddedLanguage? tag.name = none := by
    simp_all [isRawText, rawTextElements, embeddedLanguage?]
  simp [embeddedBody?, hlanguage]

theorem writeNode_line {block : CodeBlock} (h : IsLine block) (env : Surroundings)
    (body : List Char → Buffer → Buffer) (b : Buffer) :
    writeNode env body (.code block) b = b.writeLine ('@' :: block.code) := by
  cases h with
  | @directive keyword value span h hmarkup hmark =>
    have directive := Directive.isSection_code (d := ⟨keyword, value, 0⟩) h.keyword_mem span
    rw [Directive.code, List.append_assoc] at directive
    simp only [writeNode_code, CodeKind.isControl, writeCode]
    rw [if_neg (by simp), if_neg (by simpa using directive)]
  | comment => simp [writeNode_code, CodeKind.isControl, writeCode, CodeBlock.isSection]

theorem writeGap_of_not_goesOn {node : Node} (h : goesOn node = false)
    (previous : Option Node) (b : Buffer) : writeGap previous node b = b := by
  rw [writeGap, ← goesOn, h]
  rfl

end Writing

/-- An element is written as its page, if its content is. -/
theorem wrote_writeElement {env : Surroundings} {body : List Char → Buffer → Buffer} {levels : Nat}
    {tag : Tag} {children : List Node} (hname : IsTagName tag.name)
    (hraw : isRawText tag.name = false) (hattributes : ∀ a ∈ tag.attributes, IsAttribute a)
    (hchildren : IsMarkup levels children)
    (hcontent : ∀ {b : Buffer}, b.pending.isEmpty = true → b.unit = env.settings.indentUnit →
      Buffer.Wrote (nodesText env.settings b.level none children) false b
        (writeNodesAfter env body none children b).finishLine)
    {previous : Option Node} {b : Buffer}
    (hb : b.pending.isEmpty = !previous.any Node.isExpression)
    (hunit : b.unit = env.settings.indentUnit) :
    Buffer.Wrote (nodeText env.settings b.level previous (.element tag children)) false b
      (writeNode env body (.element tag children)
        (writeGap previous (.element tag children) b)) := by
  have started := wrote_writeGap hb hunit (.element tag children) rfl (tidyLine_tag hname)
  obtain ⟨breaks, opened⟩ := wrote_writeOpenTag hattributes started hunit
  rw [writeNode_element, nodeText, embeddedBody?_eq_none hraw]
  dsimp only
  rw [breaks]
  by_cases hown : (!children.isEmpty && (children.any Node.isBlock
      || contentBreaks env.settings tag)) = true
  · rw [if_pos hown, if_pos hown]
    generalize (writeOpenTag env.settings tag (writeGap previous (.element tag children) b)).2
      = b' at opened ⊢
    -- lines of its own, one level deeper, and the closing tag behind them
    have finished := opened.finishLine
    have inside := (hcontent (b := b'.finishLine.indent) (by simp [Buffer.indent])
      (finished.unit_eq.trans hunit)).deeper
    rw [← Buffer.finishLine_dedent, show b'.finishLine.indent.level = b.level + 1 from
      congrArg (· + 1) finished.level_eq] at inside
    have content := finished.trans inside
    have closed := content.trans
      (Buffer.wrote_writeLine (Buffer.pending_finishLine _) (tidyLine_closer hname))
    rw [Buffer.indentation, content.unit_eq, content.level_eq, hunit,
      Buffer.writeLine_finishLine] at closed
    simpa [Node.isExpression] using closed
  · rw [if_neg hown, if_neg hown]
    have hinline : children.any Node.isBlock = false := by
      cases children with
      | nil => rfl
      | cons node nodes => simp_all
    -- everything up to the closing tag goes on with the line of the tag
    have inline := wrote_writeInline hname hraw hchildren hinline opened.pending_ne_nil
      (opened.unit_eq.trans hunit)
    rw [opened.level_eq] at inline
    simpa [Node.isExpression] using opened.trans inline

/-- Plain markup is written as its page. -/
theorem wrote_writeNodesAfter {env : Surroundings} {body : List Char → Buffer → Buffer}
    {levels : Nat} {nodes : List Node} (h : IsMarkup levels nodes) (previous : Option Node)
    {b : Buffer} (hb : b.pending.isEmpty = !previous.any Node.isExpression)
    (hunit : b.unit = env.settings.indentUnit) :
    Buffer.Wrote (nodesText env.settings b.level previous nodes) false b
      (writeNodesAfter env body previous nodes b).finishLine := by
  -- the nodes behind a node are written where it ends
  have cons {node : Node} {nodes : List Node} {previous : Option Node} {b : Buffer}
      (hunit : b.unit = env.settings.indentUnit)
      (first : Buffer.Wrote (nodeText env.settings b.level previous node) node.isExpression b
        (writeNode env body node (writeGap previous node b)))
      (rest : ∀ (previous : Option Node) {b : Buffer},
        b.pending.isEmpty = !previous.any Node.isExpression → b.unit = env.settings.indentUnit →
        Buffer.Wrote (nodesText env.settings b.level previous nodes) false b
          (writeNodesAfter env body previous nodes b).finishLine) :
      Buffer.Wrote (nodesText env.settings b.level previous (node :: nodes)) false b
        (writeNodesAfter env body previous (node :: nodes) b).finishLine := by
    have second := rest (some node) first.open_eq (first.unit_eq.trans hunit)
    rw [first.level_eq] at second
    rw [nodesText, writeNodesAfter]
    exact first.trans second
  induction h generalizing previous b with
  | nil =>
    rw [nodesText, writeNodesAfter]
    exact wrote_lineEnd hb
  | @text levels content span nodes hcontent _ _ ih =>
    refine cons hunit ?_ ih
    rw [writeGap_of_not_goesOn rfl, writeNode_text, nodeText]
    exact wrote_writeText hb hunit hcontent
  | @expression levels code span nodes hcode _ _ ih =>
    refine cons hunit ?_ ih
    have written := wrote_writeGap hb hunit (.code ⟨.expression, code, span⟩) rfl
      (tidyLine_expression hcode)
    rw [nodeText]
    exact written
  | @line levels block nodes hblock _ ih =>
    refine cons hunit ?_ ih
    -- code that takes a line ends the line in front of it
    have hkind := hblock.kind_ne
    have inline : (Node.code block).isExpression = false := by simpa [Node.isExpression] using hkind
    have written := wrote_writeLines hb hunit (List.cons_ne_nil ('@' :: block.code) [])
      (by simpa using tidyLine_line hblock)
    rw [writeGap_of_not_goesOn (by simp [goesOn, inline, Node.isMarkup]), writeNode_line hblock,
      nodeText, if_neg hkind, inline]
    simpa [Buffer.writeLines] using written
  | @declaration levels name span nodes hname _ ih =>
    refine cons hunit ?_ ih
    have written := wrote_writeGap hb hunit (.declaration ('<' :: '!' :: (name ++ ['>'])) span) rfl
      (tidyLine_declaration hname)
    rw [writeNode_declaration, nodeText]
    exact written.finishLine
  | @selfClosing levels tag nodes hname hattributes _ ih =>
    refine cons hunit ?_ ih
    have started := wrote_writeGap hb hunit (.selfClosing tag) rfl (tidyLine_tag hname)
    rw [writeNode_selfClosing, nodeText]
    exact wrote_writeSelfClosing hattributes started hunit
  | @element levels tag children nodes hname hvoid hraw hattributes hchildren _ ihc ih =>
    refine cons hunit ?_ ih
    exact wrote_writeElement hname hraw hattributes hchildren (ihc none) hb hunit

/-! ### Cleaning up -/

theorem unlines_append_newline {ls : List (List Char)} (hne : ls ≠ []) :
    unlines ls ++ ['\n'] = ls.flatMap (· ++ ['\n']) := by
  unfold unlines
  fun_induction joinWith ['\n'] ls with
  | case1 => simp at hne
  | case2 l => simp
  | case3 l next rest ih => rw [List.append_assoc, ih (by simp), List.flatMap_cons (x := l)]

theorem unlines_eq_dropLast (ls : List (List Char)) :
    unlines ls = (ls.flatMap (· ++ ['\n'])).dropLast := by
  by_cases hne : ls = []
  · rw [hne]
    rfl
  · rw [← unlines_append_newline hne, List.dropLast_concat]

theorem unlines_concat (ls : List (List Char)) (l : List Char) :
    unlines (ls ++ [l]) = ls.flatMap (· ++ ['\n']) ++ l := by
  have written := @unlines_append_newline (ls ++ [l]) (by simp)
  rw [List.flatMap_append, List.flatMap_singleton, ← List.append_assoc] at written
  exact List.append_cancel_right written

theorem endsWithInk_unlines {ls : List (List Char)} {l : List Char} (hl : ls.getLast? = some l)
    (hink : EndsWithInk l) : EndsWithInk (unlines ls) := by
  obtain ⟨init, rfl⟩ := List.getLast?_eq_some_iff.1 hl
  rw [unlines_concat]
  exact hink.append _

/-- Cleaning up leaves trimmed lines as they are, and decides on the line feed behind the last
one. -/
theorem cleanUp_unlines_of_ink (settings : Settings) {ls : List (List Char)}
    (hline : ∀ l ∈ ls, '\n' ∉ l) (htrimmed : ls.map trimEnd = ls)
    (hink : EndsWithInk (unlines ls)) :
    cleanUp settings (unlines ls)
      = unlines ls ++ (if settings.insertFinalNewline then ['\n'] else []) := by
  have hfull : (unlines ls).isEmpty = false := by
    obtain ⟨u, c, h, -⟩ := hink
    simp [h]
  have hne : ls ≠ [] := by
    rintro rfl
    simp [unlines, joinWith] at hfull
  have unchanged : (if settings.removeTrailingWhitespace then
      unlines ((split '\n' (unlines ls)).map trimEnd) else unlines ls) = unlines ls := by
    rw [split_unlines hne hline, htrimmed, ite_self]
  unfold cleanUp
  dsimp only
  rw [unchanged, hink.trimEnd_eq, hfull]
  split <;> simp

/-- Cleaning up leaves tidy lines as they are, and decides on the last line feed. -/
theorem cleanUp_unlines (settings : Settings) {ls : List (List Char)}
    (hls : ∀ l ∈ ls, TidyLine l) :
    cleanUp settings (unlines ls)
      = if settings.insertFinalNewline then ls.flatMap (· ++ ['\n']) else unlines ls := by
  by_cases hne : ls = []
  · -- no lines at all, and no line feed either
    subst hne
    cases h : settings.removeTrailingWhitespace <;> cases h' : settings.insertFinalNewline <;>
      simp +decide [cleanUp, h, h', unlines, joinWith, trimEnd]
  · -- lines with ink at their ends are not shortened
    have trimmed : ls.map trimEnd = ls := by
      conv_rhs => rw [← List.map_id ls]
      exact List.map_congr_left fun l hl => (hls l hl).ink.trimEnd_eq
    have hink : EndsWithInk (unlines ls) :=
      endsWithInk_unlines (List.getLast?_eq_some_getLast hne) (hls _ (List.getLast_mem hne)).ink
    rw [cleanUp_unlines_of_ink settings (fun l hl => (hls l hl).one_line) trimmed hink]
    split
    · exact unlines_append_newline hne
    · exact List.append_nil _

theorem newline_not_mem_indentUnit (useTabs : Bool) (width : Nat) :
    '\n' ∉ Code.indentUnit useTabs width := by
  unfold Code.indentUnit
  split
  · decide
  · intro h
    exact absurd (List.eq_of_mem_replicate h) (by decide)

/-- The page of plain markup is written as tidy lines. -/
theorem exists_lines_write (indenter : Indenter) (settings : Settings) {levels : Nat}
    {nodes : List Node} (h : IsMarkup levels nodes) :
    ∃ ls, (∀ l ∈ ls, TidyLine l) ∧ nodesText settings 0 none nodes = ls.flatMap (· ++ ['\n']) ∧
      (write ⟨settings, indenter⟩ nodes (Buffer.new settings)).output = unlines ls := by
  have written : Buffer.Wrote (nodesText settings 0 none nodes) false (Buffer.new settings)
      (write ⟨settings, indenter⟩ nodes (Buffer.new settings)).finishLine :=
    @wrote_writeNodesAfter ⟨settings, indenter⟩ (writeBody ⟨settings, indenter⟩ maxNesting)
      levels nodes h none (Buffer.new settings) rfl rfl
  -- the last line may be open; the output finishes it
  generalize write ⟨settings, indenter⟩ nodes (Buffer.new settings) = b at written ⊢
  have htidy : b.finishLine.Tidy := by
    refine written.tidy (newline_not_mem_indentUnit _ _) ⟨fun l hl => ?_, fun h => ?_⟩
    · simp [Buffer.new, Buffer.lines] at hl
    · exact absurd rfl h
  refine ⟨b.finishLine.lines, htidy.lines, ?_, rfl⟩
  have page := written.page_eq
  rw [Buffer.page, Buffer.pending_finishLine, List.append_nil] at page
  simpa [Buffer.page, Buffer.new, Buffer.lines] using page.symm

/-- The layout of plain markup is its page, with or without the last line feed. -/
theorem cleanUp_write (indenter : Indenter) (settings : Settings) {levels : Nat}
    {nodes : List Node} (h : IsMarkup levels nodes) :
    cleanUp settings (write ⟨settings, indenter⟩ nodes (Buffer.new settings)).output
      = if settings.insertFinalNewline then nodesText settings 0 none nodes
        else (nodesText settings 0 none nodes).dropLast := by
  obtain ⟨ls, hls, hpage, houtput⟩ := exists_lines_write indenter settings h
  rw [houtput, cleanUp_unlines settings hls, hpage, unlines_eq_dropLast]

end RazorLayout.Layout

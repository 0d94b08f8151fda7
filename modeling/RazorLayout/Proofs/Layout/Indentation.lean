import RazorLayout.Proofs.Layout.Snippet
import RazorLayout.Proofs.Template.OpeningTag
import RazorLayout.Proofs.Text.Margin

/-!
# Two layouts with different indentation

The width of the indentation shows in the margins of lines and nowhere else. This is not obvious:
whether a line is begun, and so where the next one breaks, depends on whether anything is pending,
and the indentation is written into the pending line. Two runs on one template are compared step by
step. Their buffers stay alike: the same lines but for their margins, and a line is pending in the
one exactly when a line is pending in the other.

For this, whatever may begin a line must not be empty; names and declarations never are, because of
how they are read (`ReadAt.named`).

## Main definitions

* `Buffer.Alike`: buffers of two runs that differ in their indentation
* `reindented`: settings with another indentation

## Main results

* `Alike.write`, `Alike.writeLine`, `Alike.finishLine`: one operation
* `alike_writeNodesAfter`, `alike_writeBody`: whole nodes, and bodies of blocks
* `map_trimStart_format`: layouts with different indentation differ in margins
-/

namespace RazorLayout.Layout

open Text Template

/-! ### Buffers -/

theorem isMargin_indentation {unit : List Char} (h : IsMargin unit) (level : Nat) :
    IsMargin (Code.indentation unit level) :=
  ⟨Buffer.allBlank_indentation h.blank level, Buffer.newline_not_mem_indentation h.line level⟩

theorem shifted_setIn {l l' : List Char} (h : Shifted l l') {g g' : List Char} (hg : IsMargin g)
    (hg' : IsMargin g') : Shifted (setIn g l) (setIn g' l') := by
  -- an empty line has an empty margin
  have margin {g : List Char} (hg : IsMargin g) (l : List Char) :
      ∃ f, IsMargin f ∧ setIn g l = f ++ l := by
    cases l with
    | nil => exact ⟨[], isMargin_nil, rfl⟩
    | cons c l => exact ⟨g, hg, rfl⟩
  obtain ⟨f, hf, hl⟩ := margin hg l
  obtain ⟨f', hf', hl'⟩ := margin hg' l'
  rw [hl, hl']
  exact h.indent hf hf'

namespace Buffer

/-- Buffers of two runs that differ in their indentation: the same lines but for the margins, and
something is pending in both or in none. -/
structure Alike (b b' : Buffer) : Prop where
  unit : IsMargin b.unit ∧ IsMargin b'.unit
  level_eq : b.level = b'.level
  lines : List.Forall₂ Shifted b.lines b'.lines
  pending : Shifted b.pending b'.pending
  pending_eq_nil : b.pending = [] ↔ b'.pending = []

namespace Alike

variable {b b' : Buffer}

/-- Something is written, or something was pending already. -/
theorem write (h : Alike b b') {s : List Char} (hs : s ≠ [] ∨ b.pending ≠ []) :
    Alike (b.write s) (b'.write s) where
  unit := h.unit
  level_eq := h.level_eq
  lines := h.lines
  pending := by
    by_cases hp : b.pending = []
    · have hp' := h.pending_eq_nil.1 hp
      simpa [Buffer.write, Buffer.indentation, hp, hp'] using (Shifted.refl s).indent
        (isMargin_indentation h.unit.1 b.level) (isMargin_indentation h.unit.2 b'.level)
    · have hp' := mt h.pending_eq_nil.2 hp
      simpa [Buffer.write, hp, hp'] using h.pending.append s
  pending_eq_nil := by
    -- the indentation is empty at the outermost level, so only `s` makes sure that a line is begun
    by_cases hp : b.pending = []
    · have hs : s ≠ [] := hs.resolve_right (not_not_intro hp)
      simp [Buffer.write, hs]
    · have hp' := mt h.pending_eq_nil.2 hp
      simp [Buffer.write, hp, hp']

theorem finishLine (h : Alike b b') : Alike b.finishLine b'.finishLine where
  unit := by
    rw [(inked_finishLine b).unit_eq, (inked_finishLine b').unit_eq]
    exact h.unit
  level_eq := by simpa using h.level_eq
  lines := by
    rw [lines_finishLine, lines_finishLine]
    by_cases hp : b.pending = []
    · simpa [hp, h.pending_eq_nil.1 hp] using h.lines
    · simpa [hp, mt h.pending_eq_nil.2 hp] using
        List.rel_append h.lines (.cons h.pending .nil)
  pending := by simpa using Shifted.refl []
  pending_eq_nil := by simp

/-- The lines of two runs may differ in their own margins as well. -/
theorem writeLine (h : Alike b b') {l l' : List Char} (hl : Shifted l l') :
    Alike (b.writeLine l) (b'.writeLine l') where
  unit := h.finishLine.unit
  level_eq := by simpa using h.level_eq
  lines := by
    have margins := h.finishLine.unit
    have shifted := shifted_setIn hl (isMargin_indentation margins.1 b.finishLine.level)
      (isMargin_indentation margins.2 b'.finishLine.level)
    rw [lines_writeLine, lines_writeLine]
    exact List.rel_append h.finishLine.lines (.cons shifted .nil)
  pending := by simpa using Shifted.refl []
  pending_eq_nil := by simp

theorem writeLines (h : Alike b b') {ls ls' : List (List Char)}
    (hls : List.Forall₂ Shifted ls ls') : Alike (b.writeLines ls) (b'.writeLines ls') := by
  induction hls generalizing b b' with
  | nil => exact h
  | cons hl _ ih => exact ih (h.writeLine hl)

theorem indent (h : Alike b b') : Alike b.indent b'.indent where
  unit := h.unit
  level_eq := congrArg (· + 1) h.level_eq
  lines := h.lines
  pending := h.pending
  pending_eq_nil := h.pending_eq_nil

theorem dedent (h : Alike b b') : Alike b.dedent b'.dedent where
  unit := h.unit
  level_eq := congrArg (· - 1) h.level_eq
  lines := h.lines
  pending := h.pending
  pending_eq_nil := h.pending_eq_nil

theorem isEmpty_pending (h : Alike b b') : b.pending.isEmpty = b'.pending.isEmpty := by
  rw [Bool.eq_iff_iff, List.isEmpty_iff, List.isEmpty_iff]
  exact h.pending_eq_nil

theorem isEmpty_eq (h : Alike b b') : b.isEmpty = b'.isEmpty := by
  have lines : b.committed.size = b'.committed.size := by
    simpa [Buffer.lines] using h.lines.length_eq
  rw [isEmpty, isEmpty, h.isEmpty_pending, Array.isEmpty, Array.isEmpty, lines]

end Alike

theorem pending_write_ne_nil {s : List Char} (hs : s ≠ []) (b : Buffer) :
    (b.write s).pending ≠ [] := by
  simp [write, hs]

end Buffer

open Buffer (Alike)

/-! ### Tags -/

section Tags

variable {b b' : Buffer} (h : Alike b b')

include h in
theorem alike_foldl_write (ls : List (List Char)) :
    Alike (ls.foldl (fun b a => (b.write [' ']).write a) b)
      (ls.foldl (fun b a => (b.write [' ']).write a) b') := by
  induction ls generalizing b b' with
  | nil => exact h
  | cons l ls ih =>
    have space : (b.write [' ']).pending ≠ [] := Buffer.pending_write_ne_nil (by simp) b
    exact ih ((h.write (.inl (by simp))).write (.inr space))

include h in
/-- Every group begins a line, and must not be empty. -/
theorem alike_foldl_group {gs : List (List (List Char))} (hgs : ∀ g ∈ gs, joinWith [' '] g ≠ []) :
    Alike (gs.foldl (fun b group => b.finishLine.write (joinWith [' '] group)) b)
      (gs.foldl (fun b group => b.finishLine.write (joinWith [' '] group)) b') := by
  induction gs generalizing b b' with
  | nil => exact h
  | cons g gs ih =>
    obtain ⟨hg, hgs⟩ := List.forall_mem_cons.1 hgs
    exact ih (h.finishLine.write (.inl hg)) hgs

theorem joinWith_ne_nil {sep : List Char} {ls : List (List Char)} (hne : ls ≠ [])
    (hls : ∀ l ∈ ls, l ≠ []) : joinWith sep ls ≠ [] := by
  fun_cases joinWith sep ls with
  | case1 => exact absurd rfl hne
  | case2 piece => exact hls piece List.mem_cons_self
  | case3 piece next rest => simp [hls piece List.mem_cons_self]

theorem render_ne_nil {a : Attribute} (h : a.name ≠ []) (style : QuoteStyle) :
    a.render style ≠ [] := by
  unfold Attribute.render
  split <;> simp [h]

variable (settings : Settings)

include h in
theorem alike_writeAttributes {attributes : List Attribute}
    (hnames : ∀ a ∈ attributes, a.name ≠ []) :
    (writeAttributes settings attributes b).1 = (writeAttributes settings attributes b').1 ∧
      Alike (writeAttributes settings attributes b).2
        (writeAttributes settings attributes b').2 := by
  unfold writeAttributes
  dsimp only
  split
  · exact ⟨rfl, h⟩
  · split
    · refine ⟨rfl, (alike_foldl_group h.indent fun g hg => ?_).dedent⟩
      obtain ⟨hne, hmem⟩ := of_mem_groups hg
      refine joinWith_ne_nil hne fun text htext => ?_
      obtain ⟨a, ha, rfl⟩ := List.mem_map.1 (hmem text htext)
      exact render_ne_nil (hnames a (mem_orderedAttributes.1 ha)) _
    · exact ⟨rfl, alike_foldl_write h _⟩

include h in
theorem alike_writeOpenTag {tag : Tag} (hnames : ∀ a ∈ tag.attributes, a.name ≠ []) :
    (writeOpenTag settings tag b).1 = (writeOpenTag settings tag b').1 ∧
      Alike (writeOpenTag settings tag b).2 (writeOpenTag settings tag b').2 := by
  obtain ⟨multiline, attributes⟩ :=
    alike_writeAttributes (h.write (s := '<' :: tag.name) (.inl (by simp))) settings hnames
  unfold writeOpenTag
  simp only [multiline, true_and]
  split
  · exact attributes.finishLine.write (.inl (by simp))
  · exact attributes.write (.inl (by simp))

theorem pending_writeOpenTag_ne_nil (tag : Tag) (b : Buffer) :
    (writeOpenTag settings tag b).2.pending ≠ [] :=
  Buffer.pending_write_ne_nil (by simp) _

include h in
theorem alike_writeSelfClosing {tag : Tag} (hnames : ∀ a ∈ tag.attributes, a.name ≠ []) :
    Alike (writeSelfClosing settings tag b) (writeSelfClosing settings tag b') := by
  have name := h.write (s := '<' :: tag.name) (.inl (by simp))
  have attributes := (alike_writeAttributes name settings hnames).2
  exact (attributes.write (.inl (by decide))).finishLine

end Tags

/-! ### Embedded code -/

/-- The settings with another indentation. -/
def reindented (settings : Settings) (width : Nat) (tabs : Bool) : Settings :=
  { settings with indentSize := width, useTabs := tabs }

@[simp] theorem writeOpenTag_reindented (settings : Settings) (width : Nat) (tabs : Bool) :
    writeOpenTag (reindented settings width tabs) = writeOpenTag settings := rfl

@[simp] theorem embeddedBody?_reindented (settings : Settings) (width : Nat) (tabs : Bool) :
    embeddedBody? (reindented settings width tabs) = embeddedBody? settings := rfl

theorem Indented.shifted {l x x' : List Char} (h : Indented l x) (h' : Indented l x') :
    Shifted x x' := by
  obtain ⟨g, hg, hline, rfl, -⟩ := h
  obtain ⟨g', hg', hline', rfl, -⟩ := h'
  exact ⟨g, g', l, ⟨hg, hline⟩, ⟨hg', hline'⟩, rfl, rfl⟩

/-- Whatever the settings are, a body has the same lines but for their margins. -/
theorem forall₂_shifted_snippetLines (settings settings' : Settings) (language : Code.Language)
    (body : List Char) :
    List.Forall₂ Shifted (snippetLines settings Code.indent language body)
      (snippetLines settings' Code.indent language body) := by
  have placed := forall₂_indented_snippetLines settings language body
  have placed' := forall₂_indented_snippetLines settings' language body
  generalize snippetLines settings Code.indent language body = ls at *
  generalize snippetLines settings' Code.indent language body = ls' at *
  generalize trimmedLines body = trimmed at *
  induction placed generalizing ls' with
  | nil =>
    cases placed'
    exact .nil
  | cons hl _ ih =>
    cases placed' with
    | cons hl' hls' => exact .cons (hl.shifted hl') (ih _ hls')

theorem forall₂_shifted_self (ls : List (List Char)) : List.Forall₂ Shifted ls ls :=
  List.forall₂_same.2 fun l _ => .refl l

section Runs

variable {b b' : Buffer} (h : Alike b b') (settings : Settings) (width : Nat) (tabs : Bool)

include h in
theorem alike_writeSnippet (language : Code.Language) (body : List Char) :
    Alike (writeSnippet ⟨settings, Code.indent⟩ language body b)
      (writeSnippet ⟨reindented settings width tabs, Code.indent⟩ language body b') :=
  (h.indent.writeLines (forall₂_shifted_snippetLines ..)).dedent

include h in
theorem alike_writeCode (block : CodeBlock) :
    Alike (writeCode ⟨settings, Code.indent⟩ block b)
      (writeCode ⟨reindented settings width tabs, Code.indent⟩ block b') := by
  unfold writeCode
  split
  · exact h.write (.inl (by simp))
  · have opened := h.writeLine (.refl ['@', '{'])
    exact (alike_writeSnippet opened settings width tabs _ _).writeLine (.refl _)
  · split
    · have setOff : Alike (if b.isEmpty then b else b.writeLine [])
          (if b'.isEmpty then b' else b'.writeLine []) := by
        rw [h.isEmpty_eq]
        split
        · exact h
        · exact h.writeLine (.refl [])
      have opened := (setOff.writeLine (.refl "@code".toList)).writeLine (.refl ['{'])
      exact (alike_writeSnippet opened settings width tabs _ _).writeLine (.refl _)
    · exact h.writeLine (.refl _)

end Runs

/-! ### Nodes -/

theorem alike_writeControl {b b' : Buffer} (h : Alike b b') {body body' : List Char → Buffer → Buffer}
    (hbody : ∀ inner c c', Alike c c' → Alike (body inner c) (body' inner c'))
    (block : CodeBlock) : Alike (writeControl body block b) (writeControl body' block b') := by
  unfold writeControl
  split
  · exact h.writeLine (.refl _)
  · dsimp only
    have opened (header : List Char) := (h.writeLine (.refl header)).writeLine (.refl ['{'])
    refine Alike.writeLine ?_ (.refl _)
    split
    · exact opened _
    · exact (hbody _ _ _ (opened _).indent).dedent

theorem alike_writeGap {b b' : Buffer} (h : Alike b b') (previous : Option Node) (node : Node) :
    Alike (writeGap previous node b) (writeGap previous node b') := by
  unfold writeGap
  rw [h.isEmpty_pending]
  split
  · exact h.write (.inl (by simp))
  · exact h

/-- Content behind a tag, which is pending. -/
theorem alike_writeInline {b b' : Buffer} (h : Alike b b') (hb : b.pending ≠ []) (tag : Tag)
    (children : List Node) : Alike (writeInline tag children b) (writeInline tag children b') := by
  unfold writeInline
  refine (Alike.write ?_ (.inl (by simp [tagCloser]))).finishLine
  split
  · exact h
  · split <;> exact h.write (.inr hb)
  · exact h.write (.inr hb)
  · exact (h.finishLine.indent.writeLine (.refl _)).dedent

section Nodes

variable (settings : Settings) (width : Nat) (tabs : Bool)

theorem alike_writeNodesAfter {body body' : List Char → Buffer → Buffer}
    (hbody : ∀ inner c c', Alike c c' → Alike (body inner c) (body' inner c')) :
    (∀ node, (∃ depth, ReadAt depth node) → ∀ b b', Alike b b' →
      Alike (writeNode ⟨settings, Code.indent⟩ body node b)
        (writeNode ⟨reindented settings width tabs, Code.indent⟩ body' node b')) ∧
    ∀ nodes, (∀ node ∈ nodes, ∃ depth, ReadAt depth node) → ∀ previous b b', Alike b b' →
      Alike (writeNodesAfter ⟨settings, Code.indent⟩ body previous nodes b)
        (writeNodesAfter ⟨reindented settings width tabs, Code.indent⟩ body' previous nodes b') := by
  apply Node.induction
  case selfClosing =>
    rintro tag ⟨depth, hread⟩ b b' h
    exact alike_writeSelfClosing h settings hread.named
  case element =>
    rintro tag children ih ⟨depth, hread⟩ b b' h
    have content : ∀ node ∈ children, ∃ depth, ReadAt depth node :=
      fun node hnode => ⟨depth + 1, hread.child hnode⟩
    obtain ⟨breaks, opened⟩ := alike_writeOpenTag h settings hread.named
    rw [writeNode_element, writeNode_element, embeddedBody?_reindented, writeOpenTag_reindented]
    cases embeddedBody? settings tag children with
    | some embedded =>
      exact (alike_writeSnippet opened.finishLine settings width tabs _ _).writeLine (.refl _)
    | none =>
      dsimp only
      rw [breaks]
      split
      · exact (ih content none _ _ opened.finishLine.indent).dedent.writeLine (.refl _)
      · -- inline content goes behind the tag, so it may be empty
        exact alike_writeInline opened (pending_writeOpenTag_ne_nil settings tag b) tag children
  case declaration =>
    rintro content span ⟨depth, hread⟩ b b' h
    exact (h.write (.inl hread.named)).finishLine
  case text =>
    intro content span _ b b' h
    exact h.writeLines (forall₂_shifted_self _)
  case code =>
    intro block _ b b' h
    rw [writeNode_code, writeNode_code]
    split
    · exact alike_writeControl h hbody block
    · exact alike_writeCode h settings width tabs block
  case nil =>
    intro _ previous b b' h
    exact h
  case cons =>
    intro node nodes hnode hnodes hread previous b b' h
    obtain ⟨hfirst, hrest⟩ := List.forall_mem_cons.1 hread
    rw [writeNodesAfter, writeNodesAfter]
    exact hnodes hrest _ _ _ (hnode hfirst _ _ (alike_writeGap h previous node))

/-- The body of a block is read at the same level in both runs. -/
theorem alike_writeBody (blocks : Nat) (inner : List Char) {b b' : Buffer} (h : Alike b b') :
    Alike (writeBody ⟨settings, Code.indent⟩ blocks inner b)
      (writeBody ⟨reindented settings width tabs, Code.indent⟩ blocks inner b') := by
  have read : ∀ node ∈ readNested b.level 0 inner, ∃ depth, ReadAt depth node :=
    fun node hnode => ⟨_, .body hnode⟩
  induction blocks generalizing inner b b' with
  | zero =>
    rw [writeBody, writeBody, ← h.level_eq]
    exact (alike_writeNodesAfter settings width tabs fun _ _ _ h => h).2 _ read _ _ _ h
  | succ blocks ih =>
    rw [writeBody, writeBody, ← h.level_eq]
    refine (alike_writeNodesAfter settings width tabs fun inner c c' hc => ?_).2 _ read _ _ _ h
    exact ih inner hc fun node hnode => ⟨_, .body hnode⟩

end Nodes

/-! ### Templates -/

theorem alike_new (settings : Settings) (width : Nat) (tabs : Bool) :
    Alike (Buffer.new settings) (Buffer.new (reindented settings width tabs)) where
  unit := ⟨⟨allBlank_indentUnit _ _, newline_not_mem_indentUnit _ _⟩,
    ⟨allBlank_indentUnit _ _, newline_not_mem_indentUnit _ _⟩⟩
  level_eq := rfl
  lines := .nil
  pending := .refl []
  pending_eq_nil := Iff.rfl

/-- Cleaning up and moving lines to the left edge do not interfere. -/
theorem flushLeft_cleanUp (settings : Settings) (out : List Char) :
    flushLeft (cleanUp settings out) = cleanUp settings (flushLeft out) := by
  have trimmed : flushLeft (if settings.removeTrailingWhitespace then
        unlines ((split '\n' out).map trimEnd) else out)
      = if settings.removeTrailingWhitespace then
        unlines ((split '\n' (flushLeft out)).map trimEnd) else flushLeft out := by
    split
    · have ends : ∀ l ∈ (split '\n' out).map trimEnd, '\n' ∉ l := by
        simp only [List.mem_map, forall_exists_index, and_imp, forall_apply_eq_imp_iff₂]
        exact fun l hl h =>
          newline_not_mem_of_mem_split hl ((List.rdropWhile_prefix isBlank l).subset h)
      rw [flushLeft, split_unlines (by simp [split_ne_nil]) ends, split_flushLeft, List.map_map,
        List.map_map]
      congr 1
      exact List.map_congr_left fun l _ => trimStart_trimEnd l
    · rfl
  unfold cleanUp
  dsimp only
  rw [← trimmed]
  -- what is left to compare is the last line feed
  generalize (if settings.removeTrailingWhitespace then
      unlines ((split '\n' out).map trimEnd) else out) = out'
  split
  · have blank : (trimEnd (flushLeft out')).isEmpty = (trimEnd out').isEmpty := by
      rw [Bool.eq_iff_iff, List.isEmpty_iff, List.isEmpty_iff, trimEnd_eq_nil_iff,
        trimEnd_eq_nil_iff, allBlank_flushLeft]
    rw [blank]
    split
    · rfl
    · rw [flushLeft_append_newline, flushLeft_trimEnd]
      rfl
  · rfl

/-- Layouts of one template that differ in their indentation differ in the margins of lines: they
have the same lines once these are moved to the left edge. -/
theorem map_trimStart_format (settings : Settings) (width : Nat) (tabs : Bool)
    (template : List Char) :
    (split '\n' (format { settings with indentSize := width, useTabs := tabs } template)).map
        trimStart
      = (split '\n' (format settings template)).map trimStart := by
  have read : ∀ node ∈ readDocument template, ∃ depth, ReadAt depth node :=
    fun node hnode => ⟨0, .template hnode⟩
  have written := (alike_writeNodesAfter settings width tabs fun inner c c' hc =>
    alike_writeBody settings width tabs maxNesting inner hc).2 _ read none _ _
      (alike_new settings width tabs)
  have output := flushLeft_unlines_congr written.finishLine.lines
  rw [← split_flushLeft, ← split_flushLeft]
  congr 1
  rw [format, format, formatWith, formatWith, flushLeft_cleanUp, flushLeft_cleanUp]
  exact congrArg (cleanUp settings) output.symm

end RazorLayout.Layout

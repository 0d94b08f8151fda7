import Mathlib.Logic.Relation
import RazorLayout.Proofs.Layout.Page
import RazorLayout.Proofs.Template.Depth

/-!
# Writing, step by step

Writing nodes is one function that calls itself for the content of elements and for the bodies of
blocks. What happens on the way is not in its result: how deep the calls go, and at which level of
the buffer each node is written. This file takes the function apart into steps.

A state holds the tasks that are left, the next one first, and the buffer. A task is an edit of the
buffer, a node, the rest of a list of nodes, or a body that is still to be read. One step does the
first task or replaces it by smaller ones; so the lists of nodes among the tasks are the calls that
are open. Every node is kept with the elements and blocks around it.

The steps end, with the buffer that the function gives (`reaches_write`). Along the way the fuel
for bodies is shown to be enough: a body that is too deep is literal text, and holds no block.

## Main definitions

* `Edit`, `Task`, `Writing`: edits, tasks and states
* `step`, `Reaches`: one step, and any number of steps

## Main results

* `reaches_nodes`: the steps for nodes end with the buffer that writing them gives
* `reaches_write_from`: so do the steps for any nodes, in any buffer
* `reaches_write`: so do the steps for the nodes of a whole template
-/

namespace RazorLayout.Layout

open Text Template

/-! ### Edits -/

/-- What can be asked of a buffer. -/
inductive Edit where
  | write (s : List Char)
  | finishLine
  | writeLine (s : List Char)
  | indent
  | dedent
  /-- an empty line, unless nothing is written yet -/
  | setOff
  /-- a space between two nodes that share a line, where the source has blanks -/
  | gap (previous : Option Node) (node : Node)

namespace Edit

def apply : Edit → Buffer → Buffer
  | write s, b => b.write s
  | finishLine, b => b.finishLine
  | writeLine s, b => b.writeLine s
  | indent, b => b.indent
  | dedent, b => b.dedent
  | setOff, b => if b.isEmpty then b else b.writeLine []
  | gap previous node, b => writeGap previous node b

/-- The level behind an edit. -/
def levelAfter : Edit → Nat → Nat
  | indent, level => level + 1
  | dedent, level => level - 1
  | _, level => level

/-- Every edit but the two that change the level. -/
def keepsLevel : Edit → Bool
  | indent | dedent => false
  | _ => true

theorem levelAfter_of_keepsLevel {edit : Edit} (h : edit.keepsLevel = true) (level : Nat) :
    edit.levelAfter level = level := by
  cases edit <;> simp_all [keepsLevel, levelAfter]

@[simp] theorem level_apply (edit : Edit) (b : Buffer) :
    (edit.apply b).level = edit.levelAfter b.level := by
  cases edit with
  | setOff =>
    simp only [apply, levelAfter]
    split <;> simp
  | gap previous node =>
    simp only [apply, levelAfter, writeGap]
    split <;> simp
  | _ => simp [apply, levelAfter, Buffer.indent, Buffer.dedent]

end Edit

/-- The buffer after edits, in order. -/
def edited (edits : List Edit) (b : Buffer) : Buffer := edits.foldl (fun b edit => edit.apply b) b

@[simp] theorem edited_nil (b : Buffer) : edited [] b = b := rfl

@[simp] theorem edited_cons (edit : Edit) (edits : List Edit) (b : Buffer) :
    edited (edit :: edits) b = edited edits (edit.apply b) := rfl

@[simp] theorem edited_append (edits edits' : List Edit) (b : Buffer) :
    edited (edits ++ edits') b = edited edits' (edited edits b) :=
  List.foldl_append

/-- Lines of their own. -/
def lineEdits (ls : List (List Char)) : List Edit := ls.map .writeLine

@[simp] theorem edited_lineEdits (ls : List (List Char)) (b : Buffer) :
    edited (lineEdits ls) b = b.writeLines ls := by
  rw [edited, lineEdits, List.foldl_map]
  rfl

/-- Attributes behind a tag name. -/
def attributeEdits (settings : Settings) (tag : Tag) : List Edit :=
  let rendered := (orderedAttributes settings tag.attributes).map (·.render settings.quoteStyle)
  if attributesBreak settings tag then
    .indent :: (groups settings.attributesPerLine rendered).flatMap
      (fun group => [.finishLine, .write (joinWith [' '] group)]) ++ [.dedent]
  else rendered.flatMap fun text => [.write [' '], .write text]

theorem edited_flatMap {α : Type} (f : α → List Edit) (as : List α) (b : Buffer) :
    edited (as.flatMap f) b = as.foldl (fun b a => edited (f a) b) b := by
  induction as generalizing b with
  | nil => rfl
  | cons a as ih => rw [List.flatMap_cons, edited_append, ih, List.foldl_cons]

theorem writeAttributes_eq (settings : Settings) (tag : Tag) (b : Buffer) :
    writeAttributes settings tag.attributes b
      = (attributesBreak settings tag, edited (attributeEdits settings tag) b) := by
  unfold writeAttributes attributeEdits
  split
  · rename_i hempty
    have hnil : tag.attributes = [] := List.isEmpty_iff.1 hempty
    simp [attributesBreak, hnil, orderedAttributes]
  · rename_i hne
    have breaks : breaksAttributes settings ((orderedAttributes settings tag.attributes).map
        (·.render settings.quoteStyle)).length = attributesBreak settings tag := by
      simp [attributesBreak, hne, length_orderedAttributes]
    simp only [breaks]
    split
    · rename_i hbreak
      simp [hbreak, edited_flatMap, Edit.apply]
    · rename_i hbreak
      simp [hbreak, edited_flatMap, Edit.apply]

/-- `<tag …>` -/
def openTagEdits (settings : Settings) (tag : Tag) : List Edit :=
  .write ('<' :: tag.name) :: attributeEdits settings tag
    ++ (if attributesBreak settings tag && !contentBreaks settings tag then [.finishLine] else [])
    ++ [.write ['>']]

theorem writeOpenTag_eq (settings : Settings) (tag : Tag) (b : Buffer) :
    writeOpenTag settings tag b
      = (contentBreaks settings tag, edited (openTagEdits settings tag) b) := by
  simp only [writeOpenTag, writeAttributes_eq, openTagEdits]
  rw [← contentBreaks]
  split <;> simp [Edit.apply]

/-- `<tag … />` -/
def selfClosingEdits (settings : Settings) (tag : Tag) : List Edit :=
  .write ('<' :: tag.name) :: attributeEdits settings tag ++ [.write " />".toList, .finishLine]

@[simp] theorem edited_selfClosingEdits (settings : Settings) (tag : Tag) (b : Buffer) :
    edited (selfClosingEdits settings tag) b = writeSelfClosing settings tag b := by
  simp [selfClosingEdits, writeSelfClosing, writeAttributes_eq, Edit.apply]

/-- The lines of a text. -/
def textEdits (content : List Char) : List Edit :=
  lineEdits (((lines content).map trim).filter fun l => !l.isEmpty)

/-- The lines of embedded code, one level deeper. -/
def snippetEdits (env : Surroundings) (language : Code.Language) (body : List Char) : List Edit :=
  .indent :: lineEdits (snippetLines env.settings env.indenter language body) ++ [.dedent]

@[simp] theorem edited_snippetEdits (env : Surroundings) (language : Code.Language)
    (body : List Char) (b : Buffer) :
    edited (snippetEdits env language body) b = writeSnippet env language body b := by
  simp [snippetEdits, writeSnippet, Edit.apply]

/-- Embedded code that is no block. -/
def codeEdits (env : Surroundings) (block : CodeBlock) : List Edit :=
  match block.kind with
  | .expression => [.write ('@' :: block.code)]
  | .inlineBlock =>
    .writeLine ['@', '{'] :: snippetEdits env .csharp block.code ++ [.writeLine ['}']]
  | _ =>
    if block.isSection then
      .setOff :: .writeLine "@code".toList :: .writeLine ['{']
        :: snippetEdits env .csharp (block.code.drop CodeBlock.sectionWord.length)
        ++ [.writeLine ['}']]
    else [.writeLine ('@' :: block.code)]

@[simp] theorem edited_codeEdits (env : Surroundings) (block : CodeBlock) (b : Buffer) :
    edited (codeEdits env block) b = writeCode env block b := by
  cases hkind : block.kind <;> cases hsection : block.isSection <;>
    simp [codeEdits, writeCode, hkind, hsection, Edit.apply]

/-- An element whose content is code that is to be indented. -/
def embeddedEdits (env : Surroundings) (tag : Tag) (language : Code.Language)
    (body : List Char) : List Edit :=
  openTagEdits env.settings tag ++ .finishLine :: snippetEdits env language body
    ++ [.writeLine (tagCloser tag.name)]

@[simp] theorem edited_embeddedEdits (env : Surroundings) (tag : Tag) (language : Code.Language)
    (body : List Char) (b : Buffer) :
    edited (embeddedEdits env tag language body) b = writeEmbedded env tag language body b := by
  simp [embeddedEdits, writeEmbedded, writeOpenTag_eq, Edit.apply]

/-- Content on a line, up to the end of the closing tag. -/
def inlineEdits (tag : Tag) (children : List Node) : List Edit :=
  (match children with
    | [] => []
    | [.text content span] =>
      if Template.isRawText tag.name then [.write (trim content)]
      else [.write (inlinePart (.text content span))]
    | [only] => [.write (inlinePart only)]
    | _ => [.finishLine, .indent, .writeLine (joinInline children), .dedent])
    ++ [.write (tagCloser tag.name), .finishLine]

@[simp] theorem edited_inlineEdits (tag : Tag) (children : List Node) (b : Buffer) :
    edited (inlineEdits tag children) b = writeInline tag children b := by
  unfold inlineEdits writeInline
  split
  · simp [Edit.apply]
  · split <;> simp [Edit.apply]
  · simp [Edit.apply]
  · simp [Edit.apply]

/-! ### Levels -/

/-- Edits that come back to the level where they begin, and meanwhile go one level deeper at
most. -/
inductive Balanced : List Edit → Prop
  | nil : Balanced []
  | cons {edit : Edit} {edits : List Edit} (h : edit.keepsLevel = true) (rest : Balanced edits) :
    Balanced (edit :: edits)
  | deeper {inner edits : List Edit} (h : ∀ edit ∈ inner, edit.keepsLevel = true)
    (rest : Balanced edits) : Balanced (.indent :: inner ++ .dedent :: edits)

theorem Balanced.append {edits edits' : List Edit} (h : Balanced edits) (h' : Balanced edits') :
    Balanced (edits ++ edits') := by
  induction h with
  | nil => exact h'
  | cons hedit _ ih => exact .cons hedit ih
  | deeper hinner _ ih =>
    rw [List.append_assoc]
    exact .deeper hinner ih

theorem balanced_of_keepsLevel {edits : List Edit} (h : ∀ edit ∈ edits, edit.keepsLevel = true) :
    Balanced edits := by
  induction edits with
  | nil => exact .nil
  | cons edit edits ih =>
    obtain ⟨hedit, hedits⟩ := List.forall_mem_cons.1 h
    exact .cons hedit (ih hedits)

theorem level_edited_of_keepsLevel {edits : List Edit}
    (h : ∀ edit ∈ edits, edit.keepsLevel = true) (b : Buffer) :
    (edited edits b).level = b.level := by
  induction edits generalizing b with
  | nil => rfl
  | cons edit edits ih =>
    obtain ⟨hedit, hedits⟩ := List.forall_mem_cons.1 h
    rw [edited_cons, ih hedits, Edit.level_apply, Edit.levelAfter_of_keepsLevel hedit]

theorem Balanced.level_edited {edits : List Edit} (h : Balanced edits) (b : Buffer) :
    (edited edits b).level = b.level := by
  induction h generalizing b with
  | nil => rfl
  | cons hedit _ ih => rw [edited_cons, ih, Edit.level_apply, Edit.levelAfter_of_keepsLevel hedit]
  | deeper hinner _ ih =>
    rw [List.cons_append, edited_cons, edited_append, edited_cons, ih, Edit.level_apply,
      level_edited_of_keepsLevel hinner, Edit.level_apply]
    exact Nat.add_sub_cancel ..

theorem keepsLevel_lineEdits (ls : List (List Char)) :
    ∀ edit ∈ lineEdits ls, edit.keepsLevel = true := by
  simp [lineEdits, Edit.keepsLevel]

theorem balanced_attributeEdits (settings : Settings) (tag : Tag) :
    Balanced (attributeEdits settings tag) := by
  unfold attributeEdits
  dsimp only
  split
  · refine .deeper ?_ .nil
    simp only [List.mem_flatMap, List.mem_cons, List.not_mem_nil, or_false]
    rintro edit ⟨_, -, rfl | rfl⟩ <;> rfl
  · refine balanced_of_keepsLevel ?_
    simp only [List.mem_flatMap, List.mem_cons, List.not_mem_nil, or_false]
    rintro edit ⟨_, -, rfl | rfl⟩ <;> rfl

theorem balanced_openTagEdits (settings : Settings) (tag : Tag) :
    Balanced (openTagEdits settings tag) := by
  refine (Balanced.append (.cons rfl (balanced_attributeEdits settings tag)) ?_).append
    (.cons rfl .nil)
  split
  · exact .cons rfl .nil
  · exact .nil

theorem balanced_selfClosingEdits (settings : Settings) (tag : Tag) :
    Balanced (selfClosingEdits settings tag) :=
  Balanced.append (.cons rfl (balanced_attributeEdits settings tag)) (.cons rfl (.cons rfl .nil))

theorem balanced_snippetEdits (env : Surroundings) (language : Code.Language) (body : List Char) :
    Balanced (snippetEdits env language body) :=
  .deeper (keepsLevel_lineEdits _) .nil

theorem balanced_codeEdits (env : Surroundings) (block : CodeBlock) :
    Balanced (codeEdits env block) := by
  unfold codeEdits
  split
  · exact .cons rfl .nil
  · exact .cons rfl ((balanced_snippetEdits env _ _).append (.cons rfl .nil))
  · split
    · exact .cons rfl (.cons rfl (.cons rfl
        ((balanced_snippetEdits env _ _).append (.cons rfl .nil))))
    · exact .cons rfl .nil

theorem balanced_embeddedEdits (env : Surroundings) (tag : Tag) (language : Code.Language)
    (body : List Char) : Balanced (embeddedEdits env tag language body) :=
  ((balanced_openTagEdits env.settings tag).append
    (.cons rfl (balanced_snippetEdits env language body))).append (.cons rfl .nil)

theorem balanced_inlineEdits (tag : Tag) (children : List Node) :
    Balanced (inlineEdits tag children) := by
  refine Balanced.append ?_ (.cons rfl (.cons rfl .nil))
  split
  · exact .nil
  · split <;> exact .cons rfl .nil
  · exact .cons rfl .nil
  · have line : ∀ edit ∈ [Edit.writeLine (joinInline children)], edit.keepsLevel = true := by
      simp [Edit.keepsLevel]
    exact .cons rfl (.deeper line .nil)

/-! ### Tasks -/

/-- What is left to do. `path` holds the elements and blocks around a node, the innermost one
first. -/
inductive Task where
  | edit (edit : Edit)
  | node (path : List Node) (node : Node)
  /-- the nodes behind `previous`, one after the other -/
  | nodes (path : List Node) (previous : Option Node) (nodes : List Node)
  /-- the body of a block, which is still to be read -/
  | body (path : List Node) (block : CodeBlock) (inner : List Char)

/-- The tasks of a block. -/
def controlTasks (path : List Node) (block : CodeBlock) : List Task :=
  match block.controlParts? with
  | none => [.edit (.writeLine ('@' :: block.code))]
  | some (header, inner) =>
    let mark := if block.kind = .ifBlock || block.kind = .foreachBlock then ['@'] else []
    .edit (.writeLine (mark ++ headerLine header)) :: .edit (.writeLine ['{'])
      :: (if allBlank inner then []
        else [.edit .indent, .body path block inner, .edit .dedent])
      ++ [.edit (.writeLine ['}'])]

/-- The tasks of a node. -/
def nodeTasks (env : Surroundings) (path : List Node) : Node → List Task
  | .text content _ => (textEdits content).map .edit
  | .declaration content _ => [.edit (.write content), .edit .finishLine]
  | .selfClosing tag => (selfClosingEdits env.settings tag).map .edit
  | .code block =>
    if block.kind.isControl then controlTasks path block else (codeEdits env block).map .edit
  | .element tag children =>
    match embeddedBody? env.settings tag children with
    | some (language, inner) => (embeddedEdits env tag language inner).map .edit
    | none =>
      (openTagEdits env.settings tag).map .edit
        ++ if !children.isEmpty
            && (children.any Node.isBlock || contentBreaks env.settings tag) then
          [.edit .finishLine, .edit .indent, .nodes (.element tag children :: path) none children,
            .edit .dedent, .edit (.writeLine (tagCloser tag.name))]
        else (inlineEdits tag children).map .edit

/-- A state: the tasks that are left, and the buffer. -/
structure Writing where
  tasks : List Task
  buffer : Buffer

/-- One step. A body is read at the level of the buffer. -/
def step (env : Surroundings) : Writing → Option Writing
  | ⟨[], _⟩ => none
  | ⟨.edit edit :: tasks, b⟩ => some ⟨tasks, edit.apply b⟩
  | ⟨.node path node :: tasks, b⟩ => some ⟨nodeTasks env path node ++ tasks, b⟩
  | ⟨.nodes _ _ [] :: tasks, b⟩ => some ⟨tasks, b⟩
  | ⟨.nodes path previous (node :: nodes) :: tasks, b⟩ =>
    some ⟨.edit (.gap previous node) :: .node path node :: .nodes path (some node) nodes :: tasks,
      b⟩
  | ⟨.body path block inner :: tasks, b⟩ =>
    some ⟨.nodes (.code block :: path) none (readNested b.level 0 inner) :: tasks, b⟩

/-- Any number of steps. -/
def Reaches (env : Surroundings) : Writing → Writing → Prop :=
  Relation.ReflTransGen fun now next => step env now = some next

/-- The state in which the nodes of a template are to be written. -/
def Writing.start (settings : Settings) (nodes : List Node) : Writing :=
  ⟨[.nodes [] none nodes], Buffer.new settings⟩

/-! ### The steps end where writing does -/

/-- Writing nodes comes back to the level where it begins, if writing bodies does. -/
theorem level_writeNodesAfter {env : Surroundings} {body : List Char → Buffer → Buffer}
    (hlevel : ∀ inner b, (body inner b).level = b.level) :
    (∀ node b, (writeNode env body node b).level = b.level) ∧
    ∀ nodes previous b, (writeNodesAfter env body previous nodes b).level = b.level := by
  apply Node.induction
  case selfClosing =>
    intro tag b
    rw [writeNode_selfClosing, ← edited_selfClosingEdits]
    exact (balanced_selfClosingEdits env.settings tag).level_edited b
  case element =>
    intro tag children ih b
    rw [writeNode_element]
    split
    · rw [← edited_embeddedEdits]
      exact (balanced_embeddedEdits env tag _ _).level_edited b
    · rw [writeOpenTag_eq]
      have opened := (balanced_openTagEdits env.settings tag).level_edited b
      dsimp only
      split
      · simp [ih, Buffer.dedent, Buffer.indent, opened]
      · rw [← edited_inlineEdits, (balanced_inlineEdits tag children).level_edited, opened]
  case declaration =>
    intro content span b
    simp [writeNode_declaration]
  case text =>
    intro content span b
    rw [writeNode_text, writeText, ← edited_lineEdits]
    exact level_edited_of_keepsLevel (keepsLevel_lineEdits _) b
  case code =>
    intro block b
    rw [writeNode_code]
    split
    · unfold writeControl
      split
      · simp
      · dsimp only
        split <;> simp [hlevel, Buffer.dedent, Buffer.indent]
    · rw [← edited_codeEdits]
      exact (balanced_codeEdits env block).level_edited b
  case nil => intro previous b; rfl
  case cons =>
    intro node nodes hnode hnodes previous b
    rw [writeNodesAfter, hnodes, hnode]
    exact Edit.level_apply (.gap previous node) b

theorem level_writeBody (env : Surroundings) (blocks : Nat) (inner : List Char) (b : Buffer) :
    (writeBody env blocks inner b).level = b.level := by
  induction blocks generalizing inner b with
  | zero => exact (level_writeNodesAfter fun _ _ => rfl).2 _ _ b
  | succ blocks ih => exact (level_writeNodesAfter ih).2 _ _ b

section Steps

variable {env : Surroundings}

theorem reaches_edits (edits : List Edit) (tasks : List Task) (b : Buffer) :
    Reaches env ⟨edits.map .edit ++ tasks, b⟩ ⟨tasks, edited edits b⟩ := by
  induction edits generalizing b with
  | nil => exact .refl
  | cons edit edits ih => exact .head rfl (ih (edit.apply b))

/-- Texts hold no blocks. -/
theorem reaches_texts {nodes : List Node} (h : ∀ node ∈ nodes, node.isText = true)
    (body : List Char → Buffer → Buffer) (path : List Node) (previous : Option Node)
    (tasks : List Task) (b : Buffer) :
    Reaches env ⟨.nodes path previous nodes :: tasks, b⟩
      ⟨tasks, writeNodesAfter env body previous nodes b⟩ := by
  induction nodes generalizing previous b with
  | nil => exact .single rfl
  | cons node nodes ih =>
    obtain ⟨hnode, hnodes⟩ := List.forall_mem_cons.1 h
    cases node with
    | text content span =>
      refine .head rfl (.head rfl (.head rfl (.trans ?_ (ih hnodes (some (.text content span)) _))))
      rw [writeNode_text, writeText, ← edited_lineEdits]
      exact reaches_edits (textEdits content) _ _
    | _ => simp [Node.isText] at hnode

variable {body : List Char → Buffer → Buffer} {floor : Nat}
  (hbody : ∀ path block inner tasks b, floor < b.level →
    Reaches env ⟨.body path block inner :: tasks, b⟩ ⟨tasks, body inner b⟩)
  (hlevel : ∀ inner b, (body inner b).level = b.level)

include hbody in
theorem reaches_control (path : List Node) (block : CodeBlock) (tasks : List Task) {b : Buffer}
    (hb : floor ≤ b.level) :
    Reaches env ⟨controlTasks path block ++ tasks, b⟩ ⟨tasks, writeControl body block b⟩ := by
  cases hparts : block.controlParts? with
  | none =>
    simp only [controlTasks, writeControl, hparts]
    exact .single rfl
  | some parts =>
    simp only [controlTasks, writeControl, hparts]
    refine .head rfl (.head rfl ?_)
    split
    · exact .single rfl
    · refine .head rfl (.trans (hbody _ _ _ _ _ ?_) (.head rfl (.single rfl)))
      simpa [Edit.apply, Buffer.indent] using Nat.lt_succ_of_le hb

include hbody hlevel in
/-- The steps for nodes end with the buffer that writing them gives. -/
theorem reaches_nodes :
    (∀ node path tasks b, floor ≤ b.level →
      Reaches env ⟨.node path node :: tasks, b⟩ ⟨tasks, writeNode env body node b⟩) ∧
    ∀ nodes path previous tasks b, floor ≤ b.level →
      Reaches env ⟨.nodes path previous nodes :: tasks, b⟩
        ⟨tasks, writeNodesAfter env body previous nodes b⟩ := by
  apply Node.induction
  case selfClosing =>
    intro tag path tasks b _
    rw [writeNode_selfClosing, ← edited_selfClosingEdits]
    exact .head rfl (reaches_edits _ tasks b)
  case element =>
    intro tag children ih path tasks b hb
    refine .head rfl ?_
    cases hembedded : embeddedBody? env.settings tag children with
    | some embedded =>
      simp only [nodeTasks, writeNode_element, hembedded, ← edited_embeddedEdits]
      exact reaches_edits _ tasks b
    | none =>
      simp only [nodeTasks, writeNode_element, hembedded, writeOpenTag_eq, List.append_assoc]
      refine .trans (reaches_edits _ _ b) ?_
      split
      · refine .head rfl (.head rfl (.trans (ih _ _ _ _ ?_) (.head rfl (.single rfl))))
        simp only [Edit.apply, Buffer.indent, Buffer.level_finishLine,
          (balanced_openTagEdits env.settings tag).level_edited b]
        omega
      · rw [← edited_inlineEdits]
        exact reaches_edits _ tasks _
  case declaration =>
    intro content span path tasks b _
    exact .head rfl (.head rfl (.single rfl))
  case text =>
    intro content span path tasks b _
    rw [writeNode_text, writeText, ← edited_lineEdits]
    exact .head rfl (reaches_edits _ tasks b)
  case code =>
    intro block path tasks b hb
    rw [writeNode_code]
    refine .head rfl ?_
    rw [nodeTasks]
    split
    · exact reaches_control hbody path block tasks hb
    · rw [← edited_codeEdits]
      exact reaches_edits _ tasks b
  case nil =>
    intro path previous tasks b _
    exact .single rfl
  case cons =>
    intro node nodes hnode hnodes path previous tasks b hb
    have gap : (writeGap previous node b).level = b.level := Edit.level_apply (.gap previous node) b
    have written := (@level_writeNodesAfter env body hlevel).1 node (writeGap previous node b)
    rw [writeNodesAfter]
    refine .head rfl (.head rfl (.trans (hnode path _ _ ?_) (hnodes path _ tasks _ ?_)))
    · exact hb.trans gap.ge
    · exact hb.trans (written.trans gap).ge

end Steps

/-- The steps for the body of a block end when there are enough levels of blocks left to reach the
bodies that are too deep. -/
theorem reaches_body {env : Surroundings} {blocks : Nat} (path : List Node) (block : CodeBlock)
    (inner : List Char) (tasks : List Task) (b : Buffer) (h : maxNesting < blocks + b.level) :
    Reaches env ⟨.body path block inner :: tasks, b⟩ ⟨tasks, writeBody env blocks inner b⟩ := by
  induction blocks generalizing path block inner tasks b with
  | zero =>
    refine .head rfl (reaches_texts (fun node hnode => ?_) _ _ none tasks b)
    rw [readNested, show maxNesting + 1 - b.level = 0 by omega] at hnode
    exact isText_of_mem_readContent_zero hnode
  | succ blocks ih =>
    have deeper : ∀ path block inner tasks b', b.level < b'.level →
        Reaches env ⟨.body path block inner :: tasks, b'⟩ ⟨tasks, writeBody env blocks inner b'⟩ :=
      fun path block inner tasks b' hb' => ih path block inner tasks b' (by omega)
    exact .head rfl ((reaches_nodes deeper (level_writeBody env blocks)).2 _ _ none tasks b le_rfl)

/-- The steps for nodes end with the buffer that writing them gives, wherever they begin. -/
theorem reaches_write_from (env : Surroundings) (nodes : List Node) (b : Buffer) :
    Reaches env ⟨[.nodes [] none nodes], b⟩ ⟨[], write env nodes b⟩ := by
  have bodies : ∀ path block inner tasks b, 0 < b.level →
      Reaches env ⟨.body path block inner :: tasks, b⟩
        ⟨tasks, writeBody env maxNesting inner b⟩ :=
    fun path block inner tasks b hb => reaches_body path block inner tasks b (by omega)
  exact (reaches_nodes bodies (level_writeBody env maxNesting)).2 nodes [] none [] b
    (Nat.zero_le _)

/-- The steps for the nodes of a template end with the buffer that writing them gives. -/
theorem reaches_write (env : Surroundings) (settings : Settings) (nodes : List Node) :
    Reaches env (Writing.start settings nodes) ⟨[], write env nodes (Buffer.new settings)⟩ :=
  reaches_write_from env nodes (Buffer.new settings)

end RazorLayout.Layout

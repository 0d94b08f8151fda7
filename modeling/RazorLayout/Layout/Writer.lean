import RazorLayout.Layout.Attributes
import RazorLayout.Layout.Inline
import RazorLayout.Layout.Rule
import RazorLayout.Layout.Snippet
import RazorLayout.Template.Reader

/-!
# Writing nodes

The nodes of a template are written into a buffer one after the other. The body of a block is
read when the block is written, at the depth that the buffer has reached; since bodies that are
too deep are literal text, reading and writing end.

## Main definitions

* `Layout.Surroundings`: what stays the same while nodes are written
* `Layout.writeNode`, `Layout.writeNodes`: nodes of any kind, each by its rule
* `Layout.writeBody`: the body of a block
* `Layout.write`: a list of nodes, with the bodies of its blocks
-/

namespace RazorLayout.Layout

open Text

/-- What stays the same while nodes are written. -/
structure Surroundings where
  settings : Settings
  indenter : Indenter

/-- Each line of a text that is not blank is a trimmed line of its own. -/
def writeText (content : List Char) (b : Buffer) : Buffer :=
  b.writeLines (((lines content).map trim).filter fun l => !l.isEmpty)

/-- The lines of embedded code, one level deeper. -/
def writeSnippet (env : Surroundings) (language : Code.Language) (body : List Char)
    (b : Buffer) : Buffer :=
  (b.indent.writeLines (snippetLines env.settings env.indenter language body)).dedent

/-- A header on one line: its lines are joined up to the first one that closes the condition. -/
def headerLine (header : List Char) : List Char :=
  let ls := ((lines header).map trim).filter fun l => !l.isEmpty
  let leading := ls.takeWhile fun l => l.getLast? != some ')'
  joinWith [' '] (ls.take (leading.length + 1))

/-- Embedded code that is no block: an expression goes on with the pending line, everything else
takes lines of its own. A code section is set off by an empty line. -/
def writeCode (env : Surroundings) (block : CodeBlock) (b : Buffer) : Buffer :=
  match block.kind with
  | .expression => b.write ('@' :: block.code)
  | .inlineBlock =>
    (writeSnippet env .csharp block.code (b.writeLine ['@', '{'])).writeLine ['}']
  | _ =>
    if block.isSection then
      let b := if b.isEmpty then b else b.writeLine []
      let b := (b.writeLine "@code".toList).writeLine ['{']
      (writeSnippet env .csharp (block.code.drop CodeBlock.sectionWord.length) b).writeLine ['}']
    else b.writeLine ('@' :: block.code)

/-- A block: its header, and its body in braces one level deeper. Only the first block of a chain
has the mark `@`. -/
def writeControl (body : List Char → Buffer → Buffer) (block : CodeBlock) (b : Buffer) :
    Buffer :=
  match block.controlParts? with
  | none => b.writeLine ('@' :: block.code)
  | some (header, inner) =>
    let mark := if block.kind = .ifBlock || block.kind = .foreachBlock then ['@'] else []
    let b := (b.writeLine (mark ++ headerLine header)).writeLine ['{']
    let b := if allBlank inner then b else (body inner b.indent).dedent
    b.writeLine ['}']

/-- `<tag …>`, and whether the content has to stand on lines of its own because of the
attributes. -/
def writeOpenTag (settings : Settings) (tag : Tag) (b : Buffer) : Bool × Buffer :=
  let (multiline, b) := writeAttributes settings tag.attributes (b.write ('<' :: tag.name))
  let contentBreaks := settings.breakContent
    && (multiline || settings.contentBreakThreshold ≤ tag.attributes.length)
  let b := if multiline && !contentBreaks then b.finishLine else b
  (contentBreaks, b.write ['>'])

/-- `<tag … />` -/
def writeSelfClosing (settings : Settings) (tag : Tag) (b : Buffer) : Buffer :=
  ((writeAttributes settings tag.attributes (b.write ('<' :: tag.name))).2.write
    " />".toList).finishLine

/-- The code in an element whose content is code that is to be indented. -/
def embeddedBody? (settings : Settings) (tag : Tag) (children : List Node) :
    Option (Code.Language × List Char) :=
  match Template.embeddedLanguage? tag.name, children with
  | some language, [.text content _] =>
    if settings.formats language then some (language, content) else none
  | _, _ => none

/-- An element whose content is code that is to be indented. -/
def writeEmbedded (env : Surroundings) (tag : Tag) (language : Code.Language)
    (body : List Char) (b : Buffer) : Buffer :=
  let b := (writeOpenTag env.settings tag b).2.finishLine
  (writeSnippet env language body b).writeLine (Template.tagCloser tag.name)

/-- Content that fits on a line: nothing, one text or expression on the line of the tags, or
several of them on a line between the tags. Content that is not markup keeps its lines. -/
def writeInline (tag : Tag) (children : List Node) (b : Buffer) : Buffer :=
  let b :=
    match children with
    | [] => b
    | [.text content span] =>
      if Template.isRawText tag.name then b.write (trim content)
      else b.write (inlinePart (.text content span))
    | [only] => b.write (inlinePart only)
    | _ => (b.finishLine.indent.writeLine (joinInline children)).dedent
  (b.write (Template.tagCloser tag.name)).finishLine

/-- A space in front of a node that goes on with the pending line, when the source has blanks
between it and its neighbour. -/
def writeGap (previous : Option Node) (node : Node) (b : Buffer) : Buffer :=
  if (node.isMarkup || node.isExpression) && !b.pending.isEmpty
      && previous.any (separated · node) then
    b.write [' ']
  else b

mutual

/-- Writes one node by its rule, or line by line when it has none; `body` writes the bodies of
blocks. -/
def writeNode (env : Surroundings) (body : List Char → Buffer → Buffer) (node : Node)
    (b : Buffer) : Buffer :=
  match Rule.of? node, node with
  | some .element, .declaration content _ => (b.write content).finishLine
  | some .element, .selfClosing tag => writeSelfClosing env.settings tag b
  | some .element, .element tag children =>
    match embeddedBody? env.settings tag children with
    | some (language, inner) => writeEmbedded env tag language inner b
    | none =>
      let (contentBreaks, b) := writeOpenTag env.settings tag b
      if !children.isEmpty && (children.any Node.isBlock || contentBreaks) then
        (writeNodesAfter env body none children b.finishLine.indent).dedent.writeLine
          (Template.tagCloser tag.name)
      else writeInline tag children b
  | some .controlFlow, .code block | some .loop, .code block => writeControl body block b
  | some .embeddedCode, .code block => writeCode env block b
  | none, .text content _ => writeText content b
  -- a rule is never found for a node that it cannot write
  | _, _ => b

/-- Writes the nodes behind `previous`, one after the other. -/
def writeNodesAfter (env : Surroundings) (body : List Char → Buffer → Buffer) :
    Option Node → List Node → Buffer → Buffer
  | _, [], b => b
  | previous, node :: nodes, b =>
    writeNodesAfter env body (some node) nodes
      (writeNode env body node (writeGap previous node b))

end

section Rules

variable (env : Surroundings) (body : List Char → Buffer → Buffer)

@[simp] theorem writeNode_text (content : List Char) (span : Span) (b : Buffer) :
    writeNode env body (.text content span) b = writeText content b := by
  have rule : Rule.of? (.text content span) = none := Rule.of?_eq_none_iff.2 ⟨content, span, rfl⟩
  unfold writeNode
  rw [rule]

@[simp] theorem writeNode_declaration (content : List Char) (span : Span) (b : Buffer) :
    writeNode env body (.declaration content span) b = (b.write content).finishLine := by
  have rule : Rule.of? (.declaration content span) = some .element := Rule.of?_eq_some_iff.2 rfl
  unfold writeNode
  rw [rule]

@[simp] theorem writeNode_selfClosing (tag : Tag) (b : Buffer) :
    writeNode env body (.selfClosing tag) b = writeSelfClosing env.settings tag b := by
  have rule : Rule.of? (.selfClosing tag) = some .element := Rule.of?_eq_some_iff.2 rfl
  unfold writeNode
  rw [rule]

theorem writeNode_element (tag : Tag) (children : List Node) (b : Buffer) :
    writeNode env body (.element tag children) b =
      match embeddedBody? env.settings tag children with
      | some (language, inner) => writeEmbedded env tag language inner b
      | none =>
        let (contentBreaks, b) := writeOpenTag env.settings tag b
        if !children.isEmpty && (children.any Node.isBlock || contentBreaks) then
          (writeNodesAfter env body none children b.finishLine.indent).dedent.writeLine
            (Template.tagCloser tag.name)
        else writeInline tag children b := by
  have rule : Rule.of? (.element tag children) = some .element := Rule.of?_eq_some_iff.2 rfl
  unfold writeNode
  rw [rule]

/-- The rules for code tell blocks from other code. -/
theorem writeNode_code (block : CodeBlock) (b : Buffer) :
    writeNode env body (.code block) b
      = if block.kind.isControl then writeControl body block b else writeCode env block b := by
  obtain ⟨kind, code, span⟩ := block
  cases kind <;> rfl

end Rules

/-- Writes nodes one after the other; `body` writes the bodies of blocks. -/
def writeNodes (env : Surroundings) (body : List Char → Buffer → Buffer) (nodes : List Node)
    (b : Buffer) : Buffer :=
  writeNodesAfter env body none nodes b

/-- Reads the body of a block at the level of the buffer and writes its nodes. Inside of it,
`blocks` more levels of blocks are read; below them the body is literal text, because it is
too deep. -/
def writeBody (env : Surroundings) : (blocks : Nat) → List Char → Buffer → Buffer
  | 0, inner, b => writeNodes env (fun _ b => b) (Template.readNested b.level 0 inner) b
  | blocks + 1, inner, b =>
    writeNodes env (writeBody env blocks) (Template.readNested b.level 0 inner) b

/-- Writes nodes and the bodies of their blocks. -/
def write (env : Surroundings) (nodes : List Node) (b : Buffer) : Buffer :=
  writeNodes env (writeBody env Template.maxNesting) nodes b

end RazorLayout.Layout

import RazorLayout.Text.Blank
import RazorLayout.Text.Case
import RazorLayout.Text.Reading

/-!
# The parts of a template

A template is a list of nodes: elements, declarations, literal text and embedded code. Every
node knows the range of bytes of the source that it was read from.

Blocks such as `@if (…) { … }` hold no nodes of their own. Their code is the header, a line
with the opening brace, the body as written, and a line with the closing brace; the body is
read again when the block is laid out.

## Main definitions

* `Span`, `Attribute`, `Tag`: what nodes are made of
* `CodeKind`, `CodeBlock`: embedded code
* `CodeBlock.control`, `CodeBlock.controlParts?`: header and body of a block, put together and
  taken apart
* `Node`: one part of a template
* `Node.mergeTexts`: literal text without blank pieces, touching pieces joined
-/

namespace RazorLayout

/-- A range of bytes of the source: from `start` up to `stop`, which is not part of it. -/
structure Span where
  start : Nat
  stop : Nat
  deriving Repr, DecidableEq, Inhabited

/-- An attribute of a tag, with its value if it has one. -/
structure Attribute where
  name : List Char
  value : Option (List Char) := none
  deriving Repr, DecidableEq

/-- Attributes such as `@onclick` belong to the template language. -/
def Attribute.isDirective (a : Attribute) : Bool := a.name.head? = some '@'

/-- The opening of an element. -/
structure Tag where
  name : List Char
  attributes : List Attribute := []
  /-- The bytes of the whole element. -/
  span : Span
  deriving Repr, DecidableEq

/-- The categories of embedded code. -/
inductive CodeKind where
  /-- `@name`, `@item.Title`, `@(a + b)` -/
  | expression
  /-- a comment `@* … *@` -/
  | statement
  /-- `@page "/x"`, or the section `@code { … }` -/
  | directive
  /-- `@{ … }` -/
  | inlineBlock
  | ifBlock
  | foreachBlock
  | elseBlock
  | elseIfBlock
  deriving Repr, DecidableEq

/-- Blocks with a header and a body that holds markup. -/
def CodeKind.isControl : CodeKind → Bool
  | .ifBlock | .foreachBlock | .elseBlock | .elseIfBlock => true
  | _ => false

/-- Embedded code, without the `@` in front of it. -/
structure CodeBlock where
  kind : CodeKind
  code : List Char
  span : Span
  deriving Repr, DecidableEq

namespace CodeBlock

/-- The line break, opening brace and line break between header and body. -/
def bodyOpening : List Char := "\n\x7b\n".toList

/-- The line break and closing brace behind the body. -/
def bodyClosing : List Char := "\n\x7d".toList

/-- The word in front of the body of a code section. -/
def sectionWord : List Char := "code ".toList

/-- A block of the given header and body. -/
def control (kind : CodeKind) (header body : List Char) (span : Span) : CodeBlock :=
  ⟨kind, header ++ bodyOpening ++ body ++ bodyClosing, span⟩

/-- Header and body of a block; `none` for other code, and for a block whose code lacks the brace
lines. -/
def controlParts? (b : CodeBlock) : Option (List Char × List Char) :=
  if b.kind.isControl then
    match Text.find? bodyOpening b.code with
    | none => none
    | some n =>
      let rest := b.code.drop (n + bodyOpening.length)
      if bodyClosing.isSuffixOf rest then
        some (b.code.take n, rest.take (rest.length - bodyClosing.length))
      else none
  else none

/-- The section `@code { … }`, as opposed to a directive of one line. -/
def isSection (b : CodeBlock) : Bool :=
  b.kind = .directive && sectionWord.isPrefixOf b.code

end CodeBlock

/-- One part of a template. -/
inductive Node where
  /-- `<tag … />`, or a tag that never has content -/
  | selfClosing (tag : Tag)
  /-- `<tag …> … </tag>` -/
  | element (tag : Tag) (children : List Node)
  /-- `<!DOCTYPE …>` and the like, kept whole -/
  | declaration (content : List Char) (span : Span)
  /-- literal text -/
  | text (content : List Char) (span : Span)
  /-- embedded code -/
  | code (block : CodeBlock)
  deriving Repr, Inhabited

namespace Node

def span : Node → Span
  | selfClosing tag => tag.span
  | element tag _ => tag.span
  | declaration _ span => span
  | text _ span => span
  | code block => block.span

/-- Embedded code that stands inside a line of text. -/
def isExpression : Node → Bool
  | code block => block.kind = .expression
  | _ => false

/-- Text and expressions flow within a line. -/
def isInline : Node → Bool
  | text _ _ => true
  | node => node.isExpression

/-- Elements and other code need lines of their own. -/
def isBlock (node : Node) : Bool := !node.isInline

/-- Elements, with content or without, and declarations. -/
def isMarkup : Node → Bool
  | selfClosing _ | element _ _ | declaration _ _ => true
  | _ => false

/-- An element without content whose name may be that of a declaration. -/
def closed (name : List Char) (attributes : List Attribute) (span : Span) : Node :=
  if ['<', '!'].isPrefixOf name then declaration name span
  else selfClosing ⟨name, attributes, span⟩

/-- Puts a node in front of nodes that are merged already. Blank text is dropped, and text that
ends where the next text begins becomes one with it. -/
def mergeOnto (node : Node) (nodes : List Node) : List Node :=
  match node with
  | text content span =>
    if Text.allBlank content then nodes
    else
      match nodes with
      | text next nextSpan :: rest =>
        if span.stop = nextSpan.start then
          text (content ++ next) ⟨span.start, nextSpan.stop⟩ :: rest
        else node :: nodes
      | _ => node :: nodes
  | _ => node :: nodes

/-- The nodes without blank text, and with touching texts joined. -/
def mergeTexts (nodes : List Node) : List Node := nodes.foldr mergeOnto []

end Node

/-- A template: its source and the nodes read from it. -/
structure Document where
  source : List Char
  nodes : List Node
  deriving Repr

end RazorLayout

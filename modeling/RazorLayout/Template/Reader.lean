import RazorLayout.Template.Control
import RazorLayout.Template.Directive
import RazorLayout.Template.Element

/-!
# Reading templates

A template is read from its head to its end. Every construct that is recognised becomes a node;
everything else, an `@` or a `<` that begins nothing included, is literal text, so reading never
fails. Content that is nested too deeply is literal text as well.

## Main definitions

* `Template.readRazor?`: the construct that an `@` begins
* `Template.readContent`: markup and constructs
* `Template.readDocument`: a whole template, with its code sections
-/

namespace RazorLayout.Template

open Text Code

/-- Content below this many elements and blocks is literal text. -/
def maxNesting : Nat := 100

/-- The node of embedded code that takes the first `length` characters of the text. -/
def codeNode (kind : CodeKind) (code : List Char) (pos length : Nat) (s : List Char) : Node :=
  .code ⟨kind, code, ⟨pos, pos + byteLength (s.take length)⟩⟩

/-- How far an expression reaches on from its name: members, arguments and indices. -/
def expressionTail (length : Nat) (s : List Char) : Option (Nat × Nat) :=
  match Opening.member.length? s with
  | some n => some (length + n, n)
  | none =>
    let closer? :=
      match s with
      | '(' :: _ => Bracket.paren.matchCode? s
      | '[' :: _ => Bracket.square.matchCode? s
      | _ => none
    closer?.map fun n => (length + n + 1, n + 1)

/-- `@name` with everything that belongs to the expression. -/
def readExpression? (pos : Nat) (s : List Char) : Option (List Node × Nat) :=
  (Opening.expression.length? s).map fun n =>
    let (length, _) := advance expressionTail 0 n (s.drop n)
    ([codeNode .expression ((s.take length).drop 1) pos length s], length)

/-- A comment `@* … *@`. -/
def readTemplateComment? (pos : Nat) (s : List Char) : Option (List Node × Nat) :=
  (find? "*@".toList (s.drop 2)).map fun n =>
    let length := n + 4
    ([codeNode .statement ((s.take length).drop 1) pos length s], length)

/-- A directive of one line. -/
def readDirective? (pos : Nat) (s : List Char) : Option (List Node × Nat) :=
  (Directive.read? s).map fun d => ([codeNode .directive d.code pos d.length s], d.length)

/-- `@{ … }` -/
def readInlineBlock? (pos : Nat) (s : List Char) : Option (List Node × Nat) := do
  let _ ← Opening.inlineBlock.length? s
  let n ← Bracket.brace.matchCode? (s.drop 1)
  let length := n + 2
  return ([codeNode .inlineBlock ((s.take (n + 1)).drop 2) pos length s], length)

/-- `@( … )` -/
def readParenthesised? (pos : Nat) (s : List Char) : Option (List Node × Nat) :=
  (Bracket.paren.matchCode? (s.drop 1)).map fun n =>
    let length := n + 2
    ([codeNode .expression ((s.take length).drop 1) pos length s], length)

/-- The construct that the `@` at the head of a text begins, and the number of characters it
takes. Directly behind a letter or digit (`user@example.com`) there is none, unless an
expression ends there. -/
def readRazor? (pos : Nat) (previous : Option Char) (afterExpression : Bool) (s : List Char) :
    Option (List Node × Nat) :=
  match s with
  | '@' :: '@' :: _ => some ([.text ['@', '@'] ⟨pos, pos + 2⟩], 2)
  | '@' :: '*' :: _ => readTemplateComment? pos s
  | _ =>
    if !afterExpression && previous.any isLetterOrDigit then none
    else
      readDirective? pos s
      <|> readIfChain? pos s
      <|> readForeach? pos s
      <|> readInlineBlock? pos s
      <|> match s with
        | '@' :: '(' :: _ => readParenthesised? pos s
        | _ => readExpression? pos s

/-- Content that is being read. -/
structure Progress where
  /-- Number of bytes of the source before the rest. -/
  pos : Nat
  /-- The character before the rest. -/
  previous : Option Char := none
  /-- Whether an expression ends right before the rest. -/
  afterExpression : Bool := false
  /-- The nodes so far, the last one first; literal text is in pieces. -/
  nodes : List Node := []

/-- The content behind the first `n` characters of `s`, which are the given nodes. -/
def Progress.push (p : Progress) (nodes : List Node) (n : Nat) (s : List Char) : Progress where
  pos := p.pos + byteLength (s.take n)
  previous := (s.take n).getLast?
  afterExpression := nodes.any Node.isExpression
  nodes := nodes.reverse ++ p.nodes

/-- The first `n` characters of the rest as literal text. -/
def literal (pos n : Nat) (s : List Char) : Node :=
  .text (s.take n) ⟨pos, pos + byteLength (s.take n)⟩

/-- Whether a construct may begin here. -/
def mayBegin : List Char → Bool
  | '@' :: _ | '<' :: _ => true
  | _ => false

/-- One step through content: a construct, the text up to the next one, or one character that
begins none. -/
def contentStep (children : Nat → List Char → List Node) (p : Progress) (s : List Char) :
    Option (Progress × Nat) :=
  let (nodes, n) :=
    match s with
    | '@' :: _ =>
      (readRazor? p.pos p.previous p.afterExpression s).getD ([literal p.pos 1 s], 1)
    | '<' :: _ =>
      match readMarkup? children p.pos s with
      | some (node, n) => ([node], n)
      | none => ([literal p.pos 1 s], 1)
    | _ =>
      let n := countUntil mayBegin s
      ([literal p.pos n s], n)
  some (p.push nodes n s, n)

/-- The nodes of content that may hold `levels` levels of nested content. The text stands behind
`pos` bytes of the source. -/
def readContent : (levels pos : Nat) → List Char → List Node
  | 0, pos, s => Node.mergeTexts [literal pos s.length s]
  | levels + 1, pos, s =>
    let (p, _) := advance (contentStep (readContent levels)) 0 { pos } s
    Node.mergeTexts p.nodes.reverse

/-- The nodes of content that itself stands `depth` levels deep. -/
def readNested (depth pos : Nat) (s : List Char) : List Node :=
  readContent (maxNesting + 1 - depth) pos s

/-- A document that is being read: the nodes so far and the number of bytes read. -/
structure Sections where
  pos : Nat := 0
  nodes : List Node := []

/-- The content before the next code section, and the section itself. -/
def sectionStep (st : Sections) (s : List Char) : Option (Sections × Nat) := do
  let (before, openingLength) ← Opening.codeSection.find? s
  let n ← Bracket.brace.matchCode? (s.drop (before + openingLength - 1))
  let length := before + openingLength + n
  let body := (s.take (length - 1)).drop (before + openingLength)
  let start := st.pos + byteLength (s.take before)
  let stop := st.pos + byteLength (s.take length)
  let node : Node := .code ⟨.directive, CodeBlock.sectionWord ++ trim body, ⟨start, stop⟩⟩
  return (⟨stop, st.nodes ++ readNested 0 st.pos (s.take before) ++ [node]⟩, length)

/-- The nodes of a whole template: its code sections, and the content between them. -/
def readDocument (s : List Char) : List Node :=
  let (st, rest) := advance sectionStep 0 {} s
  st.nodes ++ readNested 0 st.pos rest

/-- A template with its nodes. -/
def parse (s : List Char) : Document := ⟨s, readDocument s⟩

end RazorLayout.Template

import RazorLayout.Proofs.Source.Slice
import RazorLayout.Template.Reader

/-!
# Reading templates by places

The scanner of templates, told in places. It is given a text and the place of a construct, it looks
for the ends of the construct, and it cuts the text where it needs a piece. Every cut is a `slice`,
every repetition a `loop` and every counter is taken down by `countDown`, so that an answer says
that no cut was wrong, that every loop has moved forward, and that no counter went below zero.

The readers of `Template.readDocument` find the same constructs with numbers of characters, on the
rest of the text alone. Places stay where the text is cut: what is found in a piece is counted from
the beginning of the piece, and `base` is the place of the text in the source.

## Main definitions

* `scanCloser`, `scanClosingTag`: the ends of brackets and elements
* `scanAttribute`, `scanMarkup`: attributes and markup
* `scanExpression`, `scanBlock`, `scanIfChain`, `scanRazor`: the constructs that an `@` begins
* `scanContent`, `scanNested`, `scanDocument`: whole texts
-/

namespace RazorLayout.Template

open Text Code

/-! ### Places in a piece -/

/-- The place in a piece at which a word occurs first. -/
def findPlace? (word s : List Char) : Option Nat :=
  (find? word s).map fun n => byteLength (s.take n)

/-- The place in a piece at which an opening at its head ends. -/
def Opening.stop? (o : Opening) (s : List Char) : Option Nat :=
  (o.length? s).map fun n => byteLength (s.take n)

/-- The number of bytes of the characters at the head of a piece that satisfy `p`. -/
def headBytes (p : Char → Bool) (s : List Char) : Nat := byteLength (s.takeWhile p)

/-- The place behind the blanks that stand at a place. -/
def skipBlanks (t : List Char) (place : Nat) : Checked Nat := do
  let rest ← sliceFrom t place
  return place + (byteLength rest - byteLength (trimStart rest))

/-- A counter that is taken down by one. -/
def countDown : Nat → Checked Nat
  | 0 => .error .belowZero
  | n + 1 => .ok n

/-- The place of the closer that a search finds from the place of the opener on. -/
def scanCloser (find : List Char → Option Nat) (t : List Char) (place : Nat) :
    Checked (Option Nat) := do
  let rest ← sliceFrom t place
  return (find rest).map fun n => place + byteLength (rest.take n)

/-! ### Closing tags -/

/-- Whether the tag name that ends at a place is whole. -/
def scanNameEnd (t : List Char) (place : Nat) : Checked Bool := do
  let rest ← sliceFrom t place
  return endsTagName rest

/-- Whether a slash stands in front of the next `>` behind a place. -/
def scanClosesItself (t : List Char) (place : Nat) : Checked Bool := do
  let rest ← sliceFrom t place
  match findPlace? ['>'] rest with
  | none => return false
  | some n =>
    let before ← sliceTo t (place + n)
    return before.getLast? == some '/'

/-- Whether the tag whose name ends at a place needs a closing tag. -/
def scanOpensNested (t : List Char) (place : Nat) : Checked Bool := do
  if ← scanNameEnd t place then return !(← scanClosesItself t place)
  else return false

/-- A search for a closing tag. -/
structure TagSearch where
  /-- Where the search goes on. -/
  place : Nat
  /-- The next closing tag of the name. -/
  close : Nat
  /-- Number of elements of the name that are open, the one that is looked for included. -/
  depth : Nat

/-- A tag of the name in front of the next closing tag, or else that closing tag. -/
def tagSearchRound (t tag : List Char) (st : TagSearch) :
    Checked (Round TagSearch (Option Nat)) := do
  let between ← slice t st.place st.close
  match findPlace? (tagOpener tag) between with
  | some n =>
    let behind := st.place + n + byteLength (tagOpener tag)
    let nested ← scanOpensNested t behind
    return .again ⟨behind, st.close, st.depth + if nested then 1 else 0⟩
  | none =>
    let depth ← countDown st.depth
    if depth = 0 then return .done (some st.close)
    else
      let behind := st.close + byteLength (tagCloser tag)
      let rest ← sliceFrom t behind
      match findPlace? (tagCloser tag) rest with
      | none => return .done none
      | some n => return .again ⟨behind, behind + n, depth⟩

/-- The place of the closing tag of an element whose content begins at a place. -/
def scanClosingTag (t tag : List Char) (place : Nat) : Checked (Option Nat) := do
  let rest ← sliceFrom t place
  match findPlace? (tagCloser tag) rest with
  | none => return none
  | some n => loop (byteLength t) TagSearch.place (tagSearchRound t tag) ⟨place, place + n, 1⟩

/-! ### Attributes -/

/-- Where a value without quotes ends. The characters `s` stand at a place of the value. -/
def scanUnquoted (value : List Char) : (place : Nat) → List Char → Checked Nat
  | _, [] => return byteLength value
  | place, c :: s =>
    if isBlank c || c == '>' then return place
    else if c == '/' then do
      let behind ← sliceFrom value (place + 1)
      if behind.head? == some '>' then return place
      else scanUnquoted value (place + c.utf8Size) s
    else scanUnquoted value (place + c.utf8Size) s

/-- The value at the head of a piece, and the place behind it. -/
def scanValue (value : List Char) : Checked (Option (List Char × Nat)) := do
  let quoted := value.head?.filter fun c => c == '"' || c == '\''
  match quoted with
  | some quote =>
    let behind ← sliceFrom value 1
    match findPlace? [quote] behind with
    | none => return none
    | some n =>
      let inner ← slice value 1 (n + 1)
      return some (inner, n + 2)
  | none =>
    let stop ← scanUnquoted value 0 value
    let inner ← sliceTo value stop
    return some (inner, stop)

/-- The attribute at a place, and the place behind it. -/
def scanAttribute (t : List Char) (place : Nat) : Checked (Option (Attribute × Nat)) := do
  let rest ← sliceFrom t place
  let length := headBytes isAttributeNameChar rest
  if length = 0 then return none
  else
    let name ← sliceTo rest length
    let sign ← skipBlanks t (place + length)
    let behind ← sliceFrom t sign
    if behind.head? == some '=' then
      let start ← skipBlanks t (sign + 1)
      let value ← sliceFrom t start
      return (← scanValue value).map fun (value, n) => (⟨name, some value⟩, start + n)
    else return some (⟨name, none⟩, place + length)

/-- Attributes of a tag that is being read. -/
structure TagProgress where
  place : Nat
  /-- The attributes so far, the last one first. -/
  attributes : List Attribute

/-- A tag that has been read to its end. -/
structure OpenTag where
  attributes : List Attribute
  /-- The place behind the tag. -/
  stop : Nat
  closed : Bool

/-- One more attribute, or the end of the tag, behind any number of blanks. A character that belongs
to no attribute is left out. -/
def tagRound (t : List Char) (st : TagProgress) : Checked (Round TagProgress (Option OpenTag)) := do
  let place ← skipBlanks t st.place
  let rest ← sliceFrom t place
  match rest with
  | [] => return .done none
  | '>' :: _ => return .done (some ⟨st.attributes.reverse, place + 1, false⟩)
  | '/' :: '>' :: _ => return .done (some ⟨st.attributes.reverse, place + 2, true⟩)
  | c :: _ =>
    match ← scanAttribute t place with
    | some (a, stop) => return .again ⟨stop, a :: st.attributes⟩
    | none => return .again ⟨place + c.utf8Size, st.attributes⟩

/-! ### Markup -/

/-- Puts a node behind nodes that are merged already, the last one first. Blank text is dropped, and
text that begins where the text before it ends becomes one with it. -/
def pushNode (nodes : List Node) (node : Node) : List Node :=
  match node with
  | .text content span =>
    if allBlank content then nodes
    else
      match nodes with
      | .text before beforeSpan :: rest =>
        if beforeSpan.stop = span.start then
          .text (before ++ content) ⟨beforeSpan.start, span.stop⟩ :: rest
        else node :: nodes
      | _ => node :: nodes
  | _ => node :: nodes

section Markup

variable (children : Nat → List Char → Checked (List Node)) (t : List Char) (base : Nat)

/-- The content of an element, which stands between two places. -/
def scanChildren (name : List Char) (start stop : Nat) : Checked (List Node) := do
  let inner ← slice t start stop
  if isRawText name then return pushNode [] (.text inner ⟨base + start, base + stop⟩)
  else children (base + start) inner

/-- The element whose `<` stands at the place `lt` and whose name stands at the place `start`, and
the place behind it. -/
def scanElement (lt start : Nat) : Checked (Option (Node × Nat)) := do
  let rest ← sliceFrom t start
  let name ← sliceTo rest (headBytes isTagNameChar rest)
  let tag? ← loop (byteLength t) TagProgress.place (tagRound t)
    ⟨start + headBytes isTagNameChar rest, []⟩
  match tag? with
  | none => return none
  | some tag =>
    if tag.closed || isVoid name then
      return some (.selfClosing ⟨name, tag.attributes, ⟨base + lt, base + tag.stop⟩⟩, tag.stop)
    else
      match ← scanClosingTag t name tag.stop with
      | none => return none
      | some close =>
        let stop := close + byteLength name + 3
        let nodes ← scanChildren children t base name tag.stop close
        return some (.element ⟨name, tag.attributes, ⟨base + lt, base + stop⟩⟩ nodes, stop)

/-- The markup whose `<` stands at a place, and the place behind it. -/
def scanMarkup (lt : Nat) : Checked (Option (Node × Nat)) := do
  let start ← skipBlanks t (lt + 1)
  let rest ← sliceFrom t start
  match rest with
  | '!' :: '-' :: '-' :: _ =>
    match findPlace? "-->".toList rest with
    | none => return none
    | some n =>
      let stop := start + n + 3
      let content ← slice t lt stop
      return some (.text content ⟨base + lt, base + stop⟩, stop)
  | '!' :: _ =>
    match findPlace? ['>'] rest with
    | none => return none
    | some n =>
      let stop := start + n + 1
      let content ← slice t start stop
      return some (.declaration ('<' :: collapse content) ⟨base + lt, base + stop⟩, stop)
  | c :: _ => if isLetter c then scanElement children t base lt start else return none
  | [] => return none

end Markup

/-! ### Blocks -/

/-- `conditionLine`, where the line is cut at the place of its comment. -/
def scanConditionLine (line : List Char) : Checked (List Char) :=
  match (lineCommentStart? .csharp line).map fun n => byteLength (line.take n) with
  | none => return trim line
  | some start => do
    let code ← sliceTo line start
    let note ← sliceFrom line (start + 2)
    if (trim note).isEmpty || occurs "*/".toList (trim note) then return trim code
    else return trimStart (trim code ++ " /* ".toList ++ trim note ++ " */".toList)

section Constructs

variable (t : List Char)

/-- The condition whose parenthesis stands at a place, on one line, and the place of the closing
parenthesis. -/
def scanCondition (opening : Nat) : Checked (Option (List Char × Nat)) := do
  match ← scanCloser Bracket.paren.matchCode? t opening with
  | none => return none
  | some close =>
    let condition ← slice t (opening + 1) close
    let conditionLines ← (lines condition).mapM scanConditionLine
    return some (joinWith [' '] (conditionLines.filter fun line => !line.isEmpty), close)

/-- The body whose brace stands at a place, and the place behind it. -/
def scanBraces (opening : Nat) : Checked (Option (List Char × Nat)) := do
  match ← scanCloser Bracket.brace.matchPlain? t opening with
  | none => return none
  | some close =>
    let body ← slice t (opening + 1) close
    return some (body, close + 1)

/-- The body in braces behind the blanks that stand at a place, and the place behind it. -/
def scanBody (place : Nat) : Checked (Option (List Char × Nat)) := do
  let opening ← skipBlanks t place
  let rest ← sliceFrom t opening
  if rest.head? == some '{' then scanBraces t opening else return none

variable (base : Nat)

/-- The block with keyword `word` that begins at the place `start` and whose parenthesis stands at
the place `opening`, and the place behind it. -/
def scanBlock (kind : CodeKind) (word : List Char) (start opening : Nat) :
    Checked (Option (Node × Nat)) := do
  match ← scanCondition t opening with
  | none => return none
  | some (condition, close) =>
    return (← scanBody t (close + 1)).map fun (body, stop) =>
      (.code (.control kind (word ++ " (".toList ++ condition ++ [')']) body
        ⟨base + start, base + stop⟩), stop)

/-- A chain of branches that is being read. -/
structure ChainProgress where
  /-- The place behind the last branch. -/
  place : Nat
  /-- The branches, the last one first. -/
  branches : List Node

/-- One more branch, behind any number of blanks. Behind `else` there is none. -/
def chainRound (st : ChainProgress) : Checked (Round ChainProgress ChainProgress) := do
  let start ← skipBlanks t st.place
  let rest ← sliceFrom t start
  match Opening.elseIfBlock.stop? rest with
  | some n =>
    match ← scanBlock t base .elseIfBlock "else if".toList start (start + n - 1) with
    | none => return .done st
    | some (node, stop) => return .again ⟨stop, node :: st.branches⟩
  | none =>
    match Opening.elseBlock.stop? rest with
    | none => return .done st
    | some n =>
      match ← scanBraces t (start + n - 1) with
      | none => return .done st
      | some (body, stop) =>
        let node := .code (.control .elseBlock "else".toList body ⟨base + start, base + stop⟩)
        return .done ⟨stop, node :: st.branches⟩

/-- `@if (…) { … }` at a place where `rest` stands, with all branches that directly follow it. -/
def scanIfChain (start : Nat) (rest : List Char) : Checked (Option (List Node × Nat)) := do
  match Opening.ifBlock.stop? rest with
  | none => return none
  | some n =>
    match ← scanBlock t base .ifBlock "if".toList start (start + n - 1) with
    | none => return none
    | some (node, stop) =>
      let chain ← loop (byteLength t) ChainProgress.place (chainRound t base) ⟨stop, [node]⟩
      return some (chain.branches.reverse, chain.place)

/-- `@foreach (…) { … }` -/
def scanForeach (start : Nat) (rest : List Char) : Checked (Option (List Node × Nat)) := do
  match Opening.foreachBlock.stop? rest with
  | none => return none
  | some n =>
    let block ← scanBlock t base .foreachBlock "foreach".toList start (start + n - 1)
    return block.map fun (node, stop) => ([node], stop)

/-! ### Code of one line -/

/-- A node of code between two places. -/
def codeAt (kind : CodeKind) (code : List Char) (start stop : Nat) : Node :=
  .code ⟨kind, code, ⟨base + start, base + stop⟩⟩

/-- The closer of the arguments or of the index at the head of a piece. -/
def argumentsCloser? (s : List Char) : Option Nat :=
  match s with
  | '(' :: _ => Bracket.paren.matchCode? s
  | '[' :: _ => Bracket.square.matchCode? s
  | _ => none

/-- Members, arguments and indices, one after the other. -/
def expressionRound (stop : Nat) : Checked (Round Nat Nat) := do
  let rest ← sliceFrom t stop
  match Opening.member.stop? rest with
  | some n => return .again (stop + n)
  | none =>
    match ← scanCloser argumentsCloser? t stop with
    | some close => return .again (close + 1)
    | none => return .done stop

/-- `@name` with everything that belongs to the expression. -/
def scanExpression (start : Nat) : Checked (Option (List Node × Nat)) := do
  let rest ← sliceFrom t start
  match Opening.expression.stop? rest with
  | none => return none
  | some n =>
    let stop ← loop (byteLength t) id (expressionRound t) (start + n)
    let code ← slice t (start + 1) stop
    return some ([codeAt base .expression code start stop], stop)

/-- A comment `@* … *@`, of which `rest` stands behind the two marks at its head. -/
def scanTemplateComment (start : Nat) (rest : List Char) : Checked (Option (List Node × Nat)) :=
  match findPlace? "*@".toList rest with
  | none => return none
  | some n => do
    let stop := start + 2 + n + 2
    let code ← slice t (start + 1) stop
    return some ([codeAt base .statement code start stop], stop)

/-- `@{ … }` -/
def scanInlineBlock (start : Nat) (rest : List Char) : Checked (Option (List Node × Nat)) := do
  match Opening.inlineBlock.stop? rest with
  | none => return none
  | some _ =>
    match ← scanCloser Bracket.brace.matchCode? t (start + 1) with
    | none => return none
    | some close =>
      let code ← slice t (start + 2) close
      return some ([codeAt base .inlineBlock code start (close + 1)], close + 1)

/-- `@( … )` -/
def scanParenthesised (start : Nat) : Checked (Option (List Node × Nat)) := do
  match ← scanCloser Bracket.paren.matchCode? t (start + 1) with
  | none => return none
  | some close =>
    let code ← slice t (start + 1) (close + 1)
    return some ([codeAt base .expression code start (close + 1)], close + 1)

/-- `@( … )` or `@name`. -/
def scanOutput (start : Nat) (rest : List Char) : Checked (Option (List Node × Nat)) :=
  match rest with
  | '@' :: '(' :: _ => scanParenthesised t base start
  | _ => scanExpression t base start

/-- The first answer, or the second one when there is none. -/
def orElse {α : Type} (first second : Checked (Option α)) : Checked (Option α) := do
  match ← first with
  | some a => return some a
  | none => second

/-- Whether the `@` at a place stands directly behind a letter or digit. It does not count when an
expression ends there. -/
def scanBehindWord (afterExpression : Bool) (start : Nat) : Checked Bool :=
  if afterExpression then return false
  else do
    let before ← sliceTo t start
    return before.getLast?.any isLetterOrDigit

/-- The directive, block or expression at a place, where `rest` stands. -/
def scanCode (start : Nat) (rest : List Char) : Checked (Option (List Node × Nat)) :=
  match Directive.read? rest with
  | some d =>
    let stop := start + byteLength (rest.take d.length)
    return some ([codeAt base .directive d.code start stop], stop)
  | none =>
    orElse (scanIfChain t base start rest) <|
    orElse (scanForeach t base start rest) <|
    orElse (scanInlineBlock t base start rest) (scanOutput t base start rest)

/-- The construct that the `@` at a place begins, and the place behind it. -/
def scanRazor (afterExpression : Bool) (start : Nat) : Checked (Option (List Node × Nat)) := do
  let rest ← sliceFrom t start
  match rest with
  | '@' :: '@' :: _ =>
    return some ([.text ['@', '@'] ⟨base + start, base + start + 2⟩], start + 2)
  | '@' :: '*' :: inner => scanTemplateComment t base start inner
  | _ =>
    if ← scanBehindWord t afterExpression start then return none
    else scanCode t base start rest

end Constructs

/-! ### Content -/

/-- Content that is being read. -/
structure ContentProgress where
  place : Nat
  /-- The nodes so far, the last one first. -/
  nodes : List Node := []

/-- The place of the next `@` or `<` in a piece, and whether it is an `@`. -/
def nextBegin? (s : List Char) : Option (Nat × Bool) :=
  match findPlace? ['@'] s, findPlace? ['<'] s with
  | none, none => none
  | some atSign, none => some (atSign, true)
  | none, some lt => some (lt, false)
  | some atSign, some lt => if atSign < lt then some (atSign, true) else some (lt, false)

/-- Whether the last node is an expression that ends at a place of the source. -/
def endsWithExpression (nodes : List Node) (place : Nat) : Bool :=
  nodes.head?.any fun node => node.isExpression && node.span.stop == place

section Content

variable (children : Nat → List Char → Checked (List Node)) (t : List Char) (base : Nat)

/-- Puts the text between two places behind nodes. There may be none. -/
def scanText (nodes : List Node) (start stop : Nat) : Checked (List Node) :=
  if start < stop then do
    let content ← slice t start stop
    return pushNode nodes (.text content ⟨base + start, base + stop⟩)
  else return nodes

/-- What begins at an `@` or at a `<`, and the place behind it. -/
def scanConstruct (nodes : List Node) (isRazor : Bool) (place : Nat) :
    Checked (Option (List Node × Nat)) :=
  if isRazor then scanRazor t base (endsWithExpression nodes (base + place)) place
  else return (← scanMarkup children t base place).map fun (node, stop) => ([node], stop)

/-- The text up to the next construct, and the construct. A character that begins none is text. -/
def contentRound (st : ContentProgress) : Checked (Round ContentProgress (List Node)) := do
  if byteLength t ≤ st.place then return .done st.nodes.reverse
  else
    let rest ← sliceFrom t st.place
    match nextBegin? rest with
    | none =>
      let node := .text rest ⟨base + st.place, base + byteLength t⟩
      return .done (pushNode st.nodes node).reverse
    | some (n, isRazor) =>
      let next := st.place + n
      let nodes ← scanText t base st.nodes st.place next
      match ← scanConstruct children t base nodes isRazor next with
      | some (found, stop) => return .again ⟨stop, found.foldl pushNode nodes⟩
      | none => return .again ⟨next + 1, ← scanText t base nodes next (next + 1)⟩

end Content

/-- The nodes of a text that stands at the place `base` of the source and that may hold `levels`
levels of nested content. -/
def scanContent : (levels base : Nat) → List Char → Checked (List Node)
  | 0, base, t => return pushNode [] (.text t ⟨base, base + byteLength t⟩)
  | levels + 1, base, t =>
    loop (byteLength t) ContentProgress.place (contentRound (scanContent levels) t base) ⟨0, []⟩

/-- The nodes of a text that itself stands `depth` levels deep. -/
def scanNested (depth base : Nat) (t : List Char) : Checked (List Node) :=
  scanContent (maxNesting + 1 - depth) base t

/-! ### Documents -/

/-- A document that is being read. -/
structure SectionsProgress where
  place : Nat
  nodes : List Node

/-- The content before the next code section, and the section itself. -/
def sectionRound (t : List Char) (st : SectionsProgress) :
    Checked (Round SectionsProgress SectionsProgress) := do
  let rest ← sliceFrom t st.place
  match Opening.codeSection.find? rest with
  | none => return .done st
  | some (before, length) =>
    let start := st.place + byteLength (rest.take before)
    let opening := st.place + byteLength (rest.take (before + length)) - 1
    match ← scanCloser Bracket.brace.matchCode? t opening with
    | none => return .done st
    | some close =>
      let content ← slice t st.place start
      let nodes ← scanNested 0 st.place content
      let body ← slice t (opening + 1) close
      let node : Node := .code ⟨.directive, CodeBlock.sectionWord ++ trim body, ⟨start, close + 1⟩⟩
      return .again ⟨close + 1, st.nodes ++ nodes ++ [node]⟩

/-- The nodes of a whole template. -/
def scanDocument (t : List Char) : Checked (List Node) := do
  let st ← loop (byteLength t) SectionsProgress.place (sectionRound t) ⟨0, []⟩
  let rest ← sliceFrom t st.place
  return st.nodes ++ (← scanNested 0 st.place rest)

end RazorLayout.Template

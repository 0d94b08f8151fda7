import RazorLayout.Code.Bracket
import RazorLayout.Template.Node
import RazorLayout.Template.Opening
import RazorLayout.Text.Lines

/-!
# Reading blocks

`@if (…) { … }` with its `else` branches, and `@foreach (…) { … }`. The condition is code and is
put on one line; the body is markup and is kept as written.

## Main definitions

* `Template.readCondition?`: a condition on one line
* `Template.readBody?`: a body in braces
* `Template.readIfChain?`, `Template.readForeach?`: the blocks
-/

namespace RazorLayout.Template

open Text Code

/-- A line of a condition. A line comment becomes a block comment, or is left out when it is
empty or cannot be one, because the next line of the condition will follow it on the same
line. -/
def conditionLine (line : List Char) : List Char :=
  match lineCommentStart? .csharp line with
  | none => trim line
  | some n =>
    let code := trim (line.take n)
    let note := trim (line.drop (n + 2))
    if note.isEmpty || occurs "*/".toList note then code
    else trimStart (code ++ " /* ".toList ++ note ++ " */".toList)

/-- The lines of a condition on one line, with single spaces between them. -/
def joinCondition (condition : List Char) : List Char :=
  joinWith [' '] (((lines condition).map conditionLine).filter fun line => !line.isEmpty)

/-- The condition in parentheses at the head of a text, joined, and the number of characters it
takes. -/
def readCondition? (s : List Char) : Option (List Char × Nat) :=
  (Bracket.paren.matchCode? s).map fun n => (joinCondition ((s.take n).drop 1), n + 1)

/-- The body in braces at the head of a text, and the number of characters it takes. -/
def readBraces? (s : List Char) : Option (List Char × Nat) :=
  (Bracket.brace.matchPlain? s).map fun n => ((s.take n).drop 1, n + 1)

/-- The body in braces behind any number of blanks. -/
def readBody? (s : List Char) : Option (List Char × Nat) :=
  let gap := countWhile isBlank s
  match s.drop gap with
  | '{' :: rest => (readBraces? ('{' :: rest)).map fun (body, n) => (body, gap + n)
  | _ => none

/-- The block with keyword `word` whose opening, up to the parenthesis, is `openingLength`
characters long. The text stands behind `pos` bytes of the source. -/
def readBlock? (kind : CodeKind) (word : List Char) (pos openingLength : Nat) (s : List Char) :
    Option (Node × Nat) := do
  let (condition, conditionLength) ← readCondition? (s.drop (openingLength - 1))
  let behind := openingLength - 1 + conditionLength
  let (body, bodyLength) ← readBody? (s.drop behind)
  let length := behind + bodyLength
  let header := word ++ " (".toList ++ condition ++ [')']
  return (.code (.control kind header body ⟨pos, pos + byteLength (s.take length)⟩), length)

/-- The `else` or `else if` branch at the head of a text. The mark says whether more branches may
follow. -/
def readBranch? (pos : Nat) (s : List Char) : Option (Node × Nat × Bool) :=
  match Opening.elseIfBlock.length? s with
  | some n =>
    (readBlock? .elseIfBlock "else if".toList pos n s).map fun (node, length) =>
      (node, length, true)
  | none =>
    match Opening.elseBlock.length? s with
    | some n =>
      (readBraces? (s.drop (n - 1))).map fun (body, bodyLength) =>
        let length := n - 1 + bodyLength
        (.code (.control .elseBlock "else".toList body ⟨pos, pos + byteLength (s.take length)⟩),
          length, false)
    | none => none

/-- A chain of branches that is being read. -/
structure Chain where
  /-- The branches, the last one first. -/
  branches : List Node
  /-- Number of characters up to the end of the last branch. -/
  length : Nat
  /-- Number of bytes of the source before the end of the last branch. -/
  pos : Nat
  /-- Whether another branch may follow. -/
  mayContinue : Bool := true

/-- One more branch, behind any number of blanks. -/
def chainStep (chain : Chain) (s : List Char) : Option (Chain × Nat) :=
  if chain.mayContinue then
    let gap := countWhile isBlank s
    let pos := chain.pos + byteLength (s.take gap)
    (readBranch? pos (s.drop gap)).map fun (node, n, more) =>
      (⟨node :: chain.branches, chain.length + gap + n, node.span.stop, more⟩, gap + n)
  else none

/-- `@if (…) { … }` at the head of a text, with all the branches that directly follow it. -/
def readIfChain? (pos : Nat) (s : List Char) : Option (List Node × Nat) := do
  let n ← Opening.ifBlock.length? s
  let (first, length) ← readBlock? .ifBlock "if".toList pos n s
  let (chain, _) := advance chainStep 0 ⟨[first], length, first.span.stop, true⟩ (s.drop length)
  return (chain.branches.reverse, chain.length)

/-- `@foreach (…) { … }` at the head of a text. -/
def readForeach? (pos : Nat) (s : List Char) : Option (List Node × Nat) := do
  let n ← Opening.foreachBlock.length? s
  let (node, length) ← readBlock? .foreachBlock "foreach".toList pos n s
  return ([node], length)

end RazorLayout.Template

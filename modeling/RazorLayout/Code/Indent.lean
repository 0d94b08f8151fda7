import RazorLayout.Code.Scan
import RazorLayout.Text.Blank
import RazorLayout.Text.Lines

/-!
# Indenting embedded code

Embedded code is indented without being understood: every line is trimmed and moved right by
one unit for each bracket that is still open. Snippets that are not balanced, or that have a
line starting inside a string literal, are refused, because moving their lines could change
what they mean.

## Main definitions

* `Code.Style`: language and unit of indentation
* `Code.Failure`: why a snippet is refused
* `Code.indent`: the indented snippet
-/

namespace RazorLayout.Code

open Text

/-- How a snippet is to be indented. -/
structure Style where
  useTabs : Bool
  indentWidth : Nat
  language : Language
  deriving Repr, DecidableEq

/-- One level of indentation: a tab, or `width` spaces. -/
def indentUnit (useTabs : Bool) (width : Nat) : List Char :=
  if useTabs then ['\t'] else List.replicate width ' '

/-- `level` units of indentation. -/
def indentation (unit : List Char) (level : Nat) : List Char :=
  (List.replicate level unit).flatten

/-- Why a snippet is refused. Lines count from one. -/
inductive Failure where
  | unbalancedCloser (closer : Char) (line : Nat)
  | unclosedDelimiters (depth : Nat)
  | unterminatedString (line : Nat)
  | unterminatedBlock
  | multilineString (line : Nat)
  deriving Repr, DecidableEq

/-- The wording of a refusal. -/
def Failure.message : Failure → String
  | .unbalancedCloser closer line => s!"unbalanced '{closer}' on line {line}"
  | .unclosedDelimiters depth => s!"{depth} unclosed delimiter(s) at end of snippet"
  | .unterminatedString line => s!"unterminated string literal on line {line}"
  | .unterminatedBlock => "unterminated block comment or multi-line string"
  | .multilineString line => s!"line {line} starts inside a multi-line string"

/-- One of `{`, `(` and `[`. -/
def isOpener (c : Char) : Bool := c == '{' || c == '(' || c == '['

/-- One of `}`, `)` and `]`. -/
def isCloser (c : Char) : Bool := c == '}' || c == ')' || c == ']'

/-- The number of open brackets behind the given code characters, or the first closer that has
no opener. -/
def depthAfter (depth : Nat) : List Char → Except Char Nat
  | [] => .ok depth
  | c :: s =>
    if isOpener c then depthAfter (depth + 1) s
    else if isCloser c then
      match depth with
      | 0 => .error c
      | d + 1 => depthAfter d s
    else depthAfter depth s

/-- A trimmed line moved to its place, where `depth` brackets are open before it. Closers at its
beginning take back their levels; inside a block comment a leading star is set one column in. -/
def placeLine (unit : List Char) (depth : Nat) (inComment : Bool) (line : List Char) :
    List Char :=
  if line.isEmpty then []
  else if inComment then
    indentation unit depth ++ (if line.head? = some '*' then [' '] else []) ++ line
  else indentation unit (depth - countWhile isCloser line) ++ line

/-- Indents the lines from number `line` on, with `depth` open brackets and scan state `st`
before them. -/
def indentLines (lang : Language) (unit : List Char) :
    (line depth : Nat) → ScanState → List (List Char) → Except Failure (List (List Char))
  | _, depth, st, [] =>
    if depth ≠ 0 then .error (.unclosedDelimiters depth)
    else if st.isOpen then .error .unterminatedBlock
    else .ok []
  | line, depth, st, raw :: rest =>
    if st.quote.isSome then .error (.multilineString line)
    else
      let trimmed := trim raw
      let (code, after) := codeChars lang st trimmed
      match depthAfter depth code with
      | .error c => .error (.unbalancedCloser c line)
      | .ok d =>
        if after.quote = some .single || after.quote = some .double then
          .error (.unterminatedString line)
        else
          match indentLines lang unit (line + 1) d after rest with
          | .error e => .error e
          | .ok placed => .ok (placeLine unit depth st.inBlockComment trimmed :: placed)

/-- The list without the empty lines at both ends. -/
def stripEmptyEdges (ls : List (List Char)) : List (List Char) :=
  ((ls.dropWhile List.isEmpty).reverse.dropWhile List.isEmpty).reverse

/-- The snippet with every line at its place, without blank lines at both ends. -/
def indent (style : Style) (snippet : List Char) : Except Failure (List Char) :=
  let unit := indentUnit style.useTabs style.indentWidth
  (indentLines style.language unit 1 0 {} (lines snippet)).map fun placed =>
    unlines (stripEmptyEdges placed)

end RazorLayout.Code

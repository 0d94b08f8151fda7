import RazorLayout.Text.Reading

/-!
# Scanning embedded code

Brackets count only where they are code: not inside a string literal and not inside a comment. A
filter goes over a snippet and yields its characters without those that are hidden: comments, or
string literals, or both. Each turn takes one character, or the two or three characters of a mark
such as `/*`, `*/`, `@"` or a doubled quote, and yields the first of them or nothing.

## Main definitions

* `Code.Language`: the languages of embedded code
* `Code.Quote`, `Code.ScanState`, `Code.Mode`: what a filter is inside of
* `Code.Hidden`, `Code.turn`: what a filter hides, and one turn of it
* `Code.scan`: what is left of a snippet
* `Code.lineCommentStart?`: where the line comment of a line starts
-/

namespace RazorLayout.Code

/-- The languages of embedded code. -/
inductive Language where
  | csharp
  | javaScript
  | css
  deriving Repr, DecidableEq, Inhabited

/-- In style sheets two slashes do not begin a comment. -/
def Language.hasLineComments : Language → Bool
  | .css => false
  | _ => true

/-- The kinds of string literals. -/
inductive Quote where
  /-- `'…'` -/
  | single
  /-- `"…"` -/
  | double
  /-- `@"…"`, which may span lines and where a doubled quote stands for one quote -/
  | verbatim
  /-- a template literal between back quotes, which may span lines -/
  | backtick
  deriving Repr, DecidableEq

/-- Literals that may continue on the next line. -/
def Quote.spansLines : Quote → Bool
  | .verbatim | .backtick => true
  | .single | .double => false

/-- The character that ends a literal. -/
def Quote.closer : Quote → Char
  | .single => '\''
  | .double | .verbatim => '"'
  | .backtick => '`'

/-- What a scan carries from one line to the next. -/
structure ScanState where
  /-- The literal that is open, if any. -/
  quote : Option Quote := none
  inBlockComment : Bool := false
  deriving Repr, DecidableEq, Inhabited

/-- Inside a string literal or a block comment. -/
def ScanState.isOpen (st : ScanState) : Bool := st.quote.isSome || st.inBlockComment

/-- What a filter knows between two turns. -/
structure Mode where
  state : ScanState := {}
  inLineComment : Bool := false
  /-- The next character of the literal is escaped. -/
  escaped : Bool := false
  deriving Repr, DecidableEq, Inhabited

/-- Which characters a filter passes over. -/
structure Hidden where
  comments : Bool
  /-- String literals, with their quotes. -/
  strings : Bool
  deriving Repr, DecidableEq

/-- Only code is left. -/
def Hidden.allButCode : Hidden := ⟨true, true⟩

/-- How the turn of a filter at a character ends. -/
structure Turn where
  /-- The character is yielded. If not, the filter goes on to its next turn. -/
  yields : Bool
  /-- Number of characters that are taken besides the first. -/
  extra : Nat := 0
  after : Mode
  deriving Repr, DecidableEq

/-- The mode inside a literal that has just been opened. -/
def Mode.opening (m : Mode) (q : Quote) : Mode :=
  { m with state := { m.state with quote := some q }, escaped := false }

/-- The mode behind a literal. -/
def Mode.closing (m : Mode) : Mode := { m with state := { m.state with quote := none } }

/-- Goes through the body of the literal `q`: whether the character closes it, how many characters
are taken besides, and the mode behind them. -/
def throughLiteral (m : Mode) (q : Quote) (c : Char) (rest : List Char) : Bool × Nat × Mode :=
  if q = .verbatim then
    if c = '"' then
      if rest.head? = some '"' then (false, 1, m) else (true, 0, m)
    else (false, 0, m)
  else if m.escaped then (false, 0, { m with escaped := false })
  else if c = '\\' then (false, 0, { m with escaped := true })
  else (c == q.closer, 0, m)

/-- The literal that a character opens, and how many characters its opener has besides. -/
def literalOpener? (lang : Language) (c : Char) (rest : List Char) : Option (Quote × Nat) :=
  if c = '"' then some (.double, 0)
  else if c = '\'' then some (.single, 0)
  else if c = '`' && lang = .javaScript then some (.backtick, 0)
  else if c = '@' && lang = .csharp && rest.head? = some '"' then some (.verbatim, 1)
  else if c = '$' && lang = .csharp && rest.head? = some '@' then
    if rest.tail.head? = some '"' then some (.verbatim, 2) else none
  else none

/-- The turn of a filter at the character `c`, in front of `rest`. Each of its ends looks at the
flag that concerns it. -/
def turn (lang : Language) (h : Hidden) (m : Mode) (c : Char) (rest : List Char) : Turn :=
  if m.inLineComment then
    if c = '\n' then { yields := true, after := { m with inLineComment := false } }
    else if h.comments then { yields := false, after := m }
    else { yields := true, after := m }
  else if m.state.inBlockComment then
    let (extra, m) :=
      if c = '*' && rest.head? = some '/' then
        (1, { m with state := { m.state with inBlockComment := false } })
      else (0, m)
    if h.comments then { yields := false, extra, after := m }
    else { yields := true, extra, after := m }
  else
    match m.state.quote with
    | some q =>
      -- a literal that cannot span lines ends in front of a line feed
      if c = '\n' && !q.spansLines then
        { yields := true, after := { m.closing with escaped := false } }
      else
        let (closes, extra, m) := throughLiteral m q c rest
        let m := if closes then m.closing else m
        if h.strings then { yields := false, extra, after := m }
        else { yields := true, extra, after := m }
    | none =>
      if c = '/' && rest.head? = some '/' && lang.hasLineComments then
        let m := { m with inLineComment := true }
        if h.comments then { yields := false, after := m } else { yields := true, after := m }
      else if c = '/' && rest.head? = some '*' then
        let m := { m with state := { m.state with inBlockComment := true } }
        if h.comments then { yields := false, extra := 1, after := m }
        else { yields := true, extra := 1, after := m }
      else
        match literalOpener? lang c rest with
        | some (q, extra) =>
          let m := m.opening q
          if h.strings then { yields := false, extra, after := m }
          else { yields := true, extra, after := m }
        | none => { yields := true, after := m }

/-- A character that a filter yields. -/
structure Seen where
  /-- Number of bytes before the character. -/
  position : Nat
  char : Char
  /-- The mode right behind its turn. -/
  mode : Mode
  deriving Repr, DecidableEq

/-- What a filter yields from the rest of a snippet in reverse order, and the mode at its end. The
first `skip` characters have been taken by the turn before. -/
def scanFrom (lang : Language) (h : Hidden) (acc : List Seen) :
    (skip : Nat) → Mode → (position : Nat) → List Char → List Seen × Mode
  | _, m, _, [] => (acc, m)
  | skip + 1, m, pos, c :: s => scanFrom lang h acc skip m (pos + c.utf8Size) s
  | 0, m, pos, c :: s =>
    let t := turn lang h m c s
    let acc := if t.yields then ⟨pos, c, t.after⟩ :: acc else acc
    scanFrom lang h acc t.extra t.after (pos + c.utf8Size) s

/-- What is left of a snippet when `h` is hidden, and the state at its end. -/
def scan (lang : Language) (h : Hidden) (st : ScanState) (s : List Char) :
    List Seen × ScanState :=
  let (seen, m) := scanFrom lang h [] 0 { state := st } 0 s
  (seen.reverse, m.state)

/-- The code characters of a snippet, and the state at its end. -/
def codeChars (lang : Language) (st : ScanState) (s : List Char) : List Char × ScanState :=
  let (seen, st) := scan lang .allButCode st s
  (seen.map Seen.char, st)

/-- Number of characters before the first one that is yielded and leaves a filter in a line
comment. The filter hides string literals only. -/
def lineCommentFrom (lang : Language) (n : Nat) : (skip : Nat) → Mode → List Char → Option Nat
  | _, _, [] => none
  | skip + 1, m, _ :: s => lineCommentFrom lang (n + 1) skip m s
  | 0, m, c :: s =>
    let t := turn lang ⟨false, true⟩ m c s
    if t.yields && t.after.inLineComment then some n
    else lineCommentFrom lang (n + 1) t.extra t.after s

/-- Number of characters before the `//` that begins the comment of a line. Slashes inside a
literal or a block comment begin none. -/
def lineCommentStart? (lang : Language) (line : List Char) : Option Nat :=
  lineCommentFrom lang 0 0 {} line

end RazorLayout.Code

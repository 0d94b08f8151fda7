import RazorLayout.Json.Numeral
import RazorLayout.Text.Reading

/-!
# Reading JSON from left to right

A configuration file is read from left to right, and the first problem ends the reading. Three
kinds of problems are told apart: the text is not JSON, the text ends too early, or a value is
well-formed but not of the kind that is wanted. Every reader takes the rest of the text and
gives back a value and what is left of the text.

## Main definitions

* `Json.Fault`: the kinds of problems
* `Json.readNat`, `Json.readBool`, `Json.readName`: values of a wanted kind
* `Json.readNullable`: a value or `null`
* `Json.skipValue`: a value of any kind
-/

namespace RazorLayout.Json

/-- Why reading ended. -/
inductive Fault where
  /-- the text is not JSON -/
  | malformed
  /-- the text ends too early -/
  | endOfInput
  /-- a value is not of the kind that is wanted -/
  | mismatch
  deriving Repr, DecidableEq

/-- A reader takes the rest of a text and gives back a value and what is left. -/
abbrev Reader (α : Type) := List Char → Except Fault (α × List Char)

/-- The characters that may stand between values. -/
def isSpace (c : Char) : Bool := c == ' ' || c == '\n' || c == '\t' || c == '\r'

/-- The text from the next character that is no space. -/
def skipSpace (s : List Char) : List Char := s.dropWhile isSpace

/-- What is left behind exactly the characters of `word`. -/
def expectWord : (word : List Char) → List Char → Except Fault (List Char)
  | [], s => .ok s
  | _ :: _, [] => .error .endOfInput
  | e :: word, c :: s => if c = e then expectWord word s else .error .malformed

/-! ### Strings -/

/-- The value of a hexadecimal digit. -/
def hexValue? (c : Char) : Option Nat :=
  if isDigit c then some (c.toNat - '0'.toNat)
  else if 'a' ≤ c && c ≤ 'f' then some (c.toNat - 'a'.toNat + 10)
  else if 'A' ≤ c && c ≤ 'F' then some (c.toNat - 'A'.toNat + 10)
  else none

/-- The number that the next four bytes write in hexadecimal. -/
def hexUnit (s : List Char) : Except Fault Nat :=
  if Text.byteLength (s.take 4) < 4 then .error .endOfInput
  else
    match (s.take 4).mapM hexValue? with
    | some digits => .ok (digits.foldl (fun n d => n * 16 + d) 0)
    | none => .error .malformed

/-- The character of an escape of one letter. -/
def simpleEscape? (c : Char) : Option Char :=
  match c with
  | '"' => some '"'
  | '\\' => some '\\'
  | '/' => some '/'
  | 'b' => some (Char.ofNat 0x08)
  | 'f' => some (Char.ofNat 0x0C)
  | 'n' => some '\n'
  | 'r' => some '\r'
  | 't' => some '\t'
  | _ => none

/-- The second unit of a pair of surrogates, written as an escape of its own. -/
def lowSurrogate (s : List Char) : Except Fault Nat :=
  match s with
  | [] => .error .endOfInput
  | '\\' :: [] => .error .endOfInput
  | '\\' :: 'u' :: rest =>
    match hexUnit rest with
    | .error e => .error e
    | .ok n => if 0xDC00 ≤ n && n ≤ 0xDFFF then .ok n else .error .malformed
  | _ => .error .malformed

/-- The character behind a backslash, and the number of characters that the escape takes.
Surrogates have to come in pairs. -/
def escape (s : List Char) : Except Fault (Char × Nat) :=
  match s with
  | [] => .error .endOfInput
  | 'u' :: rest =>
    match hexUnit rest with
    | .error e => .error e
    | .ok n =>
      if 0xDC00 ≤ n && n ≤ 0xDFFF then .error .malformed
      else if 0xD800 ≤ n && n ≤ 0xDBFF then
        match lowSurrogate (rest.drop 4) with
        | .error e => .error e
        | .ok m => .ok (Char.ofNat (0x10000 + (n - 0xD800) * 0x400 + (m - 0xDC00)), 11)
      else .ok (Char.ofNat n, 5)
  | c :: _ =>
    match simpleEscape? c with
    | some d => .ok (d, 1)
    | none => .error .malformed

/-- An escape in a string that nobody reads: surrogates may stand alone. -/
def looseEscape (s : List Char) : Except Fault (Char × Nat) :=
  match s with
  | 'u' :: rest => (hexUnit rest).map fun n => (Char.ofNat n, 5)
  | _ => escape s

/-- The rest of a string up to its closing quote; `skip` characters belong to an escape already
read. -/
def stringFrom (esc : List Char → Except Fault (Char × Nat)) (acc : List Char) :
    (skip : Nat) → Reader (List Char)
  | _, [] => .error .endOfInput
  | skip + 1, _ :: s => stringFrom esc acc skip s
  | 0, c :: s =>
    if c = '"' then .ok (acc.reverse, s)
    else if c = '\\' then
      match esc s with
      | .error e => .error e
      | .ok (d, n) => stringFrom esc (d :: acc) n s
    else if c.toNat < 0x20 then .error .malformed
    else stringFrom esc (c :: acc) 0 s

/-- A string behind its opening quote. -/
def readString : Reader (List Char) := stringFrom escape [] 0

/-- A string that nobody reads, behind its opening quote. -/
def skipString (s : List Char) : Except Fault (List Char) :=
  (stringFrom looseEscape [] 0 s).map Prod.snd

/-! ### Numbers -/

/-- One digit or more; `atEnd` is the fault of a text that ends before the first. -/
def readDigits (atEnd : Fault) : Reader (List Char)
  | [] => .error atEnd
  | c :: s =>
    if isDigit c then .ok ((c :: s).takeWhile isDigit, (c :: s).dropWhile isDigit)
    else .error .malformed

/-- The digits before the point: no zero stands in front of another digit. -/
def readWhole (atEnd : Fault) (s : List Char) : Except Fault (List Char × List Char) :=
  match readDigits atEnd s with
  | .error e => .error e
  | .ok (digits, rest) =>
    if digits.length > 1 && digits.head? = some '0' then .error .malformed
    else .ok (digits, rest)

/-- The exponent, once the letter is read. -/
def readExponent (atEnd : Fault) (s : List Char) :
    Except Fault ((Bool × List Char) × List Char) :=
  let minus := s.head? = some '-'
  let s := if minus || s.head? = some '+' then s.drop 1 else s
  (readDigits atEnd s).map fun (digits, rest) => ((minus, digits), rest)

/-- A number; `atEnd` is the fault of a text that ends where a digit is missing. -/
def readNumeral (atEnd : Fault) (s : List Char) : Except Fault (Numeral × List Char) := do
  let negative := s.head? = some '-'
  let (whole, rest) ← readWhole atEnd (if negative then s.drop 1 else s)
  let (fraction, rest) ←
    match rest with
    | '.' :: rest => (readDigits atEnd rest).map fun (digits, rest) => (some digits, rest)
    | _ => .ok (none, rest)
  let (exponent, rest) ←
    match rest with
    | 'e' :: rest | 'E' :: rest =>
      (readExponent atEnd rest).map fun (digits, rest) => (some digits, rest)
    | _ => .ok (none, rest)
  return (⟨negative, whole, fraction, exponent⟩, rest)

/-- Whether a number begins with this character. -/
def startsNumeral (c : Char) : Bool := c == '-' || isDigit c

/-! ### Wanted values -/

/-- The fault of a value that is not of the wanted kind. Scalars are read to their end first,
because a fault inside of them comes before it. -/
def unwanted (s : List Char) : Fault :=
  match s with
  | [] => .endOfInput
  | c :: rest =>
    let read : Except Fault Unit :=
      if c = 'n' then (expectWord "ull".toList rest).map fun _ => ()
      else if c = 't' then (expectWord "rue".toList rest).map fun _ => ()
      else if c = 'f' then (expectWord "alse".toList rest).map fun _ => ()
      else if startsNumeral c then
        match readNumeral .endOfInput s with
        | .error e => .error e
        | .ok (n, _) => if n.isHuge then .error .malformed else .ok ()
      else if c = '"' then (readString rest).map fun _ => ()
      else if c = '[' || c = '{' then .ok ()
      else .error .malformed
    match read with
    | .error e => e
    | .ok () => .mismatch

/-- A number of at most 64 bits, written without sign, point and exponent. -/
def readNat (s : List Char) : Except Fault (Nat × List Char) :=
  match skipSpace s with
  | c :: rest =>
    if startsNumeral c then
      match readNumeral .endOfInput (c :: rest) with
      | .error e => .error e
      | .ok (n, rest) =>
        match n.toNat? with
        | some value => .ok (value, rest)
        | none => .error (if n.isHuge then .malformed else .mismatch)
    else .error (unwanted (c :: rest))
  | [] => .error .endOfInput

/-- `true` or `false`. -/
def readBool (s : List Char) : Except Fault (Bool × List Char) :=
  match skipSpace s with
  | 't' :: rest => (expectWord "rue".toList rest).map fun rest => (true, rest)
  | 'f' :: rest => (expectWord "alse".toList rest).map fun rest => (false, rest)
  | s => .error (unwanted s)

/-- `null` -/
def readNull (s : List Char) : Except Fault (List Char) :=
  match skipSpace s with
  | 'n' :: rest => expectWord "ull".toList rest
  | s => .error (unwanted s)

/-- What is left behind the next character, which has to be `c`. -/
def expectChar (c : Char) (s : List Char) : Except Fault (List Char) :=
  match skipSpace s with
  | [] => .error .endOfInput
  | d :: rest => if d = c then .ok rest else .error .malformed

/-- One of the names that `choose` knows, behind an opening quote. -/
def readChoice {α : Type} (choose : List Char → Option α) (s : List Char) :
    Except Fault (α × List Char) :=
  match readString s with
  | .error e => .error e
  | .ok (name, rest) =>
    match choose name with
    | some a => .ok (a, rest)
    | none => .error .mismatch

/-- One of the names that `choose` knows: as a string, or as an object that holds `null` under
the name. -/
def readName {α : Type} (choose : List Char → Option α) (s : List Char) :
    Except Fault (α × List Char) :=
  match skipSpace s with
  | [] => .error .endOfInput
  | '"' :: rest => readChoice choose rest
  | '{' :: rest =>
    match skipSpace rest with
    | '"' :: rest => do
      let (a, rest) ← readChoice choose rest
      let rest ← expectChar ':' rest
      let rest ← readNull rest
      let rest ← expectChar '}' rest
      return (a, rest)
    | [] => .error .endOfInput
    | _ => .error .malformed
  | _ => .error .malformed

/-- A value, or `null`. -/
def readNullable {α : Type} (read : Reader α) (s : List Char) :
    Except Fault (Option α × List Char) :=
  match skipSpace s with
  | 'n' :: rest => (expectWord "ull".toList rest).map fun rest => (none, rest)
  | s => (read s).map fun (a, rest) => (some a, rest)

/-! ### Values that nobody reads -/

/-- A string, a number, `true`, `false` or `null`. -/
def skipScalar (s : List Char) : Except Fault (List Char) :=
  match s with
  | [] => .error .endOfInput
  | c :: rest =>
    if c = 'n' then expectWord "ull".toList rest
    else if c = 't' then expectWord "rue".toList rest
    else if c = 'f' then expectWord "alse".toList rest
    else if c = '"' then skipString rest
    else if startsNumeral c then (readNumeral .malformed s).map Prod.snd
    else .error .malformed

/-- The key of a field and the colon behind it. -/
def skipKey (s : List Char) : Except Fault (List Char) :=
  match skipSpace s with
  | [] => .error .endOfInput
  | '"' :: rest => do
    let rest ← skipString rest
    expectChar ':' rest
  | _ => .error .malformed

mutual

/-- Any value, with at most `fuel` characters. -/
def skipWithin : (fuel : Nat) → List Char → Except Fault (List Char)
  | 0, _ => .error .endOfInput
  | fuel + 1, s =>
    match skipSpace s with
    | '[' :: rest =>
      match skipSpace rest with
      | ']' :: rest => .ok rest
      | rest => skipMembers fuel false rest
    | '{' :: rest =>
      match skipSpace rest with
      | '}' :: rest => .ok rest
      | rest => skipMembers fuel true rest
    | rest => skipScalar rest

/-- The members of an array, or the fields of an object, up to its end. -/
def skipMembers : (fuel : Nat) → (isObject : Bool) → List Char → Except Fault (List Char)
  | 0, _, _ => .error .endOfInput
  | fuel + 1, isObject, s => do
    let rest ← if isObject then skipKey s else .ok s
    let rest ← skipWithin fuel rest
    match skipSpace rest with
    | [] => .error .endOfInput
    | c :: rest =>
      if c = ',' then skipMembers fuel isObject rest
      else if c = (if isObject then '}' else ']') then .ok rest
      else .error .malformed

end

/-- Any value. -/
def skipValue (s : List Char) : Except Fault (List Char) := skipWithin (2 * s.length + 2) s

end RazorLayout.Json

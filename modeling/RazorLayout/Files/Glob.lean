/-!
# Glob patterns

Patterns for paths: `?` stands for one character, `*` for any text, `**` for any number of
directories, and a bracket for one character of a set. A star also stands for slashes.

## Main definitions

* `Files.Glob.Token`, `Files.Glob`: patterns
* `Files.Glob.Malformed`: why a text is no pattern
* `Files.Glob.parse`: the pattern that a text describes
* `Files.Glob.fits`: whether a text fits a pattern
-/

namespace RazorLayout.Files

/-- Part of a set of characters. -/
inductive Glob.Item where
  | one (c : Char)
  | range (first last : Char)
  deriving Repr, DecidableEq

/-- One token of a pattern. -/
inductive Glob.Token where
  | char (c : Char)
  /-- `?` -/
  | anyChar
  /-- `*` -/
  | anyText
  /-- `**` -/
  | anyDirectories
  /-- `[…]` -/
  | within (items : List Item)
  /-- `[!…]` -/
  | except (items : List Item)
  deriving Repr, DecidableEq

/-- A pattern. -/
abbrev Glob := List Glob.Token

namespace Glob

/-- The ways in which a text is no pattern. -/
inductive Cause where
  | tooManyStars
  | partialDirectory
  | badRange
  deriving Repr, DecidableEq

/-- Why, and near which character, a text is no pattern. -/
structure Malformed where
  position : Nat
  cause : Cause
  deriving Repr, DecidableEq

/-- The wording of a cause. -/
def Cause.message : Cause → String
  | tooManyStars => "wildcards are either regular `*` or recursive `**`"
  | partialDirectory => "recursive wildcards must form a single path component"
  | badRange => "invalid range pattern"

/-- The wording of a refusal. -/
def Malformed.message (m : Malformed) : String :=
  s!"Pattern syntax error near position {m.position}: " ++ m.cause.message

/-- The items of a set. A hyphen between two characters makes a range of them. -/
def items : List Char → List Item
  | a :: '-' :: b :: s => .range a b :: items s
  | a :: s => .one a :: items s
  | [] => []

/-- The set behind an opening bracket: whether it is negated, its items, and the number of
characters up to the closing bracket. The first character of a set may be a closing bracket. -/
def set? (s : List Char) : Option (Token × Nat) :=
  match s with
  | '!' :: first :: rest =>
    (rest.findIdx? (· == ']')).map fun n =>
      (.except (items (first :: rest.take n)), n + 3)
  | '!' :: [] => none
  | first :: rest =>
    (rest.findIdx? (· == ']')).map fun n =>
      (.within (items (first :: rest.take n)), n + 2)
  | [] => none

/-- The token of `count` stars behind `before`, in front of `rest`, at position `position`; and
whether the slash that follows belongs to it. -/
def stars (position count : Nat) (before : Option Char) (rest : List Char) :
    Except Malformed (Token × Bool) :=
  if count = 1 then .ok (.anyText, false)
  else if count > 2 then .error ⟨position + 2, .tooManyStars⟩
  else if before.any (· != '/') then .error ⟨position - 1, .partialDirectory⟩
  else
    match rest with
    | [] => .ok (.anyDirectories, false)
    | '/' :: _ => .ok (.anyDirectories, true)
    | _ => .error ⟨position + 2, .partialDirectory⟩

/-- Adds a token to a reversed list. Directories that follow each other are one token, except at
the beginning of a pattern. -/
def push (tokens : List Token) (token : Token) : List Token :=
  match token, tokens with
  | .anyDirectories, .anyDirectories :: _ :: _ => tokens
  | _, _ => token :: tokens

/-- Reads the rest of a pattern at position `position`. The first `skip` characters belong to a
token already read; `before` is the character in front of the rest. -/
def parseFrom (tokens : List Token) :
    (position skip : Nat) → (before : Option Char) → List Char → Except Malformed Glob
  | _, _, _, [] => .ok tokens.reverse
  | position, skip + 1, _, c :: s => parseFrom tokens (position + 1) skip (some c) s
  | position, 0, before, c :: s =>
    if c = '?' then parseFrom (.anyChar :: tokens) (position + 1) 0 (some c) s
    else if c = '*' then
      let count := 1 + (s.takeWhile (· == '*')).length
      match stars position count before (s.drop (count - 1)) with
      | .error e => .error e
      | .ok (token, slash) =>
        parseFrom (push tokens token) (position + 1)
          (count - 1 + if slash then 1 else 0) (some c) s
    else if c = '[' then
      match set? s with
      | none => .error ⟨position, .badRange⟩
      | some (token, n) => parseFrom (token :: tokens) (position + 1) n (some c) s
    else parseFrom (.char c :: tokens) (position + 1) 0 (some c) s

/-- The pattern that a text describes. -/
def parse (s : List Char) : Except Malformed Glob := parseFrom [] 0 0 none s

/-- Whether a character belongs to an item. -/
def Item.holds (c : Char) : Item → Bool
  | one d => c == d
  | range first last => first ≤ c && c ≤ last

/-- Whether a character fits a token for one character. -/
def Token.holds (c : Char) : Token → Bool
  | char d => c == d
  | anyChar => true
  | within items => items.any (Item.holds c)
  | except items => !items.any (Item.holds c)
  | anyText | anyDirectories => false

/-- How an attempt to fit a text ends. -/
inductive Attempt where
  | fits
  /-- not from here, but perhaps from further on -/
  | fails
  /-- the text is used up, so that no later attempt can fit -/
  | exhausted
  deriving Repr, DecidableEq

/-- Leaves out more and more characters until the rest of the pattern fits. When `whole` is set,
only whole directories are left out. -/
def leaveOut (whole : Bool) (rest : List Char → Attempt) : List Char → Attempt
  | [] => rest []
  | c :: s =>
    if whole && c != '/' then leaveOut whole rest s
    else
      match rest s with
      | .fails => leaveOut whole rest s
      | found => found

/-- Fits a text to tokens. -/
def attempt : List Token → List Char → Attempt
  | [], s => if s.isEmpty then .fits else .fails
  | token :: tokens, s =>
    if token = .anyText || token = .anyDirectories then
      match attempt tokens s with
      | .fails => leaveOut (token = .anyDirectories) (attempt tokens) s
      | found => found
    else
      match s with
      | [] => .exhausted
      | c :: s => if token.holds c then attempt tokens s else .fails

/-- Whether a text fits a pattern. -/
def fits (g : Glob) (s : List Char) : Bool := decide (attempt g s = .fits)

end Glob

end RazorLayout.Files

import RazorLayout.Code.Scan

/-!
# Matching brackets

The closer that belongs to the first opener of a text. Bodies that hold markup are matched by
counting every character, since quotes are prose there; embedded code is matched by counting
code characters only.

## Main definitions

* `Code.Bracket`: a pair of delimiters
* `Code.Bracket.matchPlain?`: the matching closer among all characters
* `Code.Bracket.matchCode?`: the matching closer among the code characters
-/

namespace RazorLayout.Code

/-- A pair of delimiters. -/
structure Bracket where
  opener : Char
  closer : Char
  deriving Repr, DecidableEq

namespace Bracket

def brace : Bracket := ⟨'{', '}'⟩

def paren : Bracket := ⟨'(', ')'⟩

def square : Bracket := ⟨'[', ']'⟩

/-- What one more character does to the number of open delimiters. -/
inductive Count where
  /-- so many are open now -/
  | pending (depth : Nat)
  /-- this character closes the first one -/
  | closed
  /-- a closer stands before any opener -/
  | unopened
  deriving Repr, DecidableEq

/-- Counts one character while `depth` delimiters are open. -/
def count (b : Bracket) (depth : Nat) (c : Char) : Count :=
  if c = b.opener then .pending (depth + 1)
  else if c = b.closer then
    match depth with
    | 0 => .unopened
    | 1 => .closed
    | d + 2 => .pending (d + 1)
  else .pending depth

/-- `matchPlain?` behind `n` characters with `depth` delimiters open. -/
def matchPlainFrom (b : Bracket) (n depth : Nat) : List Char → Option Nat
  | [] => none
  | c :: s =>
    match b.count depth c with
    | .pending d => matchPlainFrom b (n + 1) d s
    | .closed => some n
    | .unopened => none

/-- Number of characters before the closer that balances the text, where every character counts.
There is none when a closer comes before any opener. -/
def matchPlain? (b : Bracket) (s : List Char) : Option Nat := matchPlainFrom b 0 0 s

/-- `matchCode?` behind `n` characters with `depth` delimiters open; the first `skip` characters
have been taken by the turn before. -/
def matchCodeFrom (b : Bracket) (lang : Language) :
    (n depth skip : Nat) → Mode → List Char → Option Nat
  | _, _, _, _, [] => none
  | n, depth, skip + 1, m, _ :: s => matchCodeFrom b lang (n + 1) depth skip m s
  | n, depth, 0, m, c :: s =>
    let t := turn lang .allButCode m c s
    if t.yields then
      match b.count depth c with
      | .pending d => matchCodeFrom b lang (n + 1) d t.extra t.after s
      | .closed => some n
      | .unopened => none
    else matchCodeFrom b lang (n + 1) depth t.extra t.after s

/-- Number of characters before the closer that balances the text, where only code characters
count. -/
def matchCode? (b : Bracket) (s : List Char) : Option Nat :=
  matchCodeFrom b .csharp 0 0 0 {} s

end Bracket

end RazorLayout.Code

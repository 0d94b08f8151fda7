import RazorLayout.Text.Lines

/-!
# Paths

A path is kept as it was written, because messages show it that way. Two paths are the same
when their components are: repeated slashes and inner dots do not count, while a leading dot
is a component of its own.

## Main definitions

* `Files.Path`, `Files.Component`: a path as written, and what it is made of
* `Path.components`, `Path.same`, `Path.before`: equality and order by components
* `Path.join`, `Path.parent?`, `Path.ancestors`: moving down and up
* `Path.extension?`: the ending of a file name
-/

namespace RazorLayout.Files

open Text

/-- A path as written. -/
abbrev Path := List Char

/-- The components of paths. -/
inductive Component where
  /-- the slash at the beginning -/
  | root
  /-- a dot at the beginning -/
  | here
  /-- two dots -/
  | up
  | name (n : List Char)
  deriving Repr, DecidableEq

/-- The order of the kinds of components. -/
def Component.rank : Component → Nat
  | root => 0
  | here => 1
  | up => 2
  | name _ => 3

/-- The name of a component that has one. -/
def Component.label : Component → List Char
  | name n => n
  | _ => []

/-- Components are ordered by kind; names are ordered by their characters. -/
def Component.before (a b : Component) : Bool :=
  a.rank < b.rank || (a.rank == b.rank && decide (a.label < b.label))

namespace Path

/-- A path that starts at the root. -/
def isAbsolute (p : Path) : Bool := p.head? = some '/'

/-- A path whose first component is a dot. -/
def startsHere (p : Path) : Bool := p = ['.'] || ['.', '/'].isPrefixOf p

/-- The beginning of a path that is not a part between slashes: the root, a leading dot or
nothing. -/
def lead (p : Path) : List Char :=
  if p.isAbsolute then ['/'] else if p.startsHere then ['.'] else []

/-- The parts between slashes behind the beginning. -/
def parts (p : Path) : List (List Char) := split '/' (p.drop p.lead.length)

/-- Parts that stand for no component. -/
def isEmptyPart (part : List Char) : Bool := part.isEmpty || part == ['.']

/-- The component of a part. -/
def partComponent (part : List Char) : Component :=
  if part = ['.', '.'] then .up else .name part

/-- The components of a path. -/
def components (p : Path) : List Component :=
  (if p.isAbsolute then [.root] else if p.startsHere then [.here] else [])
    ++ (p.parts.filter fun part => !isEmptyPart part).map partComponent

/-- Equality of paths: that of their components. -/
def same (p q : Path) : Bool := p.components == q.components

/-- The order of lists of components: that of the first difference. -/
def componentsBefore : List Component → List Component → Bool
  | [], [] => false
  | [], _ :: _ => true
  | _ :: _, [] => false
  | a :: as, b :: bs => a.before b || (a == b && componentsBefore as bs)

/-- The order of paths, component by component. -/
def before (p q : Path) : Bool := componentsBefore p.components q.components

/-- The path `q` as seen from the directory `p`. -/
def join (p q : Path) : Path :=
  if q.isAbsolute then q
  else if p.isEmpty || p.getLast? = some '/' then p ++ q
  else p ++ ['/'] ++ q

/-- The parts without the last ones that stand for no component. -/
def trimParts (parts : List (List Char)) : List (List Char) :=
  (parts.reverse.dropWhile isEmptyPart).reverse

/-- The path without its last component. The root and the empty path have no parent. -/
def parent? (p : Path) : Option Path :=
  match trimParts p.parts with
  | [] => if p.startsHere then some [] else none
  | part :: rest => some (p.lead ++ joinWith ['/'] (trimParts (part :: rest).dropLast))

/-- The path and its parents, nearest first, at most `count` of them. -/
def ancestorsWithin : (count : Nat) → Path → List Path
  | 0, _ => []
  | count + 1, p =>
    p :: match p.parent? with
      | some q => ancestorsWithin count q
      | none => []

/-- The path and its parents, nearest first. Every parent is shorter than its child. -/
def ancestors (p : Path) : List Path := ancestorsWithin (p.length + 1) p

/-- The last component, when it is a name. -/
def fileName? (p : Path) : Option (List Char) :=
  match p.components.getLast? with
  | some (.name n) => some n
  | _ => none

/-- What stands behind the last dot of the file name. A dot at the beginning of the name does not
count. -/
def extension? (p : Path) : Option (List Char) :=
  match p.fileName? with
  | none => none
  | some n =>
    match (split '.' n).reverse with
    | last :: second :: rest =>
      if second.isEmpty && rest.isEmpty then none else some last
    | _ => none

end Path

end RazorLayout.Files

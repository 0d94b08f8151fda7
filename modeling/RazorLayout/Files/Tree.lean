import RazorLayout.Files.Path
import RazorLayout.Text.Encoding

/-!
# File trees

The files and directories that a run can see. A tree knows every directory and every file by its
place, which is the list of names from the root down to it.

## Main definitions

* `Files.Place`, `Files.Content`, `Files.Tree`: places, contents and trees
* `Place.path`, `Place.follow`: from places to paths and back
* `Tree.addFile`, `Tree.addDirectory`, `Tree.write`: building and changing trees
* `Tree.resolve?`: the place that a path leads to
* `Tree.filesBelow`: the files of a directory and of everything in it

## Main results

* `Tree.file?_write`: what a written tree holds at every place
-/

namespace RazorLayout.Files

open Text

/-- The names from the root down to a file or directory. -/
abbrev Place := List (List Char)

/-- The path of a place, from the root on. -/
def Place.path (place : Place) : Path :=
  match place with
  | [] => ['/']
  | _ => place.flatMap fun name => '/' :: name

/-- The place that a path names, seen from the directory `base`, whatever is there. -/
def Place.follow (base : Place) (p : Path) : Place :=
  (split '/' p).foldl (fun place part =>
    if Path.isEmptyPart part then place
    else if part = ['.', '.'] then place.dropLast
    else place ++ [part]) (if p.isAbsolute then [] else base)

/-- What a file holds. -/
inductive Content where
  | bytes (bs : List UInt8)
  /-- so many zero bytes, none of which is stored -/
  | zeros (count : Nat)
  deriving Repr, DecidableEq

/-- The number of bytes of a file. -/
def Content.size : Content → Nat
  | bytes bs => bs.length
  | zeros count => count

/-- The bytes of a file. -/
def Content.toBytes : Content → List UInt8
  | bytes bs => bs
  | zeros count => List.replicate count 0

/-- The files and directories that a run can see. The root directory is always there. -/
structure Tree where
  directories : List Place := []
  files : List (Place × Content) := []
  deriving Repr, DecidableEq

namespace Tree

def isDirectory (t : Tree) (place : Place) : Bool := place.isEmpty || t.directories.contains place

/-- The content of the file at a place. -/
def file? (t : Tree) (place : Place) : Option Content := t.files.lookup place

def isFile (t : Tree) (place : Place) : Bool := (t.file? place).isSome

/-- Whether there is a file or a directory at a place. -/
def contains (t : Tree) (place : Place) : Bool := t.isDirectory place || t.isFile place

/-- The tree with a directory and all directories above it. -/
def addDirectory (t : Tree) (place : Place) : Tree :=
  let above := (List.range place.length).map fun n => place.take (n + 1)
  { t with directories := t.directories ++ above.filter fun d => !t.directories.contains d }

/-- The tree with a content at a place; what the place held before is gone. -/
def write (t : Tree) (place : Place) (content : Content) : Tree :=
  { t with files := (place, content) :: t.files.filter fun f => f.1 != place }

/-- The tree with a file and all directories above it. -/
def addFile (t : Tree) (place : Place) (content : Content) : Tree :=
  (t.addDirectory place.dropLast).write place content

/-- One part of a path, seen from a place that has to be a directory. -/
def enter? (t : Tree) (place : Place) (part : List Char) : Option Place :=
  if !t.isDirectory place then none
  else if Path.isEmptyPart part then some place
  else if part = ['.', '.'] then some place.dropLast
  else
    let next := place ++ [part]
    if t.contains next then some next else none

/-- The place that a path leads to, seen from the directory `base`. The empty path leads
nowhere. -/
def resolve? (t : Tree) (base : Place) (p : Path) : Option Place :=
  if p.isEmpty then none
  else (split '/' p).foldlM t.enter? (if p.isAbsolute then [] else base)

/-- Whether a path leads to a file. -/
def leadsToFile (t : Tree) (base : Place) (p : Path) : Bool :=
  (t.resolve? base p).any t.isFile

/-- Whether a path leads to a directory. -/
def leadsToDirectory (t : Tree) (base : Place) (p : Path) : Bool :=
  (t.resolve? base p).any t.isDirectory

/-- The file that a path leads to. -/
def read? (t : Tree) (base : Place) (p : Path) : Option Content :=
  (t.resolve? base p).bind t.file?

/-- How deep below a directory files are looked for. -/
def maxDepth : Nat := 256

/-- The names from the directory `place` down to `target`, when `target` is below it. -/
def below? (place target : Place) : Option (List (List Char)) :=
  if place.isPrefixOf target && place.length < target.length then some (target.drop place.length)
  else none

/-- The paths of the files in the directory that `p` leads to, and in everything below it. -/
def filesBelow (t : Tree) (place : Place) (p : Path) : List Path :=
  t.files.filterMap fun (target, _) =>
    match below? place target with
    | none => none
    | some names => if names.length ≤ maxDepth then some (names.foldl Path.join p) else none

@[simp] theorem file?_write_self (t : Tree) (place : Place) (content : Content) :
    (t.write place content).file? place = some content := by
  simp [file?, write]

theorem lookup_filter_ne (files : List (Place × Content)) {place other : Place}
    (h : other ≠ place) :
    (files.filter fun f => f.1 != place).lookup other = files.lookup other := by
  induction files with
  | nil => rfl
  | cons f files ih =>
    obtain ⟨p, content⟩ := f
    by_cases hp : p = place
    · subst hp
      rw [List.lookup_cons, beq_false_of_ne h]
      simpa using ih
    · rw [List.filter_cons_of_pos (by simpa using hp), List.lookup_cons, List.lookup_cons, ih]

theorem file?_write (t : Tree) (place other : Place) (content : Content) :
    (t.write place content).file? other
      = if other = place then some content else t.file? other := by
  by_cases h : other = place
  · simp [h]
  · simp only [file?, write, h, if_false]
    rw [List.lookup_cons, beq_false_of_ne h]
    exact lookup_filter_ne t.files h

end Tree

end RazorLayout.Files

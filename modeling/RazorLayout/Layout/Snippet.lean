import RazorLayout.Settings.Basic

/-!
# Lines of embedded code

The body of a code section, of an inline block, of a script or of a style sheet as lines at
level zero. A body is indented by an indenter; when indentation is switched off the lines are
trimmed, and when the indenter refuses the body its lines are kept as written, moved left as far
as possible.

## Main definitions

* `Layout.Indenter`: a way of indenting bodies
* `Layout.snippetLines`: the lines of a body
* `Layout.shiftedLines`: the lines as written, moved left
-/

namespace RazorLayout.Layout

open Text

/-- A way of indenting the bodies of embedded code. -/
abbrev Indenter := Code.Style → List Char → Except Code.Failure (List Char)

/-- The list without the blank lines at both ends. -/
def stripBlankEdges (ls : List (List Char)) : List (List Char) :=
  ((ls.dropWhile allBlank).reverse.dropWhile allBlank).reverse

/-- Every line trimmed. -/
def trimmedLines (body : List Char) : List (List Char) :=
  stripBlankEdges ((lines body).map trim)

/-- The least number of leading blanks of the lines that are not blank; zero without any. -/
def commonMargin (ls : List (List Char)) : Nat :=
  (((ls.filter fun l => !allBlank l).map (countWhile isBlank)).min?).getD 0

/-- A line without its first `margin` characters; a blank line becomes empty. -/
def shiftLine (margin : Nat) (line : List Char) : List Char :=
  if allBlank line then [] else trimEnd (line.drop margin)

/-- The lines as written, moved left so that the least indented one behind the first starts the
line. The first line is trimmed, since it may begin right behind the brace. -/
def shiftedLines (body : List Char) : List (List Char) :=
  match stripBlankEdges (lines body) with
  | [] => []
  | first :: rest => trim first :: rest.map (shiftLine (commonMargin rest))

/-- The lines of a body at level zero. -/
def snippetLines (settings : Settings) (indenter : Indenter) (language : Code.Language)
    (body : List Char) : List (List Char) :=
  if settings.formats language then
    match indenter (settings.codeStyle language) body with
    | .ok indented => stripBlankEdges ((lines indented).map trimEnd)
    | .error _ => shiftedLines body
  else trimmedLines body

end RazorLayout.Layout

import RazorLayout.Template.Node
import RazorLayout.Text.Lines

/-!
# Text and expressions within a line

Text and expressions that stand next to each other are written on one line. A space goes
between two of them exactly where the source has blanks there, because an added space would
show on the page.

## Main definitions

* `Layout.separated`: whether the source has blanks between two neighbours
* `Layout.inlinePart`, `Layout.joinInline`: nodes on one line
-/

namespace RazorLayout.Layout

open Text

/-- Text whose last character is blank. -/
def endsBlank : Node → Bool
  | .text content _ => content.getLast?.any isBlank
  | _ => false

/-- Text whose first character is blank. -/
def startsBlank : Node → Bool
  | .text content _ => content.head?.any isBlank
  | _ => false

/-- Whether the source has blanks between two neighbours: at the edge of a text, or in a gap that
belongs to neither. -/
def separated (previous next : Node) : Bool :=
  endsBlank previous || startsBlank next || previous.span.stop < next.span.start

/-- A node within a line. Every run of blanks in a text is one space. -/
def inlinePart : Node → List Char
  | .text content _ => collapse (trim content)
  | .code block => '@' :: block.code
  | _ => []

/-- The nodes on one line behind `previous`, the last node that has been written there. Nodes that
leave nothing on the line are passed over. -/
def joinInlineAfter (previous : Option Node) : List Node → List Char
  | [] => []
  | node :: nodes =>
    let part := inlinePart node
    if part.isEmpty then joinInlineAfter previous nodes
    else
      (if previous.any (separated · node) then [' '] else []) ++ part
        ++ joinInlineAfter (some node) nodes

/-- The nodes on one line. -/
def joinInline (nodes : List Node) : List Char := joinInlineAfter none nodes

end RazorLayout.Layout

import RazorLayout.Template.Node

/-!
# Induction over nodes

Nodes hold lists of nodes. A property of nodes is proved together with a property of lists of
nodes: one case for each kind of node, where the children of an element are known to have the
second property, and the two cases of a list.
-/

namespace RazorLayout.Node

/-- Literal text. -/
def isText : Node → Bool
  | text _ _ => true
  | _ => false

/-- Literal text, and code that is neither a block nor a section. -/
def isPlain : Node → Bool
  | text _ _ => true
  | code block => !block.kind.isControl && !block.isSection
  | _ => false

/-- Induction over nodes and lists of nodes at once. -/
theorem induction {P : Node → Prop} {Q : List Node → Prop}
    (selfClosing : ∀ tag, P (.selfClosing tag))
    (element : ∀ tag children, Q children → P (.element tag children))
    (declaration : ∀ content span, P (.declaration content span))
    (text : ∀ content span, P (.text content span)) (code : ∀ block, P (.code block))
    (nil : Q []) (cons : ∀ node nodes, P node → Q nodes → Q (node :: nodes)) :
    (∀ node, P node) ∧ ∀ nodes, Q nodes :=
  have each (node : Node) : P node :=
    @Node.rec P Q selfClosing element declaration text code nil cons node
  ⟨each, fun nodes => List.rec nil (fun node nodes ih => cons node nodes (each node) ih) nodes⟩

end RazorLayout.Node

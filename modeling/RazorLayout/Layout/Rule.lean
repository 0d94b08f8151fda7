import RazorLayout.Template.Node

/-!
# Layout rules

Every node except text has a rule that lays it out. Rules are tried by descending priority.

## Main definitions

* `Layout.Rule`: the rules
* `Layout.Rule.applies`: the nodes that a rule lays out
* `Layout.Rule.of?`: the rule of a node

## Main results

* `Layout.Rule.of?_eq_some_iff`: the rule of a node is the one that applies to it
* `Layout.Rule.of?_eq_none_iff`: only text has no rule
-/

namespace RazorLayout.Layout

/-- The rules of layout. -/
inductive Rule where
  | element
  /-- `@if`, `else if` and `else` -/
  | controlFlow
  /-- `@foreach` -/
  | loop
  /-- all other embedded code -/
  | embeddedCode
  deriving Repr, DecidableEq

namespace Rule

/-- All rules, those of higher priority first. -/
def all : List Rule := [element, controlFlow, loop, embeddedCode]

def priority : Rule → Nat
  | element => 100
  | controlFlow | loop => 95
  | embeddedCode => 90

def name : Rule → String
  | element => "element"
  | controlFlow => "control-flow"
  | loop => "loop"
  | embeddedCode => "embedded-code"

/-- The nodes that a rule lays out. -/
def applies : Rule → Node → Bool
  | controlFlow, .code b => b.kind = .ifBlock || b.kind = .elseIfBlock || b.kind = .elseBlock
  | loop, .code b => b.kind = .foreachBlock
  | embeddedCode, .code b => !b.kind.isControl
  | element, node => node.isMarkup
  | _, _ => false

/-- The first rule that applies to a node. -/
def of? (node : Node) : Option Rule := all.find? (·.applies node)

/-- At most one rule applies to a node, so that the order of the rules does not matter. -/
theorem of?_eq_some_iff {node : Node} {rule : Rule} :
    of? node = some rule ↔ rule.applies node = true := by
  cases node with
  | selfClosing | element | declaration =>
    cases rule <;> simp [of?, all, applies, Node.isMarkup]
  | text => cases rule <;> simp [of?, all, List.find?, applies, Node.isMarkup]
  | code block =>
    cases rule <;> cases hkind : block.kind <;>
      simp [of?, all, List.find?, applies, Node.isMarkup, CodeKind.isControl, hkind]

/-- Only text has no rule. -/
theorem of?_eq_none_iff {node : Node} : of? node = none ↔ ∃ s span, node = .text s span := by
  cases node with
  | selfClosing | element | declaration => simp [of?, all, applies, Node.isMarkup]
  | text => simp [of?, all, List.find?, applies, Node.isMarkup]
  | code block =>
    cases hkind : block.kind <;>
      simp [of?, all, List.find?, applies, Node.isMarkup, CodeKind.isControl, hkind]

example : all.Pairwise fun rule later => later.priority ≤ rule.priority := by decide

end Rule

end RazorLayout.Layout

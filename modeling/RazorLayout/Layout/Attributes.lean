import RazorLayout.Layout.Buffer
import RazorLayout.Template.Attribute

/-!
# Attributes in a tag

Attributes stand on the line of their tag, or in groups on lines of their own one level deeper.

## Main definitions

* `Layout.orderedAttributes`: the order of writing
* `Layout.breaksAttributes`: whether attributes get lines of their own
* `Layout.writeAttributes`: the attributes behind a tag name
-/

namespace RazorLayout.Layout

open Text

/-- The order of writing: as in the source, or by names without regard to case. Attributes with
the same name stay in their order. -/
def orderedAttributes (settings : Settings) (attributes : List Attribute) : List Attribute :=
  if settings.sortAttributes then
    attributes.mergeSort fun a b => !decide (lower b.name < lower a.name)
  else attributes

/-- Whether `count` attributes get lines of their own. -/
def breaksAttributes (settings : Settings) (count : Nat) : Bool :=
  match settings.attributeLayout with
  | .inline => false
  | .multilineAlways => 0 < count
  | .multilineWhenMany => settings.attributeBreakThreshold ≤ count

/-- The list in groups of `size`, the last one possibly smaller; `taken` is the group that is
being filled, reversed, with `room` places left. -/
def groupsFrom {α : Type} (size : Nat) : (room : Nat) → (taken : List α) → List α → List (List α)
  | _, taken, [] => if taken.isEmpty then [] else [taken.reverse]
  | 0, taken, a :: as => taken.reverse :: groupsFrom size (size - 1) [a] as
  | room + 1, taken, a :: as => groupsFrom size room (a :: taken) as

/-- The list in groups of `size`, which counts as one when it is zero. -/
def groups {α : Type} (size : Nat) (as : List α) : List (List α) :=
  groupsFrom (max 1 size) (max 1 size) [] as

/-- Writes the attributes behind a tag name, and says whether they got lines of their own. The
last line stays pending, so that the tag can end on it. -/
def writeAttributes (settings : Settings) (attributes : List Attribute) (b : Buffer) :
    Bool × Buffer :=
  if attributes.isEmpty then (false, b)
  else
    let rendered := (orderedAttributes settings attributes).map (·.render settings.quoteStyle)
    if breaksAttributes settings rendered.length then
      let groups := groups settings.attributesPerLine rendered
      (true, (groups.foldl (fun b group => b.finishLine.write (joinWith [' '] group))
        b.indent).dedent)
    else (false, rendered.foldl (fun b a => (b.write [' ']).write a) b)

end RazorLayout.Layout

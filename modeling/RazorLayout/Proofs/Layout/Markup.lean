import Mathlib.Data.List.Infix
import RazorLayout.Layout.Inline
import RazorLayout.Proofs.Template.Node
import RazorLayout.Proofs.Template.SectionFree

/-!
# Plain markup

Nodes that hold no blocks: elements, declarations and texts, expressions that go on within a line,
and directives and comments that take one line. Names, values, texts and code are such that they
can be written down and told apart again. The levels count how deep elements may be nested.

Two neighbours that touch each other have to be told apart by their characters. A text next to an
expression must not go on with it, and a letter in front of an `@` hides it.

## Main definitions

* `apart`: neighbours that can be told apart
* `IsMarkup`: plain markup of so many levels

## Main results

* `isMarkupNodes_iff`: it can be checked whether nodes are plain markup
-/

namespace RazorLayout.Layout

open Text Template

/-- Neighbours that are told apart when they are read again. Texts are never next to each other. -/
def apart : Node → Node → Bool
  | .text _ _, .text _ _ => false
  | .text content span, next =>
    !next.isExpression || separated (.text content span) next
      || !content.getLast?.any isLetterOrDigit
  | previous, .text content span =>
    !previous.isExpression || separated previous (.text content span) || endsExpression content
  | _, _ => true

theorem apart_text {content : List Char} {span : Span} {next : Node} (htext : next.isText = false)
    (hlast : next.isExpression = true → content.getLast?.any isLetterOrDigit = false) :
    apart (.text content span) next = true := by
  cases next with
  | text => simp [Node.isText] at htext
  | code block =>
    cases hexpression : (Node.code block).isExpression with
    | false => simp [apart, hexpression]
    | true => simp [apart, hlast hexpression]
  | selfClosing | element | declaration => simp [apart, Node.isExpression]

theorem apart_code {block : CodeBlock} {next : Node}
    (hends : ∀ content span, next = .text content span → endsExpression content = true) :
    apart (.code block) next = true := by
  cases next with
  | text content span => simp [apart, hends content span rfl]
  | code | selfClosing | element | declaration => rfl

/-- Nodes without blocks, nested at most so many levels deep. An element that is not closed by its
own tag can have content. -/
inductive IsMarkup : Nat → List Node → Prop
  | nil {levels : Nat} : IsMarkup levels []
  | text {levels : Nat} {content : List Char} {span : Span} {nodes : List Node}
    (hcontent : IsText content) (hnext : nodes.head?.all (apart (.text content span)) = true)
    (hnodes : IsMarkup levels nodes) : IsMarkup levels (.text content span :: nodes)
  | expression {levels : Nat} {code : List Char} {span : Span} {nodes : List Node}
    (hcode : IsExpression code)
    (hnext : nodes.head?.all (apart (.code ⟨.expression, code, span⟩)) = true)
    (hnodes : IsMarkup (levels + 1) nodes) :
    IsMarkup (levels + 1) (.code ⟨.expression, code, span⟩ :: nodes)
  | line {levels : Nat} {block : CodeBlock} {nodes : List Node} (hblock : IsLine block)
    (hnodes : IsMarkup (levels + 1) nodes) : IsMarkup (levels + 1) (.code block :: nodes)
  | declaration {levels : Nat} {name : List Char} {span : Span} {nodes : List Node}
    (hname : IsDeclaration name) (hnodes : IsMarkup (levels + 1) nodes) :
    IsMarkup (levels + 1) (.declaration ('<' :: '!' :: (name ++ ['>'])) span :: nodes)
  | selfClosing {levels : Nat} {tag : Tag} {nodes : List Node} (hname : IsTagName tag.name)
    (hattributes : ∀ a ∈ tag.attributes, IsAttribute a) (hnodes : IsMarkup (levels + 1) nodes) :
    IsMarkup (levels + 1) (.selfClosing tag :: nodes)
  | element {levels : Nat} {tag : Tag} {children nodes : List Node} (hname : IsTagName tag.name)
    (hvoid : isVoid tag.name = false) (hraw : isRawText tag.name = false)
    (hattributes : ∀ a ∈ tag.attributes, IsAttribute a) (hchildren : IsMarkup levels children)
    (hnodes : IsMarkup (levels + 1) nodes) :
    IsMarkup (levels + 1) (.element tag children :: nodes)

theorem IsMarkup.tail {levels : Nat} {node : Node} {nodes : List Node}
    (h : IsMarkup levels (node :: nodes)) : IsMarkup levels nodes := by
  cases h <;> assumption

/-- Only texts and expressions go on within a line. -/
theorem IsMarkup.inline_cases {levels : Nat} {node : Node} {nodes : List Node}
    (h : IsMarkup levels (node :: nodes)) (hinline : node.isBlock = false) :
    (∃ content span, node = .text content span ∧ IsText content) ∨
      ∃ code span, node = .code ⟨.expression, code, span⟩ ∧ IsExpression code := by
  cases h with
  | text hcontent => exact .inl ⟨_, _, rfl, hcontent⟩
  | expression hcode => exact .inr ⟨_, _, rfl, hcode⟩
  | line hblock => simp [Node.isBlock, Node.isInline, Node.isExpression, hblock.kind_ne] at hinline
  | declaration | selfClosing | element =>
    simp [Node.isBlock, Node.isInline, Node.isExpression] at hinline

/-! ### Deciding what is plain markup -/

instance (name : List Char) : Decidable (IsTagName name) :=
  decidable_of_iff (name.head?.any isLetter = true ∧ name.all isTagNameChar = true) <| by
    rw [List.all_eq_true]
    refine ⟨fun ⟨hletter, hchars⟩ => ⟨?_, hchars⟩, fun ⟨hletter, hchars⟩ => ⟨?_, hchars⟩⟩
    · cases name with
      | nil => simp at hletter
      | cons c rest => exact ⟨c, rest, rfl, by simpa using hletter⟩
    · obtain ⟨c, rest, rfl, hc⟩ := hletter
      simpa using hc

instance (a : Attribute) : Decidable (IsAttribute a) :=
  decidable_of_iff (a.name ≠ [] ∧ a.name.all isAttributeNameChar = true ∧
    ∀ v ∈ a.value, ('<' ∉ v ∧ '>' ∉ v) ∧ '\n' ∉ v ∧ ¬ "@code".toList <:+: v ∧
      ¬ ('"' ∈ v ∧ '\'' ∈ v)) <| by
    rw [List.all_eq_true]
    refine ⟨fun ⟨hname, hchars, hvalue⟩ => ⟨hname, hchars, ?_, ?_, ?_, ?_⟩,
      fun h => ⟨h.name_ne_nil, h.name_chars, fun v hv => ?_⟩⟩
    · exact fun v hv => (hvalue v hv).1
    · exact fun v hv => (hvalue v hv).2.1
    · exact fun v hv => (hvalue v hv).2.2.1
    · exact fun v hv => (hvalue v hv).2.2.2
    · exact ⟨h.value_markup v hv, h.value_line v hv, h.value_section v hv, h.value_quote v hv⟩

instance (content : List Char) : Decidable (IsText content) :=
  decidable_of_iff (allBlank content = false ∧ '<' ∉ content ∧ '@' ∉ content)
    ⟨fun ⟨h, h', h''⟩ => ⟨h, h', h''⟩, fun h => ⟨h.not_blank, h.no_markup, h.no_mark⟩⟩

instance (s : List Char) : Decidable (EndsWithInk s) :=
  decidable_of_iff (s.getLast?.any (!isBlank ·) = true) <| by
    constructor
    · intro h
      obtain ⟨c, hc, hink⟩ := (Option.any_eq_true ..).1 h
      obtain ⟨u, rfl⟩ := List.getLast?_eq_some_iff.1 hc
      exact ⟨u, c, rfl, by simpa using hink⟩
    · rintro ⟨u, c, rfl, hc⟩
      simpa using hc

instance (code : List Char) : Decidable (IsExpression code) :=
  decidable_of_iff (expressionLength? ('@' :: code) = some (code.length + 1) ∧
    leadingWord code ∉ reservedWords ∧ EndsWithInk code ∧ '\n' ∉ code ∧ '<' ∉ code ∧ '@' ∉ code)
    ⟨fun ⟨whole, word, ink, line, markup, mark⟩ => ⟨whole, word, ink, line, markup, mark⟩,
      fun h => ⟨h.whole, h.not_reserved, h.ink, h.one_line, h.no_markup, h.no_mark⟩⟩

instance (keyword value : List Char) : Decidable (IsDirective keyword value) :=
  decidable_of_iff (keyword ∈ Directive.keywords ∧ value ≠ [] ∧ trim value = value ∧
    value.all Directive.isValueChar = true) <| by
    rw [List.all_eq_true]
    exact ⟨fun ⟨keyword, filled, edges, chars⟩ => ⟨keyword, filled, edges, chars⟩,
      fun h => ⟨h.keyword_mem, h.value_ne_nil, h.value_trim, h.value_chars⟩⟩

/-- A directive is told by its keyword, a comment by its ends. -/
instance (block : CodeBlock) : Decidable (IsLine block) :=
  decidable_of_iff
    ((block.kind = .directive ∧ Directive.keywords.any (fun keyword =>
        decide (block.code = keyword ++ ' ' :: block.code.drop (keyword.length + 1) ∧
          IsDirective keyword (block.code.drop (keyword.length + 1)) ∧
          '<' ∉ block.code.drop (keyword.length + 1) ∧
          '@' ∉ block.code.drop (keyword.length + 1))) = true) ∨
      (block.kind = .statement ∧
        block.code = '*' :: ((block.code.drop 1).dropLast.dropLast ++ ['*', '@']) ∧
        '\n' ∉ (block.code.drop 1).dropLast.dropLast ∧
        '<' ∉ (block.code.drop 1).dropLast.dropLast ∧
        '@' ∉ (block.code.drop 1).dropLast.dropLast)) <| by
    obtain ⟨kind, code, span⟩ := block
    constructor
    · rintro (⟨rfl, hany⟩ | ⟨rfl, hcode, hline, hmarkup, hmark⟩)
      · obtain ⟨keyword, -, hkeyword⟩ := List.any_eq_true.1 hany
        obtain ⟨hcode, hdirective, hmarkup, hmark⟩ := of_decide_eq_true hkeyword
        dsimp only at hcode
        rw [hcode]
        exact .directive hdirective hmarkup hmark
      · dsimp only at hcode
        rw [hcode]
        exact .comment hline hmarkup hmark
    · rintro (@⟨keyword, value, _, hdirective, hmarkup, hmark⟩ | @⟨note, _, hline, hmarkup, hmark⟩)
      · refine .inl ⟨rfl, List.any_eq_true.2 ⟨keyword, hdirective.keyword_mem, ?_⟩⟩
        have value_eq : (keyword ++ ' ' :: value).drop (keyword.length + 1) = value := by simp
        simp [value_eq, hdirective, hmarkup, hmark]
      · refine .inr ⟨rfl, ?_⟩
        simp [hline, hmarkup, hmark]

instance (name : List Char) : Decidable (IsDeclaration name) :=
  decidable_of_iff (collapse ('!' :: (name ++ ['>'])) = '!' :: (name ++ ['>']) ∧
    ¬ ['-', '-'] <+: name ∧ '<' ∉ name ∧ '>' ∉ name ∧ '@' ∉ name)
    ⟨fun ⟨collapsed, comment, opener, closer, mark⟩ => ⟨collapsed, comment, opener, closer, mark⟩,
      fun h => ⟨h.collapsed, h.not_comment, h.no_opener, h.no_closer, h.no_mark⟩⟩

mutual

/-- Checks whether a node can be part of plain markup of so many levels. -/
def isMarkupNode : Nat → Node → Bool
  | _, .text content _ => decide (IsText content)
  | _ + 1, .code block =>
    decide (block.kind = .expression ∧ IsExpression block.code ∨ IsLine block)
  | _ + 1, .declaration content _ =>
    decide (content = '<' :: '!' :: ((content.drop 2).dropLast ++ ['>']) ∧
      IsDeclaration (content.drop 2).dropLast)
  | _ + 1, .selfClosing tag =>
    decide (IsTagName tag.name) && decide (∀ a ∈ tag.attributes, IsAttribute a)
  | levels + 1, .element tag children =>
    decide (IsTagName tag.name) && !isVoid tag.name && !isRawText tag.name
      && decide (∀ a ∈ tag.attributes, IsAttribute a) && isMarkupNodes levels children
  | _, _ => false

/-- Checks whether nodes are plain markup of so many levels. -/
def isMarkupNodes : Nat → List Node → Bool
  | _, [] => true
  | levels, node :: nodes =>
    isMarkupNode levels node && (!node.isInline || nodes.head?.all (apart node))
      && isMarkupNodes levels nodes

end

/-- Where no level is left, only texts are markup. -/
theorem isMarkupNodes_zero_iff {node : Node} (hnode : node.isText = false) (nodes : List Node) :
    isMarkupNodes 0 (node :: nodes) = true ↔ IsMarkup 0 (node :: nodes) := by
  cases node with
  | text => cases hnode
  | selfClosing | element | declaration | code =>
    exact ⟨by simp [isMarkupNodes, isMarkupNode], nofun⟩

theorem isMarkupNodes_iff (levels : Nat) (nodes : List Node) :
    isMarkupNodes levels nodes = true ↔ IsMarkup levels nodes := by
  suffices (∀ node levels nodes, (isMarkupNodes levels nodes = true ↔ IsMarkup levels nodes) →
        (isMarkupNodes levels (node :: nodes) = true ↔ IsMarkup levels (node :: nodes))) ∧
      ∀ nodes levels, isMarkupNodes levels nodes = true ↔ IsMarkup levels nodes from
    this.2 nodes levels
  -- only what goes on within a line is compared with the next node
  have block {node : Node} (hnode : node.isInline = false) (nodes : List Node) :
      (!node.isInline || nodes.head?.all (apart node)) = true := by simp [hnode]
  have inline {node : Node} (hnode : node.isInline = true) (nodes : List Node) :
      (!node.isInline || nodes.head?.all (apart node)) = nodes.head?.all (apart node) := by
    simp [hnode]
  apply Node.induction
  case selfClosing =>
    intro tag levels nodes ih
    cases levels with
    | zero => exact isMarkupNodes_zero_iff rfl nodes
    | succ levels =>
      rw [isMarkupNodes, isMarkupNode, block rfl, Bool.and_true, Bool.and_eq_true,
        Bool.and_eq_true, decide_eq_true_eq, decide_eq_true_eq, ih]
      constructor
      · rintro ⟨⟨hname, hattributes⟩, hnodes⟩
        exact .selfClosing hname hattributes hnodes
      · intro h
        cases h with
        | selfClosing hname hattributes hnodes => exact ⟨⟨hname, hattributes⟩, hnodes⟩
  case element =>
    -- the children are one level below
    intro tag children ihc levels nodes ih
    cases levels with
    | zero => exact isMarkupNodes_zero_iff rfl nodes
    | succ levels =>
      rw [isMarkupNodes, isMarkupNode, block rfl, Bool.and_true]
      simp only [Bool.and_eq_true, decide_eq_true_eq, ih, ihc, Bool.not_eq_true']
      constructor
      · rintro ⟨⟨⟨⟨⟨hname, hvoid⟩, hraw⟩, hattributes⟩, hchildren⟩, hnodes⟩
        exact .element hname hvoid hraw hattributes hchildren hnodes
      · intro h
        cases h with
        | element hname hvoid hraw hattributes hchildren hnodes =>
          exact ⟨⟨⟨⟨⟨hname, hvoid⟩, hraw⟩, hattributes⟩, hchildren⟩, hnodes⟩
  case declaration =>
    intro content span levels nodes ih
    cases levels with
    | zero => exact isMarkupNodes_zero_iff rfl nodes
    | succ levels =>
      rw [isMarkupNodes, isMarkupNode, block rfl, Bool.and_true, Bool.and_eq_true,
        decide_eq_true_eq, ih]
      constructor
      · rintro ⟨⟨hcontent, hname⟩, hnodes⟩
        rw [hcontent]
        exact .declaration hname hnodes
      · intro h
        cases h with
        | declaration hname hnodes => exact ⟨⟨by simp, by simpa using hname⟩, hnodes⟩
  case text =>
    intro content span levels nodes ih
    rw [isMarkupNodes, isMarkupNode, inline rfl, Bool.and_eq_true, Bool.and_eq_true,
      decide_eq_true_eq, ih]
    constructor
    · rintro ⟨⟨hcontent, hnext⟩, hnodes⟩
      exact .text hcontent hnext hnodes
    · intro h
      cases h with
      | text hcontent hnext hnodes => exact ⟨⟨hcontent, hnext⟩, hnodes⟩
  case code =>
    -- an expression, or a line of its own
    intro code levels nodes ih
    cases levels with
    | zero => exact isMarkupNodes_zero_iff rfl nodes
    | succ levels =>
      rw [isMarkupNodes, isMarkupNode, Bool.and_eq_true, Bool.and_eq_true, decide_eq_true_eq, ih]
      constructor
      · rintro ⟨⟨⟨hkind, hcode⟩ | hline, hnext⟩, hnodes⟩
        · obtain ⟨kind, code, span⟩ := code
          obtain rfl : kind = .expression := hkind
          exact .expression hcode (by rwa [inline rfl] at hnext) hnodes
        · exact .line hline hnodes
      · intro h
        cases h with
        | expression hcode hnext hnodes =>
          exact ⟨⟨.inl ⟨rfl, hcode⟩, by rwa [inline rfl]⟩, hnodes⟩
        | line hline hnodes =>
          have hkind : (Node.code code).isInline = false := by
            simp [Node.isInline, Node.isExpression, hline.kind_ne]
          exact ⟨⟨.inr hline, block hkind nodes⟩, hnodes⟩
  case nil => exact fun levels => ⟨fun _ => .nil, fun _ => rfl⟩
  case cons =>
    intro node nodes hnode hnodes levels
    exact hnode levels nodes (hnodes levels)

instance (levels : Nat) (nodes : List Node) : Decidable (IsMarkup levels nodes) :=
  decidable_of_iff _ (isMarkupNodes_iff levels nodes)

end RazorLayout.Layout

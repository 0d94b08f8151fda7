import RazorLayout.Code.Indent
import RazorLayout.Text.Case

/-!
# Settings

The choices that a layout depends on, their defaults, the bounds that a run checks, and the
layers that settings are put together from: a layer sets some fields and leaves the others to
the layers below it.

## Main definitions

* `AttributeLayout`, `QuoteStyle`: the choices that have names
* `Settings`: one value for every choice
* `Settings.violation?`: the first bound that is not met
* `Overrides`: a layer
* `Settings.apply`: settings with a layer on top
-/

namespace RazorLayout

/-- How the attributes of a tag are laid out. -/
inductive AttributeLayout where
  /-- on the line of the tag -/
  | inline
  /-- on lines of their own whenever there are any -/
  | multilineAlways
  /-- on lines of their own once there are many -/
  | multilineWhenMany
  deriving Repr, DecidableEq, Inhabited

namespace AttributeLayout

def all : List AttributeLayout := [.inline, .multilineAlways, .multilineWhenMany]

/-- The name in configuration files. -/
def name : AttributeLayout → String
  | .inline => "Inline"
  | .multilineAlways => "MultilineAlways"
  | .multilineWhenMany => "MultilineWhenMany"

/-- The name on the command line. -/
def optionName : AttributeLayout → String
  | .inline => "inline"
  | .multilineAlways => "multiline-always"
  | .multilineWhenMany => "multiline-when-many"

/-- Reads a name in any case, with hyphens, underscores or nothing between its words. The failure
is the wording of the complaint. -/
def parse (s : List Char) : Except String AttributeLayout :=
  let folded := (Text.lowerAscii s).map fun c => if c = '_' then '-' else c
  if folded = "inline".toList then .ok .inline
  else if folded = "multiline-always".toList || folded = "multilinealways".toList then
    .ok .multilineAlways
  else if folded = "multiline-when-many".toList || folded = "multilinewhenmany".toList then
    .ok .multilineWhenMany
  else .error s!"unknown attribute formatting '{String.ofList folded}'"

end AttributeLayout

/-- The quote written around attribute values. -/
inductive QuoteStyle where
  | single
  | double
  deriving Repr, DecidableEq, Inhabited

namespace QuoteStyle

def all : List QuoteStyle := [.single, .double]

/-- The name in configuration files. -/
def name : QuoteStyle → String
  | .single => "Single"
  | .double => "Double"

/-- The name on the command line. -/
def optionName : QuoteStyle → String
  | .single => "single"
  | .double => "double"

/-- The quote itself. -/
def char : QuoteStyle → Char
  | .single => '\''
  | .double => '"'

/-- The other style, for values that hold the quote of this one. -/
def alternate : QuoteStyle → QuoteStyle
  | .single => .double
  | .double => .single

/-- Reads a name in any case. The failure is the wording of the complaint. -/
def parse (s : List Char) : Except String QuoteStyle :=
  let folded := Text.lowerAscii s
  if folded = "single".toList then .ok .single
  else if folded = "double".toList then .ok .double
  else .error s!"unknown quote style '{String.ofList folded}'"

end QuoteStyle

/-- The choices that a layout depends on. -/
structure Settings where
  /-- Spaces per level of indentation. -/
  indentSize : Nat := 4
  /-- Indent with tabs instead of spaces. -/
  useTabs : Bool := false
  /-- An advisory line length; no rule of layout reads it. -/
  maxLineLength : Nat := 120
  /-- Indent the bodies of code sections and inline blocks. -/
  formatCSharp : Bool := true
  /-- Indent the bodies of style elements. -/
  formatCss : Bool := true
  /-- Indent the bodies of script elements. -/
  formatJavaScript : Bool := true
  attributeLayout : AttributeLayout := .multilineWhenMany
  /-- Attributes that share a line when they stand on lines of their own. -/
  attributesPerLine : Nat := 1
  /-- Number of attributes that counts as many. -/
  attributeBreakThreshold : Nat := 3
  /-- Put the content on lines of its own when the tag has many attributes. -/
  breakContent : Bool := true
  /-- Number of attributes that counts as many for the content. -/
  contentBreakThreshold : Nat := 2
  /-- Sort attributes by their names. -/
  sortAttributes : Bool := false
  /-- Kept for the sake of configuration files; no rule of layout reads it. -/
  collapseEmptyTags : Bool := true
  /-- Remove the blanks at line ends. -/
  removeTrailingWhitespace : Bool := true
  /-- End the output with exactly one line feed. -/
  insertFinalNewline : Bool := true
  quoteStyle : QuoteStyle := .double
  deriving Repr, DecidableEq, Inhabited

/-- The bounds of the settings that a run accepts. -/
inductive Settings.Violation where
  | indentTooSmall
  | indentTooLarge (size : Nat)
  | lineTooShort (length : Nat)
  | lineTooLong (length : Nat)
  | noAttributesPerLine
  | noAttributeThreshold
  | noContentThreshold
  deriving Repr, DecidableEq

namespace Settings

/-- The largest indentation that a run accepts. -/
def maxIndentSize : Nat := 16

/-- The shortest line length that a run accepts. -/
def minLineLength : Nat := 20

/-- The longest line length that a run accepts. -/
def maxLineLengthBound : Nat := 1000

/-- The wording of a bound that is not met. -/
def Violation.message : Violation → String
  | .indentTooSmall => "indentSize must be at least 1"
  | .indentTooLarge size => s!"indentSize {size} exceeds maximum of {maxIndentSize}"
  | .lineTooShort length => s!"maxLineLength {length} is below minimum of {minLineLength}"
  | .lineTooLong length => s!"maxLineLength {length} exceeds maximum of {maxLineLengthBound}"
  | .noAttributesPerLine => "attributesPerLine must be at least 1"
  | .noAttributeThreshold => "attributeBreakThreshold must be at least 1"
  | .noContentThreshold => "contentBreakThreshold must be at least 1"

/-- The first bound that is not met. -/
def violation? (s : Settings) : Option Violation :=
  if s.indentSize = 0 then some .indentTooSmall
  else if s.indentSize > maxIndentSize then some (.indentTooLarge s.indentSize)
  else if s.maxLineLength < minLineLength then some (.lineTooShort s.maxLineLength)
  else if s.maxLineLength > maxLineLengthBound then some (.lineTooLong s.maxLineLength)
  else if s.attributesPerLine = 0 then some .noAttributesPerLine
  else if s.attributeBreakThreshold = 0 then some .noAttributeThreshold
  else if s.contentBreakThreshold = 0 then some .noContentThreshold
  else none

/-- One level of indentation. -/
def indentUnit (s : Settings) : List Char := Code.indentUnit s.useTabs s.indentSize

/-- Whether bodies in the language are indented. -/
def formats (s : Settings) : Code.Language → Bool
  | .csharp => s.formatCSharp
  | .javaScript => s.formatJavaScript
  | .css => s.formatCss

/-- How bodies in the language are indented. -/
def codeStyle (s : Settings) (language : Code.Language) : Code.Style :=
  ⟨s.useTabs, s.indentSize, language⟩

end Settings

/-- A layer of settings: the fields that it sets. -/
structure Overrides where
  indentSize : Option Nat := none
  useTabs : Option Bool := none
  maxLineLength : Option Nat := none
  formatCSharp : Option Bool := none
  formatCss : Option Bool := none
  formatJavaScript : Option Bool := none
  attributeLayout : Option AttributeLayout := none
  attributesPerLine : Option Nat := none
  attributeBreakThreshold : Option Nat := none
  breakContent : Option Bool := none
  contentBreakThreshold : Option Nat := none
  sortAttributes : Option Bool := none
  collapseEmptyTags : Option Bool := none
  removeTrailingWhitespace : Option Bool := none
  insertFinalNewline : Option Bool := none
  quoteStyle : Option QuoteStyle := none
  deriving Repr, DecidableEq, Inhabited

/-- Settings with a layer on top: a field that the layer sets has the value of the layer. -/
def Settings.apply (s : Settings) (o : Overrides) : Settings where
  indentSize := o.indentSize.getD s.indentSize
  useTabs := o.useTabs.getD s.useTabs
  maxLineLength := o.maxLineLength.getD s.maxLineLength
  formatCSharp := o.formatCSharp.getD s.formatCSharp
  formatCss := o.formatCss.getD s.formatCss
  formatJavaScript := o.formatJavaScript.getD s.formatJavaScript
  attributeLayout := o.attributeLayout.getD s.attributeLayout
  attributesPerLine := o.attributesPerLine.getD s.attributesPerLine
  attributeBreakThreshold := o.attributeBreakThreshold.getD s.attributeBreakThreshold
  breakContent := o.breakContent.getD s.breakContent
  contentBreakThreshold := o.contentBreakThreshold.getD s.contentBreakThreshold
  sortAttributes := o.sortAttributes.getD s.sortAttributes
  collapseEmptyTags := o.collapseEmptyTags.getD s.collapseEmptyTags
  removeTrailingWhitespace := o.removeTrailingWhitespace.getD s.removeTrailingWhitespace
  insertFinalNewline := o.insertFinalNewline.getD s.insertFinalNewline
  quoteStyle := o.quoteStyle.getD s.quoteStyle

@[simp] theorem Settings.apply_empty (s : Settings) : s.apply {} = s := rfl

end RazorLayout

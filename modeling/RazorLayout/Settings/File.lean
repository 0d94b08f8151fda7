import RazorLayout.Json.Reader
import RazorLayout.Settings.Basic
import RazorLayout.Text.Lines

/-!
# Configuration files

Settings are kept in JSON: an object whose keys are the names of the fields, or an array of
their values in a fixed order. A configuration file sets some of the fields; `null` leaves a
field unset, and keys that name no field are ignored. Saved settings name all fields.

## Main definitions

* `Settings.Field`: the fields, with their keys
* `Settings.readOverrides`: the layer that a configuration file describes
* `Settings.readComplete`: complete settings
* `Settings.save`: settings as the text of a configuration file
-/

namespace RazorLayout.Settings

open Json

/-- The fields of settings. -/
inductive Field where
  | indentSize
  | useTabs
  | maxLineLength
  | formatCSharp
  | formatCss
  | formatJavaScript
  | attributeLayout
  | attributesPerLine
  | attributeBreakThreshold
  | breakContent
  | contentBreakThreshold
  | sortAttributes
  | collapseEmptyTags
  | removeTrailingWhitespace
  | insertFinalNewline
  | quoteStyle
  deriving Repr, DecidableEq

namespace Field

/-- All fields, in the order of configuration files. -/
def all : List Field :=
  [indentSize, useTabs, maxLineLength, formatCSharp, formatCss, formatJavaScript,
   attributeLayout, attributesPerLine, attributeBreakThreshold, breakContent,
   contentBreakThreshold, sortAttributes, collapseEmptyTags, removeTrailingWhitespace,
   insertFinalNewline, quoteStyle]

/-- The key of a field. -/
def key : Field → String
  | indentSize => "indentSize"
  | useTabs => "useTabs"
  | maxLineLength => "maxLineLength"
  | formatCSharp => "formatEmbeddedCSharp"
  | formatCss => "formatEmbeddedCss"
  | formatJavaScript => "formatEmbeddedJavascript"
  | attributeLayout => "attributeFormatting"
  | attributesPerLine => "attributesPerLine"
  | attributeBreakThreshold => "attributeBreakThreshold"
  | breakContent => "breakContentWithManyAttributes"
  | contentBreakThreshold => "contentBreakThreshold"
  | sortAttributes => "sortAttributes"
  | collapseEmptyTags => "collapseEmptyTags"
  | removeTrailingWhitespace => "removeTrailingWhitespace"
  | insertFinalNewline => "insertFinalNewline"
  | quoteStyle => "quoteStyle"

/-- The field with the given key. -/
def ofKey? (key : List Char) : Option Field := all.find? fun f => f.key.toList == key

/-- The layout with the given name. -/
def attributeLayoutOf? (name : List Char) : Option AttributeLayout :=
  AttributeLayout.all.find? fun a => a.name.toList == name

/-- The quote style with the given name. -/
def quoteStyleOf? (name : List Char) : Option QuoteStyle :=
  QuoteStyle.all.find? fun q => q.name.toList == name

/-- Reads the value of a field and sets it in a layer. -/
def read (f : Field) (o : Overrides) (s : List Char) : Except Fault (Overrides × List Char) :=
  let nat (set : Nat → Overrides) := (readNat s).map fun (v, rest) => (set v, rest)
  let bool (set : Bool → Overrides) := (readBool s).map fun (v, rest) => (set v, rest)
  match f with
  | indentSize => nat fun v => { o with indentSize := some v }
  | useTabs => bool fun v => { o with useTabs := some v }
  | maxLineLength => nat fun v => { o with maxLineLength := some v }
  | formatCSharp => bool fun v => { o with formatCSharp := some v }
  | formatCss => bool fun v => { o with formatCss := some v }
  | formatJavaScript => bool fun v => { o with formatJavaScript := some v }
  | attributeLayout =>
    (readName attributeLayoutOf? s).map fun (v, rest) =>
      ({ o with attributeLayout := some v }, rest)
  | attributesPerLine => nat fun v => { o with attributesPerLine := some v }
  | attributeBreakThreshold => nat fun v => { o with attributeBreakThreshold := some v }
  | breakContent => bool fun v => { o with breakContent := some v }
  | contentBreakThreshold => nat fun v => { o with contentBreakThreshold := some v }
  | sortAttributes => bool fun v => { o with sortAttributes := some v }
  | collapseEmptyTags => bool fun v => { o with collapseEmptyTags := some v }
  | removeTrailingWhitespace => bool fun v => { o with removeTrailingWhitespace := some v }
  | insertFinalNewline => bool fun v => { o with insertFinalNewline := some v }
  | quoteStyle =>
    (readName quoteStyleOf? s).map fun (v, rest) => ({ o with quoteStyle := some v }, rest)

/-- The value of a field as JSON. -/
def write (f : Field) (s : Settings) : List Char :=
  let nat (n : Nat) := Nat.toDigits 10 n
  let bool (b : Bool) := (if b then "true" else "false").toList
  let name (n : String) := ['"'] ++ n.toList ++ ['"']
  match f with
  | indentSize => nat s.indentSize
  | useTabs => bool s.useTabs
  | maxLineLength => nat s.maxLineLength
  | formatCSharp => bool s.formatCSharp
  | formatCss => bool s.formatCss
  | formatJavaScript => bool s.formatJavaScript
  | attributeLayout => name s.attributeLayout.name
  | attributesPerLine => nat s.attributesPerLine
  | attributeBreakThreshold => nat s.attributeBreakThreshold
  | breakContent => bool s.breakContent
  | contentBreakThreshold => nat s.contentBreakThreshold
  | sortAttributes => bool s.sortAttributes
  | collapseEmptyTags => bool s.collapseEmptyTags
  | removeTrailingWhitespace => bool s.removeTrailingWhitespace
  | insertFinalNewline => bool s.insertFinalNewline
  | quoteStyle => name s.quoteStyle.name

end Field

/-- What a description of settings has to say about every field. -/
inductive Form where
  /-- fields may be left unset, and `null` leaves a field unset -/
  | layered
  /-- every field that is named has a value -/
  | complete
  deriving Repr, DecidableEq

/-- Reads the value of a field. -/
def readFieldValue (form : Form) (f : Field) (o : Overrides) (s : List Char) :
    Except Fault (Overrides × List Char) :=
  match form with
  | .complete => f.read o s
  | .layered => (readNullable (f.read o) s).map fun (set, rest) => (set.getD o, rest)

/-- Reads the fields of an object up to its end, once the first key is due. No field may be named
twice; `seen` are the fields already named. Every field takes a unit of `fuel`. -/
def readFields (form : Form) :
    (fuel : Nat) → (seen : List Field) → Overrides → List Char →
      Except Fault (Overrides × List Char)
  | 0, _, _, _ => .error .endOfInput
  | fuel + 1, seen, o, s =>
    match skipSpace s with
    | [] => .error .endOfInput
    | '"' :: rest => do
      let (key, rest) ← readString rest
      let (seen, o, rest) ←
        match Field.ofKey? key with
        | some f =>
          if f ∈ seen then .error .mismatch
          else do
            let rest ← expectChar ':' rest
            let (o, rest) ← readFieldValue form f o rest
            pure (f :: seen, o, rest)
        | none => do
          let rest ← expectChar ':' rest
          let rest ← skipValue rest
          pure (seen, o, rest)
      match skipSpace rest with
      | [] => .error .endOfInput
      | ',' :: rest => readFields form fuel seen o rest
      | '}' :: rest => .ok (o, rest)
      | _ => .error .malformed
    | _ => .error .malformed

/-- Reads an object of fields, once its brace is read. -/
def readObject (form : Form) (s : List Char) : Except Fault (Overrides × List Char) :=
  match skipSpace s with
  | '}' :: rest => .ok ({}, rest)
  | rest => readFields form (rest.length + 1) [] {} rest

/-- What follows an array that ends before it has all values. -/
def shortArray (form : Form) (o : Overrides) (rest : List Char) :
    Except Fault (Overrides × List Char) :=
  match form with
  | .layered => .error .mismatch
  | .complete => .ok (o, rest)

/-- Reads the values of an array in the order of the fields, once its bracket is read. -/
def readArray (form : Form) (first : Bool) :
    List Field → Overrides → List Char → Except Fault (Overrides × List Char)
  | [], o, s =>
    match skipSpace s with
    | [] => .error .endOfInput
    | ']' :: rest => .ok (o, rest)
    | _ => .error .malformed
  | f :: fields, o, s =>
    match skipSpace s with
    | [] => .error .endOfInput
    | ']' :: rest => shortArray form o rest
    | c :: rest =>
      if first then do
        let (o, rest) ← readFieldValue form f o (c :: rest)
        readArray form false fields o rest
      else if c = ',' then
        match skipSpace rest with
        | [] => .error .endOfInput
        | ']' :: _ => .error .malformed
        | rest => do
          let (o, rest) ← readFieldValue form f o rest
          readArray form false fields o rest
      else .error .malformed

/-- Reads a whole description of settings. -/
def readForm (form : Form) (s : List Char) : Except Fault Overrides := do
  let (o, rest) ←
    match skipSpace s with
    | '{' :: rest => readObject form rest
    | '[' :: rest => readArray form true Field.all {} rest
    | s => .error (unwanted s)
  match skipSpace rest with
  | [] => return o
  | _ => throw .malformed

/-- The layer that a configuration file describes. -/
def readOverrides (s : List Char) : Except Fault Overrides := readForm .layered s

/-- Complete settings; fields that are not named have their defaults. -/
def readComplete (s : List Char) : Except Fault Settings :=
  (readForm .complete s).map fun o => Settings.apply {} o

/-- Settings as the text of a configuration file. -/
def save (s : Settings) : List Char :=
  let line (f : Field) : List Char :=
    "  \"".toList ++ f.key.toList ++ "\": ".toList ++ f.write s
  ['{', '\n'] ++ Text.joinWith [',', '\n'] (Field.all.map line) ++ ['\n', '}', '\n']

end RazorLayout.Settings

import RazorLayout.Layout.Writer
import RazorLayout.Text.Encoding

/-!
# Formatting templates

A template is read, its nodes are written, and the result is cleaned up: line ends lose their
blanks and the text ends with one line feed, if the settings say so. Formatting never fails.

## Main definitions

* `Layout.cleanUp`: the last step
* `Layout.format`: a formatted template
* `Layout.formatBytes`: a formatted template as bytes
-/

namespace RazorLayout.Layout

open Text

/-- Removes blanks at line ends and puts one line feed at the end, as the settings say. -/
def cleanUp (settings : Settings) (out : List Char) : List Char :=
  let out :=
    if settings.removeTrailingWhitespace then unlines ((split '\n' out).map trimEnd) else out
  if settings.insertFinalNewline then
    let trimmed := trimEnd out
    if trimmed.isEmpty then [] else trimmed ++ ['\n']
  else out

/-- An empty buffer for the settings. -/
def Buffer.new (settings : Settings) : Buffer := { unit := settings.indentUnit }

/-- The formatted form of a template, whose embedded code is indented by `indenter`. -/
def formatWith (indenter : Indenter) (settings : Settings) (template : List Char) : List Char :=
  let nodes := Template.readDocument template
  cleanUp settings (write ⟨settings, indenter⟩ nodes (Buffer.new settings)).output

/-- The formatted form of a template. -/
def format (settings : Settings) (template : List Char) : List Char :=
  formatWith Code.indent settings template

/-- The formatted form of a template that is given as bytes. -/
def formatBytes (settings : Settings) (bytes : List UInt8) : Except Malformed (List UInt8) :=
  (decode bytes).map fun template => encode (format settings template)

/-- The formatted form of a template that is given as a string. -/
def formatString (settings : Settings) (template : String) : String :=
  String.ofList (format settings template.toList)

end RazorLayout.Layout

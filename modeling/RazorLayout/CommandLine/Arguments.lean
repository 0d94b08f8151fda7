import RazorLayout.Files.Path
import RazorLayout.Settings.File

/-!
# The command line

A command line is a command with options and inputs. It is read from left to right. An option
that takes a value waits for it: the value is taken over when the next option or input comes, or
at the end, so that a fault in the value is noticed then.

## Main definitions

* `CommandLine.Arguments`: what a command line says
* `CommandLine.Stop`: why the command line is not carried out
* `CommandLine.Opt`: the options, with their names and the number of their values
* `CommandLine.parse`: reads a command line
-/

namespace RazorLayout.CommandLine

open Files Settings

/-- What is to be done. -/
inductive Command where
  /-- lay out templates -/
  | format
  /-- write a configuration file -/
  | init
  deriving Repr, DecidableEq

/-- What a command line says. -/
structure Arguments where
  command : Command := .format
  /-- Files and directories; a single hyphen stands for the standard input. -/
  inputs : List Path := []
  /-- Write the result back to the files. -/
  write : Bool := false
  /-- Only report the files that would change. -/
  check : Bool := false
  /-- A configuration file in place of those that would be found. -/
  config : Option Path := none
  /-- The settings that are given as options. -/
  overrides : Overrides := {}
  /-- Patterns of files to leave out. -/
  exclude : List (List Char) := []
  /-- Number of files at a time. -/
  jobs : Option Nat := none
  /-- Overwrite an existing configuration file. -/
  force : Bool := false
  /-- Write a log. -/
  debug : Bool := false
  /-- Write no messages. -/
  silent : Bool := false
  deriving Repr, DecidableEq

/-- Why the command line is not carried out. -/
inductive Stop where
  | helpRequested
  | versionRequested
  /-- the command line is empty -/
  | nothingGiven
  /-- there are options but no command -/
  | missingCommand
  | unknownCommand
  | unknownArgument
  /-- a value is missing or not one of those that are allowed -/
  | invalidValue
  /-- a value cannot be read -/
  | unreadableValue
  /-- options exclude each other, or an option is given twice -/
  | conflict
  /-- a value is given to an option that takes none -/
  | unexpectedValue
  deriving Repr, DecidableEq

/-- The exit status. -/
def Stop.exitCode : Stop → Nat
  | .helpRequested | .versionRequested => 0
  | _ => 2

/-- The options. The inputs count as one of them. -/
inductive Opt where
  | inputs
  | write
  | check
  | config
  | setting (f : Field)
  | exclude
  | jobs
  | force
  | debug
  | silent
  | help
  | version
  deriving Repr, DecidableEq

/-- How many values an option takes. -/
inductive Arity where
  /-- none -/
  | flag
  /-- none, or one behind an equals sign -/
  | attached
  /-- one -/
  | value
  deriving Repr, DecidableEq

/-- The name of a setting as an option. -/
def settingName : Field → String
  | .indentSize => "indent-size"
  | .useTabs => "use-tabs"
  | .maxLineLength => "max-line-length"
  | .formatCSharp => "format-csharp"
  | .formatCss => "format-css"
  | .formatJavaScript => "format-javascript"
  | .attributeLayout => "attribute-formatting"
  | .attributesPerLine => "attributes-per-line"
  | .attributeBreakThreshold => "attribute-break-threshold"
  | .breakContent => "break-content-with-many-attributes"
  | .contentBreakThreshold => "content-break-threshold"
  | .sortAttributes => "sort-attributes"
  | .collapseEmptyTags => "collapse-empty-tags"
  | .removeTrailingWhitespace => "remove-trailing-whitespace"
  | .insertFinalNewline => "insert-final-newline"
  | .quoteStyle => "quote-style"

/-- Settings that are numbers or names take a value; the others may have one attached. -/
def settingArity : Field → Arity
  | .indentSize | .maxLineLength | .attributeLayout | .attributesPerLine
  | .attributeBreakThreshold | .contentBreakThreshold | .quoteStyle => .value
  | _ => .attached

namespace Opt

/-- The name behind two hyphens. -/
def longName : Opt → String
  | inputs => ""
  | write => "write"
  | check => "check"
  | config => "config"
  | setting f => settingName f
  | exclude => "exclude"
  | jobs => "jobs"
  | force => "force"
  | debug => "debug"
  | silent => "silent"
  | help => "help"
  | version => "version"

/-- The letter behind one hyphen. -/
def shortName? : Opt → Option Char
  | write => some 'w'
  | check => some 'c'
  | exclude => some 'e'
  | jobs => some 'j'
  | force => some 'f'
  | debug => some 'D'
  | silent => some 'S'
  | help => some 'h'
  | version => some 'V'
  | _ => none

def arity : Opt → Arity
  | inputs | config | exclude | jobs => .value
  | setting f => settingArity f
  | _ => .flag

/-- Options that may be given more than once. -/
def isRepeatable : Opt → Bool
  | inputs | exclude => true
  | _ => false

end Opt

/-! ### Values -/

/-- A number: decimal digits, with or without a plus sign, of at most 64 bits. -/
def readNumber? (s : List Char) : Option Nat :=
  let digits := if s.head? = some '+' then s.drop 1 else s
  if digits.isEmpty || !digits.all Json.isDigit then none
  else
    let n := Json.digitsValue digits
    if n ≤ Json.maxNat64 then some n else none

def readNumber (s : List Char) : Except Stop Nat :=
  match readNumber? s with
  | some n => .ok n
  | none => .error .unreadableValue

def readBool (s : List Char) : Except Stop Bool :=
  if s = "true".toList then .ok true
  else if s = "false".toList then .ok false
  else .error .invalidValue

/-- A path; the empty text is none. -/
def readPath (s : List Char) : Except Stop Path :=
  if s.isEmpty then .error .invalidValue else .ok s

/-- One of the given values, by its name. -/
def readNamed {α : Type} (name : α → String) (all : List α) (s : List Char) : Except Stop α :=
  match all.find? fun a => (name a).toList == s with
  | some a => .ok a
  | none => .error .invalidValue

/-- Sets a setting to a value. -/
def setSetting (f : Field) (o : Overrides) (s : List Char) : Except Stop Overrides :=
  match f with
  | .indentSize => (readNumber s).map fun v => { o with indentSize := some v }
  | .useTabs => (readBool s).map fun v => { o with useTabs := some v }
  | .maxLineLength => (readNumber s).map fun v => { o with maxLineLength := some v }
  | .formatCSharp => (readBool s).map fun v => { o with formatCSharp := some v }
  | .formatCss => (readBool s).map fun v => { o with formatCss := some v }
  | .formatJavaScript => (readBool s).map fun v => { o with formatJavaScript := some v }
  | .attributeLayout =>
    (readNamed AttributeLayout.optionName AttributeLayout.all s).map fun v =>
      { o with attributeLayout := some v }
  | .attributesPerLine => (readNumber s).map fun v => { o with attributesPerLine := some v }
  | .attributeBreakThreshold =>
    (readNumber s).map fun v => { o with attributeBreakThreshold := some v }
  | .breakContent => (readBool s).map fun v => { o with breakContent := some v }
  | .contentBreakThreshold =>
    (readNumber s).map fun v => { o with contentBreakThreshold := some v }
  | .sortAttributes => (readBool s).map fun v => { o with sortAttributes := some v }
  | .collapseEmptyTags => (readBool s).map fun v => { o with collapseEmptyTags := some v }
  | .removeTrailingWhitespace =>
    (readBool s).map fun v => { o with removeTrailingWhitespace := some v }
  | .insertFinalNewline => (readBool s).map fun v => { o with insertFinalNewline := some v }
  | .quoteStyle =>
    (readNamed QuoteStyle.optionName QuoteStyle.all s).map fun v => { o with quoteStyle := some v }

/-- Takes over the values of an option. A setting without a value is switched on. -/
def Opt.set (o : Opt) (a : Arguments) (values : List (List Char)) : Except Stop Arguments :=
  let value := values.headD "true".toList
  match o with
  | .inputs => (values.mapM readPath).map fun ps => { a with inputs := a.inputs ++ ps }
  | .write => .ok { a with write := true }
  | .check => .ok { a with check := true }
  | .config => (readPath value).map fun p => { a with config := some p }
  | .setting f => (setSetting f a.overrides value).map fun v => { a with overrides := v }
  | .exclude => .ok { a with exclude := a.exclude ++ values }
  | .jobs => (readNumber value).map fun n => { a with jobs := some n }
  | .force => .ok { a with force := true }
  | .debug => .ok { a with debug := true }
  | .silent => .ok { a with silent := true }
  | .help => .error .helpRequested
  | .version => .error .versionRequested

/-! ### Reading -/

/-- Which options are known: those before the command, and those of a command. -/
inductive Level where
  | top
  | format
  | init
  deriving Repr, DecidableEq

/-- The options that are known. -/
def Level.options : Level → List Opt
  | top => [.debug, .silent, .help, .version]
  | format =>
    [.write, .check, .config] ++ Field.all.map .setting ++
      [.exclude, .jobs, .debug, .silent, .help]
  | init => [.force, .debug, .silent, .help]

/-- The option with the given name. -/
def Level.long? (l : Level) (name : List Char) : Option Opt :=
  l.options.find? fun o => o.longName.toList == name

/-- The option with the given letter. -/
def Level.short? (l : Level) (c : Char) : Option Opt :=
  l.options.find? fun o => o.shortName? == some c

/-- A command line that is being read. -/
structure Reading where
  level : Level := .top
  arguments : Arguments := {}
  /-- The options that are taken over. -/
  given : List Opt := []
  /-- An option with its values so far, which is not taken over yet. -/
  pending : Option (Opt × List (List Char)) := none
  /-- Whether the pending option still needs its value. -/
  awaiting : Bool := false
  /-- Whether only inputs may follow. -/
  inputsOnly : Bool := false

namespace Reading

/-- Takes over an option with its values. -/
def store (r : Reading) (o : Opt) (values : List (List Char)) : Except Stop Reading :=
  if o.arity = .value && values.isEmpty then .error .invalidValue
  else if !o.isRepeatable && r.given.contains o then .error .conflict
  else (o.set r.arguments values).map fun a => { r with arguments := a, given := o :: r.given }

/-- Takes over the pending option. -/
def settle (r : Reading) : Except Stop Reading :=
  match r.pending with
  | none => .ok r
  | some (o, values) => { r with pending := none, awaiting := false }.store o values

/-- Takes over the pending option, then another one with all its values. -/
def accept (r : Reading) (o : Opt) (values : List (List Char)) : Except Stop Reading := do
  let r ← r.settle
  r.store o values

/-- Takes over the pending option; another one becomes pending and waits for its value. -/
def await (r : Reading) (o : Opt) : Except Stop Reading := do
  let r ← r.settle
  return { r with pending := some (o, []), awaiting := true }

/-- Reads what stands behind two hyphens: a name, or a name with a value behind an equals
sign. -/
def readLong (r : Reading) (s : List Char) : Except Stop Reading :=
  let name := s.takeWhile (· != '=')
  let value? := (s.drop name.length).tail?
  match r.level.long? name, value? with
  | none, _ => .error .unknownArgument
  | some o, some value => if o.arity = .flag then .error .unexpectedValue else r.accept o [value]
  | some o, none => if o.arity = .value then r.await o else r.accept o []

/-- Reads what stands behind one hyphen: letters of flags, and at the end possibly a letter with
a value. -/
def readShort (r : Reading) : List Char → Except Stop Reading
  | [] => .ok r
  | c :: s =>
    match r.level.short? c with
    | none => .error .unknownArgument
    | some o =>
      if o.arity = .value then
        match s with
        | [] => r.await o
        | '=' :: value => r.accept o [value]
        | value => r.accept o [value]
      else
        match r.accept o [] with
        | .error e => .error e
        | .ok r => readShort r s

/-- Reads an input. Inputs that follow each other are taken over together. -/
def readInput (r : Reading) (s : List Char) : Except Stop Reading :=
  match r.pending with
  | some (.inputs, values) => .ok { r with pending := some (.inputs, values ++ [s]) }
  | _ => do
    let r ← r.settle
    return { r with pending := some (.inputs, [s]) }

/-- Gives the pending option its value. -/
def giveValue (r : Reading) (s : List Char) : Reading :=
  { r with
    pending := r.pending.map fun (o, values) => (o, values ++ [s])
    awaiting := false }

/-- The end of the command line. -/
def finish (r : Reading) : Except Stop Arguments :=
  match r.level with
  | .top => .error (if r.given.isEmpty then .nothingGiven else .missingCommand)
  | _ => do
    let r ← r.settle
    if r.arguments.write && r.arguments.check then .error .conflict
    else return r.arguments

end Reading

/-- The commands by name; asking for help is one of them. -/
def isCommandName (s : List Char) : Bool :=
  s == "format".toList || s == "init".toList || s == "help".toList

/-- What follows a request for help: nothing, or the name of a command. -/
def readHelp : List (List Char) → Stop
  | [] => .helpRequested
  | [name] => if isCommandName name then .helpRequested else .unknownCommand
  | _ => .unknownCommand

/-- Reads the rest of a command line. -/
def readFrom (r : Reading) : List (List Char) → Except Stop Arguments
  | [] => r.finish
  | s :: rest =>
    let input : Except Stop Arguments :=
      match r.level with
      | .top =>
        .error (if r.inputsOnly && isCommandName s then .unknownArgument else .unknownCommand)
      | .init => .error .unknownArgument
      | .format => do readFrom (← r.readInput s) rest
    if r.inputsOnly then input
    else if r.level = .top && s = "format".toList then
      readFrom { level := .format, arguments := { r.arguments with command := .format } } rest
    else if r.level = .top && s = "init".toList then
      readFrom { level := .init, arguments := { r.arguments with command := .init } } rest
    else if r.level = .top && s = "help".toList then .error (readHelp rest)
    else
      match s with
      | ['-', '-'] => readFrom { r with inputsOnly := true } rest
      | '-' :: '-' :: name => do readFrom (← r.readLong name) rest
      | '-' :: c :: letters => do readFrom (← r.readShort (c :: letters)) rest
      | _ => if r.awaiting then readFrom (r.giveValue s) rest else input

/-- Reads a command line, without the name of the program. -/
def parse (args : List (List Char)) : Except Stop Arguments := readFrom {} args

end RazorLayout.CommandLine

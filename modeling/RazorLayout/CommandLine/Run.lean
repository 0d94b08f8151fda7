import RazorLayout.CommandLine.Arguments
import RazorLayout.Files.Glob
import RazorLayout.Layout.Format
import RazorLayout.Settings.Discovery
import RazorLayout.Text.Control

/-!
# Runs

A run carries out a command line. It sees a file tree and an input stream, and it leaves a file
tree, two output streams and an exit status. Files are handled one after the other in the order
of their paths; a file that cannot be handled is reported and does not stop the run.

## Main definitions

* `CommandLine.Outcome`: what a run leaves
* `CommandLine.collect`: the files that a command line names
* `CommandLine.formatFile`: the handling of one file
* `CommandLine.run`: a whole run
-/

namespace RazorLayout.CommandLine

open Text Files

/-- What a run leaves. -/
structure Outcome where
  tree : Tree
  stdout : List Char := []
  /-- The messages of the error stream, each of which ends its line. -/
  stderr : List (List Char) := []
  exitCode : Nat := 0

/-- The largest file that is read, in bytes. -/
def maxFileSize : Nat := 100 * 1024 * 1024

/-- Bytes in the unit of messages. -/
def megabyte : Nat := 1024 * 1024

/-- A number in messages. -/
def number (n : Nat) : List Char := Nat.toDigits 10 n

/-- Why something cannot be done. -/
inductive Problem where
  /-- the configuration file that was named cannot be loaded -/
  | unloadable (config : Path)
  /-- the settings do not meet a bound -/
  | invalid (violation : Settings.Violation)
  /-- the bytes of a file are no text -/
  | unreadable (file : Path)
  /-- the bytes of the input stream are no text, or too many -/
  | unreadableInput
  /-- there is a configuration file already -/
  | alreadyThere (config : Path)
  /-- a file cannot be written -/
  | unwritable (file : Path)
  deriving Repr, DecidableEq

/-- The wording of a problem. -/
def Problem.message : Problem → List Char
  | unloadable config => "failed to load config ".toList ++ config
  | invalid violation => "Invalid configuration: ".toList ++ violation.message.toList
  | unreadable file =>
    "failed to read ".toList ++ file ++ ": ".toList ++ Settings.notText.toList
  | unreadableInput =>
    "failed to read stdin (limit ".toList ++ number (maxFileSize / megabyte) ++ " MB)".toList
  | alreadyThere config => config ++ " already exists (use --force to overwrite)".toList
  | unwritable file => "failed to write ".toList ++ file

/-- A message of the log. -/
def warning (message : List Char) : List Char := "WARN ".toList ++ showControls message

/-! ### Settings of a run -/

/-- Settings within their bounds. -/
def checked (s : Settings) : Except Problem Settings :=
  match s.violation? with
  | some v => .error (.invalid v)
  | none => .ok s

/-- The settings of the configuration file that was named, with the options on top. -/
def namedSettings (host : Host) (args : Arguments) (config : Path) : Except Problem Settings :=
  match host.tree.read? host.base config with
  | none => .error (.unloadable config)
  | some content =>
    match decode content.toBytes with
    | .error _ => .error (.unloadable config)
    | .ok s =>
      match Settings.readOverrides s with
      | .error _ => .error (.unloadable config)
      | .ok o => checked ((Settings.apply {} o).apply args.overrides)

/-- The settings for a path: those of the configuration file that was named, or those of the
configuration files that are found, with the options on top. -/
def settingsFor (host : Host) (args : Arguments) (start : Path) :
    Except Problem Settings × List Settings.Warning :=
  match args.config with
  | some config => (namedSettings host args config, [])
  | none =>
    let (s, ws) := Settings.discovered host start
    (checked (s.apply args.overrides), ws)

/-! ### Files of a run -/

/-- The endings of template files. -/
def templateExtensions : List (List Char) := ["razor".toList, "cshtml".toList]

/-- Files whose names end like those of templates. -/
def isTemplate (p : Path) : Bool :=
  p.extension?.any fun e => templateExtensions.any (sameIgnoringAsciiCase e)

/-- Whether the path, or one of the names in it, fits one of the patterns. -/
def isExcluded (patterns : List Glob) (p : Path) : Bool :=
  patterns.any fun g =>
    g.fits p || p.components.any fun c =>
      match c with
      | .name n => g.fits n
      | _ => false

/-- The patterns of a command line, and the warnings about texts that are none. -/
def patterns (args : Arguments) : List Glob × List (List Char) :=
  args.exclude.foldr (fun text (globs, warnings) =>
    match Glob.parse text with
    | .ok g => (g :: globs, warnings)
    | .error e =>
      (globs, warning ("ignoring invalid exclude pattern '".toList ++ text ++ "': ".toList
        ++ e.message.toList) :: warnings)) ([], [])

/-- The files that one input names: itself, or all templates in it and below it. There are none
when it does not exist. -/
def filesOf? (host : Host) (globs : List Glob) (input : Path) : Option (List Path) :=
  match host.tree.resolve? host.base input with
  | none => none
  | some place =>
    if host.tree.isFile place then some ([input].filter fun p => !isExcluded globs p)
    else if host.tree.isDirectory place then
      some ((host.tree.filesBelow place input).filter fun p =>
        isTemplate p && !isExcluded globs p)
    else none

/-- The entries that differ from the last one kept; `last` is kept already. -/
def dropRepeatedAfter (last : Path) : List Path → List Path
  | [] => []
  | p :: ps => if p.same last then dropRepeatedAfter last ps else p :: dropRepeatedAfter p ps

/-- The list without entries that are the same as the one before them. -/
def dropRepeated : List Path → List Path
  | [] => []
  | p :: ps => p :: dropRepeatedAfter p ps

/-- The files that a command line names, in the order of their paths and without repetitions, and
the inputs that do not exist. -/
def collect (host : Host) (args : Arguments) (globs : List Glob) : List Path × List Path :=
  let inputs := if args.inputs.isEmpty then [['.']] else args.inputs
  let files := inputs.flatMap fun p => (filesOf? host globs p).getD []
  let missing := inputs.filter fun p => (filesOf? host globs p).isNone
  (dropRepeated (files.mergeSort fun p q => !q.before p), missing)

/-! ### The files one after the other -/

/-- What became of a file. -/
inductive Fate where
  | unchanged
  | changed
  | skipped
  deriving Repr, DecidableEq

/-- A run under way. -/
structure Progress where
  host : Host
  /-- The parts of the output, the last one first. -/
  stdout : List (List Char) := []
  /-- The messages of the error stream, the last one first. -/
  stderr : List (List Char) := []
  changed : Nat := 0
  unchanged : Nat := 0
  errors : Nat := 0

namespace Progress

/-- Adds to the output. -/
def print (p : Progress) (s : List Char) : Progress := { p with stdout := s :: p.stdout }

/-- Adds a message to the error stream. -/
def report (p : Progress) (message : List Char) : Progress :=
  { p with stderr := message :: p.stderr }

/-- What the run leaves when it ends here. -/
def outcome (p : Progress) (failed : Bool) : Outcome where
  tree := p.host.tree
  stdout := p.stdout.reverse.flatten
  stderr := p.stderr.reverse
  exitCode := if failed then 1 else 0

end Progress

/-- Whether the formatted text goes to the output. -/
def Arguments.prints (args : Arguments) : Bool := !args.write && !args.check

/-- The line about a file that was written or checked. -/
def fateLine (args : Arguments) (fate : Fate) (file : Path) : List Char :=
  match fate, args.write with
  | .changed, true => "✓ ".toList ++ file ++ " - formatted\n".toList
  | .changed, false => "✗ ".toList ++ file ++ " - needs formatting\n".toList
  | _, _ => "✓ ".toList ++ file ++ " - already formatted\n".toList

/-- Writes, checks or prints the formatted text of a file. -/
def deliver (args : Arguments) (file : Path) (place : Place) (fate : Fate)
    (formatted : List Char) (p : Progress) : Progress :=
  if args.prints then
    let p := if args.silent then p else p.print ("=== ".toList ++ file ++ " ===\n".toList)
    p.print formatted
  else
    let p :=
      if args.write && fate = .changed then
        { p with host.tree := p.host.tree.write place (.bytes (encode formatted)) }
      else p
    if args.silent then p else p.print (fateLine args fate file)

/-- Lays out one file with the given settings. Files that are too large are skipped. -/
def layOut (args : Arguments) (settings : Settings) (file : Path) (p : Progress) :
    Except Problem Fate × Progress :=
  match p.host.tree.resolve? p.host.base file with
  | none => (.error (.unreadable file), p)
  | some place =>
    match p.host.tree.file? place with
    | none => (.error (.unreadable file), p)
    | some content =>
      if content.size > maxFileSize then
        let line := "Skipping ".toList ++ file ++ " (".toList ++ number (content.size / megabyte)
          ++ " MB exceeds limit of ".toList ++ number (maxFileSize / megabyte) ++ " MB)".toList
        (.ok .skipped, if args.silent then p else p.report line)
      else
        match decode content.toBytes with
        | .error _ => (.error (.unreadable file), p)
        | .ok source =>
          let formatted := Layout.format settings source
          let fate : Fate := if formatted = source then .unchanged else .changed
          (.ok fate, deliver args file place fate formatted p)

/-- Counts what became of a file, and reports a problem with it. -/
def account (file : Path) (fate : Except Problem Fate) (p : Progress) : Progress :=
  match fate with
  | .ok .changed => { p with changed := p.changed + 1 }
  | .ok .unchanged => { p with unchanged := p.unchanged + 1 }
  | .ok .skipped => p
  | .error e =>
    { p.report ("Error formatting ".toList ++ file ++ ": ".toList ++ e.message) with
      errors := p.errors + 1 }

/-- Handles one file: with the settings of the whole run, or else with those that its own place
gives it. -/
def formatFile (args : Arguments) (shared : Option Settings) (p : Progress) (file : Path) :
    Progress :=
  match shared with
  | some settings =>
    let (fate, p) := layOut args settings file p
    account file fate p
  | none =>
    let start :=
      match p.host.tree.resolve? p.host.base file with
      | some place => place.path
      | none => file
    let (settings, ws) := settingsFor p.host args start
    let p := ws.foldl (fun p w => p.report (warning w.message)) p
    match settings with
    | .error e => account file (.error e) p
    | .ok settings =>
      let (fate, p) := layOut args settings file p
      account file fate p

/-- The last line about a run that wrote or checked files. -/
def summary (args : Arguments) (p : Progress) : List Char :=
  let verb := if args.check then "need formatting" else "formatted"
  let errors := if p.errors = 0 then [] else ", ".toList ++ number p.errors ++ " errors".toList
  number p.changed ++ " files ".toList ++ verb.toList ++ ", ".toList ++ number p.unchanged
    ++ " unchanged".toList ++ errors ++ ['.']

/-! ### Whole runs -/

/-- A run that ends with a problem. -/
def giveUp (host : Host) (e : Problem) (before : List (List Char)) : Outcome where
  tree := host.tree
  stderr := before ++ ["Error: ".toList ++ e.message]
  exitCode := 1

/-- Lays out the input stream. -/
def formatInput (host : Host) (stdin : List UInt8) (args : Arguments) : Outcome :=
  let (settings, ws) := settingsFor host args host.base.path
  let lines := ws.map fun w => warning w.message
  match settings with
  | .error e => giveUp host e lines
  | .ok settings =>
    match readLimited maxFileSize stdin with
    | .error _ => giveUp host .unreadableInput lines
    | .ok source =>
      { tree := host.tree, stdout := Layout.format settings source, stderr := lines }

/-- Lays out files in the given order; `shared` are the settings of the whole run, if a
configuration file was named. The warnings and the missing inputs are reported first. -/
def formatAll (host : Host) (args : Arguments) (shared : Option Settings)
    (warnings : List (List Char)) (files missing : List Path) : Outcome :=
  let lines := warnings ++ missing.map fun p =>
    "Error: ".toList ++ p ++ " does not exist".toList
  let start : Progress := { host, stderr := lines.reverse, errors := missing.length }
  if files.isEmpty then
    let p :=
      if args.silent then start
      else start.report "No .razor or .cshtml files found to format.".toList
    p.outcome (!missing.isEmpty)
  else
    let p := files.foldl (formatFile args shared) start
    let failed := 0 < p.errors || (args.check && 0 < p.changed)
    let p := if args.silent || args.prints then p else p.report (summary args p)
    p.outcome failed

/-- Lays out the files that the command line names. -/
def formatFiles (host : Host) (args : Arguments) (shared : Option Settings) : Outcome :=
  let (globs, warnings) := patterns args
  let (files, missing) := collect host args globs
  formatAll host args shared warnings files missing

/-- The command that lays out templates. -/
def runFormat (host : Host) (stdin : List UInt8) (args : Arguments) : Outcome :=
  if args.inputs = [['-']] then formatInput host stdin args
  else
    match args.config with
    | none => formatFiles host args none
    | some config =>
      match namedSettings host args config with
      | .error e => giveUp host e []
      | .ok settings => formatFiles host args (some settings)

/-- The command that writes a configuration file with the default settings. -/
def runInit (host : Host) (args : Arguments) : Outcome :=
  let place := host.base ++ [Settings.fileName]
  let config := place.path
  if host.tree.contains place && !args.force then giveUp host (.alreadyThere config) []
  else if host.tree.isDirectory place then giveUp host (.unwritable config) []
  else
    { tree := host.tree.write place (.bytes (encode (Settings.save {})))
      stdout := if args.silent then [] else "Created ".toList ++ config ++ ['\n'] }

/-- Carries out what a command line says. -/
def runArguments (host : Host) (stdin : List UInt8) (args : Arguments) : Outcome :=
  match args.command with
  | .format => runFormat host stdin args
  | .init => runInit host args

/-- The line that names program and version. -/
def versionLine : List Char := "blazorfmt 0.1.0\n".toList

/-- A short description of the command line. -/
def usage : List Char :=
  ("Usage: blazorfmt [OPTIONS] <COMMAND>\n\nCommands:\n"
    ++ "  format  Format .razor / .cshtml files\n"
    ++ "  init    Write a .blazorfmt.json with the default settings\n"
    ++ "  help    Print this message\n").toList

/-- A run that ends while its command line is read. -/
def stopped (host : Host) (stop : Stop) : Outcome :=
  match stop with
  | .helpRequested => { tree := host.tree, stdout := usage }
  | .versionRequested => { tree := host.tree, stdout := versionLine }
  | _ => { tree := host.tree, stderr := [usage], exitCode := stop.exitCode }

/-- Carries out a command line, given without the name of the program. -/
def run (host : Host) (stdin : List UInt8) (args : List (List Char)) : Outcome :=
  match parse args with
  | .error stop => stopped host stop
  | .ok arguments => runArguments host stdin arguments

end RazorLayout.CommandLine

import RazorLayout.Files.Tree
import RazorLayout.Settings.File

/-!
# Finding configuration files

The settings of a file come from the configuration files in the directories above it and in the
home directory. Files that are nearer count more, so they are applied later. A configuration
file that cannot be read contributes nothing.

## Main definitions

* `Host`: what a run can see of the machine
* `Settings.configFiles`: the configuration files for a path, the least specific first
* `Settings.Warning`: a configuration file that was left out
* `Settings.discovered`: the settings for a path
-/

namespace RazorLayout

open Text Files

/-- What a run can see of the machine. -/
structure Host where
  tree : Tree
  /-- The working directory. -/
  base : Place := []
  /-- The home directory, if there is one. -/
  home : Option Path := none

/-- The home directory: that of the first variable that is set. -/
def homeDirectory (home userProfile : Option Path) : Option Path := home <|> userProfile

namespace Settings

/-- The name of configuration files. -/
def fileName : Path := ".blazorfmt.json".toList

/-- The path of the configuration file in a directory, when there is one. -/
def configIn? (host : Host) (directory : Path) : Option Path :=
  let p := directory.join fileName
  if host.tree.leadsToFile host.base p then some p else none

/-- The directory in which the search for a path starts. -/
def startDirectory? (host : Host) (start : Path) : Option Path :=
  if host.tree.leadsToFile host.base start then start.parent?
  else if host.tree.leadsToDirectory host.base start then some start
  else some host.base.path

/-- Adds a path at the end of a list that does not have it. -/
def addNew (found : List Path) (p : Path) : List Path :=
  if found.any (Path.same p) then found else found ++ [p]

/-- The configuration files for a path, the least specific first: that of the home directory,
then those from the root down to the path. -/
def configFiles (host : Host) (start : Path) : List Path :=
  let home := (host.home.bind (configIn? host)).toList
  match startDirectory? host start with
  | none => home
  | some directory => (directory.ancestors.reverse.filterMap (configIn? host)).foldl addNew home

/-- A configuration file that was left out. -/
inductive Warning where
  /-- its bytes are no text -/
  | unreadable (file : Path)
  /-- its text does not describe settings -/
  | unparsable (file : Path)
  deriving Repr, DecidableEq

/-- What the system says about bytes that are no text. -/
def notText : String := "stream did not contain valid UTF-8"

/-- The wording of a warning. -/
def Warning.message : Warning → List Char
  | unreadable file => "failed to read ".toList ++ file ++ (": " ++ notText).toList
  | unparsable file => "failed to parse ".toList ++ file

/-- The layer that the configuration file at a path describes. -/
def layerOf (host : Host) (file : Path) : Except Warning Overrides :=
  match decode (((host.tree.read? host.base file).map Content.toBytes).getD []) with
  | .error _ => .error (.unreadable file)
  | .ok s => (readOverrides s).mapError fun _ => .unparsable file

/-- The settings with the layers of configuration files on top, later files above earlier ones,
and the warnings about files that were left out. -/
def withFiles (host : Host) : Settings → List Path → Settings × List Warning
  | s, [] => (s, [])
  | s, file :: files =>
    match layerOf host file with
    | .ok o => withFiles host (s.apply o) files
    | .error w =>
      let (s, ws) := withFiles host s files
      (s, w :: ws)

/-- The settings for a path, and the warnings about files that were left out. -/
def discovered (host : Host) (start : Path) : Settings × List Warning :=
  withFiles host {} (configFiles host start)

end Settings

end RazorLayout

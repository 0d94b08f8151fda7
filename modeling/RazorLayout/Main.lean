import RazorLayout.CommandLine.Run

/-!
# The program

The program takes a picture of the files that its command line can reach, carries the command
line out on the picture, and brings the files into line with what the run leaves.

## Main definitions

* `Program.addPlace`, `Program.addConfigs`: what the picture shows
* `Program.takePicture`: the machine as the command line sees it
* `Program.save`: writes the files that the run has changed
* `main`: the program
-/

namespace RazorLayout.Program

open Text Files CommandLine

/-- The content of a file. A file that is too large to be handled is known by its size only. -/
def readContent (path : String) (size : Nat) : IO Content := do
  if size > maxFileSize then return .zeros size
  return .bytes (← IO.FS.readBinFile path).toList

/-- Files that matter although the command line does not name them. -/
def isRelevant (place : Place) : Bool :=
  place.getLast?.any fun name => isTemplate name || name == Settings.fileName

/-- The tree with what is at a place. Of a directory it has everything down to the given depth;
a directory that contains itself is not entered again. -/
def addPlace : (depth : Nat) → (above : List String) → Tree → Place → IO Tree
  | depth, above, tree, place => do
    try
      let real ← IO.FS.realPath (String.ofList place.path)
      let info ← real.metadata
      match info.type, depth with
      | .file, _ =>
        return tree.addFile place (← readContent real.toString info.byteSize.toNat)
      | .dir, 0 => return tree.addDirectory place
      | .dir, depth + 1 =>
        if above.contains real.toString then return tree
        (← real.readDir).foldlM (fun tree entry => do
          let next := place ++ [entry.fileName.toList]
          if isRelevant next || (← entry.path.isDir) then
            addPlace depth (real.toString :: above) tree next
          else return tree) (tree.addDirectory place)
      | _, _ => return tree
    catch _ => return tree

/-- The tree with the configuration files in a directory and in those above it. -/
def addConfigs (tree : Tree) (directory : Place) : IO Tree :=
  (List.range (directory.length + 1)).foldlM (fun tree n =>
    addPlace 0 [] tree (directory.take n ++ [Settings.fileName])) tree

/-- The machine as a command line sees it. -/
def takePicture (args : Arguments) : IO Host := do
  let base := Place.follow [] (← IO.currentDir).toString.toList
  let home := homeDirectory ((← IO.getEnv "HOME").map String.toList)
    ((← IO.getEnv "USERPROFILE").map String.toList)
  let inputs := if args.inputs.isEmpty then [['.']] else args.inputs
  let tree ← addConfigs {} base
  let tree ← addPlace 0 [] tree base
  let tree ← (home.toList ++ inputs).foldlM (fun tree p => addConfigs tree (base.follow p)) tree
  let tree ← args.config.toList.foldlM (fun tree p => addPlace 0 [] tree (base.follow p)) tree
  let tree ←
    match args.command with
    | .init => pure tree
    | .format =>
      inputs.foldlM (fun tree p => addPlace Tree.maxDepth [] tree (base.follow p)) tree
  return { tree, base, home }

/-- The bytes of a stream, as long as there are not too many. -/
partial def readStream (stream : IO.FS.Stream) (bytes : ByteArray) : IO (List UInt8) := do
  let more ← stream.read 65536
  if more.isEmpty || bytes.size > maxFileSize then return (bytes ++ more).toList
  readStream stream (bytes ++ more)

/-- Writes the files that differ between two trees. -/
def save (before after : Tree) : IO Unit :=
  after.files.forM fun (place, content) =>
    match content with
    | .bytes bs =>
      if before.file? place = some content then pure ()
      else IO.FS.writeBinFile (String.ofList place.path) ⟨bs.toArray⟩
    | .zeros _ => pure ()

end RazorLayout.Program

open RazorLayout in
/-- Carries out a command line; the result is the exit status. -/
def main (args : List String) : IO UInt32 := do
  let words := args.map String.toList
  let host ←
    match CommandLine.parse words with
    | .error _ => pure { tree := {} }
    | .ok arguments => Program.takePicture arguments
  let stdin ←
    match CommandLine.parse words with
    | .ok { inputs := [['-']], .. } => Program.readStream (← IO.getStdin) .empty
    | _ => pure []
  let outcome := CommandLine.run host stdin words
  Program.save host.tree outcome.tree
  (← IO.getStdout).putStr (String.ofList outcome.stdout)
  outcome.stderr.forM fun line => IO.eprintln (String.ofList line)
  return outcome.exitCode.toUInt32

import RazorLayout.Proofs.CommandLine.Layering
import RazorLayout.Proofs.Text.Encoding

/-!
# Settings that are saved are read again

Saved settings are one description among many: each field stands in it once, on a line of its own,
with a value. What is known of descriptions therefore applies. The layer that is read from saved
settings sets every field, so that nothing of the settings below it is left, and it does not matter
whether the text is read as a layer or as complete settings. Neither reading looks at the bounds
that a run checks; only the width of numbers counts.

## Main definitions

* `savedEntries`: what saved settings say about the fields
* `fromFile?`, `saveAt`: settings in a file

## Main results

* `speltLayer_save`: saved settings are a description of the values of all fields
* `readForm_save`: the layer that is read from saved settings
* `namedSettings_saveAt`: a run to which a saved file is named starts from the saved settings
* `fromFile?_saveAt_and_readComplete_save`: saved settings are read again
-/

namespace RazorLayout.Settings

open Json Text Files

/-! ### The text of saved settings -/

/-- Saved settings give every field its value. -/
def savedEntries (s : Settings) : List Entry := Field.all.map fun f => ⟨f, some (f.get s)⟩

variable (s : Settings)

theorem mem_all (f : Field) : f ∈ Field.all := by
  cases f <;> decide

theorem mem_savedEntries {e : Entry} (h : e ∈ savedEntries s) : e.value = some (e.field.get s) := by
  obtain ⟨f, -, rfl⟩ := List.mem_map.1 h
  rfl

theorem nodup_savedEntries : ((savedEntries s).map Entry.field).Nodup := by
  have fields : (savedEntries s).map Entry.field = Field.all := List.map_map ..
  rw [fields]
  decide

theorem literal_get (f : Field) : f.literal (f.get s) = f.write s := by
  cases f <;> rfl

/-- A field of saved settings, with the two spaces in front of it. -/
def savedLine (f : Field) : List Char :=
  "  \"".toList ++ f.key.toList ++ "\": ".toList ++ f.write s

theorem spaces_of_all (gap : List Char) (h : gap.all isSpace = true) : Spaces gap :=
  List.all_eq_true.1 h

theorem speltEntry_savedLine (f : Field) {behind : List Char} (hbehind : Spaces behind) :
    SpeltEntry ⟨f, some (f.get s)⟩ ('\n' :: savedLine s f ++ behind) := by
  have spelt : SpeltEntry ⟨f, some (f.get s)⟩ _ :=
    .mk (spaces_of_all "\n  ".toList rfl) (spaces_of_all [] rfl) (spaces_of_all [' '] rfl) hbehind
  simpa [savedLine, Entry.text, literal_get] using spelt

/-- The lines of fields, from the line end in front of the first to the brace behind the last. -/
theorem speltEntries_savedLines {fs : List Field} (hfs : fs ≠ []) :
    SpeltEntries (fs.map fun f => ⟨f, some (f.get s)⟩)
      ('\n' :: joinWith [',', '\n'] (fs.map (savedLine s)) ++ ['\n', '}']) := by
  induction fs with
  | nil => exact absurd rfl hfs
  | cons f fs ih =>
    cases fs with
    | nil =>
      have last := SpeltEntries.last (speltEntry_savedLine s f (spaces_of_all ['\n'] rfl))
      simpa [joinWith] using last
    | cons g fs =>
      have first := speltEntry_savedLine s f (spaces_of_all [] rfl)
      simpa [joinWith] using SpeltEntries.cons first (ih (by simp))

/-- Saved settings are a description of the values of all fields. -/
theorem speltLayer_save : SpeltLayer (savedEntries s) (save s) := by
  have entries := speltEntries_savedLines s (show Field.all ≠ [] by decide)
  have layer : SpeltLayer (savedEntries s) _ :=
    .entries (spaces_of_all [] rfl) entries (spaces_of_all ['\n'] rfl)
  have text : save s = ['{', '\n'] ++ joinWith [',', '\n'] (Field.all.map (savedLine s))
      ++ ['\n', '}', '\n'] := rfl
  rw [text]
  simpa using layer

/-! ### Reading saved settings -/

/-- The layer of saved settings leaves nothing of what is below it. -/
theorem apply_layer_savedEntries (below : Settings) :
    below.apply (Entry.layer (savedEntries s)) = s := by
  refine eq_of_get_eq fun f => ?_
  have value : f.get? (Entry.layer (savedEntries s)) = some (f.get s) :=
    (get?_layer (nodup_savedEntries s)).2 (List.mem_map_of_mem (mem_all f))
  rw [Field.get_apply, value]
  rfl

variable {s} (hs : ∀ f : Field, f.Fits (f.get s))

include hs

theorem readForm_save (form : Form) :
    readForm form (save s) = .ok (Entry.layer (savedEntries s)) := by
  refine readForm_of_spelt (speltLayer_save s) (fun e he v hv => ?_) (fun e he _ => ?_)
    (nodup_savedEntries s)
  · obtain rfl : e.field.get s = v := by
      rw [mem_savedEntries s he] at hv
      exact Option.some.inj hv
    exact hs e.field
  · rw [mem_savedEntries s he]
    exact Option.some_ne_none _

theorem readComplete_save : readComplete (save s) = .ok s := by
  rw [readComplete, readForm_save hs, Except.map, apply_layer_savedEntries]

omit hs

/-! ### Settings in files -/

/-- The settings that the configuration file at a path describes, on top of the defaults. There are
none when there is no file, when its bytes are no text and when the text describes no settings. -/
def fromFile? (host : Host) (file : Path) : Option Settings :=
  (CommandLine.fileLayer? host file).map (Settings.apply {})

/-- The machine on which settings are saved at a place. -/
def saveAt (host : Host) (place : Place) (s : Settings) : Host :=
  { host with tree := host.tree.write place (.bytes (encode s.save)) }

include hs

theorem fileLayer?_saveAt {host : Host} {place : Place} {file : Path}
    (hfile : (saveAt host place s).tree.resolve? host.base file = some place) :
    CommandLine.fileLayer? (saveAt host place s) file = some (Entry.layer (savedEntries s)) := by
  have content : (saveAt host place s).tree.read? (saveAt host place s).base file
      = some (.bytes (encode (save s))) := by
    rw [Tree.read?, show (saveAt host place s).base = host.base from rfl, hfile]
    exact Tree.file?_write_self host.tree place _
  have layer : readOverrides (save s) = .ok (Entry.layer (savedEntries s)) :=
    readForm_save hs .layered
  simp [CommandLine.fileLayer?, content, Content.toBytes, decode_encode, layer, Except.toOption]

theorem fromFile?_saveAt {host : Host} {place : Place} {file : Path}
    (hfile : (saveAt host place s).tree.resolve? host.base file = some place) :
    fromFile? (saveAt host place s) file = some s := by
  rw [fromFile?, fileLayer?_saveAt hs hfile, Option.map_some, apply_layer_savedEntries]

/-- A run to which a saved file is named puts its options on top of the saved settings. -/
theorem namedSettings_saveAt (args : CommandLine.Arguments) {host : Host} {place : Place}
    {file : Path} (hfile : (saveAt host place s).tree.resolve? host.base file = some place) :
    CommandLine.namedSettings (saveAt host place s) args file
      = CommandLine.checked (s.apply args.overrides) := by
  rw [CommandLine.namedSettings_eq, fileLayer?_saveAt hs hfile]
  dsimp only
  rw [apply_layer_savedEntries]

/-- Settings whose numbers have at most 64 bits are read again from the file they are saved in,
within the bounds of a run or not, and their text is also read as complete settings. -/
theorem fromFile?_saveAt_and_readComplete_save :
    (∀ (host : Host) (place : Place) (file : Path),
        (saveAt host place s).tree.resolve? host.base file = some place →
        fromFile? (saveAt host place s) file = some s ∧
        ∀ args : CommandLine.Arguments, CommandLine.namedSettings (saveAt host place s) args file
          = CommandLine.checked (s.apply args.overrides)) ∧
      readComplete (save s) = .ok s :=
  ⟨fun _ _ _ hfile => ⟨fromFile?_saveAt hs hfile, fun args => namedSettings_saveAt hs args hfile⟩,
    readComplete_save hs⟩

omit hs

/-- Settings that no run accepts: lines are as long as numbers go, and levels are not indented. -/
def outOfBounds : Settings where
  indentSize := 0
  useTabs := true
  maxLineLength := maxNat64
  attributeLayout := .inline
  quoteStyle := .single

theorem fromFile?_saveAt_and_readComplete_save_outOfBounds :
    let place : Place := ["p".toList, fileName]
    let host : Host := { tree := { directories := [["p".toList]] } }
    outOfBounds.violation?.isSome = true ∧
      (∀ f : Field, f.Fits (f.get outOfBounds)) ∧
      (saveAt host place outOfBounds).tree.resolve? host.base "/p/.blazorfmt.json".toList
        = some place ∧
      fromFile? (saveAt host place outOfBounds) "/p/.blazorfmt.json".toList = some outOfBounds ∧
      readComplete (save outOfBounds) = .ok outOfBounds := by
  intro place host
  have fits : ∀ f : Field, f.Fits (f.get outOfBounds) := by
    intro f
    cases f <;> first | trivial | exact Nat.le_of_ble_eq_true rfl
  have found : (saveAt host place outOfBounds).tree.resolve? host.base "/p/.blazorfmt.json".toList
      = some place := by
    decide +kernel
  obtain ⟨fromFile, complete⟩ := fromFile?_saveAt_and_readComplete_save fits
  exact ⟨by decide, fits, found, (fromFile host place _ found).1, complete⟩

end RazorLayout.Settings

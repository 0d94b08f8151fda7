import RazorLayout.CommandLine.Run
import RazorLayout.Proofs.Settings.Description

/-!
# The settings of a run, layer by layer

A run puts its settings together from the defaults, the configuration files that it finds and the
options of the command line, and then it checks the bounds. A configuration file counts as a whole
or not at all: when its bytes are no text, or when its text goes wrong anywhere, not even the
entries before the fault count.

## Main definitions

* `fileLayer?`: the layer of a configuration file that can be read to its end
* `layeredValue`: the value of a field that options and files give together
* `IsLayered`: the outcome of putting layers together and checking the bounds

## Main results

* `fst_withFiles`: configuration files are applied one after the other
* `settingsFor_isLayered`: the settings of a run, field by field
-/

namespace RazorLayout.CommandLine

open Text Files Settings

/-! ### Layers of files -/

/-- The layer of a configuration file. There is none when the file cannot be read, or when its text
does not describe settings from its beginning to its end. -/
def fileLayer? (host : Host) (file : Path) : Option Overrides := do
  let content ← host.tree.read? host.base file
  let text ← (decode content.toBytes).toOption
  (readOverrides text).toOption

theorem toOption_layerOf (host : Host) (file : Path) :
    (layerOf host file).toOption = fileLayer? host file := by
  unfold layerOf fileLayer?
  cases host.tree.read? host.base file with
  | none => rfl
  | some content =>
    simp only [Option.map_some, Option.getD_some, Option.bind_eq_bind, Option.bind_some]
    cases decode content.toBytes with
    | error e => rfl
    | ok text => cases h : readOverrides text <;> simp [Except.toOption, Except.mapError, h]

/-- Configuration files are applied one after the other, without those that are left out. -/
theorem fst_withFiles (host : Host) (files : List Path) (s : Settings) :
    (withFiles host s files).1 = (files.filterMap (fileLayer? host)).foldl Settings.apply s := by
  induction files generalizing s with
  | nil => rfl
  | cons file files ih =>
    have layer := toOption_layerOf host file
    rw [withFiles]
    cases hlayer : layerOf host file with
    | ok o =>
      rw [hlayer] at layer
      rw [List.filterMap_cons_some layer.symm, List.foldl_cons]
      exact ih (s.apply o)
    | error w =>
      rw [hlayer] at layer
      rw [List.filterMap_cons_none layer.symm]
      exact ih s

/-! ### Putting layers together -/

/-- The value of a field: that of the options, or else that of the last layer that sets the field,
or else the default. -/
def layeredValue (f : Field) (options : Overrides) (layers : List Overrides) : f.Value :=
  ((f.get? options).or (f.lastSet? layers)).getD (f.get {})

/-- The outcome of putting options on top of layers: the settings in which every field has its
layered value, which are accepted exactly when they are within the bounds. -/
def IsLayered (options : Overrides) (layers : List Overrides)
    (outcome : Except Problem Settings) : Prop :=
  ∃ merged : Settings,
    (∀ s, s = merged ↔ ∀ f : Field, f.get s = layeredValue f options layers) ∧
    ∀ s, outcome = .ok s ↔ merged.WithinBounds ∧ s = merged

theorem checked_eq_ok_iff {s t : Settings} : checked s = .ok t ↔ s.WithinBounds ∧ t = s := by
  rw [← violation?_eq_none_iff, checked]
  cases s.violation? with
  | none => simp [eq_comm]
  | some v => simp

theorem isLayered_checked (options : Overrides) (layers : List Overrides) :
    IsLayered options layers (checked ((layers.foldl Settings.apply {}).apply options)) := by
  have merged (f : Field) : f.get ((layers.foldl Settings.apply {}).apply options)
      = layeredValue f options layers := by
    rw [Field.get_apply, Field.get_foldl_apply, layeredValue]
    cases f.get? options with
    | none => rfl
    | some v => rfl
  refine ⟨_, fun s => ⟨?_, fun h => ?_⟩, fun s => checked_eq_ok_iff⟩
  · rintro rfl f
    exact merged f
  · exact eq_of_get_eq fun f => (h f).trans (merged f).symm

/-- The configuration file that was named is the only layer, and it has to be readable. -/
theorem namedSettings_eq (host : Host) (args : Arguments) (config : Path) :
    namedSettings host args config =
      match fileLayer? host config with
      | some layer => checked ((Settings.apply {} layer).apply args.overrides)
      | none => .error (.unloadable config) := by
  unfold namedSettings fileLayer?
  cases host.tree.read? host.base config with
  | none => rfl
  | some content =>
    simp only [Option.bind_eq_bind, Option.bind_some]
    cases decode content.toBytes with
    | error e => rfl
    | ok text => cases h : readOverrides text <;> simp [Except.toOption, h]

/-- The settings of a run, field by field: options count most, then configuration files, the last
one first, then the defaults. With a configuration file that was named, this file stands in place of
those that are found, and it has to be readable. Of a file, whatever the order and the spaces of its
entries, exactly the fields count that have a value other than `null`. -/
theorem settingsFor_isLayered (host : Host) (args : Arguments) (start : Path) :
    (match args.config with
      | none => IsLayered args.overrides ((configFiles host start).filterMap (fileLayer? host))
          (settingsFor host args start).1
      | some config =>
        match fileLayer? host config with
        | some layer => IsLayered args.overrides [layer] (settingsFor host args start).1
        | none => (settingsFor host args start).1 = .error (.unloadable config)) ∧
    ∀ entries text, SpeltLayer entries text → (∀ e ∈ entries, e.Fits) →
      (entries.map Entry.field).Nodup → ∃ layer, readOverrides text = .ok layer ∧
        ∀ (f : Field) (v : f.Value), f.get? layer = some v ↔ ⟨f, some v⟩ ∈ entries := by
  refine ⟨?_, fun entries text htext hfits hdistinct =>
    ⟨_, readOverrides_of_spelt htext hfits hdistinct, fun f v => get?_layer hdistinct⟩⟩
  cases hconfig : args.config with
  | none =>
    have merged : (settingsFor host args start).1
        = checked ((discovered host start).1.apply args.overrides) := by
      simp only [settingsFor, hconfig]
    dsimp only
    rw [merged, discovered, fst_withFiles]
    exact isLayered_checked _ _
  | some config =>
    have named : (settingsFor host args start).1 = namedSettings host args config := by
      simp only [settingsFor, hconfig]
    dsimp only
    rw [named, namedSettings_eq]
    cases fileLayer? host config with
    | none => rfl
    | some layer => exact isLayered_checked args.overrides [layer]

/-- Three configuration files: the nearest one goes wrong at its end, and the one above it leaves a
field to the farthest one by saying `null`. -/
def nestedHost : Host :=
  let far := "\x7b\"indentSize\": 2, \"useTabs\": true\x7d"
  let near := "\x7b \"indentSize\" : null, \"maxLineLength\": 80 \x7d"
  let broken := "\x7b\"indentSize\": 8, \"useTabs\": tru\x7d"
  { tree :=
      { directories := [["p".toList], ["p".toList, "q".toList]]
        files := [([fileName], .bytes (encode far.toList)),
          (["p".toList, fileName], .bytes (encode near.toList)),
          (["p".toList, "q".toList, fileName], .bytes (encode broken.toList))] } }

theorem settingsFor_isLayered_nestedHost :
    (settingsFor nestedHost { overrides := { quoteStyle := some .single } } "/p/q".toList).1
      = .ok { indentSize := 2, useTabs := true, maxLineLength := 80, quoteStyle := .single } ∧
    IsLayered { quoteStyle := some .single }
      [{ indentSize := some 2, useTabs := some true }, { maxLineLength := some 80 }]
      (settingsFor nestedHost { overrides := { quoteStyle := some .single } } "/p/q".toList).1 ∧
    ∃ layer, readOverrides "\x7b \"indentSize\" : null, \"maxLineLength\": 80 \x7d".toList = .ok layer ∧
      ∀ (f : Field) (v : f.Value), f.get? layer = some v ↔
        ⟨f, some v⟩ ∈ [Entry.mk .indentSize none, .mk .maxLineLength (some (80 : Nat))] := by
  have settings :
      (settingsFor nestedHost { overrides := { quoteStyle := some .single } } "/p/q".toList).1
        = .ok { indentSize := 2, useTabs := true, maxLineLength := 80, quoteStyle := .single } := by
    decide +kernel
  have layers : (configFiles nestedHost "/p/q".toList).filterMap (fileLayer? nestedHost)
      = [{ indentSize := some 2, useTabs := some true }, { maxLineLength := some 80 }] := by
    decide +kernel
  obtain ⟨layered, described⟩ := settingsFor_isLayered nestedHost
    { overrides := { quoteStyle := some .single } } "/p/q".toList
  dsimp only at layered
  rw [layers] at layered
  refine ⟨settings, layered, described _ _ ?_ ?_ (by decide)⟩
  · have space : Spaces " ".toList := by simp [Spaces, Json.isSpace]
    have none : Spaces [] := by simp [Spaces]
    exact .entries none (.cons (.mk space space space none) (.last (.mk space none space space))) none
  · rintro e he v hv
    simp only [List.mem_cons, List.not_mem_nil, or_false] at he
    obtain rfl | rfl := he
    · cases hv
    · obtain rfl := Option.some.inj hv
      exact Nat.le_of_ble_eq_true rfl

end RazorLayout.CommandLine

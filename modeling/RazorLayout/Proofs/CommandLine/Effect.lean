import Mathlib
import RazorLayout.CommandLine.Run
import RazorLayout.Proofs.Files.Tree
import RazorLayout.Proofs.Text.Encoding

/-!
# What a run does to files

A run that lays out files handles them one after the other, and each file is read, with the
configuration files above it, only when its turn comes. What happens to a file can be said from the
tree that the run begins with, as long as no file is written before it is looked at: the files are
different ones, and none of them is a configuration file. Then the order does not matter either.

For every file it is defined what the run owes to it (`formatted?`, `fails`, `differs`). One file is
handled as it should be in every tree that agrees with the first one where it counts
(`handled_formatFile`); the files handled so far leave such a tree (`handled_files`).

## Main definitions

* `settingsOf`, `source?`, `formatted?`: the settings, the text and the formatted text of a file
* `formatInOrder`: a run that handles files in a given order
* `FormatEffect`: what a run leaves

## Main results

* `handled_formatFile`, `handled_files`: what handling one file does, and handling all of them
* `run_format_effect`: what a run that lays out files leaves, in any order of the files
-/

namespace RazorLayout.CommandLine

open Text Files

/-! ### What a run owes to a file -/

/-- The path from which the configuration files for a file are looked for. -/
def startOf (host : Host) (file : Path) : Path :=
  match host.tree.resolve? host.base file with
  | some place => place.path
  | none => file

/-- The settings that count for a file. -/
def settingsOf (host : Host) (args : Arguments) (file : Path) : Except Problem Settings :=
  (settingsFor host args (startOf host file)).1

/-- A file that is skipped because of its size. -/
def isTooLarge (host : Host) (file : Path) : Bool :=
  (host.tree.read? host.base file).any fun content => decide (content.size > maxFileSize)

/-- The text of a file, if it is not too large and its bytes are a text. -/
def source? (host : Host) (file : Path) : Option (List Char) := do
  let content ← host.tree.read? host.base file
  if content.size > maxFileSize then none else (decode content.toBytes).toOption

/-- The formatted text of a file that can be read and has settings. -/
def formatted? (host : Host) (args : Arguments) (file : Path) : Option (List Char) := do
  let settings ← (settingsOf host args file).toOption
  let source ← source? host file
  return Layout.format settings source

/-- A file that is reported with a problem. -/
def fails (host : Host) (args : Arguments) (file : Path) : Bool :=
  match settingsOf host args file with
  | .error _ => true
  | .ok _ => !isTooLarge host file && (source? host file).isNone

/-- A file that formatting changes. -/
def differs (host : Host) (args : Arguments) (file : Path) : Bool :=
  (formatted? host args file).isSome && formatted? host args file != source? host file

/-- The tree after a file is handled. -/
def treeAfter (host : Host) (args : Arguments) (tree : Tree) (file : Path) : Tree :=
  match host.tree.resolve? host.base file, formatted? host args file with
  | some place, some text =>
    if args.write && differs host args file then tree.write place (.bytes (encode text)) else tree
  | _, _ => tree

/-! ### One file -/

/-- The tree agrees with that of the host where a file and its configuration files are. -/
structure Undisturbed (host : Host) (args : Arguments) (tree : Tree) (file : Path) : Prop where
  shape : host.tree.SameShape tree
  file_eq : ∀ place, host.tree.resolve? host.base file = some place →
    tree.file? place = host.tree.file? place
  config_eq : args.config = none → ∀ config ∈ Settings.configFiles host (startOf host file),
    ∀ place, host.tree.resolve? host.base config = some place →
      tree.file? place = host.tree.file? place

/-- What handling a file does to a run under way. -/
structure Handled (host : Host) (args : Arguments) (file : Path) (p p' : Progress) : Prop where
  host_eq : p'.host = { p.host with tree := treeAfter host args p.host.tree file }
  errors_eq : p'.errors = p.errors + if fails host args file then 1 else 0
  changed_eq : p'.changed = p.changed + if differs host args file then 1 else 0

theorem Handled.of_eq {host : Host} {args : Arguments} {file : Path} {p q p' : Progress}
    (h : Handled host args file q p') (hhost : q.host = p.host) (herrors : q.errors = p.errors)
    (hchanged : q.changed = p.changed) : Handled host args file p p' := by
  obtain ⟨host_eq, errors_eq, changed_eq⟩ := h
  rw [hhost] at host_eq
  rw [herrors] at errors_eq
  rw [hchanged] at changed_eq
  exact ⟨host_eq, errors_eq, changed_eq⟩

/-- The settings that a whole run shares, if it has been given a configuration file. -/
def IsShared (host : Host) (args : Arguments) : Option Settings → Prop
  | some settings => ∀ file, settingsOf host args file = .ok settings
  | none => args.config = none

section OneFile

variable {host : Host} {args : Arguments} {file : Path} {p : Progress}

/-- Text that is delivered is written if it has changed. -/
theorem deliver_spec (args : Arguments) (file : Path) (place : Place) (fate : Fate)
    (text : List Char) (p : Progress) :
    (deliver args file place fate text p).host
      = (if args.write && fate = .changed then
          { p.host with tree := p.host.tree.write place (.bytes (encode text)) } else p.host) ∧
    (deliver args file place fate text p).errors = p.errors ∧
    (deliver args file place fate text p).changed = p.changed := by
  unfold deliver Arguments.prints
  cases args.write <;> cases args.check <;> cases args.silent <;> cases fate <;>
    simp [Progress.print]

theorem layOut_of_isTooLarge (args : Arguments) (settings : Settings)
    (h : isTooLarge p.host file = true) :
    (layOut args settings file p).1 = .ok .skipped ∧
    (layOut args settings file p).2.host = p.host ∧
    (layOut args settings file p).2.errors = p.errors ∧
    (layOut args settings file p).2.changed = p.changed := by
  obtain ⟨content, hread, hsize⟩ : ∃ content, p.host.tree.read? p.host.base file = some content ∧
      content.size > maxFileSize := by
    simpa [isTooLarge, Option.any_eq_true] using h
  obtain ⟨place, hplace, hfile⟩ := Option.bind_eq_some_iff.1 hread
  simp only [layOut, hplace, hfile, hsize, if_true]
  cases args.silent <;> simp [Progress.report]

theorem layOut_of_source?_eq_none (settings : Settings) (hsize : isTooLarge p.host file = false)
    (hsource : source? p.host file = none) :
    layOut args settings file p = (.error (.unreadable file), p) := by
  unfold layOut
  split
  · rfl
  · rename_i place hplace
    split
    · rfl
    · rename_i content hfile
      have hread : p.host.tree.read? p.host.base file = some content := by
        simp [Tree.read?, hplace, hfile]
      have small : ¬ content.size > maxFileSize := by simpa [isTooLarge, hread] using hsize
      simp only [source?, hread, small, if_false, Option.bind_eq_bind, Option.bind_some]
        at hsource ⊢
      cases hdecode : decode content.toBytes with
      | error _ => rfl
      | ok _ => simp [hdecode, Except.toOption] at hsource

theorem layOut_of_source? (args : Arguments) (settings : Settings) {source : List Char}
    (hsource : source? p.host file = some source) :
    ∃ place, p.host.tree.resolve? p.host.base file = some place ∧
      layOut args settings file p
        = (.ok (if Layout.format settings source = source then .unchanged else .changed),
          deliver args file place
            (if Layout.format settings source = source then .unchanged else .changed)
            (Layout.format settings source) p) := by
  simp only [source?, Option.bind_eq_bind, Option.bind_eq_some_iff] at hsource
  obtain ⟨content, hread, hdecode⟩ := hsource
  obtain ⟨place, hplace, hfile⟩ := Option.bind_eq_some_iff.1 hread
  refine ⟨place, hplace, ?_⟩
  split at hdecode
  · simp at hdecode
  · rename_i hsize
    cases htext : decode content.toBytes with
    | error _ => simp [htext, Except.toOption] at hdecode
    | ok text =>
      obtain rfl : text = source := by simpa [htext, Except.toOption] using hdecode
      simp only [layOut, hplace, hfile, hsize, if_false, htext]

/-- A file that cannot be handled is counted, and nothing else happens. -/
theorem handled_error (problem : Problem) (hfails : fails host args file = true)
    (hformatted : formatted? host args file = none) :
    Handled host args file p (account file (.error problem) p) where
  host_eq := by simp [account, Progress.report, treeAfter, hformatted]
  errors_eq := by simp [account, hfails]
  changed_eq := by simp [account, Progress.report, differs, hformatted]

variable {tree : Tree} (h : Undisturbed host args tree file) (hp : p.host = { host with tree })

include h hp in
theorem Undisturbed.read?_eq :
    p.host.tree.read? p.host.base file = host.tree.read? host.base file := by
  simp only [hp, Tree.read?, h.shape.resolve?_eq]
  cases hplace : host.tree.resolve? host.base file with
  | none => rfl
  | some place => exact h.file_eq place hplace

include h hp in
/-- Laying out a file with its settings handles it. -/
theorem handled_layOut {settings : Settings}
    (hsettings : settingsOf host args file = .ok settings) :
    Handled host args file p (account file (layOut args settings file p).1
      (layOut args settings file p).2) := by
  have read := h.read?_eq hp
  have size : isTooLarge p.host file = isTooLarge host file := by simp only [isTooLarge, read]
  have text : source? p.host file = source? host file := by simp only [source?, read]
  cases hsource : source? host file with
  | none =>
    have hformatted : formatted? host args file = none := by simp [formatted?, hsource]
    cases hsize : isTooLarge host file with
    | true =>
      obtain ⟨hfate, hhost, herrors, hchanged⟩ :=
        layOut_of_isTooLarge args settings (size.trans hsize)
      have hfails : fails host args file = false := by simp [fails, hsettings, hsize]
      rw [hfate]
      constructor
      · simp [account, hhost, treeAfter, hformatted]
      · simp [account, herrors, hfails]
      · simp [account, hchanged, differs, hformatted]
    | false =>
      rw [layOut_of_source?_eq_none settings (size.trans hsize) (text.trans hsource)]
      exact handled_error _ (by simp [fails, hsettings, hsize, hsource]) hformatted
  | some source =>
    obtain ⟨place, hplace, hlayOut⟩ :=
      layOut_of_source? args settings (text.trans hsource)
    have resolved : host.tree.resolve? host.base file = some place := by
      rw [← hplace, hp]
      exact (h.shape.resolve?_eq host.base file).symm
    have hformatted : formatted? host args file = some (Layout.format settings source) := by
      simp [formatted?, hsettings, hsource, Except.toOption]
    have hfails : fails host args file = false := by simp [fails, hsettings, hsource]
    obtain ⟨hhost, herrors, hchanged⟩ := deliver_spec args file place
      (if Layout.format settings source = source then .unchanged else .changed)
      (Layout.format settings source) p
    rw [hlayOut]
    by_cases heq : Layout.format settings source = source
    · have hdiffers : differs host args file = false := by
        simp [differs, hformatted, hsource, heq]
      simp only [heq, if_true] at hhost herrors hchanged ⊢
      constructor
      · simpa [account, treeAfter, resolved, hformatted, hdiffers] using hhost
      · simp [account, herrors, hfails]
      · simp [account, hchanged, hdiffers]
    · have hdiffers : differs host args file = true := by
        simp [differs, hformatted, hsource, heq]
      simp only [heq, if_false] at hhost herrors hchanged ⊢
      constructor
      · simp only [account, hhost, treeAfter, resolved, hformatted, hdiffers]
        cases args.write <;> simp
      · simp [account, herrors, hfails]
      · simp [account, hchanged, hdiffers]

include h in
/-- The settings of a file are those that the tree of the beginning gives it. -/
theorem Undisturbed.settingsFor_eq (hconfig : args.config = none) :
    settingsFor { host with tree } args (startOf { host with tree } file)
      = settingsFor host args (startOf host file) := by
  have start : startOf { host with tree } file = startOf host file := by
    simp [startOf, h.shape.resolve?_eq]
  simp only [settingsFor, hconfig, start, Settings.discovered_congr h.shape (h.config_eq hconfig)]

theorem report_foldl (ws : List Settings.Warning) (p : Progress) :
    (ws.foldl (fun p w => p.report (warning w.message)) p).host = p.host ∧
    (ws.foldl (fun p w => p.report (warning w.message)) p).errors = p.errors ∧
    (ws.foldl (fun p w => p.report (warning w.message)) p).changed = p.changed := by
  induction ws generalizing p with
  | nil => exact ⟨rfl, rfl, rfl⟩
  | cons w ws ih => exact ih (p.report (warning w.message))

/-- A file without shared settings is laid out with its own ones. -/
theorem formatFile_none (args : Arguments) (p : Progress) (file : Path) :
    formatFile args none p file =
      let (settings, ws) := settingsFor p.host args (startOf p.host file)
      let p := ws.foldl (fun p w => p.report (warning w.message)) p
      match settings with
      | .error problem => account file (.error problem) p
      | .ok settings =>
        account file (layOut args settings file p).1 (layOut args settings file p).2 :=
  rfl

include h hp in
/-- One file is handled as the tree of the beginning says. -/
theorem handled_formatFile {shared : Option Settings} (hshared : IsShared host args shared) :
    Handled host args file p (formatFile args shared p file) := by
  cases shared with
  | some settings => exact handled_layOut h hp (hshared file)
  | none =>
    have found : settingsFor p.host args (startOf p.host file)
        = settingsFor host args (startOf host file) := by
      rw [hp]
      exact h.settingsFor_eq hshared
    cases hfound : settingsFor host args (startOf host file) with | mk result ws
    have hsettings : settingsOf host args file = result := by rw [settingsOf, hfound]
    -- warnings about configuration files leave everything but the messages as it is
    obtain ⟨hhost, herrors, hchanged⟩ := report_foldl ws p
    rw [formatFile_none, found, hfound]
    cases result with
    | error problem =>
      refine (handled_error problem ?_ ?_).of_eq hhost herrors hchanged
      · simp [fails, hsettings]
      · simp [formatted?, hsettings, Except.toOption]
    | ok settings =>
      exact (handled_layOut h (hhost.trans hp) hsettings).of_eq hhost herrors hchanged

end OneFile

/-! ### All files -/

/-- Paths that do not lead to the same file. -/
def Apart (host : Host) (p q : Path) : Prop :=
  ∀ place, host.tree.resolve? host.base p = some place → host.tree.resolve? host.base q ≠ some place

section AllFiles

variable {host : Host} {args : Arguments}

/-- A file that can be read is there. -/
theorem isFile_of_source? {file : Path} {source : List Char} (h : source? host file = some source)
    {place : Place} (hplace : host.tree.resolve? host.base file = some place) :
    host.tree.isFile place = true := by
  simp only [source?, Option.bind_eq_bind, Option.bind_eq_some_iff] at h
  obtain ⟨content, hread, -⟩ := h
  simp only [Tree.read?, hplace, Option.bind_some] at hread
  simp [Tree.isFile, hread]

theorem formatted?_eq_some_iff {file : Path} {text : List Char} :
    formatted? host args file = some text ↔
      ∃ settings source, settingsOf host args file = .ok settings ∧
        source? host file = some source ∧ Layout.format settings source = text := by
  cases hsettings : settingsOf host args file with
  | error problem => simp [formatted?, hsettings, Except.toOption]
  | ok settings => simp [formatted?, hsettings, Except.toOption, Option.bind_eq_some_iff]

theorem sameShape_treeAfter {tree : Tree} (h : host.tree.SameShape tree) (file : Path) :
    host.tree.SameShape (treeAfter host args tree file) := by
  unfold treeAfter
  split
  · rename_i place text hplace htext
    split
    · obtain ⟨_, source, -, hsource, -⟩ := formatted?_eq_some_iff.1 htext
      refine h.trans (Tree.sameShape_write ?_ _)
      rw [h.isFile_eq]
      exact isFile_of_source? hsource hplace
    · exact h
  · exact h

/-- Handling a file changes no other one. -/
theorem file?_treeAfter_of_ne (tree : Tree) {file : Path} {place : Place}
    (h : (formatted? host args file).isSome → host.tree.resolve? host.base file ≠ some place) :
    (treeAfter host args tree file).file? place = tree.file? place := by
  unfold treeAfter
  split
  · rename_i written text hplace htext
    split
    · rw [Tree.file?_write, if_neg]
      rintro rfl
      exact h (by simp [htext]) hplace
    · rfl
  · rfl

theorem file?_treeAfter_congr {tree tree' : Tree} {file : Path} {place : Place}
    (h : tree.file? place = tree'.file? place) :
    (treeAfter host args tree file).file? place = (treeAfter host args tree' file).file? place := by
  unfold treeAfter
  split
  · split
    · rw [Tree.file?_write, Tree.file?_write, h]
    · exact h
  · exact h

/-- The tree after files are handled. -/
def treeAfterAll (host : Host) (args : Arguments) (files : List Path) : Tree :=
  files.foldl (treeAfter host args) host.tree

theorem treeAfterAll_append_singleton (files : List Path) (file : Path) :
    treeAfterAll host args (files ++ [file])
      = treeAfter host args (treeAfterAll host args files) file :=
  List.foldl_append

theorem sameShape_treeAfterAll (files : List Path) :
    host.tree.SameShape (treeAfterAll host args files) := by
  induction files using List.reverseRecOn with
  | nil => exact .refl _
  | append_singleton files file ih =>
    rw [treeAfterAll_append_singleton]
    exact sameShape_treeAfter ih file

theorem file?_foldl_treeAfter_of_ne {files : List Path} {place : Place}
    (h : ∀ file ∈ files, (formatted? host args file).isSome →
      host.tree.resolve? host.base file ≠ some place) (tree : Tree) :
    (files.foldl (treeAfter host args) tree).file? place = tree.file? place := by
  induction files generalizing tree with
  | nil => rfl
  | cons file files ih =>
    obtain ⟨hfile, hfiles⟩ := List.forall_mem_cons.1 h
    rw [List.foldl_cons, ih hfiles, file?_treeAfter_of_ne tree hfile]

/-- A file that is handled among others ends as if it were handled alone. -/
theorem file?_treeAfterAll_of_mem {files : List Path} (hdistinct : files.Pairwise (Apart host))
    {file : Path} (hfile : file ∈ files) {place : Place}
    (hplace : host.tree.resolve? host.base file = some place) :
    (treeAfterAll host args files).file? place
      = (treeAfter host args host.tree file).file? place := by
  obtain ⟨before, behind, rfl⟩ := List.append_of_mem hfile
  obtain ⟨-, hbehind, hbefore⟩ := List.pairwise_append.1 hdistinct
  obtain ⟨hbehind, -⟩ := List.pairwise_cons.1 hbehind
  -- neither the files before nor those behind lead to the same place
  have front (other : Path) (hother : other ∈ before) :
      host.tree.resolve? host.base other ≠ some place := fun h =>
    hbefore other hother file List.mem_cons_self place h hplace
  have back (other : Path) (hother : other ∈ behind) :
      host.tree.resolve? host.base other ≠ some place :=
    hbehind other hother place hplace
  rw [treeAfterAll, List.foldl_append, List.foldl_cons,
    file?_foldl_treeAfter_of_ne fun other hother _ => back other hother]
  exact file?_treeAfter_congr
    (file?_foldl_treeAfter_of_ne (fun other hother _ => front other hother) host.tree)

/-- The configuration files that are looked into while files are handled. A configuration file that
was named is read before. -/
def consulted (host : Host) (args : Arguments) (files : List Path) : List Path :=
  match args.config with
  | some _ => []
  | none => files.flatMap fun file => Settings.configFiles host (startOf host file)

/-- Files that are different ones and no configuration files. -/
structure Independent (host : Host) (args : Arguments) (files : List Path) : Prop where
  distinct : files.Pairwise (Apart host)
  not_config : ∀ file ∈ files, ∀ config ∈ consulted host args files, Apart host file config

theorem Independent.perm {files files' : List Path} (h : Independent host args files)
    (hperm : files.Perm files') : Independent host args files' where
  distinct := (hperm.pairwise_iff fun h place hq hp => h place hp hq).1 h.distinct
  not_config file hfile config hconfig := by
    refine h.not_config file (hperm.mem_iff.2 hfile) config ?_
    unfold consulted at hconfig ⊢
    split at hconfig
    · simp at hconfig
    · exact (hperm.flatMap_right _).mem_iff.2 hconfig

theorem Independent.of_append {files behind : List Path}
    (h : Independent host args (files ++ behind)) : Independent host args files where
  distinct := (List.pairwise_append.1 h.distinct).1
  not_config file hfile config hconfig := by
    refine h.not_config file (List.mem_append_left _ hfile) config ?_
    unfold consulted at hconfig ⊢
    split at hconfig
    · simp at hconfig
    · rw [List.flatMap_append]
      exact List.mem_append_left _ hconfig

/-- The files before a file leave it and its configuration files as they are. -/
theorem Independent.undisturbed {files : List Path} {file : Path}
    (h : Independent host args (files ++ [file])) :
    Undisturbed host args (treeAfterAll host args files) file where
  shape := sameShape_treeAfterAll files
  file_eq place hplace := by
    refine file?_foldl_treeAfter_of_ne (fun other hother _ hsame => ?_) _
    exact (List.pairwise_append.1 h.distinct).2.2 other hother file (by simp) place hsame hplace
  config_eq hnone config hconfig place hplace := by
    have hconsulted : config ∈ consulted host args (files ++ [file]) := by
      simp only [consulted, hnone, List.flatMap_append, List.mem_append]
      exact .inr (by simpa using hconfig)
    refine file?_foldl_treeAfter_of_ne (fun other hother _ hsame => ?_) _
    exact h.not_config other (List.mem_append_left _ hother) config hconsulted place hsame hplace

/-- All files are handled as the tree of the beginning says. -/
theorem handled_files {shared : Option Settings} (hshared : IsShared host args shared)
    {files : List Path} (h : Independent host args files) (start : Progress)
    (hstart : start.host = host) :
    (files.foldl (formatFile args shared) start).host
      = { host with tree := treeAfterAll host args files } ∧
    (files.foldl (formatFile args shared) start).errors
      = start.errors + files.countP (fails host args) ∧
    (files.foldl (formatFile args shared) start).changed
      = start.changed + files.countP (differs host args) := by
  induction files using List.reverseRecOn with
  | nil => exact ⟨hstart, rfl, rfl⟩
  | append_singleton files file ih =>
    obtain ⟨hhost, herrors, hchanged⟩ := ih h.of_append
    have handled := handled_formatFile h.undisturbed hhost hshared
    rw [List.foldl_append, List.foldl_cons, List.foldl_nil]
    refine ⟨?_, ?_, ?_⟩
    · rw [handled.host_eq, hhost, treeAfterAll_append_singleton]
    · rw [handled.errors_eq, herrors, List.countP_append, List.countP_singleton, Nat.add_assoc]
    · rw [handled.changed_eq, hchanged, List.countP_append, List.countP_singleton, Nat.add_assoc]

end AllFiles

/-! ### Whole runs -/

/-- The inputs of a command line; without any, the working directory. -/
def inputsOf (args : Arguments) : List Path :=
  if args.inputs.isEmpty then [['.']] else args.inputs

/-- The files that a run lays out. -/
def collected (host : Host) (args : Arguments) : List Path :=
  (collect host args (patterns args).1).1

/-- The configuration file that was named cannot be loaded, or its settings are not valid. -/
def ConfigFails (host : Host) (args : Arguments) : Prop :=
  ∃ config problem, args.config = some config ∧ namedSettings host args config = .error problem

/-- A run that lays out files in the given order. -/
def formatInOrder (host : Host) (args : Arguments) (order : List Path) : Outcome :=
  let (globs, warnings) := patterns args
  let missing := (collect host args globs).2
  match args.config with
  | none => formatAll host args none warnings order missing
  | some config =>
    match namedSettings host args config with
    | .error problem => giveUp host problem []
    | .ok settings => formatAll host args (some settings) warnings order missing

/-- What a run that lays out files leaves. -/
structure FormatEffect (host : Host) (args : Arguments) (out : Outcome) : Prop where
  /-- Checking and printing change nothing. -/
  unwritten : args.check = true ∨ args.write = false → out.tree = host.tree
  /-- A file with a text and valid settings ends with its formatted text. -/
  written : args.write = true → ∀ file ∈ collected host args, ∀ settings source,
    settingsOf host args file = .ok settings → source? host file = some source →
    (out.tree.read? host.base file).map Content.toBytes
      = some (encode (Layout.format settings source))
  /-- Whatever is not the place of such a file stays as it is. -/
  others : ∀ place, (∀ file ∈ collected host args, ∀ settings source,
    settingsOf host args file = .ok settings → source? host file = some source →
    host.tree.resolve? host.base file ≠ some place) →
    out.tree.file? place = host.tree.file? place
  directories : out.tree.directories = host.tree.directories
  unloaded : ConfigFails host args → out.tree = host.tree
  exitCode_eq_one_iff : out.exitCode = 1 ↔ ConfigFails host args ∨
    (∃ input ∈ inputsOf args, host.tree.leadsToFile host.base input = false ∧
      host.tree.leadsToDirectory host.base input = false) ∨
    (∃ file ∈ collected host args, fails host args file = true) ∨
    (args.check = true ∧ ∃ file ∈ collected host args, differs host args file = true)
  exitCode_le_one : out.exitCode ≤ 1

section Runs

variable {host : Host} {args : Arguments}

theorem treeAfterAll_of_not_write (h : args.write = false) (files : List Path) :
    treeAfterAll host args files = host.tree := by
  induction files using List.reverseRecOn with
  | nil => rfl
  | append_singleton files file ih =>
    rw [treeAfterAll_append_singleton, ih, treeAfter]
    split <;> simp [h]

/-- A file with a text and valid settings ends with its formatted text. -/
theorem read?_treeAfterAll (hwrite : args.write = true) {files : List Path}
    (hdistinct : files.Pairwise (Apart host)) {file : Path} (hfile : file ∈ files)
    {settings : Settings} {source : List Char}
    (hsettings : settingsOf host args file = .ok settings)
    (hsource : source? host file = some source) :
    ((treeAfterAll host args files).read? host.base file).map Content.toBytes
      = some (encode (Layout.format settings source)) := by
  have hformatted : formatted? host args file = some (Layout.format settings source) :=
    formatted?_eq_some_iff.2 ⟨settings, source, hsettings, hsource, rfl⟩
  have hread := hsource
  simp only [source?, Option.bind_eq_bind, Option.bind_eq_some_iff] at hread
  obtain ⟨content, hread, hdecode⟩ := hread
  obtain ⟨place, hplace, hcontent⟩ := Option.bind_eq_some_iff.1 hread
  rw [Tree.read?, (sameShape_treeAfterAll files).resolve?_eq, hplace, Option.bind_some,
    file?_treeAfterAll_of_mem hdistinct hfile hplace]
  simp only [treeAfter, hplace, hformatted, hwrite, Bool.true_and]
  by_cases heq : Layout.format settings source = source
  · -- a file that does not change holds the bytes of its text
    have same : differs host args file = false := by simp [differs, hformatted, hsource, heq]
    have bytes : encode source = content.toBytes := by
      split at hdecode
      · simp at hdecode
      · refine encode_of_decode ?_
        cases htext : decode content.toBytes <;> simp_all [Except.toOption]
    simp [same, hcontent, heq, bytes]
  · have changed : differs host args file = true := by simp [differs, hformatted, hsource, heq]
    simp [changed, Content.toBytes]

/-- An input is missing when its path leads nowhere. -/
theorem mem_missing_iff {globs : List Glob} {input : Path} :
    input ∈ (collect host args globs).2 ↔ input ∈ inputsOf args ∧
      host.tree.leadsToFile host.base input = false ∧
      host.tree.leadsToDirectory host.base input = false := by
  have nowhere : (filesOf? host globs input).isNone ↔
      host.tree.leadsToFile host.base input = false ∧
        host.tree.leadsToDirectory host.base input = false := by
    unfold filesOf? Tree.leadsToFile Tree.leadsToDirectory
    cases host.tree.resolve? host.base input with
    | none => simp
    | some place =>
      cases hfile : host.tree.isFile place <;> cases hdir : host.tree.isDirectory place <;>
        simp [hfile, hdir]
  simp only [collect, List.mem_filter, nowhere]
  rfl

/-- The exit status of a run under way that ends. -/
theorem exitCode_outcome (p : Progress) (failed : Bool) :
    ((p.outcome failed).exitCode = 1 ↔ failed = true) ∧ (p.outcome failed).exitCode ≤ 1 := by
  cases failed <;> simp [Progress.outcome]

/-- What laying out files leaves, when the settings that they share are known. -/
theorem formatAll_spec {shared : Option Settings} (hshared : IsShared host args shared)
    {order : List Path} (h : Independent host args order) (warnings : List (List Char))
    (missing : List Path) :
    (formatAll host args shared warnings order missing).tree = treeAfterAll host args order ∧
    ((formatAll host args shared warnings order missing).exitCode = 1 ↔ missing ≠ [] ∨
      (∃ file ∈ order, fails host args file = true) ∨
      (args.check = true ∧ ∃ file ∈ order, differs host args file = true)) ∧
    (formatAll host args shared warnings order missing).exitCode ≤ 1 := by
  unfold formatAll
  dsimp only
  generalize (warnings ++ _).reverse = stderr
  split
  · rename_i hempty
    obtain rfl : order = [] := List.isEmpty_iff.1 hempty
    refine ⟨?_, ?_, (exitCode_outcome _ _).2⟩
    · cases args.silent <;> rfl
    · rw [(exitCode_outcome _ _).1]
      simp
  · obtain ⟨hhost, herrors, hchanged⟩ := handled_files hshared h
      { host, stderr, errors := missing.length } rfl
    generalize order.foldl (formatFile args shared) _ = p at hhost herrors hchanged ⊢
    refine ⟨?_, ?_, (exitCode_outcome _ _).2⟩
    · -- the last message changes nothing but the messages
      have quiet : (if args.silent || args.prints then p else p.report (summary args p)).host
          = p.host := by
        split <;> rfl
      rw [Progress.outcome, quiet, hhost]
    · rw [(exitCode_outcome _ _).1, herrors, hchanged]
      simp [List.length_pos_iff, List.countP_pos_iff, or_assoc]

/-- The settings of every file, when a configuration file was named. -/
theorem settingsOf_of_config {config : Path} (h : args.config = some config) (file : Path) :
    settingsOf host args file = namedSettings host args config := by
  simp [settingsOf, settingsFor, h]

theorem not_configFails_of_isShared {shared : Option Settings} (h : IsShared host args shared) :
    ¬ ConfigFails host args := by
  rintro ⟨config, problem, hconfig, hproblem⟩
  cases shared with
  | none => exact Option.some_ne_none config (hconfig.symm.trans h)
  | some settings =>
    have settings := h []
    simp [settingsOf_of_config hconfig, hproblem] at settings

/-- Laying out all files in some order has the effect that it should have. -/
theorem formatEffect_formatAll (hmodes : args.check = true → args.write = false)
    {shared : Option Settings} (hshared : IsShared host args shared) {order : List Path}
    (hperm : order.Perm (collected host args)) (h : Independent host args (collected host args))
    (warnings : List (List Char)) :
    FormatEffect host args (formatAll host args shared warnings order
      (collect host args (patterns args).1).2) := by
  have independent := h.perm hperm.symm
  obtain ⟨htree, hexit, hle⟩ :=
    formatAll_spec hshared independent warnings (collect host args (patterns args).1).2
  have hconfig := not_configFails_of_isShared hshared
  refine ⟨?_, ?_, ?_, ?_, fun hfails => absurd hfails hconfig, ?_, hle⟩
  · intro hmode
    rw [htree]
    exact treeAfterAll_of_not_write (hmode.elim hmodes id) order
  · intro hwrite file hfile settings source hsettings hsource
    rw [htree]
    exact read?_treeAfterAll hwrite independent.distinct (hperm.mem_iff.2 hfile) hsettings hsource
  · intro place hplace
    rw [htree]
    refine file?_foldl_treeAfter_of_ne (fun file hfile hformatted => ?_) host.tree
    obtain ⟨text, htext⟩ := Option.isSome_iff_exists.1 hformatted
    obtain ⟨settings, source, hsettings, hsource, -⟩ := formatted?_eq_some_iff.1 htext
    exact hplace file (hperm.mem_iff.1 hfile) settings source hsettings hsource
  · rw [htree]
    exact (sameShape_treeAfterAll order).directories_eq
  · have missing : (collect host args (patterns args).1).2 ≠ [] ↔
        ∃ input ∈ inputsOf args, host.tree.leadsToFile host.base input = false ∧
          host.tree.leadsToDirectory host.base input = false := by
      rw [← List.isEmpty_eq_false_iff, List.isEmpty_eq_false_iff_exists_mem]
      simp only [mem_missing_iff]
    simp only [hexit, missing, hperm.mem_iff, hconfig, false_or]

/-- A run that gives up because of its configuration file changes nothing. -/
theorem formatEffect_giveUp {config : Path} {problem : Problem}
    (hconfig : args.config = some config)
    (hproblem : namedSettings host args config = .error problem) (before : List (List Char)) :
    FormatEffect host args (giveUp host problem before) := by
  have fails : ConfigFails host args := ⟨config, problem, hconfig, hproblem⟩
  refine ⟨fun _ => rfl, ?_, fun _ _ => rfl, rfl, fun _ => rfl, ?_, Nat.le_refl 1⟩
  · intro _ file _ settings _ hsettings
    simp [settingsOf_of_config hconfig, hproblem] at hsettings
  · exact ⟨fun _ => .inl fails, fun _ => rfl⟩

theorem formatEffect_formatInOrder (hmodes : args.check = true → args.write = false)
    {order : List Path} (hperm : order.Perm (collected host args))
    (h : Independent host args (collected host args)) :
    FormatEffect host args (formatInOrder host args order) := by
  unfold formatInOrder
  dsimp only
  split
  · rename_i hconfig
    have hshared : IsShared host args none := hconfig
    exact formatEffect_formatAll hmodes hshared hperm h _
  · rename_i config hconfig
    split
    · rename_i hproblem
      exact formatEffect_giveUp hconfig hproblem []
    · rename_i settings hsettings
      have hshared : IsShared host args (some settings) := fun file => by
        rw [settingsOf_of_config hconfig, hsettings]
      exact formatEffect_formatAll hmodes hshared hperm h _

end Runs

/-! ### Command lines -/

theorem eq_ok_of_bind {ε α β : Type} {x : Except ε α} {f : α → Except ε β} {b : β}
    (h : (x >>= f) = .ok b) : ∃ a, x = .ok a ∧ f a = .ok b := by
  cases x with
  | error e => simp [bind, Except.bind] at h
  | ok a => exact ⟨a, rfl, h⟩

/-- A command line that is read does not ask for writing and checking at once. -/
theorem write_eq_false_of_readFrom {r : Reading} {words : List (List Char)} {args : Arguments}
    (h : readFrom r words = .ok args) : args.check = true → args.write = false := by
  fun_induction readFrom r words with
  | case1 r =>
    rw [Reading.finish] at h
    split at h
    · simp at h
    · obtain ⟨r, -, h⟩ := eq_ok_of_bind h
      split at h
      · simp at h
      · rename_i hmodes
        obtain rfl : r.arguments = args := Except.ok.inj h
        intro hcheck
        simpa [hcheck] using hmodes
  | case2 r s rest input _ ih | case10 r s rest input _ _ _ _ _ _ _ _ ih =>
    simp only [input] at h
    split at h
    · simp at h
    · simp at h
    · obtain ⟨r, -, h⟩ := eq_ok_of_bind h
      exact ih r h
  | case3 _ _ _ _ _ _ ih => exact ih h
  | case4 _ _ _ _ _ _ _ ih => exact ih h
  | case5 => simp at h
  | case6 _ _ _ _ _ _ _ ih => exact ih h
  | case7 _ _ _ _ _ _ _ _ ih =>
    obtain ⟨r, -, h⟩ := eq_ok_of_bind h
    exact ih r h
  | case8 _ _ _ _ _ _ _ _ _ _ ih =>
    obtain ⟨r, -, h⟩ := eq_ok_of_bind h
    exact ih r h
  | case9 _ _ _ _ _ _ _ _ _ _ _ _ ih => exact ih h

/-- What a run that lays out files leaves, in any order of the files. -/
theorem run_format_effect (host : Host) (stdin : List UInt8) {words : List (List Char)}
    {args : Arguments} (hparse : parse words = .ok args) (hcommand : args.command = .format)
    (hinputs : args.inputs ≠ [['-']]) (h : Independent host args (collected host args)) :
    run host stdin words = formatInOrder host args (collected host args) ∧
    ∀ order : List Path, order.Perm (collected host args) →
      FormatEffect host args (formatInOrder host args order) := by
  refine ⟨?_, fun order hperm =>
    formatEffect_formatInOrder (write_eq_false_of_readFrom hparse) hperm h⟩
  rw [run, hparse]
  simp only [runArguments, hcommand, runFormat, hinputs, if_false]
  rfl

/-- Two files are named, one of which holds no text. -/
theorem run_format_effect_write :
    let host : Host :=
      { tree := { files := [(["a.razor".toList], .bytes (encode "<p>x</p>".toList)),
        (["b.razor".toList], .bytes [0xFF])] } }
    let args : Arguments :=
      { command := .format, inputs := ["a.razor".toList, "b.razor".toList], write := true }
    let words := ["format".toList, "--write".toList, "a.razor".toList, "b.razor".toList]
    (parse words = .ok args ∧ args.inputs ≠ [['-']] ∧ Independent host args (collected host args)) ∧
      run host [] words = formatInOrder host args (collected host args) ∧
      FormatEffect host args (formatInOrder host args (collected host args).reverse) := by
  intro host args words
  have hparse : parse words = .ok args := by cbv
  have hinputs : args.inputs ≠ [['-']] := by decide
  have files : collected host args = ["a.razor".toList, "b.razor".toList] := by cbv
  have places : host.tree.resolve? host.base "a.razor".toList = some ["a.razor".toList] ∧
      host.tree.resolve? host.base "b.razor".toList = some ["b.razor".toList] := by decide +kernel
  have configs : consulted host args ["a.razor".toList, "b.razor".toList] = [] := by decide +kernel
  have apart : Apart host "a.razor".toList "b.razor".toList := by
    intro place ha hb
    rw [places.1] at ha
    rw [places.2, ← ha] at hb
    exact absurd hb (by decide)
  have independent : Independent host args (collected host args) := by
    rw [files]
    refine ⟨List.pairwise_pair.2 apart, ?_⟩
    rw [configs]
    simp
  obtain ⟨hrun, heffect⟩ := run_format_effect host [] hparse rfl hinputs independent
  exact ⟨⟨hparse, hinputs, independent⟩, hrun, heffect _ (List.reverse_perm _)⟩

end RazorLayout.CommandLine

import RazorLayout.Proofs.CommandLine.Layering
import RazorLayout.Proofs.Files.Path

/-!
# The nearest configuration file

The configuration files for a path are those of the directories above it, farthest first, so that
a nearer file counts more. The file of the home directory stands in front of all of them, also
when the home directory is itself one of the directories above the path. Its file is then not
listed a second time, and every file that is farther counts more than it.

## Main definitions

* `homeFile?`, `isHomeFile`: the configuration file of the home directory
* `chainFiles`: the configuration files of a directory and of those above it
* `Precedes`: one path is listed in front of another

## Main results

* `configFiles_eq`: the list of configuration files, with no fold over it
* `configFiles_nearest`: which of two files of a chain counts more
-/

namespace RazorLayout.CommandLine

open Text Files Settings

/-! ### The list of files -/

/-- The configuration file of the home directory. -/
def homeFile? (host : Host) : Option Path := host.home.bind (configIn? host)

/-- A path to the configuration file of the home directory. -/
def isHomeFile (host : Host) (file : Path) : Bool := (homeFile? host).any file.same

/-- The configuration files of a directory and of those above it, farthest first. -/
def chainFiles (host : Host) (directory : Path) : List Path :=
  directory.ancestors.reverse.filterMap (configIn? host)

theorem same_iff {p q : Path} : p.same q = true ↔ p.components = q.components := by
  simp [Path.same]

theorem isHomeFile_iff {host : Host} {file : Path} : isHomeFile host file = true ↔
    ∃ home, homeFile? host = some home ∧ file.components = home.components := by
  simp only [isHomeFile, Option.any_eq_true, same_iff]

theorem components_configIn? {host : Host} {directory file : Path}
    (h : configIn? host directory = some file) :
    file.components = directory.components ++ [.name fileName] := by
  simp only [configIn?, Option.ite_none_right_eq_some, Option.some.injEq] at h
  rw [← h.2, Path.components_join directory (by decide) (by decide)]
  rfl

/-- The files of a directory and of one above it are different. -/
theorem components_ne_of_isAbove {host : Host} {near far nearFile farFile : Path}
    (h : far.IsAbove near) (hfar : configIn? host far = some farFile)
    (hnear : configIn? host near = some nearFile) : farFile.components ≠ nearFile.components := by
  rw [components_configIn? hfar, components_configIn? hnear]
  intro heq
  have hlt := h.length_components_lt
  rw [List.append_cancel_right heq] at hlt
  exact lt_irrefl _ hlt

theorem pairwise_chainFiles (host : Host) (directory : Path) :
    (chainFiles host directory).Pairwise fun p q => p.components ≠ q.components := by
  refine List.Pairwise.filterMap _ ?_ (List.pairwise_reverse.2 directory.pairwise_ancestors)
  intro far near habove farFile hfar nearFile hnear
  exact components_ne_of_isAbove habove hfar hnear

/-- Paths that are all different are added unless they are there from the beginning. -/
theorem foldl_addNew {files : List Path}
    (h : files.Pairwise fun p q => p.components ≠ q.components) (found : List Path) :
    files.foldl addNew found = found ++ files.filter fun p => !found.any p.same := by
  induction files generalizing found with
  | nil => simp
  | cons p files ih =>
    obtain ⟨hp, hfiles⟩ := List.pairwise_cons.1 h
    rw [List.foldl_cons, ih hfiles, addNew]
    cases hfound : found.any p.same with
    | true => simp [hfound]
    | false =>
      have hsame : ∀ q ∈ files, q.same p = false := by
        intro q hq
        rw [Bool.eq_false_iff, Ne, same_iff]
        exact (hp q hq).symm
      have hfilter : files.filter (fun q => !(found ++ [p]).any q.same)
          = files.filter fun q => !found.any q.same :=
        List.filter_congr fun q hq => by simp [hsame q hq]
      rw [if_neg Bool.false_ne_true, hfilter, List.filter_cons_of_pos (by simp [hfound])]
      simp

/-- The file of the home directory comes first, then the other files of the chain. -/
theorem configFiles_eq {host : Host} {start directory : Path}
    (h : startDirectory? host start = some directory) :
    configFiles host start = (homeFile? host).toList
      ++ (chainFiles host directory).filter fun file => !isHomeFile host file := by
  have hany (file : Path) : (homeFile? host).toList.any file.same = isHomeFile host file := by
    cases hhome : homeFile? host <;> simp [isHomeFile, hhome]
  simp only [configFiles, h]
  rw [← homeFile?, ← chainFiles, foldl_addNew (pairwise_chainFiles host directory)]
  simp only [hany]

/-- No path is listed twice. -/
theorem nodup_configFiles (host : Host) (start : Path) :
    ((configFiles host start).map Path.components).Nodup := by
  have hhome : ((homeFile? host).toList.map Path.components).Nodup := by
    cases homeFile? host <;> simp
  cases hstart : startDirectory? host start with
  | none =>
    have heq : configFiles host start = (homeFile? host).toList := by
      simp [configFiles, hstart, homeFile?]
    rwa [heq]
  | some directory =>
    rw [configFiles_eq hstart, List.map_append]
    refine List.nodup_append.2 ⟨hhome, ?_, ?_⟩
    · exact List.pairwise_map.2 ((pairwise_chainFiles host directory).filter _)
    · intro c hc c' hc' heq
      obtain ⟨home, hhome, rfl⟩ := List.mem_map.1 hc
      obtain ⟨file, hfile, rfl⟩ := List.mem_map.1 hc'
      have hsame := isHomeFile_iff.2 ⟨home, Option.mem_toList.1 hhome, heq.symm⟩
      simp [hsame] at hfile

/-! ### Two files of a chain -/

/-- The path `p` is listed in front of `q`. -/
def Precedes (p q : Path) (files : List Path) : Prop :=
  [p.components, q.components].Sublist (files.map Path.components)

instance (p q : Path) (files : List Path) : Decidable (Precedes p q files) :=
  inferInstanceAs (Decidable (List.Sublist _ _))

section Chain

variable {host : Host} {start directory near far nearFile farFile : Path}

/-- A file of a chain that is not that of the home directory: in front of it are all files that
are farther, and behind it are only files that are nearer. -/
theorem exists_configFiles_eq (hstart : startDirectory? host start = some directory)
    (hnear : near.OnChainOf directory) (hfile : configIn? host near = some nearFile)
    (hhome : isHomeFile host nearFile = false) :
    ∃ front back, configFiles host start = front ++ nearFile :: back ∧
      (∀ far farFile, far.IsAbove near → configIn? host far = some farFile →
        farFile.components ∈ front.map Path.components) ∧
      ∀ file ∈ back, isHomeFile host file = false ∧ ∃ closer : Path,
        closer.OnChainOf directory ∧ near.IsAbove closer ∧ configIn? host closer = some file := by
  obtain ⟨closer, farther, hancestors, hcloser, hfarther⟩ := Path.exists_ancestors_eq hnear
  let others (directories : List Path) : List Path :=
    (directories.reverse.filterMap (configIn? host)).filter fun file => !isHomeFile host file
  refine ⟨(homeFile? host).toList ++ others farther, others closer, ?_, ?_, ?_⟩
  · rw [configFiles_eq hstart, chainFiles, hancestors]
    simp [others, hfile, hhome]
  · intro far farFile hfar hfarFile
    rw [List.map_append, List.mem_append]
    cases hsame : isHomeFile host farFile with
    | true =>
      obtain ⟨home, hsome, heq⟩ := isHomeFile_iff.1 hsame
      exact .inl (List.mem_map.2 ⟨home, by simp [hsome], heq.symm⟩)
    | false =>
      have hmem : farFile ∈ farther.reverse.filterMap (configIn? host) :=
        List.mem_filterMap.2 ⟨far, List.mem_reverse.2 (hfarther far hfar), hfarFile⟩
      exact .inr (List.mem_map_of_mem (List.mem_filter.2 ⟨hmem, by simp [hsame]⟩))
  · intro file hmem
    obtain ⟨hmem, hother⟩ := List.mem_filter.1 hmem
    obtain ⟨place, hplace, hfile⟩ := List.mem_filterMap.1 hmem
    obtain ⟨hchain, habove⟩ := hcloser place (List.mem_reverse.1 hplace)
    exact ⟨by simpa using hother, place, hchain, habove, hfile⟩

/-- The file of the home directory is in front of all others. -/
theorem not_precedes_of_isHomeFile (hstart : startDirectory? host start = some directory)
    (hne : farFile.components ≠ nearFile.components) (hhome : isHomeFile host nearFile = true) :
    ¬ Precedes farFile nearFile (configFiles host start) := by
  obtain ⟨home, hsome, hsame⟩ := isHomeFile_iff.1 hhome
  have hnodup := nodup_configFiles host start
  rw [Precedes]
  rw [configFiles_eq hstart, hsome, Option.toList_some, List.singleton_append, List.map_cons,
    ← hsame] at hnodup ⊢
  intro hprecedes
  rcases List.sublist_cons_iff.1 hprecedes with hrest | ⟨_, heq, _⟩
  · exact (List.nodup_cons.1 hnodup).1 (hrest.subset (by simp))
  · exact hne (List.cons.inj heq).1

/-- A field that is set in the layer of a file and in no later one. -/
theorem get_withFiles {front back : List Path} {file : Path} {layer : Overrides} {f : Field}
    {v : f.Value} (hlayer : fileLayer? host file = some layer) (hset : f.get? layer = some v)
    (hback : ∀ later ∈ back, ∀ layer, fileLayer? host later = some layer → f.get? layer = none)
    (s : Settings) : f.get (withFiles host s (front ++ file :: back)).1 = v := by
  have hlast : f.lastSet? ((front ++ file :: back).filterMap (fileLayer? host)) = some v := by
    have hnone : (back.filterMap (fileLayer? host)).reverse.findSome? f.get? = none := by
      simpa using fun layer later hlater hlayer => hback later hlater layer hlayer
    simp [Field.lastSet?, hlayer, hnone, hset]
  rw [fst_withFiles, Field.get_foldl_apply, hlast]
  rfl

end Chain

/-- The configuration files for a path. No path is listed twice. Of two files in directories on the
chain of the start directory the nearer one comes later, unless it is the file of the home
directory; and if it comes later, then a field that it sets has its value, whatever the farther one
says, as long as no file in between the start directory and it sets the field again. -/
theorem configFiles_nearest (host : Host) (start : Path) :
    ((configFiles host start).map Path.components).Nodup ∧
    ∀ directory near far nearFile farFile : Path,
      startDirectory? host start = some directory →
      near.OnChainOf directory → far.IsAbove near →
      configIn? host near = some nearFile → configIn? host far = some farFile →
      (Precedes farFile nearFile (configFiles host start) ↔ isHomeFile host nearFile = false) ∧
      (isHomeFile host nearFile = false →
        ∀ (layer : Overrides) (f : Field) (v : f.Value),
          fileLayer? host nearFile = some layer → f.get? layer = some v →
          (∀ (closer file : Path) (layer : Overrides),
            closer.OnChainOf directory → near.IsAbove closer → configIn? host closer = some file →
            isHomeFile host file = false → fileLayer? host file = some layer →
            f.get? layer = none) →
          f.get (discovered host start).1 = v) := by
  refine ⟨nodup_configFiles host start, ?_⟩
  intro directory near far nearFile farFile hstart hchain habove hnear hfar
  have hne := components_ne_of_isAbove habove hfar hnear
  refine ⟨⟨fun hprecedes => ?_, fun hhome => ?_⟩, fun hhome layer f v hlayer hset hcloser => ?_⟩
  · by_contra hhome
    exact not_precedes_of_isHomeFile hstart hne (by simpa using hhome) hprecedes
  · obtain ⟨front, back, heq, hfront, -⟩ := exists_configFiles_eq hstart hchain hnear hhome
    rw [Precedes, heq, List.map_append, List.map_cons]
    exact (List.singleton_sublist.2 (hfront far farFile habove hfar)).append
      (List.singleton_sublist.2 List.mem_cons_self)
  · obtain ⟨front, back, heq, -, hback⟩ := exists_configFiles_eq hstart hchain hnear hhome
    rw [discovered, heq]
    refine get_withFiles hlayer hset (fun later hlater layer hlayer => ?_) {}
    obtain ⟨hother, closer, hcloser', hbetween, hfile⟩ := hback later hlater
    exact hcloser closer later layer hcloser' hbetween hfile hother hlayer

/-- A directory with a configuration file in each of the two directories above it. -/
def chainHost (home : Option Path) : Host :=
  let far := "\x7b\"indentSize\": 2\x7d"
  let near := "\x7b\"indentSize\": 8\x7d"
  let (a, b, c) := ("a".toList, "b".toList, "c".toList)
  { tree :=
      { directories := [[a], [a, b], [a, b, c]]
        files := [([a, fileName], .bytes (encode far.toList)),
          ([a, b, fileName], .bytes (encode near.toList))] }
    home := home }

/-- With the home directory elsewhere the nearer file counts more. -/
theorem configFiles_nearest_chain :
    Precedes "/a/.blazorfmt.json".toList "/a/b/.blazorfmt.json".toList
      (configFiles (chainHost none) "/a/b/c".toList) ∧
    (discovered (chainHost none) "/a/b/c".toList).1.indentSize = 8 := by
  have hchain : Path.OnChainOf "/a/b".toList "/a/b/c".toList := .single (by decide +kernel)
  have habove : Path.IsAbove "/a".toList "/a/b".toList := .single (by decide +kernel)
  obtain ⟨-, hnearest⟩ := configFiles_nearest (chainHost none) "/a/b/c".toList
  obtain ⟨hprecedes, hvalue⟩ := hnearest "/a/b/c".toList "/a/b".toList "/a".toList
    "/a/b/.blazorfmt.json".toList "/a/.blazorfmt.json".toList (by decide +kernel) hchain habove
    (by decide +kernel) (by decide +kernel)
  have hhome : isHomeFile (chainHost none) "/a/b/.blazorfmt.json".toList = false := rfl
  refine ⟨hprecedes.2 hhome, hvalue hhome { indentSize := some 8 } .indentSize (8 : Nat)
    (by decide +kernel) rfl ?_⟩
  intro closer file layer hcloser hbetween hfile
  -- only the start directory is nearer, and it has no file
  have hancestors : Path.ancestors "/a/b/c".toList
      = ["/a/b/c".toList, "/a/b".toList, "/a".toList, "/".toList] := by decide +kernel
  have hlt := hbetween.length_components_lt
  have hmem := Path.mem_ancestors.2 hcloser
  rw [hancestors] at hmem
  simp only [List.mem_cons, List.not_mem_nil, or_false] at hmem
  obtain rfl | rfl | rfl | rfl := hmem
  · have hnone : configIn? (chainHost none) "/a/b/c".toList = none := by decide +kernel
    rw [hnone] at hfile
    cases hfile
  all_goals exact absurd hlt (by decide +kernel)

/-- With the nearer directory as the home directory the farther file counts more. -/
theorem configFiles_nearest_home :
    let host := chainHost (some "/a/b".toList)
    startDirectory? host "/a/b/c".toList = some "/a/b/c".toList ∧
    Path.OnChainOf "/a/b".toList "/a/b/c".toList ∧ Path.IsAbove "/a".toList "/a/b".toList ∧
    configIn? host "/a/b".toList = some "/a/b/.blazorfmt.json".toList ∧
    configIn? host "/a".toList = some "/a/.blazorfmt.json".toList ∧
    configFiles host "/a/b/c".toList
      = ["/a/b/.blazorfmt.json".toList, "/a/.blazorfmt.json".toList] ∧
    ¬ Precedes "/a/.blazorfmt.json".toList "/a/b/.blazorfmt.json".toList
      (configFiles host "/a/b/c".toList) ∧
    fileLayer? host "/a/b/.blazorfmt.json".toList = some { indentSize := some 8 } ∧
    (discovered host "/a/b/c".toList).1.indentSize = 2 := by
  refine ⟨by decide +kernel, .single ?_, .single ?_, ?_⟩
  all_goals decide +kernel

end RazorLayout.CommandLine

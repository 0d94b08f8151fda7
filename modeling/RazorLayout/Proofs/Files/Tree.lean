import RazorLayout.Settings.Discovery

/-!
# Trees of the same shape

Writing into a file that is there changes nothing but its content. Paths lead to the same places
before and after, and the same configuration files are found. What is read from them stays the same
if they are not written themselves.

## Main definitions

* `Tree.SameShape`: directories and files at the same places

## Main results

* `Tree.sameShape_write`: writing into a file keeps the shape
* `Tree.SameShape.resolve?_eq`: paths lead to the same places
* `Settings.discovered_congr`: the same settings are found
-/

namespace RazorLayout.Files.Tree

/-- The trees have directories and files at the same places. -/
structure SameShape (t t' : Tree) : Prop where
  directories_eq : t'.directories = t.directories
  isFile_eq : ∀ place, t'.isFile place = t.isFile place

namespace SameShape

variable {t t' : Tree}

theorem refl (t : Tree) : SameShape t t := ⟨rfl, fun _ => rfl⟩

theorem trans {t'' : Tree} (h : SameShape t t') (h' : SameShape t' t'') : SameShape t t'' :=
  ⟨h'.directories_eq.trans h.directories_eq,
    fun place => (h'.isFile_eq place).trans (h.isFile_eq place)⟩

theorem isDirectory_eq (h : SameShape t t') (place : Place) :
    t'.isDirectory place = t.isDirectory place := by
  simp [isDirectory, h.directories_eq]

theorem enter?_eq (h : SameShape t t') : t'.enter? = t.enter? := by
  funext place part
  simp [enter?, contains, h.isDirectory_eq, h.isFile_eq]

/-- Paths lead to the same places. -/
theorem resolve?_eq (h : SameShape t t') (base : Place) (p : Path) :
    t'.resolve? base p = t.resolve? base p := by
  simp [resolve?, h.enter?_eq]

theorem leadsToFile_eq (h : SameShape t t') (base : Place) (p : Path) :
    t'.leadsToFile base p = t.leadsToFile base p := by
  simp only [leadsToFile, h.resolve?_eq, funext h.isFile_eq]

theorem leadsToDirectory_eq (h : SameShape t t') (base : Place) (p : Path) :
    t'.leadsToDirectory base p = t.leadsToDirectory base p := by
  simp only [leadsToDirectory, h.resolve?_eq, funext h.isDirectory_eq]

end SameShape

/-- Writing into a file keeps the shape. -/
theorem sameShape_write {t : Tree} {place : Place} (h : t.isFile place = true) (content : Content) :
    SameShape t (t.write place content) where
  directories_eq := rfl
  isFile_eq other := by
    rw [isFile, file?_write]
    split
    · rename_i hother
      rw [hother, h]
      rfl
    · rfl

end RazorLayout.Files.Tree

namespace RazorLayout.Settings

open Files

section Discovery

variable {host : Host} {tree : Tree} (h : host.tree.SameShape tree)

include h

theorem configIn?_eq : configIn? { host with tree } = configIn? host := by
  funext directory
  simp [configIn?, h.leadsToFile_eq]

/-- The same configuration files are found. -/
theorem configFiles_eq (start : Path) :
    configFiles { host with tree } start = configFiles host start := by
  have startDirectory : startDirectory? { host with tree } start = startDirectory? host start := by
    simp [startDirectory?, h.leadsToFile_eq, h.leadsToDirectory_eq]
  simp only [configFiles, startDirectory, configIn?_eq h]

theorem layerOf_eq {file : Path}
    (hread : ∀ place, host.tree.resolve? host.base file = some place →
      tree.file? place = host.tree.file? place) :
    layerOf { host with tree } file = layerOf host file := by
  have read : tree.read? host.base file = host.tree.read? host.base file := by
    rw [Tree.read?, Tree.read?, h.resolve?_eq]
    cases hplace : host.tree.resolve? host.base file with
    | none => rfl
    | some place => exact hread place hplace
  simp only [layerOf, read]

theorem withFiles_eq {files : List Path}
    (hread : ∀ file ∈ files, ∀ place, host.tree.resolve? host.base file = some place →
      tree.file? place = host.tree.file? place) (s : Settings) :
    withFiles { host with tree } s files = withFiles host s files := by
  induction files generalizing s with
  | nil => rfl
  | cons file files ih =>
    obtain ⟨hfile, hfiles⟩ := List.forall_mem_cons.1 hread
    simp only [withFiles, layerOf_eq h hfile, ih hfiles]

/-- The same settings are found, if the configuration files are not changed. -/
theorem discovered_congr {start : Path}
    (hread : ∀ file ∈ configFiles host start, ∀ place,
      host.tree.resolve? host.base file = some place → tree.file? place = host.tree.file? place) :
    discovered { host with tree } start = discovered host start := by
  rw [discovered, discovered, configFiles_eq h]
  exact withFiles_eq h hread {}

end Discovery

end RazorLayout.Settings

import RazorLayout.Proofs.Layout.Indentation
import RazorLayout.Proofs.Layout.RoundTrip

/-!
# Where attributes stand

Behind the name of a tag its attributes are written in their order, either on the line of the tag or
in groups on lines of their own. Every group finishes the line in front of it, so that the last one
is left open for the end of the tag. For this to give one line per group no line may be empty when
the next one begins: the name of the tag is pending, and attributes have names.

## Main definitions

* `InGroups`: a list cut into full groups and a last one
* `OnOwnLines`: attributes in groups on lines of their own

## Main results

* `exists_inGroups`: all groups but the last are full
* `InGroups.length_add_one`: how many groups there are
* `foldl_group_lines`: the lines that groups give
* `writeAttributes_layout`: which lines the attributes of a tag give
-/

namespace RazorLayout.Layout

open Text Template

/-! ### Groups -/

/-- The list in groups of `size`: full ones, and a last one that is not empty. -/
structure InGroups {α : Type} (size : Nat) (as : List α) (full : List (List α)) (last : List α) :
    Prop where
  flatten_eq : (full ++ [last]).flatten = as
  full_length : ∀ group ∈ full, group.length = size
  last_ne_nil : last ≠ []
  last_length_le : last.length ≤ size

/-- The number of groups is that of the elements divided by their size, rounded up. -/
theorem InGroups.length_add_one {α : Type} {size : Nat} {as : List α} {full : List (List α)}
    {last : List α} (h : InGroups size as full last) :
    full.length + 1 = (as.length + size - 1) / size := by
  have count : full.flatten.length = full.length * size := by
    rw [List.length_flatten, List.map_congr_left h.full_length, List.map_const',
      List.sum_replicate_nat]
  have total : as.length = full.length * size + last.length := by
    rw [← h.flatten_eq, List.flatten_append, List.length_append, count]
    simp
  have hlast : 0 < last.length := List.length_pos_of_ne_nil h.last_ne_nil
  have hle := h.last_length_le
  symm
  refine Nat.div_eq_of_lt_le ?_ ?_
  · rw [Nat.add_mul, total]
    omega
  · rw [Nat.add_mul, Nat.add_mul, total]
    omega

/-- A group is filled up before the next one is begun. -/
theorem exists_groupsFrom_eq {α : Type} {size room : Nat} {taken as : List α} (hsize : 0 < size)
    (hroom : taken.length + room = size) (hne : taken ≠ [] ∨ as ≠ []) :
    ∃ full last, groupsFrom size room taken as = full ++ [last] ∧
      (∀ group ∈ full, group.length = size) ∧ last ≠ [] ∧ last.length ≤ size := by
  fun_induction groupsFrom size room taken as with
  | case1 room taken h => simp_all
  | case2 room taken h =>
    refine ⟨[], taken.reverse, rfl, by simp, ?_, ?_⟩
    · simpa using h
    · rw [List.length_reverse]
      omega
  | case3 taken a as ih =>
    obtain ⟨full, last, heq, hfull, hlast⟩ := ih (by simp; omega) (.inl (by simp))
    refine ⟨taken.reverse :: full, last, by rw [heq]; rfl, ?_, hlast⟩
    refine List.forall_mem_cons.2 ⟨?_, hfull⟩
    rw [List.length_reverse]
    exact hroom
  | case4 room taken a as ih => exact ih (by simp; omega) (.inl (by simp))

/-- All groups but the last are full, and the last is not empty. -/
theorem exists_inGroups {α : Type} (size : Nat) {as : List α} (hne : as ≠ []) :
    ∃ full last, groups size as = full ++ [last] ∧ InGroups (max 1 size) as full last := by
  have hsize : 0 < max 1 size := by omega
  have hroom : ([] : List α).length + max 1 size = max 1 size := Nat.zero_add _
  obtain ⟨full, last, heq, hfull, hlast, hle⟩ := exists_groupsFrom_eq hsize hroom (.inr hne)
  have flatten : (full ++ [last]).flatten = as := heq ▸ flatten_groups size as
  exact ⟨full, last, heq, flatten, hfull, hlast, hle⟩

/-! ### Lines -/

/-- The lines that groups give behind a pending line: one for each group, the last one pending. -/
theorem foldl_group_lines {full : List (List (List Char))} {last : List (List Char)} {b : Buffer}
    (hfull : ∀ group ∈ full, joinWith [' '] group ≠ []) (hb : b.pending ≠ []) :
    (full ++ [last]).foldl (fun b group => b.finishLine.write (joinWith [' '] group)) b
      = { b with
          committed := b.committed ++ (b.pending ::
            full.map fun group => b.indentation ++ joinWith [' '] group).toArray
          pending := b.indentation ++ joinWith [' '] last } := by
  have step (b : Buffer) (hb : b.pending ≠ []) (s : List Char) : b.finishLine.write s
      = { b with committed := b.committed.push b.pending, pending := b.indentation ++ s } := by
    simp [Buffer.finishLine, Buffer.write, Buffer.indentation, hb]
  induction full generalizing b with
  | nil => simp [step b hb]
  | cons group full ih =>
    obtain ⟨hgroup, hfull⟩ := List.forall_mem_cons.1 hfull
    rw [List.cons_append, List.foldl_cons, step b hb, ih hfull (by simp [hgroup])]
    simp [Buffer.indentation]

/-- Texts that go on with a pending line, each behind a space. -/
theorem foldl_space_write (texts : List (List Char)) {b : Buffer} (hb : b.pending ≠ []) :
    texts.foldl (fun b text => (b.write [' ']).write text) b
      = { b with pending := b.pending ++ texts.flatMap (' ' :: ·) } := by
  induction texts generalizing b with
  | nil => simp
  | cons text texts ih =>
    have step : (b.write [' ']).write text = { b with pending := b.pending ++ ' ' :: text } := by
      simp [Buffer.write, hb]
    rw [List.foldl_cons, step, ih (by simp)]
    simp

/-! ### Attributes -/

/-- Whether the attributes of a tag get lines of their own: there are some, and they always do, or
there are many. -/
def GetsOwnLines (settings : Settings) (count : Nat) : Prop :=
  0 < count ∧ (settings.attributeLayout = .multilineAlways ∨
    settings.attributeLayout = .multilineWhenMany ∧ settings.attributeBreakThreshold ≤ count)

theorem getsOwnLines_iff {settings : Settings} {count : Nat} :
    GetsOwnLines settings count ↔ 0 < count ∧ breaksAttributes settings count = true := by
  unfold GetsOwnLines breaksAttributes
  split <;> simp_all

/-- The texts in groups of `size` on lines of their own, one level deeper: the line that was pending
is complete, and so are the lines of all groups but the last, which is pending. -/
structure OnOwnLines (size : Nat) (texts : List (List Char)) (b b' : Buffer)
    (full : List (List (List Char))) (last : List (List Char)) : Prop where
  groups : InGroups size texts full last
  count : full.length + 1 = (texts.length + size - 1) / size
  lines_eq : b'.lines = b.lines ++ b.pending ::
    full.map fun group => Code.indentation b.unit (b.level + 1) ++ joinWith [' '] group
  pending_eq : b'.pending = Code.indentation b.unit (b.level + 1) ++ joinWith [' '] last

section Written

variable (settings : Settings) {attributes : List Attribute} {b : Buffer}

/-- Attributes that get lines of their own: the pending line and the lines of all groups but the
last become complete. -/
theorem writeAttributes_of_getsOwnLines (hown : GetsOwnLines settings attributes.length)
    (hnames : ∀ a ∈ attributes, a.name ≠ []) (hb : b.pending ≠ []) :
    let texts := (orderedAttributes settings attributes).map (·.render settings.quoteStyle)
    let line := fun group => Code.indentation b.unit (b.level + 1) ++ joinWith [' '] group
    ∃ full last, InGroups (max 1 settings.attributesPerLine) texts full last ∧
      writeAttributes settings attributes b = (true, { b with
        committed := b.committed ++ (b.pending :: full.map line).toArray
        pending := line last }) := by
  intro texts line
  obtain ⟨hpos, hbreak⟩ := getsOwnLines_iff.1 hown
  have length : texts.length = attributes.length := by
    rw [List.length_map, length_orderedAttributes]
  have hne : texts ≠ [] := List.ne_nil_of_length_pos (length.symm ▸ hpos)
  obtain ⟨full, last, hgroups, hin⟩ := exists_inGroups settings.attributesPerLine hne
  -- no line is empty, because every group holds a text and no text is empty
  have hfull : ∀ group ∈ full, joinWith [' '] group ≠ [] := by
    intro group hgroup
    obtain ⟨hgroup, hmem⟩ :=
      of_mem_groups (hgroups ▸ List.mem_append_left [last] hgroup : group ∈ groups _ texts)
    refine joinWith_ne_nil hgroup fun text htext => ?_
    obtain ⟨a, ha, rfl⟩ := List.mem_map.1 (hmem text htext)
    exact render_ne_nil (hnames a (mem_orderedAttributes.1 ha)) _
  have written : writeAttributes settings attributes b
      = (true, ((groups settings.attributesPerLine texts).foldl
          (fun b group => b.finishLine.write (joinWith [' '] group)) b.indent).dedent) := by
    simp only [writeAttributes, List.isEmpty_iff, List.length_pos_iff.1 hpos, if_false]
    rw [if_pos (by rwa [length])]
  rw [hgroups, foldl_group_lines (b := b.indent) hfull hb] at written
  exact ⟨full, last, hin, written⟩

/-- Attributes that get no lines of their own go on with the pending line. -/
theorem writeAttributes_of_not_getsOwnLines (hown : ¬ GetsOwnLines settings attributes.length)
    (hb : b.pending ≠ []) :
    let texts := (orderedAttributes settings attributes).map (·.render settings.quoteStyle)
    writeAttributes settings attributes b
      = (false, { b with pending := b.pending ++ texts.flatMap (' ' :: ·) }) := by
  intro texts
  have length : texts.length = attributes.length := by
    rw [List.length_map, length_orderedAttributes]
  rcases eq_or_ne attributes [] with rfl | hne
  · have hnil : texts = [] := List.length_eq_zero_iff.1 length
    simp [writeAttributes, hnil]
  · have hbreak : ¬ breaksAttributes settings texts.length = true := fun h =>
      hown (getsOwnLines_iff.2 ⟨List.length_pos_of_ne_nil hne, length ▸ h⟩)
    simp only [writeAttributes, List.isEmpty_iff, hne, if_false]
    rw [if_neg hbreak, foldl_space_write texts hb]

end Written

/-- What `writeAttributes` makes of the attributes of a tag that is pending: all of them in their
order, in groups on lines of their own or behind spaces on the pending line, and the level stays. -/
theorem writeAttributes_layout (settings : Settings) {attributes : List Attribute}
    (hnames : ∀ a ∈ attributes, a.name ≠ []) {b : Buffer} (hb : b.pending ≠ []) :
    let ordered := orderedAttributes settings attributes
    let texts := ordered.map (·.render settings.quoteStyle)
    let written := writeAttributes settings attributes b
    (if settings.sortAttributes then SortedByName attributes ordered else ordered = attributes) ∧
    written.2.level = b.level ∧ written.2.unit = b.unit ∧
    (GetsOwnLines settings attributes.length → written.1 = true ∧
      ∃ full last, OnOwnLines (max 1 settings.attributesPerLine) texts b written.2 full last) ∧
    (¬ GetsOwnLines settings attributes.length → written.1 = false ∧
      written.2.lines = b.lines ∧ written.2.pending = b.pending ++ texts.flatMap (' ' :: ·)) := by
  intro ordered texts written
  have order : if settings.sortAttributes then SortedByName attributes ordered
      else ordered = attributes := by
    split
    · exact sortedByName_orderedAttributes ‹_› attributes
    · simp [ordered, orderedAttributes, *]
  refine ⟨order, ?_⟩
  by_cases hown : GetsOwnLines settings attributes.length
  · obtain ⟨full, last, hin, heq⟩ := writeAttributes_of_getsOwnLines settings hown hnames hb
    have lines : OnOwnLines (max 1 settings.attributesPerLine) texts b written.2 full last := by
      refine ⟨hin, hin.length_add_one, ?_, ?_⟩
      · simp [written, heq, Buffer.lines]
      · simp [written, heq]
    exact ⟨by simp [written, heq], by simp [written, heq],
      fun _ => ⟨by simp [written, heq], full, last, lines⟩, fun h => absurd hown h⟩
  · have heq := writeAttributes_of_not_getsOwnLines settings hown hb
    exact ⟨by simp [written, heq], by simp [written, heq], fun h => absurd h hown,
      fun _ => by simp [written, heq, Buffer.lines, texts, ordered]⟩

/-- Three attributes in the order of their names, two on a line. -/
theorem writeAttributes_layout_grouped :
    let settings : Settings := { sortAttributes := true, attributesPerLine := 2 }
    let attributes : List Attribute :=
      [⟨"type".toList, some "text".toList⟩, ⟨"Disabled".toList, none⟩, ⟨"id".toList, none⟩]
    let texts := (orderedAttributes settings attributes).map (·.render settings.quoteStyle)
    let b : Buffer := { unit := "  ".toList, pending := "<input".toList, level := 1 }
    let written := writeAttributes settings attributes b
    (∀ a ∈ attributes, a.name ≠ []) ∧ b.pending ≠ [] ∧
    SortedByName attributes (orderedAttributes settings attributes) ∧
    GetsOwnLines settings attributes.length ∧ written.1 = true ∧ written.2.level = 1 ∧
    ∃ full last, OnOwnLines 2 texts b written.2 full last := by
  intro settings attributes texts b written
  have hnames : ∀ a ∈ attributes, a.name ≠ [] := by decide
  have hb : b.pending ≠ [] := by decide
  have hown : GetsOwnLines settings attributes.length := getsOwnLines_iff.2 (by decide)
  obtain ⟨order, level, -, own, -⟩ := writeAttributes_layout settings hnames hb
  exact ⟨hnames, hb, order, hown, (own hown).1, level, (own hown).2⟩

end RazorLayout.Layout

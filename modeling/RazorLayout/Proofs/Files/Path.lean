import Mathlib.Logic.Relation
import RazorLayout.Files.Path
import RazorLayout.Proofs.Text.Margin

/-!
# Paths and their components

Paths are told apart by their components. Going down into a directory adds a component, and going
up to the parent takes the last one away. So the directories above a path are all different, and
there are no more of them than the path has characters.

## Main definitions

* `Path.innerComponents`: the components behind the beginning of a path
* `Path.IsParent`, `Path.OnChainOf`, `Path.IsAbove`: going up from a path

## Main results

* `Path.components_join`: the components of a file in a directory
* `Path.components_parent?`: the components of a parent
* `Path.length_components_le`: a path has no more components than characters
* `Path.mem_ancestors`, `Path.pairwise_ancestors`: the ancestors of a path, nearest first
* `Path.exists_ancestors_eq`: where a directory stands among the ancestors of a path
-/

namespace RazorLayout.Files.Path

open Text

/-! ### Components -/

/-- The components of what stands behind the beginning of a path. -/
def innerComponents (s : List Char) : List Component :=
  ((split '/' s).filter fun part => !isEmptyPart part).map partComponent

@[simp] theorem innerComponents_nil : innerComponents [] = [] := rfl

theorem innerComponents_append (s t : List Char) :
    innerComponents (s ++ '/' :: t) = innerComponents s ++ innerComponents t := by
  simp only [innerComponents, split_append, List.filter_append, List.map_append]

theorem innerComponents_joinWith {parts : List (List Char)} (h : ∀ part ∈ parts, '/' ∉ part) :
    innerComponents (joinWith ['/'] parts)
      = (parts.filter fun part => !isEmptyPart part).map partComponent := by
  by_cases hne : parts = []
  · subst hne
    rfl
  · rw [innerComponents, split_eq_splitOn, joinWith_eq_intercalate,
      List.splitOn_intercalate '/' h hne]

@[simp] theorem components_nil : components [] = [] := rfl

/-- A path that begins with neither a slash nor a dot of its own. -/
def isRelative (p : Path) : Bool := !p.isAbsolute && !p.startsHere

theorem isRelative_iff {p : Path} :
    p.isRelative = true ↔ p.isAbsolute = false ∧ p.startsHere = false := by
  simp only [isRelative, Bool.and_eq_true, Bool.not_eq_true']

theorem components_root (s : List Char) : components ('/' :: s) = .root :: innerComponents s := rfl

theorem startsHere_of_head? {s : List Char} (h : s = [] ∨ s.head? = some '/') :
    startsHere ('.' :: s) = true := by
  rcases h with rfl | h
  · rfl
  · obtain ⟨t, rfl⟩ := List.head?_eq_some_iff.1 h
    simp [startsHere]

theorem components_here {s : List Char} (h : s = [] ∨ s.head? = some '/') :
    components ('.' :: s) = .here :: innerComponents s := by
  simp [components, parts, lead, isAbsolute, startsHere_of_head? h, innerComponents]

theorem components_of_isRelative {p : Path} (h : p.isRelative = true) :
    p.components = innerComponents p := by
  simp [components, parts, lead, isRelative_iff.1 h, innerComponents]

/-- A path begins with neither exactly when its first part is none of the two. -/
theorem isRelative_cons {c : Char} {s : List Char} :
    isRelative (c :: s) = true ↔ c ≠ '/' ∧ ¬ (c = '.' ∧ (s = [] ∨ s.head? = some '/')) := by
  cases s with
  | nil => simp [isRelative, isAbsolute, startsHere, List.isPrefixOf]
  | cons d s =>
    simp only [isRelative, isAbsolute, startsHere, List.isPrefixOf, List.head?_cons]
    simp
    tauto

/-- Every path begins with a slash, with a dot of its own, or with neither. -/
theorem path_cases (p : Path) :
    (∃ s, p = '/' :: s) ∨ (∃ s, p = '.' :: s ∧ (s = [] ∨ s.head? = some '/')) ∨
      p.isRelative = true := by
  cases p with
  | nil => exact .inr (.inr rfl)
  | cons c s =>
    by_cases hroot : c = '/'
    · exact .inl ⟨s, by rw [hroot]⟩
    · by_cases hhere : c = '.' ∧ (s = [] ∨ s.head? = some '/')
      · exact .inr (.inl ⟨s, by rw [hhere.1], hhere.2⟩)
      · exact .inr (.inr (isRelative_cons.2 ⟨hroot, hhere⟩))

/-- Whether a path begins with neither is seen in front of its first slash. -/
theorem isRelative_append {p tail : List Char} (hp : p ≠ [])
    (htail : tail = [] ∨ tail.head? = some '/') :
    isRelative (p ++ tail) = true ↔ isRelative p = true := by
  obtain ⟨c, s, rfl⟩ := List.exists_cons_of_ne_nil hp
  rw [List.cons_append, isRelative_cons, isRelative_cons]
  cases s with
  | nil => simp [htail]
  | cons d s => simp

/-! ### Going down -/

theorem components_append {p : Path} (hp : p ≠ []) (s : List Char) :
    components (p ++ '/' :: s) = p.components ++ innerComponents s := by
  obtain ⟨t, rfl⟩ | ⟨t, rfl, ht⟩ | h := path_cases p
  · rw [List.cons_append, components_root, innerComponents_append, components_root]
    rfl
  · have ht' : t ++ '/' :: s = [] ∨ (t ++ '/' :: s).head? = some '/' := by
      rcases ht with rfl | ht
      · exact .inr rfl
      · obtain ⟨t, rfl⟩ := List.head?_eq_some_iff.1 ht
        exact .inr rfl
    rw [List.cons_append, components_here ht', innerComponents_append, components_here ht]
    rfl
  · have hs : isRelative (p ++ '/' :: s) = true := (isRelative_append hp (.inr rfl)).2 h
    rw [components_of_isRelative hs, innerComponents_append, components_of_isRelative h]

/-- A file in a directory has one component more than the directory. -/
theorem components_join (p : Path) {name : Path} (hslash : '/' ∉ name)
    (hname : isEmptyPart name = false) :
    (p.join name).components = p.components ++ [partComponent name] := by
  have inner : innerComponents name = [partComponent name] := by
    rw [innerComponents, split_of_not_mem hslash]
    simp [hname]
  have relative : name.isRelative = true := by
    cases name with
    | nil => simp [isEmptyPart] at hname
    | cons c s =>
      refine isRelative_cons.2 ⟨by rintro rfl; simp at hslash, ?_⟩
      rintro ⟨rfl, rfl | hs⟩
      · simp [isEmptyPart] at hname
      · obtain ⟨s, rfl⟩ := List.head?_eq_some_iff.1 hs
        simp at hslash
  rw [join, (isRelative_iff.1 relative).1]
  by_cases hp : p = []
  · subst hp
    simpa [components_of_isRelative relative] using inner
  · by_cases hlast : p.getLast? = some '/'
    · -- the slash is there already
      obtain ⟨u, rfl⟩ := List.getLast?_eq_some_iff.1 hlast
      have added : u ++ ['/'] ++ name = u ++ '/' :: name := by simp
      simp only [Bool.false_eq_true, if_false, List.getLast?_append, added]
      by_cases hu : u = []
      · subst hu
        simp [components_root, inner]
      · simp [components_append hu, inner]
    · simp [hp, hlast, components_append hp, inner]

/-! ### Going up -/

theorem isPrefix_trimParts (parts : List (List Char)) : trimParts parts <+: parts := by
  rw [← List.reverse_suffix, trimParts, List.reverse_reverse]
  exact List.dropWhile_suffix _

/-- Only parts that stand for no component are taken away. -/
theorem filter_trimParts (parts : List (List Char)) :
    (trimParts parts).filter (fun part => !isEmptyPart part)
      = parts.filter fun part => !isEmptyPart part := by
  have dropped (l : List (List Char)) :
      (l.dropWhile isEmptyPart).filter (fun part => !isEmptyPart part)
        = l.filter fun part => !isEmptyPart part := by
    induction l with
    | nil => rfl
    | cons part l ih => cases h : isEmptyPart part <;> simp [h, ih]
  rw [trimParts, List.filter_reverse, dropped, List.filter_reverse, List.reverse_reverse]

/-- What is left ends with a part that stands for a component. -/
theorem isEmptyPart_getLast_trimParts {parts : List (List Char)} {part : List Char}
    (h : (trimParts parts).getLast? = some part) : isEmptyPart part = false := by
  rw [trimParts, List.getLast?_reverse] at h
  have := List.head?_dropWhile_not isEmptyPart parts.reverse
  rw [h] at this
  simpa using this

/-- The parts of a parent: those in front of the last one that stands for a component. -/
theorem parent?_eq_some {p q : Path} (h : p.parent? = some q) :
    (p.startsHere = true ∧ trimParts p.parts = [] ∧ q = []) ∨
      ∃ parts last, trimParts p.parts = parts ++ [last] ∧
        q = p.lead ++ joinWith ['/'] (trimParts parts) := by
  unfold parent? at h
  split at h
  · rename_i hnil
    simp only [Option.ite_none_right_eq_some, Option.some.injEq] at h
    exact .inl ⟨h.1, hnil, h.2.symm⟩
  · rename_i part rest hcons
    obtain rfl := Option.some.inj h
    refine .inr ⟨(part :: rest).dropLast, (part :: rest).getLast (by simp), ?_, rfl⟩
    rw [hcons, List.dropLast_append_getLast]

/-- The first pieces of a text, written again, are its beginning. Behind them it ends, or the
next piece follows. -/
theorem exists_tail_of_prefix_split {sep : Char} {s : List Char} {kept : List (List Char)}
    (h : kept <+: split sep s) :
    ∃ tail, s = joinWith [sep] kept ++ tail ∧ (kept ≠ [] → tail = [] ∨ tail.head? = some sep) := by
  obtain ⟨back, hback⟩ := h
  have hs : joinWith [sep] (kept ++ back) = s := by rw [hback, joinWith_split]
  rcases eq_or_ne kept [] with rfl | hkept
  · exact ⟨s, rfl, fun hne => absurd rfl hne⟩
  rcases eq_or_ne back [] with rfl | hne
  · exact ⟨[], by simpa using hs.symm, fun _ => .inl rfl⟩
  · rw [joinWith_append hkept hne] at hs
    exact ⟨sep :: joinWith [sep] back, by simpa using hs.symm, fun _ => .inr rfl⟩

/-- A path that keeps only its first parts has only their components. -/
theorem components_lead_append {p : Path} {kept : List (List Char)} (h : kept <+: p.parts) :
    components (p.lead ++ joinWith ['/'] kept)
      = (if p.isAbsolute then [.root] else if p.startsHere then [.here] else [])
        ++ (kept.filter fun part => !isEmptyPart part).map partComponent := by
  have inner := innerComponents_joinWith fun part hpart => not_mem_of_mem_split (h.subset hpart)
  obtain ⟨tail, htail, hbehind⟩ := exists_tail_of_prefix_split h
  obtain ⟨s, rfl⟩ | ⟨s, rfl, hs⟩ | hrelative := path_cases p
  · exact (components_root _).trans (congrArg _ inner)
  · have hroot : isAbsolute ('.' :: s) = false := rfl
    have hhere := startsHere_of_head? hs
    have hlead : lead ('.' :: s) = ['.'] := by simp [lead, hroot, hhere]
    have hs' : s = joinWith ['/'] kept ++ tail := by simpa [hlead] using htail
    have hbegin : joinWith ['/'] kept = [] ∨ (joinWith ['/'] kept).head? = some '/' := by
      cases hkept : joinWith ['/'] kept with
      | nil => exact .inl rfl
      | cons c text =>
        rw [hs', hkept] at hs
        simpa using hs
    simp [hlead, components_here hbegin, inner, hroot, hhere]
  · have hfacts := isRelative_iff.1 hrelative
    have hlead : p.lead = [] := by simp [lead, hfacts]
    rw [hlead, List.length_nil, List.drop_zero] at htail
    have hkept : isRelative (joinWith ['/'] kept) = true := by
      rcases eq_or_ne (joinWith ['/'] kept) [] with hnil | hne
      · rw [hnil]
        rfl
      · have hsome : kept ≠ [] := by
          rintro rfl
          exact hne rfl
        rwa [htail, isRelative_append hne (hbehind hsome)] at hrelative
    simp [hlead, components_of_isRelative hkept, inner, hfacts]

/-- The components of a parent: all but the last one. -/
theorem components_parent? {p q : Path} (h : p.parent? = some q) :
    q.components = p.components.dropLast ∧ p.components ≠ [] := by
  obtain ⟨hhere, hnil, rfl⟩ | ⟨parts, last, hparts, rfl⟩ := parent?_eq_some h
  · -- nothing but the dot
    have hfilter := filter_trimParts p.parts
    rw [hnil] at hfilter
    have hroot : p.isAbsolute = false := by
      cases p with
      | nil => rfl
      | cons c s =>
        have hc : c = '.' := by
          by_contra hc
          simp [startsHere, hc, Ne.symm hc] at hhere
        simp [isAbsolute, hc]
    have hp : p.components = [.here] := by simp [components, hroot, hhere, ← hfilter]
    simp [hp]
  · have hbegin : trimParts parts <+: p.parts :=
      (isPrefix_trimParts parts).trans ((List.prefix_append parts [last]).trans
        (hparts ▸ isPrefix_trimParts p.parts))
    have hlast : isEmptyPart last = false :=
      isEmptyPart_getLast_trimParts (show (trimParts p.parts).getLast? = _ by rw [hparts]; simp)
    have hp : p.components = components (p.lead ++ joinWith ['/'] (trimParts parts))
        ++ [partComponent last] := by
      rw [components_lead_append hbegin, filter_trimParts parts, components,
        ← filter_trimParts p.parts, hparts]
      simp [hlast]
    simp [hp]

/-! ### The directories above a path -/

/-- Going one directory up. -/
def IsParent (p q : Path) : Prop := p.parent? = some q

instance (p q : Path) : Decidable (IsParent p q) :=
  inferInstanceAs (Decidable (p.parent? = some q))

/-- The path itself or a directory above it. -/
def OnChainOf (q p : Path) : Prop := Relation.ReflTransGen IsParent p q

/-- A directory above a path, other than the path. -/
def IsAbove (q p : Path) : Prop := Relation.TransGen IsParent p q

/-- A directory above has fewer components. -/
theorem IsAbove.length_components_lt {p q : Path} (h : q.IsAbove p) :
    q.components.length < p.components.length := by
  have up {a b : Path} (h : IsParent a b) : b.components.length < a.components.length := by
    obtain ⟨hb, ha⟩ := components_parent? h
    have := List.length_pos_of_ne_nil ha
    rw [hb, List.length_dropLast]
    omega
  induction h with
  | single h => exact up h
  | tail _ h ih => exact (up h).trans ih

theorem length_filter_joinWith_le (sep : List Char) (parts : List (List Char)) :
    (parts.filter fun part => !isEmptyPart part).length ≤ (joinWith sep parts).length := by
  have one (part : List Char) :
      ([part].filter fun part => !isEmptyPart part).length ≤ part.length := by
    cases part with
    | nil => simp [isEmptyPart]
    | cons c part =>
      exact (List.length_filter_le _ [c :: part]).trans (Nat.succ_le_succ (Nat.zero_le _))
  induction parts using joinWith.induct with
  | case1 => simp
  | case2 part => exact one part
  | case3 part next rest ih =>
    have := one part
    rw [← List.singleton_append, List.filter_append, List.length_append, List.singleton_append,
      joinWith, List.length_append, List.length_append]
    omega

theorem length_innerComponents_le (s : List Char) : (innerComponents s).length ≤ s.length := by
  have := length_filter_joinWith_le ['/'] (split '/' s)
  rwa [joinWith_split, ← List.length_map partComponent] at this

/-- A path has no more components than characters. -/
theorem length_components_le (p : Path) : p.components.length ≤ p.length := by
  obtain ⟨s, rfl⟩ | ⟨s, rfl, hs⟩ | h := path_cases p
  · simpa [components_root] using length_innerComponents_le s
  · simpa [components_here hs] using length_innerComponents_le s
  · simpa [components_of_isRelative h] using length_innerComponents_le p

theorem onChainOf_of_mem_ancestorsWithin {count : Nat} {p q : Path}
    (h : q ∈ ancestorsWithin count p) : q.OnChainOf p := by
  induction count generalizing p with
  | zero => simp [ancestorsWithin] at h
  | succ count ih =>
    rw [ancestorsWithin, List.mem_cons] at h
    rcases h with rfl | h
    · exact .refl
    · cases hparent : p.parent? with
      | none => simp [hparent] at h
      | some r => exact .head hparent (ih (by simpa [hparent] using h))

/-- Ancestors come nearest first. -/
theorem pairwise_ancestorsWithin (count : Nat) (p : Path) :
    (ancestorsWithin count p).Pairwise fun a b => b.IsAbove a := by
  induction count generalizing p with
  | zero => exact .nil
  | succ count ih =>
    rw [ancestorsWithin]
    cases hparent : p.parent? with
    | none => exact List.pairwise_singleton _ p
    | some r =>
      refine List.pairwise_cons.2 ⟨fun q hq => ?_, ih r⟩
      exact .head' hparent (onChainOf_of_mem_ancestorsWithin hq)

/-- With one step for each component, every ancestor is reached. -/
theorem mem_ancestorsWithin {p q : Path} (h : q.OnChainOf p) {count : Nat}
    (hcount : p.components.length < count) : q ∈ ancestorsWithin count p := by
  induction h using Relation.ReflTransGen.head_induction_on generalizing count with
  | refl =>
    obtain ⟨count, rfl⟩ := Nat.exists_eq_succ_of_ne_zero (by omega : count ≠ 0)
    simp [ancestorsWithin]
  | @head p r hparent _ ih =>
    obtain ⟨count, rfl⟩ := Nat.exists_eq_succ_of_ne_zero (by omega : count ≠ 0)
    have := IsAbove.length_components_lt (.single hparent)
    rw [ancestorsWithin, show p.parent? = some r from hparent]
    exact List.mem_cons_of_mem p (ih (by omega))

theorem mem_ancestors {p q : Path} : q ∈ p.ancestors ↔ q.OnChainOf p :=
  ⟨onChainOf_of_mem_ancestorsWithin,
    fun h => mem_ancestorsWithin h (Nat.lt_succ_of_le (length_components_le p))⟩

theorem pairwise_ancestors (p : Path) : p.ancestors.Pairwise fun a b => b.IsAbove a :=
  pairwise_ancestorsWithin (p.length + 1) p

/-- A directory among the ancestors: in front of it stand the nearer ones, and behind it all
those above it. -/
theorem exists_ancestors_eq {p near : Path} (h : near.OnChainOf p) :
    ∃ front back, p.ancestors = front ++ near :: back ∧
      (∀ q ∈ front, q.OnChainOf p ∧ near.IsAbove q) ∧ ∀ far, far.IsAbove near → far ∈ back := by
  obtain ⟨front, back, heq⟩ := List.append_of_mem (mem_ancestors.2 h)
  have hpairwise := pairwise_ancestors p
  rw [heq, List.pairwise_append] at hpairwise
  have hfront (q : Path) (hq : q ∈ front) : near.IsAbove q := hpairwise.2.2 q hq near (by simp)
  refine ⟨front, back, heq, fun q hq => ⟨mem_ancestors.1 (by simp [heq, hq]), hfront q hq⟩,
    fun far hfar => ?_⟩
  have hlt := hfar.length_components_lt
  have hmem : far ∈ p.ancestors := mem_ancestors.2 (h.trans hfar.to_reflTransGen)
  rw [heq, List.mem_append, List.mem_cons] at hmem
  rcases hmem with hmem | rfl | hmem
  · have := (hfront far hmem).length_components_lt
    omega
  · omega
  · exact hmem

end RazorLayout.Files.Path

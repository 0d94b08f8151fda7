import RazorLayout.Proofs.Source.Scanner
import RazorLayout.Proofs.Template.Coverage
import RazorLayout.Proofs.Template.TagBalance

/-!
# Finding the closing tag by places

The search for the closing tag of an element keeps two places: the one where it goes on, and that of
the next closing tag of the name. In each round it passes a tag of the name in front of that closing
tag, or else the closing tag itself. A reader goes on by one character at a time. Between the tags
that the search passes, and inside of them, no tag of the name begins, so that both find the same.

## Main results

* `skipBlanks_eq`, `scanCloser_eq`: what is found from a place on
* `closingTagFrom_plain`: the reader passes over text in which no tag of the name begins
* `roundFollows_opener`, `roundFollows_closer`: what one round of the search does
* `scanClosingTag_eq`: the search finds what the reader finds
-/

namespace RazorLayout.Template

open Text Code

/-! ### Places of blanks and closers -/

section Places

variable {t s : List Char} {place : Nat} (h : RestAt t place s)

include h

/-- The place behind the blanks at the head of the rest. -/
theorem skipBlanks_eq :
    skipBlanks t place = .ok (place + byteLength (s.take (countWhile isBlank s))) := by
  have parts : byteLength s = byteLength (s.takeWhile isBlank) + byteLength (trimStart s) := by
    rw [← byteLength_append, trimStart, List.takeWhile_append_dropWhile]
  simp only [skipBlanks, h.sliceFrom, ok_bind, take_countWhile]
  rw [parts, Nat.add_sub_cancel]
  rfl

theorem scanCloser_eq (find : List Char → Option Nat) :
    scanCloser find t place
      = .ok ((find s).map fun n => place + byteLength (s.take n)) := by
  simp only [scanCloser, h.sliceFrom, ok_bind]
  rfl

end Places

/-! ### Text between tags -/

section Search

variable {tag : List Char} (hchars : ∀ c ∈ tag, isTagNameChar c = true)

theorem closingTagFrom_eq_map (opener closer : List Char) (n depth skip : Nat) (s : List Char) :
    closingTagFrom opener closer n depth skip s
      = (closingTagFrom opener closer 0 depth skip s).map (n + ·) := by
  induction s generalizing n depth skip with
  | nil => cases skip <;> rfl
  | cons c s ih =>
    cases skip with
    | succ skip => rw [closingTagFrom, closingTagFrom, ih, ih (0 + 1), map_succ_add]
    | zero =>
      cases hcloser : closer.isPrefixOf (c :: s) with
      | true =>
        cases depth with
        | zero => simp [closingTagFrom, hcloser]
        | succ depth =>
          rw [closingTagFrom, if_pos hcloser, closingTagFrom, if_pos hcloser, ih, ih (0 + 1),
            map_succ_add]
      | false =>
        rw [closingTagFrom_of_not_closer n depth hcloser,
          closingTagFrom_of_not_closer 0 depth hcloser]
        split <;> rw [ih, ih (0 + 1), map_succ_add]

/-- Where no closing tag of the name stands, the reader finds none. -/
theorem closingTagFrom_eq_none {opener closer : List Char} {n depth : Nat} {s : List Char}
    (h : find? closer s = none) : closingTagFrom opener closer n depth 0 s = none := by
  rw [Option.eq_none_iff_forall_ne_some]
  intro m hm
  obtain ⟨inner, rest, rfl, -⟩ := closingTagFrom_eq_some hm
  rw [List.append_assoc] at h
  have none := not_prefix_of_find?_eq_none h inner.length
  rw [List.drop_left] at none
  exact none (List.prefix_append ..)

include hchars

/-- The reader passes over text in which no closing tag begins and no tag that needs one. -/
theorem closingTagFrom_plain {k : Nat} {s : List Char} (hk : k ≤ s.length)
    (hcloses : ∀ j < k, ¬ ClosesAt tag s j) (hopens : ∀ j < k, ¬ OpensAt tag s j) (n depth : Nat) :
    closingTagFrom (tagOpener tag) (tagCloser tag) n depth 0 s
      = closingTagFrom (tagOpener tag) (tagCloser tag) (n + k) depth 0 (s.drop k) := by
  induction k generalizing s n with
  | zero => rfl
  | succ k ih =>
    cases s with
    | nil => simp at hk
    | cons c s =>
      have step := closingTagFrom_of_not_closesAt hchars (hcloses 0 k.succ_pos) n depth
      rw [if_neg (hopens 0 k.succ_pos), Nat.add_zero depth] at step
      rw [step, ih (by simpa using hk) (fun j hj => hcloses (j + 1) (by omega))
        (fun j hj => hopens (j + 1) (by omega)), List.drop_succ_cons]
      congr 1
      omega

/-- A tag does not reach into a closing tag. -/
theorem tagOpener_prefix_of_closer {x r : List Char} (hx : x ≠ [])
    (h : tagOpener tag <+: x ++ (tagCloser tag ++ r)) : tagOpener tag <+: x := by
  rcases List.prefix_or_prefix_of_prefix h (List.prefix_append x _) with within | ⟨y, hy⟩
  · exact within
  · -- what the tag has behind `x` begins with `<`, and no name holds that
    cases y with
    | nil => rw [← hy, List.append_nil]
    | cons c y =>
      rw [← hy, List.prefix_append_right_inj] at h
      obtain rfl : c = '<' := by
        obtain ⟨z, hz⟩ := h
        exact (List.cons.inj hz).1
      obtain ⟨d, x, rfl⟩ := List.exists_cons_of_ne_nil hx
      have held : '<' ∈ tag := by
        rw [← (List.cons.inj hy).2]
        simp
      exact absurd held
        (not_mem_of_isTagNameChar hchars (isAttributeNameChar_delimiter (by decide)))

/-- At a tag of the name the reader goes on behind the name. -/
theorem closingTagFrom_opener {r : List Char} (h : ¬ ClosesAt tag (tagOpener tag ++ r) 0)
    (n depth : Nat) :
    closingTagFrom (tagOpener tag) (tagCloser tag) n depth 0 (tagOpener tag ++ r)
      = closingTagFrom (tagOpener tag) (tagCloser tag) (n + (tagOpener tag).length)
          (depth + if opensNested (tagOpener tag) (tagOpener tag ++ r) then 1 else 0) 0 r := by
  have opens : OpensAt tag (tagOpener tag ++ r) 0 ↔
      opensNested (tagOpener tag) (tagOpener tag ++ r) = true :=
    opensAt_iff.trans (and_iff_right (List.prefix_append ..))
  have hname : '<' ∉ tag :=
    not_mem_of_isTagNameChar hchars (isAttributeNameChar_delimiter (by decide))
  have step : closingTagFrom (tagOpener tag) (tagCloser tag) n depth 0 (tagOpener tag ++ r)
      = closingTagFrom (tagOpener tag) (tagCloser tag) (n + 1)
          (depth + if OpensAt tag (tagOpener tag ++ r) 0 then 1 else 0) 0 (tag ++ r) :=
    closingTagFrom_of_not_closesAt hchars h n depth
  have length : n + (tagOpener tag).length = n + 1 + tag.length := by
    rw [tagOpener, List.length_cons]
    omega
  rw [step, closingTagFrom_of_no_markup tag (n + 1) _ hname r, length]
  simp only [opens]

end Search

/-! ### One round of the search -/

/-- A search that stands in front of `s`, where `depth` more elements of the name are open. -/
structure TagSearch.Follows (t tag : List Char) (st : TagSearch) (place depth : Nat)
    (s : List Char) : Prop where
  rest : RestAt t st.place s
  place_eq : st.place = place
  depth_eq : st.depth = depth + 1
  close : ∃ v r, s = v ++ (tagCloser tag ++ r) ∧ st.close = place + byteLength v ∧
    ∀ j < v.length, ¬ ClosesAt tag s j

/-- What the reader finds in front of `s`, as a place. -/
def closingPlace? (tag : List Char) (place depth : Nat) (s : List Char) : Option Nat :=
  (closingTagFrom (tagOpener tag) (tagCloser tag) 0 depth 0 s).map fun n =>
    place + byteLength (s.take n)

/-- The reader goes on behind a piece. -/
theorem closingPlace?_append {tag x r : List Char} {depth depth' : Nat}
    (h : closingTagFrom (tagOpener tag) (tagCloser tag) 0 depth 0 (x ++ r)
      = closingTagFrom (tagOpener tag) (tagCloser tag) (0 + x.length) depth' 0 r) (place : Nat) :
    closingPlace? tag place depth (x ++ r)
      = closingPlace? tag (place + byteLength x) depth' r := by
  rw [closingPlace?, closingPlace?, h, closingTagFrom_eq_map, Option.map_map]
  congr 1
  funext n
  simp [byteLength_take_add, Nat.add_assoc]

section Round

variable {t tag : List Char}

/-- Whether a tag needs a closing tag is seen behind its name. -/
theorem scanOpensNested_eq {place : Nat} {rest : List Char}
    (h : RestAt t place (tagOpener tag ++ rest)) :
    scanOpensNested t (place + byteLength (tagOpener tag))
      = .ok (opensNested (tagOpener tag) (tagOpener tag ++ rest)) := by
  have here := h.append
  obtain ⟨u, rfl, rfl⟩ := h
  have closes : scanClosesItself (u ++ (tagOpener tag ++ rest))
      (byteLength u + byteLength (tagOpener tag)) = .ok (closesItself (tagOpener tag) rest) := by
    rw [scanClosesItself, here.sliceFrom, ok_bind, closesItself, findPlace?]
    cases hfind : find? ['>'] rest with
    | none => rfl
    | some n =>
      have whole : RestAt (u ++ (tagOpener tag ++ rest)) 0
          (u ++ (tagOpener tag ++ rest.take n) ++ rest.drop n) := ⟨[], by simp, rfl⟩
      have stop : byteLength u + byteLength (tagOpener tag) + byteLength (rest.take n)
          = 0 + byteLength (u ++ (tagOpener tag ++ rest.take n)) := by
        simp only [byteLength_append]
        omega
      simp only [Option.map_some, sliceTo, whole.slice stop, ok_bind]
      -- the tag is not empty, so that what stands in front of it is not seen
      rw [List.getLast?_append_of_ne_nil u (by simp [tagOpener])]
      rfl
  rw [scanOpensNested, scanNameEnd, here.sliceFrom, ok_bind, opensNested, List.drop_left, closes]
  cases endsTagName rest <;> rfl

/-- A round of the search finds what the reader finds, or the reader goes on there as well. -/
def RoundFollows (t tag : List Char) (st : TagSearch) (place depth : Nat) (s : List Char) : Prop :=
  RoundKeeps (byteLength t) TagSearch.place (tagSearchRound t tag)
    (fun st (x : Nat × Nat × List Char) => st.Follows t tag x.1 x.2.1 x.2.2)
    (fun x => closingPlace? tag x.1 x.2.1 x.2.2) st (place, depth, s)

variable (hchars : ∀ c ∈ tag, isTagNameChar c = true)

include hchars

/-- In front of the next closing tag, no tag begins where none lies in the piece. -/
theorem not_opensAt_of_piece {v r : List Char} {k : Nat} (hk : k ≤ v.length)
    (hpiece : ∀ j < k, ¬ tagOpener tag <+: v.drop j) :
    ∀ j < k, ¬ OpensAt tag (v ++ (tagCloser tag ++ r)) j := by
  intro j hj hopens
  have hprefix := (opensAt_iff.1 hopens).1
  rw [List.drop_append_of_le_length (by omega)] at hprefix
  have hne : v.drop j ≠ [] := by
    rw [ne_eq, List.drop_eq_nil_iff]
    omega
  exact hpiece j hj (tagOpener_prefix_of_closer hchars hne hprefix)

/-- A tag of the name stands in front of the next closing tag. -/
theorem roundFollows_opener {st : TagSearch} {depth : Nat} {a b r : List Char}
    (hrest : RestAt t st.place (a ++ (tagOpener tag ++ (b ++ (tagCloser tag ++ r)))))
    (hdepth : st.depth = depth + 1)
    (hclose : st.close = st.place + byteLength (a ++ (tagOpener tag ++ b)))
    (hfind : find? (tagOpener tag) (a ++ (tagOpener tag ++ b)) = some a.length)
    (hcloses : ∀ j < (a ++ (tagOpener tag ++ b)).length,
      ¬ ClosesAt tag (a ++ (tagOpener tag ++ (b ++ (tagCloser tag ++ r)))) j) :
    RoundFollows t tag st st.place depth
      (a ++ (tagOpener tag ++ (b ++ (tagCloser tag ++ r)))) := by
  have hopens : ∀ j < a.length,
      ¬ OpensAt tag (a ++ (tagOpener tag ++ (b ++ (tagCloser tag ++ r)))) j := by
    have := not_opensAt_of_piece (r := r) hchars (by simp) fun j => find?_first hfind
    simpa only [List.append_assoc] using this
  have region : slice t st.place st.close = .ok (a ++ (tagOpener tag ++ b)) := by
    refine RestAt.slice (s := tagCloser tag ++ r) ?_ hclose
    simpa only [List.append_assoc] using hrest
  generalize hbehind : b ++ (tagCloser tag ++ r) = behind at *
  simp only [List.length_append] at hcloses
  have hopener : (tagOpener tag).length = tag.length + 1 := rfl
  have nested := scanOpensNested_eq hrest.append
  have next := hrest.append.append
  have here : ¬ ClosesAt tag (tagOpener tag ++ behind) 0 := by
    have := hcloses a.length (by omega)
    rwa [ClosesAt, List.drop_left] at this
  have jump : closingTagFrom (tagOpener tag) (tagCloser tag) 0 depth 0
        ((a ++ tagOpener tag) ++ behind)
      = closingTagFrom (tagOpener tag) (tagCloser tag) (0 + (a ++ tagOpener tag).length)
        (depth + if opensNested (tagOpener tag) (tagOpener tag ++ behind) then 1 else 0) 0
        behind := by
    rw [List.append_assoc, closingTagFrom_plain hchars (by simp) (fun j hj => hcloses j (by omega))
      hopens, List.drop_left, closingTagFrom_opener hchars here, List.length_append, Nat.add_assoc]
  have round : tagSearchRound t tag st = .ok (.again
      ⟨st.place + byteLength a + byteLength (tagOpener tag), st.close,
        st.depth + if opensNested (tagOpener tag) (tagOpener tag ++ behind) then 1 else 0⟩) := by
    simp only [tagSearchRound, region, ok_bind, findPlace?, hfind, Option.map_some, List.take_left,
      nested]
    rfl
  have hbytes := byteLength_pos (s := tagOpener tag) (by simp [tagOpener])
  generalize (if opensNested (tagOpener tag) (tagOpener tag ++ behind) then 1 else 0) = opened
    at jump round
  refine .inr ⟨_, (_, depth + opened, behind), round, ?_, ?_,
    ⟨next, rfl, ?_, b, r, hbehind.symm, ?_, ?_⟩, ?_⟩
  · show st.place < st.place + byteLength a + byteLength (tagOpener tag)
    omega
  · have := next.add_byteLength
    show st.place + byteLength a + byteLength (tagOpener tag) ≤ byteLength t
    omega
  · show st.depth + opened = depth + opened + 1
    omega
  · show st.close = _
    rw [hclose]
    simp only [byteLength_append]
    omega
  · intro j hj hcloser
    refine hcloses (a.length + ((tagOpener tag).length + j)) (by omega) ?_
    rwa [ClosesAt, ← List.drop_drop, List.drop_left, ← List.drop_drop, List.drop_left]
  · dsimp only
    rw [← List.append_assoc, closingPlace?_append jump, byteLength_append, Nat.add_assoc]

/-- No tag of the name stands in front of the next closing tag. -/
theorem roundFollows_closer {st : TagSearch} {depth : Nat} {v r : List Char}
    (hrest : RestAt t st.place (v ++ (tagCloser tag ++ r))) (hdepth : st.depth = depth + 1)
    (hclose : st.close = st.place + byteLength v) (hfind : find? (tagOpener tag) v = none)
    (hcloses : ∀ j < v.length, ¬ ClosesAt tag (v ++ (tagCloser tag ++ r)) j) :
    RoundFollows t tag st st.place depth (v ++ (tagCloser tag ++ r)) := by
  have hopens := not_opensAt_of_piece (r := r) hchars (Nat.le_refl v.length) fun j _ =>
    not_prefix_of_find?_eq_none hfind j
  have plain : closingTagFrom (tagOpener tag) (tagCloser tag) 0 depth 0 (v ++ (tagCloser tag ++ r))
      = closingTagFrom (tagOpener tag) (tagCloser tag) (0 + v.length) depth 0
        (tagCloser tag ++ r) := by
    rw [closingTagFrom_plain hchars (by simp) hcloses hopens, List.drop_left]
  have next : RestAt t (st.close + byteLength (tagCloser tag)) r := by
    rw [hclose]
    exact hrest.append.append
  have hbytes := byteLength_pos (s := tagCloser tag) (by simp [tagCloser])
  have region : slice t st.place st.close = .ok v := hrest.slice hclose
  rw [RoundFollows, RoundKeeps]
  dsimp only
  rw [closingPlace?_append plain]
  simp only [tagSearchRound, region, ok_bind, findPlace?, hfind, Option.map_none, hdepth, countDown]
  cases depth with
  | zero =>
    -- this is the closing tag that was looked for
    refine .inl ?_
    simp [closingPlace?, closingTagFrom_closer, hclose]
  | succ d =>
    have passed : closingPlace? tag (st.place + byteLength v) (d + 1) (tagCloser tag ++ r)
        = closingPlace? tag (st.close + byteLength (tagCloser tag)) d r := by
      rw [closingPlace?_append (closingTagFrom_closer tag 0 (d + 1) r), hclose]
    rw [passed, if_neg d.succ_ne_zero, next.sliceFrom, ok_bind]
    cases hnext : find? (tagCloser tag) r with
    | none =>
      refine .inl ?_
      rw [closingPlace?, closingTagFrom_eq_none hnext]
      rfl
    | some n =>
      obtain ⟨v', r', rfl, rfl⟩ := find?_eq_some hnext
      have bound := next.add_byteLength
      refine .inr ⟨_, (_, d, _), rfl, ?_, ?_,
        ⟨next, rfl, rfl, v', r', rfl, ?_, fun j hj hcloser => ?_⟩,
        rfl⟩
      · show st.place < st.close + byteLength (tagCloser tag)
        omega
      · show st.close + byteLength (tagCloser tag) ≤ byteLength t
        omega
      · simp
      · exact find?_first hnext hj hcloser

theorem roundFollows_of_follows {st : TagSearch} {place depth : Nat} {s : List Char}
    (h : st.Follows t tag place depth s) : RoundFollows t tag st place depth s := by
  obtain ⟨hrest, rfl, hdepth, v, r, rfl, hclose, hcloses⟩ := h
  cases hfind : find? (tagOpener tag) v with
  | some n =>
    obtain ⟨a, b, rfl, rfl⟩ := find?_eq_some hfind
    simp only [List.append_assoc] at hrest hcloses ⊢
    exact roundFollows_opener hchars hrest hdepth hclose hfind hcloses
  | none => exact roundFollows_closer hchars hrest hdepth hclose hfind hcloses

/-- The search finds the closing tag that the reader finds. -/
theorem scanClosingTag_eq {place : Nat} {s : List Char} (h : RestAt t place s) :
    scanClosingTag t tag place
      = .ok ((closingTag? tag s).map fun n => place + byteLength (s.take n)) := by
  rw [scanClosingTag, h.sliceFrom, ok_bind, findPlace?]
  cases hfind : find? (tagCloser tag) s with
  | none =>
    rw [closingTag?, closingTagFrom_eq_none hfind]
    rfl
  | some n =>
    obtain ⟨v, r, rfl, rfl⟩ := find?_eq_some hfind
    simp only [Option.map_some, List.take_left]
    have start : TagSearch.Follows t tag ⟨place, place + byteLength v, 1⟩ place 0
        (v ++ (tagCloser tag ++ r)) := by
      exact ⟨h, rfl, rfl, v, r, rfl, rfl, fun j => find?_first hfind⟩
    exact loop_eq_ok (x := (place, 0, v ++ (tagCloser tag ++ r)))
      (fun _ _ => roundFollows_of_follows hchars) start

end Round

end RazorLayout.Template

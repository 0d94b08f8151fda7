import RazorLayout.Proofs.Code.Roles

/-!
# What a scan shows

A scan takes a snippet step by step and shows the first character of every step. Most steps are one
character. The marks `/*`, `*/`, `@"`, `$@"` and a doubled quote are one step each, and what they
have behind their first character is never shown, whether comments and strings are hidden or not.
So a scan that hides nothing shows the whole snippet exactly when it meets no such mark.

Scans can be interrupted behind a line feed. What is known there beyond the state (that a character
is escaped, that a line comment goes on) does not outlive the line feed, and no mark reaches over
it. Hence the scan of two texts, the first of which ends a line, is the scan of the first and then
that of the second from the state behind the first. This holds for every state to begin with, also
for those that no scan reaches, with a literal and a block comment open at once.

## Main definitions

* `places`: the characters of a text with their places
* `pieces`: the characters of each step of a scan
* `wideMarks`: the marks of several characters that are one step
* `Mode.EscapesInside`: escapes stand inside of literals that have them

## Main results

* `scan_nothing_eq_places_iff`: a scan that hides nothing shows the first character of each piece,
  and all of the text exactly when no piece is a wide mark
* `Mode.EscapesInside.step_newline`: behind a line feed only the state is left
* `scan_append_of_newline`: a scan goes on behind a line feed from the state alone
-/

namespace RazorLayout.Code

open Text

/-! ### The pieces of a scan -/

/-- The characters of a text behind `pos` bytes, each with its place. -/
def places : (pos : Nat) → List Char → List (Nat × Char)
  | _, [] => []
  | pos, c :: s => (pos, c) :: places (pos + c.utf8Size) s

/-- The first characters of texts that follow each other behind `pos` bytes, with their places. -/
def heads : (pos : Nat) → List (List Char) → List (Nat × Char)
  | _, [] => []
  | pos, piece :: rest => (places pos piece).take 1 ++ heads (pos + byteLength piece) rest

/-- The place and the character of a step. -/
def Seen.place (seen : Seen) : Nat × Char := (seen.position, seen.char)

/-- The marks of several characters that a scan takes in one step. -/
def wideMarks : List (List Char) :=
  ["/*".toList, "*/".toList, "@\"".toList, "$@\"".toList, "\"\"".toList]

/-- The characters of each step. The first `skip` characters belong to a step already taken. -/
def piecesFrom (lang : Language) : (skip : Nat) → Mode → List Char → List (List Char)
  | _, _, [] => []
  | skip + 1, m, _ :: s => piecesFrom lang skip m s
  | 0, m, c :: s =>
    let st := step lang m c s
    (c :: s.take st.extra) :: piecesFrom lang st.extra st.after s

/-- The characters of each step of a snippet. -/
def pieces (lang : Language) (st : ScanState) (s : List Char) : List (List Char) :=
  piecesFrom lang 0 { state := st } s

theorem places_append (pos : Nat) (s t : List Char) :
    places pos (s ++ t) = places pos s ++ places (pos + byteLength s) t := by
  induction s generalizing pos with
  | nil => rfl
  | cons c s ih =>
    rw [List.cons_append, places, places, ih, byteLength_cons, List.cons_append, Nat.add_assoc]

theorem length_places (pos : Nat) (s : List Char) : (places pos s).length = s.length := by
  induction s generalizing pos with
  | nil => rfl
  | cons c s ih => rw [places, List.length_cons, List.length_cons, ih]

section Heads

variable {ps : List (List Char)} (hps : ∀ piece ∈ ps, piece ≠ [])

include hps

theorem length_heads (pos : Nat) : (heads pos ps).length = ps.length := by
  induction ps generalizing pos with
  | nil => rfl
  | cons piece ps ih =>
    have hpiece : 0 < piece.length := List.length_pos_of_ne_nil (hps piece List.mem_cons_self)
    rw [heads, List.length_append, List.length_take, length_places, List.length_cons,
      ih fun p hp => hps p (List.mem_cons_of_mem piece hp)]
    omega

theorem length_le_length_flatten : ps.length ≤ ps.flatten.length := by
  induction ps with
  | nil => exact Nat.le_refl 0
  | cons piece ps ih =>
    have hpiece : 0 < piece.length := List.length_pos_of_ne_nil (hps piece List.mem_cons_self)
    have rest := ih fun p hp => hps p (List.mem_cons_of_mem piece hp)
    rw [List.length_cons, List.flatten_cons, List.length_append]
    omega

/-- The first characters are all characters when no piece has a second one. -/
theorem heads_eq_places_iff (pos : Nat) :
    heads pos ps = places pos ps.flatten ↔ ∀ piece ∈ ps, piece.length = 1 := by
  induction ps generalizing pos with
  | nil => simp [heads, places]
  | cons piece ps ih =>
    have hrest : ∀ p ∈ ps, p ≠ [] := fun p hp => hps p (List.mem_cons_of_mem piece hp)
    have head : (places pos piece).take 1 = places pos (piece.take 1) := by
      cases piece with
      | nil => rfl
      | cons c piece => rfl
    rw [List.forall_mem_cons, ← ih hrest (pos + byteLength piece), heads, List.flatten_cons,
      places_append, head]
    constructor
    · intro h
      -- each further piece has one character at least, so that this one has no more than one
      have length := congrArg List.length h
      have further := length_le_length_flatten hrest
      have hpiece : 0 < piece.length := List.length_pos_of_ne_nil (hps piece List.mem_cons_self)
      simp only [List.length_append, length_places, length_heads hrest, List.length_take] at length
      have single : piece.length = 1 := by omega
      rw [List.take_of_length_le single.le] at h
      exact ⟨single, List.append_cancel_left h⟩
    · rintro ⟨single, h⟩
      rw [List.take_of_length_le single.le, h]

end Heads

section Pieces

variable {lang : Language} {m : Mode}

theorem take_one_of_head? {d : Char} {s : List Char} (h : s.head? = some d) : s.take 1 = [d] := by
  obtain ⟨s, rfl⟩ := List.head?_eq_some_iff.1 h
  rfl

/-- The step takes one character, or a mark. -/
def TakesMark (c : Char) (s : List Char) (st : Step) : Prop :=
  st.extra = 0 ∨ c :: s.take st.extra ∈ wideMarks

theorem takesMark_stringStep (m : Mode) (q : Quote) (c : Char) (s : List Char) :
    TakesMark c s (stringStep m q c s) := by
  unfold stringStep
  repeat' split
  any_goals exact .inl rfl
  -- a doubled quote
  simp_all [TakesMark, take_one_of_head?, wideMarks]

theorem takesMark_codeStep (lang : Language) (m : Mode) (c : Char) (s : List Char) :
    TakesMark c s (codeStep lang m c s) := by
  unfold codeStep
  repeat' split
  any_goals exact .inl rfl
  all_goals simp_all [TakesMark, take_one_of_head?, wideMarks]

theorem takesMark_step (lang : Language) (m : Mode) (c : Char) (s : List Char) :
    TakesMark c s (step lang m c s) := by
  unfold step
  split
  · split <;> exact .inl rfl
  · split
    · split
      · simp_all [TakesMark, take_one_of_head?, wideMarks]
      · exact .inl rfl
    · split
      · exact takesMark_stringStep ..
      · exact takesMark_codeStep ..

theorem flatten_piecesFrom {skip : Nat} {s : List Char} (hskip : skip ≤ s.length) :
    (piecesFrom lang skip m s).flatten = s.drop skip := by
  fun_induction piecesFrom lang skip m s with
  | case1 => simp
  | case2 skip m c s ih => exact ih (by simpa using hskip)
  | case3 m c s st ih =>
    rw [List.flatten_cons, ih (extra_step_le ..), List.cons_append, List.take_append_drop]
    rfl

theorem of_mem_piecesFrom {skip : Nat} {s piece : List Char}
    (h : piece ∈ piecesFrom lang skip m s) : piece.length = 1 ∨ piece ∈ wideMarks := by
  fun_induction piecesFrom lang skip m s with
  | case1 => simp at h
  | case2 skip m c s ih => exact ih h
  | case3 m c s st ih =>
    rcases List.mem_cons.1 h with rfl | h
    · apply (takesMark_step lang m c s).imp_left
      intro single
      simp [st, single]
    · exact ih h

theorem length_ne_one_of_mem_wideMarks {piece : List Char} (h : piece ∈ wideMarks) :
    piece.length ≠ 1 ∧ piece ≠ [] := by
  have wide : ∀ mark ∈ wideMarks, mark.length ≠ 1 ∧ mark ≠ [] := by decide
  exact wide piece h

/-- A scan that hides nothing shows the first character of each step. -/
theorem map_place_scanFrom {skip : Nat} {s : List Char} (hskip : skip ≤ s.length) (pos : Nat) :
    (scanFrom lang .nothing [] skip m pos s).1.reverse.map Seen.place
      = heads (pos + byteLength (s.take skip)) (piecesFrom lang skip m s) := by
  induction s generalizing skip m pos with
  | nil => rfl
  | cons c s ih =>
    cases skip with
    | succ skip =>
      rw [scanFrom, ih (by simpa using hskip), piecesFrom, List.take_succ_cons, byteLength_cons,
        Nat.add_assoc]
    | zero =>
      rw [scanFrom_cons, scanFrom_acc, List.reverse_append, List.map_append,
        ih (extra_step_le ..), piecesFrom, heads, byteLength_cons, ← Nat.add_assoc]
      simp [places, Seen.place]

end Pieces

/-- A scan that hides nothing cuts the text into pieces, which are single characters and wide marks,
and shows the first character of each. So it shows the text, every character at its place, exactly
when it meets no wide mark. -/
theorem scan_nothing_eq_places_iff (lang : Language) (st : ScanState) (s : List Char) :
    (pieces lang st s).flatten = s ∧
      (∀ piece ∈ pieces lang st s, piece.length = 1 ∨ piece ∈ wideMarks) ∧
      (scan lang .nothing st s).1.map Seen.place = heads 0 (pieces lang st s) ∧
      ((scan lang .nothing st s).1.map Seen.place = places 0 s ↔
        ∀ piece ∈ pieces lang st s, piece ∉ wideMarks) := by
  have whole : (pieces lang st s).flatten = s := flatten_piecesFrom (Nat.zero_le _)
  have parts : ∀ piece ∈ pieces lang st s, piece.length = 1 ∨ piece ∈ wideMarks :=
    fun piece => of_mem_piecesFrom
  have shown : (scan lang .nothing st s).1.map Seen.place = heads 0 (pieces lang st s) :=
    map_place_scanFrom (Nat.zero_le _) 0
  have nonempty : ∀ piece ∈ pieces lang st s, piece ≠ [] := by
    intro piece hpiece
    rcases parts piece hpiece with single | wide
    · exact List.ne_nil_of_length_pos (by omega)
    · exact (length_ne_one_of_mem_wideMarks wide).2
  refine ⟨whole, parts, shown, ?_⟩
  have all := heads_eq_places_iff nonempty 0
  rw [whole] at all
  rw [shown, all]
  apply forall₂_congr
  intro piece hpiece
  constructor
  · exact fun single wide => (length_ne_one_of_mem_wideMarks wide).1 single
  · exact fun narrow => (parts piece hpiece).resolve_right narrow

/-- The star of `/*` and the slash of `*/` are not shown. -/
theorem scan_nothing_ne_places :
    (scan .csharp .nothing {} "a /* b */".toList).1.map Seen.place
      ≠ places 0 "a /* b */".toList := by
  decide

/-! ### Going on behind a line feed -/

/-- A step that is shown `n` bytes further on. -/
def Seen.shift (n : Nat) (seen : Seen) : Seen := { seen with position := seen.position + n }

/-- Characters are escaped inside of literals only, in those that have escapes. -/
def Mode.EscapesInside (m : Mode) : Prop :=
  m.escaped = true →
    m.inLineComment = false ∧ m.state.inBlockComment = false ∧
      ∃ q, m.state.quote = some q ∧ q ≠ .verbatim

theorem escapesInside_stringStep {m : Mode} (hm : m.EscapesInside) (hline : m.inLineComment = false)
    (hblock : m.state.inBlockComment = false) {q : Quote} (hq : m.state.quote = some q) (c : Char)
    (s : List Char) : (stringStep m q c s).after.EscapesInside := by
  unfold Mode.EscapesInside at hm
  unfold stringStep Mode.closing
  repeat' split
  all_goals simp_all [Mode.EscapesInside]

theorem escapesInside_codeStep {m : Mode} (hm : m.EscapesInside) (hq : m.state.quote = none)
    (lang : Language) (c : Char) (s : List Char) : (codeStep lang m c s).after.EscapesInside := by
  have unescaped : m.escaped = false := by simpa [Mode.EscapesInside, hq] using hm
  unfold codeStep Mode.opening
  repeat' split
  all_goals simp [Mode.EscapesInside, unescaped]

namespace Mode.EscapesInside

variable {m : Mode} (hm : m.EscapesInside)

include hm

theorem step (lang : Language) (c : Char) (s : List Char) :
    (Code.step lang m c s).after.EscapesInside := by
  unfold Code.step
  split
  · -- nothing is escaped in a comment, and a comment escapes nothing
    rename_i hline
    have unescaped : m.escaped = false := by simpa [Mode.EscapesInside, hline] using hm
    split <;> simp [Mode.EscapesInside, unescaped]
  · rename_i hline
    split
    · rename_i hblock
      have unescaped : m.escaped = false := by simpa [Mode.EscapesInside, hblock] using hm
      split <;> simp [Mode.EscapesInside, unescaped]
    · rename_i hblock
      split
      · rename_i q hq
        exact escapesInside_stringStep hm (by simpa using hline) (by simpa using hblock) hq c s
      · rename_i hq
        exact escapesInside_codeStep hm hq lang c s

/-- A line feed is a step of its own, whatever follows it, and behind it only the state is left. -/
theorem step_newline (lang : Language) :
    ∃ role st, ∀ s, Code.step lang m '\n' s = { role, after := { state := st } } := by
  unfold Mode.EscapesInside at hm
  have unescaped {st : ScanState} (h : m.escaped = false) :
      { m with state := st, inLineComment := false } = ({ state := st } : Mode) := by
    rw [h]
  by_cases hline : m.inLineComment = true
  · -- the comment ends here, and nothing is escaped in a comment
    refine ⟨.code, m.state, fun s => ?_⟩
    simp only [Code.step, hline, if_true]
    rw [unescaped (by simpa [hline] using hm)]
  · rw [Bool.not_eq_true] at hline
    by_cases hblock : m.state.inBlockComment = true
    · refine ⟨.comment, m.state, fun s => ?_⟩
      have same : m = { state := m.state } := by
        rw [← unescaped (by simpa [hblock] using hm), ← hline]
      simp [Code.step, hline, hblock, ← same]
    · cases hquote : m.state.quote with
      | none =>
        refine ⟨.code, m.state, fun s => ?_⟩
        have same : m = { state := m.state } := by
          rw [← unescaped (by simpa [hquote] using hm), ← hline]
        simp [Code.step, codeStep, hline, hblock, hquote, ← same]
      | some q =>
        cases hspans : q.spansLines with
        | false =>
          refine ⟨.code, { m.state with quote := none }, fun s => ?_⟩
          simp [Code.step, stringStep, Mode.closing, hline, hblock, hquote, hspans]
        | true =>
          -- the literal goes on, and an escape in front of the line feed is used up by it
          refine ⟨.string, m.state, fun s => ?_⟩
          obtain ⟨⟨quote, block⟩, line, escaped⟩ := m
          cases q <;> cases escaped <;>
            simp_all [Code.step, stringStep, Quote.spansLines, Quote.closer]

end Mode.EscapesInside

section Append

variable (lang : Language) (h : Hidden)

/-- A scan is taken apart in front of a character that goes on with no mark. -/
theorem scanFrom_append {u s : List Char} (hs : BeginsPlain s) (acc : List Seen) {skip : Nat}
    (m : Mode) (pos : Nat) (hskip : skip ≤ u.length) :
    scanFrom lang h acc skip m pos (u ++ s)
      = scanFrom lang h (scanFrom lang h acc skip m pos u).1 0
          (scanFrom lang h acc skip m pos u).2 (pos + byteLength u) s := by
  fun_induction scanFrom lang h acc skip m pos u with
  | case1 acc skip m pos =>
    obtain rfl : skip = 0 := by simpa using hskip
    rfl
  | case2 acc skip m pos c u ih =>
    rw [List.cons_append, scanFrom, ih (by simpa using hskip), byteLength_cons, Nat.add_assoc]
  | case3 acc m pos c u t acc' ih =>
    -- the last turns in the first text do not reach into the second
    have same : turn lang h m c (u ++ s) = turn lang h m c u := by
      rw [turn_eq, turn_eq, step_append_of_beginsPlain lang m c u hs]
    have short : t.extra ≤ u.length := by
      rw [extra_turn]
      exact extra_step_le ..
    rw [List.cons_append, scanFrom, same, byteLength_cons, ← Nat.add_assoc]
    exact ih short

/-- Steps are shown at the places where they stand, and nothing else depends on the places. -/
theorem scanFrom_shift (n : Nat) (acc : List Seen) (skip : Nat) (m : Mode) (pos : Nat)
    (s : List Char) :
    scanFrom lang h (acc.map (Seen.shift n)) skip m (pos + n) s
      = ((scanFrom lang h acc skip m pos s).1.map (Seen.shift n),
          (scanFrom lang h acc skip m pos s).2) := by
  fun_induction scanFrom lang h acc skip m pos s with
  | case1 => rfl
  | case2 acc skip m pos c s ih => rw [scanFrom, ← ih, Nat.add_right_comm]
  | case3 acc m pos c s t acc' ih =>
    rw [scanFrom, ← ih, Nat.add_right_comm]
    congr 1
    simp only [acc', t]
    split <;> rfl

theorem escapesInside_scanFrom {m : Mode} (hm : m.EscapesInside) (acc : List Seen) (skip : Nat)
    (pos : Nat) (s : List Char) : (scanFrom lang h acc skip m pos s).2.EscapesInside := by
  fun_induction scanFrom lang h acc skip m pos s with
  | case1 => exact hm
  | case2 acc skip m pos c s ih => exact ih hm
  | case3 acc m pos c s t acc' ih =>
    have behind : t.after.EscapesInside := by
      rw [after_turn]
      exact hm.step lang c s
    exact ih behind

/-- Behind a line feed a scan knows the state and nothing else. -/
theorem scanFrom_append_newline {m : Mode} (hm : m.EscapesInside) (u s : List Char) :
    scanFrom lang h [] 0 m 0 (u ++ '\n' :: s)
      = scanFrom lang h (scanFrom lang h [] 0 m 0 (u ++ ['\n'])).1 0
          { state := (scanFrom lang h [] 0 m 0 (u ++ ['\n'])).2.state }
          (byteLength (u ++ ['\n'])) s := by
  have plain (t : List Char) : BeginsPlain ('\n' :: t) := beginsPlain_cons (by decide) t
  obtain ⟨role, st, hstep⟩ :=
    (escapesInside_scanFrom lang h hm [] 0 0 u).step_newline lang
  rw [scanFrom_append lang h (plain s) [] m 0 (Nat.zero_le _),
    scanFrom_append lang h (plain []) [] m 0 (Nat.zero_le _)]
  simp [scanFrom, hstep]

end Append

/-- A scan goes on behind a line feed from the state alone: of two texts, the first of which ends a
line, it shows what it shows of the first, and then what it shows of the second from the state
behind the first. -/
theorem scan_append_of_newline (lang : Language) (h : Hidden) (st : ScanState) {a : List Char}
    (ha : a.getLast? = some '\n') (b : List Char) :
    (scan lang h st (a ++ b)).1
        = (scan lang h st a).1
          ++ (scan lang h (scan lang h st a).2 b).1.map (Seen.shift (byteLength a)) ∧
      (scan lang h st (a ++ b)).2 = (scan lang h (scan lang h st a).2 b).2 := by
  obtain ⟨u, rfl⟩ := List.getLast?_eq_some_iff.1 ha
  have start : Mode.EscapesInside { state := st } := fun escaped => nomatch escaped
  have resumed := scanFrom_append_newline lang h start u b
  rw [← List.singleton_append, ← List.append_assoc] at resumed
  simp only [scan, resumed]
  generalize scanFrom lang h [] 0 { state := st } 0 (u ++ ['\n']) = first
  constructor
  · have shifted := scanFrom_shift lang h (byteLength (u ++ ['\n'])) [] 0
      { state := first.2.state } 0 b
    rw [List.map_nil, Nat.zero_add] at shifted
    rw [scanFrom_acc, shifted, List.reverse_append, List.map_reverse]
  · rw [snd_scanFrom, snd_scanFrom]

/-- A template literal goes on behind a line feed that is escaped: of the two brackets the second
one is code. -/
theorem scan_append_of_newline_template :
    "`a\\\n".toList.getLast? = some '\n' ∧
      (scan .javaScript .allButCode {} ("`a\\\n".toList ++ "(` )".toList)).1
        = (scan .javaScript .allButCode {} "`a\\\n".toList).1
          ++ (scan .javaScript .allButCode
              (scan .javaScript .allButCode {} "`a\\\n".toList).2 "(` )".toList).1.map
            (Seen.shift 4) ∧
      (scan .javaScript .allButCode {} ("`a\\\n".toList ++ "(` )".toList)).2
        = (scan .javaScript .allButCode
            (scan .javaScript .allButCode {} "`a\\\n".toList).2 "(` )".toList).2 := by
  have ends : "`a\\\n".toList.getLast? = some '\n' := by decide
  exact ⟨ends, scan_append_of_newline .javaScript .allButCode {} ends "(` )".toList⟩

end RazorLayout.Code

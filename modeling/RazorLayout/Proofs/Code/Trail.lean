import RazorLayout.Proofs.Code.Lines

/-!
# The code of a text, piece by piece

A scan leaves out comments and literals. This file follows it over the pieces of a text: what a
piece adds to the code, blanks apart, and the mode behind it. Pieces can be taken apart in front of
every character that goes on with no mark, and in front of a line comment.

## Main definitions

* `Trail`: the code of a text without blanks, and the mode behind it
* `trail`: the trail of a text

## Main results

* `withoutBlanks_codeChars`: the trail has the code characters of the text
* `trail_append`: the trail of a text, taken apart
* `trail_blank_append`, `trail_append_blank`, `trail_trim`: blanks at both ends leave no trail
* `trail_of_lineComment`: the code in front of a line comment
* `trail_blockComment`: a block comment leaves no trail
-/

namespace RazorLayout.Code

open Text

/-- What a scan sees of a text: the code in it, without blanks, and the mode behind it. -/
@[ext] structure Trail where
  ink : List Char
  mode : Mode

/-- A trail and the one behind it, which begins in the mode that the first one ends in. -/
def Trail.andThen (t : Trail) (next : Mode → Trail) : Trail :=
  ⟨t.ink ++ (next t.mode).ink, (next t.mode).mode⟩

theorem Trail.andThen_assoc (t : Trail) (f g : Mode → Trail) :
    (t.andThen f).andThen g = t.andThen fun m => (f m).andThen g := by
  simp [andThen]

/-- The trail of one step at the character `c`. -/
def stepTrail (c : Char) (st : Step) : Trail :=
  ⟨if st.role = .code then withoutBlanks [c] else [], st.after⟩

/-- The trail of a text whose first `skip` characters belong to a step already taken. -/
def trailFrom (lang : Language) : (skip : Nat) → Mode → List Char → Trail
  | _, m, [] => ⟨[], m⟩
  | skip + 1, m, _ :: s => trailFrom lang skip m s
  | 0, m, c :: s =>
    (stepTrail c (step lang m c s)).andThen fun after =>
      trailFrom lang (step lang m c s).extra after s

/-- The trail of a text that is scanned from the mode `m` on. -/
def trail (lang : Language) (m : Mode) (s : List Char) : Trail := trailFrom lang 0 m s

section Trail

variable {lang : Language} {m : Mode}

/-- A step that takes one character. -/
theorem trail_cons {c : Char} {s : List Char} (h : (step lang m c s).extra = 0) :
    trail lang m (c :: s)
      = (stepTrail c (step lang m c s)).andThen fun after => trail lang after s := by
  rw [trail, trailFrom, h]
  rfl

theorem withoutBlanks_scanFrom (acc : List Seen) (skip : Nat) (m : Mode) (pos : Nat)
    (s : List Char) :
    withoutBlanks ((scanFrom lang .allButCode acc skip m pos s).1.reverse.map Seen.char)
      = withoutBlanks (acc.reverse.map Seen.char) ++ (trailFrom lang skip m s).ink := by
  fun_induction scanFrom lang .allButCode acc skip m pos s with
  | case1 => simp [trailFrom]
  | case2 _ _ _ _ _ _ ih => simpa [trailFrom] using ih
  | case3 acc m pos c s t acc' ih =>
    simp only [t, extra_turn, after_turn] at ih ⊢
    rw [ih, trailFrom, Trail.andThen, ← List.append_assoc]
    congr 1
    simp only [acc', t, stepTrail, yields_turn]
    cases (step lang m c s).role <;> simp [Hidden.hides, Hidden.allButCode]

/-- The trail has the code characters of the text. -/
theorem withoutBlanks_codeChars (lang : Language) (st : ScanState) (s : List Char) :
    withoutBlanks (codeChars lang st s).1 = (trail lang { state := st } s).ink :=
  withoutBlanks_scanFrom [] 0 { state := st } 0 s

theorem trailFrom_append {u s : List Char} (hs : BeginsPlain s) {skip : Nat}
    (hskip : skip ≤ u.length) :
    trailFrom lang skip m (u ++ s)
      = (trailFrom lang skip m u).andThen fun after => trail lang after s := by
  fun_induction trailFrom lang skip m u with
  | case1 skip m =>
    obtain rfl : skip = 0 := by simpa using hskip
    rfl
  | case2 skip m c u ih => exact ih (by simpa using hskip)
  | case3 m c u ih =>
    rw [List.cons_append, trailFrom, step_append_of_beginsPlain lang m c u hs, Trail.andThen_assoc]
    simp only [Trail.andThen, ih _ (extra_step_le ..)]

/-- A text is taken apart in front of a character that goes on with no mark. -/
theorem trail_append (m : Mode) (u : List Char) {s : List Char} (hs : BeginsPlain s) :
    trail lang m (u ++ s) = (trail lang m u).andThen fun after => trail lang after s :=
  trailFrom_append hs (Nat.zero_le _)

theorem proper_trailFrom (hm : m.Proper) (skip : Nat) (s : List Char) :
    (trailFrom lang skip m s).mode.Proper := by
  fun_induction trailFrom lang skip m s with
  | case1 => exact hm
  | case2 skip m c s ih => exact ih hm
  | case3 m c s ih => exact ih _ (hm.step c s)

theorem proper_trail (lang : Language) (hm : m.Proper) (s : List Char) :
    (trail lang m s).mode.Proper :=
  proper_trailFrom hm 0 s

/-! ### Blanks -/

/-- The mode behind a blank within a line, which takes an escape. -/
def Mode.afterBlank (m : Mode) : Mode := { m with escaped := false }

@[simp] theorem Mode.newline_afterBlank (m : Mode) : m.afterBlank.newline = m.newline := rfl

theorem Mode.Settled.afterBlank_eq (hm : m.Settled) : m.afterBlank = m := by
  rw [Mode.afterBlank, ← hm.no_escape]

theorem Mode.Proper.afterBlank (hm : m.Proper) : m.afterBlank.Proper where
  comment := hm.comment
  escape h := nomatch h

/-- A line feed that ends nothing is like any other blank. -/
theorem Mode.newline_eq_afterBlank (hline : m.inLineComment = false)
    (hspans : m.state.quote.all Quote.spansLines = true) : m.newline = m.afterBlank := by
  obtain ⟨⟨quote, block⟩, line, escaped⟩ := m
  cases quote with
  | none => simp_all [newline, afterBlank]
  | some q => simp_all [newline, afterBlank, Option.filter]

theorem stepTrail_of_isBlank {c : Char} (hc : isBlank c = true) (st : Step) :
    stepTrail c st = ⟨[], st.after⟩ := by
  have ink : withoutBlanks [c] = [] := withoutBlanks_of_allBlank (by simp [hc])
  simp [stepTrail, ink]

theorem trail_cons_of_isBlank {c : Char} (hc : isBlank c = true) {s : List Char} {after : Mode}
    (h : (step lang m c s).extra = 0 ∧ (step lang m c s).after = after) :
    trail lang m (c :: s) = trail lang after s := by
  rw [trail_cons h.1, stepTrail_of_isBlank hc, h.2]
  rfl

/-- At the beginning of a line blanks leave no trail. -/
theorem trail_blank_append (hm : m.Settled) {g : List Char} (hg : allBlank g = true)
    (s : List Char) : trail lang m (g ++ s) = trail lang m s := by
  induction g with
  | nil => rfl
  | cons c g ih =>
    simp only [allBlank_cons, Bool.and_eq_true] at hg
    have blank := trail_cons_of_isBlank hg.1 (hm.toProper.step_blank lang hg.1
      (fun _ => hm.no_comment) (fun _ => hm.spans) (g ++ s))
    rw [List.cons_append, blank, ← Mode.afterBlank, hm.afterBlank_eq]
    exact ih hg.2

theorem trail_cons_blank (hm : m.Proper) {c : Char} (hc : isBlank c = true) (hn : c ≠ '\n')
    (s : List Char) : trail lang m (c :: s) = trail lang m.afterBlank s :=
  trail_cons_of_isBlank hc
    (hm.step_blank lang hc (fun h => absurd h hn) (fun h => absurd h hn) s)

/-- Blanks within a line leave no trail but for an escape that they take. -/
theorem trail_of_blank (hm : m.Proper) {g : List Char} (hg : allBlank g = true) (hn : '\n' ∉ g) :
    (trail lang m g).ink = [] ∧ (trail lang m g).mode.afterBlank = m.afterBlank := by
  induction g generalizing m with
  | nil => exact ⟨rfl, rfl⟩
  | cons c g ih =>
    simp only [allBlank_cons, Bool.and_eq_true] at hg
    simp only [List.mem_cons, not_or] at hn
    rw [trail_cons_blank hm hg.1 (Ne.symm hn.1)]
    exact ih hm.afterBlank hg.2 hn.2

theorem trail_append_blank (lang : Language) (hm : m.Proper) (u : List Char) {g : List Char}
    (hg : allBlank g = true) (hn : '\n' ∉ g) :
    (trail lang m (u ++ g)).ink = (trail lang m u).ink ∧
      (trail lang m (u ++ g)).mode.afterBlank = (trail lang m u).mode.afterBlank := by
  cases g with
  | nil => simp
  | cons c g =>
    have plain := beginsPlain_cons_of_isBlank (allBlank_iff.1 hg c List.mem_cons_self) g
    obtain ⟨ink, mode⟩ := trail_of_blank (proper_trail lang hm u) hg hn
    rw [trail_append m u plain, Trail.andThen]
    exact ⟨by rw [ink, List.append_nil], mode⟩

/-- A line has the trail that it has when it is trimmed, but for an escape at its end. -/
theorem trail_trim (lang : Language) (hm : m.Settled) {l : List Char} (hl : '\n' ∉ l) :
    (trail lang m (trim l)).ink = (trail lang m l).ink ∧
      (trail lang m (trim l)).mode.afterBlank = (trail lang m l).mode.afterBlank := by
  obtain ⟨g, g', hg, hg', hparts⟩ := trim_parts l
  have hn : '\n' ∉ g' := fun h => hl (by rw [hparts]; simp [h])
  have whole : trail lang m l = trail lang m (trim l ++ g') := by
    conv_lhs => rw [hparts, List.append_assoc, trail_blank_append hm hg]
  obtain ⟨ink, mode⟩ := trail_append_blank lang hm.toProper (trim l) hg' hn
  rw [whole]
  exact ⟨ink.symm, mode.symm⟩

/-- A space behind a text, and what follows it. -/
theorem trail_append_space (hm : m.Proper) (u t : List Char) :
    trail lang m (u ++ ' ' :: t)
      = (trail lang m u).andThen fun after => trail lang after.afterBlank t := by
  rw [trail_append m u (beginsPlain_cons (by decide) t)]
  simp only [Trail.andThen]
  rw [trail_cons_blank (proper_trail lang hm u) (by decide) (by decide)]

theorem trail_newline (hm : m.Proper) (s : List Char) :
    trail lang m ('\n' :: s) = trail lang m.newline s :=
  trail_cons_of_isBlank (by decide) (hm.step_newline lang s)

/-! ### Comments -/

theorem trail_inLineComment (hm : m.inLineComment = true) {s : List Char} (hn : '\n' ∉ s) :
    trail lang m s = ⟨[], m⟩ := by
  induction s with
  | nil => rfl
  | cons c s ih =>
    simp only [List.mem_cons, not_or] at hn
    have comment : step lang m c s = { role := .comment, after := m } := by
      simp [step, hm, Ne.symm hn.1]
    rw [trail_cons (by rw [comment]), comment]
    exact ih hn.2

/-- A line comment begins with two slashes outside of literals and comments. -/
theorem eq_start_of_lineComment (hm : m.Proper) (hline : m.inLineComment = false) {c : Char}
    {s : List Char} (h : (step lang m c s).after.inLineComment = true) :
    m = {} ∧ c = '/' ∧ s.head? = some '/' ∧
      step lang m c s = { role := .comment, after := { inLineComment := true } } := by
  have literal (q : Quote) : (stringStep m q c s).after.inLineComment = false := by
    unfold stringStep Mode.closing
    repeat' split
    all_goals exact hline
  unfold step at h
  rw [if_neg (by simp [hline])] at h
  split at h
  · split at h <;> simp [hline] at h
  · rename_i hblock
    split at h
    · simp [literal] at h
    · rename_i hquote
      have start : m = {} := by
        obtain ⟨⟨quote, block⟩, line, escaped⟩ := m
        have := hm.unescaped hquote
        simp_all
      subst start
      unfold codeStep at h
      split at h
      · rename_i hmark
        simp only [Bool.and_eq_true, decide_eq_true_eq] at hmark
        obtain ⟨⟨rfl, hhead⟩, hcomments⟩ := hmark
        exact ⟨rfl, rfl, hhead, by simp [step, codeStep, hhead, hcomments]⟩
      · repeat' split at h
        all_goals simp [Mode.opening] at h

/-- A step in front of a slash that it does not take, and that begins no line comment with it. -/
theorem step_append_slash {c : Char} {u t : List Char}
    (hextra : (step lang m c (u ++ '/' :: t)).extra ≤ u.length)
    (hline : (step lang m c (u ++ '/' :: t)).after.inLineComment = false) :
    step lang m c u = step lang m c (u ++ '/' :: t) := by
  match u with
  | [] =>
    unfold step stringStep codeStep at *
    simp at *
    grind
  | [e] => simp [step, stringStep, codeStep]
  | e :: f :: u => simp [step, stringStep, codeStep]

theorem mode_of_lineCommentFrom_eq_none {n skip : Nat} {s : List Char}
    (hm : m.inLineComment = false) (h : lineCommentFrom lang n skip m s = none) :
    (trailFrom lang skip m s).mode.inLineComment = false := by
  induction s generalizing n skip m with
  | nil => cases skip <;> exact hm
  | cons c s ih =>
    cases skip with
    | succ skip => exact ih hm h
    | zero =>
      rw [lineCommentFrom_cons] at h
      cases hafter : (step lang m c s).after.inLineComment with
      | true =>
        rw [hafter, if_pos rfl] at h
        cases h
      | false =>
        rw [hafter, if_neg Bool.false_ne_true] at h
        exact ih hafter h

theorem inLineComment_trail {s : List Char} (hm : m.inLineComment = false)
    (h : lineCommentFrom lang 0 0 m s = none) : (trail lang m s).mode.inLineComment = false :=
  mode_of_lineCommentFrom_eq_none hm h

theorem trailFrom_of_lineCommentFrom {n skip k : Nat} {s : List Char} (hm : m.Proper)
    (hline : m.inLineComment = false) (hn : '\n' ∉ s)
    (h : lineCommentFrom lang n skip m s = some k) :
    ∃ u note, s = u ++ '/' :: '/' :: note ∧ k = n + u.length ∧ skip ≤ u.length ∧
      (trailFrom lang skip m u).mode = {} ∧
      (trailFrom lang skip m s).ink = (trailFrom lang skip m u).ink ∧
      (trailFrom lang skip m s).mode = { inLineComment := true } := by
  induction s generalizing n skip m with
  | nil => simp [lineCommentFrom] at h
  | cons c s ih =>
    have hs := List.not_mem_of_not_mem_cons hn
    cases skip with
    | succ skip =>
      obtain ⟨u, note, rfl, rfl, hskip, hfront, hink, hmode⟩ := ih hm hline hs h
      refine ⟨c :: u, note, rfl, ?_, by simpa using hskip, hfront, hink, hmode⟩
      rw [List.length_cons]
      omega
    | zero =>
      rw [lineCommentFrom_cons] at h
      cases hafter : (step lang m c s).after.inLineComment with
      | true =>
        rw [hafter, if_pos rfl, Option.some.injEq] at h
        obtain ⟨rfl, rfl, hhead, hstep⟩ := eq_start_of_lineComment hm hline hafter
        obtain ⟨note, rfl⟩ := List.head?_eq_some_iff.1 hhead
        have comment : trailFrom lang 0 {} ('/' :: '/' :: note)
            = ⟨[], { inLineComment := true }⟩ := by
          rw [trailFrom, hstep]
          exact trail_inLineComment rfl hs
        rw [comment]
        exact ⟨[], note, rfl, by simpa using h.symm, Nat.zero_le _, rfl, rfl, rfl⟩
      | false =>
        rw [hafter, if_neg Bool.false_ne_true] at h
        obtain ⟨u, note, rfl, rfl, hskip, hfront, hink, hmode⟩ := ih (hm.step c s) hafter hs h
        have same : step lang m c u = step lang m c (u ++ '/' :: '/' :: note) :=
          step_append_slash hskip hafter
        refine ⟨c :: u, note, rfl, by rw [List.length_cons]; omega, Nat.zero_le _, ?_⟩
        simp only [trailFrom, Trail.andThen, same]
        exact ⟨hfront, congrArg (_ ++ ·) hink, hmode⟩

/-- In front of a line comment a text can be taken apart as well: the scan is outside of literals
and comments there. -/
theorem trail_of_lineComment {k : Nat} {s : List Char} (hm : m.Proper)
    (hline : m.inLineComment = false) (hn : '\n' ∉ s)
    (h : lineCommentFrom lang 0 0 m s = some k) :
    ∃ u note, s = u ++ '/' :: '/' :: note ∧ k = u.length ∧ (trail lang m u).mode = {} ∧
      trail lang m s = ⟨(trail lang m u).ink, { inLineComment := true }⟩ := by
  obtain ⟨u, note, hs, hk, -, hfront, hink, hmode⟩ := trailFrom_of_lineCommentFrom hm hline hn h
  exact ⟨u, note, hs, by omega, hfront, Trail.ext hink hmode⟩

theorem trail_inBlockComment {w : List Char} (hw : ¬ "*/".toList <:+: w) (t : List Char) :
    trail lang { state := { inBlockComment := true } } (w ++ " */".toList ++ t)
      = trail lang {} t := by
  induction w with
  | nil => rfl
  | cons c w ih =>
    rw [List.infix_cons_iff, not_or] at hw
    have inside : step lang { state := { inBlockComment := true } } c (w ++ " */".toList ++ t)
        = { role := .comment, after := { state := { inBlockComment := true } } } := by
      -- the comment would end with a star in front of a slash
      have goes : ¬ (c = '*' ∧ (w ++ " */".toList ++ t).head? = some '/') := by
        rintro ⟨rfl, hhead⟩
        cases w with
        | nil => simp at hhead
        | cons d w =>
          obtain rfl : d = '/' := by simpa using hhead
          exact hw.1 ⟨w, rfl⟩
      simp only [step, Bool.false_eq_true, if_false, if_true, Bool.and_eq_true,
        decide_eq_true_eq, goes]
    rw [List.cons_append, List.cons_append, trail_cons (by rw [inside]), inside]
    exact ih hw.2

/-- A block comment leaves no trail. -/
theorem trail_blockComment {note : List Char} (h : ¬ "*/".toList <:+: note) (t : List Char) :
    trail lang {} ("/* ".toList ++ note ++ " */".toList ++ t) = trail lang {} t := by
  have spaced : ¬ "*/".toList <:+: ' ' :: note := by
    rw [List.infix_cons_iff, not_or]
    exact ⟨by simp, h⟩
  have opening : step lang {} '/' ('*' :: ((' ' :: note) ++ " */".toList ++ t))
      = { role := .comment, extra := 1, after := { state := { inBlockComment := true } } } := by
    simp [step, codeStep]
  change trailFrom lang 0 {} ('/' :: '*' :: ((' ' :: note) ++ " */".toList ++ t)) = _
  rw [trailFrom, opening]
  exact trail_inBlockComment spaced t

end Trail

end RazorLayout.Code

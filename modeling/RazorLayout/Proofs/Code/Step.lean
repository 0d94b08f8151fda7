import Mathlib.Tactic.Common
import RazorLayout.Code.Bracket

/-!
# What a filter passes over

A filter looks at its flags at every end of a turn, after it has changed its mode and taken the
characters of a mark. This file gives the same turn without flags: a step belongs to code, to a
comment or to a string. Whatever is hidden, a turn takes the characters of the step and goes on in
the mode behind it, and it yields unless the role of the step is hidden. The loops over a filter
are written out in steps, so that all that is proved about them is proved for every filter.

## Main definitions

* `Role`, `Step`: what the characters of a step belong to, and what a step does
* `step`: one step of a scan
* `Hidden.hides`: the roles that are passed over

## Main results

* `turn_eq`: the flags decide what a turn yields, and nothing else
* `scanFrom_cons`, `matchCodeFrom_cons`, `lineCommentFrom_cons`: the loops over a filter in steps
-/

namespace RazorLayout.Code

/-- What the characters of a step belong to. -/
inductive Role where
  | code
  | comment
  | string
  deriving Repr, DecidableEq

/-- One step of a scan: its role, how many characters it takes besides the first, and the mode
behind it. What is hidden plays no part. -/
structure Step where
  role : Role
  extra : Nat := 0
  after : Mode
  deriving Repr, DecidableEq

/-- Whether a step of this role is left out. -/
def Hidden.hides (h : Hidden) : Role → Bool
  | .code => false
  | .comment => h.comments
  | .string => h.strings

@[simp] theorem Hidden.hides_code (h : Hidden) : h.hides .code = false := rfl

/-- A step inside the literal `q`. A line feed ends a literal that cannot span lines, and the
line feed itself is code. -/
def stringStep (m : Mode) (q : Quote) (c : Char) (rest : List Char) : Step :=
  if c = '\n' && !q.spansLines then
    { role := .code, after := { m.closing with escaped := false } }
  else if q = .verbatim then
    if c = '"' then
      if rest.head? = some '"' then { role := .string, extra := 1, after := m }
      else { role := .string, after := m.closing }
    else { role := .string, after := m }
  else if m.escaped then { role := .string, after := { m with escaped := false } }
  else if c = '\\' then { role := .string, after := { m with escaped := true } }
  else if c = q.closer then { role := .string, after := m.closing }
  else { role := .string, after := m }

/-- A step outside comments and literals. -/
def codeStep (lang : Language) (m : Mode) (c : Char) (rest : List Char) : Step :=
  if c = '/' && rest.head? = some '/' && lang.hasLineComments then
    { role := .comment, after := { m with inLineComment := true } }
  else if c = '/' && rest.head? = some '*' then
    { role := .comment, extra := 1,
      after := { m with state := { m.state with inBlockComment := true } } }
  else if c = '"' then { role := .string, after := m.opening .double }
  else if c = '\'' then { role := .string, after := m.opening .single }
  else if c = '`' && lang = .javaScript then { role := .string, after := m.opening .backtick }
  else if c = '@' && lang = .csharp && rest.head? = some '"' then
    { role := .string, extra := 1, after := m.opening .verbatim }
  else if c = '$' && lang = .csharp && rest.take 2 = ['@', '"'] then
    { role := .string, extra := 2, after := m.opening .verbatim }
  else { role := .code, after := m }

/-- One step at the character `c`, in front of `rest`. -/
def step (lang : Language) (m : Mode) (c : Char) (rest : List Char) : Step :=
  if m.inLineComment then
    if c = '\n' then { role := .code, after := { m with inLineComment := false } }
    else { role := .comment, after := m }
  else if m.state.inBlockComment then
    if c = '*' && rest.head? = some '/' then
      { role := .comment, extra := 1,
        after := { m with state := { m.state with inBlockComment := false } } }
    else { role := .comment, after := m }
  else
    match m.state.quote with
    | some q => stringStep m q c rest
    | none => codeStep lang m c rest

/-! ### Turns -/

/-- The turn of a filter that takes the step. -/
def Step.turn (h : Hidden) (st : Step) : Turn where
  yields := !h.hides st.role
  extra := st.extra
  after := st.after

/-- An end of a turn that looks at the flag for comments. -/
theorem turn_comment (h : Hidden) (extra : Nat) (m : Mode) :
    (if h.comments then { yields := false, extra, after := m }
      else { yields := true, extra, after := m } : Turn)
      = { role := .comment, extra, after := m : Step }.turn h := by
  cases hcomments : h.comments <;> simp [Step.turn, Hidden.hides, hcomments]

/-- An end of a turn that looks at the flag for string literals. -/
theorem turn_string (h : Hidden) (extra : Nat) (m : Mode) :
    (if h.strings then { yields := false, extra, after := m }
      else { yields := true, extra, after := m } : Turn)
      = { role := .string, extra, after := m : Step }.turn h := by
  cases hstrings : h.strings <;> simp [Step.turn, Hidden.hides, hstrings]

/-- A step in the body of a literal. The line feeds that end literals are left to `stringStep`. -/
theorem stringStep_eq {m : Mode} {q : Quote} {c : Char}
    (hline : (c = '\n' && !q.spansLines) = false) (s : List Char) :
    stringStep m q c s = { role := .string, extra := (throughLiteral m q c s).2.1, after :=
      if (throughLiteral m q c s).1 then (throughLiteral m q c s).2.2.closing
      else (throughLiteral m q c s).2.2 } := by
  unfold stringStep throughLiteral
  rw [hline, if_neg Bool.false_ne_true]
  by_cases hverbatim : q = .verbatim
  · rw [if_pos hverbatim, if_pos hverbatim]
    by_cases hc : c = '"'
    · rw [if_pos hc, if_pos hc]
      split <;> rfl
    · rw [if_neg hc, if_neg hc]
      rfl
  · rw [if_neg hverbatim, if_neg hverbatim]
    cases m.escaped with
    | true => rfl
    | false =>
      rw [if_neg Bool.false_ne_true, if_neg Bool.false_ne_true]
      by_cases hc : c = '\\'
      · rw [if_pos hc, if_pos hc]
        rfl
      · rw [if_neg hc, if_neg hc]
        by_cases hcloser : c = q.closer <;> simp [hcloser]

/-- A step outside comments and literals that begins no comment. -/
theorem codeStep_eq {lang : Language} {c : Char} {s : List Char}
    (hline : (c = '/' && s.head? = some '/' && lang.hasLineComments) = false)
    (hblock : (c = '/' && s.head? = some '*') = false) (m : Mode) :
    codeStep lang m c s = match literalOpener? lang c s with
      | some (q, extra) => { role := .string, extra, after := m.opening q }
      | none => { role := .code, after := m } := by
  have interpolated : s.take 2 = ['@', '"'] ↔ s.head? = some '@' ∧ s.tail.head? = some '"' := by
    match s with
    | [] => simp
    | [d] => simp
    | d :: e :: s => simp
  unfold codeStep literalOpener?
  rw [hline, hblock, if_neg Bool.false_ne_true, if_neg Bool.false_ne_true]
  -- the openers are tried in the same order; only the last one is looked for in two steps
  split
  · rfl
  split
  · rfl
  split
  · rfl
  split
  · rfl
  cases hdollar : (c = '$' && lang = .csharp : Bool) with
  | false => simp
  | true =>
    by_cases hat : s.head? = some '@'
    · by_cases hquote : s.tail.head? = some '"'
      · simp [interpolated, hat, hquote]
      · simp only [interpolated, hat, hquote]
        rfl
    · simp [interpolated, hat]

/-- The flags of a filter decide what a turn yields. What it takes, and the mode behind it, do not
depend on them. -/
theorem turn_eq (lang : Language) (h : Hidden) (m : Mode) (c : Char) (s : List Char) :
    turn lang h m c s = (step lang m c s).turn h := by
  have code (m : Mode) : { yields := true, after := m : Turn }
      = { role := .code, after := m : Step }.turn h := rfl
  unfold turn step
  by_cases hline : m.inLineComment = true
  · rw [if_pos hline, if_pos hline]
    by_cases hc : c = '\n'
    · rw [if_pos hc, if_pos hc, code]
    · rw [if_neg hc, if_neg hc, turn_comment]
  rw [if_neg hline, if_neg hline]
  by_cases hblock : m.state.inBlockComment = true
  · -- the end of a block comment is looked for before the flag is
    rw [if_pos hblock, if_pos hblock]
    dsimp only
    rw [turn_comment]
    split <;> rfl
  rw [if_neg hblock, if_neg hblock]
  cases m.state.quote with
  | some q =>
    dsimp only
    cases hend : (c = '\n' && !q.spansLines : Bool) with
    | true => rw [if_pos rfl, code, stringStep, if_pos hend]
    | false => rw [if_neg Bool.false_ne_true, turn_string, stringStep_eq hend]
  | none =>
    dsimp only
    cases hslashes : (c = '/' && s.head? = some '/' && lang.hasLineComments : Bool) with
    | true => rw [if_pos rfl, turn_comment, codeStep, if_pos hslashes]
    | false =>
      rw [if_neg Bool.false_ne_true]
      cases hopens : (c = '/' && s.head? = some '*' : Bool) with
      | true =>
        rw [if_pos rfl, turn_comment, codeStep, if_neg (by simp [hslashes]), if_pos hopens]
      | false =>
        rw [if_neg Bool.false_ne_true, codeStep_eq hslashes hopens]
        cases literalOpener? lang c s with
        | none => rfl
        | some found => exact turn_string ..

@[simp] theorem yields_turn (lang : Language) (h : Hidden) (m : Mode) (c : Char) (s : List Char) :
    (turn lang h m c s).yields = !h.hides (step lang m c s).role := by
  rw [turn_eq]
  rfl

@[simp] theorem extra_turn (lang : Language) (h : Hidden) (m : Mode) (c : Char) (s : List Char) :
    (turn lang h m c s).extra = (step lang m c s).extra := by
  rw [turn_eq]
  rfl

@[simp] theorem after_turn (lang : Language) (h : Hidden) (m : Mode) (c : Char) (s : List Char) :
    (turn lang h m c s).after = (step lang m c s).after := by
  rw [turn_eq]
  rfl

/-- A filter that leaves only code yields at the steps that are code. -/
theorem yields_turn_iff {lang : Language} {m : Mode} {c : Char} {s : List Char} :
    (turn lang .allButCode m c s).yields = true ↔ (step lang m c s).role = .code := by
  rw [yields_turn]
  cases (step lang m c s).role <;> simp [Hidden.hides, Hidden.allButCode]

/-! ### Loops over a filter -/

theorem scanFrom_cons (lang : Language) (h : Hidden) (acc : List Seen) (m : Mode) (pos : Nat)
    (c : Char) (s : List Char) :
    scanFrom lang h acc 0 m pos (c :: s) = scanFrom lang h
      (if h.hides (step lang m c s).role then acc else ⟨pos, c, (step lang m c s).after⟩ :: acc)
      (step lang m c s).extra (step lang m c s).after (pos + c.utf8Size) s := by
  rw [scanFrom]
  cases hhides : h.hides (step lang m c s).role <;> simp [hhides]

theorem matchCodeFrom_cons (b : Bracket) (lang : Language) (n depth : Nat) (m : Mode) (c : Char)
    (s : List Char) :
    b.matchCodeFrom lang n depth 0 m (c :: s) = match (step lang m c s).role with
      | .code =>
        match b.count depth c with
        | .pending d => b.matchCodeFrom lang (n + 1) d (step lang m c s).extra
            (step lang m c s).after s
        | .closed => some n
        | .unopened => none
      | _ => b.matchCodeFrom lang (n + 1) depth (step lang m c s).extra (step lang m c s).after
          s := by
  rw [Bracket.matchCodeFrom]
  cases hrole : (step lang m c s).role with
  | code => cases b.count depth c <;> simp [hrole]
  | comment | string => simp [Hidden.hides, Hidden.allButCode, hrole]

theorem inLineComment_stringStep (m : Mode) (q : Quote) (c : Char) (s : List Char) :
    (stringStep m q c s).after.inLineComment = m.inLineComment := by
  unfold stringStep
  repeat' split
  all_goals rfl

/-- A step that leads into a line comment, or goes on in one, belongs to it. -/
theorem role_of_inLineComment {lang : Language} {m : Mode} {c : Char} {s : List Char}
    (h : (step lang m c s).after.inLineComment = true) : (step lang m c s).role = .comment := by
  unfold step at h ⊢
  by_cases hline : m.inLineComment = true
  · rw [if_pos hline] at h ⊢
    split at h
    · cases h
    · rw [if_neg ‹_›]
  rw [if_neg hline] at h ⊢
  by_cases hblock : m.state.inBlockComment = true
  · rw [if_pos hblock]
    split <;> rfl
  rw [if_neg hblock] at h ⊢
  cases hquote : m.state.quote with
  | some q =>
    simp only [hquote, inLineComment_stringStep] at h
    exact absurd h hline
  | none =>
    simp only [hquote] at h ⊢
    unfold codeStep at h ⊢
    split at h
    · rw [if_pos ‹_›]
    · repeat' split at h
      all_goals exact absurd h hline

/-- A filter that hides the literals still yields where it is in a line comment. -/
theorem inLineComment_turn (lang : Language) (m : Mode) (c : Char) (s : List Char) :
    ((turn lang ⟨false, true⟩ m c s).yields && (turn lang ⟨false, true⟩ m c s).after.inLineComment)
      = (step lang m c s).after.inLineComment := by
  cases hline : (step lang m c s).after.inLineComment with
  | false => simp [hline]
  | true => simp [hline, role_of_inLineComment hline, Hidden.hides]

theorem lineCommentFrom_cons (lang : Language) (n : Nat) (m : Mode) (c : Char) (s : List Char) :
    lineCommentFrom lang n 0 m (c :: s) =
      if (step lang m c s).after.inLineComment then some n
      else lineCommentFrom lang (n + 1) (step lang m c s).extra (step lang m c s).after s := by
  rw [lineCommentFrom, inLineComment_turn, extra_turn, after_turn]

end RazorLayout.Code

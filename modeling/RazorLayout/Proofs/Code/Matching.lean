import RazorLayout.Proofs.Code.Shown

/-!
# The closer that a search for a bracket finds

A search for the closer of a bracket counts openers and closers. Where it ends can be said without
the search: at the first closer up to which there are as many closers as openers, when no closer
before it has caught up with the openers. The two searches differ in the characters they count, all
of them or those that a scan shows as code, and so they are one search over characters and their
places. This settles what they find, when they agree, and that what stands behind the closer does
not matter.

## Main definitions

* `Bracket.FirstBalanced`: the first closer that balances the characters before it
* `codePlaces`: the code characters of a text with their places
* `Bracket.closerPlace?`: the place of the closer in a text in which the search begins at a place

## Main results

* `closerAmong_eq_some_iff`: what counting finds while delimiters are open
* `matchPlainFrom_eq_closerAmong`, `matchCodeFrom_eq_closerAmong`: the searches count
* `scanFrom_of_unquoted`: all of a text without quotes and comments is code
* `closerPlace?_firstBalanced`: what the searches find, when they agree, and what they depend on
-/

namespace RazorLayout.Code

open Text

/-- The code characters of a text that stands behind `pos` bytes, each with its place. -/
def codePlaces (pos : Nat) (s : List Char) : List (Nat × Char) :=
  ((scan .csharp .allButCode {} s).1.map Seen.place).map fun seen => (pos + seen.1, seen.2)

namespace Bracket

/-- The number of openers among some characters. -/
def openers (b : Bracket) (chars : List (Nat × Char)) : Nat := (chars.map Prod.snd).count b.opener

/-- The number of closers among some characters. -/
def closers (b : Bracket) (chars : List (Nat × Char)) : Nat := (chars.map Prod.snd).count b.closer

/-- At the place stands the first closer that balances: up to and including it there are as many
closers as openers, and up to and including any closer before it there are more openers. -/
def FirstBalanced (b : Bracket) (chars : List (Nat × Char)) (place : Nat) : Prop :=
  ∃ before behind, chars = before ++ (place, b.closer) :: behind ∧
    b.openers (before ++ [(place, b.closer)]) = b.closers (before ++ [(place, b.closer)]) ∧
    ∀ earlier between p, before = earlier ++ (p, b.closer) :: between →
      b.closers (earlier ++ [(p, b.closer)]) < b.openers (earlier ++ [(p, b.closer)])

/-- The place of the closer that a search finds when it begins at the place `start` of a text. There
is none when the place is inside of a character or behind the text. -/
def closerPlace? (find : List Char → Option Nat) (t : List Char) (start : Nat) : Option Nat :=
  (dropBytes? start t).bind fun s => (find s).map fun n => start + byteLength (s.take n)

/-! ### Counting along characters -/

/-- The place of the closer that closes the first of `depth` delimiters that are open. -/
def closerAmong (b : Bracket) : (depth : Nat) → List (Nat × Char) → Option Nat
  | _, [] => none
  | depth, (place, c) :: chars =>
    match b.count depth c with
    | .pending d => closerAmong b d chars
    | .closed => some place
    | .unopened => none

/-- `FirstBalanced` where `depth` delimiters are open already. -/
def FirstBalancedFrom (b : Bracket) (depth : Nat) (chars : List (Nat × Char)) (place : Nat) :
    Prop :=
  ∃ before behind, chars = before ++ (place, b.closer) :: behind ∧
    depth + b.openers before = b.closers before + 1 ∧
    ∀ earlier between p, before = earlier ++ (p, b.closer) :: between →
      b.closers earlier + 1 < depth + b.openers earlier

section Counting

variable {b : Bracket} (hb : b.opener ≠ b.closer)

theorem openers_cons (p : Nat × Char) (chars : List (Nat × Char)) :
    b.openers (p :: chars) = b.openers chars + if p.2 = b.opener then 1 else 0 := by
  simp [openers, List.count_cons]

theorem closers_cons (p : Nat × Char) (chars : List (Nat × Char)) :
    b.closers (p :: chars) = b.closers chars + if p.2 = b.closer then 1 else 0 := by
  simp [closers, List.count_cons]

include hb

theorem firstBalanced_iff {chars : List (Nat × Char)} {place : Nat} :
    b.FirstBalanced chars place ↔ b.FirstBalancedFrom 0 chars place := by
  have counts (before : List (Nat × Char)) (p : Nat) :
      b.openers (before ++ [(p, b.closer)]) = b.openers before ∧
        b.closers (before ++ [(p, b.closer)]) = b.closers before + 1 := by
    simp [openers, closers, List.count_append, hb.symm]
  simp only [FirstBalanced, FirstBalancedFrom, counts, Nat.zero_add]

/-- The first character is the closer, or it changes the number of open delimiters. -/
theorem firstBalancedFrom_cons_iff {depth p place : Nat} {c : Char} {chars : List (Nat × Char)} :
    b.FirstBalancedFrom depth ((p, c) :: chars) place ↔
      (c = b.closer ∧ depth = 1 ∧ p = place) ∨
        (c = b.closer → 1 < depth) ∧
          b.FirstBalancedFrom
            (depth + (if c = b.opener then 1 else 0) - if c = b.closer then 1 else 0)
            chars place := by
  constructor
  · rintro ⟨before, behind, hchars, hcount, hearlier⟩
    cases before with
    | nil =>
      obtain ⟨rfl, rfl⟩ : p = place ∧ c = b.closer := Prod.mk.inj (List.cons.inj hchars).1
      exact .inl ⟨rfl, by simpa [openers, closers] using hcount, rfl⟩
    | cons first before =>
      obtain ⟨rfl, rfl⟩ : (p, c) = first ∧ chars = before ++ (place, b.closer) :: behind :=
        List.cons.inj hchars
      have hfirst : c = b.closer → 1 < depth := by
        rintro rfl
        exact hearlier [] before p rfl
      refine .inr ⟨hfirst, before, behind, rfl, ?_, fun earlier between q hq => ?_⟩
      · rw [openers_cons, closers_cons] at hcount
        split at hcount <;> split at hcount <;> simp_all <;> omega
      · have := hearlier ((p, c) :: earlier) between q (by rw [hq]; rfl)
        rw [openers_cons, closers_cons] at this
        split at this <;> split at this <;> simp_all <;> omega
  · rintro (⟨rfl, rfl, rfl⟩ | ⟨hfirst, before, behind, rfl, hcount, hearlier⟩)
    · exact ⟨[], chars, rfl, rfl, fun earlier between q hq => by simp at hq⟩
    · refine ⟨(p, c) :: before, behind, rfl, ?_, fun earlier between q hq => ?_⟩
      · rw [openers_cons, closers_cons]
        split <;> split <;> simp_all <;> omega
      · cases earlier with
        | nil =>
          obtain rfl : c = b.closer := (Prod.mk.inj (List.cons.inj hq).1).2
          exact hfirst rfl
        | cons first earlier =>
          obtain ⟨rfl, hbefore⟩ : (p, c) = first ∧ before = earlier ++ (q, b.closer) :: between :=
            List.cons.inj hq
          have := hearlier earlier between q hbefore
          rw [openers_cons, closers_cons]
          split <;> split <;> simp_all <;> omega

/-- Counting finds the first closer that balances, with the delimiters that are open already. -/
theorem closerAmong_eq_some_iff {depth place : Nat} {chars : List (Nat × Char)} :
    b.closerAmong depth chars = some place ↔ b.FirstBalancedFrom depth chars place := by
  induction chars generalizing depth with
  | nil => simp [closerAmong, FirstBalancedFrom]
  | cons first chars ih =>
    obtain ⟨p, c⟩ := first
    rw [closerAmong, firstBalancedFrom_cons_iff hb]
    by_cases hopener : c = b.opener
    · have hcloser : c ≠ b.closer := hopener ▸ hb
      simp [count, hopener, hb, ih]
    · by_cases hcloser : c = b.closer
      · subst hcloser
        rcases depth with - | - | d
        · simp [count, hb.symm]
        · simp [count, hb.symm]
        · simp [count, hb.symm, ih]
      · simp [count, hopener, hcloser, ih]

end Counting

/-! ### The searches count -/

section Searches

variable {b : Bracket}

theorem matchPlainFrom_eq_map (n depth : Nat) (s : List Char) :
    matchPlainFrom b n depth s = (matchPlainFrom b 0 depth s).map (n + ·) := by
  induction s generalizing n depth with
  | nil => rfl
  | cons c s ih =>
    rw [matchPlainFrom, matchPlainFrom]
    split
    · rw [ih, ih (0 + 1), map_succ_add]
    · rfl
    · rfl

theorem matchCodeFrom_eq_map (lang : Language) (n depth skip : Nat) (m : Mode) (s : List Char) :
    matchCodeFrom b lang n depth skip m s
      = (matchCodeFrom b lang 0 depth skip m s).map (n + ·) := by
  induction s generalizing n depth skip m with
  | nil => simp [matchCodeFrom]
  | cons c s ih =>
    cases skip with
    | succ skip => rw [matchCodeFrom, matchCodeFrom, ih, ih (0 + 1), map_succ_add]
    | zero =>
      rw [matchCodeFrom, matchCodeFrom]
      split
      · split
        · rw [ih, ih (0 + 1), map_succ_add]
        · rfl
        · rfl
      · rw [ih, ih (0 + 1), map_succ_add]

/-- The place of what is found one character further on. -/
theorem place_succ (pos : Nat) (c : Char) (s : List Char) (found : Option Nat) :
    (found.map (0 + 1 + ·)).map (fun n => pos + byteLength ((c :: s).take n))
      = found.map fun n => pos + c.utf8Size + byteLength (s.take n) := by
  rw [Option.map_map]
  congr 1
  funext n
  simp [Nat.add_comm 1 n, Nat.add_assoc]

/-- Where every character counts, the search counts all characters. -/
theorem matchPlainFrom_eq_closerAmong (pos depth : Nat) (s : List Char) :
    (matchPlainFrom b 0 depth s).map (fun n => pos + byteLength (s.take n))
      = b.closerAmong depth (places pos s) := by
  induction s generalizing pos depth with
  | nil => rfl
  | cons c s ih =>
    rw [matchPlainFrom, places, closerAmong]
    cases b.count depth c with
    | pending d =>
      dsimp only
      rw [matchPlainFrom_eq_map, place_succ, ih]
    | closed => simp
    | unopened => rfl

/-- Where only code counts, the search counts what a scan shows as code. -/
theorem matchCodeFrom_eq_closerAmong (lang : Language) (pos depth skip : Nat) (m : Mode)
    (s : List Char) :
    (matchCodeFrom b lang 0 depth skip m s).map (fun n => pos + byteLength (s.take n))
      = b.closerAmong depth
          ((scanFrom lang .allButCode [] skip m pos s).1.reverse.map Seen.place) := by
  induction s generalizing pos depth skip m with
  | nil => simp [matchCodeFrom, scanFrom, closerAmong]
  | cons c s ih =>
    cases skip with
    | succ skip => rw [matchCodeFrom, matchCodeFrom_eq_map, place_succ, ih, scanFrom]
    | zero =>
      rw [matchCodeFrom_cons, scanFrom_cons, scanFrom_acc]
      generalize step lang m c s = st
      have later (d : Nat) : (matchCodeFrom b lang (0 + 1) d st.extra st.after s).map
            (fun n => pos + byteLength ((c :: s).take n))
          = b.closerAmong d ((scanFrom lang .allButCode [] st.extra st.after
              (pos + c.utf8Size) s).1.reverse.map Seen.place) := by
        rw [matchCodeFrom_eq_map, place_succ, ih]
      cases hrole : st.role with
      | code =>
        -- the step is shown, and its character is the next one that counts
        simp only [Hidden.hides, Bool.false_eq_true, if_false, List.reverse_append,
          List.reverse_cons, List.reverse_nil, List.nil_append, List.singleton_append,
          List.map_cons, Seen.place, closerAmong]
        cases b.count depth c with
        | pending d => exact later d
        | closed => simp
        | unopened => rfl
      | comment => simpa [Hidden.hides, Hidden.allButCode] using later depth
      | string => simpa [Hidden.hides, Hidden.allButCode] using later depth

end Searches

theorem codePlaces_eq (pos : Nat) (s : List Char) :
    codePlaces pos s
      = (scanFrom .csharp .allButCode [] 0 {} pos s).1.reverse.map Seen.place := by
  have shifted := scanFrom_shift .csharp .allButCode pos [] 0 {} 0 s
  rw [List.map_nil, Nat.zero_add] at shifted
  simp only [codePlaces, scan, shifted, List.map_map, ← List.map_reverse]
  congr 1
  funext seen
  simp [Seen.place, Seen.shift, Nat.add_comm]

/-- A text without quotes and without comments is code from its first character to its last. -/
theorem scanFrom_of_unquoted {s : List Char} (hdouble : '"' ∉ s) (hsingle : '\'' ∉ s)
    (hline : ¬ ['/', '/'] <:+: s) (hblock : ¬ ['/', '*'] <:+: s) (pos : Nat) :
    (scanFrom .csharp .allButCode [] 0 {} pos s).1.reverse.map Seen.place = places pos s := by
  induction s generalizing pos with
  | nil => rfl
  | cons c s ih =>
    have behind {mark : List Char} (h : mark <:+: s) : mark <:+: c :: s :=
      h.trans (List.suffix_cons c s).isInfix
    have comment {d : Char} (h : ¬ ['/', d] <:+: c :: s) : ¬ (c = '/' ∧ s.head? = some d) := by
      rintro ⟨rfl, hd⟩
      obtain ⟨s, rfl⟩ := List.head?_eq_some_iff.1 hd
      exact h (List.prefix_append ['/', d] s).isInfix
    -- none of the characters that follow is a quote, so that none of them opens a verbatim string
    have verbatim : s.head? ≠ some '"' ∧ s.take 2 ≠ ['@', '"'] := by
      constructor
      · intro h
        exact hdouble (List.mem_cons_of_mem c (List.mem_of_mem_head? h))
      · intro h
        have quote : '"' ∈ s.take 2 := by simp [h]
        exact hdouble (List.mem_cons_of_mem c (List.mem_of_mem_take quote))
    have code : step .csharp {} c s = { role := .code, after := {} } := by
      have hc : c ≠ '"' ∧ c ≠ '\'' := by
        constructor <;> rintro rfl <;> simp at hdouble hsingle
      simp [step, codeStep, comment hline, comment hblock, verbatim, hc]
    have rest := ih (fun h => hdouble (List.mem_cons_of_mem c h))
      (fun h => hsingle (List.mem_cons_of_mem c h)) (fun h => hline (behind h))
      (fun h => hblock (behind h)) (pos + c.utf8Size)
    simp [scanFrom_cons, code, scanFrom_acc [_], places, Seen.place, rest]

/-! ### Places in a text -/

section Places

variable {b : Bracket} {t s : List Char} {start place : Nat}

/-- Where every character counts, a match that lies in a beginning of the text is found in the
beginning alone. -/
theorem matchPlainFrom_of_append {n depth k : Nat} {s rest : List Char}
    (h : matchPlainFrom b n depth (s ++ rest) = some k) (hk : k < n + s.length) :
    matchPlainFrom b n depth s = some k := by
  induction s generalizing n depth with
  | nil =>
    obtain ⟨inner, behind, -, rfl⟩ := matchPlainFrom_eq_some h
    simp only [List.length_nil] at hk
    omega
  | cons c s ih =>
    rw [List.length_cons] at hk
    rw [List.cons_append, matchPlainFrom] at h
    rw [matchPlainFrom]
    split at h
    · exact ih h (by omega)
    · exact h
    · exact h

/-- What a search has found does not depend on what stands behind it. -/
def IsLocal (b : Bracket) (find : List Char → Option Nat) : Prop :=
  ∀ s n, find s = some n → ∃ inner rest, s = inner ++ b.closer :: rest ∧ n = inner.length ∧
    ∀ rest', find (inner ++ b.closer :: rest') = some n

theorem isLocal_matchPlain? : b.IsLocal b.matchPlain? := by
  intro s n hn
  obtain ⟨inner, rest, rfl, rfl⟩ := matchPlainFrom_eq_some hn
  refine ⟨inner, rest, rfl, by simp, fun rest' => ?_⟩
  rw [← List.singleton_append, ← List.append_assoc] at hn ⊢
  exact matchPlain?_append (matchPlainFrom_of_append hn (by simp)) rest'

theorem isLocal_matchCode? (hb : b.closer ∉ marks) : b.IsLocal b.matchCode? := by
  intro s n hn
  obtain ⟨inner, rest, rfl, rfl⟩ := matchCodeFrom_eq_some hn
  refine ⟨inner, rest, rfl, by simp, fun rest' => ?_⟩
  rw [← List.singleton_append, ← List.append_assoc] at hn ⊢
  exact matchCode?_append hb (matchCode?_of_append hb hn (by simp)) rest'

theorem closerPlace?_eq {find : List Char → Option Nat} (hs : dropBytes? start t = some s) :
    closerPlace? find t start = (find s).map fun n => start + byteLength (s.take n) := by
  rw [closerPlace?, hs, Option.bind_some]

/-- A closer that is found is found whatever stands behind it. -/
theorem IsLocal.closerPlace? {find : List Char → Option Nat} (hfind : b.IsLocal find)
    (h : Bracket.closerPlace? find t start = some place) :
    ∃ u rest, t = u ++ b.closer :: rest ∧ byteLength u = place ∧
      ∀ rest', Bracket.closerPlace? find (u ++ b.closer :: rest') start = some place := by
  obtain ⟨s, hs, hplace⟩ := Option.bind_eq_some_iff.1 h
  obtain ⟨n, hn, rfl⟩ := Option.map_eq_some_iff.1 hplace
  obtain ⟨inner, rest, rfl, rfl, hlocal⟩ := hfind s n hn
  obtain ⟨u, rfl, rfl⟩ := dropBytes?_eq_some_iff.1 hs
  refine ⟨u ++ inner, rest, by simp, by simp, fun rest' => ?_⟩
  have hs' : dropBytes? (byteLength u) (u ++ inner ++ b.closer :: rest')
      = some (inner ++ b.closer :: rest') :=
    dropBytes?_eq_some_iff.2 ⟨u, by simp, rfl⟩
  rw [closerPlace?_eq hs', hlocal rest']
  simp

theorem opener_ne_closer (hb : b ∈ [brace, paren, square]) :
    b.opener ≠ b.closer ∧ b.closer ∉ marks := by
  have all : ∀ b ∈ [brace, paren, square], b.opener ≠ b.closer ∧ b.closer ∉ marks := by decide
  exact all b hb

/-- What the searches for a closer find in a text behind a place. The closer is the first one that
balances, among the code characters or among all characters. Both searches find the same where there
are no quotes and no comments. What stands behind a closer that was found does not matter. -/
theorem closerPlace?_firstBalanced (hb : b ∈ [brace, paren, square])
    (hs : dropBytes? start t = some s) :
    (∀ place, closerPlace? b.matchCode? t start = some place
        ↔ b.FirstBalanced (codePlaces start s) place) ∧
      (∀ place, closerPlace? b.matchPlain? t start = some place
        ↔ b.FirstBalanced (places start s) place) ∧
      ('"' ∉ s → '\'' ∉ s → ¬ ['/', '/'] <:+: s → ¬ ['/', '*'] <:+: s →
        closerPlace? b.matchCode? t start = closerPlace? b.matchPlain? t start) ∧
      ∀ find ∈ [b.matchCode?, b.matchPlain?], ∀ place, closerPlace? find t start = some place →
        ∃ u rest, t = u ++ b.closer :: rest ∧ byteLength u = place ∧
          ∀ rest', closerPlace? find (u ++ b.closer :: rest') start = some place := by
  obtain ⟨hne, hmark⟩ := opener_ne_closer hb
  have code : closerPlace? b.matchCode? t start = b.closerAmong 0 (codePlaces start s) := by
    rw [closerPlace?_eq hs, codePlaces_eq]
    exact matchCodeFrom_eq_closerAmong ..
  have plain : closerPlace? b.matchPlain? t start = b.closerAmong 0 (places start s) := by
    rw [closerPlace?_eq hs]
    exact matchPlainFrom_eq_closerAmong ..
  refine ⟨fun place => ?_, fun place => ?_, fun hdouble hsingle hline hblock => ?_, ?_⟩
  · rw [code, closerAmong_eq_some_iff hne, firstBalanced_iff hne]
  · rw [plain, closerAmong_eq_some_iff hne, firstBalanced_iff hne]
  · rw [code, plain, codePlaces_eq, scanFrom_of_unquoted hdouble hsingle hline hblock]
  · simp only [List.forall_mem_cons]
    exact ⟨fun place => (isLocal_matchCode? hmark).closerPlace?,
      fun place => isLocal_matchPlain?.closerPlace?, by simp⟩

/-- A bracket in a literal is no code. Of two brackets behind it the first one balances. -/
theorem closerPlace?_firstBalanced_literal :
    let t := "é(s == \")\" && t))".toList
    (paren ∈ [brace, paren, square] ∧ dropBytes? 2 t = some (t.drop 1)) ∧
      paren.FirstBalanced (codePlaces 2 (t.drop 1)) 16 ∧
      paren.FirstBalanced (places 2 (t.drop 1)) 9 ∧
      ∃ u rest, t = u ++ paren.closer :: rest ∧ byteLength u = 16 ∧
        ∀ rest', closerPlace? paren.matchCode? (u ++ paren.closer :: rest') 2 = some 16 := by
  intro t
  have hb : paren ∈ [brace, paren, square] := by decide
  have hs : dropBytes? 2 t = some (t.drop 1) := dropBytes?_eq_some_iff.2 ⟨['é'], rfl, by decide⟩
  obtain ⟨code, plain, -, stays⟩ := closerPlace?_firstBalanced hb hs
  have hcode : closerPlace? paren.matchCode? t 2 = some 16 := by
    rw [closerPlace?_eq hs]
    decide +kernel
  have hplain : closerPlace? paren.matchPlain? t 2 = some 9 := by
    rw [closerPlace?_eq hs]
    decide +kernel
  exact ⟨⟨hb, hs⟩, (code 16).1 hcode, (plain 9).1 hplain, stays _ List.mem_cons_self _ hcode⟩

end Places

end Bracket

end RazorLayout.Code

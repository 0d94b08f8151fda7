import RazorLayout.Proofs.Code.Bracket
import RazorLayout.Proofs.Text.Reading
import RazorLayout.Proofs.Text.Words
import RazorLayout.Template.Control
import RazorLayout.Template.Directive

/-!
# What constructs are read from

The source of a directive falls into keyword and value, that of a block `@if (…) { … }` into its
opening, its condition and its body. This file gives the pieces of the source for everything that
these readers answer, and shows that header and body of a block can be told apart again.

## Main results

* `Directive.read?_eq_some`: the pieces of a directive
* `Opening.partsLength?_keyword`: keyword, blanks and delimiter of an opening
* `Opening.partsLength?_identifier_iff`: a name behind a word
* `readBlock?_eq_some`, `readBranch?_eq_some`: the pieces of a block and of an `else` branch
* `CodeBlock.controlParts?_control`: a header without line ends is found again
* `newline_not_mem_joinCondition`: a joined condition stands on one line
-/

namespace RazorLayout.Template

open Text Code

/-! ### Directives -/

namespace Directive

theorem isBlank_of_isSeparator {c : Char} (h : isSeparator c = true) : isBlank c = true := by
  rcases (by simpa [isSeparator] using h : c = ' ' ∨ c = '\t') with rfl | rfl <;> decide

/-- Separators, and behind them a value on the same line that is not blank. -/
structure Argument (gap raw : List Char) : Prop where
  separators : ∀ c ∈ gap, isSeparator c = true
  gap_ne_nil : gap ≠ []
  value_chars : ∀ c ∈ raw, isValueChar c = true
  ink : allBlank raw = false

/-- A directive is its keyword and an argument. -/
theorem exists_argument {keyword s : List Char} {d : Directive}
    (h : readWith? keyword s = some d) :
    ∃ gap raw rest, s = keyword ++ gap ++ raw ++ rest ∧ Argument gap raw ∧
      d = ⟨keyword, trim raw, ('@' :: keyword ++ gap ++ raw).length⟩ := by
  unfold readWith? at h
  split at h
  · rename_i hkeyword
    obtain ⟨rest, rfl⟩ := List.isPrefixOf_iff_prefix.1 hkeyword
    simp only [List.drop_left, drop_countWhile, Option.ite_none_left_eq_some, Option.some.injEq]
      at h
    obtain ⟨hvalue, rfl⟩ := h
    simp only [countWhile, List.length_eq_zero_iff, Bool.or_eq_true, decide_eq_true_eq,
      List.isEmpty_iff, not_or, trim_eq_nil_iff, Bool.not_eq_true] at hvalue
    refine ⟨rest.takeWhile isSeparator, (rest.dropWhile isSeparator).takeWhile isValueChar,
      (rest.dropWhile isSeparator).dropWhile isValueChar, ?_, ?_, ?_⟩
    · rw [List.append_assoc, List.takeWhile_append_dropWhile, List.append_assoc,
        List.takeWhile_append_dropWhile]
    · exact ⟨fun _ => List.mem_takeWhile_imp, hvalue.1, fun _ => List.mem_takeWhile_imp, hvalue.2⟩
    · simp only [mk.injEq, true_and, List.length_append, List.length_cons, countWhile]
      omega
  · simp at h

/-- Behind a keyword an argument makes a directive, whatever follows it. -/
theorem Argument.readWith?_ne_none {gap raw : List Char} (h : Argument gap raw)
    (keyword rest : List Char) : readWith? keyword (keyword ++ gap ++ raw ++ rest) ≠ none := by
  -- the separators end inside of the value, since that is not blank
  have separated : (gap ++ (raw ++ rest)).dropWhile isSeparator
      = raw.dropWhile isSeparator ++ rest := by
    rw [List.dropWhile_append_of_pos h.separators, List.dropWhile_append, if_neg]
    intro hnil
    have blank : allBlank raw = true := allBlank_iff.2 fun c hc =>
      isBlank_of_isSeparator (List.dropWhile_eq_nil_iff.1 (List.isEmpty_iff.1 hnil) c hc)
    simp [h.ink] at blank
  have chars : ∀ c ∈ raw.dropWhile isSeparator, isValueChar c = true :=
    fun c hc => h.value_chars c ((List.dropWhile_suffix _).subset hc)
  have ink : allBlank (raw.dropWhile isSeparator) = false := by
    have blank : allBlank (raw.takeWhile isSeparator) = true := allBlank_iff.2 fun c hc =>
      isBlank_of_isSeparator (List.mem_takeWhile_imp hc)
    have whole := h.ink
    rwa [← List.takeWhile_append_dropWhile (p := isSeparator) (l := raw), allBlank_append, blank,
      Bool.true_and] at whole
  have gap_pos : countWhile isSeparator (gap ++ (raw ++ rest)) ≠ 0 := by
    obtain ⟨c, gap, rfl⟩ := List.exists_cons_of_ne_nil h.gap_ne_nil
    simp [countWhile, h.separators c List.mem_cons_self]
  have here : keyword <+: keyword ++ (gap ++ (raw ++ rest)) := List.prefix_append ..
  rw [List.append_assoc, List.append_assoc, readWith?, if_pos (List.isPrefixOf_iff_prefix.2 here),
    List.drop_left]
  simp only [drop_countWhile, separated, List.takeWhile_append_of_pos chars]
  simp [gap_pos, trim_eq_nil_iff, ink]

theorem readWith?_eq_some {keyword s : List Char} {d : Directive}
    (h : readWith? keyword s = some d) :
    ∃ gap raw rest, s = keyword ++ gap ++ raw ++ rest ∧ allBlank gap = true ∧ gap ≠ [] ∧
      d = ⟨keyword, trim raw, ('@' :: keyword ++ gap ++ raw).length⟩ := by
  obtain ⟨gap, raw, rest, hs, harg, hd⟩ := exists_argument h
  have blank : allBlank gap = true :=
    allBlank_iff.2 fun c hc => isBlank_of_isSeparator (harg.separators c hc)
  exact ⟨gap, raw, rest, hs, blank, harg.gap_ne_nil, hd⟩

/-- The pieces of a directive: its keyword, blanks, and its value with blanks at the ends. -/
theorem read?_eq_some {s : List Char} {d : Directive} (h : read? ('@' :: s) = some d) :
    ∃ keyword ∈ keywords, ∃ gap raw rest, s = keyword ++ gap ++ raw ++ rest ∧
      allBlank gap = true ∧ gap ≠ [] ∧
      d = ⟨keyword, trim raw, ('@' :: keyword ++ gap ++ raw).length⟩ := by
  obtain ⟨keyword, hkeyword, hd⟩ := List.exists_of_findSome?_eq_some h
  exact ⟨keyword, hkeyword, readWith?_eq_some hd⟩

/-- A directive is never taken for a code section. -/
theorem isSection_code {d : Directive} (h : d.keyword ∈ keywords) (span : Span) :
    CodeBlock.isSection ⟨.directive, d.code, span⟩ = false := by
  -- code sections begin with a `c`, and no directive does
  have first : ∀ keyword ∈ keywords, keyword ≠ [] ∧ keyword.head? ≠ some 'c' := by decide
  obtain ⟨hne, hc⟩ := first d.keyword h
  obtain ⟨c, rest, hkeyword⟩ := List.exists_cons_of_ne_nil hne
  have hc : ('c' == c) = false := by
    rw [beq_eq_false_iff_ne]
    rintro rfl
    simp [hkeyword] at hc
  simp [CodeBlock.isSection, CodeBlock.sectionWord, code, hkeyword, List.isPrefixOf, hc]

end Directive

/-! ### Openings -/

namespace Opening

theorem partsLength?_cons {part : OpeningPart} {parts : List OpeningPart} {s : List Char} {n : Nat}
    (h : partsLength? (part :: parts) s = some n) :
    ∃ k m, part.length? s = some k ∧ partsLength? parts (s.drop k) = some m ∧ n = k + m := by
  simp only [partsLength?, Option.bind_eq_bind, Option.bind_eq_some_iff, Option.pure_def,
    Option.some.injEq] at h
  obtain ⟨k, hk, m, hm, rfl⟩ := h
  exact ⟨k, m, hk, hm, rfl⟩

theorem partsLength?_word {w : List Char} {parts : List OpeningPart} {s : List Char} {n : Nat}
    (h : partsLength? (.word w :: parts) s = some n) :
    ∃ rest m, s = w ++ rest ∧ partsLength? parts rest = some m ∧ n = w.length + m := by
  obtain ⟨k, m, hk, hm, rfl⟩ := partsLength?_cons h
  simp only [OpeningPart.length?, Option.ite_none_right_eq_some, Option.some.injEq] at hk
  obtain ⟨hw, rfl⟩ := hk
  obtain ⟨rest, rfl⟩ := List.isPrefixOf_iff_prefix.1 hw
  rw [List.drop_left] at hm
  exact ⟨rest, m, rfl, hm, rfl⟩

theorem partsLength?_blanks {parts : List OpeningPart} {s : List Char} {n : Nat}
    (h : partsLength? (.blanks :: parts) s = some n) :
    ∃ gap rest m, s = gap ++ rest ∧ allBlank gap = true ∧ partsLength? parts rest = some m ∧
      n = gap.length + m := by
  obtain ⟨k, m, hk, hm, rfl⟩ := partsLength?_cons h
  obtain rfl : countWhile isBlank s = k := by simpa [OpeningPart.length?] using hk
  rw [drop_countWhile] at hm
  exact ⟨s.takeWhile isBlank, s.dropWhile isBlank, m, List.takeWhile_append_dropWhile.symm,
    allBlank_takeWhile s, hm, rfl⟩

theorem partsLength?_someBlanks {parts : List OpeningPart} {s : List Char} {n : Nat}
    (h : partsLength? (.someBlanks :: parts) s = some n) :
    partsLength? (.blanks :: parts) s = some n := by
  obtain ⟨k, m, hk, hm, rfl⟩ := partsLength?_cons h
  have hk : OpeningPart.blanks.length? s = some k := by
    simp only [OpeningPart.length?] at hk ⊢
    split at hk
    · simp at hk
    · exact hk
  simp [partsLength?, hk, hm]

/-- An opening of a keyword, blanks and one delimiter. -/
theorem partsLength?_keyword {w : List Char} {c : Char} {s : List Char} {n : Nat}
    (h : partsLength? [.word w, .blanks, .word [c]] s = some n) :
    ∃ gap rest, s = w ++ gap ++ c :: rest ∧ allBlank gap = true ∧
      n = (w ++ gap).length + 1 := by
  obtain ⟨rest₁, m₁, rfl, h₁, rfl⟩ := partsLength?_word h
  obtain ⟨gap, rest₂, m₂, rfl, hgap, h₂, rfl⟩ := partsLength?_blanks h₁
  obtain ⟨rest₃, m₃, rfl, h₃, rfl⟩ := partsLength?_word h₂
  obtain rfl : 0 = m₃ := by simpa [partsLength?] using h₃
  exact ⟨gap, rest₃, by simp, hgap, by simp; omega⟩

/-- A keyword, blanks and a delimiter make an opening, whatever follows it. -/
theorem partsLength?_of_keyword (w : List Char) {gap : List Char} (hgap : allBlank gap = true)
    {c : Char} (hc : isBlank c = false) (rest : List Char) :
    partsLength? [.word w, .blanks, .word [c]] (w ++ gap ++ c :: rest)
      = some ((w ++ gap).length + 1) := by
  have count : countWhile isBlank (gap ++ c :: rest) = gap.length :=
    countWhile_append_of_all (allBlank_iff.1 hgap) fun d hd => by
      obtain rfl : c = d := by simpa using hd
      exact hc
  have word : w.isPrefixOf (w ++ (gap ++ c :: rest)) = true :=
    List.isPrefixOf_iff_prefix.2 (List.prefix_append _ _)
  rw [List.append_assoc]
  simp only [partsLength?, OpeningPart.length?, word, if_true, Option.bind_eq_bind,
    Option.bind_some, List.drop_left, count]
  simp [List.isPrefixOf]
  omega

/-- A name behind a word reaches as far as the characters of names do. -/
theorem partsLength?_identifier_iff {w s : List Char} {n : Nat} :
    partsLength? [.word w, .identifier] s = some n ↔
      ∃ c rest, s = w ++ c :: rest ∧ isIdentifierStart c = true ∧
        n = w.length + (countWhile isIdentifierRest rest + 1) := by
  constructor
  · intro h
    obtain ⟨s, m, rfl, hm, rfl⟩ := partsLength?_word h
    obtain ⟨k, m', hk, hm', rfl⟩ := partsLength?_cons hm
    obtain rfl : 0 = m' := by simpa [partsLength?] using hm'
    cases s with
    | nil => simp [OpeningPart.length?] at hk
    | cons c rest =>
      simp only [OpeningPart.length?, Option.ite_none_right_eq_some, Option.some.injEq] at hk
      obtain ⟨hc, rfl⟩ := hk
      exact ⟨c, rest, rfl, hc, by rw [Nat.add_zero, Nat.add_comm 1]⟩
  · rintro ⟨c, rest, rfl, hc, rfl⟩
    have word : w.isPrefixOf (w ++ c :: rest) = true :=
      List.isPrefixOf_iff_prefix.2 (List.prefix_append _ _)
    simp [partsLength?, OpeningPart.length?, word, hc, Nat.add_comm 1]

/-- The opening `else if (`. -/
theorem elseIfBlock_length? {s : List Char} {n : Nat} (h : elseIfBlock.length? s = some n) :
    ∃ gap₁ gap₂ rest, s = "else".toList ++ gap₁ ++ "if".toList ++ gap₂ ++ '(' :: rest ∧
      allBlank gap₁ = true ∧ allBlank gap₂ = true ∧
      n = ("else".toList ++ gap₁ ++ "if".toList ++ gap₂).length + 1 := by
  obtain ⟨rest₁, m₁, rfl, h₁, rfl⟩ := partsLength?_word h
  obtain ⟨gap₁, rest₂, m₂, rfl, hgap₁, h₂, rfl⟩ := partsLength?_blanks (partsLength?_someBlanks h₁)
  obtain ⟨gap₂, rest, rfl, hgap₂, rfl⟩ := partsLength?_keyword h₂
  exact ⟨gap₁, gap₂, rest, by simp, hgap₁, hgap₂, by simp; omega⟩

end Opening

/-! ### Conditions and bodies -/

theorem readCondition?_eq_some {s condition : List Char} {n : Nat}
    (h : readCondition? ('(' :: s) = some (condition, n)) :
    ∃ inner rest, s = inner ++ ')' :: rest ∧ condition = joinCondition inner ∧
      n = inner.length + 2 := by
  simp only [readCondition?, Option.map_eq_some_iff, Prod.mk.injEq] at h
  obtain ⟨k, hk, rfl, rfl⟩ := h
  obtain ⟨inner, rest, rfl, rfl⟩ := Bracket.paren_matchCode?_eq_some hk
  exact ⟨inner, rest, rfl, by simp, rfl⟩

theorem readBraces?_eq_some {s body : List Char} {n : Nat}
    (h : readBraces? ('{' :: s) = some (body, n)) :
    ∃ rest, s = body ++ '}' :: rest ∧ n = body.length + 2 := by
  simp only [readBraces?, Option.map_eq_some_iff, Prod.mk.injEq] at h
  obtain ⟨k, hk, rfl, rfl⟩ := h
  obtain ⟨inner, rest, rfl, rfl⟩ := Bracket.brace_matchPlain?_eq_some hk
  exact ⟨rest, by simp, by simp⟩

theorem readBody?_eq_some {s body : List Char} {n : Nat} (h : readBody? s = some (body, n)) :
    ∃ gap rest, s = gap ++ '{' :: body ++ '}' :: rest ∧ allBlank gap = true ∧
      n = (gap ++ '{' :: body ++ ['}']).length := by
  have parts := (List.takeWhile_append_dropWhile (p := isBlank) (l := s)).symm
  simp only [readBody?, drop_countWhile] at h
  split at h
  · rename_i rest hrest
    simp only [Option.map_eq_some_iff, Prod.mk.injEq] at h
    obtain ⟨⟨body', m⟩, hm, rfl, rfl⟩ := h
    obtain ⟨rest, rfl, rfl⟩ := readBraces?_eq_some hm
    refine ⟨s.takeWhile isBlank, rest, ?_, allBlank_takeWhile s, ?_⟩
    · rw [hrest] at parts
      simpa using parts
    · simp [countWhile]
  · simp at h

/-- Behind blanks a body is read from its brace on. -/
theorem readBody?_brace {gap : List Char} (hgap : allBlank gap = true) (s : List Char) :
    readBody? (gap ++ '{' :: s)
      = (readBraces? ('{' :: s)).map fun (body, n) => (body, gap.length + n) := by
  have count : countWhile isBlank (gap ++ '{' :: s) = gap.length :=
    countWhile_append_of_all (allBlank_iff.1 hgap) fun c hc => by
      obtain rfl : '{' = c := by simpa using hc
      decide
  simp only [readBody?, count, List.drop_left]

/-- The node of a block, and the pieces of its source: the opening up to the parenthesis, the
condition and the body. -/
theorem readBlock?_eq_some {kind : CodeKind} {word opening s : List Char} {pos length : Nat}
    {node : Node}
    (h : readBlock? kind word pos (opening.length + 1) (opening ++ '(' :: s)
      = some (node, length)) :
    ∃ condition gap body rest span,
      opening ++ '(' :: s
        = opening ++ '(' :: condition ++ ')' :: gap ++ '{' :: body ++ ['}'] ++ rest ∧
      allBlank gap = true ∧
      node = .code (.control kind (word ++ " (".toList ++ joinCondition condition ++ [')']) body
        span) ∧
      length = (opening ++ '(' :: condition ++ ')' :: gap ++ '{' :: body ++ ['}']).length := by
  simp only [readBlock?, Option.bind_eq_bind, Option.bind_eq_some_iff, Option.pure_def,
    Option.some.injEq, Prod.mk.injEq, Nat.add_sub_cancel, List.drop_left, Prod.exists] at h
  obtain ⟨joined, n, hcondition, body, m, hbody, rfl, rfl⟩ := h
  obtain ⟨condition, rest, rfl, rfl, rfl⟩ := readCondition?_eq_some hcondition
  -- the body is looked for behind the closing parenthesis
  have behind : (opening ++ '(' :: (condition ++ ')' :: rest)).drop
      (opening.length + (condition.length + 2)) = rest := by
    rw [show opening ++ '(' :: (condition ++ ')' :: rest)
      = (opening ++ '(' :: condition ++ [')']) ++ rest by simp]
    exact List.drop_left' (by simp)
  rw [behind] at hbody
  obtain ⟨gap, rest, rfl, hgap, rfl⟩ := readBody?_eq_some hbody
  exact ⟨condition, gap, body, rest, _, by simp, hgap, rfl, by simp; omega⟩

/-- The node of an `else` branch, and the pieces of its source. -/
theorem readBranch?_eq_some {pos length : Nat} {s : List Char} {node : Node} {more : Bool}
    (h : readBranch? pos s = some (node, length, more)) :
    (∃ gap₁ gap₂ condition gap₃ body rest span,
      s = "else".toList ++ gap₁ ++ "if".toList ++ gap₂ ++ '(' :: condition ++ ')' :: gap₃
        ++ '{' :: body ++ ['}'] ++ rest ∧
      allBlank gap₁ = true ∧ allBlank gap₂ = true ∧ allBlank gap₃ = true ∧
      node = .code (.control .elseIfBlock
        ("else if".toList ++ " (".toList ++ joinCondition condition ++ [')']) body span) ∧
      length = ("else".toList ++ gap₁ ++ "if".toList ++ gap₂ ++ '(' :: condition ++ ')' :: gap₃
        ++ '{' :: body ++ ['}']).length) ∨
    (∃ gap body rest span,
      s = "else".toList ++ gap ++ '{' :: body ++ ['}'] ++ rest ∧ allBlank gap = true ∧
      node = .code (.control .elseBlock "else".toList body span) ∧
      length = ("else".toList ++ gap ++ '{' :: body ++ ['}']).length) := by
  unfold readBranch? at h
  split at h
  · -- `else if` is a block of two words
    rename_i n hn
    obtain ⟨gap₁, gap₂, rest, rfl, hgap₁, hgap₂, rfl⟩ := Opening.elseIfBlock_length? hn
    simp only [Option.map_eq_some_iff, Prod.mk.injEq, Prod.exists] at h
    obtain ⟨node', length', hblock, rfl, rfl, -⟩ := h
    obtain ⟨condition, gap₃, body, rest, span, hs, hgap₃, rfl, rfl⟩ := readBlock?_eq_some hblock
    exact .inl ⟨gap₁, gap₂, condition, gap₃, body, rest, span, hs, hgap₁, hgap₂, hgap₃, rfl, rfl⟩
  · split at h
    · -- `else` has no condition, only braces
      rename_i n hn
      obtain ⟨gap, rest, rfl, hgap, rfl⟩ := Opening.partsLength?_keyword hn
      simp only [Option.map_eq_some_iff, Prod.mk.injEq, Prod.exists, Nat.add_sub_cancel,
        List.drop_left] at h
      obtain ⟨body, n, hbody, rfl, rfl, -⟩ := h
      obtain ⟨rest, rfl, rfl⟩ := readBraces?_eq_some hbody
      exact .inr ⟨gap, body, rest, _, by simp, hgap, rfl, by simp; omega⟩
    · simp at h

/-! ### Header and body -/

theorem newline_not_mem_conditionLine {line : List Char} (h : '\n' ∉ line) :
    '\n' ∉ conditionLine line := by
  unfold conditionLine
  split
  · exact fun hmem => h (mem_of_mem_trim hmem)
  · rename_i n _
    have code : '\n' ∉ trim (line.take n) :=
      fun hmem => h (List.mem_of_mem_take (mem_of_mem_trim hmem))
    have note : '\n' ∉ trim (line.drop (n + 2)) :=
      fun hmem => h (List.mem_of_mem_drop (mem_of_mem_trim hmem))
    dsimp only
    split
    · exact code
    · intro hmem
      have := (List.dropWhile_suffix isBlank).subset hmem
      simp_all

/-- A joined condition stands on one line. -/
theorem newline_not_mem_joinCondition (condition : List Char) :
    '\n' ∉ joinCondition condition := by
  refine not_mem_joinWith (by decide) fun l hl => ?_
  obtain ⟨line, hline, rfl⟩ := List.mem_map.1 (List.mem_filter.1 hl).1
  exact newline_not_mem_conditionLine (newline_not_mem_of_mem_lines hline)

end RazorLayout.Template

namespace RazorLayout.CodeBlock

open Text

/-- Header and body of a block are told apart by the first line end behind the header. -/
theorem controlParts?_control {kind : CodeKind} (hkind : kind.isControl = true)
    {header : List Char} (hheader : '\n' ∉ header) (body : List Char) (span : Span) :
    (control kind header body span).controlParts? = some (header, body) := by
  have found : find? bodyOpening (header ++ bodyOpening ++ body ++ bodyClosing)
      = some header.length := by
    rw [List.append_assoc, List.append_assoc]
    exact find?_append hheader ['{', '\n'] (body ++ bodyClosing)
  have rest : (header ++ bodyOpening ++ body ++ bodyClosing).drop
      (header.length + bodyOpening.length) = body ++ bodyClosing := by
    rw [List.append_assoc (header ++ bodyOpening)]
    exact List.drop_left' (by rw [List.length_append])
  have closed : bodyClosing.isSuffixOf (body ++ bodyClosing) = true :=
    List.isSuffixOf_iff_suffix.2 (List.suffix_append ..)
  simp only [controlParts?, control, hkind, if_true, found, rest, closed, List.length_append,
    Nat.add_sub_cancel, List.take_left]
  rw [List.append_assoc, List.append_assoc, List.take_left]

end RazorLayout.CodeBlock

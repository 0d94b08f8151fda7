import RazorLayout.Proofs.Template.Content

/-!
# Code that is read back

An expression such as `@item.Name(0)` ends where nothing goes on with it, so the characters behind
it decide how far it reaches. The reader looks no further than that: an expression that is read as
a whole when it stands alone is read again in front of every text that does not go on with it.

The names of directives and blocks are reserved. An expression may have the name of a directive,
when no value follows on its line, and is taken for the directive once something is put behind it.

## Main definitions

* `endsExpression`: an expression ends in front of this text
* `IsExpression`: an expression that does not begin with a reserved word
* `IsDirective`: a directive as it is written
* `IsLine`: a directive or a comment that takes one line

## Main results

* `advance_expressionTail_append`: how far an expression reaches
* `IsExpression.readRazor?_eq`: an expression is read back
* `IsDirective.readRazor?_eq`: a directive is read back
* `IsLine.readRazor?_eq`: code that takes a line is read back
-/

namespace RazorLayout.Template

open Text Code

/-! ### Words -/

theorem takeWhile_append_of_head {p : Char → Bool} (s : List Char) {t : List Char}
    (ht : ∀ c, t.head? = some c → p c = false) : (s ++ t).takeWhile p = s.takeWhile p := by
  induction s with
  | nil =>
    cases t with
    | nil => rfl
    | cons c t => simp [ht c rfl]
  | cons c s ih => cases hc : p c <;> simp [hc, ih]

theorem isIdentifierRest_of_isBlank {c : Char} (h : isBlank c = true) :
    isIdentifierRest c = false :=
  eq_false_of_isBlank isIdentifierRest (by decide +kernel) h

/-- The identifier at the head of a text. -/
def leadingWord (s : List Char) : List Char := s.takeWhile isIdentifierRest

/-- The words that begin directives, blocks and code sections. -/
def reservedWords : List (List Char) :=
  Directive.keywords ++ ["if".toList, "foreach".toList, "code".toList]

theorem isIdentifierRest_of_mem_reservedWords {w : List Char} (hw : w ∈ reservedWords) :
    ∀ c ∈ w, isIdentifierRest c = true := by
  have all : reservedWords.all (·.all isIdentifierRest) = true := by decide +kernel
  exact List.all_eq_true.1 (List.all_eq_true.1 all w hw)

/-! ### Where an expression ends -/

/-- Nothing in the text goes on with an expression in front of it. -/
def endsExpression : List Char → Bool
  | [] => true
  | c :: s =>
    !isIdentifierRest c && c != '(' && c != '[' && !(c == '.' && s.head?.any isIdentifierStart)

theorem endsExpression_nil : endsExpression [] = true := rfl

theorem endsExpression_head {s : List Char} (h : endsExpression s = true) (c : Char)
    (hc : s.head? = some c) : isIdentifierRest c = false := by
  obtain ⟨s, rfl⟩ := List.head?_eq_some_iff.1 hc
  simp_all [endsExpression]

theorem endsExpression_of_isBlank {c : Char} (hc : isBlank c = true) (s : List Char) :
    endsExpression (c :: s) = true := by
  have inked (d : Char) (hd : isBlank d = false) : c ≠ d := by
    rintro rfl
    simp [hc] at hd
  have hdot := inked '.' (by decide)
  have hparen := inked '(' (by decide)
  have hsquare := inked '[' (by decide)
  simp [endsExpression, isIdentifierRest_of_isBlank hc, hdot, hparen, hsquare]

theorem expressionTail_eq_none {s : List Char} (h : endsExpression s = true) (n : Nat) :
    expressionTail n s = none := by
  rw [Option.eq_none_iff_forall_ne_some]
  rintro ⟨length', k⟩ hstep
  obtain ⟨-, hmember | ⟨b, rest, j, hb, rfl, -⟩⟩ := expressionTail_eq_some_iff.1 hstep
  · -- behind a dot an identifier would have to begin
    obtain ⟨c, rest, rfl, hc, -⟩ := Opening.partsLength?_identifier_iff.1 hmember
    simp [endsExpression, hc] at h
  · rcases hb with rfl | rfl <;> simp [endsExpression, Bracket.paren, Bracket.square] at h

/-! ### How far an expression reaches -/

/-- A name is the same in front of a text that does not go on with it. -/
theorem partsLength?_identifier_append {w s rest : List Char} {n : Nat}
    (h : Opening.partsLength? [.word w, .identifier] s = some n)
    (hrest : endsExpression rest = true) :
    Opening.partsLength? [.word w, .identifier] (s ++ rest) = some n ∧
      n ≤ s.length ∧ w.length < n := by
  obtain ⟨c, name, rfl, hc, rfl⟩ := Opening.partsLength?_identifier_iff.1 h
  have same : countWhile isIdentifierRest (name ++ rest) = countWhile isIdentifierRest name := by
    rw [countWhile, takeWhile_append_of_head name (endsExpression_head hrest), ← countWhile]
  have short := countWhile_le_length isIdentifierRest name
  refine ⟨Opening.partsLength?_identifier_iff.2 ⟨c, name ++ rest, ?_, hc, by rw [same]⟩, ?_, ?_⟩
  · rw [List.append_assoc, List.cons_append]
  · rw [List.length_append, List.length_cons]
    omega
  · omega

/-- One step on from an expression is the same in front of a text that does not go on with it. -/
theorem expressionTail_append {length length' n : Nat} {s rest : List Char}
    (h : expressionTail length s = some (length', n)) (hrest : endsExpression rest = true) :
    expressionTail length (s ++ rest) = some (length', n) := by
  obtain ⟨rfl, hmember | ⟨b, inside, k, hb, rfl, hk, rfl⟩⟩ := expressionTail_eq_some_iff.1 h
  · have happ := (partsLength?_identifier_append hmember hrest).1
    exact expressionTail_eq_some_iff.2 ⟨rfl, .inl happ⟩
  · -- arguments or an index: the match is found without looking behind it
    have hcloser : b.closer ∉ marks := by rcases hb with rfl | rfl <;> decide
    have happ := Bracket.matchCode?_append hcloser hk rest
    exact expressionTail_eq_some_iff.2 ⟨rfl, .inr ⟨b, inside ++ rest, k, hb, rfl, happ, rfl⟩⟩

/-- An expression that reaches to the end of a text reaches no further. -/
theorem advance_expressionTail_append {length total : Nat} {s rest : List Char}
    (h : advance expressionTail 0 length s = (total, [])) (hrest : endsExpression rest = true) :
    advance expressionTail 0 length (s ++ rest) = (total, rest) := by
  induction hn : s.length using Nat.strong_induction_on generalizing length s with
  | _ n ih =>
    by_cases hs : s = []
    · -- nothing is left of the expression, and nothing goes on with it
      subst hs
      obtain ⟨rfl, -⟩ : length = total ∧ True := by simpa [advance] using h
      exact advance_of_none (expressionTail_eq_none hrest length)
    · cases hstep : expressionTail length s with
      | none =>
        rw [advance_of_none hstep] at h
        exact absurd (Prod.mk.inj h).2 hs
      | some next =>
        obtain ⟨length', k⟩ := next
        have happ := expressionTail_append hstep hrest
        obtain ⟨-, hpos, hle⟩ := expressionTail_bounds hstep
        rw [advance_of_step hstep hpos hs] at h
        rw [advance_of_step happ hpos (by simp [hs]), List.drop_append_of_le_length hle]
        refine ih (s.drop k).length ?_ h rfl
        have := List.length_pos_of_ne_nil hs
        rw [List.length_drop]
        omega

/-! ### Expressions -/

theorem codeNode_append (kind : CodeKind) (code rest : List Char) (pos : Nat) :
    codeNode kind ((('@' :: (code ++ rest)).take (code.length + 1)).drop 1) pos
        (code.length + 1) ('@' :: (code ++ rest))
      = .code ⟨kind, code, ⟨pos, pos + byteLength ('@' :: code)⟩⟩ := by
  simp [codeNode]

/-- The length of the expression at the head of a text. -/
def expressionLength? (s : List Char) : Option Nat :=
  (match s with
    | '@' :: '(' :: _ => readParenthesised? 0 s
    | _ => readExpression? 0 s).map Prod.snd

/-- An expression on one line that can be told from everything around it. -/
structure IsExpression (code : List Char) : Prop where
  whole : expressionLength? ('@' :: code) = some (code.length + 1)
  not_reserved : leadingWord code ∉ reservedWords
  ink : EndsWithInk code
  one_line : '\n' ∉ code
  no_markup : '<' ∉ code
  no_mark : '@' ∉ code

namespace IsExpression

variable {code : List Char} (h : IsExpression code)

include h

/-- An expression begins with a parenthesis or a name. -/
theorem eq_cons : ∃ c s, code = c :: s ∧ (c = '(' ∨ isIdentifierStart c = true) := by
  have whole := h.whole
  cases code with
  | nil => simp [expressionLength?, readExpression?, Opening.length?, Opening.parts,
      Opening.partsLength?, OpeningPart.length?] at whole
  | cons c s =>
    refine ⟨c, s, rfl, ?_⟩
    by_contra hc
    rw [not_or, Bool.not_eq_true] at hc
    simp [expressionLength?, readExpression?, Opening.length?, Opening.parts,
      Opening.partsLength?, OpeningPart.length?, hc] at whole

theorem readParenthesised?_eq (pos : Nat) (hparen : code.head? = some '(') (rest : List Char) :
    readParenthesised? pos ('@' :: (code ++ rest))
      = some ([.code ⟨.expression, code, ⟨pos, pos + byteLength ('@' :: code)⟩⟩],
          code.length + 1) := by
  obtain ⟨s, rfl⟩ := List.head?_eq_some_iff.1 hparen
  have whole := h.whole
  simp only [expressionLength?, readParenthesised?, List.drop_one, List.tail_cons,
    Option.map_map, Option.map_eq_some_iff, Function.comp_apply] at whole
  obtain ⟨n, hn, hlength⟩ := whole
  have found := Bracket.matchCode?_append (b := .paren) (by decide) hn rest
  rw [readParenthesised?, List.drop_one, List.tail_cons, found, Option.map_some, hlength]
  dsimp only
  rw [codeNode_append]

variable {rest : List Char} (hrest : endsExpression rest = true)

include hrest

/-- No reserved word begins where an expression begins. -/
theorem append_ne {w t : List Char} (hw : w ∈ reservedWords)
    (ht : ∀ c, t.head? = some c → isIdentifierRest c = false) : code ++ rest ≠ w ++ t := by
  intro heq
  have word : leadingWord code = w :=
    calc
      leadingWord code = leadingWord (code ++ rest) :=
        (takeWhile_append_of_head code (endsExpression_head hrest)).symm
      _ = leadingWord (w ++ t) := by rw [heq]
      _ = w := takeWhile_append_of_all (isIdentifierRest_of_mem_reservedWords hw) ht
  exact h.not_reserved (word ▸ hw)

/-- No block and no code section begins where an expression begins. -/
theorem keyword_length?_eq_none {w : List Char} (hw : w ∈ reservedWords) {c : Char}
    (hc : isIdentifierRest c = false) :
    Opening.partsLength? [.word ('@' :: w), .blanks, .word [c]] ('@' :: (code ++ rest)) = none := by
  rw [Option.eq_none_iff_forall_ne_some]
  intro n hn
  obtain ⟨gap, behind, heq, hgap, -⟩ := Opening.partsLength?_keyword hn
  have heq : code ++ rest = w ++ (gap ++ c :: behind) := by simpa using heq
  -- the word would be followed by a blank or by the delimiter
  refine h.append_ne hrest hw (fun d hd => ?_) heq
  cases gap with
  | nil =>
    obtain rfl : c = d := by simpa using hd
    exact hc
  | cons b gap =>
    obtain rfl : b = d := by simpa using hd
    exact isIdentifierRest_of_isBlank (allBlank_iff.1 hgap b List.mem_cons_self)

theorem readDirective?_eq_none (pos : Nat) :
    readDirective? pos ('@' :: (code ++ rest)) = none := by
  have none : Directive.read? ('@' :: (code ++ rest)) = none := by
    rw [Option.eq_none_iff_forall_ne_some]
    intro d hd
    obtain ⟨keyword, hkeyword, gap, raw, behind, heq, hgap, hne, -⟩ := Directive.read?_eq_some hd
    obtain ⟨b, gap, rfl⟩ := List.exists_cons_of_ne_nil hne
    have heq : code ++ rest = keyword ++ (b :: gap ++ raw ++ behind) := by simpa using heq
    refine h.append_ne hrest (List.mem_append_left _ hkeyword) (fun d hd => ?_) heq
    obtain rfl : b = d := by simpa using hd
    exact isIdentifierRest_of_isBlank (allBlank_iff.1 hgap b List.mem_cons_self)
  simp [readDirective?, none]

theorem readExpression?_eq (pos : Nat) (hparen : code.head? ≠ some '(') :
    readExpression? pos ('@' :: (code ++ rest))
      = some ([.code ⟨.expression, code, ⟨pos, pos + byteLength ('@' :: code)⟩⟩],
          code.length + 1) := by
  have whole : (readExpression? 0 ('@' :: code)).map Prod.snd = some (code.length + 1) := by
    obtain ⟨c, s, rfl, -⟩ := h.eq_cons
    have hc : c ≠ '(' := by simpa using hparen
    simpa [expressionLength?, hc] using h.whole
  simp only [readExpression?, Option.map_map, Option.map_eq_some_iff, Function.comp_apply] at whole
  obtain ⟨n, hn, hlength⟩ := whole
  obtain ⟨happ, hle, -⟩ := partsLength?_identifier_append hn hrest
  have happ : Opening.expression.length? ('@' :: (code ++ rest)) = some n := happ
  -- everything behind the name is read, so that nothing of the expression is left
  have left : (advance expressionTail 0 n (('@' :: code).drop n)).2 = [] := by
    have invariant : ∀ length s, length + s.length = code.length + 1 →
        (advance expressionTail 0 length s).1 + (advance expressionTail 0 length s).2.length
          = code.length + 1 := by
      intro length s hs
      refine advance_invariant (I := fun length s => length + s.length = code.length + 1) ?_
        length s hs
      intro length s length' k _ hs hstep
      obtain ⟨rfl, hpos, hk⟩ := expressionTail_bounds hstep
      rw [List.length_drop]
      exact ⟨hpos, by omega⟩
    have total := invariant n (('@' :: code).drop n) (by
      rw [List.length_drop]
      simp only [List.length_cons] at hle ⊢
      omega)
    exact List.eq_nil_of_length_eq_zero (by omega)
  have reach := advance_expressionTail_append (Prod.ext hlength left) hrest
  rw [← List.drop_append_of_le_length hle, List.cons_append] at reach
  rw [readExpression?, happ, Option.map_some, reach]
  dsimp only
  rw [codeNode_append]

/-- An expression is read back in front of every text that does not go on with it. -/
theorem readRazor?_eq (pos : Nat) {previous : Option Char} {afterExpression : Bool}
    (hready : (!afterExpression && previous.any isLetterOrDigit) = false) :
    readRazor? pos previous afterExpression ('@' :: (code ++ rest))
      = some ([.code ⟨.expression, code, ⟨pos, pos + byteLength ('@' :: code)⟩⟩],
          code.length + 1) := by
  have noDirective := h.readDirective?_eq_none hrest pos
  have noIf : Opening.ifBlock.length? ('@' :: (code ++ rest)) = none :=
    h.keyword_length?_eq_none hrest (w := "if".toList) (by decide) (by decide)
  have noForeach : Opening.foreachBlock.length? ('@' :: (code ++ rest)) = none :=
    h.keyword_length?_eq_none hrest (w := "foreach".toList) (by decide) (by decide)
  have parenthesised := fun hparen => h.readParenthesised?_eq pos hparen rest
  have named := h.readExpression?_eq hrest pos
  obtain ⟨c, s, rfl, hc⟩ := h.eq_cons
  have other (d : Char) (hd : d ≠ '(' ∧ isIdentifierStart d = false) : c ≠ d := by
    rintro rfl
    simp [hd] at hc
  have noBlock : Opening.inlineBlock.length? ('@' :: (c :: s ++ rest)) = none := by
    have := other '{' (by decide)
    simp [Opening.length?, Opening.parts, Opening.partsLength?, OpeningPart.length?, this.symm]
  -- all readers that are tried before expressions decline
  rw [List.cons_append, readRazor?_eq_of_ne (by simpa using other '@' (by decide))
    (by simpa using other '*' (by decide)), if_neg (by simp [hready]), ← List.cons_append,
    noDirective, readIfChain?, noIf, readForeach?, noForeach, readInlineBlock?, noBlock,
    readOutput?_eq]
  split
  · rename_i hparen
    exact parenthesised hparen
  · rename_i hparen
    exact named hparen

end IsExpression

/-! ### Directives and comments -/

/-- A directive as it is written: one space in front of a value without blanks at its ends. -/
structure IsDirective (keyword value : List Char) : Prop where
  keyword_mem : keyword ∈ Directive.keywords
  value_ne_nil : value ≠ []
  value_trim : trim value = value
  value_chars : ∀ c ∈ value, Directive.isValueChar c = true

theorem isBlank_head_of_trim {c : Char} {s : List Char} (h : trim (c :: s) = c :: s) :
    isBlank c = false := by
  have start := trimStart_trim (c :: s)
  rw [h, trimStart] at start
  by_contra hc
  rw [Bool.not_eq_false] at hc
  rw [List.dropWhile_cons_of_pos hc] at start
  have := (List.dropWhile_suffix isBlank (l := s)).length_le
  rw [start, List.length_cons] at this
  omega

theorem IsDirective.readWith?_eq {keyword value : List Char} (h : IsDirective keyword value)
    {rest : List Char} (hrest : rest.head?.all (· == '\n') = true) :
    Directive.readWith? keyword (keyword ++ ' ' :: value ++ rest)
      = some ⟨keyword, value, (keyword ++ ' ' :: value).length + 1⟩ := by
  obtain ⟨c, v, rfl⟩ := List.exists_cons_of_ne_nil h.value_ne_nil
  have hc : Directive.isSeparator c = false := by
    rw [Bool.eq_false_iff]
    intro hsep
    simpa [isBlank_head_of_trim h.value_trim] using Directive.isBlank_of_isSeparator hsep
  -- one space is all that separates the value from the keyword
  have gap : countWhile Directive.isSeparator (' ' :: (c :: v ++ rest)) = 1 := by
    refine countWhile_append_of_all (s := [' ']) (fun d hd => ?_) fun d hd => ?_
    · rw [List.mem_singleton.1 hd]
      rfl
    · obtain rfl : c = d := by simpa using hd
      exact hc
  -- the value reaches to the end of the line
  have raw : (c :: v ++ rest).takeWhile Directive.isValueChar = c :: v := by
    refine takeWhile_append_of_all h.value_chars fun d hd => ?_
    obtain rfl : d = '\n' := by simpa [hd] using hrest
    decide
  have here : keyword <+: keyword ++ (' ' :: (c :: v ++ rest)) := List.prefix_append ..
  rw [List.append_assoc, List.cons_append, Directive.readWith?,
    if_pos (List.isPrefixOf_iff_prefix.2 here), List.drop_left]
  dsimp only
  rw [gap, List.drop_succ_cons, List.drop_zero, raw, h.value_trim, if_neg (by simp)]
  congr 2
  simp only [List.length_append, List.length_cons]
  omega

theorem IsDirective.read?_eq {keyword value : List Char} (h : IsDirective keyword value)
    {rest : List Char} (hrest : rest.head?.all (· == '\n') = true) :
    Directive.read? ('@' :: (keyword ++ ' ' :: value ++ rest))
      = some ⟨keyword, value, (keyword ++ ' ' :: value).length + 1⟩ := by
  have reserved : keyword ∈ reservedWords := List.mem_append_left _ h.keyword_mem
  have word : leadingWord (keyword ++ ' ' :: value ++ rest) = keyword := by
    rw [List.append_assoc]
    refine takeWhile_append_of_all (isIdentifierRest_of_mem_reservedWords reserved) fun c hc => ?_
    obtain rfl : ' ' = c := by simpa using hc
    decide
  have found := h.readWith?_eq hrest
  cases hread : Directive.read? ('@' :: (keyword ++ ' ' :: value ++ rest)) with
  | none =>
    rw [Directive.read?, List.findSome?_eq_none_iff] at hread
    rw [hread keyword h.keyword_mem] at found
    simp at found
  | some d =>
    obtain ⟨keyword', hkeyword', hd⟩ := List.exists_of_findSome?_eq_some hread
    -- the word that a directive begins with is its keyword
    have same : keyword' = keyword := by
      obtain ⟨gap, raw, behind, heq, hgap, hne, -⟩ := Directive.readWith?_eq_some hd
      obtain ⟨b, gap, rfl⟩ := List.exists_cons_of_ne_nil hne
      have reserved' : keyword' ∈ reservedWords := List.mem_append_left _ hkeyword'
      rw [← word, heq, List.append_assoc, List.append_assoc]
      refine (takeWhile_append_of_all (isIdentifierRest_of_mem_reservedWords reserved')
        fun c hc => ?_).symm
      obtain rfl : b = c := by simpa using hc
      exact isIdentifierRest_of_isBlank (allBlank_iff.1 hgap b List.mem_cons_self)
    rw [← hd, same, found]

theorem isDirective_of_read? {s : List Char} {d : Directive}
    (h : Directive.read? ('@' :: s) = some d) : IsDirective d.keyword d.value := by
  obtain ⟨keyword, hkeyword, hd⟩ := List.exists_of_findSome?_eq_some h
  obtain ⟨gap, raw, rest, -, harg, rfl⟩ := Directive.exists_argument hd
  refine ⟨hkeyword, ?_, trim_trim raw, fun c hc => harg.value_chars c (mem_of_mem_trim hc)⟩
  rw [Ne, trim_eq_nil_iff, harg.ink]
  exact Bool.false_ne_true

/-- A directive is read back from its line. -/
theorem IsDirective.readRazor?_eq {keyword value : List Char} (h : IsDirective keyword value)
    {rest : List Char} (hrest : rest.head?.all (· == '\n') = true) (pos : Nat)
    {previous : Option Char} {afterExpression : Bool}
    (hready : (!afterExpression && previous.any isLetterOrDigit) = false) :
    readRazor? pos previous afterExpression ('@' :: (keyword ++ ' ' :: value ++ rest))
      = some ([.code ⟨.directive, keyword ++ ' ' :: value,
            ⟨pos, pos + byteLength ('@' :: (keyword ++ ' ' :: value))⟩⟩],
          (keyword ++ ' ' :: value).length + 1) := by
  have read := h.read?_eq hrest
  have letter : keyword.head?.any isIdentifierStart = true := by
    have all : Directive.keywords.all (·.head?.any isIdentifierStart) = true := by decide
    exact List.all_eq_true.1 all keyword h.keyword_mem
  obtain ⟨c, w, rfl⟩ : ∃ c w, keyword = c :: w := by
    cases keyword with
    | nil => simp at letter
    | cons c w => exact ⟨c, w, rfl⟩
  have other (d : Char) (hd : isIdentifierStart d = false) : c ≠ d := by
    rintro rfl
    simp [hd] at letter
  -- a directive keeps its code, since the value has no blanks at its ends
  have taken : ('@' :: (c :: w ++ ' ' :: value ++ rest)).take
      ((c :: w ++ ' ' :: value).length + 1) = '@' :: (c :: w ++ ' ' :: value) := by
    rw [List.take_succ_cons, List.take_left]
  rw [readRazor?_eq_of_ne (by simpa using other '@' (by decide))
    (by simpa using other '*' (by decide)), if_neg (by simp [hready]), readDirective?, read,
    Option.map_some, codeNode, taken]
  simp [Directive.code]

/-- Code that takes a line of its own and can be told from everything around it: a directive, or a
comment. -/
inductive IsLine : CodeBlock → Prop
  | directive {keyword value : List Char} {span : Span} (h : IsDirective keyword value)
    (hmarkup : '<' ∉ value) (hmark : '@' ∉ value) :
    IsLine ⟨.directive, keyword ++ ' ' :: value, span⟩
  | comment {note : List Char} {span : Span} (hline : '\n' ∉ note) (hmarkup : '<' ∉ note)
    (hmark : '@' ∉ note) : IsLine ⟨.statement, '*' :: (note ++ ['*', '@']), span⟩

theorem IsLine.kind_ne {block : CodeBlock} (h : IsLine block) : block.kind ≠ .expression := by
  cases h <;> simp

theorem IsLine.no_markup {block : CodeBlock} (h : IsLine block) : '<' ∉ block.code := by
  cases h with
  | @directive keyword value span h hmarkup hmark =>
    have keywords : Directive.keywords.all (!·.contains '<') = true := by decide
    have hkeyword := List.all_eq_true.1 keywords keyword h.keyword_mem
    simp_all
  | comment hline hmarkup hmark => simp [hmarkup]

theorem readTemplateComment?_of_find? {note rest : List Char}
    (found : find? "*@".toList (note ++ ('*' :: '@' :: rest)) = some note.length) (pos : Nat) :
    readTemplateComment? pos ('@' :: ('*' :: (note ++ ['*', '@']) ++ rest))
      = some ([.code ⟨.statement, '*' :: (note ++ ['*', '@']),
            ⟨pos, pos + byteLength ('@' :: '*' :: (note ++ ['*', '@']))⟩⟩],
          ('*' :: (note ++ ['*', '@'])).length + 1) := by
  have length : note.length + 4 = ('*' :: (note ++ ['*', '@'])).length + 1 := by
    simp
  rw [readTemplateComment?, ← codeNode_append .statement ('*' :: (note ++ ['*', '@'])) rest pos]
  rw [show ('@' :: ('*' :: (note ++ ['*', '@']) ++ rest)).drop 2 = note ++ '*' :: '@' :: rest by
    simp, found, Option.map_some, length]

theorem find?_commentEnd {note : List Char} (hmark : '@' ∉ note) (rest : List Char) :
    find? "*@".toList (note ++ ('*' :: '@' :: rest)) = some note.length := by
  rw [find?, search, searchFrom_append 0 (a := ())]
  · simp
  · intro u v huv hv
    -- a star in the note is not in front of the mark
    obtain ⟨c, v, rfl⟩ := List.exists_cons_of_ne_nil hv
    cases v with
    | nil => simp
    | cons d v =>
      have hd : '@' ≠ d := by
        rintro rfl
        exact hmark (by simp [huv])
      simp [hd]
  · rfl

/-- Code that takes a line is read back from it. -/
theorem IsLine.readRazor?_eq {block : CodeBlock} (h : IsLine block) {rest : List Char}
    (hrest : rest.head?.all (· == '\n') = true) (pos : Nat) {previous : Option Char}
    {afterExpression : Bool}
    (hready : (!afterExpression && previous.any isLetterOrDigit) = false) :
    readRazor? pos previous afterExpression ('@' :: (block.code ++ rest))
      = some ([.code { block with span := ⟨pos, pos + byteLength ('@' :: block.code)⟩ }],
          block.code.length + 1) := by
  cases h with
  | comment hline hmarkup hmark =>
    exact readTemplateComment?_of_find? (find?_commentEnd hmark rest) pos
  | directive h hmarkup hmark => exact h.readRazor?_eq hrest pos hready

end RazorLayout.Template

import RazorLayout.Proofs.Layout.Ink
import RazorLayout.Proofs.Layout.Page

/-!
# The page of markup spells it

Everything that the settings decide about the page of plain markup is how blanks are put between
nodes, around attributes and inside of texts. The page is therefore one of the spellings of the
nodes, at every level of indentation and behind every node.

## Main results

* `spelt_joinInlineAfter`: nodes on one line spell themselves
* `spelt_nodesText`: the page of plain markup spells it
* `Spelt.of_append_blank`: a spelling may lose a blank at its end
-/

namespace RazorLayout.Layout

open Text Template

/-! ### Tags -/

section Spelling

variable {settings : Settings}

/-- Attributes on one line, behind blanks. -/
theorem spelt_joinWith {style : QuoteStyle} {as as' : List Attribute}
    (has : ∀ a ∈ as, IsAttribute a) (hne : as ≠ []) {gap rest : List Char}
    (hgap : allBlank gap = true) (hgap' : gap ≠ []) (hrest : SpeltAttributes as' rest) :
    SpeltAttributes (as ++ as') (gap ++ joinWith [' '] (as.map (·.render style)) ++ rest) := by
  induction as generalizing gap with
  | nil => simp at hne
  | cons a as ih =>
    have ha : IsAttribute a := has a List.mem_cons_self
    have spelt := spelt_render ha.value_quote style
    -- the last attribute is followed by the rest, any other one by a space
    cases as with
    | nil => simpa [joinWith] using SpeltAttributes.cons ha hgap hgap' spelt hrest
    | cons b as =>
      have space : allBlank [' '] = true := rfl
      have more := ih (fun c hc => has c (List.mem_cons_of_mem a hc)) (by simp) space (by simp)
      simpa [joinWith] using SpeltAttributes.cons ha hgap hgap' spelt more

theorem spelt_groups {style : QuoteStyle} {sep gap : List Char} (hsep : allBlank sep = true)
    (hsep' : sep ≠ []) (hgap : allBlank gap = true) {gs : List (List (List Char))}
    {as : List Attribute} (has : ∀ a ∈ as, IsAttribute a) (hgs : ∀ g ∈ gs, g ≠ [])
    (hflat : as.map (·.render style) = gs.flatten) :
    SpeltAttributes as ((gs.flatMap fun g => sep ++ joinWith [' '] g) ++ gap) := by
  induction gs generalizing as with
  | nil =>
    obtain rfl : as = [] := by simpa using hflat
    exact .nil hgap
  | cons g gs ih =>
    rw [List.flatten_cons, List.map_eq_append_iff] at hflat
    obtain ⟨as₁, as₂, rfl, rfl, hflat⟩ := hflat
    have more := ih (fun a ha => has a (List.mem_append_right as₁ ha))
      (fun g' hg' => hgs g' (List.mem_cons_of_mem _ hg')) hflat
    have hne : as₁ ≠ [] := by simpa using hgs _ List.mem_cons_self
    simpa using spelt_joinWith (fun a ha => has a (List.mem_append_left as₂ ha)) hne hsep hsep' more

theorem flatten_groups {α : Type} (size : Nat) (as : List α) : (groups size as).flatten = as := by
  simpa [List.flatMap_singleton'] using flatMap_groups (fun a : α => [a]) size as

theorem allBlank_indentation (settings : Settings) (level : Nat) :
    allBlank (Code.indentation settings.indentUnit level) = true :=
  Buffer.allBlank_indentation (allBlank_indentUnit _ _) level

theorem allBlank_newline_indentation (settings : Settings) (level : Nat) :
    allBlank ('\n' :: Code.indentation settings.indentUnit level) = true := by
  rw [allBlank_cons, allBlank_indentation]
  rfl

/-- The attributes of a tag are written as one of their spellings. -/
theorem spelt_attributesText (settings : Settings) (level : Nat) {tag : Tag}
    (htag : ∀ a ∈ tag.attributes, IsAttribute a) {gap : List Char} (hgap : allBlank gap = true) :
    SpeltAttributes (orderedAttributes settings tag.attributes)
      (attributesText settings level tag ++ gap) := by
  have ordered : ∀ a ∈ orderedAttributes settings tag.attributes, IsAttribute a :=
    fun a ha => htag a (mem_orderedAttributes.1 ha)
  unfold attributesText
  dsimp only
  split
  · have sep := allBlank_newline_indentation settings (level + 1)
    simpa using spelt_groups sep (by simp) hgap ordered (fun g hg => (of_mem_groups hg).1)
      (flatten_groups _ _).symm
  · -- attributes on the line of the tag are groups of one
    have space : allBlank [' '] = true := rfl
    have alone := spelt_groups space (by simp) hgap ordered
      (fun g hg => by obtain ⟨a, -, rfl⟩ := List.mem_map.1 hg; simp)
      (List.flatMap_singleton' ((orderedAttributes settings tag.attributes).map
        (·.render settings.quoteStyle))).symm
    simpa [joinWith, List.flatMap_map] using alone

/-! ### Texts -/

/-- The page of a text has its lines. -/
theorem textLines_flatMap {ind : List Char} (hind : allBlank ind = true) {ls : List (List Char)}
    (hls : ∀ l ∈ ls, trim l = l ∧ EndsWithInk l ∧ '\n' ∉ l) :
    textLines (ls.flatMap fun l => ind ++ l ++ ['\n']) = ls := by
  induction ls with
  | nil => rfl
  | cons l ls ih =>
    obtain ⟨htrim, hink, hline⟩ := hls l List.mem_cons_self
    have hblank : allBlank l = false := by
      obtain ⟨u, c, rfl, hc⟩ := hink
      simp [hc]
    have split : (l :: ls).flatMap (fun l => ind ++ l ++ ['\n'])
        = (ind ++ l) ++ '\n' :: ls.flatMap fun l => ind ++ l ++ ['\n'] := by simp
    rw [split, textLines_append_newline, textLines_blank_append hind,
      textLines_of_newline_not_mem hline, hblank,
      ih fun l' hl' => hls l' (List.mem_cons_of_mem l hl')]
    simp [htrim]

/-- A text on lines of its own. -/
theorem isText_lines (settings : Settings) (level : Nat) {content : List Char}
    (h : IsText content) :
    IsText ((textLines content).flatMap fun l =>
      Code.indentation settings.indentUnit level ++ l ++ ['\n']) ∧
    SameText true content ((textLines content).flatMap fun l =>
      Code.indentation settings.indentUnit level ++ l ++ ['\n']) := by
  have hind := allBlank_indentation settings level
  have lines : textLines ((textLines content).flatMap fun l =>
      Code.indentation settings.indentUnit level ++ l ++ ['\n']) = textLines content :=
    textLines_flatMap hind fun l hl =>
      have h := of_mem_textLines hl
      ⟨h.1, h.2.1, h.2.2.1⟩
  have same : SameText true content ((textLines content).flatMap fun l =>
      Code.indentation settings.indentUnit level ++ l ++ ['\n']) := by
    refine ⟨?_, fun _ => lines.symm⟩
    rw [words_eq_flatMap_textLines, words_eq_flatMap_textLines _, lines]
  -- lines hold characters of the text only, and the rest is blank
  have hmem {c : Char} (hc : isBlank c = false) (hcontent : c ∉ content) :
      c ∉ (textLines content).flatMap fun l =>
        Code.indentation settings.indentUnit level ++ l ++ ['\n'] := by
    intro h
    obtain ⟨l, hl, hcl⟩ := List.mem_flatMap.1 h
    simp only [List.mem_append, List.mem_singleton] at hcl
    rcases hcl with (hcl | hcl) | rfl
    · exact not_mem_of_allBlank hind hc hcl
    · exact hcontent ((of_mem_textLines hl).2.2.2 c hcl)
    · exact absurd hc (by decide)
  refine ⟨⟨?_, hmem (by decide) h.no_markup, hmem (by decide) h.no_mark⟩, same⟩
  rw [Bool.eq_false_iff]
  intro hblank
  refine words_ne_nil h.not_blank ?_
  rw [same.words_eq, ← List.append_nil (List.flatMap _ _), words_blank_append hblank, words_nil]

theorem getLast?_lines (settings : Settings) (level : Nat) {content : List Char}
    (h : IsText content) :
    ((textLines content).flatMap fun l =>
      Code.indentation settings.indentUnit level ++ l ++ ['\n']).getLast? = some '\n' := by
  obtain ⟨ls, l, hls⟩ :=
    (List.eq_nil_or_concat _).resolve_left (textLines_ne_nil h.not_blank)
  rw [hls, List.concat_eq_append, List.flatMap_append]
  simp

/-- A text on the line of the tags. -/
theorem isText_collapse_trim {content : List Char} (h : IsText content) :
    IsText (collapse (trim content)) ∧ SameText false content (collapse (trim content)) := by
  have same := words_collapse_trim content
  have hmem {c : Char} (hc : c ≠ ' ') (hcontent : c ∉ content) :
      c ∉ collapse (trim content) := by
    rw [collapse_trim]
    refine not_mem_joinWith (by simpa using hc) fun w hw h => hcontent ?_
    have ink : c ∈ withoutBlanks content := by
      rw [← flatten_words]
      exact List.mem_flatten.2 ⟨w, hw, h⟩
    exact List.mem_of_mem_filter ink
  refine ⟨⟨?_, hmem (by decide) h.no_markup, hmem (by decide) h.no_mark⟩, same.symm, by simp⟩
  have blank : allBlank (collapse (trim content)) = allBlank content := by
    rw [Bool.eq_iff_iff, ← withoutBlanks_eq_nil_iff, withoutBlanks_collapse, withoutBlanks_trim,
      withoutBlanks_eq_nil_iff]
  rw [blank, h.not_blank]

/-! ### Texts among nodes -/

/-- A spelling without text in front begins with blanks, up to markup or code. -/
theorem Spelt.split {ownLines : Bool} {levels : Nat} {nodes : List Node} {t : List Char}
    (h : Spelt settings ownLines levels nodes t) (hnodes : nodes.head?.any Node.isText = false) :
    ∃ gap t', t = gap ++ t' ∧ allBlank gap = true ∧ mayStop t' = true ∧
      Spelt settings ownLines levels nodes t' := by
  cases h with
  | blank hgap => exact ⟨t, [], by simp, hgap, rfl, .blank rfl⟩
  | text => simp [Node.isText] at hnodes
  | expression hgap hcode hends hbehind hrest =>
    exact ⟨_, _, rfl, hgap, rfl, .expression allBlank_nil hcode hends hbehind hrest⟩
  | line hgap hblock hend hrest =>
    exact ⟨_, _, rfl, hgap, rfl, .line allBlank_nil hblock hend hrest⟩
  | declaration hgap hname hrest =>
    exact ⟨_, _, rfl, hgap, rfl, .declaration allBlank_nil hname hrest⟩
  | selfClosing hgap hname htext hrest =>
    exact ⟨_, _, rfl, hgap, rfl, .selfClosing allBlank_nil hname htext hrest⟩
  | element hgap hname hvoid hraw htext hinner hchildren hrest =>
    exact ⟨_, _, rfl, hgap, rfl,
      .element allBlank_nil hname hvoid hraw htext hinner hchildren hrest⟩

/-- A text in front of a spelling. The blanks between them go to the text. -/
theorem Spelt.text_append {ownLines : Bool} {levels : Nat} {content piece : List Char}
    {span : Span} {nodes : List Node} {rest : List Char}
    (hrest : Spelt settings ownLines levels nodes rest)
    (hnext : nodes.head?.any Node.isText = false) (hpiece : IsText piece)
    (hsame : SameText ownLines content piece)
    (hbehind : GapBehind ownLines (.text content span) nodes
      (piece.getLast?.any isBlank || rest.head?.any isBlank))
    (hmark : rest.head? = some '@' → piece.getLast?.any isLetterOrDigit = false) :
    Spelt settings ownLines levels (.text content span :: nodes) (piece ++ rest) := by
  obtain ⟨gap, t, rfl, hgap, hstop, hrest⟩ := hrest.split hnext
  by_cases hne : gap = []
  · -- the text goes on to the markup or the code
    subst hne
    rw [List.nil_append] at hbehind hmark ⊢
    have inked : t.head?.any isBlank = false := by
      cases t with
      | nil => rfl
      | cons c t => rcases head?_of_mayStop hstop c rfl with rfl | rfl <;> rfl
    rw [inked, Bool.or_false] at hbehind
    exact .text hpiece hsame hnext hbehind hmark hstop hrest
  · -- blanks in between: the longer piece ends with a blank, which is no letter
    have last := getLast?_append_of_ne_nil piece hne
    have hlast := allBlank_iff.1 hgap _ (List.getLast_mem hne)
    have hfirst : gap.head?.any isBlank = true := by
      rw [List.head?_eq_some_head hne]
      exact allBlank_iff.1 hgap _ (List.head_mem hne)
    have first : (gap ++ t).head? = gap.head? := List.head?_append_of_ne_nil _ hne
    rw [first, hfirst, Bool.or_true] at hbehind
    rw [← List.append_assoc]
    refine .text (hpiece.append_blank hgap) (hsame.append_blank hgap) hnext ?_ ?_ hstop hrest
    · rw [last, List.getLast?_eq_some_getLast hne, Option.any_some, hlast]
      exact hbehind
    · intro _
      rw [last, List.getLast?_eq_some_getLast hne, Option.any_some]
      exact isLetterOrDigit_of_isBlank hlast

/-! ### Nodes on one line -/

/-- What a text or an expression leaves on a line begins with ink. -/
theorem inlinePart_eq_cons {levels : Nat} {node : Node} {nodes : List Node}
    (h : IsMarkup levels (node :: nodes)) (hinline : node.isBlock = false) :
    ∃ c u, inlinePart node = c :: u ∧ isBlank c = false := by
  rcases h.inline_cases hinline with ⟨content, span, rfl, hcontent⟩ | ⟨code, span, rfl, -⟩
  · obtain ⟨c, s, hs⟩ := List.exists_cons_of_ne_nil fun h =>
      Bool.eq_false_iff.1 hcontent.not_blank (trim_eq_nil_iff.1 h)
    have hc : isBlank c = false := isBlank_head_of_trim (hs ▸ trim_trim content)
    obtain ⟨u, hu, -⟩ := collapse_trim_of_ink hc s
    rw [← hs, trim_trim] at hu
    exact ⟨c, u, hu, hc⟩
  · exact ⟨'@', code, rfl, by decide⟩

/-- A text that does not go on with an expression does not go on with it on one line either. -/
theorem endsExpression_collapse_trim {c : Char} (hc : isBlank c = false) {s rest : List Char}
    (h : endsExpression (c :: s) = true)
    (hrest : ∀ d, rest.head? = some d → isIdentifierStart d = false) :
    endsExpression (collapse (trim (c :: s)) ++ rest) = true := by
  obtain ⟨u, hu, hhead⟩ := collapse_trim_of_ink hc s
  -- behind a dot the next character counts
  have second (hdot : c = '.') : (u ++ rest).head?.any isIdentifierStart = false := by
    have hs : s.head?.any isIdentifierStart = false := by simp_all [endsExpression]
    cases u with
    | nil =>
      rw [List.nil_append, Option.any_eq_false]
      simpa using hrest
    | cons d u =>
      rcases hhead d rfl with rfl | hd
      · rfl
      · simpa [hd] using hs
  rw [hu, List.cons_append]
  by_cases hdot : c = '.'
  · simp_all [endsExpression]
  · simp_all [endsExpression]

/-- Texts are never next to each other. -/
theorem isText_head?_of_apart {content : List Char} {span : Span} {nodes : List Node}
    (h : nodes.head?.all (apart (.text content span)) = true) :
    nodes.head?.any Node.isText = false := by
  cases nodes with
  | nil => rfl
  | cons next nodes => cases next <;> simp_all [apart, Node.isText]

/-- A text on one line ends as the text does. -/
theorem getLast?_collapse_trim {content : List Char} (h : IsText content)
    (hlast : content.getLast?.any isBlank = false) :
    (collapse (trim content)).getLast? = content.getLast? := by
  have ink : EndsWithInk content := by
    refine ⟨content.dropLast, content.getLast h.ne_nil, ?_, ?_⟩
    · rw [List.dropLast_append_getLast]
    · simpa [List.getLast?_eq_some_getLast h.ne_nil] using hlast
  rw [← (tidyLine_collapse_trim h).ink.getLast?_withoutBlanks, ← ink.getLast?_withoutBlanks,
    withoutBlanks_collapse, withoutBlanks_trim]

section Inline

variable {levels : Nat} {nodes : List Node} (h : IsMarkup levels nodes)
  (hinline : nodes.any Node.isBlock = false) {tail : List Char} (htail : allBlank tail = true)

include h hinline

/-- On a line the gap in front of a node is the gap of the source. -/
theorem gapBehind_joinInlineAfter (ownLines : Bool) (node : Node) (tail : List Char) :
    GapBehind ownLines node nodes
      ((joinInlineAfter (some node) nodes ++ tail).head?.any isBlank) := by
  intro next hnext _
  obtain ⟨nodes, rfl⟩ := List.head?_eq_some_iff.1 hnext
  rw [List.any_cons, Bool.or_eq_false_iff] at hinline
  obtain ⟨c, u, hpart, hc⟩ := inlinePart_eq_cons h hinline.1
  rw [joinInlineAfter_cons h hinline.1, hpart]
  cases hgap : separated node next with
  | false => simp [hgap, hc]
  | true => simp [hgap, show isBlank ' ' = true from rfl]

include htail

/-- Behind a text comes the end, a blank or an expression. -/
theorem head?_joinInlineAfter (hnodes : nodes.head?.any Node.isText = false)
    (previous : Option Node) (c : Char)
    (hc : (joinInlineAfter previous nodes ++ tail).head? = some c) :
    isBlank c = true ∨ c = '@' := by
  cases nodes with
  | nil => exact .inl (allBlank_iff.1 htail c (List.mem_of_head? hc))
  | cons next nodes =>
    obtain ⟨block, rfl⟩ : ∃ block, next = .code block := by
      cases next <;> simp_all [Node.isBlock, Node.isInline, Node.isExpression, Node.isText]
    rw [joinInlineAfter, inlinePart] at hc
    cases hgap : previous.any (separated · (.code block)) with
    | false => exact .inr (by simpa [hgap] using hc.symm)
    | true =>
      obtain rfl : ' ' = c := by simpa [hgap] using hc
      exact .inl rfl

/-- An expression ends where the next node on its line begins. -/
theorem endsExpression_joinInlineAfter {code : List Char} {span : Span}
    (hnext : nodes.head?.all (apart (.code ⟨.expression, code, span⟩)) = true) :
    endsExpression (joinInlineAfter (some (.code ⟨.expression, code, span⟩)) nodes ++ tail)
      = true := by
  cases nodes with
  | nil =>
    cases tail with
    | nil => rfl
    | cons c tail =>
      exact endsExpression_of_isBlank (allBlank_iff.1 htail c List.mem_cons_self) tail
  | cons next nodes =>
    have inline := hinline
    rw [List.any_cons, Bool.or_eq_false_iff] at inline
    have joined := joinInlineAfter_cons h inline.1 (some (.code ⟨.expression, code, span⟩))
    cases hgap : separated (.code ⟨.expression, code, span⟩) next with
    | true =>
      rw [joined]
      simpa [hgap] using endsExpression_of_isBlank (show isBlank ' ' = true from rfl) _
    | false =>
      cases next with
      | text content place =>
        cases h with
        | text hcontent hapart hnodes =>
          -- a text that touches the expression: it does not go on with it in the source
          obtain ⟨d, s, rfl⟩ := List.exists_cons_of_ne_nil hcontent.ne_nil
          have hd : isBlank d = false := by simp_all [separated, startsBlank]
          have hends : endsExpression (d :: s) = true := by
            simpa [apart, Node.isExpression, hgap] using hnext
          have htext := isText_head?_of_apart hapart
          have behind := head?_joinInlineAfter hnodes inline.2 htail htext
            (some (.text (d :: s) place))
          have rest := endsExpression_collapse_trim hd hends fun e he => by
            rcases behind e he with he | rfl
            · exact eq_false_of_isBlank isIdentifierStart (by decide +kernel) he
            · rfl
          rw [joined]
          simpa [hgap, inlinePart] using rest
      | code block =>
        rw [joined]
        simp [hgap, inlinePart, endsExpression, show isIdentifierRest '@' = false from rfl]
      | selfClosing | element | declaration =>
        simp [Node.isBlock, Node.isInline, Node.isExpression] at inline

/-- An expression that touches a text on one line touches it in the source, and no letter hides
it. -/
theorem not_letter_of_mark {content : List Char} {span : Span} (hcontent : IsText content)
    (hnext : nodes.head?.all (apart (.text content span)) = true)
    (hmark : (joinInlineAfter (some (.text content span)) nodes ++ tail).head? = some '@') :
    (collapse (trim content)).getLast?.any isLetterOrDigit = false := by
  have hgap := gapBehind_joinInlineAfter h hinline false (.text content span) tail
  rw [hmark] at hgap
  cases nodes with
  | nil =>
    -- no blank is a mark
    have := allBlank_iff.1 htail '@' (List.mem_of_head? hmark)
    exact absurd this (by decide)
  | cons next nodes =>
    have hgap : separated (.text content span) next = false := hgap next rfl (.inl rfl)
    have htext := isText_head?_of_apart hnext
    have expression : next.isExpression = true := by
      cases next <;> simp_all [Node.isBlock, Node.isInline, Node.isText, Node.isExpression]
    -- the text ends with ink, and the same character ends it on one line
    rw [getLast?_collapse_trim hcontent (by simp_all [separated, endsBlank])]
    cases next <;> simp_all [apart, Node.isText, Node.isExpression]

end Inline

/-- Nodes on one line spell themselves. -/
theorem spelt_joinInlineAfter (settings : Settings) {levels : Nat} {nodes : List Node}
    (h : IsMarkup levels nodes) (hinline : nodes.any Node.isBlock = false) (previous : Option Node)
    {tail : List Char} (htail : allBlank tail = true) :
    Spelt settings false levels nodes (joinInlineAfter previous nodes ++ tail) := by
  have space (previous : Option Node) (node : Node) :
      allBlank (if previous.any (separated · node) then [' '] else []) = true := by
    split <;> rfl
  induction h generalizing previous with
  | nil => exact .blank htail
  | @text levels content span nodes hcontent hnext hnodes ih =>
    rw [List.any_cons, Bool.or_eq_false_iff] at hinline
    have rest := ih hinline.2 (some (.text content span))
    have hgap := gapBehind_joinInlineAfter hnodes hinline.2 false (.text content span) tail
    obtain ⟨hpiece, hsame⟩ := isText_collapse_trim hcontent
    have hlast : (collapse (trim content)).getLast?.any isBlank = false := by
      obtain ⟨u, c, hu, hc⟩ := (tidyLine_collapse_trim hcontent).ink
      simp [hu, hc]
    have spelt : Spelt settings false levels (.text content span :: nodes)
        (collapse (trim content)
          ++ (joinInlineAfter (some (.text content span)) nodes ++ tail)) := by
      refine rest.text_append (isText_head?_of_apart hnext) hpiece hsame ?_ fun hmark => ?_
      · rwa [hlast, Bool.false_or]
      · exact not_letter_of_mark hnodes hinline.2 htail hcontent hnext hmark
    rw [joinInlineAfter_cons (.text hcontent hnext hnodes) hinline.1, List.append_assoc,
      List.append_assoc]
    exact spelt.blank_append (space previous (.text content span))
  | @expression levels code span nodes hcode hnext hnodes ih =>
    rw [List.any_cons, Bool.or_eq_false_iff] at hinline
    have rest := ih hinline.2 (some (.code ⟨.expression, code, span⟩))
    have hends := endsExpression_joinInlineAfter hnodes hinline.2 htail hnext
    have hgap := gapBehind_joinInlineAfter hnodes hinline.2 false
      (.code ⟨.expression, code, span⟩) tail
    rw [joinInlineAfter_cons (.expression hcode hnext hnodes) hinline.1, List.append_assoc,
      List.append_assoc]
    exact .expression (space previous _) hcode hends hgap rest
  | line hblock => simp [Node.isBlock, Node.isInline, Node.isExpression, hblock.kind_ne] at hinline
  | declaration | selfClosing | element =>
    simp [Node.isBlock, Node.isInline, Node.isExpression] at hinline

/-! ### The page -/

theorem allBlank_lineEnd (previous : Option Node) : allBlank (lineEnd previous) = true := by
  unfold lineEnd
  split <;> rfl

theorem allBlank_lineStart (settings : Settings) (level : Nat) (previous : Option Node)
    (node : Node) : allBlank (lineStart settings level previous node) = true := by
  unfold lineStart
  split
  · split <;> rfl
  · exact allBlank_indentation settings level

theorem allBlank_tagEndGap (settings : Settings) (level : Nat) (tag : Tag) :
    allBlank (tagEndGap settings level tag) = true := by
  unfold tagEndGap
  split
  · exact allBlank_newline_indentation settings level
  · rfl

/-- Content that is not on lines of its own is on one line. -/
theorem spelt_inlineText {levels : Nat} {tag : Tag} {children : List Node}
    (h : IsMarkup levels children) (level : Nat) (hline : ¬ (!children.isEmpty &&
      (children.any Node.isBlock || contentBreaks settings tag)) = true) :
    Spelt settings (children.any Node.isBlock || contentBreaks settings tag) levels children
      (inlineText settings level children) := by
  by_cases hempty : children = []
  · subst hempty
    exact .blank rfl
  · have hline : (children.any Node.isBlock || contentBreaks settings tag) = false := by
      simpa [hempty] using hline
    have hinline := (Bool.or_eq_false_iff.1 hline).1
    have spelt {tail : List Char} (htail : allBlank tail = true) :=
      spelt_joinInlineAfter settings h hinline none htail
    rw [hline, inlineText]
    split
    · simpa [joinInline] using spelt allBlank_nil
    · have between := (spelt (allBlank_newline_indentation settings level)).blank_append
        (allBlank_newline_indentation settings (level + 1))
      simpa [joinInline] using between

/-- The page behind an expression: the expression ends there, and a gap is where the source has
it. -/
theorem nodesText_behind_expression (settings : Settings) {levels : Nat} {nodes : List Node}
    (h : IsMarkup levels nodes) (level : Nat) (node : Node) (hnode : node.isExpression = true)
    (tail : List Char) :
    endsExpression (nodesText settings level (some node) nodes ++ tail) = true ∧
    GapBehind true node nodes
      ((nodesText settings level (some node) nodes ++ tail).head?.any isBlank) := by
  have feed (s : List Char) : endsExpression (lineEnd (some node) ++ s) = true := by
    simpa [lineEnd, hnode] using endsExpression_of_isBlank (show isBlank '\n' = true from rfl) s
  -- what goes on with the line begins with a mark or a bracket, or with a space in front of it
  have onward (next : Node) (nodes : List Node) {c : Char} (hc : c = '@' ∨ c = '<')
      (s : List Char) :
      endsExpression (lineStart settings level (some node) next ++ c :: s) = true ∧
      GapBehind true node (next :: nodes)
        ((lineStart settings level (some node) next ++ c :: s).head?.any isBlank) := by
    have inked : isBlank c = false := by
      rcases hc with rfl | rfl <;> rfl
    have ends : endsExpression (c :: s) = true := by
      rcases hc with rfl | rfl <;> rfl
    unfold lineStart
    rw [Option.any_some, hnode, if_pos rfl, Option.any_some]
    refine ⟨?_, fun next' hnext' _ => ?_⟩
    · split
      · exact endsExpression_of_isBlank rfl _
      · exact ends
    · obtain rfl : next = next' := by simpa using hnext'
      cases hgap : separated node next with
      | false => simp [inked]
      | true => rfl
  -- what has lines of its own is told apart by the line feed, so that its gap does not show
  have ownLine {next : Node} (hnext : goesOn next = false) (nodes : List Node) (blank : Bool) :
      GapBehind true node (next :: nodes) blank := by
    intro next' hnext' hshows
    obtain rfl : next = next' := by simpa using hnext'
    simp [hnext] at hshows
  cases h with
  | nil => exact ⟨feed tail, nofun⟩
  | text =>
    rw [nodesText, nodeText, List.append_assoc, List.append_assoc]
    exact ⟨feed _, ownLine rfl _ _⟩
  | @expression levels code span nodes =>
    rw [nodesText, nodeText, if_pos rfl, List.append_assoc, List.append_assoc]
    exact onward _ nodes (.inl rfl) _
  | line hblock =>
    have hkind := hblock.kind_ne
    rw [nodesText, nodeText, if_neg hkind, List.append_assoc, List.append_assoc]
    refine ⟨feed _, ownLine ?_ _ _⟩
    simp [goesOn, Node.isMarkup, Node.isExpression, hkind]
  | declaration | selfClosing | element =>
    rw [nodesText, nodeText]
    simp only [List.append_assoc, List.cons_append]
    exact onward _ _ (.inr rfl) _

/-- The page of plain markup spells it, behind any node and with any blanks behind. -/
theorem spelt_nodesText (settings : Settings) {levels : Nat} {nodes : List Node}
    (h : IsMarkup levels nodes) (level : Nat) (previous : Option Node) {tail : List Char}
    (htail : allBlank tail = true) :
    Spelt settings true levels nodes (nodesText settings level previous nodes ++ tail) := by
  have space : allBlank [' '] = true := rfl
  have feed : allBlank ['\n'] = true := rfl
  induction h generalizing level previous tail with
  | nil => exact .blank (by simp [nodesText, allBlank_lineEnd, htail])
  | @text levels content span nodes hcontent hnext hnodes ih =>
    obtain ⟨hpiece, hsame⟩ := isText_lines settings level hcontent
    have hlast := getLast?_lines settings level hcontent
    have rest := ih level (some (.text content span)) htail
    rw [nodesText, nodeText, List.append_assoc, List.append_assoc]
    -- the line feed of the line before is a blank in front of the text
    refine Spelt.blank_append ?_ (allBlank_lineEnd previous)
    refine rest.text_append (isText_head?_of_apart hnext) hpiece hsame ?_ fun _ => ?_
    · intro next _ hshows
      simp [Node.isExpression] at hshows
    · rw [hlast]
      rfl
  | @expression levels code span nodes hcode hnext hnodes ih =>
    have rest := ih level (some (.code ⟨.expression, code, span⟩)) htail
    obtain ⟨hends, hgap⟩ := nodesText_behind_expression settings hnodes level
      (.code ⟨.expression, code, span⟩) rfl tail
    have spelt := Spelt.expression (allBlank_lineStart settings level previous
      (.code ⟨.expression, code, span⟩)) hcode hends hgap rest
    rw [nodesText, nodeText, if_pos rfl]
    simpa using spelt
  | @line levels block nodes hblock hnodes ih =>
    have rest := (ih level (some (.code block)) htail).blank_append feed
    have start :
        allBlank (lineEnd previous ++ Code.indentation settings.indentUnit level) = true := by
      rw [allBlank_append, allBlank_lineEnd, allBlank_indentation]
      rfl
    rw [nodesText, nodeText, if_neg hblock.kind_ne]
    simpa using Spelt.line start hblock rfl rest
  | @declaration levels name span nodes hname hnodes ih =>
    have rest := (ih level (some (.declaration ('<' :: '!' :: (name ++ ['>'])) span))
      htail).blank_append feed
    have start := allBlank_lineStart settings level previous
      (.declaration ('<' :: '!' :: (name ++ ['>'])) span)
    rw [nodesText, nodeText]
    simpa using Spelt.declaration start hname rest
  | @selfClosing levels tag nodes hname hattributes hnodes ih =>
    have rest := (ih level (some (.selfClosing tag)) htail).blank_append feed
    have spelt := Spelt.selfClosing (allBlank_lineStart settings level previous (.selfClosing tag))
      hname (spelt_attributesText settings level hattributes space) rest
    rw [nodesText, nodeText]
    simpa using spelt
  | @element levels tag children nodes hname hvoid hraw hattributes hchildren hnodes ihc ih =>
    have rest := (ih level (some (.element tag children)) htail).blank_append feed
    have attributes := spelt_attributesText settings level hattributes
      (allBlank_tagEndGap settings level tag)
    have start := allBlank_lineStart settings level previous (.element tag children)
    rw [nodesText, nodeText]
    split
    · rename_i hlines
      rw [Bool.and_eq_true] at hlines
      -- lines of its own
      have content := (ihc (level + 1) none (allBlank_indentation settings level)).blank_append feed
      have spelt := Spelt.element start hname hvoid hraw attributes hlines.2.symm content rest
      simpa using spelt
    · rename_i hline
      -- one line
      have content : Spelt settings (children.any Node.isBlock || contentBreaks settings tag) levels
          children (inlineText settings level children) := spelt_inlineText hchildren level hline
      have spelt := Spelt.element start hname hvoid hraw attributes rfl content rest
      simpa using spelt

/-! ### The last line feed -/

/-- A blank at the end is behind the last ink. -/
theorem exists_of_append_blank_eq {u t rest : List Char} {c : Char} (hu : EndsWithInk u)
    (hc : isBlank c = true) (h : t ++ [c] = u ++ rest) :
    ∃ rest', rest = rest' ++ [c] ∧ t = u ++ rest' := by
  obtain rfl | ⟨rest', d, rfl⟩ := List.eq_nil_or_concat rest
  · obtain ⟨v, d, rfl, hd⟩ := hu
    rw [List.append_nil] at h
    obtain rfl : c = d := by simpa using (List.append_inj' h rfl).2
    simp [hc] at hd
  · rw [List.concat_eq_append, ← List.append_assoc] at h
    obtain ⟨rfl, hd⟩ := List.append_inj' h rfl
    obtain rfl : c = d := by simpa using hd
    exact ⟨rest', List.concat_eq_append, rfl⟩

/-- Only no nodes are spelt as nothing. -/
theorem Spelt.eq_nil_of_nil {ownLines : Bool} {levels : Nat} {nodes : List Node}
    (h : Spelt settings ownLines levels nodes []) : nodes = [] := by
  generalize hs : ([] : List Char) = s at h
  cases h with
  | blank => rfl
  | text hpiece => simp [hpiece.ne_nil] at hs
  | expression | line | declaration | selfClosing | element => simp at hs

theorem GapBehind.of_append {ownLines : Bool} {levels : Nat} {node : Node} {nodes : List Node}
    {t s : List Char} (h : GapBehind ownLines node nodes ((t ++ s).head?.any isBlank))
    (ht : Spelt settings ownLines levels nodes t) :
    GapBehind ownLines node nodes (t.head?.any isBlank) := by
  cases t with
  | nil =>
    rw [ht.eq_nil_of_nil]
    exact nofun
  | cons c t => exact h

theorem isText_of_append_blank {t : List Char} {c : Char} (hc : isBlank c = true)
    (h : IsText (t ++ [c])) : IsText t := by
  refine ⟨?_, fun hmem => h.no_markup ?_, fun hmem => h.no_mark ?_⟩
  · simpa [hc] using h.not_blank
  · exact List.mem_append_left [c] hmem
  · exact List.mem_append_left [c] hmem

theorem SameText.of_append_blank {ownLines : Bool} {content t : List Char} {c : Char}
    (hc : isBlank c = true) (h : SameText ownLines content (t ++ [c])) :
    SameText ownLines content t := by
  have hblank : allBlank [c] = true := by simp [hc]
  refine ⟨?_, fun hown => ?_⟩
  · rw [h.words_eq, words_append_blank t hblank]
  · rw [h.lines_eq hown, textLines_append_blank t hblank]

/-- A spelling may lose a blank at its end. -/
theorem Spelt.of_append_blank {ownLines : Bool} {levels : Nat} {nodes : List Node} {t : List Char}
    {c : Char} (hc : isBlank c = true) (h : Spelt settings ownLines levels nodes (t ++ [c])) :
    Spelt settings ownLines levels nodes t := by
  generalize hs : t ++ [c] = s at h
  induction h generalizing t with
  | blank hgap =>
    subst hs
    rw [allBlank_append, Bool.and_eq_true] at hgap
    exact .blank hgap.1
  | @text ownLines levels content piece span nodes rest hpiece hsame hnext hbehind hmark hstop hrest
      ih =>
    obtain rfl | ⟨rest', d, rfl⟩ := List.eq_nil_or_concat rest
    · -- the blank belongs to the text, and nothing is behind it
      obtain rfl := hrest.eq_nil_of_nil
      rw [List.append_nil] at hs
      subst hs
      simpa using Spelt.text (isText_of_append_blank hc hpiece) (hsame.of_append_blank hc) hnext nofun
        (by simp) rfl hrest
    · rw [List.concat_eq_append] at hs hmark hstop ih
      rw [← List.append_assoc] at hs
      obtain ⟨rfl, hd⟩ := List.append_inj' hs rfl
      -- the blank is behind the text
      have stops : mayStop rest' = true := by
        cases rest' with
        | nil => rfl
        | cons e rest' => rcases head?_of_mayStop hstop e rfl with rfl | rfl <;> rfl
      refine .text hpiece hsame hnext hbehind (fun h => hmark ?_) stops (ih (by rw [hd]))
      rw [List.head?_append, h]
      rfl
  | @expression ownLines levels gap code span nodes rest hgap hcode hends hbehind hrest ih =>
    rw [show gap ++ '@' :: (code ++ rest) = (gap ++ '@' :: code) ++ rest by simp] at hs
    obtain ⟨rest', rfl, rfl⟩ := exists_of_append_blank_eq
      ((tidyLine_expression hcode).ink.append gap) hc hs
    have spelt := ih rfl
    have ends := endsExpression_of_initial (List.prefix_append rest' [c]) hends
    simpa using Spelt.expression hgap hcode ends (hbehind.of_append spelt) spelt
  | @line ownLines levels gap block nodes rest hgap hblock hend hrest ih =>
    rw [show gap ++ '@' :: (block.code ++ rest) = (gap ++ '@' :: block.code) ++ rest by simp] at hs
    obtain ⟨rest', rfl, rfl⟩ := exists_of_append_blank_eq
      ((tidyLine_line hblock).ink.append gap) hc hs
    have ends : rest'.head?.all (· == '\n') = true := by
      cases rest' with
      | nil => rfl
      | cons => exact hend
    simpa using Spelt.line hgap hblock ends (ih rfl)
  | @declaration ownLines levels gap name span nodes rest hgap hname hrest ih =>
    rw [← List.append_assoc] at hs
    obtain ⟨rest', rfl, rfl⟩ := exists_of_append_blank_eq
      ((tidyLine_declaration hname).ink.append gap) hc hs
    simpa using Spelt.declaration hgap hname (ih rfl)
  | @selfClosing ownLines levels gap tag text nodes rest hgap hname htext hrest ih =>
    rw [show gap ++ '<' :: (tag.name ++ (text ++ '/' :: '>' :: rest))
      = (gap ++ '<' :: (tag.name ++ (text ++ ['/', '>']))) ++ rest by simp] at hs
    obtain ⟨rest', rfl, rfl⟩ := exists_of_append_blank_eq
      ⟨gap ++ '<' :: (tag.name ++ (text ++ ['/'])), '>', by simp, by decide⟩ hc hs
    simpa using Spelt.selfClosing hgap hname htext (ih rfl)
  | @element ownLines inner levels gap tag text children content nodes rest hgap hname hvoid hraw
      htext hinner hchildren hrest ihc ih =>
    rw [show gap ++ '<' :: (tag.name ++ (text ++ '>' :: (content ++ (tagCloser tag.name ++ rest))))
      = (gap ++ '<' :: (tag.name ++ (text ++ '>' :: (content ++ tagCloser tag.name)))) ++ rest by
        simp] at hs
    obtain ⟨rest', rfl, rfl⟩ := exists_of_append_blank_eq
      ⟨gap ++ '<' :: (tag.name ++ (text ++ '>' :: (content ++ '<' :: '/' :: tag.name))), '>',
        by simp [tagCloser], by decide⟩ hc hs
    simpa using Spelt.element hgap hname hvoid hraw htext hinner hchildren (ih rfl)

end Spelling

end RazorLayout.Layout

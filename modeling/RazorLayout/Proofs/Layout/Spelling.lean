import RazorLayout.Layout.Writer
import RazorLayout.Proofs.Layout.Markup

/-!
# Spellings of markup

A list of nodes can be laid out in many ways: blanks may be put between tags and around texts, and
the blanks inside of texts may change. `Spelt` is the grammar of all these layouts. What the
settings decide is left in it at two places, the order of attributes and whether a text has its
lines kept or is written on one line.

The reader takes every spelling back to the nodes. Its only difficult step is to find where the
content of an element ends, which is by counting tags; inside of a spelling every tag that is
opened is closed.

## Main definitions

* `Spelt`: the texts that spell a list of nodes
* `Reread`: the nodes that come back from a spelling

## Main results

* `Spelt.closingTag?`: the content of an element ends where it was written to end
* `Spelt.sectionFree`: a spelling holds no code section
* `Spelt.reread`: a spelling is read as the nodes that it spells
-/

namespace RazorLayout.Layout

open Text Template

/-- Whether the attributes of a tag stand on lines of their own. -/
def attributesBreak (settings : Settings) (tag : Tag) : Bool :=
  !tag.attributes.isEmpty && breaksAttributes settings tag.attributes.length

/-- Whether the attributes of a tag push the content to lines of its own. -/
def contentBreaks (settings : Settings) (tag : Tag) : Bool :=
  settings.breakContent
    && (attributesBreak settings tag || settings.contentBreakThreshold ≤ tag.attributes.length)

/-- Texts that are laid out alike: on one line, or on lines of their own as well. -/
structure SameText (ownLines : Bool) (s t : List Char) : Prop where
  words_eq : words s = words t
  lines_eq : ownLines = true → textLines s = textLines t

theorem SameText.blank_append {ownLines : Bool} {s t : List Char} (h : SameText ownLines s t)
    {gap : List Char} (hgap : allBlank gap = true) : SameText ownLines s (gap ++ t) where
  words_eq := by rw [words_blank_append hgap, h.words_eq]
  lines_eq hown := by rw [textLines_blank_append hgap, h.lines_eq hown]

theorem SameText.append_blank {ownLines : Bool} {s t : List Char} (h : SameText ownLines s t)
    {gap : List Char} (hgap : allBlank gap = true) : SameText ownLines s (t ++ gap) where
  words_eq := by rw [words_append_blank t hgap, h.words_eq]
  lines_eq hown := by rw [textLines_append_blank t hgap, h.lines_eq hown]

/-- The node goes on with the line of an expression in front of it. -/
def goesOn (node : Node) : Bool := node.isMarkup || node.isExpression

/-- The blanks behind a node are the gap in front of its neighbour, where a gap shows: within a
line, and behind an expression whose line goes on. -/
def GapBehind (ownLines : Bool) (node : Node) (nodes : List Node) (blank : Bool) : Prop :=
  ∀ next ∈ nodes.head?, ownLines = false ∨ (node.isExpression && goesOn next) = true →
    separated node next = blank

/-- The texts that spell nodes of so many levels. Texts among the nodes stand on lines of their
own, or on one line with the expressions next to them; the latter are the whole content of their
element. -/
inductive Spelt (settings : Settings) : Bool → Nat → List Node → List Char → Prop
  | blank {ownLines : Bool} {levels : Nat} {gap : List Char} (hgap : allBlank gap = true) :
    Spelt settings ownLines levels [] gap
  | text {ownLines : Bool} {levels : Nat} {content piece : List Char} {span : Span}
    {nodes : List Node} {rest : List Char} (hpiece : IsText piece)
    (hsame : SameText ownLines content piece) (hnext : nodes.head?.any Node.isText = false)
    (hbehind : GapBehind ownLines (.text content span) nodes (piece.getLast?.any isBlank))
    (hmark : rest.head? = some '@' → piece.getLast?.any isLetterOrDigit = false)
    (hstop : mayStop rest = true) (hrest : Spelt settings ownLines levels nodes rest) :
    Spelt settings ownLines levels (.text content span :: nodes) (piece ++ rest)
  | expression {ownLines : Bool} {levels : Nat} {gap code : List Char} {span : Span}
    {nodes : List Node} {rest : List Char} (hgap : allBlank gap = true)
    (hcode : IsExpression code) (hends : endsExpression rest = true)
    (hbehind : GapBehind ownLines (.code ⟨.expression, code, span⟩) nodes
      (rest.head?.any isBlank))
    (hrest : Spelt settings ownLines (levels + 1) nodes rest) :
    Spelt settings ownLines (levels + 1) (.code ⟨.expression, code, span⟩ :: nodes)
      (gap ++ '@' :: (code ++ rest))
  | line {ownLines : Bool} {levels : Nat} {gap : List Char} {block : CodeBlock}
    {nodes : List Node} {rest : List Char} (hgap : allBlank gap = true) (hblock : IsLine block)
    (hend : rest.head?.all (· == '\n') = true)
    (hrest : Spelt settings ownLines (levels + 1) nodes rest) :
    Spelt settings ownLines (levels + 1) (.code block :: nodes)
      (gap ++ '@' :: (block.code ++ rest))
  | declaration {ownLines : Bool} {levels : Nat} {gap name : List Char} {span : Span}
    {nodes : List Node} {rest : List Char} (hgap : allBlank gap = true)
    (hname : IsDeclaration name) (hrest : Spelt settings ownLines (levels + 1) nodes rest) :
    Spelt settings ownLines (levels + 1)
      (.declaration ('<' :: '!' :: (name ++ ['>'])) span :: nodes)
      (gap ++ ('<' :: '!' :: (name ++ ['>']) ++ rest))
  | selfClosing {ownLines : Bool} {levels : Nat} {gap : List Char} {tag : Tag} {text : List Char}
    {nodes : List Node} {rest : List Char} (hgap : allBlank gap = true)
    (hname : IsTagName tag.name)
    (htext : SpeltAttributes (orderedAttributes settings tag.attributes) text)
    (hrest : Spelt settings ownLines (levels + 1) nodes rest) :
    Spelt settings ownLines (levels + 1) (.selfClosing tag :: nodes)
      (gap ++ '<' :: (tag.name ++ (text ++ '/' :: '>' :: rest)))
  | element {ownLines inner : Bool} {levels : Nat} {gap : List Char} {tag : Tag}
    {text : List Char} {children : List Node} {content : List Char} {nodes : List Node}
    {rest : List Char} (hgap : allBlank gap = true) (hname : IsTagName tag.name)
    (hvoid : isVoid tag.name = false) (hraw : isRawText tag.name = false)
    (htext : SpeltAttributes (orderedAttributes settings tag.attributes) text)
    (hinner : inner = (children.any Node.isBlock || contentBreaks settings tag))
    (hchildren : Spelt settings inner levels children content)
    (hrest : Spelt settings ownLines (levels + 1) nodes rest) :
    Spelt settings ownLines (levels + 1) (.element tag children :: nodes)
      (gap ++ '<' :: (tag.name ++ (text ++ '>' :: (content ++ (tagCloser tag.name ++ rest)))))

variable {settings : Settings} {ownLines : Bool} {levels : Nat} {nodes : List Node}
  {t : List Char}

theorem getLast?_append_of_ne_nil (s : List Char) {t : List Char} (ht : t ≠ []) :
    (s ++ t).getLast? = t.getLast? := by
  rw [List.getLast?_append, List.getLast?_eq_some_getLast ht, Option.some_or]

/-- Blanks may be put in front of a spelling. -/
theorem Spelt.blank_append (h : Spelt settings ownLines levels nodes t) {gap : List Char}
    (hgap : allBlank gap = true) : Spelt settings ownLines levels nodes (gap ++ t) := by
  cases h with
  | blank hgap' => exact .blank (by simp [hgap, hgap'])
  | @text _ _ content piece span nodes rest hpiece hsame hnext hbehind hmark hstop hrest =>
    -- blanks in front do not change how a text ends
    have last := getLast?_append_of_ne_nil gap hpiece.ne_nil
    rw [← List.append_assoc]
    refine .text ⟨?_, ?_, ?_⟩ (hsame.blank_append hgap) hnext (by rwa [last]) (by rwa [last]) hstop
      hrest
    · simp [hpiece.not_blank]
    · simp [hpiece.no_markup, not_mem_of_allBlank hgap (c := '<') (by decide)]
    · simp [hpiece.no_mark, not_mem_of_allBlank hgap (c := '@') (by decide)]
  | expression hgap' hcode hends hbehind hrest =>
    rw [← List.append_assoc]
    exact .expression (by simp [hgap, hgap']) hcode hends hbehind hrest
  | line hgap' hblock hend hrest =>
    rw [← List.append_assoc]
    exact .line (by simp [hgap, hgap']) hblock hend hrest
  | declaration hgap' hname hrest =>
    rw [← List.append_assoc]
    exact .declaration (by simp [hgap, hgap']) hname hrest
  | selfClosing hgap' hname htext hrest =>
    rw [← List.append_assoc]
    exact .selfClosing (by simp [hgap, hgap']) hname htext hrest
  | element hgap' hname hvoid hraw htext hinner hchildren hrest =>
    rw [← List.append_assoc]
    exact .element (by simp [hgap, hgap']) hname hvoid hraw htext hinner hchildren hrest

/-! ### Closing tags -/

/-- The search for a closing tag passes over a spelling: every tag in it is closed in it. -/
theorem Spelt.closingTagFrom (h : Spelt settings ownLines levels nodes t) {name : List Char}
    (hname : IsTagName name) (n depth : Nat) (behind : List Char) :
    closingTagFrom (tagOpener name) (tagCloser name) n depth 0 (t ++ behind)
      = closingTagFrom (tagOpener name) (tagCloser name) (n + t.length) depth 0 behind := by
  -- code holds no markup, and is passed over like text
  have code {gap code rest : List Char} (hgap : allBlank gap = true) (hcode : '<' ∉ code)
      (ih : ∀ n depth behind,
        Template.closingTagFrom (tagOpener name) (tagCloser name) n depth 0 (rest ++ behind)
          = Template.closingTagFrom (tagOpener name) (tagCloser name) (n + rest.length) depth 0
              behind) (n depth : Nat) (behind : List Char) :
      Template.closingTagFrom (tagOpener name) (tagCloser name) n depth 0
          (gap ++ '@' :: (code ++ rest) ++ behind)
        = Template.closingTagFrom (tagOpener name) (tagCloser name)
            (n + (gap ++ '@' :: (code ++ rest)).length) depth 0 behind := by
    have held : '<' ∉ gap ++ '@' :: code := by
      simp [not_mem_of_allBlank (c := '<') hgap (by decide), hcode]
    rw [show gap ++ '@' :: (code ++ rest) ++ behind = (gap ++ '@' :: code) ++ (rest ++ behind) by
      simp, closingTagFrom_of_no_markup name n depth held, ih]
    congr 1
    simp only [List.length_append, List.length_cons]
    omega
  induction h generalizing n depth behind with
  | blank hgap =>
    exact closingTagFrom_of_no_markup name n depth (not_mem_of_allBlank hgap (by decide)) behind
  | text hpiece _ _ _ _ _ _ ih =>
    rw [List.append_assoc, closingTagFrom_of_no_markup name n depth hpiece.no_markup, ih,
      List.length_append, Nat.add_assoc]
  | expression hgap hcode _ _ _ ih => exact code hgap hcode.no_markup ih n depth behind
  | line hgap hblock _ _ ih => exact code hgap hblock.no_markup ih n depth behind
  | @declaration ownLines levels gap x span nodes rest hgap hx _ ih =>
    rw [List.append_assoc, closingTagFrom_of_no_markup name n depth
      (not_mem_of_allBlank hgap (by decide)), List.append_assoc,
      closingTagFrom_declaration hname hx, ih]
    congr 1
    simp only [List.length_append, List.length_cons, List.length_nil]
    omega
  | @selfClosing ownLines levels gap tag text nodes rest hgap hx htext _ ih =>
    -- a tag that closes itself opens no level
    simp only [List.append_assoc, List.cons_append]
    rw [closingTagFrom_of_no_markup name n depth (not_mem_of_allBlank hgap (by decide)),
      closingTagFrom_selfClosing hname hx htext, ih]
    congr 1
    simp only [List.length_append, List.length_cons, List.length_nil]
    omega
  | @element ownLines inner levels gap tag text children content nodes rest hgap hx _ _ htext _ _ _
      ihc ih =>
    simp only [List.append_assoc, List.cons_append]
    rw [closingTagFrom_of_no_markup name n depth (not_mem_of_allBlank hgap (by decide)),
      closingTagFrom_openTag hname hx htext, ihc]
    by_cases hxn : tag.name = name
    · rw [if_pos hxn, hxn, closingTagFrom_closer]
      dsimp only
      rw [ih]
      congr 1
      simp only [List.length_append, List.length_cons, List.length_nil]
      omega
    · rw [if_neg hxn, closingTagFrom_otherCloser hname hx hxn, ih]
      congr 1
      simp only [List.length_append, List.length_cons, List.length_nil]
      omega

/-- The content of an element ends where it was written to end. -/
theorem Spelt.closingTag? (h : Spelt settings ownLines levels nodes t) {name : List Char}
    (hname : IsTagName name) (behind : List Char) :
    closingTag? name (t ++ (tagCloser name ++ behind)) = some t.length := by
  rw [Template.closingTag?, h.closingTagFrom hname, closingTagFrom_closer, Nat.zero_add]

/-! ### Code sections -/

theorem endsExpression_append {s rest : List Char} (hs : endsExpression s = true)
    (hrest : rest.head?.all (· == '<') = true) : endsExpression (s ++ rest) = true := by
  have markup : ∀ c, rest.head? = some c → c = '<' := fun c hc => by simpa [hc] using hrest
  match s with
  | [] =>
    cases rest with
    | nil => rfl
    | cons c rest =>
      obtain rfl := markup c rfl
      rfl
  | [c] =>
    cases rest with
    | nil => exact hs
    | cons d rest =>
      obtain rfl := markup d rfl
      have : isIdentifierStart '<' = false := by decide
      simp_all [endsExpression]
  | c :: d :: s => exact hs

/-- No code section begins in a spelling, at the end of the template or in front of a tag. -/
theorem Spelt.sectionFree (h : Spelt settings ownLines levels nodes t) {behind : List Char}
    (hbehind : behind.head?.all (· == '<') = true) : SectionFree t behind := by
  have mark {name : List Char} (hname : IsTagName name) : '@' ∉ name := by
    intro hmem
    exact absurd (hname.chars '@' hmem) (by decide +kernel)
  have blank {gap : List Char} (hgap : allBlank gap = true) (rest : List Char) :
      SectionFree gap rest :=
    sectionFree_of_not_mem (not_mem_of_allBlank hgap (by decide)) rest
  induction h generalizing behind with
  | blank hgap => exact blank hgap behind
  | text hpiece _ _ _ _ _ _ ih =>
    exact (sectionFree_of_not_mem hpiece.no_mark _).append (ih hbehind)
  | @expression ownLines levels gap code span nodes rest hgap hcode hends _ _ ih =>
    have expression := (hcode.sectionFree (endsExpression_append hends hbehind)).append (ih hbehind)
    exact (blank hgap _).append expression
  | @line ownLines levels gap block nodes rest hgap hblock hend _ ih =>
    -- a line feed or a bracket follows, not the word of a section
    have ends : (rest ++ behind).head? ≠ some 'c' := by
      cases rest with
      | nil =>
        intro hc
        rw [List.nil_append] at hc
        simp [hc] at hbehind
      | cons d rest =>
        intro hc
        obtain rfl : d = 'c' := by simpa using hc
        simp at hend
    exact (blank hgap _).append ((hblock.sectionFree ends).append (ih hbehind))
  | @declaration ownLines levels gap name span nodes rest hgap hname _ ih =>
    have held : '@' ∉ '<' :: '!' :: (name ++ ['>']) := by simp [hname.no_mark]
    exact (blank hgap _).append ((sectionFree_of_not_mem held _).append (ih hbehind))
  | @selfClosing ownLines levels gap tag text nodes rest hgap hx htext _ ih =>
    have opened : '@' ∉ '<' :: tag.name := by simp [mark hx]
    have tail : SectionFree ('/' :: '>' :: rest) behind :=
      (sectionFree_of_not_mem (s := ['/', '>']) (by decide) _).append (ih hbehind)
    exact (blank hgap _).append
      ((sectionFree_of_not_mem opened _).append ((htext.sectionFree rfl).append tail))
  | @element ownLines inner levels gap tag text children content nodes rest hgap hx _ _ htext _ _ _
      ihc ih =>
    have opened : '@' ∉ '<' :: tag.name := by simp [mark hx]
    have closed : '@' ∉ tagCloser tag.name := by simp [tagCloser, mark hx]
    have tail : SectionFree ('>' :: (content ++ (tagCloser tag.name ++ rest))) behind :=
      (sectionFree_of_not_mem (s := ['>']) (by decide) _).append
        ((ihc (by simp [tagCloser])).append
          ((sectionFree_of_not_mem closed _).append (ih hbehind)))
    exact (blank hgap _).append
      ((sectionFree_of_not_mem opened _).append ((htext.sectionFree rfl).append tail))

/-! ### Reading -/

/-- The nodes that come back when nodes are laid out and read again. Gaps are the same where they
show, and neighbours can be told apart once more. -/
inductive Reread (settings : Settings) : Bool → List Node → List Node → Prop
  | nil {ownLines : Bool} : Reread settings ownLines [] []
  | text {ownLines : Bool} {content piece : List Char} {span span' : Span}
    {nodes nodes' : List Node} (hpiece : IsText piece) (hsame : SameText ownLines content piece)
    (hgap : ∀ next ∈ nodes'.head?, GapBehind ownLines (.text content span) nodes
      (separated (.text piece span') next))
    (hapart : nodes'.head?.all (apart (.text piece span')) = true)
    (hrest : Reread settings ownLines nodes nodes') :
    Reread settings ownLines (.text content span :: nodes) (.text piece span' :: nodes')
  | expression {ownLines : Bool} {code : List Char} {span span' : Span} {nodes nodes' : List Node}
    (hgap : ∀ next ∈ nodes'.head?, GapBehind ownLines (.code ⟨.expression, code, span⟩) nodes
      (separated (.code ⟨.expression, code, span'⟩) next))
    (hapart : nodes'.head?.all (apart (.code ⟨.expression, code, span'⟩)) = true)
    (hrest : Reread settings ownLines nodes nodes') :
    Reread settings ownLines (.code ⟨.expression, code, span⟩ :: nodes)
      (.code ⟨.expression, code, span'⟩ :: nodes')
  | line {ownLines : Bool} {block : CodeBlock} {span : Span} {nodes nodes' : List Node}
    (hblock : IsLine block) (hrest : Reread settings ownLines nodes nodes') :
    Reread settings ownLines (.code block :: nodes) (.code { block with span := span } :: nodes')
  | declaration {ownLines : Bool} {content : List Char} {span span' : Span}
    {nodes nodes' : List Node} (hrest : Reread settings ownLines nodes nodes') :
    Reread settings ownLines (.declaration content span :: nodes)
      (.declaration content span' :: nodes')
  | selfClosing {ownLines : Bool} {tag : Tag} {span : Span} {nodes nodes' : List Node}
    (hrest : Reread settings ownLines nodes nodes') :
    Reread settings ownLines (.selfClosing tag :: nodes)
      (.selfClosing ⟨tag.name, orderedAttributes settings tag.attributes, span⟩ :: nodes')
  | element {ownLines inner : Bool} {tag : Tag} {span : Span}
    {children children' nodes nodes' : List Node}
    (hinner : inner = (children.any Node.isBlock || contentBreaks settings tag))
    (hchildren : Reread settings inner children children')
    (hrest : Reread settings ownLines nodes nodes') :
    Reread settings ownLines (.element tag children :: nodes)
      (.element ⟨tag.name, orderedAttributes settings tag.attributes, span⟩ children' :: nodes')

variable {nodes' : List Node}

/-- The nodes that come back begin as the others do. -/
theorem Reread.isText_head? (h : Reread settings ownLines nodes nodes') :
    nodes'.head?.any Node.isText = nodes.head?.any Node.isText := by
  cases h <;> rfl

theorem mergeTexts_text {content : List Char} (hcontent : allBlank content = false) (span : Span)
    {nodes : List Node} (hnodes : (Node.mergeTexts nodes).head?.any Node.isText = false) :
    Node.mergeTexts (.text content span :: nodes)
      = .text content span :: Node.mergeTexts nodes := by
  rw [Node.mergeTexts, List.foldr_cons, ← Node.mergeTexts]
  unfold Node.mergeOnto
  dsimp only
  rw [if_neg (by simp [hcontent])]
  split
  · simp_all [Node.isText]
  · rfl

theorem mergeTexts_blank {gap : List Char} (hgap : allBlank gap = true) (span : Span)
    (nodes : List Node) :
    Node.mergeTexts (.text gap span :: nodes) = Node.mergeTexts nodes := by
  rw [Node.mergeTexts, List.foldr_cons, ← Node.mergeTexts]
  unfold Node.mergeOnto
  dsimp only
  rw [if_pos hgap]

theorem mergeTexts_cons {node : Node} (hnode : node.isText = false) (nodes : List Node) :
    Node.mergeTexts (node :: nodes) = node :: Node.mergeTexts nodes := by
  cases node <;> simp_all [Node.mergeTexts, Node.mergeOnto, Node.isText]

/-- Code may begin where the text goes on: no letter is in front of it. -/
def Ready (p : Progress) (t : List Char) : Prop :=
  t.head? = some '@' → (!p.afterExpression && p.previous.any isLetterOrDigit) = false

/-- A node that is the first one read from a text: it begins at once, or behind the blanks that the
text begins with. -/
structure HeadAt (pos : Nat) (t : List Char) (node : Node) : Prop where
  le_start : pos ≤ node.span.start
  gap_eq : (startsBlank node || decide (pos < node.span.start)) = t.head?.any isBlank
  text_initial : ∀ content span, node = .text content span → content <+: t

/-- What reading `t` from any state of progress adds, blank texts left out, is `nodes` again. -/
def ReadsAs (settings : Settings) (ownLines : Bool) (levels : Nat) (nodes : List Node)
    (t : List Char) : Prop :=
  ∀ p : Progress, Ready p t → ∃ read : List Node,
    (advance (contentStep (readContent levels)) 0 p t).1.nodes = read.reverse ++ p.nodes ∧
    Reread settings ownLines nodes (Node.mergeTexts read) ∧
    ∀ next ∈ (Node.mergeTexts read).head?, HeadAt p.pos t next

theorem ReadsAs.reread (h : ReadsAs settings ownLines levels nodes t) (pos : Nat) :
    Reread settings ownLines nodes (readContent (levels + 1) pos t) := by
  obtain ⟨read, hread, hnodes, -⟩ := h { pos } fun _ => by simp
  rw [readContent]
  dsimp only
  rw [hread, List.append_nil, List.reverse_reverse]
  exact hnodes

theorem isLetterOrDigit_of_isBlank {c : Char} (h : isBlank c = true) :
    isLetterOrDigit c = false := by
  have := isAttributeNameChar_of_isBlank h
  simp_all [isAttributeNameChar, isTagNameChar]

/-- Blanks in front of a spelling are passed over. -/
theorem ReadsAs.blank_append (h : ReadsAs settings ownLines levels nodes t) {gap : List Char}
    (hgap : allBlank gap = true) (hstop : mayStop t = true)
    (hnodes : nodes.head?.any Node.isText = false) :
    ReadsAs settings ownLines levels nodes (gap ++ t) := by
  intro p hready
  by_cases hne : gap = []
  · subst hne
    exact h p hready
  · -- the blanks are a text of their own, which is left out when texts are merged
    have hstep := advance_contentStep_text (readContent levels) p
      (not_mem_of_allBlank hgap (by decide)) (not_mem_of_allBlank hgap (by decide)) hne hstop
    obtain ⟨read, hread, hreread, hhead⟩ := h _ (fun _ => by
      have hlast : isLetterOrDigit (gap.getLast hne) = false :=
        isLetterOrDigit_of_isBlank (allBlank_iff.1 hgap _ (List.getLast_mem hne))
      simp [List.getLast?_eq_some_getLast hne, hlast] : Ready ⟨p.pos + byteLength gap,
        gap.getLast?, false, .text gap ⟨p.pos, p.pos + byteLength gap⟩ :: p.nodes⟩ t)
    refine ⟨.text gap ⟨p.pos, p.pos + byteLength gap⟩ :: read, ?_, ?_, ?_⟩
    · rw [hstep, hread]
      simp
    · rwa [mergeTexts_blank hgap]
    · intro next hnext
      rw [mergeTexts_blank hgap] at hnext
      have start := (hhead next hnext).le_start
      have text : next.isText = false := by
        have := hreread.isText_head?
        rw [hnodes, Option.mem_def.1 hnext] at this
        simpa using this
      obtain ⟨c, gap, rfl⟩ := List.exists_cons_of_ne_nil hne
      have hc : isBlank c = true := allBlank_iff.1 hgap c List.mem_cons_self
      have hsize := c.utf8Size_pos
      simp only [byteLength_cons] at start
      refine ⟨by omega, ?_, ?_⟩
      · have : p.pos < next.span.start := by omega
        simp [this, hc]
      · rintro content span rfl
        simp [Node.isText] at text

/-- A node in front of a spelling, if it is read from `s` wherever it stands. -/
theorem ReadsAs.cons {s rest : List Char} (hs : ∃ c s', s = c :: s' ∧ isBlank c = false)
    (h : ReadsAs settings ownLines levels nodes rest)
    (hread : ∀ p, Ready p (s ++ rest) → ∃ node, node.isText = false ∧ node.span.start = p.pos ∧
      advance (contentStep (readContent levels)) 0 p (s ++ rest)
        = advance (contentStep (readContent levels)) 0
            ⟨p.pos + byteLength s, s.getLast?, node.isExpression, node :: p.nodes⟩ rest ∧
      (rest.head? = some '@' →
        (!node.isExpression && s.getLast?.any isLetterOrDigit) = false) ∧
      ∀ read, Reread settings ownLines nodes read →
        (∀ next ∈ read.head?, HeadAt (p.pos + byteLength s) rest next) →
        Reread settings ownLines nodes' (node :: read)) :
    ReadsAs settings ownLines levels nodes' (s ++ rest) := by
  intro p hready
  obtain ⟨node, htext, hstart, hstep, hnext, hcons⟩ := hread p hready
  have ready : Ready ⟨p.pos + byteLength s, s.getLast?, node.isExpression, node :: p.nodes⟩ rest :=
    hnext
  obtain ⟨read, hread, hreread, hhead⟩ := h _ ready
  refine ⟨node :: read, ?_, ?_, ?_⟩
  · rw [hstep, hread]
    simp
  · rw [mergeTexts_cons htext]
    exact hcons _ hreread hhead
  · rw [mergeTexts_cons htext]
    intro next hnext
    obtain rfl : node = next := by simpa using hnext
    -- a node that is no text begins where the reader stands, without a gap
    obtain ⟨c, s', rfl, hc⟩ := hs
    refine ⟨hstart.ge, ?_, ?_⟩
    · cases node <;> simp_all [startsBlank, Node.isText]
    · rintro content span rfl
      simp [Node.isText] at htext

/-- Markup ends with a bracket, behind which code may begin. -/
theorem ready_of_bracket (s : List Char) (isExpression : Bool) :
    (!isExpression && (s ++ ['>']).getLast?.any isLetterOrDigit) = false := by
  have : isLetterOrDigit '>' = false := by decide +kernel
  simp [this]

/-- At the deepest level no markup is spelt. -/
theorem Spelt.eq_nil (h : Spelt settings ownLines 0 nodes t)
    (hnodes : nodes.head?.any Node.isText = false) (hstop : mayStop t = true) :
    nodes = [] ∧ t = [] := by
  cases h with
  | blank hgap =>
    refine ⟨rfl, ?_⟩
    cases t with
    | nil => rfl
    | cons c t =>
      -- a blank may not stand where markup or code begins
      have hc := allBlank_iff.1 hgap c List.mem_cons_self
      rcases head?_of_mayStop hstop c rfl with rfl | rfl
      · exact absurd hc (by decide)
      · exact absurd hc (by decide)
  | text => simp [Node.isText] at hnodes

theorem separated_expression {code : List Char} {start stop : Nat} {t : List Char} {next : Node}
    (h : HeadAt stop t next) :
    separated (.code ⟨.expression, code, ⟨start, stop⟩⟩) next = t.head?.any isBlank := by
  rw [← h.gap_eq]
  rfl

theorem separated_text {content : List Char} {start stop : Nat} {t : List Char} {next : Node}
    (hstop : mayStop t = true) (h : HeadAt stop t next) :
    separated (.text content ⟨start, stop⟩) next = content.getLast?.any isBlank := by
  have none : t.head?.any isBlank = false := by
    cases t with
    | nil => rfl
    | cons c t => rcases head?_of_mayStop hstop c rfl with rfl | rfl <;> rfl
  have gap := h.gap_eq
  rw [none, Bool.or_eq_false_iff] at gap
  change (content.getLast?.any isBlank || startsBlank next || decide (stop < next.span.start)) = _
  rw [gap.1, gap.2, Bool.or_false, Bool.or_false]

theorem Reread.isExpression_head? (h : Reread settings ownLines nodes nodes') :
    nodes'.head?.any Node.isExpression = nodes.head?.any Node.isExpression := by
  cases h <;> rfl

/-- A spelling that begins with an expression begins with its mark. -/
theorem Spelt.head?_of_isExpression (h : Spelt settings ownLines levels nodes t)
    (hnodes : nodes.head?.any Node.isExpression = true) (hstop : mayStop t = true) :
    t.head? = some '@' := by
  cases h with
  | @expression _ _ gap code span nodes rest hgap hcode hends hbehind hrest =>
    cases gap with
    | nil => rfl
    | cons c gap =>
      have hc := allBlank_iff.1 hgap c List.mem_cons_self
      rcases head?_of_mayStop hstop c rfl with rfl | rfl
      · exact absurd hc (by decide)
      · rfl
  | line hgap hblock => cases hblock <;> simp [Node.isExpression] at hnodes
  | blank | text | declaration | selfClosing | element => simp [Node.isExpression] at hnodes

theorem endsExpression_of_initial {content s : List Char} (h : content <+: s)
    (hs : endsExpression s = true) : endsExpression content = true := by
  obtain ⟨rest, rfl⟩ := h
  match content with
  | [] => rfl
  | [c] =>
    cases rest with
    | nil => exact hs
    | cons d rest => simp_all [endsExpression]
  | c :: d :: content => exact hs

/-- A text in front of a spelling. -/
theorem ReadsAs.text {content piece rest : List Char} {span : Span} (hpiece : IsText piece)
    (hsame : SameText ownLines content piece) (hnext : nodes.head?.any Node.isText = false)
    (hbehind : GapBehind ownLines (.text content span) nodes (piece.getLast?.any isBlank))
    (hmark : rest.head? = some '@' → piece.getLast?.any isLetterOrDigit = false)
    (hstop : mayStop rest = true)
    (hexpression : nodes.head?.any Node.isExpression = true → rest.head? = some '@')
    (h : ReadsAs settings ownLines levels nodes rest) :
    ReadsAs settings ownLines levels (.text content span :: nodes) (piece ++ rest) := by
  intro p hready
  have hstep := advance_contentStep_text (readContent levels) p hpiece.no_markup hpiece.no_mark
    hpiece.ne_nil hstop
  have ready : Ready ⟨p.pos + byteLength piece, piece.getLast?, false,
      .text piece ⟨p.pos, p.pos + byteLength piece⟩ :: p.nodes⟩ rest := by
    intro hat
    simp [hmark hat]
  obtain ⟨read, hread, hreread, hhead⟩ := h _ ready
  have merged := mergeTexts_text hpiece.not_blank ⟨p.pos, p.pos + byteLength piece⟩
    (by rw [hreread.isText_head?, hnext])
  refine ⟨.text piece ⟨p.pos, p.pos + byteLength piece⟩ :: read, ?_, ?_, ?_⟩
  · rw [hstep, hread]
    simp
  · rw [merged]
    refine .text hpiece hsame (fun next hnext => ?_) ?_ hreread
    · rw [separated_text hstop (hhead next hnext)]
      exact hbehind
    · rw [Option.all_eq_true]
      intro next hhead
      have text := hreread.isText_head?
      have expression := hreread.isExpression_head?
      rw [hhead] at text expression
      refine apart_text (by simpa [hnext] using text) fun hnext => ?_
      exact hmark (hexpression (by simpa [hnext] using expression.symm))
  · rw [merged]
    intro next hnext
    obtain rfl : Node.text piece ⟨p.pos, p.pos + byteLength piece⟩ = next := by simpa using hnext
    obtain ⟨c, s, hpiece⟩ := List.exists_cons_of_ne_nil hpiece.ne_nil
    refine ⟨Nat.le_refl _, ?_, ?_⟩
    · simp [startsBlank, Node.span, hpiece]
    · rintro content' span' heq
      obtain ⟨rfl, -⟩ := Node.text.inj heq
      exact List.prefix_append ..

/-- An expression in front of a spelling that does not go on with it. -/
theorem ReadsAs.expression {code rest : List Char} {span : Span} (hcode : IsExpression code)
    (hends : endsExpression rest = true)
    (hbehind : GapBehind ownLines (.code ⟨.expression, code, span⟩) nodes (rest.head?.any isBlank))
    (h : ReadsAs settings ownLines levels nodes rest) :
    ReadsAs settings ownLines levels (.code ⟨.expression, code, span⟩ :: nodes)
      ('@' :: (code ++ rest)) := by
  refine ReadsAs.cons (s := '@' :: code) ⟨'@', code, rfl, by decide⟩ h fun p hready => ?_
  refine ⟨.code ⟨.expression, code, ⟨p.pos, p.pos + byteLength ('@' :: code)⟩⟩, rfl, rfl,
    advance_contentStep_code _ (hcode.readRazor?_eq hends p.pos (hready rfl)), ?_, ?_⟩
  · simp [Node.isExpression]
  · intro read hreread hhead
    refine .expression (fun next hnext => ?_) ?_ hreread
    · rw [separated_expression (hhead next hnext)]
      exact hbehind
    · rw [Option.all_eq_true]
      intro next hnext
      refine apart_code fun content' span' hcontent => ?_
      -- a text that comes next is a beginning of what ends the expression
      have begins := (hhead next hnext).text_initial content' span' hcontent
      exact endsExpression_of_initial begins hends

/-- A directive or a comment, up to the end of its line. -/
theorem ReadsAs.line {block : CodeBlock} {rest : List Char} (hblock : IsLine block)
    (hend : rest.head?.all (· == '\n') = true) (h : ReadsAs settings ownLines levels nodes rest) :
    ReadsAs settings ownLines levels (.code block :: nodes) ('@' :: (block.code ++ rest)) := by
  refine ReadsAs.cons (s := '@' :: block.code) ⟨'@', block.code, rfl, by decide⟩ h
    fun p hready => ?_
  refine ⟨.code { block with span := ⟨p.pos, p.pos + byteLength ('@' :: block.code)⟩ }, rfl, rfl,
    advance_contentStep_code _ (hblock.readRazor?_eq hend p.pos (hready rfl)), ?_, ?_⟩
  · intro hat
    simp [hat] at hend
  · exact fun read hreread _ => .line hblock hreread

theorem ReadsAs.declaration {name rest : List Char} (span : Span) (hname : IsDeclaration name)
    (h : ReadsAs settings ownLines levels nodes rest) :
    ReadsAs settings ownLines levels (.declaration ('<' :: '!' :: (name ++ ['>'])) span :: nodes)
      ('<' :: '!' :: (name ++ ['>']) ++ rest) := by
  refine ReadsAs.cons ⟨'<', _, rfl, by decide⟩ h fun p _ => ?_
  obtain ⟨stop, hread⟩ := readMarkup?_declaration (readContent levels) p.pos hname rest
  refine ⟨_, rfl, rfl, advance_contentStep_markup hread, ?_, ?_⟩
  · intro _
    exact ready_of_bracket ('<' :: '!' :: name) false
  · exact fun read hreread _ => .declaration hreread

theorem ReadsAs.selfClosing {tag : Tag} {text rest : List Char} (hname : IsTagName tag.name)
    (htext : SpeltAttributes (orderedAttributes settings tag.attributes) text)
    (h : ReadsAs settings ownLines levels nodes rest) :
    ReadsAs settings ownLines levels (.selfClosing tag :: nodes)
      ('<' :: (tag.name ++ (text ++ '/' :: '>' :: rest))) := by
  rw [show '<' :: (tag.name ++ (text ++ '/' :: '>' :: rest))
    = ('<' :: (tag.name ++ (text ++ ['/', '>']))) ++ rest by simp]
  refine ReadsAs.cons ⟨'<', _, rfl, by decide⟩ h fun p _ => ?_
  obtain ⟨stop, hread⟩ := readMarkup?_selfClosing (readContent levels) p.pos hname htext rest
  have taken : readMarkup? (readContent levels) p.pos
      ('<' :: (tag.name ++ (text ++ ['/', '>'])) ++ rest)
      = some (.selfClosing ⟨tag.name, orderedAttributes settings tag.attributes, ⟨p.pos, stop⟩⟩,
          ('<' :: (tag.name ++ (text ++ ['/', '>']))).length) := by
    rw [show '<' :: (tag.name ++ (text ++ ['/', '>'])) ++ rest
      = '<' :: (tag.name ++ (text ++ '/' :: '>' :: rest)) by simp, hread]
    simp only [List.length_cons, List.length_append, List.length_nil, Option.some.injEq,
      Prod.mk.injEq, true_and]
    omega
  refine ⟨_, rfl, rfl, advance_contentStep_markup taken, ?_, ?_⟩
  · intro _
    rw [show '<' :: (tag.name ++ (text ++ ['/', '>']))
      = ('<' :: (tag.name ++ (text ++ ['/']))) ++ ['>'] by simp]
    exact ready_of_bracket _ false
  · exact fun read hreread _ => .selfClosing hreread

/-- An element in front of a spelling, if its content is read wherever it stands. -/
theorem ReadsAs.element {inner : Bool} {tag : Tag} {text content rest : List Char}
    {children : List Node} (hname : IsTagName tag.name) (hvoid : isVoid tag.name = false)
    (hraw : isRawText tag.name = false)
    (htext : SpeltAttributes (orderedAttributes settings tag.attributes) text)
    (hinner : inner = (children.any Node.isBlock || contentBreaks settings tag))
    (hclosing : closingTag? tag.name (content ++ (tagCloser tag.name ++ rest))
      = some content.length)
    (hcontent : ∀ pos, Reread settings inner children (readContent levels pos content))
    (h : ReadsAs settings ownLines levels nodes rest) :
    ReadsAs settings ownLines levels (.element tag children :: nodes)
      ('<' :: (tag.name ++ (text ++ '>' :: (content ++ (tagCloser tag.name ++ rest))))) := by
  rw [show '<' :: (tag.name ++ (text ++ '>' :: (content ++ (tagCloser tag.name ++ rest))))
    = ('<' :: (tag.name ++ (text ++ '>' :: (content ++ tagCloser tag.name)))) ++ rest by simp]
  refine ReadsAs.cons ⟨'<', _, rfl, by decide⟩ h fun p _ => ?_
  obtain ⟨stop, start, hread⟩ := readMarkup?_element (readContent levels) p.pos hname hvoid hraw
    htext hclosing
  have taken : readMarkup? (readContent levels) p.pos
      ('<' :: (tag.name ++ (text ++ '>' :: (content ++ tagCloser tag.name))) ++ rest)
      = some (.element ⟨tag.name, orderedAttributes settings tag.attributes, ⟨p.pos, stop⟩⟩
          (readContent levels start content),
          ('<' :: (tag.name ++ (text ++ '>' :: (content ++ tagCloser tag.name)))).length) := by
    rw [show '<' :: (tag.name ++ (text ++ '>' :: (content ++ tagCloser tag.name))) ++ rest
      = '<' :: (tag.name ++ (text ++ '>' :: (content ++ (tagCloser tag.name ++ rest)))) by simp,
      hread]
    simp only [List.length_cons, List.length_append, Option.some.injEq, Prod.mk.injEq, true_and]
    omega
  refine ⟨_, rfl, rfl, advance_contentStep_markup taken, ?_, ?_⟩
  · intro _
    rw [show '<' :: (tag.name ++ (text ++ '>' :: (content ++ tagCloser tag.name)))
      = ('<' :: (tag.name ++ (text ++ '>' :: (content ++ '<' :: '/' :: tag.name)))) ++ ['>'] by
        simp [tagCloser]]
    exact ready_of_bracket _ false
  · exact fun read hreread _ => .element hinner (hcontent start) hreread

/-- A spelling is read as the nodes that it spells, at any level that is deep enough. -/
theorem Spelt.readsAs (h : Spelt settings ownLines levels nodes t) :
    (∀ pos, Reread settings ownLines nodes (readContent levels pos t)) ∧
    ∀ l, levels = l + 1 → ReadsAs settings ownLines l nodes t := by
  -- markup and code are read only above the deepest level
  have below {ownLines : Bool} {levels : Nat} {nodes : List Node} {t : List Char}
      (reads : ReadsAs settings ownLines levels nodes t) :
      (∀ pos, Reread settings ownLines nodes (readContent (levels + 1) pos t)) ∧
      ∀ l, levels + 1 = l + 1 → ReadsAs settings ownLines l nodes t := by
    refine ⟨reads.reread, fun l hl => ?_⟩
    obtain rfl : levels = l := by omega
    exact reads
  induction h with
  | @blank ownLines levels gap hgap =>
    have reads (l : Nat) : ReadsAs settings ownLines l [] gap := by
      have none : ReadsAs settings ownLines l [] [] := by
        intro p _
        refine ⟨[], rfl, .nil, fun next hnext => ?_⟩
        exact absurd hnext (Option.not_mem_none next)
      simpa using none.blank_append hgap rfl rfl
    refine ⟨fun pos => ?_, fun l _ => reads l⟩
    cases levels with
    | zero =>
      rw [readContent, literal, List.take_length, mergeTexts_blank hgap]
      exact .nil
    | succ levels => exact (reads levels).reread pos
  | @text ownLines levels content piece span nodes rest hpiece hsame hnext hbehind hmark hstop hrest
      ih =>
    have reads (l : Nat) (hl : levels = l + 1) :
        ReadsAs settings ownLines l (.text content span :: nodes) (piece ++ rest) :=
      (ih.2 l hl).text hpiece hsame hnext hbehind hmark hstop fun hexpression =>
        hrest.head?_of_isExpression hexpression hstop
    refine ⟨fun pos => ?_, reads⟩
    cases levels with
    | zero =>
      -- at the deepest level a text is all there is
      obtain ⟨rfl, rfl⟩ := hrest.eq_nil hnext hstop
      rw [readContent, literal, List.take_length, List.append_nil, mergeTexts_text hpiece.not_blank]
      · refine .text hpiece hsame (fun next hnext => ?_) rfl .nil
        exact absurd hnext (Option.not_mem_none next)
      · rfl
    | succ levels => exact (reads levels rfl).reread pos
  | expression hgap hcode hends hbehind _ ih =>
    exact below (((ih.2 _ rfl).expression hcode hends hbehind).blank_append hgap rfl rfl)
  | line hgap hblock hend _ ih =>
    exact below (((ih.2 _ rfl).line hblock hend).blank_append hgap rfl rfl)
  | @declaration _ _ _ _ span _ _ hgap hname _ ih =>
    exact below (((ih.2 _ rfl).declaration span hname).blank_append hgap rfl rfl)
  | selfClosing hgap hname htext _ ih =>
    exact below (((ih.2 _ rfl).selfClosing hname htext).blank_append hgap rfl rfl)
  | @element _ _ _ _ _ _ _ _ _ rest hgap hname hvoid hraw htext hinner hchildren _ ihc ih =>
    have hclosing := hchildren.closingTag? hname rest
    exact below (((ih.2 _ rfl).element hname hvoid hraw htext hinner hclosing
      ihc.1).blank_append hgap rfl rfl)

/-- A spelling is a document that is read as the nodes that it spells. -/
theorem Spelt.reread (h : Spelt settings ownLines (maxNesting + 1) nodes t) :
    Reread settings ownLines nodes (readDocument t) := by
  rw [readDocument_of_sectionFree (h.sectionFree rfl)]
  exact h.readsAs.1 0

end RazorLayout.Layout

import RazorLayout.Proofs.Code.Lines
import RazorLayout.Proofs.Layout.Snippet
import RazorLayout.Proofs.Template.CodeSection

/-!
# Code sections are laid out once and for all

A template that is one code section or one inline block is written as its opening, the lines of
its body one unit to the right, and its closing brace on a line of its own. What is written is the
same template again: its braces match because the body has the same lines, it is read as one node
of the same kind, and its body becomes the same lines.

## Main definitions

* `writtenBody`: what is written between the braces

## Main results

* `format_of_inlineBlock`, `format_of_codeSection`: the layout of such a template
* `matchCode?_writtenBody`: the braces around the written body match
* `format_format_of_braces`: laying out such a template again changes nothing
-/

namespace RazorLayout.Layout

open Text Template Code

/-! ### Writing -/

namespace Buffer

variable {b : Buffer}

theorem writeLine_eq (hb : b.pending = []) (l : List Char) :
    b.writeLine l = { b with committed := b.committed.push (setIn b.indentation l) } := by
  have finished : b.finishLine = b := by simp [finishLine, hb]
  rw [writeLine, finished]
  rfl

theorem writeLines_eq (hb : b.pending = []) (ls : List (List Char)) :
    b.writeLines ls
      = { b with committed := b.committed ++ (ls.map (setIn b.indentation)).toArray } := by
  induction ls generalizing b with
  | nil => simp [writeLines]
  | cons l ls ih =>
    have rest := ih (b := b.writeLine l) (by simp)
    rw [writeLines, List.foldl_cons, ← writeLines, rest, writeLine_eq hb]
    simp [indentation]

end Buffer

/-- The lines of a body as they are written. -/
def bodyLines (settings : Settings) (body : List Char) : List (List Char) :=
  (snippetLines settings Code.indent .csharp body).map (setIn settings.indentUnit)

theorem lines_writeSnippet (settings : Settings) (body : List Char) {b : Buffer}
    (hpending : b.pending = []) (hunit : b.unit = settings.indentUnit) (hlevel : b.level = 0) :
    (writeSnippet ⟨settings, Code.indent⟩ .csharp body b).writeLine ['}']
      = { b with committed := b.committed ++ (bodyLines settings body ++ [['}']]).toArray } := by
  obtain ⟨unit, committed, pending, level⟩ := b
  obtain rfl : pending = [] := hpending
  obtain rfl : unit = settings.indentUnit := hunit
  obtain rfl : level = 0 := hlevel
  rw [writeSnippet, Buffer.writeLines_eq rfl, Buffer.writeLine_eq rfl]
  simp [Buffer.indent, Buffer.dedent, Buffer.indentation, Code.indentation, bodyLines, setIn]

theorem output_write_inlineBlock (settings : Settings) (body : List Char) (span : Span) :
    (write ⟨settings, Code.indent⟩ [.code ⟨.inlineBlock, body, span⟩]
      (Buffer.new settings)).output
      = unlines ("@\x7b".toList :: bodyLines settings body ++ [['}']]) := by
  have opened : (Buffer.new settings).writeLine ['@', '{']
      = { Buffer.new settings with committed := #[['@', '{']] } := rfl
  have written : write ⟨settings, Code.indent⟩ [.code ⟨.inlineBlock, body, span⟩]
      (Buffer.new settings)
      = (writeSnippet ⟨settings, Code.indent⟩ .csharp body
          ((Buffer.new settings).writeLine ['@', '{'])).writeLine ['}'] := rfl
  rw [written, opened, lines_writeSnippet settings body rfl rfl rfl]
  simp [Buffer.output, Buffer.toLines, Buffer.finishLine, Buffer.lines, Buffer.new]

theorem isSection_sectionWord (body : List Char) (span : Span) :
    CodeBlock.isSection ⟨.directive, CodeBlock.sectionWord ++ body, span⟩ = true := by
  simp [CodeBlock.isSection]

theorem output_write_codeSection (settings : Settings) (body : List Char) (span : Span) :
    (write ⟨settings, Code.indent⟩ [.code ⟨.directive, CodeBlock.sectionWord ++ body, span⟩]
      (Buffer.new settings)).output
      = unlines ("@code".toList :: ['{'] :: bodyLines settings body ++ [['}']]) := by
  have opened : ((Buffer.new settings).writeLine "@code".toList).writeLine ['{']
      = { Buffer.new settings with committed := #["@code".toList, ['{']] } := rfl
  have written : write ⟨settings, Code.indent⟩
      [.code ⟨.directive, CodeBlock.sectionWord ++ body, span⟩] (Buffer.new settings)
      = (writeSnippet ⟨settings, Code.indent⟩ .csharp body
          (((Buffer.new settings).writeLine "@code".toList).writeLine ['{'])).writeLine ['}'] := by
    change writeCode ⟨settings, Code.indent⟩
      ⟨.directive, CodeBlock.sectionWord ++ body, span⟩ (Buffer.new settings) = _
    rw [writeCode]
    dsimp only
    rw [if_pos (isSection_sectionWord body span), List.drop_left]
    rfl
  rw [written, opened, lines_writeSnippet settings body rfl rfl rfl]
  simp [Buffer.output, Buffer.toLines, Buffer.finishLine, Buffer.lines, Buffer.new]

/-! ### What is written -/

/-- What is written between the braces. -/
def writtenBody (settings : Settings) (body : List Char) : List Char :=
  '\n' :: (bodyLines settings body).flatMap (· ++ ['\n'])

/-- The line feed at the end of the output, if there is to be one. -/
def finalNewline (settings : Settings) : List Char :=
  if settings.insertFinalNewline then ['\n'] else []

theorem allBlank_finalNewline (settings : Settings) : allBlank (finalNewline settings) = true := by
  unfold finalNewline
  split <;> rfl

section Body

variable (settings : Settings) (body : List Char)

theorem indented_bodyLines :
    List.Forall₂ Indented (trimmedLines body) (bodyLines settings body) :=
  forall₂_indented_setIn settings .csharp body

theorem laidOut_bodyLines : LaidOut (bodyLines settings body) :=
  laidOut_of_indented (indented_bodyLines settings body)

theorem cleanUp_braces {opening : List (List Char)} (hopening : ∀ l ∈ opening, TidyLine l) :
    cleanUp settings (unlines (opening ++ bodyLines settings body ++ [['}']]))
      = opening.flatMap (· ++ ['\n']) ++ (bodyLines settings body).flatMap (· ++ ['\n'])
        ++ '}' :: finalNewline settings := by
  have laid := laidOut_bodyLines settings body
  have closing : TidyLine ['}'] := ⟨⟨[], '}', rfl, by decide⟩, by decide⟩
  have line : ∀ l ∈ opening ++ bodyLines settings body ++ [['}']], '\n' ∉ l ∧ trimEnd l = l := by
    intro l hl
    simp only [List.mem_append, List.mem_singleton] at hl
    rcases hl with (hl | hl) | rfl
    · exact ⟨(hopening l hl).one_line, (hopening l hl).ink.trimEnd_eq⟩
    · exact ⟨laid.newline_not_mem hl, laid.trimEnd_eq hl⟩
    · exact ⟨closing.one_line, closing.ink.trimEnd_eq⟩
  have trimmed : (opening ++ bodyLines settings body ++ [['}']]).map trimEnd
      = opening ++ bodyLines settings body ++ [['}']] :=
    (List.map_congr_left fun l hl => (line l hl).2).trans (List.map_id _)
  rw [cleanUp_unlines_of_ink settings (fun l hl => (line l hl).1) trimmed
    (endsWithInk_unlines List.getLast?_concat closing.ink), unlines_concat, List.flatMap_append]
  simp [finalNewline]

theorem lines_writtenBody : lines (writtenBody settings body) = [] :: bodyLines settings body := by
  have first := @lines_append_newline [] (by simp) (by simp)
    ((bodyLines settings body).flatMap (· ++ ['\n']))
  rw [(laidOut_bodyLines settings body).lines_flatMap] at first
  exact first

end Body

/-- The layout of a template that is one inline block. -/
theorem format_of_inlineBlock (settings : Settings) {t body : List Char} {span : Span}
    (h : readDocument t = [.code ⟨.inlineBlock, body, span⟩]) :
    format settings t
      = '@' :: '{' :: (writtenBody settings body ++ '}' :: finalNewline settings) := by
  have opening : ∀ l ∈ ["@\x7b".toList], TidyLine l := by
    rintro l hl
    obtain rfl := List.mem_singleton.1 hl
    exact ⟨⟨['@'], '{', rfl, by decide⟩, by decide⟩
  rw [format, formatWith, h, output_write_inlineBlock]
  exact (cleanUp_braces settings body opening).trans (by simp [writtenBody])

/-- The layout of a template that is one code section. -/
theorem format_of_codeSection (settings : Settings) {t body : List Char} {span : Span}
    (h : readDocument t = [.code ⟨.directive, CodeBlock.sectionWord ++ body, span⟩]) :
    format settings t = "@code".toList ++ ['\n']
      ++ '{' :: (writtenBody settings body ++ '}' :: finalNewline settings) := by
  have opening : ∀ l ∈ ["@code".toList, ['{']], TidyLine l := by
    rintro l hl
    simp only [List.mem_cons, List.not_mem_nil, or_false] at hl
    rcases hl with rfl | rfl
    · exact ⟨⟨"@cod".toList, 'e', rfl, by decide⟩, by decide⟩
    · exact ⟨⟨[], '{', rfl, by decide⟩, by decide⟩
  rw [format, formatWith, h, output_write_codeSection]
  exact (cleanUp_braces settings body opening).trans (by simp [writtenBody])

/-! ### Reading what is written -/

/-- The lines of a text that hold ink are among its trimmed lines. -/
theorem textLines_eq_filter (body : List Char) :
    textLines body = (trimmedLines body).filter fun l => !l.isEmpty := by
  obtain ⟨g, g', hg, hg', hparts⟩ := dropEdges_parts allBlank ((lines body).map trim)
  have none {ls : List (List Char)} (h : ∀ l ∈ ls, allBlank l = true)
      (hmem : ∀ l ∈ ls, l ∈ (lines body).map trim) : ls.filter (fun l => !l.isEmpty) = [] := by
    rw [List.filter_eq_nil_iff]
    intro l hl
    obtain ⟨raw, -, rfl⟩ := List.mem_map.1 (hmem l hl)
    have blank := h _ hl
    rw [allBlank_trim] at blank
    simp [trim_eq_nil_iff.2 blank]
  have front := none hg fun l hl => by rw [hparts]; simp [hl]
  have behind := none hg' fun l hl => by rw [hparts]; simp [hl]
  rw [textLines, hparts, List.filter_append, List.filter_append, front, behind, List.nil_append,
    List.append_nil]
  rfl

theorem textLines_trim (s : List Char) : textLines (trim s) = textLines s := by
  obtain ⟨g, g', hg, hg', hs⟩ := trim_parts s
  conv_rhs => rw [hs, textLines_append_blank _ hg', textLines_blank_append hg]

section Written

variable (settings : Settings) (body : List Char)

/-- What is written has the lines of the body. -/
theorem textLines_writtenBody : textLines (writtenBody settings body) = textLines body := by
  rw [textLines, lines_writtenBody, List.map_cons,
    map_trim_of_indented (indented_bodyLines settings body), textLines_eq_filter]
  rfl

/-- What is written ends with a line feed. -/
theorem writtenBody_eq :
    writtenBody settings body = unlines ([] :: bodyLines settings body) ++ ['\n'] := by
  rw [unlines_append_newline (by simp)]
  rfl

/-- The braces around the written body match. -/
theorem matchCode?_writtenBody {inner : List Char} (hlines : textLines inner = textLines body)
    (h : Bracket.brace.matchCode? ('{' :: (inner ++ ['}'])) = some (inner.length + 1))
    (rest : List Char) :
    Bracket.brace.matchCode? ('{' :: (writtenBody settings body ++ '}' :: rest))
      = some ((writtenBody settings body).length + 1) := by
  have same : textLines inner = textLines (unlines ([] :: bodyLines settings body)) := by
    rw [hlines, ← textLines_writtenBody settings body, writtenBody_eq,
      textLines_append_blank _ (by decide)]
  have closes := Bracket.brace_matchCode?_of_textLines same h rest
  rw [writtenBody_eq, List.append_assoc, List.singleton_append, closes]
  simp

/-- The written body becomes the same lines. -/
theorem bodyLines_writtenBody :
    bodyLines settings (writtenBody settings body) = bodyLines settings body := by
  have framed := (laidOut_bodyLines settings body).framed
  have stripped :
      stripBlankEdges (lines (writtenBody settings body)) = bodyLines settings body := by
    rw [lines_writtenBody, ← List.append_nil (_ :: _)]
    exact framed.dropEdges_append (g := [[]]) (by simp) (by simp)
  rw [bodyLines, snippetLines_of_setIn (by rw [stripped]; rfl)]
  rfl

/-- The written body becomes the same lines when it is trimmed. -/
theorem bodyLines_trim_writtenBody :
    bodyLines settings (trim (writtenBody settings body)) = bodyLines settings body := by
  have laid := laidOut_bodyLines settings body
  -- trimming takes away the margin of the first line, and no other
  have stripped : stripBlankEdges (lines (trim (writtenBody settings body)))
      = (bodyLines settings body).modifyHead trim := by
    rw [writtenBody, laid.lines_trim]
    cases hls : bodyLines settings body with
    | nil => rfl
    | cons x rest =>
      rw [hls] at laid
      exact laid.trim_head.framed.dropEdges_eq
  have trimmed : ((bodyLines settings body).modifyHead trim).modifyHead trim
      = (bodyLines settings body).modifyHead trim := by
    cases bodyLines settings body <;> simp [trim_trim]
  rw [bodyLines, snippetLines_of_setIn (by rw [stripped, trimmed]; rfl)]
  rfl

end Written

/-! ### Laying out twice -/

section Twice

variable (settings : Settings) {inner : List Char}
  (hmatch : Bracket.brace.matchCode? ('{' :: (inner ++ ['}'])) = some (inner.length + 1))

include hmatch

/-- A code section is laid out as a code section, which stays as it is. -/
theorem format_format_codeSection :
    let t := "@code".toList ++ [' '] ++ '{' :: (inner ++ ['}'])
    ∃ code code' span span',
      readDocument t = [.code ⟨.directive, CodeBlock.sectionWord ++ code, span⟩] ∧
      readDocument (format settings t)
        = [.code ⟨.directive, CodeBlock.sectionWord ++ code', span'⟩] ∧
      format settings (format settings t) = format settings t := by
  obtain ⟨span, hread⟩ := readDocument_codeSection (show allBlank [' '] = true by decide) hmatch rfl
  -- the body of a section is trimmed before it becomes lines
  have hclosed := matchCode?_writtenBody settings (trim inner) (textLines_trim inner).symm hmatch
    (finalNewline settings)
  obtain ⟨span', hread'⟩ := readDocument_codeSection (show allBlank ['\n'] = true by decide) hclosed
    (allBlank_finalNewline settings)
  have hformat := format_of_codeSection settings hread
  refine ⟨_, _, span, span', hread, by rw [hformat, hread'], ?_⟩
  rw [hformat, format_of_codeSection settings hread', writtenBody, bodyLines_trim_writtenBody]
  rfl

/-- An inline block is laid out as an inline block, which stays as it is. -/
theorem format_format_inlineBlock (hfree : Opening.codeSection.find? inner = none) :
    let t := '@' :: '{' :: (inner ++ ['}'])
    ∃ code code' span span',
      readDocument t = [.code ⟨.inlineBlock, code, span⟩] ∧
      readDocument (format settings t) = [.code ⟨.inlineBlock, code', span'⟩] ∧
      format settings (format settings t) = format settings t := by
  obtain ⟨span, hread⟩ := readDocument_inlineBlock hfree hmatch rfl
  have hclosed := matchCode?_writtenBody settings inner rfl hmatch (finalNewline settings)
  -- the lines of the block have not changed, and neither have its words
  have hfree' : Opening.codeSection.find? (writtenBody settings inner) = none := by
    refine codeSection_find?_eq_none_of_words ?_ hfree
    rw [words_eq_flatMap_textLines, words_eq_flatMap_textLines (writtenBody settings inner),
      textLines_writtenBody]
  obtain ⟨span', hread'⟩ := readDocument_inlineBlock hfree' hclosed (allBlank_finalNewline settings)
  have hformat := format_of_inlineBlock settings hread
  refine ⟨_, _, span, span', hread, by rw [hformat, hread'], ?_⟩
  rw [hformat, format_of_inlineBlock settings hread', writtenBody, bodyLines_writtenBody]
  rfl

end Twice

/-- A template that is one code section or one inline block is laid out as a template of the same
kind, which stays as it is. This holds when its code is indented, when the indenter refuses it,
and when indentation is switched off. -/
theorem format_format_of_braces (settings : Settings) {opening inner : List Char}
    (hopening : opening = "@code \x7b".toList ∨
      opening = "@\x7b".toList ∧ Opening.codeSection.find? inner = none)
    (hmatch : Bracket.brace.matchCode? ('{' :: (inner ++ ['}'])) = some (inner.length + 1)) :
    let t := opening ++ inner ++ ['}']
    ∃ block block',
      readDocument t = [.code block] ∧ readDocument (format settings t) = [.code block'] ∧
      block'.kind = block.kind ∧ block'.isSection = block.isSection ∧
      format settings (format settings t) = format settings t := by
  rcases hopening with rfl | ⟨rfl, hfree⟩
  · obtain ⟨code, code', span, span', hread, hread', hformat⟩ :=
      format_format_codeSection settings hmatch
    have sections :=
      (isSection_sectionWord code' span').trans (isSection_sectionWord code span).symm
    exact ⟨_, _, hread, hread', rfl, sections, hformat⟩
  · obtain ⟨code, code', span, span', hread, hread', hformat⟩ :=
      format_format_inlineBlock settings hmatch hfree
    exact ⟨_, _, hread, hread', rfl, rfl, hformat⟩

/-- A block that the indenter refuses: a brace and a line end stand in a literal, and a bracket is
open at the end. -/
theorem format_format_of_refused_block :
    let inner := "\n  var s = @\"a\x7d\n     b\";\n  Run(".toList
    let t := "@\x7b".toList ++ inner ++ ['}']
    Opening.codeSection.find? inner = none ∧
      Bracket.brace.matchCode? ('{' :: (inner ++ ['}'])) = some (inner.length + 1) ∧
      Code.indent (Settings.codeStyle {} .csharp) inner = .error (.multilineString 3) ∧
      ∃ block block',
        readDocument t = [.code block] ∧ readDocument (format {} t) = [.code block'] ∧
        block'.kind = block.kind ∧ block'.isSection = block.isSection ∧
        format {} (format {} t) = format {} t :=
  ⟨by decide +kernel, by decide +kernel, by decide +kernel,
    format_format_of_braces {} (.inr ⟨rfl, by decide +kernel⟩) (by decide +kernel)⟩

end RazorLayout.Layout

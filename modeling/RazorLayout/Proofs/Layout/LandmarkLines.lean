import Mathlib.Data.List.Flatten
import RazorLayout.Proofs.Layout.InlineSpacing
import RazorLayout.Proofs.Layout.Output
import RazorLayout.Proofs.Template.Landmark
import RazorLayout.Proofs.Template.OpeningTag

/-!
# The lines of landmarks

A directive is written on a line of its own, with the indentation of its depth in front of it, and a
declaration ends the line that it stands on. No setting breaks them, and they come in the order of
the source.

Writing is followed landmark by landmark: `Buffer.Marked` relates two buffers when the landmarks
that were written in between stand on complete lines behind the first one. What else is written is
known to append only, and marks nothing. A complete line of the buffer can be several lines of the
output, because an expression may hold line feeds; a landmark is on the last of them. Cleaning up
leaves lines alone that have ink at their ends.

## Main definitions

* `ShownBy`: the line of the output that a landmark is shown on
* `Buffer.Marked`: the landmarks that are written between two buffers

## Main results

* `marked_writeNodesAfter`, `marked_write`: nodes mark their landmarks
* `sublist_split_cleanUp`: cleaning up keeps tidy lines
* `format_landmarks`: the lines of the landmarks of a template
-/

namespace RazorLayout.Layout

open Text Template

/-- The line that a landmark is shown on. A directive is all of it but the indentation. A
declaration, from `<` and `!` to `>` and with its runs of blanks as single spaces, ends it. -/
inductive ShownBy (unit : List Char) : Occurrence → List Char → Prop
  | directive {place : List Nat} {source keyword value : List Char} {span : Span}
    (h : IsDirective keyword value) :
    ShownBy unit ⟨place, source, .code ⟨.directive, keyword ++ ' ' :: value, span⟩⟩
      (Code.indentation unit (place.length - 1) ++ '@' :: (keyword ++ ' ' :: value))
  | declaration {place : List Nat} {source gap inner : List Char} {span : Span}
    (hs : Between source span.start span.stop ('<' :: gap ++ '!' :: (inner ++ ['>'])))
    (hgap : allBlank gap = true) (front : List Char) :
    ShownBy unit ⟨place, source, .declaration (collapse ('<' :: '!' :: (inner ++ ['>']))) span⟩
      (front ++ collapse ('<' :: '!' :: (inner ++ ['>'])))

/-! ### Buffers -/

/-- A complete line of the buffer that a landmark was written on. -/
def StandsOn (unit : List Char) (found : Occurrence) (line : List Char) : Prop :=
  match found.node with
  | .declaration content _ => content <:+ line
  | .code block =>
    line = Code.indentation unit (found.place.length - 1) ++ '@' :: block.code
  | _ => False

namespace Buffer

/-- The landmarks stand on complete lines that the second buffer has behind those of the first one,
in this order; the level is as before. -/
structure Marked (found : List Occurrence) (b b' : Buffer) : Prop where
  unit_eq : b'.unit = b.unit
  level_eq : b'.level = b.level
  lines : ∃ added ls, b'.lines = b.lines ++ added ∧ ls.Sublist added ∧
    List.Forall₂ (StandsOn b.unit) found ls

namespace Marked

variable {found found' : List Occurrence} {b b' b'' : Buffer}

theorem trans (h : Marked found b b') (h' : Marked found' b' b'') :
    Marked (found ++ found') b b'' where
  unit_eq := h'.unit_eq.trans h.unit_eq
  level_eq := h'.level_eq.trans h.level_eq
  lines := by
    obtain ⟨added, ls, hlines, hsub, hls⟩ := h.lines
    obtain ⟨added', ls', hlines', hsub', hls'⟩ := h'.lines
    rw [h.unit_eq] at hls'
    exact ⟨added ++ added', ls ++ ls', by rw [hlines', hlines, List.append_assoc],
      hsub.append hsub', List.rel_append hls hls'⟩

/-- What is written one level deeper is on the page all the same. -/
theorem deeper (h : Marked found b.indent b') : Marked found b b'.dedent where
  unit_eq := h.unit_eq
  level_eq := by
    have : b'.level = b.level + 1 := h.level_eq
    simp [dedent, this]
  lines := h.lines

/-- Where landmarks are marked, none need be. -/
theorem forget (h : Marked found b b') : Marked [] b b' where
  unit_eq := h.unit_eq
  level_eq := h.level_eq
  lines := by
    obtain ⟨added, ls, hlines, -⟩ := h.lines
    exact ⟨added, [], hlines, List.nil_sublist _, .nil⟩

end Marked

theorem Continues.marked {b b' : Buffer} (h : Continues b b') (hunit : b'.unit = b.unit)
    (hlevel : b'.level = b.level) : Marked [] b b' := by
  obtain ⟨added, hlines, -⟩ := h
  exact ⟨hunit, hlevel, added, [], hlines, List.nil_sublist _, .nil⟩

/-- A line that is written becomes complete at once. -/
theorem marked_writeLine (s : List Char) (b : Buffer) (hs : s ≠ []) {found : Occurrence}
    (h : StandsOn b.unit found (b.indentation ++ s)) : Marked [found] b (b.writeLine s) where
  unit_eq := (inked_writeLine s b).unit_eq
  level_eq := level_writeLine s b
  lines := by
    have line : b.finishLine.indentation = b.indentation := by
      simp [indentation, (inked_finishLine b).unit_eq]
    rw [lines_writeLine, lines_finishLine, line, List.append_assoc]
    exact ⟨_, _, rfl, List.sublist_append_right .., .cons (by simpa [hs] using h) .nil⟩

/-- A line that is gone on with and completed. -/
theorem marked_finishLine_write (s : List Char) (b : Buffer) (hs : s ≠ []) {found : Occurrence}
    (h : ∀ front, StandsOn b.unit found (front ++ s)) :
    Marked [found] b (b.write s).finishLine where
  unit_eq := ((inked_write s b).finishLine).unit_eq
  level_eq := by simp
  lines := by
    rw [lines_finishLine, lines_write]
    exact ⟨_, _, rfl, .refl _, by simpa [write, hs] using h _⟩

end Buffer

open Buffer (Marked)

/-! ### Nodes -/

/-- Edits that come back to the level where they begin mark nothing. -/
theorem marked_edited {edits : List Edit} (h : Balanced edits) (b : Buffer) :
    Marked [] b (edited edits b) :=
  (continues_edited edits b).marked (unit_edited edits b) (h.level_edited b)

theorem marked_edit (edit : Edit) (h : edit.keepsLevel = true) (b : Buffer) :
    Marked [] b (edit.apply b) :=
  marked_edited (.cons h .nil) b

section Nodes

variable {env : Surroundings}

theorem marked_writeCode (source : List Char) {place : List Nat} {block : CodeBlock}
    (hkind : block.kind.isControl = false) {b : Buffer} (hplace : place.length = b.level + 1)
    (body : List Nat → List Char → List Occurrence) :
    Marked (landmarksOf body source place (.code block)) b (writeCode env block b) := by
  have hparts : block.controlParts? = none := by simp [CodeBlock.controlParts?, hkind]
  simp only [landmarksOf, hparts]
  split
  · rename_i hlandmark
    have written : writeCode env block b = b.writeLine ('@' :: block.code) := by
      simp only [Node.isLandmark, Bool.and_eq_true, decide_eq_true_eq, Bool.not_eq_true']
        at hlandmark
      simp [writeCode, hlandmark.1, hlandmark.2]
    rw [written]
    refine Buffer.marked_writeLine _ b (by simp) ?_
    simp [StandsOn, Buffer.indentation, hplace]
  · rw [← edited_codeEdits]
    exact marked_edited (balanced_codeEdits env block) b

variable {body : List Char → Buffer → Buffer} {found : List Nat → List Char → List Occurrence}
  (hbody : ∀ place inner b, place.length = b.level → Marked (found place inner) b (body inner b))
  (hblank : ∀ place inner, allBlank inner = true → found place inner = [])

include hbody hblank

theorem marked_writeControl (source : List Char) {place : List Nat} {block : CodeBlock}
    (hkind : block.kind.isControl = true) {b : Buffer} (hplace : place.length = b.level + 1) :
    Marked (landmarksOf found source place (.code block)) b (writeControl body block b) := by
  unfold writeControl
  split
  · rename_i hparts
    have hlandmark : (Node.code block).isLandmark = false := by
      cases h : block.kind <;> simp_all [Node.isLandmark, CodeKind.isControl]
    simp only [landmarksOf, hparts, hlandmark]
    exact marked_edit (.writeLine _) rfl b
  · rename_i header inner hparts
    have opened (s : List Char) : Marked [] b ((b.writeLine s).writeLine ['{']) :=
      (marked_edit (.writeLine s) rfl b).trans (marked_edit (.writeLine ['{']) rfl _)
    have closed (b : Buffer) : Marked [] b (b.writeLine ['}']) :=
      marked_edit (.writeLine ['}']) rfl b
    simp only [landmarksOf, hparts]
    split
    · rename_i hinner
      rw [hblank place inner hinner]
      exact (opened _).trans (closed _)
    · have inside (b' : Buffer) (hlevel : b'.level = b.level) :
          Marked (found place inner) b' (body inner b'.indent).dedent :=
        (hbody place inner b'.indent (by simp [Buffer.indent, hplace, hlevel])).deeper
      simpa using ((opened _).trans (inside _ (by simp))).trans (closed _)

/-- Nodes mark their landmarks, wherever they stand. -/
theorem marked_writeNodesAfter :
    (∀ node source place b, place.length = b.level + 1 → ReadAt b.level node →
      Marked (landmarksOf found source place node) b (writeNode env body node b)) ∧
    ∀ nodes source place i previous b, place.length = b.level →
      (∀ node ∈ nodes, ReadAt b.level node) →
      Marked (landmarksFrom found source place i nodes) b
        (writeNodesAfter env body previous nodes b) := by
  apply Node.induction
  case selfClosing =>
    intro tag source place b _ _
    rw [landmarksOf, writeNode_selfClosing, ← edited_selfClosingEdits]
    exact marked_edited (balanced_selfClosingEdits env.settings tag) b
  case element =>
    intro tag children ih source place b hplace hread
    rw [landmarksOf, writeNode_element]
    split
    · rename_i language inner hembedded
      obtain ⟨content, span, rfl⟩ : ∃ content span, children = [.text content span] := by
        unfold embeddedBody? at hembedded
        split at hembedded
        · exact ⟨_, _, rfl⟩
        · simp at hembedded
      rw [← edited_embeddedEdits]
      exact marked_edited (balanced_embeddedEdits env tag _ _) b
    · rw [writeOpenTag_eq]
      have opened := marked_edited (balanced_openTagEdits env.settings tag) b
      dsimp only
      split
      · have finished := opened.trans (marked_edit .finishLine rfl _)
        have inside (b' : Buffer) (hlevel : b'.level = b.level) :
            Marked (landmarksFrom found source place 0 children) b'
              (writeNodesAfter env body none children b'.indent).dedent := by
          have deeper : b'.indent.level = b.level + 1 := congrArg (· + 1) hlevel
          refine (ih source place 0 none b'.indent (hplace.trans deeper.symm) ?_).deeper
          rw [deeper]
          exact fun child hchild => hread.child hchild
        simpa [Edit.apply] using (finished.trans (inside _ finished.level_eq)).trans
          (marked_edit (.writeLine _) rfl _)
      · rename_i hflat
        rw [landmarksFrom_of_isInline _ _ _ _ (isInline_of_flat hflat), ← edited_inlineEdits]
        exact opened.trans (marked_edited (balanced_inlineEdits tag children) _)
  case declaration =>
    intro content span source place b _ hread
    rw [landmarksOf, writeNode_declaration]
    refine Buffer.marked_finishLine_write content b hread.named fun front => ?_
    exact List.suffix_append front content
  case text =>
    intro content span source place b _ _
    rw [landmarksOf, writeNode_text, writeText, ← edited_lineEdits]
    exact marked_edited (balanced_of_keepsLevel (keepsLevel_lineEdits _)) b
  case code =>
    intro block source place b hplace _
    rw [writeNode_code]
    cases hkind : block.kind.isControl with
    | true => exact marked_writeControl hbody hblank source hkind hplace
    | false => exact marked_writeCode source hkind hplace found
  case nil =>
    intro source place i previous b _ _
    exact marked_edited .nil b
  case cons =>
    intro node nodes hnode hnodes source place i previous b hplace hread
    obtain ⟨hfirst, hrest⟩ := List.forall_mem_cons.1 hread
    have gap : Marked [] b (writeGap previous node b) :=
      marked_edit (.gap previous node) rfl b
    have first := gap.trans (hnode source (place ++ [i]) (writeGap previous node b)
      (by simp [gap.level_eq, hplace]) (gap.level_eq ▸ hfirst))
    rw [landmarksFrom, writeNodesAfter]
    refine first.trans (hnodes source place (i + 1) _ _ ?_ ?_)
    · rw [first.level_eq, hplace]
    · rwa [first.level_eq]

theorem marked_writeNodes (source : List Char) {place : List Nat} {nodes : List Node} {b : Buffer}
    (hplace : place.length = b.level) (hread : ∀ node ∈ nodes, ReadAt b.level node) :
    Marked (landmarksFrom found source place 0 nodes) b (writeNodes env body nodes b) :=
  (marked_writeNodesAfter hbody hblank).2 nodes source place 0 none b hplace hread

end Nodes

theorem marked_writeBody (env : Surroundings) (blocks : Nat) (place : List Nat)
    (inner : List Char) (b : Buffer) (hplace : place.length = b.level) :
    Marked (bodyLandmarks blocks place inner) b (writeBody env blocks inner b) := by
  induction blocks generalizing place inner b with
  | zero =>
    have nothing : ∀ (place : List Nat) (_ : List Char) (b : Buffer), place.length = b.level →
        Marked [] b b := fun _ _ b _ => marked_edited .nil b
    exact (marked_writeNodes nothing (fun _ _ _ => rfl) inner hplace fun _ h => .body h).forget
  | succ blocks ih =>
    rw [bodyLandmarks, hplace]
    exact marked_writeNodes ih (fun place _ => bodyLandmarks_of_allBlank blocks place) inner hplace
      fun _ h => .body h

/-- Writing a template marks its landmarks. -/
theorem marked_write (env : Surroundings) (template : List Char) {b : Buffer} (hb : b.level = 0) :
    Marked (landmarks template) b (write env (readDocument template) b) :=
  marked_writeNodes (marked_writeBody env maxNesting)
    (fun place _ => bodyLandmarks_of_allBlank maxNesting place) template hb.symm
    fun _ h => hb ▸ .template h

/-! ### Lines of the output -/

theorem endsWithInk_collapse_append {c : Char} (hc : isBlank c = false) (s : List Char) :
    EndsWithInk (collapse (s ++ [c])) := by
  induction s with
  | nil => exact ⟨[], c, by simp [collapse, hc], hc⟩
  | cons d s ih =>
    rw [List.cons_append, collapse_cons]
    split
    · split
      · exact ih
      · exact ih.append [' ']
    · exact ih.append [d]

theorem tidyLine_collapse (inner : List Char) :
    TidyLine (collapse ('<' :: '!' :: (inner ++ ['>']))) where
  ink := endsWithInk_collapse_append (by decide) ('<' :: '!' :: inner)
  one_line := newline_not_mem_collapse _

/-- What ends a text without a line feed ends its last line. -/
theorem exists_mem_split_append (front : List Char) {s : List Char} (hs : '\n' ∉ s) :
    ∃ rest, rest ++ s ∈ split '\n' (front ++ s) := by
  induction front using line_induction with
  | last l hl => exact ⟨l, by simp [split_of_newline_not_mem (s := l ++ s) (by simp [hl, hs])]⟩
  | line l t hl ih =>
    obtain ⟨rest, hrest⟩ := ih
    refine ⟨rest, ?_⟩
    rw [List.append_assoc, List.cons_append, split_append_newline]
    exact List.mem_append_right _ hrest

/-- A landmark is on one of the lines of the output that a complete line of the buffer gives. -/
theorem exists_shownBy {template unit line : List Char} {found : Occurrence}
    (h : Occurs template found) (hlandmark : found.node.isLandmark = true) (hunit : '\n' ∉ unit)
    (hline : StandsOn unit found line) :
    ∃ l ∈ split '\n' line, TidyLine l ∧ ShownBy unit found l := by
  obtain ⟨place, source, node⟩ := found
  cases node with
  | declaration content span =>
    obtain ⟨gap, inner, hs, hgap, rfl⟩ := h.foundIn.exists_declaration
    obtain ⟨front, rfl⟩ := hline
    have tidy := tidyLine_collapse inner
    obtain ⟨rest, hrest⟩ := exists_mem_split_append front tidy.one_line
    exact ⟨_, hrest, tidy.append (newline_not_mem_of_mem_split hrest ∘ List.mem_append_left _),
      .declaration hs hgap rest⟩
  | code block =>
    obtain ⟨keyword, value, hdirective, hblock⟩ := h.foundIn.exists_isDirective hlandmark
    rw [hblock] at hline ⊢
    obtain rfl := hline
    have tidy := TidyLine.append (Buffer.newline_not_mem_indentation hunit (place.length - 1))
      (tidyLine_directive hdirective)
    refine ⟨_, ?_, tidy, .directive hdirective⟩
    rw [split_of_newline_not_mem tidy.one_line]
    exact List.mem_singleton_self _
  | _ => simp [Node.isLandmark] at hlandmark

/-- Blanks are taken away behind the last tidy line. -/
theorem sublist_split_trimEnd {ls : List (List Char)} {s : List Char}
    (hls : ∀ l ∈ ls, TidyLine l) (h : ls.Sublist (split '\n' s)) :
    ls.Sublist (split '\n' (trimEnd s)) := by
  -- a line that is tidy is not trimmed
  have single {ls : List (List Char)} {l : List Char} (hls : ∀ l ∈ ls, TidyLine l)
      (h : ls.Sublist [l]) : ls.Sublist (split '\n' (trimEnd l)) := by
    rcases List.sublist_singleton.1 h with rfl | rfl
    · exact List.nil_sublist _
    · have hl := hls l (List.mem_singleton_self l)
      rw [hl.ink.trimEnd_eq, split_of_newline_not_mem hl.one_line]
  induction s using line_induction generalizing ls with
  | last l hl => exact single hls (split_of_newline_not_mem hl ▸ h)
  | line l s hl ih =>
    rw [split_append_newline, split_of_newline_not_mem hl] at h
    obtain ⟨first, rest, rfl, hfirst, hrest⟩ := List.sublist_append_iff.1 h
    obtain ⟨tidy, tidy'⟩ := List.forall_mem_append.1 hls
    have behind := ih tidy' hrest
    cases hs : allBlank s with
    | true =>
      have newline : allBlank ('\n' :: s) = true := by simpa [hs] using (by decide : isBlank '\n')
      rw [trimEnd_eq_nil_iff.2 hs, split_nil] at behind
      rcases List.sublist_singleton.1 behind with rfl | rfl
      · rw [trimEnd_append_of_allBlank l newline, List.append_nil]
        exact single tidy hfirst
      · exact absurd rfl (tidy' [] (List.mem_singleton_self _)).ne_nil
    | false =>
      have kept : trimEnd ('\n' :: s) = '\n' :: trimEnd s := trimEnd_append_of_ink hs ['\n']
      rw [trimEnd_append_of_ink (by simp [hs]), kept, split_append_newline,
        split_of_newline_not_mem hl]
      exact hfirst.append behind

/-- Cleaning up leaves tidy lines alone. -/
theorem sublist_split_cleanUp (settings : Settings) {ls : List (List Char)} {out : List Char}
    (hls : ∀ l ∈ ls, TidyLine l) (h : ls.Sublist (split '\n' out)) :
    ls.Sublist (split '\n' (cleanUp settings out)) := by
  have ends : ls.Sublist (split '\n' (if settings.removeTrailingWhitespace then
      unlines ((split '\n' out).map trimEnd) else out)) := by
    split
    · have line : ∀ l ∈ (split '\n' out).map trimEnd, '\n' ∉ l := by
        simp only [List.mem_map, forall_exists_index, and_imp, forall_apply_eq_imp_iff₂]
        exact fun l hl h =>
          newline_not_mem_of_mem_split hl ((List.rdropWhile_prefix isBlank l).subset h)
      have same : ls.map trimEnd = ls :=
        (List.map_congr_left fun l hl => (hls l hl).ink.trimEnd_eq).trans (List.map_id ls)
      rw [split_unlines (by simp [split_ne_nil]) line, ← same]
      exact h.map trimEnd
    · exact h
  have trimmed := sublist_split_trimEnd hls ends
  unfold cleanUp
  dsimp only
  generalize (if settings.removeTrailingWhitespace then
      unlines ((split '\n' out).map trimEnd) else out) = out' at ends trimmed ⊢
  split
  · split
    · rename_i hempty
      rwa [List.isEmpty_iff.1 hempty] at trimmed
    · rw [split_append_newline]
      exact trimmed.trans (List.sublist_append_left ..)
  · exact ends

/-- One element is taken from each list. -/
theorem exists_sublist_flatMap {α β γ : Type} {f : β → List γ} {P : α → γ → Prop} {as : List α}
    {bs : List β} (h : List.Forall₂ (fun a b => ∃ c ∈ f b, P a c) as bs) :
    ∃ cs, cs.Sublist (bs.flatMap f) ∧ List.Forall₂ P as cs := by
  induction h with
  | nil => exact ⟨[], .slnil, .nil⟩
  | @cons a b as bs hab _ ih =>
    obtain ⟨c, hc, hP⟩ := hab
    obtain ⟨cs, hsub, hcs⟩ := ih
    refine ⟨c :: cs, ?_, .cons hP hcs⟩
    rw [List.flatMap_cons]
    exact (List.singleton_sublist.2 hc).append hsub

/-- The complete lines of a buffer are in its output, each as one line or as several. -/
theorem sublist_split_output {b : Buffer} {entries ls : List (List Char)}
    (hentries : entries.Sublist b.lines) (hls : ls.Sublist (entries.flatMap (split '\n'))) :
    ls.Sublist (split '\n' b.output) := by
  have all : entries.Sublist b.toLines := by
    rw [Buffer.toLines, Buffer.lines_finishLine]
    exact hentries.trans (List.sublist_append_left ..)
  rw [Buffer.output]
  by_cases hne : b.toLines = []
  · rw [hne, List.sublist_nil] at all
    rw [all, List.flatMap_nil, List.sublist_nil] at hls
    exact hls ▸ List.nil_sublist _
  · rw [split_unlines_eq_flatMap hne]
    exact hls.trans (all.flatMap _)

/-- Every landmark of a template is shown on one line of the layout, and the lines come in the order
of the source. -/
theorem format_landmarks (settings : Settings) (template : List Char) :
    (∀ found, found ∈ landmarks template ↔
      found.node.isLandmark = true ∧ Occurs template found) ∧
    (landmarks template).Pairwise (·.place < ·.place) ∧
    ∃ ls, ls.Sublist (split '\n' (format settings template)) ∧
      List.Forall₂ (ShownBy settings.indentUnit) (landmarks template) ls := by
  refine ⟨fun found => mem_landmarks_iff, pairwise_landmarks template, ?_⟩
  have marked := @marked_write ⟨settings, Code.indent⟩ template (Buffer.new settings) rfl
  obtain ⟨added, entries, hlines, hsub, hentries⟩ := marked.lines
  -- each complete line of the buffer gives a tidy line
  have shown : List.Forall₂ (fun found entry => ∃ l ∈ split '\n' entry,
      TidyLine l ∧ ShownBy settings.indentUnit found l) (landmarks template) entries := by
    have occurring := (List.forall₂_and_left _ _).2 ⟨fun _ => mem_landmarks_iff.1, hentries⟩
    exact occurring.imp fun _ _ h =>
      exists_shownBy h.1.2 h.1.1 (newline_not_mem_indentUnit _ _) h.2
  obtain ⟨ls, hls, hshown⟩ := exists_sublist_flatMap shown
  obtain ⟨tidy, hshown⟩ := (List.forall₂_and_left _ _).1 hshown.flip
  have complete : entries.Sublist (write ⟨settings, Code.indent⟩ (readDocument template)
      (Buffer.new settings)).lines := by
    rw [hlines]
    exact hsub
  exact ⟨ls, sublist_split_cleanUp settings tidy (sublist_split_output complete hls), hshown.flip⟩

end RazorLayout.Layout

import RazorLayout.Proofs.Layout.MarkupFree
import RazorLayout.Proofs.Template.Origin

/-!
# Header and body of a block

A block is kept as one text: its header, a line with a brace, the body and a line with the closing
brace. When the block is written, the text is cut at the first such line, and the body is read
again. The body may hold any number of lines with braces. The cut is right all the same, because a
header stands on one line: the lines of a condition are joined when it is read.

So nothing happens to a body between reading and writing. It is what stands in the source between
the braces of the block, and these are a pair.

## Main definitions

* `IsHeader`: a header that is written as it is
* `EndsInBody`: a text whose beginning ends with a body in braces
* `BlockIn`: a block with its header and its body in the source

## Main results

* `isHeader_condition`: a joined condition makes a header
* `isBlockIn_control`: a block with a body that is read at a place of the source
* `isBlockIn_readIfChain?`, `isBlockIn_readForeach?`: the blocks that are read are in the source
* `readDocument_control`: every block of a template has its header and its body
-/

namespace RazorLayout.Layout

open Text Code Template

/-! ### Headers -/

/-- A header of one line that is written as it is. -/
structure IsHeader (header : List Char) : Prop where
  newline_not_mem : '\n' ∉ header
  headerLine_eq : headerLine header = header

/-- A header begins with its word and ends with the closing parenthesis. -/
theorem isHeader_condition {c : Char} {word : List Char} (hc : isBlank c = false)
    (hword : '\n' ∉ c :: word) (condition : List Char) :
    IsHeader (c :: word ++ " (".toList ++ joinCondition condition ++ [')']) := by
  have hline : '\n' ∉ c :: word ++ " (".toList ++ joinCondition condition ++ [')'] := by
    have hjoined := newline_not_mem_joinCondition condition
    simp_all
  refine ⟨hline, ?_⟩
  -- one line, which neither begins nor ends with a blank
  rw [headerLine_of_newline_not_mem hline]
  have hlast : EndsWithInk (c :: word ++ " (".toList ++ joinCondition condition ++ [')']) :=
    ⟨c :: word ++ " (".toList ++ joinCondition condition, ')', rfl, by decide⟩
  exact trim_of_edges hc hlast

/-! ### Bodies -/

/-- The first `n` characters end with a body in braces, which match each other. -/
def EndsInBody (s body : List Char) (n : Nat) : Prop :=
  ∃ front rest, s = front ++ '{' :: (body ++ '}' :: rest) ∧
    n = (front ++ '{' :: (body ++ ['}'])).length ∧
    Bracket.brace.matchPlain? ('{' :: (body ++ '}' :: rest)) = some (body.length + 1)

theorem endsInBody_readBraces? {s body : List Char} {n : Nat}
    (h : readBraces? ('{' :: s) = some (body, n)) : EndsInBody ('{' :: s) body n := by
  obtain ⟨rest, rfl, rfl⟩ := readBraces?_eq_some h
  simp only [readBraces?, Option.map_eq_some_iff, Prod.mk.injEq] at h
  obtain ⟨k, hmatch, -, hk⟩ := h
  obtain rfl : k = body.length + 1 := by omega
  exact ⟨[], rest, rfl, by simp, hmatch⟩

/-- A body behind the first `k` characters. -/
theorem EndsInBody.of_drop {s body : List Char} {k n : Nat} (h : EndsInBody (s.drop k) body n) :
    EndsInBody s body (k + n) := by
  obtain ⟨front, rest, hdrop, rfl, hmatch⟩ := h
  -- something is left behind the first `k` characters, the braces at least
  have hk : k ≤ s.length := by
    by_contra hlong
    rw [List.drop_eq_nil_of_le (by omega)] at hdrop
    simp at hdrop
  refine ⟨s.take k ++ front, rest, ?_, ?_, hmatch⟩
  · rw [List.append_assoc, ← hdrop, List.take_append_drop]
  · simp only [List.length_append, List.length_take, Nat.min_eq_left hk, Nat.add_assoc]

theorem endsInBody_readBody? {s body : List Char} {n : Nat} (h : readBody? s = some (body, n)) :
    EndsInBody s body n := by
  simp only [readBody?] at h
  split at h
  · rename_i rest hrest
    simp only [Option.map_eq_some_iff, Prod.mk.injEq, Prod.exists] at h
    obtain ⟨body', m, hbraces, rfl, rfl⟩ := h
    apply EndsInBody.of_drop
    rw [hrest]
    exact endsInBody_readBraces? hbraces
  · simp at h

/-! ### Blocks in the source -/

/-- A block with its header and its body. The range of the block in the source ends with the body
in braces, and the closing brace is the match of the opening one in the source. -/
structure BlockIn (source : List Char) (block : CodeBlock) (header body : List Char) : Prop where
  controlParts?_eq : block.controlParts? = some (header, body)
  isHeader : IsHeader header
  braces : ∃ before front behind,
    source = before ++ (front ++ '{' :: (body ++ '}' :: behind)) ∧
    block.span
      = ⟨byteLength before, byteLength (before ++ (front ++ '{' :: (body ++ ['}'])))⟩ ∧
    Bracket.brace.matchPlain? ('{' :: (body ++ '}' :: behind)) = some (body.length + 1)

/-- The node is a block of the source. -/
def IsBlockIn (source : List Char) (node : Node) : Prop :=
  ∃ block header body, node = .code block ∧ BlockIn source block header body

section Readers

variable {source s : List Char} {pos stop : Nat} (hs : Between source pos stop s)

include hs

/-- A block that takes the first `n` characters at a place of the source. -/
theorem isBlockIn_control {kind : CodeKind} (hkind : kind.isControl = true) {header : List Char}
    (hheader : IsHeader header) {body : List Char} {n : Nat} (hbody : EndsInBody s body n) :
    IsBlockIn source
      (.code (.control kind header body ⟨pos, pos + byteLength (s.take n)⟩)) := by
  obtain ⟨before, behind, hsource, rfl, -⟩ := hs
  obtain ⟨front, rest, rfl, rfl, hmatch⟩ := hbody
  have taken : (front ++ '{' :: (body ++ '}' :: rest)).take
      (front ++ '{' :: (body ++ ['}'])).length = front ++ '{' :: (body ++ ['}']) := by
    rw [show front ++ '{' :: (body ++ '}' :: rest) = front ++ '{' :: (body ++ ['}']) ++ rest by
      simp]
    exact List.take_left
  refine ⟨_, header, body, rfl,
    CodeBlock.controlParts?_control hkind hheader.newline_not_mem body _, hheader,
    before, front, rest ++ behind, ?_, ?_, ?_⟩
  · rw [hsource]
    simp
  · rw [taken, byteLength_append before]
    rfl
  · -- the braces match in the piece, and so they do in front of what follows the piece
    simpa using Bracket.matchPlain?_append hmatch behind

theorem isBlockIn_readBlock? {kind : CodeKind} (hkind : kind.isControl = true) {c : Char}
    {word : List Char} (hc : isBlank c = false) (hword : '\n' ∉ c :: word) {k n : Nat} {node : Node}
    (h : readBlock? kind (c :: word) pos k s = some (node, n)) : IsBlockIn source node := by
  simp only [readBlock?, Option.bind_eq_bind, Option.bind_eq_some_iff, Option.pure_def,
    Option.some.injEq, Prod.mk.injEq, Prod.exists] at h
  obtain ⟨joined, m, hcondition, body, m', hbody, rfl, rfl⟩ := h
  obtain ⟨condition, rfl⟩ : ∃ condition, joined = joinCondition condition := by
    simp only [readCondition?, Option.map_eq_some_iff, Prod.mk.injEq] at hcondition
    obtain ⟨closer, -, rfl, -⟩ := hcondition
    exact ⟨_, rfl⟩
  exact isBlockIn_control hs hkind (isHeader_condition hc hword condition)
    (endsInBody_readBody? hbody).of_drop

theorem isBlockIn_readBranch? {n : Nat} {node : Node} {more : Bool}
    (h : readBranch? pos s = some (node, n, more)) : IsBlockIn source node := by
  unfold readBranch? at h
  split at h
  · simp only [Option.map_eq_some_iff, Prod.mk.injEq, Prod.exists] at h
    obtain ⟨node', n', hblock, rfl, -, -⟩ := h
    exact isBlockIn_readBlock? hs rfl (by decide) (by decide) hblock
  · split at h
    · -- without a condition, the brace of the body stands behind the word
      rename_i k hk
      obtain ⟨gap, rest, rfl, -, rfl⟩ := Opening.partsLength?_keyword hk
      simp only [Option.map_eq_some_iff, Prod.mk.injEq, Prod.exists] at h
      obtain ⟨body, m, hbraces, rfl, -, -⟩ := h
      have brace : ("else".toList ++ gap ++ '{' :: rest).drop
          (("else".toList ++ gap).length + 1 - 1) = '{' :: rest := by
        rw [Nat.add_sub_cancel, List.drop_left]
      rw [brace] at hbraces
      have hbody := endsInBody_readBraces? hbraces
      rw [← brace] at hbody
      exact isBlockIn_control hs rfl ⟨by decide, by decide +kernel⟩ hbody.of_drop
    · simp at h

omit hs in
/-- One more branch. -/
theorem isBlockIn_chainStep {chain chain' : Chain} {n : Nat}
    (hs : Between source chain.pos stop s)
    (hchain : ∀ node ∈ chain.branches, IsBlockIn source node)
    (h : chainStep chain s = some (chain', n)) :
    ∀ node ∈ chain'.branches, IsBlockIn source node := by
  unfold chainStep at h
  split at h
  · simp only [Option.map_eq_some_iff, Prod.mk.injEq, Prod.exists] at h
    obtain ⟨node, m, more, hbranch, rfl, -⟩ := h
    have hnode := isBlockIn_readBranch? (hs.drop (countWhile isBlank s)) hbranch
    exact List.forall_mem_cons.2 ⟨hnode, hchain⟩
  · simp at h

/-- Every branch of a chain is in the source. -/
theorem isBlockIn_readIfChain? {nodes : List Node} {n : Nat}
    (h : readIfChain? pos s = some (nodes, n)) : ∀ node ∈ nodes, IsBlockIn source node := by
  simp only [readIfChain?, Option.bind_eq_bind, Option.bind_eq_some_iff, Option.pure_def,
    Option.some.injEq, Prod.mk.injEq, Prod.exists] at h
  obtain ⟨k, -, first, length, hfirst, rfl, -⟩ := h
  -- the chain knows its place, so that the next branch is read at a place of the source again
  have step : ∀ (chain : Chain) rest chain' m, rest ≠ [] →
      (Between source chain.pos stop rest ∧ ∀ node ∈ chain.branches, IsBlockIn source node) →
      chainStep chain rest = some (chain', m) → 0 < m ∧
        Between source chain'.pos stop (rest.drop m) ∧
        ∀ node ∈ chain'.branches, IsBlockIn source node := by
    rintro chain rest chain' m - ⟨hrest, hchain⟩ hstep
    obtain ⟨_, -, -, hpos, hreads⟩ := reads_chainStep hrest hstep
    refine ⟨hreads.progress, ?_, ?_⟩
    · rw [hpos]
      exact hrest.drop m
    · exact isBlockIn_chainStep hrest hchain hstep
  have start : Between source first.span.stop stop (s.drop length) := by
    rw [(isBlockAt_readBlock? rfl hfirst).span_eq]
    exact hs.drop length
  have hblock : IsBlockIn source first := isBlockIn_readBlock? hs rfl (by decide) (by decide) hfirst
  have run := advance_invariant step ⟨[first], length, first.span.stop, true⟩ (s.drop length)
    ⟨start, by simpa using hblock⟩
  intro node hnode
  exact run.2 node (List.mem_reverse.1 hnode)

theorem isBlockIn_readForeach? {nodes : List Node} {n : Nat}
    (h : readForeach? pos s = some (nodes, n)) : ∀ node ∈ nodes, IsBlockIn source node := by
  simp only [readForeach?, Option.bind_eq_bind, Option.bind_eq_some_iff, Option.pure_def,
    Option.some.injEq, Prod.mk.injEq, Prod.exists] at h
  obtain ⟨_, -, node, _, hnode, rfl, -⟩ := h
  simpa using isBlockIn_readBlock? hs rfl (by decide) (by decide) hnode

end Readers

/-! ### Templates -/

/-- Every block of a template, at any depth, falls into its header and its body again. The header
is written as it is, and the body is what stands in the source between two braces that match. This
body, and nothing else, is read again when the block is written. -/
theorem readDocument_control {t : List Char} {block : CodeBlock}
    (hholds : Holds (readDocument t) (.code block)) (hkind : block.kind.isControl = true) :
    ∃ header body, BlockIn t block header body ∧ ∀ write (b : Buffer),
      writeControl write block b =
        let mark := if block.kind = .ifBlock || block.kind = .foreachBlock then ['@'] else []
        let opened := (b.writeLine (mark ++ header)).writeLine ['{']
        (if allBlank body then opened else (write body opened.indent).dedent).writeLine ['}'] := by
  obtain ⟨pos, stop, s, nodes, n, hs, hmem, hread⟩ := hholds.exists_readBlocks hkind
  have found : IsBlockIn t (.code block) := by
    rcases hread with hchain | hforeach
    · exact isBlockIn_readIfChain? hs hchain _ hmem
    · exact isBlockIn_readForeach? hs hforeach _ hmem
  obtain ⟨block', header, body, heq, hblock⟩ := found
  obtain rfl : block = block' := by simpa using heq
  refine ⟨header, body, hblock, ?_⟩
  intro write b
  simp only [writeControl, hblock.controlParts?_eq, hblock.isHeader.headerLine_eq]

/-- A block in an element, with a condition of two lines and a body that itself has the lines by
which header and body are told apart. -/
theorem readDocument_control_braces :
    let t := "<p>@if (a\n&& b) \x7bc\n\x7b\nd\n\x7d\x7d</p>".toList
    let header := "if (a && b)".toList
    let body := "c\n\x7b\nd\n\x7d".toList
    let block := CodeBlock.control .ifBlock header body ⟨3, 25⟩
    Holds (readDocument t) (.code block) ∧ block.kind.isControl = true ∧
      BlockIn t block header body := by
  intro t header body block
  have read : readDocument t = [.element ⟨['p'], [], ⟨0, 29⟩⟩ [.code block]] := by
    rfl
  have holds : Holds (readDocument t) (.code block) := by
    rw [read]
    exact .inside (List.mem_singleton.2 rfl) (.here (List.mem_singleton.2 rfl))
  obtain ⟨header', body', hblock, -⟩ := readDocument_control holds rfl
  have parts : block.controlParts? = some (header, body) := by decide +kernel
  obtain ⟨rfl, rfl⟩ := Prod.mk.inj (Option.some.inj (parts.symm.trans hblock.controlParts?_eq))
  exact ⟨holds, rfl, hblock⟩

end RazorLayout.Layout

import Mathlib
import RazorLayout.Proofs.Layout.Steps

/-!
# Nesting is bounded

Reading stops at a depth, and the bodies of blocks are read while their blocks are written, at the
level that the buffer has then. Two counters have to agree for the limit to hold: the depth at
which content is read, and the level at which it is written. This file shows that they agree in
every state that writing a template passes through, for elements and blocks in any order.

The tasks that are left know the level at which they will be done (`Scheduled`), since edits are
the only tasks that change it. One step keeps this (`nested_step`), so all states have it.

## Main definitions

* `openCalls`: the depths of the lists of nodes that are being written
* `Scheduled`: tasks that fit the level of the buffer
* `WithinNesting`: what holds in each state

## Main results

* `nested_step`, `nested_of_reaches`: a step keeps the schedule, and so do any number of steps
* `format_within_nesting`: every state of formatting a template is within the limit
-/

namespace RazorLayout.Layout

open Text Template

/-- The depths of the lists of nodes that are being written, the innermost one first. -/
def openCalls (tasks : List Task) : List Nat :=
  tasks.filterMap fun
    | .nodes path _ _ => some path.length
    | _ => none

/-- Tasks that can be done in a buffer at the given level: nodes at the level of their depth, bodies
one level deeper than their block, and content inside of the content that is already open. -/
def Scheduled : (level : Nat) → List Task → Prop
  | _, [] => True
  | level, .edit edit :: tasks =>
    (edit = .indent → level ≤ maxNesting) ∧ Scheduled (edit.levelAfter level) tasks
  | level, .node path node :: tasks =>
    (level = path.length ∧ ReadAt path.length node ∧ ∀ call ∈ openCalls tasks, call ≤ level) ∧
      Scheduled level tasks
  | level, .nodes path _ nodes :: tasks =>
    (level = path.length ∧ level ≤ maxNesting + 1 ∧ (∀ node ∈ nodes, ReadAt path.length node) ∧
      ∀ call ∈ openCalls tasks, call < level) ∧ Scheduled level tasks
  | level, .body path block _ :: tasks =>
    (level = path.length + 1 ∧ ReadAt path.length (.code block) ∧
      ∀ call ∈ openCalls tasks, call < level) ∧ Scheduled level tasks

section Schedules

variable {level : Nat} {tasks : List Task}

theorem scheduled_edit {edit : Edit} (h : edit.keepsLevel = true) (rest : Scheduled level tasks) :
    Scheduled level (.edit edit :: tasks) := by
  refine ⟨?_, ?_⟩
  · rintro rfl
    simp [Edit.keepsLevel] at h
  · rwa [Edit.levelAfter_of_keepsLevel h]

theorem scheduled_of_keepsLevel {edits : List Edit} (h : ∀ edit ∈ edits, edit.keepsLevel = true)
    (rest : Scheduled level tasks) : Scheduled level (edits.map .edit ++ tasks) := by
  induction edits with
  | nil => exact rest
  | cons edit edits ih =>
    obtain ⟨hedit, hedits⟩ := List.forall_mem_cons.1 h
    exact scheduled_edit hedit (ih hedits)

theorem scheduled_of_balanced {edits : List Edit} (h : Balanced edits) (hlevel : level ≤ maxNesting)
    (rest : Scheduled level tasks) : Scheduled level (edits.map .edit ++ tasks) := by
  induction h with
  | nil => exact rest
  | cons hedit _ ih => exact scheduled_edit hedit ih
  | deeper hinner _ ih =>
    rw [List.map_append, List.map_cons, List.map_cons, List.append_assoc]
    refine ⟨fun _ => hlevel, scheduled_of_keepsLevel hinner ⟨by simp, ?_⟩⟩
    exact ih

theorem scheduled_controlTasks {path : List Node} {block : CodeBlock} (hlevel : level = path.length)
    (hblock : ReadAt path.length (.code block)) (hcalls : ∀ call ∈ openCalls tasks, call ≤ level)
    (rest : Scheduled level tasks) : Scheduled level (controlTasks path block ++ tasks) := by
  have hdepth : path.length ≤ maxNesting := hblock.le_maxNesting rfl
  unfold controlTasks
  split
  · exact scheduled_edit rfl rest
  · rename_i header inner _
    have closed : Scheduled level (.edit (.writeLine ['}']) :: tasks) := scheduled_edit rfl rest
    have body : Scheduled (level + 1)
        (.body path block inner :: .edit .dedent :: .edit (.writeLine ['}']) :: tasks) := by
      refine ⟨⟨by rw [hlevel], hblock, fun call hcall => ?_⟩, by simp, closed⟩
      exact Nat.lt_succ_of_le (hcalls call hcall)
    refine scheduled_edit rfl (scheduled_edit rfl ?_)
    cases allBlank inner with
    | true => exact closed
    | false => exact ⟨fun _ => hlevel.trans_le hdepth, body⟩

/-- The content of an element, one level deeper. -/
theorem scheduled_content {path : List Node} {tag : Tag} {children : List Node}
    (hlevel : level = path.length) (hnode : ReadAt path.length (.element tag children))
    (hcalls : ∀ call ∈ openCalls tasks, call ≤ level) (rest : Scheduled level tasks) :
    Scheduled level (.edit .finishLine :: .edit .indent
      :: .nodes (.element tag children :: path) none children :: .edit .dedent
      :: .edit (.writeLine (tagCloser tag.name)) :: tasks) := by
  have hdepth : path.length ≤ maxNesting := hnode.le_maxNesting rfl
  refine ⟨by simp, fun _ => hlevel.trans_le hdepth,
    ⟨?_, ?_, fun child hchild => hnode.child hchild, fun call hcall => ?_⟩, by simp, by simp, rest⟩
  · simp [Edit.levelAfter, hlevel]
  · simpa [Edit.levelAfter, hlevel] using hdepth
  · exact Nat.lt_succ_of_le (hcalls call hcall)

/-- The tasks of a node fit the level of its depth. -/
theorem scheduled_nodeTasks (env : Surroundings) {path : List Node} {node : Node}
    (hlevel : level = path.length) (hnode : ReadAt path.length node)
    (hcalls : ∀ call ∈ openCalls tasks, call ≤ level) (rest : Scheduled level tasks) :
    Scheduled level (nodeTasks env path node ++ tasks) := by
  -- only texts may stand too deep, and they do not indent
  have shallow (h : node.isText = false) : level ≤ maxNesting :=
    hlevel.trans_le (hnode.le_maxNesting h)
  cases node with
  | text content span => exact scheduled_of_keepsLevel (keepsLevel_lineEdits _) rest
  | declaration content span => exact ⟨by simp, by simp, rest⟩
  | selfClosing tag =>
    exact scheduled_of_balanced (balanced_selfClosingEdits env.settings tag) (shallow rfl) rest
  | code block =>
    rw [nodeTasks]
    split
    · exact scheduled_controlTasks hlevel hnode hcalls rest
    · exact scheduled_of_balanced (balanced_codeEdits env block) (shallow rfl) rest
  | element tag children =>
    rw [nodeTasks]
    split
    · exact scheduled_of_balanced (balanced_embeddedEdits env tag _ _) (shallow rfl) rest
    · rw [List.append_assoc]
      refine scheduled_of_balanced (balanced_openTagEdits env.settings tag) (shallow rfl) ?_
      split
      · exact scheduled_content hlevel hnode hcalls rest
      · exact scheduled_of_balanced (balanced_inlineEdits tag children) (shallow rfl) rest

end Schedules

/-! ### States -/

/-- The tasks fit the level of the buffer, which is within the limit. -/
structure Nested (now : Writing) : Prop where
  level_le : now.buffer.level ≤ maxNesting + 1
  scheduled : Scheduled now.buffer.level now.tasks

theorem nested_step {env : Surroundings} {now next : Writing} (h : step env now = some next)
    (hnow : Nested now) : Nested next := by
  obtain ⟨hlevel, hscheduled⟩ := hnow
  match now, h with
  | ⟨.edit edit :: tasks, b⟩, rfl =>
    obtain ⟨hindent, rest⟩ := hscheduled
    refine ⟨?_, by rwa [Edit.level_apply]⟩
    rw [Edit.level_apply]
    cases edit with
    | indent => exact Nat.succ_le_succ (hindent rfl)
    | dedent => exact (Nat.sub_le _ _).trans hlevel
    | _ => exact hlevel
  | ⟨.node path node :: tasks, b⟩, rfl =>
    obtain ⟨⟨hpath, hnode, hcalls⟩, rest⟩ := hscheduled
    exact ⟨hlevel, scheduled_nodeTasks env hpath hnode hcalls rest⟩
  | ⟨.nodes path previous [] :: tasks, b⟩, rfl => exact ⟨hlevel, hscheduled.2⟩
  | ⟨.nodes path previous (node :: nodes) :: tasks, b⟩, rfl =>
    obtain ⟨⟨hpath, hdepth, hnodes, hcalls⟩, rest⟩ := hscheduled
    obtain ⟨hnode, hnodes⟩ := List.forall_mem_cons.1 hnodes
    -- the list of nodes stays open while its first node is written
    have inside : ∀ call ∈ openCalls (.nodes path (some node) nodes :: tasks), call ≤ b.level :=
      List.forall_mem_cons.2 ⟨hpath.ge, fun call hcall => (hcalls call hcall).le⟩
    exact ⟨hlevel, by simp, ⟨hpath, hnode, inside⟩, ⟨hpath, hdepth, hnodes, hcalls⟩, rest⟩
  | ⟨.body path block inner :: tasks, b⟩, rfl =>
    obtain ⟨⟨hpath, -, hcalls⟩, rest⟩ := hscheduled
    have read : ∀ node ∈ readNested b.level 0 inner,
        ReadAt (Node.code block :: path).length node := by
      intro node hnode
      rw [List.length_cons, ← hpath]
      exact .body hnode
    exact ⟨hlevel, ⟨hpath, hlevel, read, hcalls⟩, rest⟩

theorem nested_of_reaches {env : Surroundings} {start now : Writing} (h : Reaches env start now)
    (hstart : Nested start) : Nested now := by
  induction h with
  | refl => exact hstart
  | tail _ hstep ih => exact nested_step hstep ih

theorem nested_start (settings : Settings) (t : List Char) :
    Nested (.start settings (readDocument t)) where
  level_le := Nat.zero_le _
  scheduled := ⟨⟨rfl, Nat.zero_le _, fun _ hnode => .template hnode, by simp [openCalls]⟩, trivial⟩

/-! ### Open calls -/

/-- Lists of nodes that are being written stand in one another. -/
theorem Scheduled.openCalls_pairwise {level : Nat} {tasks : List Task} (h : Scheduled level tasks) :
    (openCalls tasks).Pairwise (· > ·) ∧ ∀ call ∈ openCalls tasks, call ≤ maxNesting + 1 := by
  induction tasks generalizing level with
  | nil => simp [openCalls]
  | cons task tasks ih =>
    cases task with
    | edit edit => exact ih h.2
    | node path node => exact ih h.2
    | body path block inner => exact ih h.2
    | nodes path previous nodes =>
      obtain ⟨⟨rfl, hdepth, -, hcalls⟩, rest⟩ := h
      obtain ⟨ordered, bounded⟩ := ih rest
      exact ⟨List.pairwise_cons.2 ⟨hcalls, ordered⟩, List.forall_mem_cons.2 ⟨hdepth, bounded⟩⟩

theorem Scheduled.length_openCalls_le {level : Nat} {tasks : List Task}
    (h : Scheduled level tasks) : (openCalls tasks).length ≤ maxNesting + 2 := by
  obtain ⟨ordered, bounded⟩ := h.openCalls_pairwise
  have distinct : (openCalls tasks).Nodup := ordered.imp fun h => h.ne'
  have depths : openCalls tasks ⊆ List.range (maxNesting + 2) := fun call hcall =>
    List.mem_range.2 (Nat.lt_succ_of_le (bounded call hcall))
  simpa using (distinct.subperm depths).length_le

/-! ### Formatting -/

/-- A state within the limit. A node is written at the level of its depth, which is the number of
elements and blocks around it and the depth at which it was read; the body of a block is read one
level deeper than the block; only text is written below the limit. -/
structure WithinNesting (now : Writing) : Prop where
  level_le : now.buffer.level ≤ maxNesting + 1
  node_level : ∀ path node tasks, now.tasks = .node path node :: tasks →
    now.buffer.level = path.length ∧ ReadAt path.length node
  only_text_below : ∀ path node tasks, now.tasks = .node path node :: tasks →
    node.isText = false → now.buffer.level ≤ maxNesting
  node_nested : ∀ path node tasks, now.tasks = .node path node :: tasks →
    NestedWithin (maxNesting + 1 - path.length) node
  body_level : ∀ path block inner tasks, now.tasks = .body path block inner :: tasks →
    now.buffer.level = path.length + 1 ∧ ReadAt path.length (.code block)
  openCalls_le : (openCalls now.tasks).length ≤ maxNesting + 2

theorem Nested.withinNesting {now : Writing} (h : Nested now) : WithinNesting now := by
  obtain ⟨tasks, b⟩ := now
  have head {path : List Node} {node : Node} {rest : List Task}
      (htasks : tasks = .node path node :: rest) :
      b.level = path.length ∧ ReadAt path.length node := by
    subst htasks
    exact ⟨h.scheduled.1.1, h.scheduled.1.2.1⟩
  refine ⟨h.level_le, fun _ _ _ => head, ?_, ?_, ?_, h.scheduled.length_openCalls_le⟩
  · intro path node rest htasks hnode
    obtain ⟨hlevel, hread⟩ := head htasks
    exact hlevel.trans_le (hread.le_maxNesting hnode)
  · intro path node rest htasks
    exact (head htasks).2.nestedWithin
  · rintro path block inner rest rfl
    exact ⟨h.scheduled.1.1, h.scheduled.1.2.1⟩

/-- Formatting a template is a run of steps, and every state of the run is within the limit. -/
theorem format_within_nesting (indenter : Indenter) (settings : Settings) (t : List Char) :
    (∃ last, Reaches ⟨settings, indenter⟩ (.start settings (readDocument t)) ⟨[], last⟩ ∧
      formatWith indenter settings t = cleanUp settings last.output) ∧
    ∀ now, Reaches ⟨settings, indenter⟩ (.start settings (readDocument t)) now →
      WithinNesting now := by
  refine ⟨⟨_, reaches_write ⟨settings, indenter⟩ settings (readDocument t), rfl⟩, ?_⟩
  intro now hnow
  exact (nested_of_reaches hnow (nested_start settings t)).withinNesting

/-- A block at the moment when its body is to be read. -/
theorem format_within_nesting_body :
    let block : CodeBlock := .control .ifBlock "if (a)".toList "<b/>".toList ⟨0, 14⟩
    let now : Writing := ⟨[.body [] block "<b/>".toList, .edit .dedent, .edit (.writeLine ['}']),
      .nodes [] (some (.code block)) []],
      (((Buffer.new {}).writeLine "@if (a)".toList).writeLine ['{']).indent⟩
    Reaches ⟨{}, Code.indent⟩ (.start {} (readDocument "@if (a) \x7b<b/>\x7d".toList)) now ∧
      WithinNesting now := by
  intro block now
  have read : readDocument "@if (a) \x7b<b/>\x7d".toList = [.code block] := by cbv
  have tasks : nodeTasks ⟨{}, Code.indent⟩ [] (.code block)
      = [.edit (.writeLine "@if (a)".toList), .edit (.writeLine ['{']), .edit .indent,
        .body [] block "<b/>".toList, .edit .dedent, .edit (.writeLine ['}'])] := by cbv
  have reached : Reaches ⟨{}, Code.indent⟩ (.start {} (readDocument "@if (a) \x7b<b/>\x7d".toList))
      now := by
    rw [read]
    refine .head rfl (.head rfl (.head rfl ?_))
    rw [tasks]
    exact .head rfl (.head rfl (.single rfl))
  exact ⟨reached, (format_within_nesting _ _ _).2 _ reached⟩

end RazorLayout.Layout

import RazorLayout.Proofs.Source.Razor
import RazorLayout.Proofs.Template.Depth

/-!
# Reading content by places

The scanner goes from one `@` or `<` to the next. What stands in front of it is text, and it is put
behind the nodes at once, so that texts are joined and blank text is dropped while the content is
read. The reader goes the same way in smaller steps and joins the texts at the end. Both end with
the same nodes.

The loop of the scanner has to know whether an expression ends right in front of an `@`. It looks at
the last node for that, while the reader remembers it from step to step; `Settled` says that the two
agree.

## Main definitions

* `merged`: nodes behind each other, the last one first, with their texts joined
* `Settled`: what the last node says about an expression at a place
* `ContentProgress.Follows`: a state of the scanner that follows one of the reader

## Main results

* `mergeTexts_concat`: one more node behind nodes whose texts are joined
* `contentRound_keeps`: one round of the loop
* `scanContent_eq`, `scanNested_eq`: content at any depth
-/

namespace RazorLayout.Template

open Text Code

/-! ### Joining texts from the front -/

section Joining

variable {node x : Node} {nodes : List Node}

theorem mergeOnto_of_not_isText (h : node.isText = false) (nodes : List Node) :
    Node.mergeOnto node nodes = node :: nodes := by
  cases node <;> simp_all [Node.isText, Node.mergeOnto]

theorem pushNode_of_not_isText (h : x.isText = false) (nodes : List Node) :
    pushNode nodes x = x :: nodes := by
  cases x <;> simp_all [Node.isText, pushNode]

theorem mergeOnto_of_allBlank {content : List Char} (h : allBlank content = true) (span : Span)
    (nodes : List Node) : Node.mergeOnto (.text content span) nodes = nodes := by
  simp [Node.mergeOnto, h]

theorem pushNode_of_allBlank {content : List Char} (h : allBlank content = true) (span : Span)
    (nodes : List Node) : pushNode nodes (.text content span) = nodes := by
  simp [pushNode, h]

/-- Only the next node matters. -/
theorem mergeOnto_cons (node first : Node) (nodes : List Node) :
    Node.mergeOnto node (first :: nodes) = Node.mergeOnto node [first] ++ nodes := by
  cases node with
  | text content span =>
    cases first with
    | text next nextSpan =>
      simp only [Node.mergeOnto]
      split_ifs <;> rfl
    | selfClosing | element | declaration | code =>
      simp only [Node.mergeOnto]
      split_ifs <;> rfl
  | selfClosing | element | declaration | code => rfl

/-- Only the last node matters. -/
theorem pushNode_cons (last x : Node) (nodes : List Node) :
    pushNode (last :: nodes) x = pushNode [last] x ++ nodes := by
  cases x with
  | text content span =>
    cases last with
    | text before beforeSpan =>
      simp only [pushNode]
      split_ifs <;> rfl
    | selfClosing | element | declaration | code =>
      simp only [pushNode]
      split_ifs <;> rfl
  | selfClosing | element | declaration | code => rfl

theorem mergeOnto_concat_of_not_isText (h : x.isText = false) (node : Node) (nodes : List Node) :
    Node.mergeOnto node (nodes ++ [x]) = Node.mergeOnto node nodes ++ [x] := by
  cases nodes with
  | nil =>
    cases node with
    | text content span =>
      cases x <;> simp_all [Node.isText, Node.mergeOnto]
      all_goals split_ifs <;> rfl
    | selfClosing | element | declaration | code => rfl
  | cons y nodes =>
    rw [List.cons_append, mergeOnto_cons, mergeOnto_cons node y nodes, List.append_assoc]

theorem pushNode_concat_of_not_isText (h : node.isText = false) (x : Node) (nodes : List Node) :
    pushNode (nodes ++ [node]) x = pushNode nodes x ++ [node] := by
  cases nodes with
  | nil =>
    cases x with
    | text content span =>
      cases node <;> simp_all [Node.isText, pushNode]
      all_goals split_ifs <;> rfl
    | selfClosing | element | declaration | code => rfl
  | cons y nodes => rw [List.cons_append, pushNode_cons, pushNode_cons y x nodes, List.append_assoc]

/-- A text that is put in front and one that is put behind, with one node in between. -/
theorem mergeOnto_pushNode_text {content before : List Char} (hcontent : allBlank content = false)
    (hbefore : allBlank before = false) (span beforeSpan : Span) (y : Node) :
    Node.mergeOnto (.text before beforeSpan) (pushNode [y] (.text content span)).reverse
      = (pushNode (Node.mergeOnto (.text before beforeSpan) [y]).reverse
          (.text content span)).reverse := by
  cases y with
  | text inner innerSpan =>
    simp only [pushNode, Node.mergeOnto, hcontent, hbefore, Bool.false_eq_true, if_false]
    split_ifs <;> simp_all
  | selfClosing | element | declaration | code => simp [pushNode, Node.mergeOnto, hcontent, hbefore]

/-- A node that is put in front and one that is put behind may be put in either order. -/
theorem mergeOnto_pushNode (node x : Node) (nodes : List Node) :
    Node.mergeOnto node (pushNode nodes.reverse x).reverse
      = (pushNode (Node.mergeOnto node nodes).reverse x).reverse := by
  cases hx : x.isText with
  | false =>
    rw [pushNode_of_not_isText hx, pushNode_of_not_isText hx, List.reverse_cons, List.reverse_cons,
      List.reverse_reverse, List.reverse_reverse, mergeOnto_concat_of_not_isText hx]
  | true =>
  cases hnode : node.isText with
  | false =>
    rw [mergeOnto_of_not_isText hnode, mergeOnto_of_not_isText hnode, List.reverse_cons,
      pushNode_concat_of_not_isText hnode, List.reverse_append, List.reverse_singleton]
    rfl
  | true =>
  obtain ⟨content, span, rfl⟩ : ∃ content span, x = .text content span := by
    cases x <;> simp_all [Node.isText]
  obtain ⟨before, beforeSpan, rfl⟩ : ∃ content span, node = .text content span := by
    cases node <;> simp_all [Node.isText]
  cases hcontent : allBlank content with
  | true => simp only [pushNode_of_allBlank hcontent, List.reverse_reverse]
  | false =>
  cases hbefore : allBlank before with
  | true => simp only [mergeOnto_of_allBlank hbefore]
  | false =>
  -- two texts that both stay, with any number of nodes in between
  cases nodes with
  | nil =>
    simp only [pushNode, Node.mergeOnto, List.reverse_nil, List.reverse_singleton, hcontent,
      hbefore, Bool.false_eq_true, if_false]
    split_ifs <;> rfl
  | cons y nodes =>
    rcases List.eq_nil_or_concat nodes with rfl | ⟨between, z, rfl⟩
    · exact mergeOnto_pushNode_text hcontent hbefore span beforeSpan y
    · -- the two ends do not see each other
      have front (behind : List Node) :
          Node.mergeOnto (.text before beforeSpan) (y :: between ++ behind)
          = Node.mergeOnto (.text before beforeSpan) [y] ++ between ++ behind := by
        rw [List.cons_append, mergeOnto_cons, List.append_assoc]
      have back (first : List Node) : (pushNode (first ++ [z]).reverse (.text content span)).reverse
          = first ++ (pushNode [z] (.text content span)).reverse := by
        rw [List.reverse_append, List.reverse_singleton, List.singleton_append, pushNode_cons,
          List.reverse_append, List.reverse_reverse]
      rw [List.concat_eq_append, ← List.cons_append, back, front, front, back]

/-- One more node behind nodes whose texts are joined. -/
theorem mergeTexts_concat (nodes : List Node) (x : Node) :
    Node.mergeTexts (nodes ++ [x]) = (pushNode (Node.mergeTexts nodes).reverse x).reverse := by
  induction nodes with
  | nil =>
    rw [List.nil_append, ← pushNode_nil]
    cases x <;> simp only [pushNode, Node.mergeTexts, List.foldr_nil, List.reverse_nil] <;>
      (try split_ifs) <;> rfl
  | cons node nodes ih =>
    have front (nodes : List Node) :
        Node.mergeTexts (node :: nodes) = Node.mergeOnto node (Node.mergeTexts nodes) := rfl
    rw [List.cons_append, front, front, ih, mergeOnto_pushNode]

/-- Nodes behind each other, the last one first, with their texts joined. -/
def merged (nodes : List Node) : List Node := (Node.mergeTexts nodes.reverse).reverse

theorem merged_append (found nodes : List Node) :
    merged (found.reverse ++ nodes) = found.foldl pushNode (merged nodes) := by
  induction found generalizing nodes with
  | nil => rfl
  | cons x found ih =>
    rw [List.reverse_cons, List.append_assoc, List.singleton_append, ih, List.foldl_cons, merged,
      List.reverse_cons, mergeTexts_concat, List.reverse_reverse]
    rfl

end Joining

/-! ### Expressions that end at a place -/

/-- Nodes, the last one first, that end no expression behind a place, and one at the place exactly
when `ends` says so. -/
structure Settled (nodes : List Node) (place : Nat) (ends : Bool) : Prop where
  stop_le : ∀ node ∈ nodes.head?, node.isExpression = true → node.span.stop ≤ place
  ends_eq : endsWithExpression nodes place = ends

theorem settled_nil (place : Nat) : Settled [] place false := ⟨by simp, rfl⟩

theorem settled_of_lt {nodes : List Node} {place : Nat}
    (h : ∀ node ∈ nodes.head?, node.isExpression = true → node.span.stop < place) :
    Settled nodes place false where
  stop_le node hnode hexpression := (h node hnode hexpression).le
  ends_eq := by
    cases nodes with
    | nil => rfl
    | cons node nodes =>
      simp only [endsWithExpression, List.head?_cons, Option.any_some, Bool.and_eq_false_iff,
        beq_eq_false_iff_ne]
      by_cases hexpression : node.isExpression = true
      · exact .inr (h node rfl hexpression).ne
      · exact .inl (by simpa using hexpression)

/-- Behind a node that is no expression, no other expression is the last node. -/
theorem head?_pushNode {x : Node} (hx : x.isExpression = false) {nodes : List Node} {node : Node}
    (hnode : node ∈ (pushNode nodes x).head?) (hexpression : node.isExpression = true) :
    node ∈ nodes.head? := by
  cases x with
  | text content span =>
    simp only [pushNode] at hnode
    split at hnode
    · exact hnode
    · exfalso
      split at hnode
      · split at hnode
        all_goals
          obtain rfl := Option.some.inj hnode
          simp [Node.isExpression] at hexpression
      · obtain rfl := Option.some.inj hnode
        simp [Node.isExpression] at hexpression
  | selfClosing | element | declaration | code =>
    obtain rfl := Option.some.inj hnode
    simp [hx] at hexpression

theorem head?_foldl_pushNode {found nodes : List Node} {node : Node}
    (hfound : ∀ x ∈ found, x.isExpression = false)
    (hnode : node ∈ (found.foldl pushNode nodes).head?) (hexpression : node.isExpression = true) :
    node ∈ nodes.head? := by
  induction found generalizing nodes with
  | nil => exact hnode
  | cons x found ih =>
    obtain ⟨hx, hfound⟩ := List.forall_mem_cons.1 hfound
    exact head?_pushNode hx (ih hfound hnode) hexpression

/-- Nodes that are pushed together: none of them is an expression, or there is only one node, an
expression that ends where the reader goes on. -/
def EndsTogether (found : List Node) (stop : Nat) : Prop :=
  (∀ x ∈ found, x.isExpression = false) ∨
    ∃ x, found = [x] ∧ x.isExpression = true ∧ x.span.stop = stop

/-- Behind nodes that are found, the last node says what the reader remembers. -/
theorem Settled.push {nodes found : List Node} {place stop : Nat} {ends : Bool}
    (h : Settled nodes place ends) (hlt : place < stop) (hfound : EndsTogether found stop) :
    Settled (found.foldl pushNode nodes) stop (found.any Node.isExpression) := by
  rcases hfound with hfound | ⟨x, rfl, hx, rfl⟩
  · -- an expression that is still the last node ended before these nodes began
    have none : found.any Node.isExpression = false := by simpa using hfound
    rw [none]
    refine settled_of_lt fun node hnode hexpression => ?_
    exact (h.stop_le node (head?_foldl_pushNode hfound hnode hexpression) hexpression).trans_lt hlt
  · have pushed : [x].foldl pushNode nodes = x :: nodes := by
      refine pushNode_of_not_isText ?_ nodes
      cases x <;> simp_all [Node.isText, Node.isExpression]
    rw [pushed]
    exact ⟨by simp, by simp [endsWithExpression, hx]⟩

/-! ### What an `@` or a `<` begins -/

/-- Every text stands behind any number of bytes of some source. -/
theorem exists_between (pos : Nat) (s : List Char) :
    ∃ source, Between source pos (pos + byteLength s) s := by
  have front : byteLength (List.replicate pos 'a') = pos := by
    induction pos with
    | zero => rfl
    | succ pos ih =>
      rw [List.replicate_succ, byteLength_cons, ih, Nat.add_comm]
      rfl
  exact ⟨List.replicate pos 'a' ++ s, _, [], by simp, front, by simp [front]⟩

theorem readRazor?_pos {pos n : Nat} {previous : Option Char} {afterExpression : Bool}
    {r : List Char} {nodes : List Node}
    (h : readRazor? pos previous afterExpression ('@' :: r) = some (nodes, n)) : 0 < n := by
  obtain ⟨source, hs⟩ := exists_between pos ('@' :: r)
  exact (reads_readRazor? hs rfl h).progress

theorem readMarkup?_pos {levels pos n : Nat} {r : List Char} {node : Node}
    (h : readMarkup? (readContent levels) pos ('<' :: r) = some (node, n)) : 0 < n := by
  obtain ⟨source, hs⟩ := exists_between pos ('<' :: r)
  exact (reads_readMarkup? (fun _ _ _ hinner => laid_readContent levels hinner) hs rfl h).progress

theorem endsTogether_of_construct {pos n : Nat} {s : List Char} {nodes : List Node}
    (h : Construct pos s nodes n) : EndsTogether nodes (pos + byteLength (s.take n)) := by
  have blocks (h : ∀ node ∈ nodes, ∃ block, node = .code block ∧ block.kind.isControl = true) :
      EndsTogether nodes (pos + byteLength (s.take n)) := by
    refine .inl fun node hnode => ?_
    obtain ⟨block, rfl, hcontrol⟩ := h node hnode
    cases hkind : block.kind <;> simp_all [Node.isExpression, CodeKind.isControl]
  cases h with
  | mark hs => exact .inl (by simp [Node.isExpression])
  | comment hread => exact .inl (by simp [Node.isExpression, codeNode])
  | directive hread => exact .inl (by simp [Node.isExpression, codeNode])
  | ifChain hread => exact blocks (control_readIfChain? hread)
  | foreachLoop hread => exact blocks (control_readForeach? hread)
  | inlineBlock hread => exact .inl (by simp [Node.isExpression, codeNode])
  | parenthesised hs hread => exact .inr ⟨_, rfl, by simp [Node.isExpression, codeNode], rfl⟩
  | expression hread => exact .inr ⟨_, rfl, by simp [Node.isExpression, codeNode], rfl⟩

theorem isExpression_of_readMarkup? {children : Nat → List Char → List Node} {pos n : Nat}
    {r : List Char} {node : Node} (h : readMarkup? children pos ('<' :: r) = some (node, n)) :
    node.isExpression = false := by
  cases markup_of_readMarkup? h with
  | comment hread => rfl
  | declaration hrest hread => rfl
  | element hrest hletter hread =>
    rcases readElement?_eq_some rfl hread with ⟨tag, rfl, -⟩ | ⟨_, _, _, _, _, -, -, rfl⟩ <;> rfl

/-! ### The next place where something may begin -/

theorem findPlace?_append {c : Char} {piece : List Char} (hc : c ∉ piece) (rest : List Char) :
    findPlace? [c] (piece ++ rest) = (findPlace? [c] rest).map (byteLength piece + ·) := by
  induction piece with
  | nil => simp
  | cons d piece ih =>
    obtain ⟨hd, hpiece⟩ := not_or.1 (List.mem_cons.not.1 hc)
    have step : findPlace? [c] (d :: (piece ++ rest))
        = (findPlace? [c] (piece ++ rest)).map (d.utf8Size + ·) := by
      rw [findPlace?, findPlace?, find?_cons_of_ne (Ne.symm hd), Option.map_map, Option.map_map]
      congr 1
      funext n
      simp
    rw [List.cons_append, step, ih hpiece, Option.map_map]
    congr 1
    funext n
    simp [Nat.add_assoc]

theorem findPlace?_head (c : Char) (s : List Char) : findPlace? [c] (c :: s) = some 0 := by
  rw [findPlace?, find?_head]
  rfl

/-- A text, up to the first place where something may begin. -/
theorem exists_piece (s : List Char) : ∃ piece rest, s = piece ++ rest ∧ '@' ∉ piece ∧ '<' ∉ piece ∧
    (rest = [] ∨ ∃ c r, rest = c :: r ∧ (c = '@' ∨ c = '<')) := by
  induction s with
  | nil => exact ⟨[], [], rfl, by simp, by simp, .inl rfl⟩
  | cons c s ih =>
    by_cases hc : c = '@' ∨ c = '<'
    · exact ⟨[], c :: s, rfl, by simp, by simp, .inr ⟨c, s, rfl, hc⟩⟩
    · obtain ⟨piece, rest, rfl, hmark, hmarkup, hrest⟩ := ih
      obtain ⟨hat, hlt⟩ := not_or.1 hc
      exact ⟨c :: piece, rest, rfl, by simp [hmark, Ne.symm hat], by simp [hmarkup, Ne.symm hlt],
        hrest⟩

/-- The next construct begins behind a piece that holds neither mark. -/
theorem nextBegin?_eq {piece : List Char} (hmark : '@' ∉ piece) (hmarkup : '<' ∉ piece)
    {c : Char} (hc : c = '@' ∨ c = '<') (r : List Char) :
    nextBegin? (piece ++ c :: r) = some (byteLength piece, c == '@') := by
  rw [nextBegin?, findPlace?_append hmark, findPlace?_append hmarkup]
  rcases hc with rfl | rfl
  · have later : findPlace? ['<'] ('@' :: r) = (findPlace? ['<'] r).map (1 + ·) :=
      findPlace?_append (by decide : '<' ∉ ['@']) r
    rw [findPlace?_head, later]
    cases findPlace? ['<'] r <;> simp
  · have later : findPlace? ['@'] ('<' :: r) = (findPlace? ['@'] r).map (1 + ·) :=
      findPlace?_append (by decide : '@' ∉ ['<']) r
    rw [findPlace?_head, later]
    cases findPlace? ['@'] r <;> simp

theorem nextBegin?_eq_none {piece : List Char} (hmark : '@' ∉ piece) (hmarkup : '<' ∉ piece) :
    nextBegin? piece = none := by
  have none : ∀ c ∉ piece, findPlace? [c] piece = none := by
    intro c hc
    rw [← List.append_nil piece, findPlace?_append hc]
    rfl
  rw [nextBegin?, none _ hmark, none _ hmarkup]

/-! ### Rounds -/

/-- What begins at the head of a text. -/
def readConstruct? (children : Nat → List Char → List Node) (p : Progress) (s : List Char) :
    Option (List Node × Nat) :=
  match s with
  | '@' :: _ => readRazor? p.pos p.previous p.afterExpression s
  | '<' :: _ => (readMarkup? children p.pos s).map fun (node, n) => ([node], n)
  | _ => none

/-- A step where something may begin: what begins there, or one character. -/
theorem contentStep_begin (children : Nat → List Char → List Node) (p : Progress) {s : List Char}
    (h : mayBegin s = true) :
    contentStep children p s =
      let (nodes, n) := (readConstruct? children p s).getD ([literal p.pos 1 s], 1)
      some (p.push nodes n s, n) := by
  unfold mayBegin at h
  split at h
  · rfl
  · rename_i r
    simp only [contentStep, readConstruct?]
    cases readMarkup? children p.pos ('<' :: r) <;> rfl
  · cases h

/-- A state of the scanner that follows a state of the reader, whose text stands behind `base` bytes
of the source. -/
structure ContentProgress.Follows (st : ContentProgress) (t : List Char) (base : Nat) (p : Progress)
    (s : List Char) : Prop where
  behind : ∃ u, t = u ++ s ∧ byteLength u = st.place ∧ u.getLast? = p.previous
  pos_eq : p.pos = base + st.place
  nodes_eq : st.nodes = merged p.nodes
  settled : Settled st.nodes p.pos p.afterExpression

section Rounds

variable {t s : List Char} {base : Nat} {st : ContentProgress} {p : Progress}

theorem ContentProgress.Follows.restAt (h : st.Follows t base p s) : RestAt t st.place s := by
  obtain ⟨u, ht, hu, -⟩ := h.behind
  exact ⟨u, ht, hu⟩

/-- Nodes that the reader finds are pushed. -/
theorem ContentProgress.Follows.push (h : st.Follows t base p s) {found : List Node} {n : Nat}
    (hn : 0 < n) (hs : s ≠ []) (hfound : EndsTogether found (p.pos + byteLength (s.take n))) :
    ContentProgress.Follows ⟨st.place + byteLength (s.take n), found.foldl pushNode st.nodes⟩ t base
      (p.push found n s) (s.drop n) where
  behind := by
    obtain ⟨u, rfl, hu, -⟩ := h.behind
    refine ⟨u ++ s.take n, by simp, by simp [hu], ?_⟩
    have taken : s.take n ≠ [] := by simpa [hs] using hn.ne'
    rw [List.getLast?_append_of_ne_nil _ taken]
    rfl
  pos_eq := by simp only [Progress.push, h.pos_eq, Nat.add_assoc]
  nodes_eq := by simp only [Progress.push, merged_append, h.nodes_eq]
  settled := by
    have taken : 0 < byteLength (s.take n) := byteLength_pos (by simpa [hs] using hn.ne')
    exact h.settled.push (by simp only [Progress.push]; omega) hfound

/-- Literal text is pushed. -/
theorem ContentProgress.Follows.literal (h : st.Follows t base p s) {n : Nat} (hn : 0 < n)
    (hs : s ≠ []) {stop : Nat} (hstop : stop = st.place + byteLength (s.take n)) :
    ∃ nodes, scanText t base st.nodes st.place stop = .ok nodes ∧
      ContentProgress.Follows ⟨stop, nodes⟩ t base (p.push [literal p.pos n s] n s) (s.drop n) := by
  have taken : 0 < byteLength (s.take n) := byteLength_pos (by simpa [hs] using hn.ne')
  have ends : EndsTogether [Template.literal p.pos n s] (p.pos + byteLength (s.take n)) :=
    .inl (by simp [Template.literal, Node.isExpression])
  have pushed := h.push hn hs ends
  rw [← hstop] at pushed
  refine ⟨_, ?_, pushed⟩
  rw [scanText, if_pos (by omega), hstop, h.restAt.slice_take, ok_bind, pure_eq_ok]
  simp only [List.foldl_cons, List.foldl_nil, Template.literal, h.pos_eq, Nat.add_assoc]

/-- The text in front of the next construct. -/
theorem ContentProgress.Follows.text (h : st.Follows t base p s)
    (children : Nat → List Char → List Node) {piece rest : List Char} (hs : s = piece ++ rest)
    (hmark : '@' ∉ piece) (hmarkup : '<' ∉ piece) (hrest : mayStop rest = true) :
    ∃ nodes p', scanText t base st.nodes st.place (st.place + byteLength piece) = .ok nodes ∧
      ContentProgress.Follows ⟨st.place + byteLength piece, nodes⟩ t base p' rest ∧
      advance (contentStep children) 0 p s = advance (contentStep children) 0 p' rest := by
  subst hs
  by_cases hpiece : piece = []
  · subst hpiece
    exact ⟨st.nodes, p, by simp [scanText], h, rfl⟩
  · obtain ⟨nodes, hscan, hnodes⟩ := h.literal (n := piece.length)
      (List.length_pos_of_ne_nil hpiece) (by simp [hpiece]) (by rw [List.take_left])
    rw [List.drop_left] at hnodes
    refine ⟨nodes, _, hscan, hnodes, ?_⟩
    rw [advance_contentStep_text children p hmarkup hmark hpiece hrest]
    simp [Progress.push, Template.literal, Node.isExpression]

/-- The nodes that a reader finds when it goes on in front of a text. -/
def contentFrom (levels : Nat) (x : Progress × List Char) : List Node :=
  Node.mergeTexts (advance (contentStep (readContent levels)) 0 x.1 x.2).1.nodes.reverse

theorem contentFrom_step {levels n : Nat} {p' : Progress}
    (h : contentStep (readContent levels) p s = some (p', n)) (hn : 0 < n) (hs : s ≠ []) :
    contentFrom levels (p', s.drop n) = contentFrom levels (p, s) := by
  rw [contentFrom, contentFrom]
  dsimp only
  rw [advance_of_step h hn hs]

section Children

variable {scan : Nat → List Char → Checked (List Node)} {levels : Nat}
  (hscan : ∀ pos inner, scan pos inner = .ok (readContent levels pos inner))

theorem readConstruct?_eq_some {found : List Node} {n : Nat}
    (h : readConstruct? (readContent levels) p s = some (found, n)) :
    0 < n ∧ EndsTogether found (p.pos + byteLength (s.take n)) := by
  unfold readConstruct? at h
  split at h
  · exact ⟨readRazor?_pos h, endsTogether_of_construct (construct_of_readRazor? h)⟩
  · simp only [Option.map_eq_some_iff, Prod.mk.injEq, Prod.exists] at h
    obtain ⟨node, m, hread, rfl, rfl⟩ := h
    exact ⟨readMarkup?_pos hread, .inl (by simpa using isExpression_of_readMarkup? hread)⟩
  · cases h

include hscan

theorem scanConstruct_eq {c : Char} {r : List Char} (h : st.Follows t base p (c :: r))
    (hc : c = '@' ∨ c = '<') :
    scanConstruct scan t base st.nodes (c == '@') st.place
      = .ok (inPlaces st.place (c :: r) (readConstruct? (readContent levels) p (c :: r))) := by
  rcases hc with rfl | rfl
  · obtain ⟨u, rfl, hu, hprevious⟩ := h.behind
    have ends := h.settled.ends_eq
    have razor := scanRazor_eq (u := u) (r := r) base p.afterExpression
    rw [h.pos_eq, ← hu] at ends
    rw [hprevious] at razor
    simp only [scanConstruct, beq_self_eq_true, if_true, readConstruct?, h.pos_eq, ← hu, ends,
      razor]
  · have markup : scanMarkup scan t base st.place = _ := scanMarkup_eq hscan h.restAt rfl
    simp only [scanConstruct, markup, ok_bind, readConstruct?, h.pos_eq]
    cases readMarkup? (readContent levels) (base + st.place) ('<' :: r) <;> rfl

theorem contentRound_keeps (h : st.Follows t base p s) :
    RoundKeeps (byteLength t) ContentProgress.place (contentRound scan t base)
      (fun st x => st.Follows t base x.1 x.2) (contentFrom levels) st (p, s) := by
  have rest := h.restAt
  have bound := rest.add_byteLength
  rw [RoundKeeps, contentRound]
  by_cases hs : s = []
  · -- the text is used up
    subst hs
    rw [byteLength_nil] at bound
    rw [if_pos (by omega), pure_eq_ok, h.nodes_eq, merged, List.reverse_reverse]
    exact .inl rfl
  have taken := byteLength_pos hs
  rw [if_neg (by omega), rest.sliceFrom, ok_bind]
  obtain ⟨piece, behind, hcut, hmark, hmarkup, hbehind⟩ := exists_piece s
  obtain ⟨nodes, p', htext, hfollows, hadvance⟩ := h.text (readContent levels) hcut hmark hmarkup
    (by rcases hbehind with rfl | ⟨c, r, rfl, rfl | rfl⟩ <;> rfl)
  have same : contentFrom levels (p, s) = contentFrom levels (p', behind) := by
    rw [contentFrom, contentFrom, hadvance]
  rw [same]
  rcases hbehind with rfl | ⟨c, r, rfl, hc⟩
  · -- nothing begins any more
    rw [List.append_nil] at hcut
    subst hcut
    rw [nextBegin?_eq_none hmark hmarkup]
    have cut := rest.slice_take s.length
    rw [List.take_length] at cut
    rw [scanText, if_pos (by omega), cut, ok_bind, bound] at htext
    obtain rfl := Except.ok.inj htext
    refine .inl ?_
    have nodes := hfollows.nodes_eq
    dsimp only at nodes ⊢
    rw [nodes, merged, List.reverse_reverse]
    rfl
  · subst hcut
    rw [nextBegin?_eq hmark hmarkup hc]
    have construct := scanConstruct_eq hscan hfollows hc
    have step := contentStep_begin (readContent levels) p' (s := c :: r)
      (by rcases hc with rfl | rfl <;> rfl)
    dsimp only at construct ⊢
    rw [htext, ok_bind, construct, ok_bind]
    cases hread : readConstruct? (readContent levels) p' (c :: r) with
    | some answer =>
      obtain ⟨found, n⟩ := answer
      obtain ⟨hn, hfound⟩ := readConstruct?_eq_some hread
      have next := hfollows.push hn (by simp) hfound
      rw [hread] at step
      have moved := byteLength_pos (s := (c :: r).take n) (by simpa using hn.ne')
      have reached := next.restAt.add_byteLength
      refine .inr ⟨_, (_, _), rfl, ?_, ?_, next, ?_⟩
      · dsimp only
        omega
      · dsimp only at reached ⊢
        omega
      · exact contentFrom_step step hn (by simp)
    | none =>
      -- what begins nothing is one character of text
      rw [hread] at step
      have width : byteLength ((c :: r).take 1) = 1 := by rcases hc with rfl | rfl <;> rfl
      obtain ⟨nodes', htext', hfollows'⟩ :=
        hfollows.literal (n := 1) Nat.one_pos (by simp) (by rw [width])
      have reached := hfollows'.restAt.add_byteLength
      dsimp only at htext' reached
      refine .inr ⟨⟨st.place + byteLength piece + 1, nodes'⟩, (_, _), ?_, ?_, ?_, hfollows', ?_⟩
      · rw [inPlaces_none, htext']
        rfl
      · dsimp only
        omega
      · dsimp only
        omega
      · exact contentFrom_step step Nat.one_pos (by simp)

end Children

end Rounds

theorem scanContent_eq (levels base : Nat) (t : List Char) :
    scanContent levels base t = .ok (readContent levels base t) := by
  -- on the levels: the content of elements is one level deeper
  induction levels generalizing base t with
  | zero =>
    rw [scanContent, pushNode_nil, readContent, literal, List.take_length]
    rfl
  | succ levels ih =>
    have start : ContentProgress.Follows ⟨0, []⟩ t base { pos := base } t :=
      ⟨⟨[], rfl, rfl, rfl⟩, rfl, rfl, settled_nil base⟩
    exact loop_eq_ok (x := ({ pos := base }, t)) (fun _ _ => contentRound_keeps ih) start

theorem scanNested_eq (depth base : Nat) (t : List Char) :
    scanNested depth base t = .ok (readNested depth base t) :=
  scanContent_eq _ base t

end RazorLayout.Template

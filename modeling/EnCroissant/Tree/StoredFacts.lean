import EnCroissant.Tree.CommentSplits
import EnCroissant.Tree.Stored

/-!
# Reading a stored tree twice

A tree that has been read is read again as it is, and the first read keeps the
prose, the commands and the drawings, as long as no command stands directly
behind the name of another one.
-/

namespace EnCroissant

open Skeleton

variable {ρ σ : Type} {syn : CommentSyntax}

/-! ## Drawings -/

theorem count_addedDrawings (counts : DrawingKey → ℕ)
    (drawings : List PgnDrawing) (key : DrawingKey) :
    ((addedDrawings counts drawings).map drawingIdentity).count key =
      ((drawings.map toDrawShape).map drawingIdentity).count key - counts key := by
  induction drawings generalizing counts with
  | nil => rw [addedDrawings]; simp
  | cons drawing drawings ih =>
      rw [addedDrawings, List.map_cons, List.map_cons, List.count_cons]
      split_ifs with hpos hkey hkey
      · rw [ih]
        obtain rfl := beq_iff_eq.mp hkey
        rw [Function.update_self]
        omega
      · rw [ih, Function.update_of_ne fun heq ↦ hkey (beq_iff_eq.mpr heq.symm)]
        omega
      · obtain rfl := beq_iff_eq.mp hkey
        rw [List.map_cons, List.count_cons_self, ih]
        omega
      · rw [List.map_cons, List.count_cons_of_ne fun heq ↦ hkey (beq_iff_eq.mpr heq), ih]
        omega

/-- The drawings are merged as multisets. -/
theorem retainHydratedDrawings_eq (shapes : List DrawShape) (drawings : List PgnDrawing) :
    (↑((retainHydratedDrawings shapes drawings).map drawingIdentity) : Multiset DrawingKey) =
      ↑(shapes.map drawingIdentity) ∪ ↑((drawings.map toDrawShape).map drawingIdentity) := by
  ext key
  rw [Multiset.count_union, Multiset.coe_count, Multiset.coe_count, Multiset.coe_count,
    retainHydratedDrawings, List.map_append, List.count_append, count_addedDrawings]
  omega

theorem retainHydratedDrawings_nil (shapes : List DrawShape) :
    retainHydratedDrawings shapes [] = shapes :=
  List.append_nil shapes

/-! ## One node -/

/-- The text that a read splits has a command directly behind the name of another one. -/
def StoredNode.Nested (node : StoredNode ρ) : Prop :=
  Skeleton.Nested (skeleton (node.commands.getD node.comment))

/-- What the first read of a node keeps: the prose, the commands without their drawings unless
the tree models them, and the drawings. -/
structure StoredNode.Kept (syn : CommentSyntax) (node : StoredNode ρ) (node' : PersistedNode ρ) :
    Prop where
  nags : ∀ nags, node.nags = some nags → node'.nags = nags
  prose : prose (skeleton node'.comment) = prose (skeleton node.comment)
  commands : cores (skeleton (node'.commands.getD [])) =
    match node.commands with
    | none => syn.keptCores node.comment
    | some commands => (cores (skeleton commands)).filterMap residualCore
  shapes : (↑(node'.shapes.map drawingIdentity) : Multiset DrawingKey) =
    ↑(node.shapes.map drawingIdentity) ∪
      ↑((((cores (skeleton (node.commands.getD node.comment))).flatMap
        CommandCore.drawings).map toDrawShape).map drawingIdentity)
  fields : node'.fields = node.fields

theorem nodeSchema_eq_some {node : StoredNode ρ} {node' : PersistedNode ρ}
    (h : nodeSchema node = some node') :
    node.nags = some node'.nags ∧ node.comment = node'.comment ∧
      node.commands = node'.commands ∧ node.shapes = node'.shapes ∧
      node.fields = node'.fields := by
  rw [nodeSchema] at h
  cases hnags : node.nags with
  | none =>
      rw [hnags] at h
      cases h
  | some nags =>
      rw [hnags] at h
      dsimp only at h
      split_ifs at h
      obtain rfl := Option.some.inj h
      exact ⟨rfl, rfl, rfl, rfl, rfl⟩

theorem nodeSchema_stored {node : StoredNode ρ} {node' : PersistedNode ρ}
    (h : nodeSchema node = some node') :
    nodeSchema node'.stored = some node' := by
  obtain ⟨hnags, hcomment, hcommands, hshapes, hfields⟩ := nodeSchema_eq_some h
  obtain ⟨nags, annotations, comment, commands, shapes, fields⟩ := node
  obtain rfl : nags = some node'.nags := hnags
  obtain rfl : comment = node'.comment := hcomment
  obtain rfl : commands = node'.commands := hcommands
  obtain rfl : shapes = node'.shapes := hshapes
  obtain rfl : fields = node'.fields := hfields
  exact h

theorem migrateNags_eq (node : StoredNode ρ) :
    ∃ nags annotations, migrateNags node = { node with nags, annotations } ∧
      ∀ found, node.nags = some found → nags = some found := by
  rw [migrateNags]
  split
  · split_ifs
    · exact ⟨_, _, rfl, fun found hfound ↦ by simp_all⟩
    · exact ⟨node.nags, node.annotations, rfl, fun _ hfound ↦ hfound⟩
  · exact ⟨node.nags, node.annotations, rfl, fun _ hfound ↦ hfound⟩

/-- A node that a read leaves as it is. -/
def StoredNode.Steady (node : StoredNode ρ) : Prop :=
  match node.commands with
  | none => cores (skeleton node.comment) = [] ∧ node.comment.trim = node.comment
  | some commands => ∀ core ∈ cores (skeleton commands), core.drawings = []

theorem migrateComment_of_steady {node : StoredNode ρ} (h : node.Steady) :
    migrateComment syn node = node := by
  obtain ⟨nags, annotations, comment, commands, shapes, fields⟩ := node
  cases commands with
  | none =>
      obtain ⟨htext, hcommands, hshapes⟩ := syn.splitPgnComment_of_cores_nil h.1 h.2
      rw [migrateComment]
      dsimp only
      rw [htext, hcommands, hshapes, retainHydratedDrawings_nil, if_pos rfl]
  | some commands =>
      have hshapes : (extractPgnDrawings commands).2 = [] := extractPgnDrawings_of_drawings h
      rw [migrateComment]
      dsimp only
      rw [hshapes, if_pos rfl]

theorem drawings_of_mem_kept {comment : Text} {core : CommandCore}
    (h : core ∈ syn.keptCores comment) : core.drawings = [] :=
  drawings_of_mem_residual (List.mem_filter.mp h).1

/-- One read is enough. -/
theorem steady_migrateComment (hplain : syn.PlainValues) {node : StoredNode ρ}
    (hnested : ¬node.Nested) :
    (migrateComment syn node).Steady := by
  obtain ⟨nags, annotations, comment, commands, shapes, fields⟩ := node
  cases commands with
  | none =>
      change ¬Skeleton.Nested (skeleton comment) at hnested
      have hcores := syn.cores_splitPgnComment hnested
      rw [migrateComment]
      dsimp only
      cases hkept : (syn.splitPgnComment comment false).commands with
      | nil =>
          rw [if_pos rfl]
          exact ⟨(hplain.splitPgnComment hnested).1, syn.trim_splitPgnComment comment⟩
      | cons c rest =>
          rw [if_neg (List.cons_ne_nil c rest)]
          intro core hcore
          rw [← hkept, hcores] at hcore
          exact drawings_of_mem_kept hcore
  | some commands =>
      change ¬Skeleton.Nested (skeleton commands) at hnested
      obtain ⟨hshapes, -, hcores, -⟩ := extractPgnDrawings_spec hnested
      rw [migrateComment]
      dsimp only
      split_ifs with hnil
      · rw [hnil] at hshapes
        exact fun core hcore ↦ List.flatMap_eq_nil_iff.mp hshapes.symm core hcore
      · intro core hcore
        rw [(sameCommands_trim _).cores, hcores] at hcore
        exact drawings_of_mem_residual hcore

theorem residualCore_of_drawings {core : CommandCore} (h : core.drawings = []) :
    residualCore core = some core := by
  rw [residualCore]
  cases hbody : core.drawingBody with
  | none => rfl
  | some body =>
      rw [CommandCore.drawings, hbody] at h
      have hentries : residualEntries body = drawingEntries body := by
        refine List.filter_eq_self.mpr fun entry hentry ↦ ?_
        exact Option.isNone_iff_eq_none.mpr (List.filterMap_eq_nil_iff.mp h entry hentry)
      have hne : drawingEntries body ≠ [] := List.splitOn_ne_nil ',' _
      have hjoin : [','].intercalate (drawingEntries body) = body.drop 1 :=
        List.intercalate_splitOn ','
      dsimp only
      rw [hentries, if_neg hne, hjoin, List.take_append_drop, ← body_eq_of_drawingBody hbody]

/-- What the migration of a comment does to the fields that it changes. -/
theorem migrateComment_spec (hplain : syn.PlainValues) {node : StoredNode ρ}
    (hnested : ¬node.Nested) :
    (migrateComment syn node).nags = node.nags ∧
      (migrateComment syn node).fields = node.fields ∧
      prose (skeleton (migrateComment syn node).comment) = prose (skeleton node.comment) ∧
      cores (skeleton ((migrateComment syn node).commands.getD [])) =
        (match node.commands with
        | none => syn.keptCores node.comment
        | some commands => (cores (skeleton commands)).filterMap residualCore) ∧
      (migrateComment syn node).shapes = retainHydratedDrawings node.shapes
        ((cores (skeleton (node.commands.getD node.comment))).flatMap CommandCore.drawings) := by
  obtain ⟨nags, annotations, comment, commands, shapes, fields⟩ := node
  cases commands with
  | none =>
      change ¬Skeleton.Nested (skeleton comment) at hnested
      obtain ⟨hshapes, -⟩ := extractPgnDrawings_spec hnested
      refine ⟨rfl, rfl, (hplain.splitPgnComment hnested).2, ?_, ?_⟩
      · have hcores := syn.cores_splitPgnComment hnested
        have hcommands : (migrateComment syn
            ⟨nags, annotations, comment, none, shapes, fields⟩ : StoredNode ρ).commands.getD [] =
              (syn.splitPgnComment comment false).commands := by
          rw [migrateComment]
          dsimp only
          split_ifs with hnil
          · exact hnil.symm
          · rfl
        rw [hcommands, hcores]
      · exact congrArg (retainHydratedDrawings shapes) hshapes
  | some commands =>
      change ¬Skeleton.Nested (skeleton commands) at hnested
      obtain ⟨hshapes, -, hcores, -⟩ := extractPgnDrawings_spec hnested
      rw [migrateComment]
      dsimp only
      split_ifs with hnil
      · rw [hnil] at hshapes
        refine ⟨rfl, rfl, rfl, ?_, ?_⟩
        · have hall : ∀ core ∈ cores (skeleton commands), residualCore core = some core :=
            fun core hcore ↦ residualCore_of_drawings
              (List.flatMap_eq_nil_iff.mp hshapes.symm core hcore)
          exact (List.filterMap_congr hall).trans List.filterMap_some |>.symm
        · exact (congrArg (retainHydratedDrawings shapes) hshapes.symm).trans
            (retainHydratedDrawings_nil shapes) |>.symm
      · refine ⟨rfl, rfl, rfl, ?_, ?_⟩
        · exact ((sameCommands_trim _).cores).trans hcores
        · exact congrArg (retainHydratedDrawings shapes) hshapes

/-- A node that was read is read again as it is, and the first read lost nothing. -/
theorem migrateNode_spec (hplain : syn.PlainValues) {node : StoredNode ρ} {node' : PersistedNode ρ}
    (hnested : ¬node.Nested) (h : nodeSchema (migrateNode syn node) = some node') :
    migrateNode syn node'.stored = node'.stored ∧ node.Kept syn node' := by
  obtain ⟨nags, annotations, hmigrated, hnags⟩ := migrateNags_eq node
  have hnested' : ¬(migrateNags node).Nested := by
    rw [hmigrated]
    exact hnested
  obtain ⟨hnags', hcomment, hcommands, hshapes, hfields⟩ := nodeSchema_eq_some h
  rw [migrateNode] at hnags' hcomment hcommands hshapes hfields
  have hsteady := steady_migrateComment hplain hnested'
  obtain ⟨hsame, hother, hprose, hcores, hdrawings⟩ := migrateComment_spec hplain hnested'
  constructor
  · have hnagsEq : migrateNags node'.stored = node'.stored := rfl
    rw [migrateNode, hnagsEq]
    refine migrateComment_of_steady ?_
    rw [StoredNode.Steady, hcomment, hcommands] at hsteady
    exact hsteady
  · rw [hmigrated] at hprose hcores hdrawings hsame hother
    rw [hmigrated] at hcomment hcommands hshapes hnags' hfields
    refine ⟨fun found hfound ↦ ?_, ?_, ?_, ?_, ?_⟩
    · have hsome := hnags found hfound
      rw [hsame, hsome] at hnags'
      exact (Option.some.inj hnags').symm
    · rw [← hcomment, hprose]
    · rw [← hcommands, hcores]
    · rw [← hshapes, hdrawings, retainHydratedDrawings_eq]
    · rw [← hfields, hother]

/-! ## The tree -/

theorem treeNodeSchema_eq_some {node : StoredNode ρ} {children : List (RoseTree (StoredNode ρ))}
    {t' : RoseTree (PersistedNode ρ)} (h : treeNodeSchema (.node node children) = some t') :
    ∃ node' children', t' = .node node' children' ∧ nodeSchema node = some node' ∧
      childrenSchema children = some children' ∧ children'.length ≤ maxTreeNodes := by
  rw [treeNodeSchema] at h
  cases hnode : nodeSchema node with
  | none =>
      rw [hnode] at h
      cases h
  | some node' =>
      cases hchildren : childrenSchema children with
      | none =>
          rw [hnode, hchildren] at h
          cases h
      | some children' =>
          rw [hnode, hchildren] at h
          dsimp only at h
          split_ifs at h with hle
          obtain rfl := Option.some.inj h
          exact ⟨node', children', rfl, rfl, rfl, hle⟩

theorem childrenSchema_eq_some {child : RoseTree (StoredNode ρ)}
    {children : List (RoseTree (StoredNode ρ))} {cs' : List (RoseTree (PersistedNode ρ))}
    (h : childrenSchema (child :: children) = some cs') :
    ∃ child' children', cs' = child' :: children' ∧ treeNodeSchema child = some child' ∧
      childrenSchema children = some children' := by
  rw [childrenSchema] at h
  cases hchild : treeNodeSchema child with
  | none =>
      rw [hchild] at h
      cases h
  | some child' =>
      cases hchildren : childrenSchema children with
      | none =>
          rw [hchild, hchildren] at h
          cases h
      | some children' =>
          rw [hchild, hchildren] at h
          exact ⟨child', children', (Option.some.inj h).symm, rfl, rfl⟩

mutual

theorem treeNodeSchema_storedNodes :
    ∀ {t : RoseTree (StoredNode ρ)} {t' : RoseTree (PersistedNode ρ)},
      treeNodeSchema t = some t' → treeNodeSchema (storedNodes t') = some t'
  | .node node children, t', h => by
      obtain ⟨node', children', rfl, hnode, hchildren, hle⟩ := treeNodeSchema_eq_some h
      rw [storedNodes, treeNodeSchema, nodeSchema_stored hnode,
        childrenSchema_storedChildren hchildren]
      exact if_pos hle

theorem childrenSchema_storedChildren :
    ∀ {cs : List (RoseTree (StoredNode ρ))} {cs' : List (RoseTree (PersistedNode ρ))},
      childrenSchema cs = some cs' → childrenSchema (storedChildren cs') = some cs'
  | [], cs', h => by
      obtain rfl := Option.some.inj h
      rfl
  | child :: children, cs', h => by
      obtain ⟨child', children', rfl, hchild, hchildren⟩ := childrenSchema_eq_some h
      rw [storedChildren, childrenSchema, treeNodeSchema_storedNodes hchild,
        childrenSchema_storedChildren hchildren]

end

mutual

/-- The preflight does not look at the fields of the nodes. -/
theorem visitNode_storedNodes (depth nodes : ℕ) :
    ∀ {t : RoseTree (StoredNode ρ)} {t' : RoseTree (PersistedNode ρ)},
      treeNodeSchema t = some t' → visitNode depth nodes (storedNodes t') = visitNode depth nodes t
  | .node node children, t', h => by
      obtain ⟨node', children', rfl, -, hchildren, -⟩ := treeNodeSchema_eq_some h
      rw [storedNodes, visitNode, visitNode, visitChildren_storedChildren _ _ hchildren]

theorem visitChildren_storedChildren (depth nodes : ℕ) :
    ∀ {cs : List (RoseTree (StoredNode ρ))} {cs' : List (RoseTree (PersistedNode ρ))},
      childrenSchema cs = some cs' →
        visitChildren depth nodes (storedChildren cs') = visitChildren depth nodes cs
  | [], cs', h => by
      obtain rfl := Option.some.inj h
      rfl
  | child :: children, cs', h => by
      obtain ⟨child', children', rfl, hchild, hchildren⟩ := childrenSchema_eq_some h
      rw [storedChildren, visitChildren, visitChildren, visitNode_storedNodes depth nodes hchild]
      cases visitNode depth nodes child with
      | none => rfl
      | some nodes' => exact visitChildren_storedChildren depth nodes' hchildren

end

theorem visitNode_eq_some {α : Type} {depth nodes nodes' : ℕ} {a : α} {children : List (RoseTree α)}
    (h : visitNode depth nodes (.node a children) = some nodes') :
    ¬maxTreeDepth < depth ∧ visitChildren (depth + 1) (nodes + 1) children = some nodes' := by
  rw [visitNode] at h
  split_ifs at h with hbound
  exact ⟨fun hlt ↦ hbound (.inl hlt), h⟩

theorem visitChildren_eq_some {α : Type} {depth nodes nodes' : ℕ} {child : RoseTree α}
    {children : List (RoseTree α)}
    (h : visitChildren depth nodes (child :: children) = some nodes') :
    ∃ nodes₁, visitNode depth nodes child = some nodes₁ ∧
      visitChildren depth nodes₁ children = some nodes' := by
  rw [visitChildren] at h
  cases hchild : visitNode depth nodes child with
  | none =>
      rw [hchild] at h
      cases h
  | some nodes₁ =>
      rw [hchild] at h
      exact ⟨nodes₁, rfl, h⟩

/-- The nodes of a tree that is read, one by one. -/
def KeepsTree (syn : CommentSyntax) (t : RoseTree (StoredNode ρ))
    (t' : RoseTree (PersistedNode ρ)) : Prop :=
  ∀ path node, t.labelAt path = some node →
    ∃ node', t'.labelAt path = some node' ∧ node.Kept syn node'

theorem labelAt_node_nil {α : Type} (a : α) (children : List (RoseTree α)) :
    (RoseTree.node a children).labelAt [] = some a := by
  rw [RoseTree.labelAt, RoseTree.nodeAt_nil]
  rfl

theorem labelAt_node_cons {α : Type} (a : α) (children : List (RoseTree α)) (i : ℕ)
    (path : List ℕ) :
    (RoseTree.node a children).labelAt (i :: path) =
      children[i]?.bind fun child ↦ child.labelAt path := by
  rw [RoseTree.labelAt, RoseTree.nodeAt_cons, RoseTree.children_node]
  cases children[i]? with
  | none => rfl
  | some child => rfl

mutual

theorem migrateLegacyNode_spec (hplain : syn.PlainValues) {depth nodes nodes' : ℕ} :
    ∀ {t : RoseTree (StoredNode ρ)} {t' : RoseTree (PersistedNode ρ)},
      (∀ path node, t.labelAt path = some node → ¬node.Nested) →
      visitNode depth nodes (migrateLegacyNode syn depth t) = some nodes' →
      treeNodeSchema (migrateLegacyNode syn depth t) = some t' →
        migrateLegacyNode syn depth (storedNodes t') = storedNodes t' ∧ KeepsTree syn t t'
  | .node node children, t', hnested, hvisit, h => by
      have hdepth : ¬maxTreeDepth < depth := by
        rw [migrateLegacyNode] at hvisit
        split_ifs at hvisit with hdepth
        · exact (visitNode_eq_some hvisit).1
        · exact hdepth
      rw [migrateLegacyNode, if_neg hdepth] at hvisit h
      obtain ⟨node', children', rfl, hnode, hchildren, -⟩ := treeNodeSchema_eq_some h
      obtain ⟨hsame, hkeeps⟩ := migrateNode_spec hplain
        (hnested [] node (labelAt_node_nil node children)) hnode
      obtain ⟨hsame', hkeeps'⟩ := migrateChildren_spec hplain
        (fun i child hchild path node hpath ↦ hnested (i :: path) node (by
          rw [labelAt_node_cons, hchild]
          exact hpath))
        (visitNode_eq_some hvisit).2 hchildren
      refine ⟨by rw [storedNodes, migrateLegacyNode, if_neg hdepth, hsame, hsame'], ?_⟩
      intro path found hfound
      cases path with
      | nil =>
          rw [labelAt_node_nil] at hfound
          obtain rfl := Option.some.inj hfound
          exact ⟨node', labelAt_node_nil node' children', hkeeps⟩
      | cons i path =>
          rw [labelAt_node_cons] at hfound
          obtain ⟨child, hchild, hfound⟩ := Option.bind_eq_some_iff.mp hfound
          obtain ⟨child', hchild', htree⟩ := hkeeps' i child hchild
          obtain ⟨found', hfound', hkept⟩ := htree path found hfound
          refine ⟨found', ?_, hkept⟩
          rw [labelAt_node_cons, hchild']
          exact hfound'

theorem migrateChildren_spec (hplain : syn.PlainValues) {depth nodes nodes' : ℕ} :
    ∀ {cs : List (RoseTree (StoredNode ρ))} {cs' : List (RoseTree (PersistedNode ρ))},
      (∀ (i : ℕ) child, cs[i]? = some child →
        ∀ path node, child.labelAt path = some node → ¬node.Nested) →
      visitChildren depth nodes (migrateChildren syn depth cs) = some nodes' →
      childrenSchema (migrateChildren syn depth cs) = some cs' →
        migrateChildren syn depth (storedChildren cs') = storedChildren cs' ∧
          ∀ (i : ℕ) child, cs[i]? = some child →
            ∃ child', cs'[i]? = some child' ∧ KeepsTree syn child child'
  | [], cs', _, _, h => by
      obtain rfl := Option.some.inj h
      refine ⟨rfl, fun i child hchild ↦ ?_⟩
      cases hchild
  | child :: children, cs', hnested, hvisit, h => by
      rw [migrateChildren] at hvisit h
      obtain ⟨nodes₁, hvisit₁, hvisit₂⟩ := visitChildren_eq_some hvisit
      obtain ⟨child', children', rfl, hchild, hchildren⟩ := childrenSchema_eq_some h
      obtain ⟨hsame, hkeeps⟩ := migrateLegacyNode_spec hplain (hnested 0 child rfl) hvisit₁ hchild
      obtain ⟨hsame', hkeeps'⟩ := migrateChildren_spec hplain
        (fun i found hfound ↦ hnested (i + 1) found hfound) hvisit₂ hchildren
      refine ⟨by rw [storedChildren, migrateChildren, hsame, hsame'], fun i found hfound ↦ ?_⟩
      cases i with
      | zero =>
          obtain rfl := Option.some.inj hfound
          exact ⟨child', rfl, hkeeps⟩
      | succ i => exact hkeeps' i found hfound

end

/-! ## The read -/

theorem inRange_inRange {α : Type} (t : RoseTree α) (path : List ℕ) :
    t.inRange (t.inRange path) = t.inRange path := by
  rw [RoseTree.inRange_of_nodeAt (RoseTree.nodeAt_inRange t path)]

theorem pathSchema_inRange {α : Type} (t : RoseTree α) {path : List ℕ}
    (h : pathSchema path = true) : pathSchema (t.inRange path) = true := by
  have hle := (t.inRange_prefix path).length_le
  exact decide_eq_true (hle.trans (of_decide_eq_true h))

/-- The state of a tree that passes the bounds, with its nodes. -/
def acceptedTree (value : StoredTree ρ σ) (root : RoseTree (PersistedNode ρ)) :
    PersistedTree ρ σ where
  root := root
  start := value.start.filter fun start ↦ decide (root.inRange start = start)
  position := root.inRange (value.position.getD [])
  dirty := value.dirty.getD false
  sourceStamp := value.sourceStamp
  appendAttempted := (value.appendAttempted.bind id).getD false
  report := ⟨value.inProgress.getD false, value.operationId⟩
  practicePath := value.practicePath.map root.inRange
  fields := value.fields

theorem acceptTree_eq_some_iff (value : StoredTree ρ σ) (state : PersistedTree ρ σ) :
    acceptTree value = some state ↔
      isBoundedTreeForStorage value.root = true ∧ value.start.all pathSchema = true ∧
        value.position.all pathSchema = true ∧ value.practicePath.all pathSchema = true ∧
        ∃ root, treeNodeSchema value.root = some root ∧ state = acceptedTree value root := by
  rw [acceptTree]
  simp only [Bool.and_eq_true]
  constructor
  · intro h
    split_ifs at h with hbounds
    obtain ⟨⟨⟨hroot, hstart⟩, hposition⟩, hpractice⟩ := hbounds
    cases hschema : treeNodeSchema value.root with
    | none =>
        rw [hschema] at h
        cases h
    | some root =>
        rw [hschema] at h
        exact ⟨hroot, hstart, hposition, hpractice, root, rfl, (Option.some.inj h).symm⟩
  · rintro ⟨hroot, hstart, hposition, hpractice, root, hschema, rfl⟩
    rw [if_pos ⟨⟨⟨hroot, hstart⟩, hposition⟩, hpractice⟩, hschema]
    rfl

theorem all_filter_of_all {α : Type} {p q : α → Bool} {o : Option α} (h : o.all p = true) :
    (o.filter q).all p = true := by
  cases o with
  | none => rfl
  | some a =>
      rw [Option.filter_some]
      split_ifs
      · exact h
      · rfl

theorem filter_filter_self {α : Type} (p : α → Bool) (o : Option α) :
    (o.filter p).filter p = o.filter p := by
  cases o with
  | none => rfl
  | some a =>
      rw [Option.filter_some]
      split_ifs with hp
      · rw [Option.filter_some, if_pos hp]
      · rfl

/-- What a read has clamped and filled in stays as it is. -/
theorem acceptedTree_stored (value : StoredTree ρ σ) (root : RoseTree (PersistedNode ρ)) :
    acceptedTree (migrateTreeForStorage syn
      (acceptedTree (migrateTreeForStorage syn value) root).stored) root =
        acceptedTree (migrateTreeForStorage syn value) root := by
  have hpractice : (value.practicePath.map root.inRange).map root.inRange =
      value.practicePath.map root.inRange := by
    rw [Option.map_map]
    congr 1
    funext path
    exact inRange_inRange root path
  simp only [acceptedTree, migrateTreeForStorage, PersistedTree.stored, Option.getD_some,
    Option.bind_some, id_eq, filter_filter_self, inRange_inRange, hpractice]

theorem Skeleton.not_nested_of_not_mem {ps : Skeleton} (h : .inl '[' ∉ ps) :
    ¬Skeleton.Nested ps := by
  rintro ⟨before, name, core, after, rfl, -⟩
  exact h (List.mem_append_right before List.mem_cons_self)

namespace NestedClock

/-- A time such as `0:01:00`. -/
def isTime (value : Text) : Bool :=
  value.all (fun c ↦ c.isDigit || c == ':') &&
    match (value.splitOn ':').map List.length with
    | [hours, minutes, seconds] =>
        decide (1 ≤ hours ∧ hours ≤ 5 ∧ 1 ≤ minutes ∧ minutes ≤ 2 ∧ 1 ≤ seconds ∧ seconds ≤ 2)
    | _ => false

/-- A parser that knows clocks only. -/
def clockSyntax : CommentSyntax where
  wellFormed name value := decide (name = "clk".toList) && isTime value
  evaluation _ := none
  clock _ := none

theorem plainValues : clockSyntax.PlainValues := by
  intro name value h hmem
  have htime : isTime value = true := (Bool.and_eq_true_iff.mp h).2
  have hall := List.all_eq_true.mp (Bool.and_eq_true_iff.mp htime).1
  exact absurd (hall '[' hmem) (by decide)

def treeOf (comment : Text) : StoredTree Unit Unit where
  root := .node ⟨some [], none, comment, none, [], ()⟩ []
  start := none
  position := none
  dirty := none
  sourceStamp := none
  appendAttempted := none
  inProgress := none
  operationId := none
  practicePath := none
  fields := ()

def stateOf (comment : Text) (commands : Option Text) (shapes : List DrawShape) :
    PersistedTree Unit Unit where
  root := .node ⟨[], comment, commands, shapes, ()⟩ []
  start := none
  position := []
  dirty := false
  sourceStamp := none
  appendAttempted := false
  report := ⟨false, none⟩
  practicePath := none
  fields := ()

/-- `ok[%b 1][%csl Ga1,Z]`. -/
def legacy : Text :=
  ['o', 'k', '[', '%', 'b', ' ', '1', ']', '[', '%', 'c', 's', 'l', ' ', 'G', 'a', '1', ',', 'Z',
    ']']

/-- `[%a[%clk 0:0:1]]`: a clock inside the name of another command. -/
def nested : Text :=
  ['[', '%', 'a', '[', '%', 'c', 'l', 'k', ' ', '0', ':', '0', ':', '1', ']', ']']

/-- What the first read of `nested` shows as prose. -/
def visible : Text := ['[', '%', 'a', ' ', ' ', ']']

end NestedClock

end EnCroissant

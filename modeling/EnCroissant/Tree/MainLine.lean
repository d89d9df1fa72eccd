import EnCroissant.Tree.TrackedPaths

/-!
# The main line

The nodes of the main line as a list, and what playing a move at its end does
to it and to the result of the game.
-/

namespace EnCroissant

open RoseTree

variable {ι : Type}

/-- The nodes of the main line, the root first. -/
def mainLine : TreeNode ι → List (NodeData ι)
  | .node data [] => [data]
  | .node data (c :: _) => data :: mainLine c

theorem nodesOnPath_mainLineEnd (root : TreeNode ι) :
    nodesOnPath root (mainLineEnd root) = mainLine root := by
  induction root using mainLineEnd.induct with
  | case1 data => rfl
  | case2 data c cs ih =>
      rw [mainLineEnd, mainLine, nodesOnPath]
      simp only [children_node, List.getElem?_cons_zero, label_node]
      rw [ih]

theorem isMainLine_mainLineEnd (root : TreeNode ι) :
    isMainLine (mainLineEnd root) = true := by
  induction root using mainLineEnd.induct with
  | case1 data => rfl
  | case2 data c cs ih =>
      simpa only [isMainLine, mainLineEnd, List.all_cons, beq_self_eq_true, Bool.true_and] using ih

/-- The main line ends in a node without children. -/
theorem mainLine_eq_concat (root : TreeNode ι) :
    ∃ earlier last, mainLine root = earlier ++ [last] ∧
      getNodeAtPath root (mainLineEnd root) = .node last [] := by
  induction root using mainLineEnd.induct with
  | case1 data => exact ⟨[], data, rfl, rfl⟩
  | case2 data c cs ih =>
      obtain ⟨earlier, last, hline, hnode⟩ := ih
      refine ⟨data :: earlier, last, ?_, ?_⟩
      · rw [mainLine, hline, List.cons_append]
      · rw [mainLineEnd, getNodeAtPath, deepest]
        exact hnode

theorem effectiveGameEnd_eq_none {root : TreeNode ι} :
    effectiveGameEnd root = none ↔ ∀ data ∈ (mainLine root).tail, data.gameEnd = none := by
  induction root using mainLineEnd.induct with
  | case1 data => simp [effectiveGameEnd, mainLine]
  | case2 data c cs ih =>
      obtain ⟨tail, htail⟩ : ∃ tail, mainLine c = c.label :: tail := by
        cases c with
        | node d ds => cases ds <;> exact ⟨_, rfl⟩
      rw [effectiveGameEnd, mainLine, List.tail_cons, htail, List.forall_mem_cons]
      rw [htail, List.tail_cons] at ih
      cases hend : c.label.gameEnd with
      | some gameEnd => simp
      | none => simpa using ih

/-- A child added to the last node of the main line extends it. -/
theorem mainLine_updateChildren {f : List (TreeNode ι) → List (TreeNode ι)} {data : NodeData ι}
    (hf : f [] = [.node data []]) (root : TreeNode ι) :
    mainLine (root.updateChildren f (mainLineEnd root)) = mainLine root ++ [data] := by
  induction root using mainLineEnd.induct with
  | case1 d =>
      rw [mainLineEnd, updateChildren, updateAt, label_node, children_node, hf]
      rfl
  | case2 d c cs ih =>
      rw [mainLineEnd, updateChildren, updateAt]
      simp only [children_node, List.getElem?_cons_zero, label_node, List.set_cons_zero]
      rw [mainLine, mainLine, List.cons_append]
      exact congrArg (d :: ·) ih

variable {C : Chessops}

theorem root_insertChild (s : TreeState ι) (args : MoveArgs) (position : List ℕ)
    (node : TreeNode ι) :
    (insertChild s args position node).root =
        s.root.updateChildren (if args.mainline then (node :: ·) else (· ++ [node])) position ∧
      (insertChild s args position node).headers.result = s.headers.result := by
  unfold insertChild
  by_cases hmain : args.mainline = true
  · rw [if_pos hmain, if_pos hmain]
    exact ⟨rfl, rfl⟩
  · rw [if_neg hmain, if_neg hmain]
    exact ⟨rfl, rfl⟩

theorem root_insertMove (s : TreeState ι) (args : MoveArgs) (position : List ℕ)
    (node : TreeNode ι) :
    (insertMove s args position node).root = (insertChild s args position node).root ∧
      (insertMove s args position node).headers = (insertChild s args position node).headers := by
  unfold insertMove
  split_ifs <;> exact ⟨rfl, rfl⟩

/-- A move played at the end of a main line that no marker ends may decide the
game. -/
theorem adjudicates_mainLineEnd {s : TreeState ι} {args : MoveArgs} {last : NodeData ι}
    (hposition : args.position s = mainLineEnd s.root) (hheaders : args.changeHeaders = true)
    (hend : effectiveGameEnd s.root = none) :
    adjudicates s args (.node last []) none = true := by
  simp [adjudicates, hposition, hheaders, hend, isMainLine_mainLineEnd]

/-- Playing a legal move at the end of the main line. -/
theorem makeMove_mainLineEnd (fresh : ι) {s : TreeState ι} {args : MoveArgs}
    {earlier : List (NodeData ι)} {last : NodeData ι} {pos : C.Chess}
    (hposition : args.position s = mainLineEnd s.root) (hheaders : args.changeHeaders = true)
    (hend : effectiveGameEnd s.root = none) (hline : mainLine s.root = earlier ++ [last])
    (hpos : positionFromFen C last.fen = some pos) (hlegal : C.isLegal pos args.move = true) :
    let s' := makeMove C fresh s args
    mainLine s'.root = mainLine s.root ++ [(moveChild C fresh last pos args).label] ∧
      effectiveGameEnd s'.root = none ∧
        s'.headers.result = adjudicatedResult C s (mainLineEnd s.root) (C.play pos args.move)
          (C.makeFen (C.toSetup (C.play pos args.move))) := by
  obtain ⟨earlier', last', hline', hnode⟩ := mainLine_eq_concat s.root
  obtain ⟨rfl, hlast⟩ := List.append_inj' (hline.symm.trans hline') rfl
  obtain rfl : last = last' := List.singleton_inj.mp hlast
  have hexisting : existingIndex (.node last []) (C.makeSan pos args.move) = none := by
    rw [existingIndex, children_node, List.findIdx?_nil]
  have hmake : makeMove C fresh s args =
      insertMove (s.withResult (adjudicatedResult C s (mainLineEnd s.root)
          (C.play pos args.move) (C.makeFen (C.toSetup (C.play pos args.move)))))
        args (mainLineEnd s.root) (moveChild C fresh last pos args) := by
    simp only [makeMove, hposition, hnode, label_node, hpos, hlegal, Bool.not_true,
      Bool.false_eq_true, if_false, hexisting, resultAfterMove,
      adjudicates_mainLineEnd hposition hheaders hend, if_true, moveChild]
  intro s'
  have hroot : mainLine s'.root = mainLine s.root ++ [(moveChild C fresh last pos args).label] := by
    change mainLine (makeMove C fresh s args).root = _
    rw [hmake, (root_insertMove _ _ _ _).1, (root_insertChild _ _ _ _).1]
    refine mainLine_updateChildren ?_ s.root
    split_ifs <;> rfl
  refine ⟨hroot, ?_, ?_⟩
  · rw [effectiveGameEnd_eq_none] at hend ⊢
    rw [hroot, hline, List.tail_append_of_ne_nil (by simp), ← hline]
    intro data hdata
    rcases List.mem_append.mp hdata with hold | hnew
    · exact hend data hold
    · rw [List.mem_singleton.mp hnew]
      rfl
  · change (makeMove C fresh s args).headers.result = _
    rw [hmake, (root_insertMove _ _ _ _).2, (root_insertChild _ _ _ _).2]
    rfl

end EnCroissant

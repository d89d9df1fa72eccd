import EnCroissant.Tree.Node

/-!
# Edits of the tree store

Playing a move, deleting a node and promoting a variation, with the rebasing of
the three paths the store tracks: the cursor, the start of the repertoire and
the path of the practice drill.
-/

namespace EnCroissant

variable {ι : Type} (C : Chessops)

def isPrefix (shorter longer : List ℕ) : Bool :=
  if shorter.length > longer.length then false
  else (List.range shorter.length).all fun i ↦ shorter[i]? == longer[i]?

/-- The last index whose element satisfies a test. -/
def findLastIndex (test : ℕ → Bool) : List ℕ → Option ℕ
  | [] => none
  | v :: vs =>
      match findLastIndex test vs with
      | some i => some (i + 1)
      | none => if test v then some 0 else none

/-! ## Rebasing -/

def rebasePathAfterDelete (target deleted : List ℕ) : Option (List ℕ) :=
  if isPrefix deleted target then none
  else
    let parentDepth := deleted.length - 1
    if target.length > parentDepth && isPrefix deleted.dropLast target &&
        target.getD parentDepth 0 > deleted.getD parentDepth 0 then
      some (target.set parentDepth (target.getD parentDepth 0 - 1))
    else some target

def rebasePathAfterPromotion (target parent : List ℕ) (promotedIndex : ℕ) : List ℕ :=
  if target.length ≤ parent.length || !isPrefix parent target then target
  else
    let siblingIndex := target.getD parent.length 0
    if siblingIndex = promotedIndex then target.set parent.length 0
    else if siblingIndex < promotedIndex then target.set parent.length (siblingIndex + 1)
    else target

def rebasePathAfterPrepend (target parent : List ℕ) : List ℕ :=
  if target.length ≤ parent.length || !isPrefix parent target then target
  else target.set parent.length (target.getD parent.length 0 + 1)

/-- The paths that replace the tracked ones a rebasing gives up. -/
structure TrackedPaths where
  position : List ℕ
  start : Option (List ℕ)
  practicePath : Option (List ℕ)

def rebaseTrackedPaths (s : TreeState ι) (rebase : List ℕ → Option (List ℕ))
    (fallback : TrackedPaths) : TreeState ι :=
  { s with
    position := (rebase s.position).getD fallback.position
    headers := { s.headers with
      start := match s.headers.start with
        | some start => (rebase start).or fallback.start
        | none => none }
    practicePath := match s.practicePath with
      | some path => (rebase path).or fallback.practicePath
      | none => none }

def TreeState.tracked (s : TreeState ι) : TrackedPaths where
  position := s.position
  start := s.headers.start
  practicePath := s.practicePath

/-! ## Playing a move -/

structure MoveArgs where
  move : BoardMove
  last : Bool
  changePosition : Bool
  changeHeaders : Bool
  mainline : Bool
  clock : Option ℚ

/-- The path the move is played at. -/
def MoveArgs.position (args : MoveArgs) (s : TreeState ι) : List ℕ :=
  if args.last then mainLineEnd s.root else s.position

/-- The child a move already has. -/
def existingIndex (moveNode : TreeNode ι) (san : Text) : Option ℕ :=
  moveNode.children.findIdx? fun n ↦ n.label.san == some san

def isMainLine (position : List ℕ) : Bool :=
  position.all (· == 0)

/-- Whether a move may adjudicate the game: it ends the main line, and the
marked end of the game is not on the way to it. -/
def adjudicates (s : TreeState ι) (args : MoveArgs) (moveNode : TreeNode ι)
    (existing : Option ℕ) : Bool :=
  let position := args.position s
  let targetIndex := existing.getD (if args.mainline then 0 else moveNode.children.length)
  let endsMainLine := isMainLine position && targetIndex == 0 &&
    (match existing with
      | none => true
      | some i => moveNode.children[i]?.all fun n ↦ n.children.isEmpty)
  let endOnResultingPath := match effectiveGameEnd s.root with
    | some (depth, _) => targetIndex == 0 && isMainLine position &&
        (depth ≤ position.length || (existing == some 0 && depth == position.length + 1))
    | none => false
  args.changeHeaders && endsMainLine && !endOnResultingPath

/-- The result after a move that may adjudicate the game; `pos` is the position
after the move. -/
def adjudicatedResult (s : TreeState ι) (position : List ℕ) (pos : C.Chess) (newFen : Text) :
    Outcome :=
  let result := s.headers.result
  let result :=
    if C.isEnd pos then
      let result :=
        if C.isCheckmate pos then
          if C.turn pos = .white then .blackWins else .whiteWins
        else result
      if C.isStalemate pos || C.isInsufficientMaterial pos then .draw else result
    else result
  if !C.isCheckmate pos &&
      (isThreeFoldRepetition C s.root newFen position || is50MoveRule newFen) then .draw
  else result

/-- The result after a move; `pos` is the position after the move. -/
def resultAfterMove (s : TreeState ι) (args : MoveArgs) (moveNode : TreeNode ι)
    (existing : Option ℕ) (pos : C.Chess) : Outcome :=
  if adjudicates s args moveNode existing then
    adjudicatedResult C s (args.position s) pos (C.makeFen (C.toSetup pos))
  else s.headers.result

/-- Sets the result of the game. -/
def TreeState.withResult (s : TreeState ι) (result : Outcome) : TreeState ι :=
  { s with
    headers := { s.headers with result := result }
    dirty := s.dirty || result != s.headers.result }

/-- Adds a child to the node at `position`, in front of the others if the move is
to become the main line. -/
def insertChild (s : TreeState ι) (args : MoveArgs) (position : List ℕ) (node : TreeNode ι) :
    TreeState ι :=
  let s := { s with dirty := true }
  if args.mainline then
    rebaseTrackedPaths { s with root := s.root.updateChildren (node :: ·) position }
      (fun target ↦ some (rebasePathAfterPrepend target position)) s.tracked
  else { s with root := s.root.updateChildren (· ++ [node]) position }

/-- Adds a new move below the node at `position` and moves the cursor to it. -/
def insertMove (s : TreeState ι) (args : MoveArgs) (position : List ℕ) (node : TreeNode ι) :
    TreeState ι :=
  let s := insertChild s args position node
  let count := (getNodeAtPath s.root position).children.length
  if args.changePosition then
    { s with position :=
        if args.last then position ++ [count - 1]
        else s.position ++ [if args.mainline then 0 else count - 1] }
  else s

/-- Plays a move at the cursor, or at the end of the main line. -/
def makeMove (fresh : ι) (s : TreeState ι) (args : MoveArgs) : TreeState ι :=
  let position := args.position s
  let moveNode := getNodeAtPath s.root position
  match positionFromFen C moveNode.label.fen with
  | none => s
  | some pos =>
      if !C.isLegal pos args.move then s
      else
        let san := C.makeSan pos args.move
        let pos := C.play pos args.move
        let newFen := C.makeFen (C.toSetup pos)
        let existing := existingIndex moveNode san
        let s := s.withResult (resultAfterMove C s args moveNode existing pos)
        match existing with
        | some i => if args.changePosition then { s with position := position ++ [i] } else s
        | none =>
            insertMove s args position
              (createNode fresh newFen args.move san (moveNode.label.halfMoves + 1) args.clock)

/-- The notation of the move that is played, if it is legal where it is played. -/
def playedSan (s : TreeState ι) (args : MoveArgs) : Option Text :=
  match positionFromFen C (getNodeAtPath s.root (args.position s)).label.fen with
  | none => none
  | some pos => if C.isLegal pos args.move then some (C.makeSan pos args.move) else none

/-- The node a legal move adds. -/
def moveChild (fresh : ι) (parent : NodeData ι) (pos : C.Chess) (args : MoveArgs) : TreeNode ι :=
  createNode fresh (C.makeFen (C.toSetup (C.play pos args.move))) args.move
    (C.makeSan pos args.move) (parent.halfMoves + 1) args.clock

/-- What playing a move can do: nothing, going to a child, or adding one. -/
theorem makeMove_cases (fresh : ι) (s : TreeState ι) (args : MoveArgs) :
    let moveNode := getNodeAtPath s.root (args.position s)
    (playedSan C s args = none ∧ makeMove C fresh s args = s) ∨
      ∃ pos result, positionFromFen C moveNode.label.fen = some pos ∧
        C.isLegal pos args.move = true ∧
        playedSan C s args = some (C.makeSan pos args.move) ∧
        ((∃ i, existingIndex moveNode (C.makeSan pos args.move) = some i ∧
            makeMove C fresh s args =
              if args.changePosition then
                { s.withResult result with position := args.position s ++ [i] }
              else s.withResult result) ∨
          makeMove C fresh s args =
            insertMove (s.withResult result) args (args.position s)
              (moveChild C fresh moveNode.label pos args)) := by
  intro moveNode
  cases hpos : positionFromFen C moveNode.label.fen with
  | none =>
      left
      constructor
      · simp only [playedSan, moveNode, hpos]
      · simp only [makeMove, moveNode, hpos]
  | some pos =>
      by_cases hlegal : C.isLegal pos args.move = true
      · right
        refine ⟨pos, resultAfterMove C s args moveNode
          (existingIndex moveNode (C.makeSan pos args.move)) (C.play pos args.move), rfl, hlegal,
          ?_, ?_⟩
        · simp only [playedSan, moveNode, hpos, hlegal, if_true]
        · cases hexisting : existingIndex moveNode (C.makeSan pos args.move) with
          | some i =>
              left
              refine ⟨i, rfl, ?_⟩
              simp only [makeMove, moveNode, hpos, hlegal, hexisting, Bool.not_true,
                Bool.false_eq_true, if_false]
          | none =>
              right
              simp only [makeMove, moveNode, hpos, hlegal, hexisting, Bool.not_true,
                Bool.false_eq_true, if_false]
              rfl
      · left
        constructor
        · simp only [playedSan, moveNode, hpos, hlegal, Bool.false_eq_true, if_false]
        · simp only [makeMove, moveNode, hpos, hlegal, Bool.not_false, if_true]

/-! ## Deleting and promoting -/

/-- The child of the node at `parent` that is the object at `path`: an object of
the tree is told by its place. -/
def childIndex (root : TreeNode ι) (parent path : List ℕ) : Option ℕ :=
  (List.range (getNodeAtPath root parent).children.length).find? fun i ↦
    root.inRange parent ++ [i] == root.inRange path

def deleteMove (s : TreeState ι) (path : List ℕ) : TreeState ι :=
  if path = [] then s
  else
    let deletedParentPath := path.dropLast
    match childIndex s.root deletedParentPath path with
    | none => s
    | some index =>
        rebaseTrackedPaths
          { s with root := s.root.updateChildren (·.eraseIdx index) deletedParentPath }
          (rebasePathAfterDelete · path)
          { position := deletedParentPath
            start := none
            practicePath := some deletedParentPath }

/-- Moves the last variation on a path in front of its siblings, and gives the
path of the same node afterwards.  Fails where no child stands at the index. -/
def promoteVariation (s : TreeState ι) (path : List ℕ) : Option (TreeState ι × List ℕ) :=
  match findLastIndex (· ≠ 0) path with
  | none => some (s, path)
  | some i =>
      let v := path.getD i 0
      let promotablePath := path.take i
      match (getNodeAtPath s.root promotablePath).children[v]? with
      | none => none
      | some child =>
          let s' := rebaseTrackedPaths
            { s with root := s.root.updateChildren (child :: ·.eraseIdx v) promotablePath }
            (fun target ↦ some (rebasePathAfterPromotion target promotablePath v))
            s.tracked
          some (s', rebasePathAfterPromotion path promotablePath v)

theorem isPrefix_iff (p q : List ℕ) : isPrefix p q = true ↔ p <+: q := by
  rw [isPrefix]
  by_cases hlen : p.length > q.length
  · rw [if_pos hlen]
    refine ⟨(fun h ↦ by cases h), fun h ↦ ?_⟩
    have hle := h.length_le
    omega
  · rw [if_neg hlen, List.all_eq_true]
    constructor
    · intro h
      rw [List.prefix_iff_getElem?]
      intro i hi
      have hbeq := h i (List.mem_range.mpr hi)
      rw [beq_iff_eq, List.getElem?_eq_getElem hi] at hbeq
      exact hbeq.symm
    · intro h i hi
      rw [List.mem_range] at hi
      rw [beq_iff_eq, List.getElem?_eq_getElem hi]
      exact ((List.prefix_iff_getElem?.mp h) i hi).symm

theorem findLastIndex_eq_some {test : ℕ → Bool} {vs : List ℕ} {i : ℕ}
    (h : findLastIndex test vs = some i) :
    ∃ v rest, vs = vs.take i ++ v :: rest ∧ test v = true ∧ (vs.take i).length = i := by
  induction vs generalizing i with
  | nil => cases h
  | cons v vs ih =>
      rw [findLastIndex] at h
      cases hrest : findLastIndex test vs with
      | some j =>
          simp only [hrest, Option.some.injEq] at h
          subst h
          obtain ⟨w, rest, hvs, hw, hlen⟩ := ih hrest
          refine ⟨w, rest, ?_, hw, ?_⟩
          · rw [List.take_succ_cons, List.cons_append, ← hvs]
          · rw [List.take_succ_cons, List.length_cons, hlen]
      | none =>
          by_cases htest : test v = true
          · simp only [hrest, htest, if_true, Option.some.injEq] at h
            subst h
            exact ⟨v, vs, rfl, htest, rfl⟩
          · simp [hrest, htest] at h

theorem findLastIndex_eq_none {test : ℕ → Bool} {vs : List ℕ}
    (h : findLastIndex test vs = none) :
    vs.any test = false := by
  induction vs with
  | nil => rfl
  | cons v vs ih =>
      rw [findLastIndex] at h
      cases hrest : findLastIndex test vs with
      | some j => simp [hrest] at h
      | none =>
          by_cases htest : test v = true
          · simp [hrest, htest] at h
          · rw [List.any_cons, ih hrest, Bool.or_false]
            exact Bool.eq_false_iff.mpr htest

theorem rebasePathAfterPromotion_append (parent rest : List ℕ) (i v : ℕ) :
    rebasePathAfterPromotion (parent ++ i :: rest) parent v =
      parent ++ (if i = v then 0 else if i < v then i + 1 else i) :: rest := by
  have hprefix : isPrefix parent (parent ++ i :: rest) = true :=
    (isPrefix_iff _ _).mpr (List.prefix_append _ _)
  have hlen : ¬ (parent ++ i :: rest).length ≤ parent.length := by simp
  have hget : (parent ++ i :: rest).getD parent.length 0 = i := by simp
  rw [rebasePathAfterPromotion, hprefix, hget]
  by_cases hiv : i = v
  · simp [hiv]
  · by_cases hlt : i < v
    · simp [hiv, hlt]
    · simp [hiv, hlt]

/-- Promoting leaves fewer indices on the path that are not on the main line. -/
theorem promoteVariation_nonzero {s s' : TreeState ι} {path path' : List ℕ}
    (h : promoteVariation s path = some (s', path')) (hpath : path.any (· ≠ 0) = true) :
    path'.countP (· ≠ 0) < path.countP (· ≠ 0) := by
  rw [promoteVariation] at h
  cases hi : findLastIndex (· ≠ 0) path with
  | none =>
      have hnone := findLastIndex_eq_none hi
      rw [hnone] at hpath
      cases hpath
  | some i =>
      obtain ⟨v, rest, hsplit, hv, hlen⟩ := findLastIndex_eq_some hi
      have hget : path.getD i 0 = v := by
        rw [hsplit, List.getD_append_right _ _ _ _ (le_of_eq hlen), hlen]
        simp
      simp only [hi, hget] at h
      cases hchild : (getNodeAtPath s.root (path.take i)).children[v]? with
      | none => simp [hchild] at h
      | some child =>
          simp only [hchild, Option.some.injEq, Prod.mk.injEq] at h
          obtain ⟨-, rfl⟩ := h
          have hrebased : rebasePathAfterPromotion path (path.take i) v =
              path.take i ++ 0 :: rest := by
            conv_lhs => rw [hsplit, List.take_left' hlen]
            rw [rebasePathAfterPromotion_append, if_pos rfl]
          rw [hrebased]
          conv_rhs => rw [hsplit]
          rw [List.countP_append, List.countP_append, List.countP_cons, List.countP_cons,
            if_pos hv, if_neg (by decide)]
          omega

/-- Promotes the variations on a path, the last one first, until the path runs
along the main line. -/
def promoteAll (s : TreeState ι) (path : List ℕ) : Option (TreeState ι) :=
  if _h : path.any (· ≠ 0) = true then
    match _hstep : promoteVariation s path with
    | none => none
    | some (s', path') => promoteAll s' path'
  else some s
termination_by path.countP (· ≠ 0)
decreasing_by exact promoteVariation_nonzero _hstep _h

def promoteToMainline (s : TreeState ι) (path : List ℕ) : Option (TreeState ι) :=
  promoteAll { s with dirty := true } path

end EnCroissant

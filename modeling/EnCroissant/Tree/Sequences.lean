import EnCroissant.Library.TreeGrowth
import EnCroissant.Tree.Consistency
import EnCroissant.Tree.TrackedPaths

/-!
# Playing a sequence of moves

The tokens are read on one position and the moves are then played one by one through the FENs
of the tree.  Both agree at every step, so the moves are played all or not at all.
-/

namespace EnCroissant

open RoseTree

inductive MoveSequenceError where
  | invalidPosition
  | invalidMove (number : ℕ)
  deriving DecidableEq, Repr

section

variable (C : Chessops)

/-- The moves of the tokens from `index` on. -/
def parseMoves (pos : C.Chess) : (index : ℕ) → List Text → Except MoveSequenceError (List BoardMove)
  | _, [] => .ok []
  | index, token :: payload =>
      match parseSanOrUci C pos token with
      | none => .error (.invalidMove (index + 1))
      | some move =>
          match parseMoves (C.play pos move) (index + 1) payload with
          | .ok moves => .ok (move :: moves)
          | .error error => .error error

def validateMoveSequence (fen : Text) (payload : List Text) :
    Except MoveSequenceError (List BoardMove) :=
  match positionFromFen C fen with
  | none => .error .invalidPosition
  | some pos => parseMoves C pos 0 payload

variable {ι : Type}

structure SequenceArgs where
  payload : List Text
  mainline : Bool
  changeHeaders : Bool

def SequenceArgs.moveArgs (args : SequenceArgs) (move : BoardMove) : MoveArgs where
  move := move
  last := false
  changePosition := true
  changeHeaders := args.changeHeaders
  mainline := args.mainline
  clock := none

def playMoves (fresh : ℕ → ι) (args : SequenceArgs) :
    (index : ℕ) → TreeState ι → List BoardMove → TreeState ι
  | _, s, [] => s
  | index, s, move :: moves =>
      playMoves fresh args (index + 1) (makeMove C (fresh index) s (args.moveArgs move)) moves

def makeMoves (fresh : ℕ → ι) (s : TreeState ι) (args : SequenceArgs) :
    TreeState ι × Except MoveSequenceError (List BoardMove) :=
  if args.payload = [] then (s, .ok [])
  else
    match validateMoveSequence C (getNodeAtPath s.root s.position).label.fen args.payload with
    | .error error => (s, .error error)
    | .ok moves => (playMoves C fresh args 0 s moves, .ok moves)

end

variable {ι : Type} {C : Chessops}

/-- Each token is read as a legal move where the moves before it lead. -/
def ReadsMoves (C : Chessops) : C.Chess → List Text → List BoardMove → Prop
  | _, [], [] => True
  | pos, token :: payload, move :: moves =>
      parseSanOrUci C pos token = some move ∧ ReadsMoves C (C.play pos move) payload moves
  | _, _, _ => False

theorem ReadsMoves.length_eq {pos : C.Chess} {payload : List Text} {moves : List BoardMove}
    (h : ReadsMoves C pos payload moves) : moves.length = payload.length := by
  fun_induction ReadsMoves C pos payload moves with
  | case1 => rfl
  | case2 pos token payload move moves ih => exact congrArg Nat.succ (ih h.2)
  | case3 => exact h.elim

/-- A sequence is accepted exactly with the moves its tokens are read as. -/
theorem parseMoves_eq_ok {pos : C.Chess} {index : ℕ} {payload : List Text}
    {moves : List BoardMove} :
    parseMoves C pos index payload = .ok moves ↔ ReadsMoves C pos payload moves := by
  fun_induction parseMoves C pos index payload generalizing moves with
  | case1 => cases moves <;> simp [ReadsMoves]
  | case2 pos index token payload hnone => cases moves <;> simp [ReadsMoves, hnone]
  | case3 pos index token payload move hmove rest hrest ih =>
      cases moves with
      | nil => simp [ReadsMoves]
      | cons move' moves =>
          rw [Except.ok.injEq, List.cons.injEq, ReadsMoves, hmove, Option.some.injEq]
          refine and_congr_right fun heq ↦ ?_
          rw [← heq, ← ih, hrest, Except.ok.injEq]
  | case4 pos index token payload move hmove error herror ih =>
      cases moves with
      | nil => simp [ReadsMoves]
      | cons move' moves =>
          have hnot : ¬ReadsMoves C (C.play pos move) payload moves := by
            rw [← ih, herror]
            exact nofun
          rw [ReadsMoves, hmove, Option.some.injEq]
          refine ⟨nofun, ?_⟩
          rintro ⟨rfl, hreads⟩
          exact absurd hreads hnot

/-! ## What one sequence does -/

/-- The node of a move from its parent; it may be an older node of the same move. -/
structure Carries (C : Chessops) (parent child : NodeData ι) (move : BoardMove) : Prop where
  played : ∃ pos, positionFromFen C parent.fen = some pos ∧ C.isLegal pos move = true ∧
    child.san = some (C.makeSan pos move) ∧
      child.fen = C.makeFen (C.toSetup (C.play pos move))

/-- The nodes on the way from `path` along the indexes carry the moves. -/
def CarriesMoves (C : Chessops) (root : TreeNode ι) :
    (path indexes : List ℕ) → List BoardMove → Prop
  | _, [], [] => True
  | path, i :: indexes, move :: moves =>
      (∃ parent child, root.labelAt path = some parent ∧ root.labelAt (path ++ [i]) = some child ∧
        Carries C parent child move) ∧ CarriesMoves C root (path ++ [i]) indexes moves
  | _, _, _ => False

/-- Where a path goes when a child has been put in front at each of the parents in turn. -/
def shifted (parents : List (List ℕ)) (path : List ℕ) : List ℕ :=
  parents.foldl rebasePathAfterPrepend path

/-- The moves have been entered below the cursor: nodes are added on the way of the new cursor
only, and all others are where the insertions have shifted them. -/
structure AddsMoves (C : Chessops) (mainline : Bool) (moves : List BoardMove)
    (s s' : TreeState ι) : Prop where
  cursor : ∃ indexes, s'.position = s.position ++ indexes ∧
    CarriesMoves C s'.root s.position indexes moves
  grows : ∃ parents, (mainline = false → parents = []) ∧
    (∀ parent ∈ parents, s.position <+: parent ∧ parent <+: s'.position) ∧
    s.root.Grows s'.root (shifted parents)
      (fun path ↦ s.position.length < path.length ∧ path <+: s'.position) ∧
    s'.headers.start = s.headers.start.map (shifted parents) ∧
    s'.practicePath = s.practicePath.map (shifted parents)
  headers : s'.headers.fen = s.headers.fen ∧ s'.headers.termination = s.headers.termination

theorem CarriesMoves.length_eq {root : TreeNode ι} {path indexes : List ℕ}
    {moves : List BoardMove} (h : CarriesMoves C root path indexes moves) :
    indexes.length = moves.length := by
  fun_induction CarriesMoves C root path indexes moves with
  | case1 => rfl
  | case2 path i indexes move moves ih => exact congrArg Nat.succ (ih h.2)
  | case3 => exact h.elim

/-! ## Shifted paths -/

theorem rebasePathAfterPrepend_of_length_le {target parent : List ℕ}
    (h : target.length ≤ parent.length) : rebasePathAfterPrepend target parent = target := by
  rw [rebasePathAfterPrepend, decide_eq_true h, Bool.true_or, if_pos rfl]

theorem shifted_of_length_le {parents : List (List ℕ)} {path : List ℕ}
    (h : ∀ parent ∈ parents, path.length ≤ parent.length) : shifted parents path = path := by
  induction parents with
  | nil => rfl
  | cons parent parents ih =>
      rw [List.forall_mem_cons] at h
      rw [shifted, List.foldl_cons, rebasePathAfterPrepend_of_length_le h.1]
      exact ih h.2

theorem shifted_append (parents parents' : List (List ℕ)) :
    shifted (parents ++ parents') = shifted parents' ∘ shifted parents := by
  funext path
  exact List.foldl_append

theorem shifted_nil : shifted [] = id := rfl

/-- Nodes that keep their paths and their data still carry their moves. -/
theorem CarriesMoves.of_sameNode {root root' : TreeNode ι} {path indexes : List ℕ}
    {moves : List BoardMove} (h : CarriesMoves C root path indexes moves)
    (hsame : ∀ n data, root.labelAt ((path ++ indexes).take n) = some data →
      root'.labelAt ((path ++ indexes).take n) = some data) :
    CarriesMoves C root' path indexes moves := by
  fun_induction CarriesMoves C root path indexes moves with
  | case1 => trivial
  | case2 path i indexes move moves ih =>
      obtain ⟨⟨parent, child, hparent, hchild, hcarries⟩, hrest⟩ := h
      have hassoc : path ++ i :: indexes = path ++ [i] ++ indexes := by simp
      refine ⟨⟨parent, child, ?_, ?_, hcarries⟩, ih hrest fun n data ↦ ?_⟩
      · have htake : (path ++ i :: indexes).take path.length = path := List.take_left
        rw [← htake]
        exact hsame _ parent (by rwa [htake])
      · have htake : (path ++ i :: indexes).take (path ++ [i]).length = path ++ [i] := by
          rw [hassoc]
          exact List.take_left
        rw [← htake]
        exact hsame _ child (by rwa [htake])
      · rw [← hassoc]
        exact hsame n data
  | case3 => exact h.elim

theorem AddsMoves.nil {mainline : Bool} (s : TreeState ι) : AddsMoves C mainline [] s s where
  cursor := ⟨[], (List.append_nil _).symm, trivial⟩
  grows := ⟨[], fun _ ↦ rfl, nofun, (Grows.refl s.root).mono fun _ ↦ False.elim,
    Option.map_id.symm ▸ rfl, Option.map_id.symm ▸ rfl⟩
  headers := ⟨rfl, rfl⟩

/-- The steps of a sequence compose. -/
theorem AddsMoves.cons {mainline : Bool} {move : BoardMove} {moves : List BoardMove}
    {s s₁ s' : TreeState ι} (h : AddsMoves C mainline [move] s s₁)
    (h' : AddsMoves C mainline moves s₁ s') : AddsMoves C mainline (move :: moves) s s' := by
  obtain ⟨indexes₁, hcursor₁, hcarries₁⟩ := h.cursor
  obtain ⟨indexes, hcursor, hcarries⟩ := h'.cursor
  obtain ⟨parents₁, hnone₁, hway₁, hgrows₁, hstart₁, hpractice₁⟩ := h.grows
  obtain ⟨parents, hnone, hway, hgrows, hstart, hpractice⟩ := h'.grows
  have hbelow : s.position <+: s₁.position := ⟨indexes₁, hcursor₁.symm⟩
  have hbelow' : s₁.position <+: s'.position := ⟨indexes, hcursor.symm⟩
  -- what comes later happens below the cursor, and moves none of the nodes on its way
  have hfix : ∀ path, path.length ≤ s₁.position.length → shifted parents path = path :=
    fun path hpath ↦ shifted_of_length_le fun parent hparent ↦
      hpath.trans (hway parent hparent).1.length_le
  have hkept : ∀ n data, s₁.root.labelAt (s₁.position.take n) = some data →
      s'.root.labelAt (s₁.position.take n) = some data := by
    intro n data hdata
    have hlabel := hgrows.label (isSome_of_labelAt hdata)
    rw [hfix _ (List.length_take_le' n _)] at hlabel
    exact hlabel.trans hdata
  refine ⟨⟨indexes₁ ++ indexes, ?_, ?_⟩, ⟨parents₁ ++ parents, ?_, ?_, ?_, ?_, ?_⟩, ?_⟩
  · rw [hcursor, hcursor₁, List.append_assoc]
  · obtain ⟨i, rfl⟩ := List.length_eq_one_iff.mp hcarries₁.length_eq
    have hhead := (hcarries₁.of_sameNode (hcursor₁ ▸ hkept)).1
    exact ⟨hhead, hcursor₁ ▸ hcarries⟩
  · intro hmainline
    rw [hnone₁ hmainline, hnone hmainline, List.append_nil]
  · intro parent hparent
    rcases List.mem_append.mp hparent with hparent | hparent
    · exact ⟨(hway₁ parent hparent).1, (hway₁ parent hparent).2.trans hbelow'⟩
    · exact ⟨hbelow.trans (hway parent hparent).1, (hway parent hparent).2⟩
  · rw [shifted_append]
    refine (hgrows₁.trans hgrows).mono ?_
    rintro path (⟨hlength, hpath⟩ | ⟨p, ⟨hlength, hp⟩, rfl⟩)
    · exact ⟨hbelow.length_le.trans_lt hlength, hpath⟩
    · rw [hfix p hp.length_le]
      exact ⟨hlength, hp.trans hbelow'⟩
  · rw [hstart, hstart₁, Option.map_map, shifted_append]
  · rw [hpractice, hpractice₁, Option.map_map, shifted_append]
  · exact ⟨h'.headers.1.trans h.headers.1, h'.headers.2.trans h.headers.2⟩

theorem AddsMoves.tracks {mainline : Bool} {moves : List BoardMove} {s s' : TreeState ι}
    (htracks : s.Tracks) (h : AddsMoves C mainline moves s s')
    (hposition : (s'.root.nodeAt s'.position).isSome) : s'.Tracks := by
  obtain ⟨parents, -, -, hgrows, hstart, hpractice⟩ := h.grows
  refine ⟨hposition, ?_, ?_⟩
  · intro path hpath
    rw [hstart, Option.map_eq_some_iff] at hpath
    obtain ⟨p, hp, rfl⟩ := hpath
    exact hgrows.isSome (htracks.start p hp)
  · intro path hpath
    rw [hpractice, Option.map_eq_some_iff] at hpath
    obtain ⟨p, hp, rfl⟩ := hpath
    exact hgrows.isSome (htracks.practicePath p hp)

/-! ## One move -/

/-- The cursor stands at a position that differs from `pos` in nothing that shows. -/
def StandsAt (laws : C.FenLaws) (s : TreeState ι) (pos : C.Chess) : Prop :=
  ∃ data pos', s.root.labelAt s.position = some data ∧
    positionFromFen C data.fen = some pos' ∧ laws.Same pos pos'

theorem insertMove_front {s : TreeState ι} {args : MoveArgs} (hargs : args.mainline = true)
    (hlast : args.last = false) (hchange : args.changePosition = true) (node : TreeNode ι) :
    let s' := insertMove s args s.position node
    s'.root = s.root.updateChildren (node :: ·) s.position ∧
      s'.position = s.position ++ [0] ∧
      s'.headers.start = s.headers.start.map (rebasePathAfterPrepend · s.position) ∧
      s'.practicePath = s.practicePath.map (rebasePathAfterPrepend · s.position) ∧
      s'.headers.fen = s.headers.fen ∧ s'.headers.termination = s.headers.termination := by
  have hself : rebasePathAfterPrepend s.position s.position = s.position :=
    rebasePathAfterPrepend_of_length_le le_rfl
  simp only [insertMove, insertChild, hargs, hlast, hchange, if_true, Bool.false_eq_true,
    if_false, rebaseTrackedPaths, Option.getD_some, hself, true_and, and_true]
  constructor
  · cases s.headers.start <;> rfl
  · cases s.practicePath <;> rfl

theorem insertMove_back {s : TreeState ι} {args : MoveArgs} {u : TreeNode ι}
    (hargs : args.mainline = false) (hlast : args.last = false)
    (hchange : args.changePosition = true) (hu : s.root.nodeAt s.position = some u)
    (node : TreeNode ι) :
    let s' := insertMove s args s.position node
    s'.root = s.root.updateChildren (· ++ [node]) s.position ∧
      s'.position = s.position ++ [u.children.length] ∧ s'.headers = s.headers ∧
      s'.practicePath = s.practicePath := by
  have hcount : (getNodeAtPath (s.root.updateChildren (· ++ [node]) s.position)
      s.position).children.length = u.children.length + 1 := by
    rw [getNodeAtPath, deepest_of_nodeAt (nodeAt_updateChildren_self hu), children_node,
      List.length_append, List.length_singleton]
  simp only [insertMove, insertChild, hargs, hlast, hchange, if_true, Bool.false_eq_true,
    if_false, hcount, Nat.add_sub_cancel, and_self]

/-- The node a legal move leads to is the one the move has, or has the position after it. -/
theorem Follows.carries (laws : C.FenLaws) {parent child : NodeData ι} {pos : C.Chess}
    {move : BoardMove} (h : Follows C parent child) (hpos : positionFromFen C parent.fen = some pos)
    (hlegal : C.isLegal pos move = true) (hsan : child.san = some (C.makeSan pos move)) :
    Carries C parent child move := by
  obtain ⟨pos', move', hpos', -, hlegal', hsan', hfen⟩ := h.position
  obtain rfl := Option.some.inj (hpos'.symm.trans hpos)
  have hsans : C.makeSan pos' move' = C.makeSan pos' move :=
    Option.some.inj (hsan'.symm.trans hsan)
  refine ⟨pos', hpos', hlegal, hsan, ?_⟩
  rw [hfen, laws.fen (laws.san_injective hlegal' hlegal hsans)]

theorem Carries.standsAt (laws : C.FenLaws) {parent child : NodeData ι} {pos q : C.Chess}
    {move : BoardMove} {s : TreeState ι} (h : Carries C parent child move)
    (hq : positionFromFen C parent.fen = some q) (hsame : laws.Same pos q)
    (hchild : s.root.labelAt s.position = some child) : StandsAt laws s (C.play pos move) := by
  obtain ⟨q', hq', hlegal, -, hfen⟩ := h.played
  obtain rfl := Option.some.inj (hq'.symm.trans hq)
  obtain ⟨r, hr, hsame'⟩ := laws.reread q' move hlegal
  have hplayed : laws.Same (C.play pos move) (C.play q' move) :=
    laws.play move hsame ((laws.legal move hsame).trans hlegal)
  exact ⟨child, r, hchild, hfen ▸ hr, laws.equivalence.trans hplayed hsame'⟩

/-- The result of the game is none of what a sequence adds. -/
theorem AddsMoves.of_withResult {mainline : Bool} {moves : List BoardMove} {s s' : TreeState ι}
    {result : Outcome} (h : AddsMoves C mainline moves (s.withResult result) s') :
    AddsMoves C mainline moves s s' :=
  ⟨h.cursor, h.grows, h.headers⟩

section

variable {s : TreeState ι} {args : MoveArgs}

theorem insertMove_adds {u node : TreeNode ι} (hlast : args.last = false)
    (hchange : args.changePosition = true) (hu : s.root.nodeAt s.position = some u)
    (hleaf : node.children = []) (hcarries : Carries C u.label node.label args.move) :
    AddsMoves C args.mainline [args.move] s (insertMove s args s.position node) ∧
      (insertMove s args s.position node).root.labelAt
        (insertMove s args s.position node).position = some node.label := by
  have hadded : ∀ {k : ℕ} {path : List ℕ}, path = s.position ++ [k] →
      s.position.length < path.length ∧ path <+: s.position ++ [k] := by
    rintro k path rfl
    exact ⟨by simp, List.prefix_rfl⟩
  cases hmainline : args.mainline with
  | true =>
      obtain ⟨hroot, hposition, hstart, hpractice, hheaders⟩ :=
        insertMove_front hmainline hlast hchange node
      have hself := nodeAt_updateChildren_self (f := (node :: ·)) hu
      have hchild := labelAt_child hself (i := 0) rfl
      rw [← hroot] at hself hchild
      have hgrows := grows_cons hu hleaf
      simp only [rebase_prepend, Option.getD_some] at hgrows
      refine ⟨⟨⟨[0], hposition, ⟨_, _, labelAt_eq_some hself, hchild, hcarries⟩, trivial⟩,
        ⟨[s.position], nofun, ?_, ?_, hstart, hpractice⟩, hheaders⟩, hposition ▸ hchild⟩
      · rw [List.forall_mem_singleton, hposition]
        exact ⟨List.prefix_rfl, List.prefix_append _ _⟩
      · rw [hroot, hposition]
        exact hgrows.mono fun path ↦ hadded
  | false =>
      obtain ⟨hroot, hposition, hheaders, hpractice⟩ :=
        insertMove_back hmainline hlast hchange hu node
      have hself := nodeAt_updateChildren_self (f := (· ++ [node])) hu
      have hchild := labelAt_child hself (i := u.children.length) List.getElem?_concat_length
      rw [← hroot] at hself hchild
      refine ⟨⟨⟨[u.children.length], hposition,
        ⟨_, _, labelAt_eq_some hself, hchild, hcarries⟩, trivial⟩,
        ⟨[], fun _ ↦ rfl, nofun, ?_, ?_, ?_⟩, by rw [hheaders]; exact ⟨rfl, rfl⟩⟩,
        hposition ▸ hchild⟩
      · rw [hroot, hposition, shifted_nil]
        exact (grows_concat hu hleaf).mono fun path ↦ hadded
      · rw [hheaders, shifted_nil, Option.map_id]
        rfl
      · rw [hpractice, shifted_nil, Option.map_id]
        rfl

/-- One move of a sequence enters the child it has or adds one. -/
theorem makeMove_adds (laws : C.FenLaws) {pos : C.Chess} (fresh : ι)
    (hconsistent : Consistent C s.root) (hlast : args.last = false)
    (hchange : args.changePosition = true) (hstands : StandsAt laws s pos)
    (hlegal : C.isLegal pos args.move = true) :
    AddsMoves C args.mainline [args.move] s (makeMove C fresh s args) ∧
      StandsAt laws (makeMove C fresh s args) (C.play pos args.move) := by
  obtain ⟨data, q, hdata, hq, hsame⟩ := hstands
  obtain ⟨u, hu, rfl⟩ := Option.map_eq_some_iff.mp hdata
  have hat : args.position s = s.position := by
    rw [MoveArgs.position, hlast]
    rfl
  have hdeepest : getNodeAtPath s.root s.position = u := deepest_of_nodeAt hu
  have hlegal' : C.isLegal q args.move = true := (laws.legal _ hsame).symm.trans hlegal
  have hcases := makeMove_cases C fresh s args
  simp only [hat, hdeepest] at hcases
  rcases hcases with ⟨hsan, -⟩ | ⟨q', result, hq', -, -, ⟨i, hi, hs'⟩ | hs'⟩
  · rw [playedSan, hat, hdeepest, hq] at hsan
    simp [hlegal'] at hsan
  · obtain rfl : q' = q := Option.some.inj (hq'.symm.trans hq)
    rw [if_pos hchange] at hs'
    obtain ⟨c, hc, hcsan⟩ := existingIndex_spec hi
    have hchild : s.root.labelAt (s.position ++ [i]) = some c.label := labelAt_child hu hc
    have hcarries : Carries C u.label c.label args.move :=
      (hconsistent.follows.child hu hc).carries laws hq hlegal' hcsan
    rw [hs']
    refine ⟨⟨⟨[i], rfl, ⟨_, _, labelAt_eq_some hu, hchild, hcarries⟩, trivial⟩, ?_, rfl, rfl⟩,
      hcarries.standsAt laws hq hsame hchild⟩
    exact ⟨[], fun _ ↦ rfl, fun _ hparent ↦ absurd hparent List.not_mem_nil,
      (Grows.refl s.root).mono fun _ ↦ False.elim,
      Option.map_id.symm ▸ rfl, Option.map_id.symm ▸ rfl⟩
  · obtain rfl : q' = q := Option.some.inj (hq'.symm.trans hq)
    have hcarries : Carries C u.label (moveChild C fresh u.label q' args).label args.move :=
      ⟨q', hq, hlegal', rfl, rfl⟩
    have hleaf : (moveChild C fresh u.label q' args).children = [] := rfl
    obtain ⟨hadds, hchild⟩ :=
      insertMove_adds (s := s.withResult result) hlast hchange hu hleaf hcarries
    rw [hs']
    exact ⟨hadds.of_withResult, hcarries.standsAt laws hq hsame hchild⟩

end

/-! ## A whole sequence -/

/-- No two siblings are the same move. -/
def DistinctSans (root : TreeNode ι) : Prop :=
  Families (fun _ children ↦ (children.map NodeData.san).Nodup) root

theorem distinctSans_insertMove {s : TreeState ι} (h : DistinctSans s.root) (args : MoveArgs)
    {path : List ℕ} {node : TreeNode ι} (hleaf : node.children = [])
    (hsan : ∀ c ∈ (s.root.deepest path).children, c.label.san ≠ node.label.san) :
    DistinctSans (insertMove s args path node).root := by
  rw [(root_insertMove s args path node).1, (root_insertChild s args path node).1]
  have hnew : DistinctSans node := by
    rw [DistinctSans, ← node_eta node, hleaf]
    exact .leaf List.nodup_nil
  have hold := (h.deepest path).family
  have hne : node.label.san ∉ ((s.root.deepest path).children.map label).map NodeData.san := by
    rw [List.map_map, List.mem_map]
    rintro ⟨c, hc, heq⟩
    exact hsan c hc heq
  refine Families.updateChildren h ?_ fun c hc ↦ ?_
  · cases args.mainline with
    | true => exact List.nodup_cons.mpr ⟨hne, hold⟩
    | false =>
        rw [if_neg (by decide), List.map_append, List.map_append, List.nodup_append]
        refine ⟨hold, List.nodup_singleton _, ?_⟩
        rintro san hmem _ hsingle rfl
        rw [List.mem_singleton.mp hsingle] at hmem
        exact hne hmem
  · have hc' : c = node ∨ c ∈ (s.root.deepest path).children := by
      cases hmainline : args.mainline with
      | true => simpa [hmainline] using hc
      | false => simpa [hmainline, or_comm] using hc
    rcases hc' with rfl | hc'
    · exact hnew
    · exact (h.deepest path).child c hc'

theorem distinctSans_makeMove {s : TreeState ι} (h : DistinctSans s.root) (fresh : ι)
    (args : MoveArgs) : DistinctSans (makeMove C fresh s args).root := by
  have hinsert : ∀ {pos : C.Chess} {data : NodeData ι} {result : Outcome},
      existingIndex (getNodeAtPath s.root (args.position s)) (C.makeSan pos args.move) = none →
      DistinctSans (insertMove (s.withResult result) args (args.position s)
        (moveChild C fresh data pos args)).root := by
    intro pos data result hnone
    refine distinctSans_insertMove (s := s.withResult result) h args rfl fun c hc heq ↦ ?_
    rw [existingIndex, List.findIdx?_eq_none_iff] at hnone
    have hno := hnone c hc
    rw [heq] at hno
    simp [moveChild, createNode] at hno
  unfold makeMove
  dsimp only
  split
  · exact h
  · split_ifs
    · exact h
    · split
      · exact h
      · exact hinsert ‹_›
    · split
      · exact h
      · exact hinsert ‹_›

/-- Both replays of the tokens agree, so every move is played. -/
theorem playMoves_adds (laws : C.FenLaws) (fresh : ℕ → ι) (args : SequenceArgs) (index : ℕ)
    {s : TreeState ι} {pos : C.Chess} {payload : List Text} {moves : List BoardMove}
    (hconsistent : Consistent C s.root) (hstands : StandsAt laws s pos)
    (hreads : ReadsMoves C pos payload moves) :
    AddsMoves C args.mainline moves s (playMoves C fresh args index s moves) ∧
      Consistent C (playMoves C fresh args index s moves).root ∧
      (DistinctSans s.root → DistinctSans (playMoves C fresh args index s moves).root) := by
  induction moves generalizing index s pos payload with
  | nil => exact ⟨AddsMoves.nil s, hconsistent, id⟩
  | cons move moves ih =>
      cases payload with
      | nil => exact hreads.elim
      | cons token payload =>
          have hlegal := parseSanOrUci_legal laws hreads.1
          have hchange : (args.moveArgs move).changePosition = true := rfl
          obtain ⟨hstep, hstands'⟩ :=
            makeMove_adds laws (fresh index) hconsistent rfl hchange hstands hlegal
          obtain ⟨hadds, hconsistent', hdistinct⟩ := ih (index + 1)
            (consistent_makeMove hconsistent (fresh index) (args.moveArgs move)) hstands' hreads.2
          exact ⟨hstep.cons hadds, hconsistent', fun h ↦
            hdistinct (distinctSans_makeMove h (fresh index) (args.moveArgs move))⟩

/-- What a sequence of moves does to the tree, and what it answers. -/
structure AllOrNothing (C : Chessops) (s : TreeState ι) (args : SequenceArgs)
    (outcome : TreeState ι × Except MoveSequenceError (List BoardMove)) : Prop where
  refused : ∀ error, outcome.2 = .error error → outcome.1 = s ∧
    ∀ pos, positionFromFen C (getNodeAtPath s.root s.position).label.fen = some pos →
      ∀ moves, ¬ReadsMoves C pos args.payload moves
  reads : ∀ moves, outcome.2 = .ok moves → args.payload ≠ [] →
    ∃ pos, positionFromFen C (getNodeAtPath s.root s.position).label.fen = some pos ∧
      ReadsMoves C pos args.payload moves
  adds : ∀ moves, outcome.2 = .ok moves → moves.length = args.payload.length ∧
    AddsMoves C args.mainline moves s outcome.1
  consistent : Consistent C outcome.1.root
  tracks : outcome.1.Tracks
  distinct : DistinctSans s.root → DistinctSans outcome.1.root

theorem AddsMoves.isSome_position {mainline : Bool} {moves : List BoardMove}
    {s s' : TreeState ι} (htracks : s.Tracks) (h : AddsMoves C mainline moves s s') :
    (s'.root.nodeAt s'.position).isSome := by
  have hcarried : ∀ {root : TreeNode ι} {path indexes : List ℕ} {moves : List BoardMove},
      CarriesMoves C root path indexes moves → indexes ≠ [] →
      (root.nodeAt (path ++ indexes)).isSome := by
    intro root path indexes moves h hne
    fun_induction CarriesMoves C root path indexes moves with
    | case1 => exact absurd rfl hne
    | case2 path i indexes move moves ih =>
        obtain ⟨⟨-, child, -, hchild, -⟩, hrest⟩ := h
        have hassoc : path ++ i :: indexes = path ++ [i] ++ indexes := by simp
        rw [hassoc]
        rcases eq_or_ne indexes [] with rfl | hne'
        · rw [List.append_nil]
          exact isSome_of_labelAt hchild
        · exact ih hrest hne'
    | case3 => exact h.elim
  obtain ⟨indexes, hcursor, hcarries⟩ := h.cursor
  rcases eq_or_ne indexes [] with rfl | hne
  · obtain ⟨parents, -, hway, hgrows, -⟩ := h.grows
    have hsome := hgrows.isSome htracks.position
    rw [shifted_of_length_le fun parent hparent ↦ (hway parent hparent).1.length_le] at hsome
    rw [hcursor, List.append_nil]
    exact hsome
  · rw [hcursor]
    exact hcarried hcarries hne

/-- A sequence is empty, or one of its tokens cannot be read, or its moves are played. -/
theorem makeMoves_cases (C : Chessops) (fresh : ℕ → ι) (s : TreeState ι) (args : SequenceArgs) :
    let fen := (getNodeAtPath s.root s.position).label.fen
    (args.payload = [] ∧ makeMoves C fresh s args = (s, .ok [])) ∨
      (∃ error, makeMoves C fresh s args = (s, .error error) ∧
        ∀ pos, positionFromFen C fen = some pos → ∀ moves, ¬ReadsMoves C pos args.payload moves) ∨
      ∃ moves pos, makeMoves C fresh s args = (playMoves C fresh args 0 s moves, .ok moves) ∧
        positionFromFen C fen = some pos ∧ ReadsMoves C pos args.payload moves := by
  intro fen
  rw [makeMoves]
  by_cases hempty : args.payload = []
  · exact .inl ⟨hempty, if_pos hempty⟩
  · rw [if_neg hempty]
    right
    cases hpos : positionFromFen C fen with
    | none => exact .inl ⟨.invalidPosition, by simp only [validateMoveSequence, fen, hpos], nofun⟩
    | some pos =>
        have hparse : validateMoveSequence C fen args.payload =
            parseMoves C pos 0 args.payload := by
          simp only [validateMoveSequence, hpos]
        rw [hparse]
        cases hmoves : parseMoves C pos 0 args.payload with
        | error error =>
            refine .inl ⟨error, rfl, ?_⟩
            rintro pos' ⟨⟩ moves hreads
            cases (parseMoves_eq_ok.mpr hreads).symm.trans hmoves
        | ok moves => exact .inr ⟨moves, pos, rfl, rfl, parseMoves_eq_ok.mp hmoves⟩

section

variable {s : TreeState ι}

theorem standsAt_position (laws : C.FenLaws) (htracks : s.Tracks) {pos : C.Chess}
    (hpos : positionFromFen C (getNodeAtPath s.root s.position).label.fen = some pos) :
    StandsAt laws s pos := by
  obtain ⟨u, hu⟩ := Option.isSome_iff_exists.mp htracks.position
  rw [getNodeAtPath, deepest_of_nodeAt hu] at hpos
  exact ⟨u.label, pos, labelAt_eq_some hu, hpos, laws.equivalence.refl pos⟩

/-- The tree stays consistent, and its paths stay on it. -/
theorem makeMoves_keeps (laws : C.FenLaws) (fresh : ℕ → ι) (hconsistent : Consistent C s.root)
    (htracks : s.Tracks) (args : SequenceArgs) :
    Consistent C (makeMoves C fresh s args).1.root ∧ (makeMoves C fresh s args).1.Tracks := by
  rcases makeMoves_cases C fresh s args with
    ⟨-, hs'⟩ | ⟨error, hs', -⟩ | ⟨moves, pos, hs', hpos, hreads⟩
  · rw [hs']
    exact ⟨hconsistent, htracks⟩
  · rw [hs']
    exact ⟨hconsistent, htracks⟩
  · obtain ⟨hadds, hconsistent', -⟩ := playMoves_adds laws fresh args 0 hconsistent
      (standsAt_position laws htracks hpos) hreads
    rw [hs']
    exact ⟨hconsistent', hadds.tracks htracks (hadds.isSome_position htracks)⟩

/-- A sequence of moves is played all or not at all: what one position reads is played through
the FENs of the tree, below the cursor and nowhere else. -/
theorem makeMoves_allOrNothing (laws : C.FenLaws) (fresh : ℕ → ι)
    (hconsistent : Consistent C s.root) (htracks : s.Tracks) (args : SequenceArgs) :
    AllOrNothing C s args (makeMoves C fresh s args) := by
  obtain ⟨hconsistent', htracks'⟩ := makeMoves_keeps laws fresh hconsistent htracks args
  rcases makeMoves_cases C fresh s args with
    ⟨hempty, hs'⟩ | ⟨error, hs', hrefused⟩ | ⟨moves, pos, hs', hpos, hreads⟩
  · rw [hs'] at hconsistent' htracks' ⊢
    refine ⟨nofun, fun _ _ hne ↦ absurd hempty hne, ?_, hconsistent', htracks', id⟩
    rintro moves ⟨⟩
    exact ⟨by rw [hempty]; rfl, AddsMoves.nil s⟩
  · rw [hs'] at hconsistent' htracks' ⊢
    exact ⟨fun _ _ ↦ ⟨rfl, hrefused⟩, nofun, nofun, hconsistent', htracks', id⟩
  · obtain ⟨hadds, -, hdistinct⟩ := playMoves_adds laws fresh args 0 hconsistent
      (standsAt_position laws htracks hpos) hreads
    rw [hs'] at hconsistent' htracks' ⊢
    refine ⟨nofun, ?_, ?_, hconsistent', htracks', hdistinct⟩
    · rintro moves' ⟨⟩ -
      exact ⟨pos, hpos, hreads⟩
    · rintro moves' ⟨⟩
      exact ⟨hreads.length_eq, hadds⟩

end

namespace KingPawn

theorem consistent_tree : Consistent chessops tree := by
  have hfollows : ∀ {parent child : NodeData ℕ} (pos : Game) (move : BoardMove),
      positionFromFen chessops parent.fen = some pos → child.move = some move →
      chessops.isLegal pos move = true → child.san = some (chessops.makeSan pos move) →
      child.fen = chessops.makeFen (chessops.toSetup (chessops.play pos move)) →
      child.halfMoves = parent.halfMoves + 1 → Follows chessops parent child :=
    fun pos move hpos hmove hlegal hsan hfen hply ↦
      ⟨⟨pos, move, hpos, hmove, hlegal, hsan, hfen⟩, hply⟩
  refine ⟨FollowsOn.node fun c hc ↦ ?_, by decide⟩
  rcases List.mem_cons.mp hc with rfl | hc
  · refine ⟨hfollows .start e4 (by decide) rfl (by decide) (by decide) (by decide) (by decide),
      FollowsOn.node fun c hc ↦ ?_⟩
    obtain rfl := List.mem_singleton.mp hc
    exact ⟨hfollows .kingPawn e5 (by decide) rfl (by decide) (by decide) (by decide) (by decide),
      .leaf (by simp)⟩
  · obtain rfl := List.mem_singleton.mp hc
    exact ⟨hfollows .start d4 (by decide) rfl (by decide) (by decide) (by decide) (by decide),
      .leaf (by simp)⟩

def atStart : TreeState ℕ := { state with position := [] }

theorem tracks_atStart : atStart.Tracks :=
  ⟨rfl, tracks_state.start, tracks_state.practicePath⟩

/-- The moves of the main line are entered again from the start. -/
theorem makeMoves_allOrNothing_atStart :
    let args : SequenceArgs := ⟨["e4".toList, "e5".toList], true, false⟩
    AllOrNothing chessops atStart args (makeMoves chessops id atStart args) ∧
      (makeMoves chessops id atStart args).1.position = [0, 0] :=
  ⟨makeMoves_allOrNothing fenLaws id consistent_tree tracks_atStart _, by decide⟩

end KingPawn

end EnCroissant

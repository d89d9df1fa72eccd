import EnCroissant.Pgn.HeaderRoundTrip
import EnCroissant.Tree.Consistency
import EnCroissant.Tree.Stored

/-!
# Reading a game

The tokens of a game are read into a tree.  The cursor of the reader only ever moves on to
the move it has just added, so the rest of the tokens is read below that move, and the
variations that follow it become its siblings.
-/

namespace EnCroissant

open PgnHeaders (Token)

/-- The comment parser, with the depth that the evaluation of a comment comes with; `modelGameEnd`
is that of `splitPgnComment`. -/
structure CommentReader extends CommentSyntax where
  evaluationDepth : (comment : Text) → (modelGameEnd : Bool) → Option ℕ

/-- What the tree cannot keep. -/
inductive Loss where
  | contentAfterOutcome
  | multipleClocks
  | multipleEvaluations
  | commentOnVariationRoot
  | multipleGameEnds
  | overwrittenStartingComment
  | startingCommentWithoutMove
  | unmatchedClose
  | unparsedContent
  | nagOnRoot
  | invalidNag
  | invalidMovePosition
  | unplayableMove
  | outcomeInsideVariation
  deriving DecidableEq, Repr

def Loss.text : Loss → String
  | contentAfterOutcome => "Content after outcome"
  | multipleClocks => "Multiple clocks"
  | multipleEvaluations => "Multiple evaluations"
  | commentOnVariationRoot => "Comment on discarded variation root"
  | multipleGameEnds => "Multiple game ends on one node"
  | overwrittenStartingComment => "Overwritten variation starting comment"
  | startingCommentWithoutMove => "Starting comment without a variation move"
  | unmatchedClose => "Unmatched variation close"
  | unparsedContent => "Unparsed content"
  | nagOnRoot => "NAG on parse root"
  | invalidNag => "Invalid NAG"
  | invalidMovePosition => "Invalid move position"
  | unplayableMove => "Unplayable move"
  | outcomeInsideVariation => "Outcome inside variation"

structure ReadState where
  ended : Bool := false
  clocks : ℕ := 0
  evaluations : ℕ := 0
  losses : List Loss := []

def ReadState.lose (st : ReadState) (loss : Loss) : ReadState :=
  { st with losses := st.losses ++ [loss] }

/-- A loss, where the condition holds. -/
def ReadState.loseIf (st : ReadState) (condition : Bool) (loss : Loss) : ReadState :=
  if condition then st.lose loss else st

variable {ι : Type}

/-! ## Comments -/

namespace CommentReader

variable (R : CommentReader)

/-- Counts the clock and the evaluation of one command. -/
def countCommand (st : ReadState) (found : CommentCommand) : ReadState :=
  let field := R.splitPgnComment found.text false
  let st :=
    if field.clock.isSome then
      ReadState.loseIf { st with clocks := st.clocks + 1 } (decide (1 < st.clocks + 1))
        .multipleClocks
    else st
  if field.evaluation.isSome then
    ReadState.loseIf { st with evaluations := st.evaluations + 1 }
      (decide (1 < st.evaluations + 1)) .multipleEvaluations
  else st

def addGameEnd (found : NodeData ι × ReadState) (gameEnd : GameEnd) : NodeData ι × ReadState :=
  if found.1.gameEnd.isSome then (found.1, found.2.lose .multipleGameEnds)
  else ({ found.1 with gameEnd := some gameEnd }, found.2)

/-- A text behind the one that is there. -/
def joined (before text : Text) : Text := if before = [] then text else before ++ ' ' :: text

/-- What a comment writes into its node. -/
def addComment (node : NodeData ι) (comment : SplitComment) (depth : Option ℕ) : NodeData ι :=
  { node with
    score := comment.evaluation.or node.score
    depth := if comment.evaluation.isSome then depth else node.depth
    shapes := node.shapes ++ comment.shapes.map toDrawShape
    clock := comment.clock.or node.clock
    comment := if comment.text = [] then node.comment else joined node.comment comment.text
    commands :=
      if comment.commands = [] then node.commands
      else some (joined (node.commands.getD []) comment.commands) }

/-- A comment at a node; the root of a variation is thrown away later. -/
def readComment (isVariation atRoot : Bool) (node : NodeData ι) (st : ReadState)
    (value : Text) : NodeData ι × ReadState :=
  let st := (commandsIn value).foldl R.countCommand st
  let st := st.loseIf (isVariation && atRoot) .commentOnVariationRoot
  let comment := R.splitPgnComment value !atRoot
  let (node, st) := comment.gameEnds.foldl addGameEnd (node, st)
  (addComment node comment (R.evaluationDepth value !atRoot), st)

end CommentReader

/-! ## Tokens -/

/-- The tokens up to the close of a variation, and those behind it. -/
def takeVariation : (subvariations : ℕ) → List Token → List Token × List Token
  | _, [] => ([], [])
  | 0, .parenClose :: rest => ([], rest)
  | subvariations, token :: rest =>
      let found := takeVariation
        (match token with
          | .parenOpen => subvariations + 1
          | .parenClose => subvariations - 1
          | _ => subvariations) rest
      (token :: found.1, found.2)

def commentOf? : Token → Option Text
  | .comment value => some value
  | _ => none

/-- The comments in front of the first move of a variation. -/
def startingComments (variation : List Token) : List Text :=
  (variation.takeWhile fun token ↦ (commentOf? token).isSome).filterMap commentOf?

def afterStartingComments (variation : List Token) : List Token :=
  variation.dropWhile fun token ↦ (commentOf? token).isSome

/-- `/^\$\d+$/`, and then the code. -/
def nagCode (value : Text) : Option ℕ :=
  match value with
  | '$' :: digits =>
      if digits ≠ [] ∧ digits.all Char.isDigit then
        if Text.digitsValue digits ≤ maxNag then some (Text.digitsValue digits) else none
      else none
  | _ => none

theorem length_takeVariation (subvariations : ℕ) (tokens : List Token) :
    (takeVariation subvariations tokens).1.length ≤ tokens.length ∧
      (takeVariation subvariations tokens).2.length ≤ tokens.length := by
  fun_induction takeVariation subvariations tokens with
  | case1 => simp
  | case2 => simp
  | case3 subvariations token rest _ found ih =>
      simp only [List.length_cons, found]
      omega

theorem length_afterStartingComments (variation : List Token) :
    (afterStartingComments variation).length ≤ variation.length :=
  (List.dropWhile_suffix _).length_le

/-- Gives the first move of a variation the comments in front of it. -/
def setStartingComment (comments : List Text) (children : List (TreeNode ι)) (st : ReadState) :
    List (TreeNode ι) × ReadState :=
  if comments = [] then (children, st)
  else
    match children with
    | [] => (children, st.lose .startingCommentWithoutMove)
    | first :: rest =>
        (.node { first.label with startingComment := some ([' '].intercalate comments) }
          first.children :: rest,
          st.loseIf (first.label.startingComment.any (· ≠ [])) .overwrittenStartingComment)

/-- The root of a variation stands for the node it branches from. -/
def variationRoot (C : Chessops) (ref : ι) (prevNode : NodeData ι) : NodeData ι :=
  { rootData C ref prevNode.fen with halfMoves := prevNode.halfMoves }

/-- What is read at a cursor: the node with all that is below it, the nodes that come behind it
below its parent, and what is left to say. -/
structure ReadNode (ι : Type) where
  node : TreeNode ι
  siblings : List (TreeNode ι)
  state : ReadState

section

variable (C : Chessops) (R : CommentReader) (ref : ι)

/-- The rest of `innerParsePGN` with the cursor at `node`.  Its parent is `parent`, unless it is
the root; `children` and `siblings` are what was read below it and behind it. -/
def readTokens (isVariation : Bool) (parent : Option (NodeData ι)) (node : NodeData ι)
    (children siblings : List (TreeNode ι)) (st : ReadState) : List Token → ReadNode ι
  | [] => ⟨.node node children, siblings, st⟩
  | token :: tokens =>
      if st.ended && ((commentOf? token).isNone || isVariation) then
        readTokens isVariation parent node children siblings (st.lose .contentAfterOutcome) tokens
      else
        match token with
        | .comment value =>
            let found := R.readComment isVariation parent.isNone node st value
            readTokens isVariation parent found.1 children siblings found.2 tokens
        | .parenOpen =>
            let prevNode := parent.getD node
            let variation := (takeVariation 0 tokens).1
            let read := readTokens true none (variationRoot C ref prevNode) [] []
              { losses := st.losses } (afterStartingComments variation)
            let added := setStartingComment (startingComments variation) read.node.children
              { st with losses := read.state.losses }
            match parent with
            | none =>
                readTokens isVariation none node (children ++ added.1) siblings added.2
                  (takeVariation 0 tokens).2
            | some parent =>
                readTokens isVariation (some parent) node children (siblings ++ added.1) added.2
                  (takeVariation 0 tokens).2
        | .parenClose =>
            readTokens isVariation parent node children siblings (st.lose .unmatchedClose) tokens
        | .unparsed _ =>
            readTokens isVariation parent node children siblings (st.lose .unparsedContent) tokens
        | .nag value =>
            match nagCode value with
            | some code =>
                readTokens isVariation parent { node with nags := node.nags ++ [code] } children
                  siblings (st.loseIf parent.isNone .nagOnRoot) tokens
            | none =>
                readTokens isVariation parent node children siblings (st.lose .invalidNag) tokens
        | .san value =>
            match positionFromFen C node.fen with
            | none =>
                readTokens isVariation parent node children siblings
                  (st.lose .invalidMovePosition) tokens
            | some pos =>
                match parseSanOrUci C pos value with
                | none =>
                    readTokens isVariation parent node children siblings
                      (st.lose .unplayableMove) tokens
                | some move =>
                    let child := (createNode ref (C.makeFen (C.toSetup (C.play pos move))) move
                      (C.makeSan pos move) (node.halfMoves + 1) none).label
                    let read := readTokens isVariation (some node) child [] []
                      { st with clocks := 0, evaluations := 0 } tokens
                    ⟨.node node (children ++ read.node :: read.siblings), siblings, read.state⟩
        | .outcome _ =>
            readTokens isVariation parent node children siblings
              { st.loseIf isVariation .outcomeInsideVariation with ended := true } tokens
        | .header _ _ => readTokens isVariation parent node children siblings st tokens
termination_by tokens => tokens.length
decreasing_by
  all_goals simp only [List.length_cons]
  all_goals first
    | exact Nat.lt_succ_self _
    | skip
  · exact Nat.lt_succ_of_le ((length_afterStartingComments _).trans (length_takeVariation 0 _).1)
  · exact Nat.lt_succ_of_le (length_takeVariation 0 _).2
  · exact Nat.lt_succ_of_le (length_takeVariation 0 _).2

/-- `innerParsePGN` of a game: its tree and what the tree cannot keep. -/
def innerParsePGN (fen : Text) (tokens : List Token) : TreeNode ι × List Loss :=
  let read := readTokens C R ref false none (rootData C ref fen) [] [] {} tokens
  (read.node, read.state.losses)

end

/-! ## What is read is consistent -/

section

variable {C : Chessops} {R : CommentReader} {ref : ι}

theorem SamePly.refl (data : NodeData ι) : SamePly data data := ⟨rfl, rfl, rfl, rfl⟩

theorem SamePly.trans {a b c : NodeData ι} (h : SamePly a b) (h' : SamePly b c) : SamePly a c :=
  ⟨h'.1.trans h.1, h'.2.1.trans h.2.1, h'.2.2.1.trans h.2.2.1, h'.2.2.2.trans h.2.2.2⟩

/-- The children of a node only ask for its position and its ply count. -/
theorem Follows.of_parent {parent parent' child : NodeData ι} (h : Follows C parent child)
    (hfen : parent'.fen = parent.fen) (hply : parent'.halfMoves = parent.halfMoves) :
    Follows C parent' child :=
  ⟨by rw [hfen]; exact h.position, by rw [hply]; exact h.halfMoves⟩

theorem CommentReader.samePly_readComment (isVariation atRoot : Bool) (node : NodeData ι)
    (st : ReadState) (value : Text) :
    SamePly node (R.readComment isVariation atRoot node st value).1 := by
  have hends : ∀ (ends : List GameEnd) (found : NodeData ι × ReadState),
      SamePly found.1 (ends.foldl addGameEnd found).1 := by
    intro ends
    induction ends with
    | nil => exact fun found ↦ SamePly.refl found.1
    | cons gameEnd ends ih =>
        intro found
        refine SamePly.trans ?_ (ih (addGameEnd found gameEnd))
        rw [addGameEnd]
        split_ifs <;> exact ⟨rfl, rfl, rfl, rfl⟩
  exact SamePly.trans (hends _ (node, _)) ⟨rfl, rfl, rfl, rfl⟩

/-- The nodes are all right as children of this node. -/
def AllFollow (C : Chessops) (parent : NodeData ι) (nodes : List (TreeNode ι)) : Prop :=
  ∀ c ∈ nodes, Follows C parent c.label ∧ FollowsOn C c

theorem allFollow_nil (parent : NodeData ι) : AllFollow C parent [] :=
  fun _ hc ↦ absurd hc List.not_mem_nil

theorem AllFollow.append {parent : NodeData ι} {xs ys : List (TreeNode ι)}
    (hx : AllFollow C parent xs) (hy : AllFollow C parent ys) : AllFollow C parent (xs ++ ys) := by
  intro c hc
  rcases List.mem_append.mp hc with hc | hc
  · exact hx c hc
  · exact hy c hc

theorem AllFollow.of_parent {parent parent' : NodeData ι} {nodes : List (TreeNode ι)}
    (h : AllFollow C parent nodes) (hfen : parent'.fen = parent.fen)
    (hply : parent'.halfMoves = parent.halfMoves) : AllFollow C parent' nodes :=
  fun c hc ↦ ⟨(h c hc).1.of_parent hfen hply, (h c hc).2⟩

theorem AllFollow.setStartingComment {parent : NodeData ι} {nodes : List (TreeNode ι)}
    (h : AllFollow C parent nodes) (comments : List Text) (st : ReadState) :
    AllFollow C parent (setStartingComment comments nodes st).1 := by
  unfold EnCroissant.setStartingComment
  split_ifs
  · exact h
  · cases nodes with
    | nil => exact h
    | cons first rest =>
        intro c hc
        rcases List.mem_cons.mp hc with rfl | hc
        · obtain ⟨hfirst, hbelow⟩ := h first List.mem_cons_self
          exact ⟨hfirst.samePly (SamePly.refl parent) ⟨rfl, rfl, rfl, rfl⟩,
            FollowsOn.node fun d hd ↦
              (hbelow.children d hd).imp_left fun hd ↦ hd.of_parent rfl rfl⟩
        · exact h c (List.mem_cons_of_mem _ hc)

/-- The cursor of a game whose moves follow from each other so far. -/
structure ReadingAt (C : Chessops) (parent : Option (NodeData ι)) (node : NodeData ι)
    (children siblings : List (TreeNode ι)) : Prop where
  normal : ∀ data ∈ node :: parent.toList, normalizeFen data.fen = data.fen
  children : AllFollow C node children
  siblings : ∀ data ∈ parent, AllFollow C data siblings

/-- What holds of the result at a cursor. -/
structure ReadNode.Follows (C : Chessops) (parent : Option (NodeData ι)) (node : NodeData ι)
    (read : ReadNode ι) : Prop where
  label : SamePly node read.node.label
  below : FollowsOn C read.node
  siblings : ∀ data ∈ parent, AllFollow C data read.siblings

theorem FollowsOn.of_allFollow {node : NodeData ι} {children : List (TreeNode ι)}
    (h : AllFollow C node children) : FollowsOn C (.node node children) := FollowsOn.node h

/-- What is written into a node leaves its move and its position. -/
theorem ReadingAt.samePly {parent : Option (NodeData ι)} {node node' : NodeData ι}
    {children siblings : List (TreeNode ι)} (h : ReadingAt C parent node children siblings)
    (hply : SamePly node node') : ReadingAt C parent node' children siblings where
  normal := by
    have hnormal := h.normal
    rw [List.forall_mem_cons] at hnormal ⊢
    rw [hply.1]
    exact hnormal
  children := h.children.of_parent hply.1 hply.2.2.2
  siblings := h.siblings

theorem ReadNode.Follows.samePly {parent : Option (NodeData ι)} {node node' : NodeData ι}
    {read : ReadNode ι} (h : read.Follows C parent node') (hply : SamePly node node') :
    read.Follows C parent node :=
  ⟨hply.trans h.label, h.below, h.siblings⟩

theorem fen_rootData (fen : Text) : (rootData C ref fen).fen = normalizeFen fen := rfl

theorem fen_variationRoot (prevNode : NodeData ι) :
    (variationRoot C ref prevNode).fen = normalizeFen prevNode.fen := rfl

/-- A variation is read from the root that stands for the node it branches from. -/
theorem readingAt_variationRoot (prevNode : NodeData ι) :
    ReadingAt C none (variationRoot C ref prevNode) [] [] where
  normal := by
    rw [Option.toList_none, List.forall_mem_singleton, fen_variationRoot,
      PgnHeaders.normalizeFen_idem]
  children := allFollow_nil _
  siblings := fun _ _ ↦ allFollow_nil _

/-- The moves of a variation are moves from the node it branches from. -/
theorem ReadNode.Follows.allFollow_variation {prevNode : NodeData ι} {read : ReadNode ι}
    (hnormal : normalizeFen prevNode.fen = prevNode.fen)
    (h : read.Follows C none (variationRoot C ref prevNode)) :
    AllFollow C prevNode read.node.children := by
  have hbelow : AllFollow C read.node.label read.node.children := h.below.children
  refine hbelow.of_parent ?_ h.label.2.2.2.symm
  calc prevNode.fen = normalizeFen prevNode.fen := hnormal.symm
    _ = read.node.label.fen := h.label.1.symm

theorem normalizeFen_makeFen (laws : C.FenLaws) (setup : C.Setup) :
    normalizeFen (C.makeFen setup) = C.makeFen setup := by
  obtain ⟨htrim, hne⟩ := laws.trim setup
  rw [normalizeFen, htrim]
  split
  · contradiction
  · rfl

/-- The position after a move is written as it is read. -/
theorem Follows.normal (laws : C.FenLaws) {data child : NodeData ι} (h : Follows C data child) :
    normalizeFen child.fen = child.fen := by
  obtain ⟨⟨pos, move, -, -, -, -, hfen⟩, -⟩ := h
  rw [hfen, normalizeFen_makeFen laws]

/-- One step of the reader keeps `ReadingAt`; by induction on what is left, so does all of it. -/
theorem readTokens_follows (laws : C.FenLaws) {isVariation : Bool} {parent : Option (NodeData ι)}
    {node : NodeData ι} {children siblings : List (TreeNode ι)} {st : ReadState}
    {tokens : List Token} (h : ReadingAt C parent node children siblings) :
    (readTokens C R ref isVariation parent node children siblings st tokens).Follows C parent
      node := by
  fun_induction readTokens C R ref isVariation parent node children siblings st tokens with
  | case1 => exact ⟨SamePly.refl _, FollowsOn.of_allFollow h.children, h.siblings⟩
  | case3 isVariation parent node children siblings st tokens value found _ ih =>
      have hply : SamePly node found.1 := R.samePly_readComment _ _ node st value
      exact (ih (h.samePly hply)).samePly hply
  | case4 isVariation node children siblings st tokens variation prevNode read added _ ih _ ih' =>
      have hnormal := h.normal node List.mem_cons_self
      have hread := (ih (readingAt_variationRoot _)).allFollow_variation hnormal
      apply ih'
      exact { h with children := h.children.append (hread.setStartingComment _ _) }
  | case5 isVariation node children siblings st tokens variation parent prevNode read added _ ih _
      ih' =>
      have hnormal := h.normal parent (by simp)
      have hread := (ih (readingAt_variationRoot _)).allFollow_variation hnormal
      apply ih'
      refine { h with siblings := fun data hdata ↦ ?_ }
      obtain rfl := Option.some.inj hdata
      exact (h.siblings _ rfl).append (hread.setStartingComment _ _)
  | case8 _ _ _ _ _ _ _ _ _ _ _ ih =>
      exact (ih (h.samePly ⟨rfl, rfl, rfl, rfl⟩)).samePly ⟨rfl, rfl, rfl, rfl⟩
  | case12 isVariation parent node children siblings st tokens value pos hpos move hmove child read
      hended ih =>
      have hchildfen : child.fen = C.makeFen (C.toSetup (C.play pos move)) := rfl
      have hchild : Follows C node child :=
        ⟨⟨pos, move, hpos, rfl, parseSanOrUci_legal laws hmove, rfl, rfl⟩, rfl⟩
      have hnormal : normalizeFen child.fen = child.fen := by
        rw [hchildfen]
        exact normalizeFen_makeFen laws _
      have hat : ReadingAt C (some node) child [] [] := by
        refine ⟨?_, allFollow_nil _, fun _ _ ↦ allFollow_nil _⟩
        rw [List.forall_mem_cons]
        rw [Option.toList_some, List.forall_mem_singleton]
        exact ⟨hnormal, h.normal node List.mem_cons_self⟩
      have hread := ih hat
      refine ⟨SamePly.refl node, FollowsOn.of_allFollow (h.children.append ?_), h.siblings⟩
      rw [AllFollow, List.forall_mem_cons]
      exact ⟨⟨hchild.samePly (SamePly.refl node) hread.label, hread.below⟩,
        hread.siblings node rfl⟩
  | case2 _ _ _ _ _ _ _ _ _ ih => exact ih h
  | case6 _ _ _ _ _ _ _ _ ih => exact ih h
  | case7 _ _ _ _ _ _ _ _ _ ih => exact ih h
  | case9 _ _ _ _ _ _ _ _ _ _ ih => exact ih h
  | case10 _ _ _ _ _ _ _ _ _ _ ih => exact ih h
  | case11 _ _ _ _ _ _ _ _ _ _ _ _ ih => exact ih h
  | case13 _ _ _ _ _ _ _ _ _ ih => exact ih h
  | case14 _ _ _ _ _ _ _ _ _ _ ih => exact ih h

/-- The tree of a game has the positions and the ply counts of its moves. -/
theorem consistent_innerParsePGN (laws : C.FenLaws) (fen : Text) (tokens : List Token) :
    Consistent C (innerParsePGN C R ref fen tokens).1 := by
  have hroot : ReadingAt C none (rootData C ref fen) [] [] := by
    refine ⟨?_, allFollow_nil _, fun _ _ ↦ allFollow_nil _⟩
    rw [Option.toList_none, List.forall_mem_singleton, fen_rootData, PgnHeaders.normalizeFen_idem]
  have hread : (readTokens C R ref false none (rootData C ref fen) [] [] {} tokens).Follows C none
      (rootData C ref fen) := readTokens_follows laws hroot
  refine ⟨hread.below, ?_⟩
  calc (innerParsePGN C R ref fen tokens).1.label.halfMoves
      = rootHalfMoves C (normalizeFen fen) := hread.label.2.2.2
    _ = rootHalfMoves C (innerParsePGN C R ref fen tokens).1.label.fen :=
        congrArg _ hread.label.1.symm

end

end EnCroissant

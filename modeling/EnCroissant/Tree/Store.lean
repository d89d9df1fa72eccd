import EnCroissant.Library.Machine
import EnCroissant.Library.Relabelling
import EnCroissant.Practice.Opening
import EnCroissant.Tree.Navigation
import EnCroissant.Tree.Reading
import EnCroissant.Tree.Sequences

/-!
# The tree store

The store of one game holds its tree, its headers, the cursor and the path of the practice
drill.  Its actions load a game, edit it, annotate it and walk through it.
-/

namespace EnCroissant

open RoseTree
open PgnHeaders (Token JsonValue)
open Practice.Opening (ListNode treeIteratorFrom)

variable {ι : Type}

/-! ## Loading a game -/

/-- A start tag is kept when it names a node. -/
def parseStartHeader (start : Option (List ℕ)) (root : TreeNode ι) : List ℕ :=
  match start with
  | none => []
  | some path =>
      if PgnHeaders.maxStartPathLength < path.length then []
      else if (root.inRange path).length = path.length then path
      else []

/-- A result without a marked end marks the end of the main line, and the termination tag goes
to the marked end. -/
def applyGameEndLoadDefault (s : TreeState ι) : TreeState ι :=
  let endNode : Option (List ℕ × GameEnd) :=
    match effectiveGameEnd s.root with
    | some (depth, gameEnd) => some (List.replicate depth 0, gameEnd)
    | none =>
        if s.headers.result ≠ .unknown ∧ mainLineEnd s.root ≠ [] then
          some (mainLineEnd s.root, ⟨none⟩)
        else none
  match endNode with
  | none => s
  | some (path, gameEnd) =>
      match gameEnd.termination with
      | some _ => s
      | none =>
          { s with
            root := s.root.updateLabel
              ({ · with gameEnd := some ⟨s.headers.termination⟩ }) path
            headers := { s.headers with termination := none } }

section

variable (C : Chessops)

/-- A game without the losses of `parsePGNWithLossReport`, as the store takes it. -/
def loadGame (R : CommentReader) (parseJson : Text → Option JsonValue) (ref : ι)
    (initialFen : Text) (tokens : List Token) : TreeState ι :=
  let headers := PgnHeaders.getPgnHeaders parseJson tokens
  let fen := if initialFen.trim = [] then headers.fen.trim else initialFen.trim
  let root := (innerParsePGN C R ref fen tokens).1
  let start := parseStartHeader headers.start root
  applyGameEndLoadDefault
    { root := root
      headers :=
        { fen := root.label.fen
          result := headers.result
          start := some start
          termination := headers.other.get? "Termination" }
      position := start
      dirty := false
      practicePath := none }

/-- The ply counts of a tree that was stored. -/
def normalizeTreeHalfMoves (root : TreeNode ι) : TreeNode ι :=
  root.mapDepths
    (fun depth data ↦ { data with halfMoves := rootHalfMoves C root.label.fen + depth }) 0

def installRoot (s : TreeState ι) (root : TreeNode ι) : TreeState ι :=
  { s with
    root := root
    headers := { s.headers with start := none, fen := root.label.fen }
    practicePath := none
    position := [] }

end

/-! ## Annotations -/

/-- `ANNOTATION_INFO`: glyph, group and code. -/
def annotationInfo : List (String × Option String × ℕ) :=
  [("", none, 0), ("!!", some "basic", 3), ("!", some "basic", 1), ("!?", some "basic", 5),
    ("?!", some "basic", 6), ("?", some "basic", 2), ("??", some "basic", 4),
    ("+-", some "advantage", 18), ("±", some "advantage", 16), ("⩲", some "advantage", 14),
    ("=", some "advantage", 10), ("∞", some "advantage", 13), ("⩱", some "advantage", 15),
    ("∓", some "advantage", 17), ("-+", some "advantage", 19), ("N", none, 146),
    ("↑↑", none, 32), ("↑", none, 36), ("→", none, 40), ("⇆", none, 132), ("=∞", none, 44),
    ("⊕", none, 138), ("∆", none, 140), ("□", none, 7), ("⨀", none, 22), ("⊗", none, 9)]

def annotationGroup (glyph : String) : Option String := (annotationInfo.lookup glyph).bind Prod.fst

def annotationCode (glyph : String) : Option ℕ := (annotationInfo.lookup glyph).map Prod.snd

/-- Takes an annotation off, or puts it in the place of the others of its group. -/
def toggleAnnotation (glyph : String) (nags : List ℕ) : List ℕ :=
  if nags.any fun code ↦ nagGlyph code = some glyph then
    nags.filter fun code ↦ nagGlyph code ≠ some glyph
  else
    (nags.filter fun code ↦
      match nagGlyph code with
      | none => true
      | some other =>
          (annotationGroup other).isNone || annotationGroup other != annotationGroup glyph) ++
      (annotationCode glyph).toList

/-- Changes the node at the cursor. -/
def TreeState.annotate (s : TreeState ι) (f : NodeData ι → NodeData ι) : TreeState ι :=
  { s with root := s.root.updateLabel f s.position, dirty := true }

def clearGameEnds (root : TreeNode ι) : TreeNode ι :=
  root.mapDepths (fun _ data ↦ { data with gameEnd := none }) 0

def effectiveTermination (s : TreeState ι) : Option Text :=
  ((effectiveGameEnd s.root).bind fun found ↦ found.2.termination).or s.headers.termination

def setGameEnd (s : TreeState ι) (path : List ℕ) : TreeState ι :=
  if path = [] ∨ path.any (· ≠ 0) = true ∨ (s.root.inRange path).length ≠ path.length then s
  else
    { s with
      root := (clearGameEnds s.root).updateLabel
        ({ · with gameEnd := some ⟨effectiveTermination s⟩ }) path
      dirty := true }

def clearGameEnd (s : TreeState ι) : TreeState ι :=
  { s with root := clearGameEnds s.root, dirty := true }

def setTermination (s : TreeState ι) (text : Text) : TreeState ι :=
  if pgnTextMax < text.utf16Length then s
  else
    match effectiveGameEnd s.root with
    | none => s
    | some (depth, _) =>
        { s with
          root := s.root.updateLabel
            ({ · with gameEnd := some ⟨if text = [] then none else some text⟩ })
            (List.replicate depth 0)
          headers := { s.headers with termination := none }
          dirty := true }

def clearShapes (s : TreeState ι) : TreeState ι :=
  if (getNodeAtPath s.root s.position).label.shapes = [] then s
  else s.annotate ({ · with shapes := [] })

/-! ## Walking -/

section

variable (C : Chessops)

/-- The continuation of the cursor, or that of a node with the same board state. -/
def nextContinuation (s : TreeState ι) : Option (ListNode ι) :=
  let node := getNodeAtPath s.root s.position
  if node.children ≠ [] then some (s.position, node)
  else if s.practicePath.isSome then none
  else
    let start := s.headers.start.getD []
    (treeIteratorFrom [(start, getNodeAtPath s.root start)]).find? fun entry ↦
      getBoardState C entry.2.label.fen == getBoardState C node.label.fen &&
        (entry.1 != s.root.inRange s.position && !entry.2.children.isEmpty)

def stepIntoChild (s : TreeState ι) (path : List ℕ) (children : List (TreeNode ι)) (index : ℕ) :
    TreeState ι :=
  match children[index]? with
  | none => s
  | some child =>
      if child.label.move.isSome && child.label.san.any (· ≠ []) then
        { s with position := path ++ [index] }
      else s

def goToNext (s : TreeState ι) : TreeState ι :=
  match s.practicePath with
  | none =>
      match nextContinuation C s with
      | none => s
      | some c => stepIntoChild s c.1 c.2.children 0
  | some practicePath =>
      if isPrefix s.position practicePath = false then s
      else
        match practicePath[s.position.length]? with
        | none => s
        | some index =>
            match nextContinuation C s with
            | none => s
            | some c => stepIntoChild s c.1 c.2.children index

def goToContinuation (s : TreeState ι) (index : ℕ) : TreeState ι :=
  if s.practicePath.isSome then s
  else
    match nextContinuation C s with
    | none => s
    | some c => stepIntoChild s c.1 c.2.children index

end

def goToBranchStart (s : TreeState ι) : TreeState ι :=
  let position := if s.position.getLast?.any (· ≠ 0) then s.position.dropLast else s.position
  { s with position := position.rdropWhile (· == 0) }

/-- The sibling that a turn from `branchIndex` among `count` siblings leads to. -/
inductive Turn where
  | next
  | previous
  deriving DecidableEq, Repr

def Turn.index (turn : Turn) (branchIndex count : ℕ) : ℕ :=
  match turn with
  | next => (branchIndex + 1) % count
  | previous => (branchIndex + count - 1) % count

/-- `nextBranch` and `previousBranch`. -/
def turnBranch (turn : Turn) (s : TreeState ι) : TreeState ι :=
  let parent := getNodeAtPath s.root s.position.dropLast
  match s.position.getLast? with
  | none => s
  | some branchIndex =>
      match parent.children[branchIndex]? with
      | none => s
      | some child =>
          if 2 ≤ child.children.length ∧ parent.children.length ≤ 1 then
            { s with position := s.position ++ [turn.index 0 child.children.length] }
          else
            { s with
              position := s.position.dropLast ++
                [turn.index branchIndex parent.children.length] }

/-- The way to the next node that has not one child, along the line. -/
def branchingBelow : TreeNode ι → List ℕ
  | .node _ [] => []
  | .node _ (c :: _) => 0 :: if c.children.length = 1 then branchingBelow c else []

def nextBranching (s : TreeState ι) : TreeState ι :=
  { s with position := s.position ++ branchingBelow (getNodeAtPath s.root s.position) }

def branchingAbove (root : TreeNode ι) (position : List ℕ) : List ℕ :=
  if _h : (getNodeAtPath root position.dropLast).children.length = 1 ∧ position.dropLast ≠ [] then
    branchingAbove root position.dropLast
  else position.dropLast
termination_by position.length
decreasing_by
  have hlength := List.length_pos_of_ne_nil _h.2
  rw [List.length_dropLast] at hlength ⊢
  omega

def previousBranching (s : TreeState ι) : TreeState ι :=
  if s.position = [] then s else { s with position := branchingAbove s.root s.position }

/-- The actions that move the cursor. -/
inductive WalkAction where
  | goToNext
  | goToContinuation (index : ℕ)
  | goToPrevious
  | goToStart
  | goToEnd
  | goToMove (path : List ℕ)
  | goToBranchStart
  | goToBranchEnd
  | goToBranchEndOrNextLine
  | turnBranch (turn : Turn)
  | nextBranching
  | previousBranching
  | goToAnnotation ( annotation : String) (color : Color)

def WalkAction.apply (C : Chessops) (s : TreeState ι) : WalkAction → TreeState ι
  | goToNext => EnCroissant.goToNext C s
  | goToContinuation index => EnCroissant.goToContinuation C s index
  | goToPrevious => { s with position := s.position.dropLast }
  | goToStart => { s with position := s.headers.start.getD [] }
  | goToEnd => { s with position := mainLineEnd s.root }
  | goToMove path => { s with position := path }
  | goToBranchStart => EnCroissant.goToBranchStart s
  | goToBranchEnd => EnCroissant.goToBranchEnd s
  | goToBranchEndOrNextLine => EnCroissant.goToBranchEndOrNextLine s
  | turnBranch turn => EnCroissant.turnBranch turn s
  | nextBranching => EnCroissant.nextBranching s
  | previousBranching => EnCroissant.previousBranching s
  | goToAnnotation glyph color => EnCroissant.goToAnnotation s glyph color

/-! ## Editing -/

/-- A move as text or as the rules library has it. -/
inductive MovePayload where
  | san (text : Text)
  | move (move : BoardMove)

/-- The actions that change the tree or its headers. -/
inductive EditAction where
  | makeMove (payload : MovePayload) (changePosition mainline changeHeaders : Bool)
      (clock : Option ℚ)
  | appendMove (move : BoardMove) (clock : Option ℚ)
  | makeMoves (args : SequenceArgs)
  | deleteMove (path : Option (List ℕ))
  | promoteVariation (path : List ℕ)
  | promoteToMainline (path : List ℕ)
  | setStart (start : List ℕ)
  | setPracticePath (path : Option (List ℕ))
  | setAnnotation (glyph : String)
  | setComment (text : Text)
  | setGameEnd (path : List ℕ)
  | clearGameEnd
  | setTermination (text : Text)
  | setHeaders (headers : GameHeaders)
  | setResult (result : Outcome)
  | setShapes (shapes : List DrawShape)
  | setScore (score : Score)
  | clearShapes
  | setFen (fen : Text)
  | addAnalysis (analysis : List (MoveAnalysis BestMoves)) (showVariations : Bool)

/-- The parts of the environment: the comment parser, `JSON.parse`, the evaluation of moves and
a supply of node identities. -/
structure StoreEnv (ι : Type) where
  reader : CommentReader
  parseJson : Text → Option JsonValue
  getAnnotation : GetAnnotation
  fresh : ℕ → ℕ → ι

section

variable (C : Chessops) (env : StoreEnv ι)

/-- The move a text stands for at the cursor. -/
def payloadMove (s : TreeState ι) : MovePayload → Option BoardMove
  | .move move => some move
  | .san text =>
      (positionFromFen C (getNodeAtPath s.root s.position).label.fen).bind fun pos ↦
        C.parseSan pos text

/-- An edit; none where a promotion finds no node at its path. -/
def EditAction.apply (s : TreeState ι) : EditAction → Option (TreeState ι)
  | makeMove payload changePosition mainline changeHeaders clock =>
      match payloadMove C s payload with
      | none => some s
      | some move =>
          some (EnCroissant.makeMove C (env.fresh 0 0) s
            ⟨move, false, changePosition, changeHeaders, mainline, clock⟩)
  | appendMove move clock =>
      some (EnCroissant.makeMove C (env.fresh 0 0) s ⟨move, true, true, true, false, clock⟩)
  | makeMoves args => some (EnCroissant.makeMoves C (env.fresh 0) s args).1
  | deleteMove path =>
      some (EnCroissant.deleteMove { s with dirty := true } (path.getD s.position))
  | promoteVariation path =>
      (EnCroissant.promoteVariation { s with dirty := true } path).map Prod.fst
  | promoteToMainline path => EnCroissant.promoteToMainline s path
  | setStart start =>
      some { s with headers := { s.headers with start := some start }, dirty := true }
  | setPracticePath path => some { s with practicePath := path }
  | setAnnotation glyph =>
      some (s.annotate fun data ↦ { data with nags := toggleAnnotation glyph data.nags })
  | setComment text => some (s.annotate ({ · with comment := text }))
  | setGameEnd path => some (EnCroissant.setGameEnd s path)
  | clearGameEnd => some (EnCroissant.clearGameEnd s)
  | setTermination text => some (EnCroissant.setTermination s text)
  | setHeaders headers =>
      let s := { s with headers := headers, dirty := true }
      if headers.fen ≠ [] ∧ headers.fen ≠ s.root.label.fen then
        some (installRoot s (defaultTree C (env.fresh 0 0) headers.fen).root)
      else some s
  | setResult result =>
      some { s with headers := { s.headers with result := result }, dirty := true }
  | setShapes shapes => some (s.annotate ({ · with shapes := shapes }))
  | setScore score => some (s.annotate ({ · with score := some score, depth := none }))
  | clearShapes => some (EnCroissant.clearShapes s)
  | setFen fen =>
      some (installRoot { s with dirty := true } (defaultTree C (env.fresh 0 0) fen).root)
  | addAnalysis analysis showVariations =>
      some { s with
        root := EnCroissant.addAnalysis C env.getAnnotation analysis showVariations env.fresh
          s.root
        dirty := true }

/-- Everything that happens to a store. -/
inductive StoreAction where
  | load (initialFen : Text) (tokens : List Token)
  | reset
  | rehydrate
  | edit (edit : EditAction)
  | walk (walk : WalkAction)

def StoreAction.apply (s : TreeState ι) : StoreAction → Option (TreeState ι)
  | load initialFen tokens =>
      some (loadGame C env.reader env.parseJson (env.fresh 0 0) initialFen tokens)
  | reset => some (defaultTree C (env.fresh 0 0) [])
  | rehydrate => some { s with root := normalizeTreeHalfMoves C s.root }
  | edit action => action.apply C env s
  | walk action => some (action.apply C s)

/-- What the callers promise: paths they pass name nodes of the tree they see, and the lines of
a report are legal. -/
def StoreAction.Promised (s : TreeState ι) : StoreAction → Prop
  | edit (.promoteVariation path) => (s.root.nodeAt path).isSome
  | edit (.promoteToMainline path) => (s.root.nodeAt path).isSome
  | edit (.setStart path) => (s.root.nodeAt path).isSome
  | edit (.setPracticePath path) => ∀ p ∈ path, (s.root.nodeAt p).isSome
  | edit (.setHeaders headers) => headers.fen = [] ∨ headers.fen = s.root.label.fen →
      ∀ p ∈ headers.start, (s.root.nodeAt p).isSome
  | edit (.addAnalysis analysis _) => LegalReport C analysis 0 s.root
  | walk (.goToMove path) => (s.root.nodeAt path).isSome
  | _ => True

end

/-- A store from its default tree on. -/
def storeMachine (ι : Type) (C : Chessops) : Machine (TreeState ι) (StoreAction) where
  init s := ∃ ref fen, s = defaultTree C ref fen
  step s a s' := ∃ env : StoreEnv ι, a.apply C env s = some s'

end EnCroissant

import EnCroissant.Report.Positions
import EnCroissant.Tree.Node

/-!
# The annotations of a report

The analyses of a report written into a game tree: scores, depths, annotations and
the novelty go to the nodes of the main line, and the engine's line goes beside a
bad move.  The evaluation of a move, which rests on winning chances, is a parameter.
-/

namespace EnCroissant

/-- A line of the engine. It has at least one move. -/
structure BestMoves where
  depth : ℕ
  score : Score
  uciMoves : List Text
  sanMoves : List Text
  hasMove : uciMoves ≠ []
  deriving DecidableEq

/-- The annotations that an evaluation yields. -/
inductive Annotation where
  | brilliant
  | good
  | interesting
  | dubious
  | mistake
  | blunder
  deriving DecidableEq, Repr

namespace Annotation

def nag : Annotation → ℕ
  | brilliant => 3
  | good => 1
  | interesting => 5
  | dubious => 6
  | mistake => 2
  | blunder => 4

def isBad : Annotation → Bool
  | dubious => true
  | mistake => true
  | blunder => true
  | _ => false

end Annotation

def noveltyNag : ℕ := 146

abbrev ScoreValue := ScoreKind × ℚ

def Score.scoreValue (score : Score) : ScoreValue := (score.kind, score.value)

/-- `getAnnotation`, of the two scores before a move, the one after it, the side that moved,
the lines before the move, its sacrifice flag and its notation. -/
abbrev GetAnnotation :=
  Option ScoreValue → Option ScoreValue → ScoreValue → Color → List BestMoves → Bool → Text →
    Option Annotation

def maxGeneratedAnalysisVariationPlies : ℕ := 10

def addNag (nag : ℕ) (nags : List ℕ) : List ℕ :=
  if nag ∈ nags then nags else nags ++ [nag]

section

variable {ι : Type} (C : Chessops) ( getAnnotation : GetAnnotation)
  (analysis : List (MoveAnalysis BestMoves))

/-- The node has a position in which the game goes on. -/
def isRunning (fen : Text) : Bool := (positionFromFen C fen).any fun pos ↦ !C.isEnd pos

/-- The first line of the analysis so many plies before the ply `i`. -/
def earlierLine (i back : ℕ) : Option BestMoves :=
  if back ≤ i then analysis[i - back]?.bind fun earlier ↦ earlier.best.head? else none

def annotationAt (i : ℕ) (data : NodeData ι) (current : MoveAnalysis BestMoves)
    (line : BestMoves) : Option Annotation :=
  getAnnotation ((earlierLine analysis i 2).map fun line ↦ line.score.scoreValue)
    ((earlierLine analysis i 1).map fun line ↦ line.score.scoreValue)
    line.score.scoreValue (if Int.tmod data.halfMoves 2 = 1 then .white else .black)
    (if 1 ≤ i then analysis[i - 1]?.elim [] (·.best) else []) current.isSacrifice
    (data.san.getD [])

/-- The data of the main-line node after `i` moves, once the analysis is added. -/
def annotate (i : ℕ) (data : NodeData ι) : NodeData ι :=
  match analysis[i]? with
  | none => data
  | some current =>
      match current.best with
      | [] => data
      | line :: _ =>
          if isRunning C data.fen then
            let nags := (annotationAt getAnnotation analysis i data current line).elim data.nags
              fun annotation ↦ addNag annotation.nag data.nags
            { data with
              score := some line.score
              depth := some line.depth
              nags := if current.novelty then addNag noveltyNag nags else nags }
          else data

/-- The moves of a generated variation after its first one. -/
def variationTail (fresh : ℕ → ι) : ℕ → C.Chess → ℤ → List Text → List (TreeNode ι)
  | _, _, _, [] => []
  | j, pos, halfMoves, uci :: rest =>
      match C.parseUci uci with
      | none => variationTail fresh (j + 1) pos halfMoves rest
      | some parsed =>
          let move := C.normalizeMove pos parsed
          let after := C.play pos move
          let node := createNode (fresh j) (C.makeFen (C.toSetup after)) move (C.makeSan pos move)
            (halfMoves + 1) none
          [.node node.label (variationTail fresh (j + 1) after (halfMoves + 1) rest)]

def isSameNormalMove : BoardMove → BoardMove → Bool
  | .normal source target promotion, .normal source' target' promotion' =>
      source = source' && target = target' && promotion = promotion'
  | _, _ => false

/-- The engine's line from a position, unless its first move is there already. -/
def bestVariation (fresh : ℕ → ι) (parent : NodeData ι) (children : List (TreeNode ι))
    (line : BestMoves) : List (TreeNode ι) :=
  match positionFromFen C parent.fen, C.parseUci (line.uciMoves.head line.hasMove) with
  | some parentPos, some parsed =>
      let bestMove := C.normalizeMove parentPos parsed
      let exists' := children.any fun child ↦ child.label.move.any fun move ↦
        isSameNormalMove (C.normalizeMove parentPos move) bestMove
      if exists' then []
      else
        let after := C.play parentPos bestMove
        let node := createNode (fresh 0) (C.makeFen (C.toSetup after)) bestMove
          (C.makeSan parentPos bestMove) (parent.halfMoves + 1) none
        [.node node.label (variationTail C fresh 1 after (parent.halfMoves + 1)
          ((line.uciMoves.take maxGeneratedAnalysisVariationPlies).drop 1))]
  | _, _ => []

/-- What the move after `i` moves adds beside itself: the engine's line, if the move was bad. -/
def addedVariations (showVariations : Bool) (fresh : ℕ → ℕ → ι) (i : ℕ) (parent : NodeData ι)
    (children : List (TreeNode ι)) (child : NodeData ι) : List (TreeNode ι) :=
  match analysis[i]? with
  | none => []
  | some current =>
      match current.best, earlierLine analysis i 1 with
      | line :: _, some lead =>
          if isRunning C child.fen && showVariations &&
              (annotationAt getAnnotation analysis i child current line).any (·.isBad) then
            bestVariation C (fresh i) parent children lead
          else []
      | _, _ => []

/-- `addAnalysis` from the node after `i` moves on. -/
def addAnalysisFrom (showVariations : Bool) (fresh : ℕ → ℕ → ι) : ℕ → TreeNode ι → TreeNode ι
  | i, .node data [] => .node (annotate C getAnnotation analysis i data) []
  | i, .node data (child :: rest) =>
      if i < analysis.length then
        let data' := annotate C getAnnotation analysis i data
        .node data'
          (addAnalysisFrom showVariations fresh (i + 1) child :: rest ++
            addedVariations C getAnnotation analysis showVariations fresh (i + 1) data'
              (child :: rest) child.label)
      else .node data (child :: rest)

def addAnalysis (showVariations : Bool) (fresh : ℕ → ℕ → ι) (root : TreeNode ι) : TreeNode ι :=
  addAnalysisFrom C getAnnotation analysis showVariations fresh 0 root

end

/-! ## Where the analyses go -/

section

variable {ι : Type} {C : Chessops} { getAnnotation : GetAnnotation}
  {analysis : List (MoveAnalysis BestMoves)} {showVariations : Bool} {fresh : ℕ → ℕ → ι}

theorem annotate_of_length_le {i : ℕ} (hi : analysis.length ≤ i) (data : NodeData ι) :
    annotate C getAnnotation analysis i data = data := by
  rw [annotate, List.getElem?_eq_none hi]

theorem mem_addNag (nag : ℕ) (nags : List ℕ) : nag ∈ addNag nag nags := by
  rw [addNag]
  split_ifs with h
  · exact h
  · exact List.mem_append_right _ (List.mem_singleton_self _)

/-- The analysis of a running position with a line shows in the data of its node. -/
theorem annotate_of_running {i : ℕ} {data : NodeData ι} {current : MoveAnalysis BestMoves}
    {line : BestMoves} {others : List BestMoves} (hcurrent : analysis[i]? = some current)
    (hbest : current.best = line :: others) (hrunning : isRunning C data.fen = true) :
    (annotate C getAnnotation analysis i data).score = some line.score ∧
      (annotate C getAnnotation analysis i data).depth = some line.depth ∧
        (current.novelty = true →
          noveltyNag ∈ (annotate C getAnnotation analysis i data).nags) := by
  rw [annotate, hcurrent]
  simp only [hbest, hrunning, if_true]
  refine ⟨trivial, trivial, fun hnovelty ↦ ?_⟩
  rw [if_pos hnovelty]
  exact mem_addNag _ _

theorem labelAt_cons {α : Type} (t : RoseTree α) (i : ℕ) (path : List ℕ) :
    t.labelAt (i :: path) = t.children[i]?.bind fun c ↦ c.labelAt path := by
  rw [RoseTree.labelAt, RoseTree.nodeAt_cons, Option.map_bind]
  rfl

theorem addAnalysisFrom_of_length_le {n : ℕ} (hn : analysis.length ≤ n) (t : TreeNode ι) :
    addAnalysisFrom C getAnnotation analysis showVariations fresh n t = t := by
  cases t with
  | node data children =>
      cases children with
      | nil => rw [addAnalysisFrom, annotate_of_length_le hn]
      | cons child rest => rw [addAnalysisFrom, if_neg (not_lt.mpr hn)]

/-- The main-line node after `i` moves gets the analysis of its ply. -/
theorem labelAt_addAnalysisFrom {i : ℕ} :
    ∀ {n : ℕ} {t : TreeNode ι} {data : NodeData ι}, t.labelAt (List.replicate i 0) = some data →
      (addAnalysisFrom C getAnnotation analysis showVariations fresh n t).labelAt
        (List.replicate i 0) = some (annotate C getAnnotation analysis (n + i) data) := by
  induction i with
  | zero =>
      intro n t data h
      cases t with
      | node label children =>
          cases h
          cases children with
          | nil => rfl
          | cons child rest =>
              rw [addAnalysisFrom]
              split_ifs with hn
              · rfl
              · rw [Nat.add_zero, annotate_of_length_le (not_lt.mp hn)]
                rfl
  | succ i ih =>
      intro n t data h
      cases t with
      | node label children =>
          rw [List.replicate_succ, labelAt_cons] at h ⊢
          cases children with
          | nil => cases h
          | cons child rest =>
              rw [addAnalysisFrom]
              split_ifs with hn
              · rw [Nat.add_comm i 1, ← Nat.add_assoc]
                exact ih h
              · rw [annotate_of_length_le ((not_lt.mp hn).trans (Nat.le_add_right _ _))]
                exact h

/-- Off the main line no node changes. -/
theorem labelAt_addAnalysisFrom_off {path : List ℕ} (hpath : ∃ j ∈ path, j ≠ 0) :
    ∀ {n : ℕ} {t : TreeNode ι} {data : NodeData ι}, t.labelAt path = some data →
      (addAnalysisFrom C getAnnotation analysis showVariations fresh n t).labelAt path =
        some data := by
  induction path with
  | nil =>
      obtain ⟨j, hj, -⟩ := hpath
      cases hj
  | cons j path ih =>
      intro n t data h
      cases t with
      | node label children =>
          cases children with
          | nil =>
              rw [labelAt_cons] at h
              cases h
          | cons child rest =>
              rw [addAnalysisFrom]
              split_ifs with hn
              · rw [labelAt_cons] at h ⊢
                cases j with
                | zero =>
                    refine ih ?_ h
                    obtain ⟨k, hk, hne⟩ := hpath
                    rcases List.mem_cons.mp hk with rfl | hk
                    · exact absurd rfl hne
                    · exact ⟨k, hk, hne⟩
                | succ j =>
                    obtain ⟨c, hc, hlabel⟩ := Option.bind_eq_some_iff.mp h
                    refine Option.bind_eq_some_iff.mpr ⟨c, ?_, hlabel⟩
                    exact List.getElem?_append_left (List.getElem?_eq_some_iff.mp hc).1 ▸ hc
              · exact h

end

namespace LoneQueen

inductive Position where
  | start
  | bareKings
  deriving DecidableEq, Repr

def startBoard : Board := fun s ↦
  if s = Square.fromCoords 7 0 then some ⟨.white, .king⟩
  else if s = Square.fromCoords 6 1 then some ⟨.black, .queen⟩
  else if s = Square.fromCoords 0 7 then some ⟨.black, .king⟩
  else none

def takes : Move :=
  .normal .king (Square.fromCoords 7 0) (some .queen) (Square.fromCoords 6 1) none

def board : Position → Board
  | .start => startBoard
  | .bareKings => startBoard.playMove .white takes

def turn : Position → Color
  | .start => .white
  | .bareKings => .black

def fen : Position → String
  | .start => "k7/8/8/8/8/8/6q1/7K w - - 0 1"
  | .bareKings => "k7/8/8/8/8/8/6K1/8 b - - 0 1"

def legalMoves : Position → List Move
  | .start => [takes]
  | .bareKings => []

def parse (bytes : List UInt8) : Except String Position :=
  if bytes = utf8Bytes (fen .start) then .ok .start
  else if bytes = utf8Bytes (fen .bareKings) then .ok .bareKings
  else .error "invalid fen"

abbrev rules : ReportRules where
  Chess := Position
  Setup := Position
  San := Unit
  CastlingMode := Unit
  PositionError := Unit
  default := .start
  board := board
  turn := turn
  castlingRights := fun _ ↦ 0
  epSquare := fun _ ↦ none
  legalMoves := legalMoves
  playUnchecked := fun p m ↦ if p = .start ∧ m = takes then .bareKings else p
  toMove := fun _ _ ↦ none
  sanFromMove := fun _ _ ↦ ()
  sanToString := fun _ ↦ "Kxg2"
  setupBoard := board
  fenFromAscii := parse
  detectCastlingMode := fun _ ↦ ()
  fromSetup := fun p _ ↦ .ok p
  ignoreTooMuchMaterial := .error
  ignoreInvalidCastlingRights := .error
  positionErrorToString := fun _ ↦ "illegal position"
  UciMove := Unit
  uciFromAscii := fun bytes ↦
    if bytes = utf8Bytes "h1g2" then .ok () else .error "invalid uci"
  uciToMove := fun _ p ↦ if p = .start then .ok takes else .error "illegal uci move"
  sanPlus := fun _ _ ↦ "Kxg2"
  fen := fen
  halfmoves := fun _ ↦ 0
  isCheckmate := fun _ ↦ false
  isStalemate := fun _ ↦ false
  isInsufficientMaterial := fun p ↦ (board p).isInsufficientMaterial
  hasInsufficientMaterial := fun p color ↦ (board p).hasInsufficientMaterial color
  isGameOver := fun p ↦ p = .bareKings
  setupFen := fen

theorem eq_start_of_mem {p : Position} {m : Move} (h : m ∈ legalMoves p) :
    p = .start ∧ m = takes := by
  cases p with
  | start => exact ⟨rfl, List.mem_singleton.mp h⟩
  | bareKings => cases h

theorem rules_laws : rules.Laws where
  rules :=
    { board_play := fun p m hm ↦ by
        obtain ⟨rfl, rfl⟩ := eq_start_of_mem hm
        rfl
      legal_fits := fun p m hm ↦ by
        obtain ⟨rfl, rfl⟩ := eq_start_of_mem hm
        exact ⟨rfl, by decide, fun h ↦ absurd h (by decide)⟩
      pawns_off_backranks := by
        have hall : ∀ (p : Position) (c : Color) (s : Square), board p s ≠ some ⟨c, .pawn⟩ := by
          intro p c
          cases p <;> cases c <;> decide
        exact fun p s c h ↦ absurd h (hall p c s) }
  material :=
    { kings := fun p color ↦ by
        cases p <;> cases color
        · exact ⟨Square.fromCoords 7 0, rfl⟩
        · exact ⟨Square.fromCoords 0 7, rfl⟩
        · exact ⟨Square.fromCoords 6 1, rfl⟩
        · exact ⟨Square.fromCoords 0 7, rfl⟩
      promotes := fun p role source capture target promotion h ↦ by
        cases (eq_start_of_mem h).2
      castles := fun p king rook h ↦ by
        cases (eq_start_of_mem h).2
      bishops := fun p source capture target promotion h ↦ by
        cases (eq_start_of_mem h).2 }
  gameOver_iff := fun p ↦ by
    cases p <;> decide +kernel
  insufficient := fun p ↦ rfl
  legal := fun uci p m h ↦ by
    cases p with
    | start =>
        cases h
        exact List.mem_singleton_self _
    | bareKings => cases h

/-- The rules library of the renderer on the two positions. -/
abbrev chessops : Chessops where
  Chess := Position
  Setup := Position
  parseFen := fun text ↦
    if text = (fen .start).toList then some .start
    else if text = (fen .bareKings).toList then some .bareKings
    else none
  makeFen := fun p ↦ (fen p).toList
  fullmoves := fun _ ↦ 1
  setupTurn := turn
  epSquare := fun _ ↦ none
  makeCastlingFen := fun _ ↦ ['-']
  fromSetup := some
  toSetup := id
  turn := turn
  isLegal := fun p move ↦ p = .start ∧
    move = .normal (Square.fromCoords 7 0) (Square.fromCoords 6 1) none
  play := fun p _ ↦ if p = .start then .bareKings else p
  isEnd := fun p ↦ p = .bareKings
  isCheckmate := fun _ ↦ false
  isStalemate := fun _ ↦ false
  isInsufficientMaterial := fun p ↦ p = .bareKings
  makeSan := fun _ _ ↦ "Kxg2".toList
  parseSan := fun _ _ ↦ none
  parseUci := fun _ ↦ none
  normalizeMove := fun _ move ↦ move

def line : BestMoves := ⟨10, ⟨.cp, 0, none⟩, ["h1g2".toList], ["Kxg2".toList], by decide⟩

/-- An engine that answers the same line everywhere. -/
def analyse : ℕ → List String → Except Error (List BestMoves) := fun _ _ ↦ .ok [line]

def options (p : Position) (moves : List String) : AnalysisOptions :=
  ⟨fen p, moves, false, none, true⟩

def tree (p : Position) : TreeNode ℕ := .node (rootData chessops 0 (fen p).toList) []

def report : MoveAnalysis BestMoves := ⟨[line], false, false⟩

theorem analyzeGame_start :
    analyzeGame rules analyse (options .start ["h1g2"]) = .ok [report] := by
  rfl

end LoneQueen

end EnCroissant

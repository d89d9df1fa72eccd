import EnCroissant.Chess.Rules
import EnCroissant.Library.RoseTree

/-!
# Game trees

The tree of moves of one game, the state of the store that holds it, and the
functions that build its nodes.  The TypeScript rules library is a parameter:
`Chessops` collects the operations the program calls.
-/

namespace EnCroissant

/-- Text as the renderer handles it. -/
abbrev Text := List Char

namespace Text

/-- The characters `\s` matches and `trim` removes. -/
def isSpace (c : Char) : Bool :=
  (9 ≤ c.val && c.val ≤ 13) || c.val == 32 || c.val == 0xA0 || c.val == 0x1680 ||
    (0x2000 ≤ c.val && c.val ≤ 0x200A) || c.val == 0x2028 || c.val == 0x2029 ||
    c.val == 0x202F || c.val == 0x205F || c.val == 0x3000 || c.val == 0xFEFF

def trim (s : Text) : Text :=
  (s.dropWhile isSpace).rdropWhile isSpace

theorem trim_trim (text : Text) : text.trim.trim = text.trim := by
  have hdrop : text.trim.dropWhile isSpace = text.trim := by
    have hprefix : text.trim <+: text.dropWhile isSpace := List.rdropWhile_prefix _ _
    cases htrim : text.trim with
    | nil => rfl
    | cons c rest =>
        rw [htrim] at hprefix
        obtain ⟨after, hafter⟩ := hprefix
        have hc : isSpace c = false := by
          have hhead := List.head?_dropWhile_not isSpace text
          rw [← hafter] at hhead
          exact hhead
        exact List.dropWhile_cons_of_neg (by rw [hc]; decide)
  rw [trim, hdrop, trim, List.rdropWhile_idempotent]

theorem trim_of_ends {c d : Char} (middle : Text) (hc : isSpace c = false)
    (hd : isSpace d = false) :
    trim (c :: (middle ++ [d])) = c :: (middle ++ [d]) := by
  rw [trim, List.dropWhile_cons_of_neg (by simp [hc]), List.rdropWhile_eq_self_iff]
  intro hne
  rw [List.getLast_cons (by simp), List.getLast_append_singleton]
  simp [hd]

theorem isSpace_of_ascii {c : Char} (h : 32 < c.toNat) (h' : c.toNat < 127) :
    isSpace c = false := by
  have hval : c.val.toNat = c.toNat := rfl
  rw [← hval] at h h'
  simp only [isSpace, Bool.or_eq_false_iff, Bool.and_eq_false_iff, decide_eq_false_iff_not,
    UInt32.le_iff_toNat_le, beq_eq_false_iff_ne, ne_eq, ← UInt32.toNat_inj, UInt32.reduceToNat]
  omega

theorem trim_of_forall {text : Text} (h : ∀ c ∈ text, isSpace c = false) : text.trim = text := by
  have hspace : ∀ c ∈ text, ¬isSpace c = true := fun c hc ↦ by rw [h c hc]; decide
  have hdrop : text.dropWhile isSpace = text :=
    List.dropWhile_eq_self_iff.mpr fun hlength ↦ hspace _ (List.getElem_mem hlength)
  rw [trim, hdrop, List.rdropWhile_eq_self_iff]
  exact fun hne ↦ hspace _ (List.getLast_mem hne)

def digitsValue (digits : Text) : ℕ :=
  digits.foldl (fun n c ↦ 10 * n + (c.val.toNat - 48)) 0

/-- The longest run of leading digits, as `Number.parseInt` reads it. -/
def parseDigits (s : Text) : Option ℤ :=
  match s.takeWhile Char.isDigit with
  | [] => none
  | digits => some (digitsValue digits)

def parseInt (s : Text) : Option ℤ :=
  match s with
  | '-' :: digits => (parseDigits digits).map Neg.neg
  | '+' :: digits => parseDigits digits
  | digits => parseDigits digits

end Text

/-- A move as the rules library represents it. -/
inductive BoardMove where
  | normal (source target : Square) (promotion : Option Role)
  | drop (role : Role) (target : Square)
  deriving DecidableEq, Repr

/-- The operations of the rules library of the renderer. -/
structure Chessops where
  Chess : Type
  Setup : Type
  parseFen : Text → Option Setup
  makeFen : Setup → Text
  fullmoves : Setup → ℕ
  setupTurn : Setup → Color
  epSquare : Setup → Option Square
  makeCastlingFen : Setup → Text
  fromSetup : Setup → Option Chess
  toSetup : Chess → Setup
  turn : Chess → Color
  isLegal : Chess → BoardMove → Bool
  play : Chess → BoardMove → Chess
  isEnd : Chess → Bool
  isCheckmate : Chess → Bool
  isStalemate : Chess → Bool
  isInsufficientMaterial : Chess → Bool
  makeSan : Chess → BoardMove → Text
  parseSan : Chess → Text → Option BoardMove
  parseUci : Text → Option BoardMove
  normalizeMove : Chess → BoardMove → BoardMove

inductive Outcome where
  | whiteWins
  | blackWins
  | draw
  | unknown
  deriving DecidableEq, Repr

inductive ScoreKind where
  | cp
  | mate
  | dtz
  deriving DecidableEq, Repr

structure Score where
  kind : ScoreKind
  value : ℚ
  wdl : Option (ℕ × ℕ × ℕ)
  deriving DecidableEq

/-- A drawing on the board: an arrow, or a square marking when there is no
destination or it is the origin. -/
structure DrawShape where
  orig : Square
  dest : Option Square
  brush : Option Text
  deriving DecidableEq

structure GameEnd where
  termination : Option Text
  deriving DecidableEq

/-- The fields of a tree node other than its children.  `ref` stands for the
identity of the node object, which only reference comparisons read. -/
structure NodeData (ι : Type) where
  ref : ι
  fen : Text
  move : Option BoardMove
  san : Option Text
  score : Option Score
  depth : Option ℕ
  halfMoves : ℤ
  shapes : List DrawShape
  nags : List ℕ
  comment : Text
  commands : Option Text
  startingComment : Option Text
  clock : Option ℚ
  gameEnd : Option GameEnd
  deriving DecidableEq

abbrev TreeNode (ι : Type) := RoseTree (NodeData ι)

structure GameHeaders where
  fen : Text
  result : Outcome
  start : Option (List ℕ)
  termination : Option Text
  deriving DecidableEq

structure TreeState (ι : Type) where
  root : TreeNode ι
  headers : GameHeaders
  position : List ℕ
  dirty : Bool
  practicePath : Option (List ℕ)

variable {ι : Type} (C : Chessops)

def positionFromFen (fen : Text) : Option C.Chess :=
  (C.parseFen fen).bind C.fromSetup

def parseSanOrUci (pos : C.Chess) (sanOrUci : Text) : Option BoardMove :=
  match C.parseSan pos sanOrUci with
  | some move => some move
  | none =>
      match C.parseUci sanOrUci with
      | some move => if C.isLegal pos move then some move else none
      | none => none

def initialFen : Text :=
  "rnbqkbnr/pppppppp/8/8/8/8/PPPPPPPP/RNBQKBNR w KQkq - 0 1".toList

def normalizeFen (fen : Text) : Text :=
  match fen.trim with
  | [] => initialFen
  | trimmed => trimmed

/-- The ply a root stands at, counted from the first move of the game. -/
def rootHalfMoves (fen : Text) : ℤ :=
  match C.parseFen fen with
  | some setup =>
      ((C.fullmoves setup : ℤ) - 1) * 2 + if C.setupTurn setup = .black then 1 else 0
  | none => 0

def rootData (ref : ι) (fen : Text) : NodeData ι where
  ref := ref
  fen := normalizeFen fen
  move := none
  san := none
  score := none
  depth := none
  halfMoves := rootHalfMoves C (normalizeFen fen)
  shapes := []
  nags := []
  comment := []
  commands := none
  startingComment := none
  clock := none
  gameEnd := none

def defaultTree (ref : ι) (fen : Text) : TreeState ι where
  root := .node (rootData C ref fen) []
  headers := { fen := normalizeFen fen, result := .unknown, start := none, termination := none }
  position := []
  dirty := false
  practicePath := none

/-- A new node; the clock is given in milliseconds. -/
def createNode (ref : ι) (fen : Text) (move : BoardMove) (san : Text) (halfMoves : ℤ)
    (clock : Option ℚ) : TreeNode ι :=
  .node
    { ref := ref
      fen := fen
      move := some move
      san := some san
      score := none
      depth := none
      halfMoves := halfMoves
      shapes := []
      nags := []
      comment := []
      commands := none
      startingComment := none
      clock := clock.map (· / 1000)
      gameEnd := none }
    []

/-- The path of the last move of the main line. -/
def mainLineEnd : TreeNode ι → List ℕ
  | .node _ [] => []
  | .node _ (c :: _) => 0 :: mainLineEnd c

/-- The depth and the marker of the first main-line move that ends the game. -/
def effectiveGameEnd : TreeNode ι → Option (ℕ × GameEnd)
  | .node _ [] => none
  | .node _ (c :: _) =>
      match c.label.gameEnd with
      | some gameEnd => some (1, gameEnd)
      | none => (effectiveGameEnd c).map fun found ↦ (found.1 + 1, found.2)

/-- The node a path names, or the last one before the path leaves the tree. -/
def getNodeAtPath (root : TreeNode ι) (path : List ℕ) : TreeNode ι :=
  root.deepest path

/-- The part of a position that repetitions compare. -/
def getBoardState (fen : Text) : Text :=
  let fields := (fen.splitOn ' ').take 4
  let used i := fields[i]?.any fun field ↦ field != [] && field != ['-']
  let fields :=
    if used 2 || used 3 then
      match positionFromFen C fen with
      | some pos =>
          let setup := C.toSetup pos
          let fields := fields.set 2 (C.makeCastlingFen setup)
          if (fields[3]?.any (· != [])) && (C.epSquare setup).isNone then fields.set 3 ['-']
          else fields
      | none => fields
    else fields
  List.intercalate [' '] fields

/-- The nodes on a path, the root first. -/
def nodesOnPath : TreeNode ι → List ℕ → List (NodeData ι)
  | t, [] => [t.label]
  | t, i :: path =>
      match t.children[i]? with
      | some c => t.label :: nodesOnPath c path
      | none => [t.label]

def isThreeFoldRepetition (root : TreeNode ι) (fen : Text) (position : List ℕ) : Bool :=
  let matchCount := (nodesOnPath root position).countP fun n ↦
    getBoardState C n.fen == getBoardState C fen
  matchCount + 1 ≥ 3

def is50MoveRule (fen : Text) : Bool :=
  let fields := (fen.trim.splitOnP Text.isSpace).filter (· ≠ [])
  match fields[4]?.bind Text.parseInt with
  | some halfmoveClock => halfmoveClock ≥ 100
  | none => false

/-! ## The first king and queen pawn moves -/

namespace KingPawn

/-- Four positions: the initial one, and those after `1. e4`, `1. e4 e5` and
`1. d4`. -/
inductive Game where
  | start
  | kingPawn
  | openGame
  | queenPawn
  deriving DecidableEq, Repr

def Game.fen : Game → Text
  | .start => initialFen
  | .kingPawn => "rnbqkbnr/pppppppp/8/8/4P3/8/PPPP1PPP/RNBQKBNR b KQkq - 0 1".toList
  | .openGame => "rnbqkbnr/pppp1ppp/8/4p3/4P3/8/PPPP1PPP/RNBQKBNR w KQkq - 0 2".toList
  | .queenPawn => "rnbqkbnr/pppppppp/8/8/3P4/8/PPP1PPPP/RNBQKBNR b KQkq - 0 1".toList

def Game.all : List Game := [.start, .kingPawn, .openGame, .queenPawn]

def e4 : BoardMove := .normal (Square.fromCoords 4 1) (Square.fromCoords 4 3) none

def d4 : BoardMove := .normal (Square.fromCoords 3 1) (Square.fromCoords 3 3) none

def e5 : BoardMove := .normal (Square.fromCoords 4 6) (Square.fromCoords 4 4) none

/-- The moves of the sample, with their notation and the position they lead to. -/
def Game.moves : Game → List (BoardMove × Text × Text × Game)
  | .start =>
      [(e4, "e4".toList, "e2e4".toList, .kingPawn), (d4, "d4".toList, "d2d4".toList, .queenPawn)]
  | .kingPawn => [(e5, "e5".toList, "e7e5".toList, .openGame)]
  | _ => []

def Game.turn : Game → Color
  | .start | .openGame => .white
  | .kingPawn | .queenPawn => .black

/-- The rules library on the positions of the sample. -/
abbrev chessops : Chessops where
  Chess := Game
  Setup := Game
  parseFen fen := Game.all.find? (·.fen == fen)
  makeFen := Game.fen
  fullmoves g := if g = .openGame then 2 else 1
  setupTurn := Game.turn
  epSquare _ := none
  makeCastlingFen _ := "KQkq".toList
  fromSetup := some
  toSetup := id
  turn := Game.turn
  isLegal g move := g.moves.any (·.1 == move)
  play g move := ((g.moves.find? (·.1 == move)).map (·.2.2.2)).getD g
  isEnd _ := false
  isCheckmate _ := false
  isStalemate _ := false
  isInsufficientMaterial _ := false
  makeSan g move := ((g.moves.find? (·.1 == move)).map (·.2.1)).getD []
  parseSan g san := (g.moves.find? (·.2.1 == san)).map (·.1)
  parseUci uci := ((Game.all.flatMap Game.moves).find? (·.2.2.1 == uci)).map (·.1)
  normalizeMove _ move := move

end KingPawn

end EnCroissant

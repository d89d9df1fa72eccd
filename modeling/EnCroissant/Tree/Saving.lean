import EnCroissant.Pgn.Parts
import EnCroissant.Tree.Comments
import EnCroissant.Tree.Store

/-!
# Saving a game

A tree is written as its tags and its moves, each with its number, its glyphs and its comments,
and the variations of a node behind its first child.  The numbers inside of comments are
formatted by a parameter.
-/

namespace EnCroissant.Saving

open PgnHeaders (Token)

structure SaveOptions where
  glyphs : Bool
  comments : Bool
  variations : Bool
  extraMarkups : Bool

/-- A file gets everything. -/
def SaveOptions.all : SaveOptions := ⟨true, true, true, true⟩

/-- How numbers stand in a comment. -/
structure NumberFormat where
  formatScore : ℚ → Text
  number : ℚ → Text
  makeClk : ℚ → Text

/-! ## Comments -/

def drawingColors : List (Char × DrawingColor) :=
  [('G', .green), ('R', .red), ('Y', .yellow), ('B', .blue), ('O', .orange), ('C', .cyan)]

def drawingCode (brush : Option Text) : Option Char :=
  (drawingColors.find? fun color ↦ brush = some color.2.name).map Prod.fst

def makeSquare (square : Square) : Text :=
  [Char.ofNat ('a'.toNat + square.file), Char.ofNat ('1'.toNat + square.rank)]

/-- A drawing as an entry: a marked square, or an arrow. -/
def drawingEntry (shape : DrawShape) : Option (Text ⊕ Text) :=
  (drawingCode shape.brush).map fun code ↦
    match shape.dest with
    | none => .inl (code :: makeSquare shape.orig)
    | some dest =>
        if dest = shape.orig then .inl (code :: makeSquare shape.orig)
        else .inr (code :: (makeSquare shape.orig ++ makeSquare dest))

def drawingCommand (name : String) (entries : List Text) : Text :=
  if entries = [] then []
  else "[%".toList ++ name.toList ++ ' ' :: ([','].intercalate entries ++ [']'])

def makePgnDrawings (shapes : List DrawShape) : Text :=
  let entries := shapes.filterMap drawingEntry
  drawingCommand "csl" (entries.filterMap Sum.getLeft?) ++
    drawingCommand "cal" (entries.filterMap Sum.getRight?)

def takeUnits : (limit : ℕ) → Text → Text
  | _, [] => []
  | limit, c :: text =>
      if Text.utf16Length [c] ≤ limit then c :: takeUnits (limit - Text.utf16Length [c]) text
      else []

def sanitizeGameEndTermination (text : Text) : Text :=
  (takeUnits pgnTextMax (text.map fun c ↦
    if c ∈ [']', '\x7b', '\x7d', '\r', '\n'] then ' ' else c)).trim

/-- The text of an optional field, unless it is empty. -/
def truthy (text : Option Text) : Option Text := text.filter (· ≠ [])

section

variable {ι : Type} (F : NumberFormat) (opt : SaveOptions)

def evalCommand (score : Score) (depth : Option ℕ) : Text :=
  "[%eval ".toList ++
    (if score.kind = .cp then F.formatScore score.value else '#' :: F.number score.value) ++
    (match depth with
      | none => []
      | some depth => ',' :: Decimal.digits depth) ++
    "] ".toList

def clockCommand (clock : ℚ) : Text := "[%clk ".toList ++ F.makeClk clock ++ "] ".toList

/-- What stands between the braces of the comment of a move. -/
def commentContent (data : NodeData ι) : Text :=
  (if opt.extraMarkups then
    ((data.score.map fun score ↦ evalCommand F score data.depth).getD []) ++
      ((data.clock.map (clockCommand F)).getD []) ++ makePgnDrawings data.shapes
  else []) ++
  (if opt.comments then
    ((truthy data.commands).map fun commands ↦ commands ++ [' ']).getD [] ++ data.comment
  else [])

def gameEndComment (gameEnd : GameEnd) : Text :=
  let termination := sanitizeGameEndTermination (gameEnd.termination.getD [])
  "[%".toList ++ gameEndCommand ++ (if termination = [] then [] else ' ' :: termination) ++
    "] ".toList ++ gameEndProse

/-! ## One move -/

def sortedNags (nags : List ℕ) : List ℕ := nags.mergeSort (· ≤ ·)

def isBasicAnnotation ( annotation : String) : Bool :=
  annotation ∈ ["!", "!!", "?", "??", "!?", "?!"]

def nagPart (code : ℕ) : List PgnPart := [.blank, .nag code]

/-- Only the first code can stand as a glyph. -/
def nagParts : List ℕ → List PgnPart
  | [] => []
  | code :: codes =>
      (if (nagGlyph code).any isBasicAnnotation then [.glyph code] else nagPart code) ++
        codes.flatMap nagPart

def isBlack (data : NodeData ι) : Bool := decide (data.halfMoves.tmod 2 = 0)

/-- `Math.ceil(halfMoves / 2)`. -/
def moveNumber (data : NodeData ι) : ℤ := -(-data.halfMoves / 2)

def numberParts (data : NodeData ι) (isFirst : Bool) : List PgnPart :=
  if isBlack data then if isFirst then [.number (moveNumber data) 3, .blank] else []
  else [.number (moveNumber data) 1, .blank]

def bracedParts (content : Text) : List PgnPart := [.comment content, .blank]

/-- The comment in front of the move, as it stands. -/
def startingParts (data : NodeData ι) : List PgnPart :=
  match truthy data.startingComment with
  | some comment => if opt.comments then bracedParts comment else []
  | none => []

def sanParts (data : NodeData ι) (isFirst : Bool) : List PgnPart :=
  match truthy data.san with
  | some san =>
      numberParts data isFirst ++
        (.move san :: (if opt.glyphs then nagParts (sortedNags data.nags) else [])) ++ [.blank]
  | none => []

def contentParts (data : NodeData ι) : List PgnPart :=
  if commentContent F opt data = [] then [] else bracedParts (commentContent F opt data)

def gameEndParts (data : NodeData ι) (omitGameEnd : Bool) : List PgnPart :=
  match data.gameEnd with
  | some gameEnd =>
      if opt.comments && (truthy data.san).isSome && !omitGameEnd then
        bracedParts (gameEndComment gameEnd)
      else []
  | none => []

/-- The parts of `getMoveText`. -/
def moveParts (data : NodeData ι) (isFirst omitGameEnd : Bool) : List PgnPart :=
  startingParts opt data ++ sanParts opt data isFirst ++ contentParts F opt data ++
    gameEndParts opt data omitGameEnd

def getMoveText (data : NodeData ι) (isFirst omitGameEnd : Bool) : Text :=
  partsText (moveParts F opt data isFirst omitGameEnd)

/-! ## The tree -/

variable [DecidableEq ι] (omitGameEnd : Option ι)

/-- The node whose end the result says already. -/
def omits (data : NodeData ι) : Bool := decide (some data.ref = omitGameEnd)

mutual

/-- `writePGN` without a path. -/
def writePGN (headers : Option PgnHeaders.GameHeaders) (root : Bool) : TreeNode ι → Text
  | .node data children =>
      Text.trim
        ((headers.map PgnHeaders.headersToPGN).getD [] ++
          (if root && decide (data.fen ≠ initialFen) then
            PgnHeaders.tagLine "SetUp" ['1'] ++ PgnHeaders.tagLine "FEN" data.fen
          else []) ++
          '\n' :: ((if root then getMoveText F opt data false false else []) ++
            writeLine root children ++
            (if root then
              (headers.map fun headers ↦ ' ' :: PgnHeaders.resultText headers.result).getD []
            else [])))

/-- The first child, the variations beside it and what comes behind it. -/
def writeLine (root : Bool) : List (TreeNode ι) → Text
  | [] => []
  | c :: cs =>
      getMoveText F opt c.label root (omits omitGameEnd c.label) ++
        (if opt.variations then writeVariations cs else []) ++ writePGN none false c

def writeVariations : List (TreeNode ι) → Text
  | [] => []
  | v :: vs =>
      ' ' :: '(' :: (getMoveText F opt v.label true (omits omitGameEnd v.label) ++
        ' ' :: (writePGN none false v ++ ')' :: ' ' :: writeVariations vs))

end

/-- The headers of a save: the termination is that of the marked end, if there is one. -/
def savedHeaders (root : TreeNode ι) (headers : PgnHeaders.GameHeaders) : PgnHeaders.GameHeaders :=
  let termination := ((effectiveGameEnd root).bind fun found ↦ found.2.termination).or
    (headers.other.get? "Termination")
  let other := headers.other.without (· == "Termination")
  { headers with
    other :=
      match termination with
      | some termination => other.set "Termination" termination
      | none => other }

/-- The end that the result stands for: that of a last move, without a termination. -/
def omittedEnd (root : TreeNode ι) (headers : Option PgnHeaders.GameHeaders) : Option ι :=
  match effectiveGameEnd root, headers with
  | some (depth, gameEnd), some headers =>
      let node := getNodeAtPath root (List.replicate depth 0)
      if node.children.isEmpty && gameEnd.termination.isNone && headers.result != .unknown then
        some node.label.ref
      else none
  | _, _ => none

def getPGN (root : TreeNode ι) (headers : Option PgnHeaders.GameHeaders) : Text :=
  writePGN F opt (omittedEnd root headers) (headers.map (savedHeaders root)) true root

/-- A game as it is put into a file. -/
def serializeStoreTree (root : TreeNode ι) (headers : PgnHeaders.GameHeaders) : Text :=
  getPGN F .all root (some headers) ++ ['\n', '\n']

end

end EnCroissant.Saving

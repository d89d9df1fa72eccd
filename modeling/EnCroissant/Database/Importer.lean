import Mathlib
import EnCroissant.Library.Bracketed
import EnCroissant.Database.Encoding

/-!
# Importing a game

The PGN reader calls the importer once for every header, move, comment, NAG and
variation bracket.  The importer writes the stored move format as it goes.
Headers other than `FEN` only fill in metadata columns and are left out.
-/

namespace EnCroissant

/-! ## Board summaries -/

structure MaterialCount where
  white : ℕ
  black : ℕ
  deriving DecidableEq, Repr

def Role.value : Role → ℕ
  | .pawn => 1
  | .knight => 3
  | .bishop => 3
  | .rook => 5
  | .queen => 9
  | .king => 0

def getMaterialCount (board : Board) : MaterialCount :=
  let count (color : Color) : ℕ :=
    ((List.finRange 64).map fun s ↦
      ((board s).filter (·.color = color)).elim 0 (·.role.value)).sum
  ⟨count .white, count .black⟩

def whitePawn : Piece := ⟨.white, .pawn⟩
def blackPawn : Piece := ⟨.black, .pawn⟩

/-- The pawns on the second and seventh rank, one bit each. -/
def getPawnHome (board : Board) : BitVec 16 :=
  let secondRankPawns := ((board.byPiece whitePawn) >>> 8).setWidth 8
  let seventhRankPawns := ((board.byPiece blackPawn) >>> 48).setWidth 8
  secondRankPawns.setWidth 16 ||| (seventhRankPawns.setWidth 16 <<< 8)

/-! ## The game under construction -/

def standardMaterialBaseline : ℕ := 39

/-- The least material seen so far, for each color. -/
structure MaterialColor where
  white : ℕ := standardMaterialBaseline
  black : ℕ := standardMaterialBaseline
  deriving DecidableEq, Repr

namespace MaterialColor

def minimumMaterial (m : MaterialColor) (board : Board) : MaterialCount :=
  ⟨min m.white (getMaterialCount board).white, min m.black (getMaterialCount board).black⟩

/-- Lowered to the current material where that is less. -/
def lower (m : MaterialColor) (current : MaterialCount) : MaterialColor where
  white := if current.white < m.white then current.white else m.white
  black := if current.black < m.black then current.black else m.black

end MaterialColor

structure TempGame (S : Shakmaty) where
  fen : Option String
  moves : List UInt8
  position : S.Chess
  materialCount : MaterialColor

/-- The columns of a stored game that come from its moves. -/
structure NewGame where
  plyCount : Int32
  whiteMaterial : ℕ
  blackMaterial : ℕ
  fen : Option String
  moves : List UInt8
  pawnHome : BitVec 16

namespace TempGame

variable {S : Shakmaty}

def default (S : Shakmaty) : TempGame S := ⟨none, [], S.default, {}⟩

/-- The row that `insert_to_db` writes. -/
def insertToDb (g : TempGame S) : NewGame :=
  let minimumMaterial := g.materialCount.minimumMaterial (S.board g.position)
  { plyCount := Int32.ofNat (iterMainlineMoveBytes g.moves).length
    whiteMaterial := minimumMaterial.white
    blackMaterial := minimumMaterial.black
    fen := g.fen
    moves := g.moves
    pawnHome := getPawnHome (S.board g.position) }

end TempGame

/-! ## The visitor -/

structure ImportFrame (S : Shakmaty) where
  position : S.Chess
  preMovePositions : List S.Chess

namespace ImportFrame

variable {S : Shakmaty}

def new (position : S.Chess) : ImportFrame S := ⟨position, []⟩

/-- Where a variation of this frame starts. -/
def variationStart (frame : ImportFrame S) : S.Chess :=
  frame.preMovePositions.getLast?.getD frame.position

def play (frame : ImportFrame S) (m : Move) : ImportFrame S where
  position := S.playUnchecked frame.position m
  preMovePositions := frame.preMovePositions ++ [frame.position]

/-- A frame that plays a line stands where the line ends. -/
theorem position_foldl_play (frame : ImportFrame S) (ms : List Move) :
    (ms.foldl play frame).position = S.playLine frame.position ms := by
  induction ms generalizing frame with
  | nil => rfl
  | cons m ms ih => exact ih (frame.play m)

end ImportFrame

/-- The importer.  The head of `frames` is the innermost open frame. -/
structure Importer (S : Shakmaty) where
  game : TempGame S
  skip : Bool
  frames : List (ImportFrame S)

/-- What the reader reports inside the brackets of the movetext. -/
inductive EventLeaf (S : Shakmaty) where
  | san (san : S.San)
  | comment (raw : List UInt8)
  | nag (code : UInt8)

abbrev Event (S : Shakmaty) := Bracketed.Token (EventLeaf S)

/-- `Nag` as it is displayed. -/
def nagToString (code : UInt8) : String := "$" ++ toString code.toNat

/-- `RawHeader::decode`: resolves escaped quotes and backslashes. -/
def decodeHeader : List UInt8 → List UInt8
  | 92 :: c :: rest =>
      if c = 92 ∨ c = 34 then c :: decodeHeader rest else 92 :: decodeHeader (c :: rest)
  | b :: rest => b :: decodeHeader rest
  | [] => []

def standardFen : List UInt8 :=
  Utf8.encode "rnbqkbnr/pppppppp/8/8/8/8/PPPPPPPP/RNBQKBNR w KQkq - 0 1".toList

namespace Importer

variable {S : Shakmaty}

def new (S : Shakmaty) : Importer S := ⟨TempGame.default S, false, []⟩

def beginGame (imp : Importer S) : Importer S :=
  { imp with game := TempGame.default S, skip := false, frames := [] }

/-- The `FEN` branch of `header`. -/
def headerFen (imp : Importer S) (value : List UInt8) : Importer S :=
  if value = standardFen then
    { imp with game := { imp.game with fen := none, position := S.default } }
  else
    match S.fenFromAscii value with
    | .error _ => { imp with skip := true }
    | .ok setup =>
        let game := { imp.game with fen := some (fromUtf8Lossy (decodeHeader value)) }
        match databaseSetupToChess S setup with
        | .ok position => { imp with game := { game with position := position } }
        | .error _ => { imp with game := game, skip := true }

/-- `Skip` tells the reader to pass over the movetext. -/
def endHeaders (imp : Importer S) : Importer S × Bool :=
  ({ imp with frames := [ImportFrame.new imp.game.position] }, imp.skip)

/-- Opens the root frame if no frame is open. -/
def ensureFrame (imp : Importer S) : Importer S :=
  match imp.frames with
  | [] => { imp with frames := [ImportFrame.new imp.game.position] }
  | _ :: _ => imp

def pushBytes (imp : Importer S) (bytes : List UInt8) : Importer S :=
  { imp with game := { imp.game with moves := imp.game.moves ++ bytes } }

def san (imp : Importer S) (san : S.San) : Importer S :=
  let imp := imp.ensureFrame
  match imp.frames with
  | [] => { imp with skip := true }
  | frame :: parents =>
      match S.toMove san frame.position with
      | none => { imp with skip := true }
      | some m =>
          match encodeMove S m frame.position with
          | .error _ => { imp with skip := true }
          | .ok encoded =>
              let frame' := frame.play m
              let imp' := { imp.pushBytes [encoded] with frames := frame' :: parents }
              if parents.isEmpty then
                let material :=
                  if m.isPromotion then
                    imp.game.materialCount.lower (getMaterialCount (S.board frame.position))
                  else imp.game.materialCount
                { imp' with
                  game := { imp'.game with
                    materialCount := material, position := frame'.position } }
              else imp'

def beginVariation (imp : Importer S) : Importer S :=
  let imp := imp.ensureFrame
  match imp.frames with
  | [] => { imp with skip := true }
  | parent :: _ =>
      { imp.pushBytes [variationStartMarker] with
        frames := ImportFrame.new parent.variationStart :: imp.frames }

def endVariation (imp : Importer S) : Importer S :=
  let imp := imp.pushBytes [variationEndMarker]
  let imp :=
    match imp.frames with
    | _ :: parent :: parents => { imp with frames := parent :: parents }
    | _ => { imp with skip := true }
  match imp.frames.getLast? with
  | some root => { imp with game := { imp.game with position := root.position } }
  | none => imp

def comment (imp : Importer S) (raw : List UInt8) : Importer S :=
  imp.pushBytes (encodeComment (fromUtf8Lossy raw))

def nag (imp : Importer S) (code : UInt8) : Importer S :=
  imp.pushBytes (encodeNag (nagToString code))

def endGame (imp : Importer S) : Option (TempGame S) :=
  if imp.skip then none else some imp.game

def visit (imp : Importer S) : Event S → Importer S
  | .leaf (.san s) => imp.san s
  | .leaf (.comment raw) => imp.comment raw
  | .leaf (.nag code) => imp.nag code
  | .enter => imp.beginVariation
  | .leave => imp.endVariation

def visitAll (imp : Importer S) (events : List (Event S)) : Importer S :=
  events.foldl visit imp

/-- One game as the reader reports it: the `FEN` header if there is one, then
the movetext unless the headers say to skip it. -/
def readGame (imp : Importer S) (fenHeader : Option (List UInt8))
    (events : List (Event S)) : Option (TempGame S) :=
  let imp := imp.beginGame
  let imp := fenHeader.elim imp imp.headerFen
  let (imp, skipMovetext) := imp.endHeaders
  (if skipMovetext then imp else imp.visitAll events).endGame

end Importer

end EnCroissant

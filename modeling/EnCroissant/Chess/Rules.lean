import Mathlib

/-!
# Boards, moves and the chess rules library

Boards and moves are concrete.  The rest of the rules library, in particular
legal move generation and notation, is a parameter: `Shakmaty` collects the
operations the program calls and `Shakmaty.Laws` the documented facts about
them.
-/

namespace EnCroissant

inductive Color where
  | white
  | black
  deriving DecidableEq, Repr

inductive Role where
  | pawn
  | knight
  | bishop
  | rook
  | queen
  | king
  deriving DecidableEq, Repr

structure Piece where
  color : Color
  role : Role
  deriving DecidableEq, Repr

/-- A square, numbered from `a1 = 0` along the ranks to `h8 = 63`. -/
abbrev Square := Fin 64

instance Square.neZero : NeZero 64 := ⟨by decide⟩

namespace Square

def file (s : Square) : ℕ := s.val % 8

def rank (s : Square) : ℕ := s.val / 8

def fromCoords (file rank : ℕ) : Square := Fin.ofNat 64 (8 * rank + file)

end Square

abbrev Bitboard := BitVec 64

abbrev Board := Square → Option Piece

namespace Board

/-- The squares whose piece satisfies a test, as a bit set. -/
def bitboard (b : Board) (test : Piece → Bool) : Bitboard :=
  BitVec.ofFnLE fun s ↦ (b s).any test

def byPiece (b : Board) (p : Piece) : Bitboard := b.bitboard (· = p)

def byRole (b : Board) (r : Role) : Bitboard := b.bitboard (·.role = r)

def byColor (b : Board) (c : Color) : Bitboard := b.bitboard (·.color = c)

theorem getLsbD_bitboard (b : Board) (test : Piece → Bool) (s : Square) :
    (b.bitboard test).getLsbD s = (b s).any test := by
  simp [bitboard]

end Board

inductive Move where
  | normal (role : Role) (source : Square) (capture : Option Role) (target : Square)
      (promotion : Option Role)
  | enPassant (source target : Square)
  | castle (king rook : Square)
  | put (role : Role) (target : Square)
  deriving DecidableEq, Repr

namespace Move

def role : Move → Role
  | normal role .. => role
  | enPassant .. => .pawn
  | castle .. => .king
  | put role _ => role

def isCapture : Move → Bool
  | normal _ _ capture _ _ => capture.isSome
  | enPassant .. => true
  | _ => false

def isPromotion : Move → Bool
  | normal _ _ _ _ promotion => promotion.isSome
  | _ => false

end Move

namespace Board

/-- The board after a move by `turn`, as `play_unchecked` leaves it. -/
def playMove (b : Board) (turn : Color) : Move → Board
  | .normal role source _ target promotion =>
      Function.update (Function.update b source none) target (some ⟨turn, promotion.getD role⟩)
  | .enPassant source target =>
      Function.update
        (Function.update
          (Function.update b (Square.fromCoords target.file source.rank) none) source none)
        target (some ⟨turn, .pawn⟩)
  | .castle king rook =>
      let rookTo := Square.fromCoords (if king < rook then 5 else 3) king.rank
      let kingTo := Square.fromCoords (if king < rook then 6 else 2) king.rank
      Function.update
        (Function.update (Function.update (Function.update b king none) rook none)
          rookTo (some ⟨turn, .rook⟩))
        kingTo (some ⟨turn, .king⟩)
  | .put role target => Function.update b target (some ⟨turn, role⟩)

end Board

/-- Pawns only ever move towards the far side of the board. -/
def Forward : Color → Square → Square → Prop
  | .white, source, target => source.rank < target.rank
  | .black, source, target => target.rank < source.rank

/-- What a legal move says about the board it is played on. -/
def Move.Fits (b : Board) (turn : Color) : Move → Prop
  | .normal role source _ target promotion =>
      b source = some ⟨turn, role⟩ ∧ promotion ≠ some .pawn ∧
        (role = .pawn → Forward turn source target)
  | .enPassant source target =>
      b source = some ⟨turn, .pawn⟩ ∧ Forward turn source target
  | .castle .. => True
  | .put .. => False

/-- The operations of the chess rules library that the program calls. -/
structure Shakmaty where
  Chess : Type
  Setup : Type
  San : Type
  CastlingMode : Type
  PositionError : Type
  default : Chess
  board : Chess → Board
  turn : Chess → Color
  castlingRights : Chess → Bitboard
  /-- The en-passant square under `EnPassantMode::Legal`. -/
  epSquare : Chess → Option Square
  legalMoves : Chess → List Move
  playUnchecked : Chess → Move → Chess
  /-- `San::to_move`; `none` where the notation is ambiguous or illegal. -/
  toMove : San → Chess → Option Move
  /-- `SanPlus::from_move`. -/
  sanFromMove : Chess → Move → San
  sanToString : San → String
  setupBoard : Setup → Board
  /-- `Fen::from_ascii` followed by `into_setup`. -/
  fenFromAscii : List UInt8 → Except String Setup
  detectCastlingMode : Setup → CastlingMode
  fromSetup : Setup → CastlingMode → Except PositionError Chess
  ignoreTooMuchMaterial : PositionError → Except PositionError Chess
  ignoreInvalidCastlingRights : PositionError → Except PositionError Chess
  positionErrorToString : PositionError → String

namespace Shakmaty

variable (S : Shakmaty)

/-- Documented facts about positions and their legal moves. -/
structure Laws : Prop where
  board_play : ∀ p, ∀ m ∈ S.legalMoves p,
    S.board (S.playUnchecked p m) = (S.board p).playMove (S.turn p) m
  legal_fits : ∀ p, ∀ m ∈ S.legalMoves p, m.Fits (S.board p) (S.turn p)
  pawns_off_backranks : ∀ p s c, S.board p s = some ⟨c, .pawn⟩ →
    s.rank ≠ 0 ∧ s.rank ≠ 7

/-- The standard notation of a legal move resolves back to the move. -/
def SanResolves : Prop :=
  ∀ p, ∀ m ∈ S.legalMoves p, S.toMove (S.sanFromMove p m) p = some m

/-- Every position has fewer legal moves than the first marker byte. -/
def MovesFitByte : Prop :=
  ∀ p, (S.legalMoves p).length < 252

/-- A text that parses as a FEN is plain ASCII without backslashes. -/
def FenPlain : Prop :=
  ∀ bs setup, S.fenFromAscii bs = .ok setup → ∀ b ∈ bs, b < 128 ∧ b ≠ 92

/-- The positions along a line of moves, the start included. -/
def positions (p : S.Chess) : List Move → List S.Chess
  | [] => [p]
  | m :: ms => p :: positions (S.playUnchecked p m) ms

def playLine (p : S.Chess) (ms : List Move) : S.Chess :=
  ms.foldl S.playUnchecked p

/-- Every move of the line is legal where it is played. -/
def LegalLine (p : S.Chess) : List Move → Prop
  | [] => True
  | m :: ms => m ∈ S.legalMoves p ∧ LegalLine (S.playUnchecked p m) ms

@[simp] theorem playLine_nil (p : S.Chess) : S.playLine p [] = p := rfl

@[simp] theorem playLine_cons (p : S.Chess) (m : Move) (ms : List Move) :
    S.playLine p (m :: ms) = S.playLine (S.playUnchecked p m) ms := rfl

end Shakmaty

/-! ## A small instance

The rules library on one pawn ending, White with `Ka1` and `h2` against
`Kc2`, one move deep.  It shows that the facts above can be met. -/

namespace PawnEnding

inductive Position where
  | initial
  | start
  | kingA2
  | pawnH3
  | pawnH4
  deriving DecidableEq, Repr

def backRank : List Role :=
  [.rook, .knight, .bishop, .queen, .king, .bishop, .knight, .rook]

def initialBoard : Board := fun s ↦
  if s.rank = 0 then some ⟨.white, backRank.getD s.file .king⟩
  else if s.rank = 1 then some ⟨.white, .pawn⟩
  else if s.rank = 6 then some ⟨.black, .pawn⟩
  else if s.rank = 7 then some ⟨.black, backRank.getD s.file .king⟩
  else none

def startBoard : Board := fun s ↦
  if s = Square.fromCoords 0 0 then some ⟨.white, .king⟩
  else if s = Square.fromCoords 7 1 then some ⟨.white, .pawn⟩
  else if s = Square.fromCoords 2 1 then some ⟨.black, .king⟩
  else none

def a2 : Move :=
  .normal .king (Square.fromCoords 0 0) none (Square.fromCoords 0 1) none

def h3 : Move :=
  .normal .pawn (Square.fromCoords 7 1) none (Square.fromCoords 7 2) none

def h4 : Move :=
  .normal .pawn (Square.fromCoords 7 1) none (Square.fromCoords 7 3) none

def board : Position → Board
  | .initial => initialBoard
  | .start => startBoard
  | .kingA2 => startBoard.playMove .white a2
  | .pawnH3 => startBoard.playMove .white h3
  | .pawnH4 => startBoard.playMove .white h4

def turn : Position → Color
  | .initial | .start => .white
  | _ => .black

def legalMoves : Position → List Move
  | .start => [h3, h4, a2]
  | _ => []

def playUnchecked : Position → Move → Position
  | .start, m =>
      if m = h3 then .pawnH3 else if m = h4 then .pawnH4
      else if m = a2 then .kingA2 else .start
  | p, _ => p

def toMove (san : String) : Position → Option Move
  | .start =>
      if san = "h3" then some h3 else if san = "h4" then some h4
      else if san = "Ka2" then some a2 else none
  | _ => none

def sanFromMove (_ : Position) (m : Move) : String :=
  if m = h3 then "h3" else if m = h4 then "h4" else if m = a2 then "Ka2" else "--"

def startFen : List UInt8 := "8/8/8/8/8/8/2k4P/K7 w - - 0 1".toUTF8.data.toList

abbrev library : Shakmaty where
  Chess := Position
  Setup := Position
  San := String
  CastlingMode := Unit
  PositionError := Unit
  default := .initial
  board := board
  turn := turn
  castlingRights := fun _ ↦ 0
  epSquare := fun _ ↦ none
  legalMoves := legalMoves
  playUnchecked := playUnchecked
  toMove := toMove
  sanFromMove := sanFromMove
  sanToString := id
  setupBoard := board
  fenFromAscii := fun fen ↦ if fen = startFen then .ok .start else .error "invalid fen"
  detectCastlingMode := fun _ ↦ ()
  fromSetup := fun p _ ↦ .ok p
  ignoreTooMuchMaterial := .error
  ignoreInvalidCastlingRights := .error
  positionErrorToString := fun _ ↦ "illegal position"

theorem eq_start_of_mem_legalMoves {p : Position} {m : Move}
    (hm : m ∈ legalMoves p) :
    p = .start ∧ (m = h3 ∨ m = h4 ∨ m = a2) := by
  cases p <;> simp [legalMoves] at hm
  exact ⟨rfl, hm⟩

theorem library_laws : library.Laws where
  board_play p m hm := by
    obtain ⟨rfl, rfl | rfl | rfl⟩ := eq_start_of_mem_legalMoves hm <;> rfl
  legal_fits p m hm := by
    obtain ⟨rfl, rfl | rfl | rfl⟩ := eq_start_of_mem_legalMoves hm
    · exact ⟨rfl, by decide, fun _ ↦ show (1 : ℕ) < 2 by decide⟩
    · exact ⟨rfl, by decide, fun _ ↦ show (1 : ℕ) < 3 by decide⟩
    · exact ⟨rfl, by decide, fun h ↦ absurd h (by decide)⟩
  pawns_off_backranks := by
    have hall : ∀ (p : Position) (c : Color) (s : Square),
        board p s = some ⟨c, .pawn⟩ → s.rank ≠ 0 ∧ s.rank ≠ 7 := by
      intro p c
      cases p <;> cases c <;> decide
    exact fun p s c ↦ hall p c s

theorem library_sanResolves : library.SanResolves := by
  intro p m hm
  obtain ⟨rfl, rfl | rfl | rfl⟩ := eq_start_of_mem_legalMoves hm <;> rfl

theorem library_movesFitByte : library.MovesFitByte := by
  intro p
  cases p <;> decide

end PawnEnding

end EnCroissant

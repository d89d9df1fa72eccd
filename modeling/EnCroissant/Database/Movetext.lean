import Mathlib
import EnCroissant.Library.Decimal
import EnCroissant.Pgn.Scan
import EnCroissant.Database.Encoding

/-!
# Rendering a decoded game

A decoded game is written as movetext.  The move numbers are not read from the
positions: they are threaded through the tree, starting from the text of the
FEN.
-/

namespace EnCroissant

/-! ## The FEN -/

/-- The parts of a FEN, as the rules library writes it. -/
structure FenParts where
  board : List Char
  turn : Color
  castling : List Char
  epSquare : List Char
  /-- The field of the three-check variant. -/
  remainingChecks : Option (List Char)
  halfmoves : UInt32
  fullmoves : UInt32
  deriving DecidableEq, Repr

def decimal (n : UInt32) : List Char := Decimal.digits n.toNat

def turnField : Color → List Char
  | .white => ['w']
  | .black => ['b']

/-- `Fen::to_string`. -/
def FenParts.toText (f : FenParts) : List Char :=
  f.board ++ ' ' :: turnField f.turn ++ ' ' :: f.castling ++ ' ' :: f.epSquare ++
    f.remainingChecks.elim [] (' ' :: ·) ++ ' ' :: decimal f.halfmoves ++ ' ' :: decimal f.fullmoves

def splitWhitespace (text : List Char) : List (List Char) :=
  (text.splitOnP isWhitespace).filter (· ≠ [])

/-- `str::parse::<u32>`. -/
def parseU32 (field : List Char) : Option UInt32 := (Decimal.parse (2 ^ 32) field).map UInt32.ofNat

/-! ## The numbers -/

structure RenderState where
  moveNumber : UInt32
  whiteToMove : Bool
  deriving DecidableEq, Repr

def parseInitialRenderState (initialFen : FenParts) : RenderState :=
  let fields := splitWhitespace initialFen.toText
  let sideToMove := fields[1]?.getD ['w']
  let moveNumber := (fields[5]?.bind parseU32).getD 1
  ⟨moveNumber, sideToMove = ['w']⟩

def saturatingSucc (n : UInt32) : UInt32 := if n.toNat + 1 < 2 ^ 32 then n + 1 else n

/-- What is written in front of a move. -/
def RenderState.label (state : RenderState) (opens : Bool) : List Char :=
  if state.whiteToMove then decimal state.moveNumber ++ ['.', ' ']
  else if opens then decimal state.moveNumber ++ ['.', '.', '.', ' ']
  else []

def RenderState.advance (state : RenderState) : RenderState :=
  if state.whiteToMove then { state with whiteToMove := false }
  else ⟨saturatingSucc state.moveNumber, true⟩

/-! ## The text -/

/-- A blank, unless nothing is written yet. -/
def separated (out : List Char) : List Char := if out.isEmpty then [] else out ++ [' ']

def renderedNag (nag : String) : List Char :=
  if nag = "$1" then ['!']
  else if nag = "$2" then ['?']
  else if nag = "$3" then ['!', '!']
  else if nag = "$4" then ['?', '?']
  else if nag = "$5" then ['!', '?']
  else if nag = "$6" then ['?', '!']
  else nag.toList

def pushNag (out : List Char) (prevWasMove : Bool) (nag : String) : List Char :=
  if (renderedNag nag).head? ≠ some '$' ∧ prevWasMove then out ++ renderedNag nag
  else separated out ++ renderedNag nag

def pushBracketed (out : List Char) (opening : Char) (text : List Char) (closing : Char) :
    List Char :=
  separated out ++ opening :: text ++ [closing]

/-- The variables of the loop over the nodes of one line. -/
structure RenderLoop where
  out : List Char
  state : RenderState
  prevWasMove : Bool
  lastPreMoveState : Option RenderState
  hasEmittedMove : Bool
  forceBlackPrefix : Bool
  deriving DecidableEq, Repr

namespace RenderLoop

def new (state : RenderState) : RenderLoop := ⟨[], state, false, none, false, false⟩

/-- Whether a black move is numbered. -/
def opens (loop : RenderLoop) : Bool := !loop.hasEmittedMove || loop.forceBlackPrefix

def move (loop : RenderLoop) (san : String) : RenderLoop where
  out := separated loop.out ++ loop.state.label loop.opens ++ san.toList
  state := loop.state.advance
  prevWasMove := true
  lastPreMoveState := some loop.state
  hasEmittedMove := true
  forceBlackPrefix := false

def nag (loop : RenderLoop) (nag : String) : RenderLoop :=
  { loop with out := pushNag loop.out loop.prevWasMove nag, prevWasMove := false }

def comment (loop : RenderLoop) (comment : String) : RenderLoop :=
  { loop with out := pushBracketed loop.out '{' comment.toList '}', prevWasMove := false }

/-- The state in which a variation starts: before the last move. -/
def variationState (loop : RenderLoop) : RenderState := loop.lastPreMoveState.getD loop.state

def variation (loop : RenderLoop) (text : List Char) : RenderLoop :=
  { loop with
    out := pushBracketed loop.out '(' text ')'
    prevWasMove := false
    forceBlackPrefix := true }

end RenderLoop

mutual

def renderNode (loop : RenderLoop) : DecodedGameNode → RenderLoop
  | .move san => loop.move san
  | .nag nag => loop.nag nag
  | .comment comment => loop.comment comment
  | .variation children =>
      loop.variation (renderLoop (RenderLoop.new loop.variationState) children).out

def renderLoop (loop : RenderLoop) : List DecodedGameNode → RenderLoop
  | [] => loop
  | node :: rest => renderLoop (renderNode loop node) rest

end

def renderNodes (nodes : List DecodedGameNode) (state : RenderState) : List Char :=
  (renderLoop (RenderLoop.new state) nodes).out

/-- `fen` reads the parts of a parsed FEN. -/
def decodeGameToMovetext (S : Shakmaty) (fen : S.Setup → FenParts) (movesBytes : List UInt8)
    (initialFen : S.Setup) : Except Error (List Char) := do
  let renderState := parseInitialRenderState (fen initialFen)
  let decoded ← decodeGame S movesBytes initialFen
  .ok (renderNodes decoded.nodes renderState)

/-! ## Reading the FEN back -/

theorem splitWhitespace_field {field : List Char} (hne : field ≠ [])
    (hplain : ∀ c ∈ field, isWhitespace c = false) (rest : List Char) :
    splitWhitespace (field ++ ' ' :: rest) = field :: splitWhitespace rest := by
  rw [splitWhitespace, List.splitOnP_append_cons_of_forall_mem hplain ' ' (by decide),
    List.filter_cons_of_pos (by simpa using hne)]
  rfl

theorem splitWhitespace_last {field : List Char} (hne : field ≠ [])
    (hplain : ∀ c ∈ field, isWhitespace c = false) : splitWhitespace field = [field] := by
  rw [splitWhitespace, List.splitOnP_eq_singleton hplain, List.filter_cons_of_pos (by simpa using hne)]
  rfl

theorem not_isWhitespace_of_isDigit {c : Char} (h : c.isDigit = true) :
    isWhitespace c = false := by
  have hrange : 48 ≤ c.toNat ∧ c.toNat ≤ 57 := by
    simp only [Char.isDigit, Bool.and_eq_true, decide_eq_true_eq, ge_iff_le,
      UInt32.le_iff_toNat_le] at h
    exact h
  simp only [isWhitespace, Bool.or_eq_false_iff, Bool.and_eq_false_iff, decide_eq_false_iff_not]
  omega

theorem decimal_ne_nil (n : UInt32) : decimal n ≠ [] := Decimal.digits_ne_nil

theorem parseU32_decimal (n : UInt32) : parseU32 (decimal n) = some n := by
  rw [parseU32, decimal, Decimal.parse_digits n.toNat_lt, Option.map_some, UInt32.ofNat_toNat]

/-- No part of a FEN is empty or holds a blank. -/
structure FenParts.Plain (f : FenParts) : Prop where
  board : f.board ≠ [] ∧ ∀ c ∈ f.board, isWhitespace c = false
  castling : f.castling ≠ [] ∧ ∀ c ∈ f.castling, isWhitespace c = false
  epSquare : f.epSquare ≠ [] ∧ ∀ c ∈ f.epSquare, isWhitespace c = false
  remainingChecks : ∀ checks ∈ f.remainingChecks, checks ≠ [] ∧ ∀ c ∈ checks, isWhitespace c = false

theorem splitWhitespace_toText {f : FenParts} (h : f.Plain) :
    splitWhitespace f.toText = [f.board, turnField f.turn, f.castling, f.epSquare] ++
      f.remainingChecks.toList ++ [decimal f.halfmoves, decimal f.fullmoves] := by
  have hturn : turnField f.turn ≠ [] ∧ ∀ c ∈ turnField f.turn, isWhitespace c = false := by
    cases f.turn <;> simp [turnField, isWhitespace]
  have hnumber : ∀ n : UInt32, ∀ c ∈ decimal n, isWhitespace c = false :=
    fun _ c hc ↦ not_isWhitespace_of_isDigit (Decimal.isDigit_digits c hc)
  have hnumbers : splitWhitespace (decimal f.halfmoves ++ ' ' :: decimal f.fullmoves) =
      [decimal f.halfmoves, decimal f.fullmoves] := by
    rw [splitWhitespace_field (decimal_ne_nil _) (hnumber _),
      splitWhitespace_last (decimal_ne_nil _) (hnumber _)]
  cases hchecks : f.remainingChecks with
  | none =>
      rw [FenParts.toText, hchecks]
      simp only [Option.elim_none, List.append_nil, List.append_assoc, List.cons_append]
      rw [splitWhitespace_field h.board.1 h.board.2, splitWhitespace_field hturn.1 hturn.2,
        splitWhitespace_field h.castling.1 h.castling.2,
        splitWhitespace_field h.epSquare.1 h.epSquare.2, hnumbers]
      rfl
  | some checks =>
      obtain ⟨hne, hplain⟩ := h.remainingChecks checks hchecks
      rw [FenParts.toText, hchecks]
      simp only [Option.elim_some, List.append_assoc, List.cons_append]
      rw [splitWhitespace_field h.board.1 h.board.2, splitWhitespace_field hturn.1 hturn.2,
        splitWhitespace_field h.castling.1 h.castling.2,
        splitWhitespace_field h.epSquare.1 h.epSquare.2, splitWhitespace_field hne hplain, hnumbers]
      rfl

/-- The sixth field is the move number, or the half-move clock where the FEN has a field for
the remaining checks. -/
theorem parseInitialRenderState_eq {f : FenParts} (h : f.Plain) :
    parseInitialRenderState f =
      ⟨if f.remainingChecks.isSome then f.halfmoves else f.fullmoves, f.turn = .white⟩ := by
  have hwhite : (turnField f.turn = ['w']) = (f.turn = .white) := by
    cases f.turn <;> simp [turnField]
  cases hchecks : f.remainingChecks with
  | none =>
      simp [parseInitialRenderState, splitWhitespace_toText h, hchecks, parseU32_decimal, hwhite]
  | some checks =>
      simp [parseInitialRenderState, splitWhitespace_toText h, hchecks, parseU32_decimal, hwhite]

end EnCroissant

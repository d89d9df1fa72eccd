import EnCroissant.Library.KeyedSort
import EnCroissant.Game.Controller

/-!
# Polyglot opening books

A book is a file of 16-byte records: the hash of a position, a move and a weight.
It is sorted once, looked up by hash, and one of the legal moves found is drawn.
-/

namespace EnCroissant

/-! ## Records -/

structure PolyglotRecord where
  key : ℕ
  moveData : ℕ
  weight : ℕ
  deriving DecidableEq, Repr

structure PolyglotMoveEntry where
  moveString : String
  weight : ℕ
  deriving DecidableEq, Repr

def fromBeBytes (bytes : List UInt8) : ℕ := bytes.foldl (fun n b ↦ n * 256 + b.toNat) 0

def polyglotRecord (record : List UInt8) : PolyglotRecord where
  key := fromBeBytes (record.take 8)
  moveData := fromBeBytes ((record.drop 8).take 2)
  weight := fromBeBytes ((record.drop 10).take 2)

def asChunks (bytes : List UInt8) : ℕ → List (List UInt8)
  | 0 => []
  | n + 1 => bytes.take 16 :: asChunks (bytes.drop 16) n

/-- The records of a file, in the file's order. -/
def fileRecords (bytes : List UInt8) : List PolyglotRecord :=
  (asChunks bytes (bytes.length / 16)).map polyglotRecord

def maxOpeningBookBytes : ℕ := 32 * 1024 * 1024

def loadPolyglotBook (bytes : List UInt8) : Except Error (List PolyglotRecord) :=
  if maxOpeningBookBytes < bytes.length then
    .error (.resourceLimit "Polyglot book exceeds the configured size limit")
  else if bytes.length % 16 ≠ 0 then
    .error (.invalidInput "Polyglot book is not aligned to 16-byte records")
  else .ok (KeyedSort.sort PolyglotRecord.key (fileRecords bytes))

/-! ## Moves as text -/

def squareChars (square : Square) : List Char :=
  [Char.ofNat ('a'.toNat + square.val % 8), Char.ofNat ('1'.toNat + square.val / 8)]

def promotionChar : Role → Char
  | .pawn => 'p'
  | .knight => 'n'
  | .bishop => 'b'
  | .rook => 'r'
  | .queen => 'q'
  | .king => 'k'

def uciText (source target : Square) (promotion : Option Role) : String :=
  String.ofList (squareChars source ++ squareChars target ++ (promotion.map promotionChar).toList)

/-- The promotion a record names; from 5 on there is none. -/
def promotionOf : ℕ → Option (Option Role)
  | 0 => some none
  | 1 => some (some .knight)
  | 2 => some (some .bishop)
  | 3 => some (some .rook)
  | 4 => some (some .queen)
  | _ => none

namespace PolyglotRecord

def source (record : PolyglotRecord) : Square := Fin.ofNat 64 ((record.moveData >>> 6) &&& 0x3f)

def target (record : PolyglotRecord) : Square := Fin.ofNat 64 (record.moveData &&& 0x3f)

def promotion (record : PolyglotRecord) : Option (Option Role) :=
  promotionOf ((record.moveData >>> 12) &&& 0x0f)

/-- `polyglot_move_to_uci`. -/
def moveToUci (record : PolyglotRecord) : Option String :=
  record.promotion.map (uciText record.source record.target)

def entry (record : PolyglotRecord) : Option PolyglotMoveEntry :=
  record.moveToUci.map fun moveString ↦ ⟨moveString, record.weight⟩

end PolyglotRecord

def normalizePolyglotUci (uci : String) : String :=
  if uci = "e1h1" then "e1g1"
  else if uci = "e1a1" then "e1c1"
  else if uci = "e8h8" then "e8g8"
  else if uci = "e8a8" then "e8c8"
  else uci

/-! ## Draws -/

/-- A source of random numbers: `gen_range` over a range that is not empty. -/
structure Rng where
  genRange : ℕ → ℕ
  genRange_lt : ∀ n, 0 < n → genRange n < n

/-- The first index whose weight is above what is left of the target. -/
def targetIndex : List ℕ → ℕ → Option ℕ
  | [], _ => none
  | weight :: weights, target =>
      if target < weight then some 0 else (targetIndex weights (target - weight)).map (· + 1)

def chooseWeightedTarget (weights : List ℕ) (target : ℕ) : ℕ :=
  (targetIndex weights target).getD (weights.length - 1)

def chooseWeightedIndex (rng : Rng) (weights : List ℕ) : ℕ :=
  let total := weights.sum
  if total = 0 then rng.genRange weights.length
  else chooseWeightedTarget weights (rng.genRange total)

/-! ## Lookups -/

/-- The rules library with the hash of positions, both given as text. -/
structure PolyglotRules extends GameRules where
  /-- `Fen::from_position` under `EnPassantMode::PseudoLegal`, as text. -/
  pseudoLegalFen : Chess → String
  polyglotHashFromFen : String → Option ℕ

structure PolyglotController (R : PolyglotRules) extends GameController R.toGameRules where
  polyglotBook : Option (List PolyglotRecord)
  polyglotMaxPly : ℕ

variable (R : PolyglotRules)

/-- Heavier entries first. -/
def byWeight (entry : PolyglotMoveEntry) : OrderDual ℕ := OrderDual.toDual entry.weight

def getAllMovesFromFen (book : List PolyglotRecord) (fen : String) : List PolyglotMoveEntry :=
  match R.polyglotHashFromFen fen with
  | none => []
  | some key =>
      KeyedSort.sortByKey byWeight
        ((KeyedSort.equalRun PolyglotRecord.key book key).filterMap PolyglotRecord.entry)

/-- The moves of the entries that can be played, with their weights. -/
def playableMoves (position : R.Chess) (entries : List PolyglotMoveEntry) : List (String × ℕ) :=
  entries.filterMap fun entry ↦
    let uci := normalizePolyglotUci entry.moveString
    match parseMove R.toGameRules uci position with
    | .ok _ => some (uci, entry.weight)
    | .error _ => none

def tryPolyglotBookMove {R : PolyglotRules} (rng : Rng) (controller : PolyglotController R) :
    Option String :=
  match controller.polyglotBook with
  | none => none
  | some book =>
      if controller.polyglotMaxPly ≤ controller.moves.length then none
      else
        let entries := getAllMovesFromFen R book (R.pseudoLegalFen controller.position)
        let legalMoves := playableMoves R controller.position entries
        (legalMoves[chooseWeightedIndex rng (legalMoves.map Prod.snd)]?).map Prod.fst

end EnCroissant

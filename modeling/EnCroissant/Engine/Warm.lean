import EnCroissant.Engine.Options
import EnCroissant.Library.Faulty

/-!
# The reused engine

One engine process that serves search after search.  The process keeps a belief,
the options it takes the engine to have, and a search writes only what differs
from it.  Every place where a start can be cancelled, or where its exchange with
the engine can fail, is a checkpoint: `faults` says at which of them a start fails.
-/

namespace EnCroissant.Engine

open Faulty

/-- What an engine process uses of the rules library, besides `GameRules`. -/
structure EngineRules extends GameRules where
  isChess960 : CastlingMode → Bool
  /-- The FEN sent to the engine, with its clocks clamped. -/
  wireFen : Chess → String
  /-- `UciMove::from_move`, as text. -/
  uciFromMove : Move → CastlingMode → String

section

variable (R : EngineRules)

structure CanonicalEnginePosition where
  fen : String
  moves : List String
  castlingMode : R.CastlingMode

/-- The castling mode and the position of a FEN. -/
def canonicalPosition (fen : String) : Except Error (R.CastlingMode × R.Chess) := do
  validateUciText "FEN" fen
  let setup ← parseFen R.toGameRules (String.ofList (List.intercalate [' '] (canonicalFields fen)))
  let position ← positionError R.toGameRules (R.fromSetup setup (R.detectCastlingMode setup))
  .ok (R.detectCastlingMode setup, position)

def normalizeMoves (castlingMode : R.CastlingMode) :
    R.Chess → List String → Except Error (List String)
  | _, [] => .ok []
  | position, uci :: rest => do
      let m ← parseMove R.toGameRules uci position
      let normalized ← normalizeMoves castlingMode (R.playUnchecked position m) rest
      .ok (R.uciFromMove m castlingMode :: normalized)

def canonicalizeEngineMoves (fen : String) (moves : List String) :
    Except Error (CanonicalEnginePosition R) :=
  Except.mapError Error.enginePositionRejected do
    let (castlingMode, position) ← canonicalPosition R fen
    let normalized ← normalizeMoves R castlingMode position moves
    .ok ⟨R.wireFen position, normalized, castlingMode⟩

end

/-! ## Writes -/

/-- A line written to the engine. -/
inductive EngineWrite where
  | setOption (name value : String)
  | position (fen : String) (moves : List String)
  deriving DecidableEq, Repr

namespace EngineWrite

def valueOf (name : String) : EngineWrite → Option String
  | setOption written value => if written = name then some value else none
  | position .. => none

def placed : EngineWrite → Option (String × List String)
  | setOption .. => none
  | position fen moves => some (fen, moves)

end EngineWrite

/-- The last value the engine received for an option. -/
def lastOption (sent : List EngineWrite) (name : String) : Option String :=
  sent.reverse.findSome? (EngineWrite.valueOf name)

/-- The last position the engine received. -/
def lastPosition (sent : List EngineWrite) : Option (String × List String) :=
  sent.reverse.findSome? EngineWrite.placed

/-! ## The process -/

/-- What a process keeps from its launch. -/
structure Launch where
  resolved : List ResolvedEngineOption
  defaults : String → Option String

/-- The belief, the lines written so far, and the checkpoints passed. -/
structure WarmEngine where
  options : EngineOptions
  sent : List EngineWrite
  checkpoints : ℕ
  deriving DecidableEq, Repr

/-- A launched process, of which nothing is known. -/
def WarmEngine.launched : WarmEngine := ⟨EngineOptions.default, [], 0⟩

namespace WarmEngine

def recordWrittenOption (option : EngineOption) (s : WarmEngine) : WarmEngine :=
  { s with options := { s.options with
      extraOptions := (s.options.extraOptions.filter fun previous ↦
        previous.name ≠ option.name) ++ [option] } }

def forgetOption (name : String) (s : WarmEngine) : WarmEngine :=
  { s with options := { s.options with
      extraOptions := s.options.extraOptions.filter fun previous ↦ previous.name ≠ name } }

def recordPosition (fen : String) (moves : List String) (s : WarmEngine) : WarmEngine :=
  { s with options := { s.options with fen, moves } }

def replaceOptions (options : EngineOptions) (s : WarmEngine) : WarmEngine := { s with options }

def write (line : EngineWrite) (s : WarmEngine) : WarmEngine :=
  { s with sent := s.sent ++ [line] }

def resourceOptions (options : List EngineOption) : List EngineOption :=
  (options.filter fun option ↦
    match option with
    | .resource .. => true
    | .string .. => false).mergeSort fun left right ↦ left.name ≤ right.name

def canReuse (launch : Launch) (s : WarmEngine) (options : EngineOptions) : Bool :=
  let previous := effectiveEngineOptions s.options.extraOptions
  let next := effectiveEngineOptions options.extraOptions
  let previousResources := resourceOptions previous
  let nextResources := resourceOptions next
  previousResources.length = nextResources.length &&
    ((previousResources.zip nextResources).all fun pair ↦ pair.1.hasSameValue pair.2) &&
    previous.all fun option ↦
      option.name = "UCI_Chess960" || (next.any fun other ↦ other.name = option.name) ||
        (launch.defaults option.name).isSome

end WarmEngine

abbrev WarmM := Faulty WarmEngine Error

variable (R : EngineRules) (launch : Launch) (faults : ℕ → Option Error)

def checkpoint : WarmM PUnit := do
  let s ← get
  modify fun s ↦ { s with checkpoints := s.checkpoints + 1 }
  match faults s.checkpoints with
  | some error => fail error
  | none => pure .unit

def setOption (name value : String) : WarmM PUnit := do
  ofExcept (validateUciText "option name" name)
  ofExcept (validateUciText "option value" value)
  checkpoint faults
  modify (WarmEngine.write (.setOption name value))

def setPosition (fen : String) (moves : List String) : WarmM PUnit := do
  let canonical ← ofExcept (canonicalizeEngineMoves R fen moves)
  checkpoint faults
  modify (WarmEngine.write (.position canonical.fen canonical.moves))
  modify (WarmEngine.recordPosition fen moves)

/-- An option that the next search does not name goes back to its default. -/
def restoreDefault (next : List EngineOption) (previous : EngineOption) : WarmM PUnit := do
  checkpoint faults
  if previous.name = "UCI_Chess960" then pure .unit
  else if next.any fun option ↦ option.name = previous.name then pure .unit
  else
    match launch.defaults previous.name with
    | none => fail (.conflict "engine option default unavailable")
    | some default => do
        setOption faults previous.name default
        modify (WarmEngine.forgetOption previous.name)

/-- The value of an option: its own, or that of the resources leased at the launch. -/
def leaseOption : EngineOption → Except Error ResolvedEngineOption
  | .string name value => .ok ⟨name, value, []⟩
  | .resource name _ =>
      match launch.resolved.find? fun resolved ↦ resolved.name = name with
      | some resolved => .ok resolved
      | none => .error (.conflict "engine resource option lease unavailable")

/-- `str::parse::<u16>`. -/
def parseU16 (text : String) : Option ℕ :=
  let digits := match text.toList with
    | '+' :: digits => digits
    | digits => digits
  if digits ≠ [] ∧ digits.all Char.isDigit then
    let value := digits.foldl (fun n c ↦ 10 * n + (c.toNat - 48)) 0
    if value < 2 ^ 16 then some value else none
  else none

def requestedMultiPv (resolved : List ResolvedEngineOption) : Except Error ℕ := do
  let multipv ← match resolved.find? fun option ↦ option.name = "MultiPV" with
    | none => .ok 1
    | some option =>
        match parseU16 option.value with
        | some multipv => .ok multipv
        | none => .error (.invalidInput "MultiPV must be a positive integer")
  if multipv = 0 then .error (.invalidInput "MultiPV must be at least one") else .ok multipv

def chess960Option (castlingMode : R.CastlingMode) : EngineOption :=
  .string "UCI_Chess960" (toString (R.isChess960 castlingMode))

/-- This flag follows the position. -/
def setChess960 (fenChanged : Bool) (castlingMode : R.CastlingMode) : WarmM PUnit := do
  let s ← get
  let chess960Changed := (lastNamed s.options.extraOptions "UCI_Chess960").any fun previous ↦
    !previous.hasSameValue (chess960Option R castlingMode)
  if fenChanged || chess960Changed then do
    setOption faults "UCI_Chess960" (toString (R.isChess960 castlingMode))
    modify (WarmEngine.recordWrittenOption (chess960Option R castlingMode))
  else pure .unit

def sendOption (effective : List EngineOption) (option : ResolvedEngineOption) : WarmM PUnit := do
  checkpoint faults
  let s ← get
  let current := named effective option.name
  let previous := lastNamed s.options.extraOptions option.name
  let same := match current, previous with
    | some current, some previous => current.hasSameValue previous
    | _, _ => false
  if !same && option.name ≠ "UCI_Chess960" then do
    setOption faults option.name option.value
    match current with
    | some current => modify (WarmEngine.recordWrittenOption current)
    | none => pure .unit
  else pure .unit

def updatePosition (fenChanged : Bool) (options : EngineOptions) : WarmM PUnit := do
  checkpoint faults
  let s ← get
  if fenChanged || options.moves ≠ s.options.moves then
    setPosition R faults options.fen options.moves
  else pure .unit

def setOptionsInner (options : EngineOptions) (resolved : List ResolvedEngineOption) :
    WarmM PUnit := do
  checkpoint faults
  let canonical ← ofExcept (canonicalizeEngineMoves R options.fen options.moves)
  let effective := effectiveEngineOptions options.extraOptions
  if resolved.length ≠ effective.length then
    fail (.conflict "resolved engine options do not match requested options")
  else do
    -- The resources are verified, and the search may be cancelled meanwhile.
    checkpoint faults
    checkpoint faults
    let s ← get
    let fenChanged : Bool := options.fen ≠ s.options.fen
    setChess960 R faults fenChanged canonical.castlingMode
    let _ ← ofExcept (requestedMultiPv resolved)
    each (sendOption faults effective) resolved
    updatePosition R faults fenChanged options
    -- The ready barrier, between two looks at the cancellation.
    checkpoint faults
    checkpoint faults
    checkpoint faults
    modify (WarmEngine.replaceOptions options)

/-- A start up to its `go`. -/
def start (options : EngineOptions) : WarmM PUnit := do
  checkpoint faults
  let next := effectiveEngineOptions options.extraOptions
  each (fun option ↦ ofExcept option.validate) next
  let s ← get
  each (restoreDefault launch faults next) (effectiveEngineOptions s.options.extraOptions)
  let resolved ← ofExcept (next.mapM (leaseOption launch))
  setOptionsInner R faults options resolved
  checkpoint faults

end EnCroissant.Engine

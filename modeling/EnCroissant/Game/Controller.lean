import Mathlib
import EnCroissant.Library.Tally
import EnCroissant.Error
import EnCroissant.Chess.Rules
import EnCroissant.Pgn.Scan
import EnCroissant.Integers

/-!
# The game controller

One game between two players: its moves, the position they lead to, the
repetition table, the clock, and the engine request in progress.  Operations
that change the controller in place and may fail return their result together
with the controller they leave behind.  Every reading of the clock is an
argument, in nanoseconds.
-/

namespace EnCroissant

/-! ## Machine integers -/

/-- `Instant::elapsed().as_millis() as u64`. -/
def elapsedMillis (lastTick now : ℕ) : ℕ := (now - lastTick) / 1000000 % 2 ^ 64

/-! ## The rules library -/

/-- What a game uses of the rules library, besides `Shakmaty`. -/
structure GameRules extends Shakmaty where
  UciMove : Type
  uciFromAscii : List UInt8 → Except String UciMove
  /-- `UciMove::to_move`, which refuses moves that are not legal. -/
  uciToMove : UciMove → Chess → Except String Move
  /-- `SanPlus::from_move_and_play_unchecked`, as text. -/
  sanPlus : Chess → Move → String
  /-- `Fen::from_position` under `EnPassantMode::Legal`, as text. -/
  fen : Chess → String
  halfmoves : Chess → ℕ
  isCheckmate : Chess → Bool
  isStalemate : Chess → Bool
  isInsufficientMaterial : Chess → Bool
  hasInsufficientMaterial : Chess → Color → Bool

def Color.other : Color → Color
  | .white => .black
  | .black => .white

def utf8Bytes (text : String) : List UInt8 := text.toUTF8.data.toList

section

variable (R : GameRules)

/-- `Fen::from_str`, into a setup. -/
def parseFen (fen : String) : Except Error R.Setup :=
  (R.fenFromAscii (utf8Bytes fen)).mapError Error.fen

def positionError {α : Type} : Except R.PositionError α → Except Error α :=
  Except.mapError fun e ↦ .chessPosition (R.positionErrorToString e)

def parseFenToPosition (fen : String) : Except Error R.Chess := do
  let setup ← parseFen R fen
  match R.fromSetup setup (R.detectCastlingMode setup) with
  | .ok position => .ok position
  | .error e => positionError R (R.ignoreTooMuchMaterial e)

def isControl (c : Char) : Bool :=
  let n := c.toNat
  n < 32 || (127 ≤ n && n < 160)

def validateUciText (field value : String) : Except Error Unit :=
  if value.toList = [] then .error (.invalidInput (field ++ " must not be empty"))
  else if value.toList.any isControl then
    .error (.invalidInput (field ++ " contains a UCI control character"))
  else .ok ()

/-- A negative decimal counter becomes `0`. -/
def clampCounter (field : List Char) : List Char :=
  match field with
  | '-' :: digits =>
      if digits ≠ [] ∧ digits.all (fun c ↦ '0' ≤ c && c ≤ '9') then ['0'] else field
  | _ => field

def canonicalFields (fen : String) : List (List Char) :=
  let fields := (fen.toList.splitOnP fun c ↦ c = ' ' || c = '_').filter (· ≠ [])
  let clocks := if (fields[4]?.any fun field ↦ '+' ∈ field) then 5 else 4
  (fields.modify clocks clampCounter).modify (clocks + 1) clampCounter

/-- The position of `canonicalize_engine_position` without moves. -/
def canonicalizeEnginePosition (fen : String) : Except Error R.Chess :=
  Except.mapError Error.enginePositionRejected do
    validateUciText "FEN" fen
    let setup ← parseFen R (String.ofList (List.intercalate [' '] (canonicalFields fen)))
    positionError R (R.fromSetup setup (R.detectCastlingMode setup))

/-- `UciMove::from_ascii` followed by `to_move`. -/
def parseMove (uci : String) (position : R.Chess) : Except Error Move := do
  let uci ← (R.uciFromAscii (utf8Bytes uci)).mapError Error.parseUciMove
  (R.uciToMove uci position).mapError Error.illegalUciMove

/-- The first four fields of the position's FEN. -/
def positionKey (position : R.Chess) : String :=
  let words := ((R.fen position).toList.splitOnP isWhitespace).filter (· ≠ [])
  String.ofList (List.intercalate [' '] (words.take 4))

end

/-! ## States -/

inductive GameInterruptionReason where
  | engineFailure
  | engineTaskFailed
  deriving DecidableEq, Repr

inductive GameEndReason where
  | checkmate
  | timeout
  | resignation
  | abandonment
  deriving DecidableEq, Repr

inductive DrawReason where
  | stalemate
  | insufficientMaterial
  | threefoldRepetition
  | fiftyMoveRule
  | agreement
  deriving DecidableEq, Repr

inductive GameResult where
  | whiteWins (reason : GameEndReason)
  | blackWins (reason : GameEndReason)
  | draw (reason : DrawReason)
  | interrupted (reason : GameInterruptionReason)
  deriving DecidableEq, Repr

inductive GameStatus where
  | playing
  | finished (result : GameResult)
  deriving DecidableEq, Repr

structure GameMove where
  uci : String
  san : String
  fenAfter : String
  clock : Option ℕ
  whiteTime : Option ℕ
  blackTime : Option ℕ
  deriving DecidableEq, Repr

inductive PlayerConfig where
  | human (name : String)
  | engine (name : String)
  deriving DecidableEq, Repr

namespace PlayerConfig

def isEngine : PlayerConfig → Bool
  | human _ => false
  | engine _ => true

def name : PlayerConfig → String
  | human name => name
  | engine name => name

end PlayerConfig

structure TimeControl where
  initialTime : ℕ
  increment : ℕ
  deriving DecidableEq, Repr

structure GameConfig where
  white : PlayerConfig
  black : PlayerConfig
  whiteTimeControl : Option TimeControl
  blackTimeControl : Option TimeControl
  initialFen : Option String
  initialMoves : List String
  deriving DecidableEq, Repr

structure ClockState where
  whiteTime : Option ℕ
  blackTime : Option ℕ
  whiteIncrement : ℕ
  blackIncrement : ℕ
  lastTick : ℕ
  deriving DecidableEq, Repr

def ClockState.setTimes (clock : ClockState) (times : Option ℕ × Option ℕ) : ClockState :=
  { clock with whiteTime := times.1, blackTime := times.2 }

structure EngineRequestContext where
  session : ℕ
  positionGeneration : ℕ
  nonce : ℕ
  /-- The number of the request's cancellation token. -/
  cancellation : ℕ
  deriving DecidableEq, Repr

structure ActiveEngineRequest where
  context : EngineRequestContext
  requestId : Option ℕ
  deriving DecidableEq, Repr

structure GameState where
  gameId : String
  session : ℕ
  revision : ℕ
  status : GameStatus
  initialFen : String
  moves : List GameMove
  currentFen : String
  ply : ℕ
  turn : String
  whiteTime : Option ℕ
  blackTime : Option ℕ
  whitePlayer : String
  blackPlayer : String
  deriving DecidableEq, Repr

structure GameController (R : GameRules) where
  gameId : String
  session : ℕ
  revision : ℕ
  positionGeneration : ℕ
  nextEngineRequest : ℕ
  config : GameConfig
  initialFen : String
  rootPosition : R.Chess
  moves : List GameMove
  position : R.Chess
  positionHistory : Tally String
  status : GameStatus
  terminalAttemptClaimed : Bool
  clock : Option ClockState
  engineThinking : Bool
  activeEngineRequest : Option ActiveEngineRequest
  /-- How many cancellation tokens were created for this game. -/
  tokens : ℕ
  /-- The tokens that were cancelled. -/
  cancelled : List ℕ

def maxEngineLimit : ℕ := 24 * 60 * 60 * 1000

def validateTimeControls (config : GameConfig) : Except Error Unit :=
  match config.whiteTimeControl, config.blackTimeControl with
  | none, none => .ok ()
  | some white, some black =>
      let named := [("white initial time", white.initialTime),
        ("black initial time", black.initialTime), ("white increment", white.increment),
        ("black increment", black.increment)]
      match named.find? fun entry ↦ maxEngineLimit < entry.2 with
      | some entry =>
          .error (.invalidInput
            (entry.1 ++ " must not exceed " ++ maxEngineLimit.repr ++ " milliseconds"))
      | none =>
          if white.initialTime = 0 ∧ black.initialTime = 0 then
            .error (.invalidInput "at least one player clock must be non-zero")
          else .ok ()
  | _, _ => .error (.invalidInput "both players must provide a time control")

/-! ## Operations -/

namespace GameController

variable {R : GameRules}

def currentTimes (c : GameController R) (now : ℕ) : Option ℕ × Option ℕ :=
  match c.clock with
  | none => (none, none)
  | some clock =>
      if c.status ≠ .playing then (clock.whiteTime, clock.blackTime)
      else
        let elapsed := elapsedMillis clock.lastTick now
        match R.turn c.position with
        | .white => (clock.whiteTime.map (· - elapsed), clock.blackTime)
        | .black => (clock.whiteTime, clock.blackTime.map (· - elapsed))

def getState (c : GameController R) (now : ℕ) : GameState where
  gameId := c.gameId
  session := c.session
  revision := c.revision
  status := c.status
  initialFen := c.initialFen
  moves := c.moves
  currentFen := R.fen c.position
  ply := c.moves.length % 2 ^ 32
  turn := if R.turn c.position = .white then "white" else "black"
  whiteTime := (c.currentTimes now).1
  blackTime := (c.currentTimes now).2
  whitePlayer := c.config.white.name
  blackPlayer := c.config.black.name

def currentTurnPlayer (c : GameController R) : PlayerConfig :=
  if R.turn c.position = .white then c.config.white else c.config.black

def isEngineTurn (c : GameController R) : Bool := c.currentTurnPlayer.isEngine

def cancelEngineRequest (c : GameController R) : GameController R :=
  { c with
    cancelled := (c.activeEngineRequest.map (·.context.cancellation)).toList ++ c.cancelled
    activeEngineRequest := none
    engineThinking := false }

def advancePositionGeneration (c : GameController R) : GameController R :=
  { c with positionGeneration := saturatingAdd c.positionGeneration 1 }.cancelEngineRequest

def bumpRevision (c : GameController R) : GameController R :=
  { c with revision := saturatingAdd c.revision 1 }

def moveEventRevision (c : GameController R) : ℕ :=
  match c.status with
  | .finished _ => c.revision - 1
  | .playing => c.revision

def beginEngineRequest (c : GameController R) :
    Option EngineRequestContext × GameController R :=
  if c.status ≠ .playing ∨ c.isEngineTurn = false ∨ c.engineThinking = true then (none, c)
  else
    let context : EngineRequestContext :=
      { session := c.session
        positionGeneration := c.positionGeneration
        nonce := saturatingAdd c.nextEngineRequest 1
        cancellation := c.tokens }
    (some context,
      { c with
        nextEngineRequest := saturatingAdd c.nextEngineRequest 1
        engineThinking := true
        activeEngineRequest := some ⟨context, none⟩
        tokens := c.tokens + 1 })

/-- The comparison of a request with the active one. -/
def matchesActive (c : GameController R) (active : ActiveEngineRequest)
    (context : EngineRequestContext) : Prop :=
  active.context.nonce = context.nonce ∧ active.context.session = context.session ∧
    active.context.positionGeneration = context.positionGeneration ∧
      active.context.cancellation ∉ c.cancelled

instance (c : GameController R) (active : ActiveEngineRequest)
    (context : EngineRequestContext) : Decidable (c.matchesActive active context) :=
  inferInstanceAs (Decidable (_ ∧ _ ∧ _ ∧ _))

def registerEngineRequestId (c : GameController R) (context : EngineRequestContext)
    (requestId : ℕ) : Bool × GameController R :=
  match c.activeEngineRequest with
  | none => (false, c)
  | some active =>
      if c.matchesActive active context then
        (true, { c with activeEngineRequest := some { active with requestId := some requestId } })
      else (false, c)

def acceptsEngineContext (c : GameController R) (context : EngineRequestContext) : Bool :=
  c.status = .playing && c.session = context.session &&
    c.positionGeneration = context.positionGeneration &&
      c.activeEngineRequest.any fun active ↦ c.matchesActive active context

def acceptsEngineResult (c : GameController R) (context : EngineRequestContext)
    (requestId : ℕ) : Bool :=
  c.status = .playing && c.session = context.session &&
    c.positionGeneration = context.positionGeneration &&
      c.activeEngineRequest.any fun active ↦
        c.matchesActive active context && active.requestId = some requestId

def endGame (c : GameController R) (result : GameResult) (now : ℕ) : Bool × GameController R :=
  if c.status ≠ .playing then (false, c)
  else
    let times := c.currentTimes now
    let c := { c with
      clock := c.clock.map fun clock : ClockState ↦ clock.setTimes times
      status := .finished result }
    (true, { c.advancePositionGeneration with terminalAttemptClaimed := false }.bumpRevision)

/-- The result that the current position calls for, if any. -/
def positionResult (c : GameController R) : Option GameResult :=
  if R.isCheckmate c.position then
    some (if R.turn c.position = .white then .blackWins .checkmate else .whiteWins .checkmate)
  else if R.isStalemate c.position then some (.draw .stalemate)
  else if R.isInsufficientMaterial c.position then some (.draw .insufficientMaterial)
  else if 100 ≤ R.halfmoves c.position then some (.draw .fiftyMoveRule)
  else
    ((c.positionHistory.lookup (positionKey R c.position)).filter (3 ≤ ·)).map
      fun _ ↦ .draw .threefoldRepetition

def checkGameEnd (c : GameController R) (now : ℕ) : GameController R :=
  match c.positionResult with
  | some result => (c.endGame result now).2
  | none => c

/-- Debits the side to move; a fallen flag draws when the opponent cannot mate. -/
def settleActiveClock (c : GameController R) (now : ℕ) :
    Option GameResult × GameController R :=
  match c.clock with
  | none => (none, c)
  | some clock =>
      let elapsed := elapsedMillis clock.lastTick now
      let flagged := R.turn c.position
      let active := if flagged = .white then clock.whiteTime else clock.blackTime
      let store (remaining : ℕ) : GameController R :=
        { c with clock := some (if flagged = .white
            then { clock with whiteTime := some remaining, lastTick := now }
            else { clock with blackTime := some remaining, lastTick := now }) }
      match active with
      | none => (none, { c with clock := some { clock with lastTick := now } })
      | some remaining =>
          if remaining ≤ elapsed then
            let winner := flagged.other
            (some (if R.hasInsufficientMaterial c.position winner then
                .draw .insufficientMaterial
              else if winner = .white then .whiteWins .timeout else .blackWins .timeout),
              store 0)
          else (none, store (remaining - elapsed))

/-- The position after a move, counted in the repetition table. -/
def pushPosition (c : GameController R) (mv : Move) : GameController R :=
  let position := R.playUnchecked c.position mv
  { c with
    position := position
    positionHistory := c.positionHistory.add (positionKey R position) }

/-- Credits the side that has just moved. -/
def creditMover (c : GameController R) (now : ℕ) : GameController R :=
  { c with clock := c.clock.map fun clock ↦
      if R.turn c.position = .black then
        { clock with
          whiteTime := clock.whiteTime.map (saturatingAdd · clock.whiteIncrement)
          lastTick := now }
      else
        { clock with
          blackTime := clock.blackTime.map (saturatingAdd · clock.blackIncrement)
          lastTick := now } }

/-- The record of a move that led to the current position. -/
def recordMove (c : GameController R) (uci san : String) (clock : Option ℕ) : GameMove where
  uci := uci
  san := san
  fenAfter := R.fen c.position
  clock := clock
  whiteTime := c.clock.bind (·.whiteTime)
  blackTime := c.clock.bind (·.blackTime)

def moverTime (c : GameController R) : Option ℕ :=
  c.clock.bind fun clock ↦ if R.turn c.position = .white then clock.whiteTime else clock.blackTime

/-- The legal move of `apply_move`, before the check for the end of the game. -/
def playMove (c : GameController R) (uci : String) (mv : Move) (now : ℕ) :
    GameMove × GameController R :=
  let played := ((c.pushPosition mv).advancePositionGeneration).creditMover now
  let gameMove := played.recordMove uci (R.sanPlus c.position mv) c.moverTime
  (gameMove, { played with moves := played.moves ++ [gameMove] }.bumpRevision)

def applyMove (c : GameController R) (uci : String) (now : ℕ) :
    Except Error GameMove × GameController R :=
  if c.status ≠ .playing then (.error .gameNotInProgress, c)
  else
    match c.settleActiveClock now with
    | (some result, c) => (.error .gameNotInProgress, (c.endGame result now).2)
    | (none, c) =>
        match parseMove R uci c.position with
        | .error e => (.error e, c)
        | .ok mv => (.ok (c.playMove uci mv now).1, (c.playMove uci mv now).2.checkGameEnd now)

/-- The legal move of `apply_move_no_clock`, before the same check. -/
def playMoveNoClock (c : GameController R) (uci : String) (mv : Move) :
    GameMove × GameController R :=
  let played := (c.pushPosition mv).advancePositionGeneration
  let gameMove := played.recordMove uci (R.sanPlus c.position mv) none
  (gameMove, { played with moves := played.moves ++ [gameMove] })

def applyMoveNoClock (c : GameController R) (uci : String) (now : ℕ) :
    Except Error GameMove × GameController R :=
  match parseMove R uci c.position with
  | .error e => (.error e, c)
  | .ok mv => (.ok (c.playMoveNoClock uci mv).1, (c.playMoveNoClock uci mv).2.checkGameEnd now)

/-- Plays recorded moves on the position. -/
def replayMoves (c : GameController R) : List GameMove → Except Error Unit × GameController R
  | [] => (.ok (), c)
  | m :: ms =>
      match parseMove R m.uci c.position with
      | .error e => (.error e, c)
      | .ok mv => replayMoves (c.pushPosition mv) ms

/-- The clock as it was after the last of the moves. -/
def resetTimes (c : GameController R) (now : ℕ) : GameController R :=
  { c with clock := c.clock.map fun clock ↦
      let initial := (c.config.whiteTimeControl.map (·.initialTime),
        c.config.blackTimeControl.map (·.initialTime))
      let times :=
        match c.moves.getLast? with
        | some last =>
            if last.whiteTime.isSome ∨ last.blackTime.isSome then (last.whiteTime, last.blackTime)
            else initial
        | none => initial
      { clock.setTimes times with lastTick := now } }

def rebuildPositionFromMoves (c : GameController R) (now : ℕ) :
    Except Error Unit × GameController R :=
  let root := { c with
    position := c.rootPosition
    positionHistory := (∅ : Tally String).insert (positionKey R c.rootPosition) 1 }
  match root.replayMoves c.moves with
  | (.error e, c) => (.error e, c)
  | (.ok (), c) => (.ok (), c.resetTimes now)

/-- Pops moves, as often as `Vec::pop` is called. -/
def popMoves : ℕ → List GameMove → List GameMove
  | 0, moves => moves
  | count + 1, moves => popMoves count moves.dropLast

def takeBackMoves (c : GameController R) (count now : ℕ) :
    Except Error Unit × GameController R :=
  let c := c.cancelEngineRequest
  let c := { c with moves := popMoves count c.moves, status := .playing }
  match c.rebuildPositionFromMoves now with
  | (.error e, c) => (.error e, c)
  | (.ok (), c) => (.ok (), (c.advancePositionGeneration.bumpRevision).checkGameEnd now)

/-- Plays the moves a game starts with. -/
def playInitialMoves (c : GameController R) (now : ℕ) :
    List String → Except Error (GameController R)
  | [] => .ok c
  | uci :: ucis =>
      if c.status ≠ .playing then
        .error (.invalidInput "initial moves continue after a terminal position")
      else
        match c.applyMoveNoClock uci now with
        | (.error e, _) => .error e
        | (.ok _, c) => playInitialMoves c now ucis

def initialClock (config : GameConfig) (now : ℕ) : Option ClockState :=
  if config.whiteTimeControl.isSome ∨ config.blackTimeControl.isSome then
    some
      { whiteTime := config.whiteTimeControl.map (·.initialTime)
        blackTime := config.blackTimeControl.map (·.initialTime)
        whiteIncrement := (config.whiteTimeControl.map (·.increment)).getD 0
        blackIncrement := (config.blackTimeControl.map (·.increment)).getD 0
        lastTick := now }
  else none

/-- A controller before its first move. -/
def fresh (gameId : String) (session : ℕ) (config : GameConfig) (initialFen : String)
    (position : R.Chess) (now : ℕ) : GameController R where
  gameId := gameId
  session := session
  revision := 0
  positionGeneration := 0
  nextEngineRequest := 0
  config := config
  initialFen := initialFen
  rootPosition := position
  moves := []
  position := position
  positionHistory := (∅ : Tally String).insert (positionKey R position) 1
  status := .playing
  terminalAttemptClaimed := false
  clock := initialClock config now
  engineThinking := false
  activeEngineRequest := none
  tokens := 0
  cancelled := []

def standardFen : String := "rnbqkbnr/pppppppp/8/8/8/8/PPPPPPPP/RNBQKBNR w KQkq - 0 1"

/-- A game with an engine starts from a position that the engine is sent too. -/
def initialPosition (R : GameRules) (config : GameConfig) (fen : String) :
    Except Error R.Chess :=
  if config.white.isEngine || config.black.isEngine then canonicalizeEnginePosition R fen
  else parseFenToPosition R fen

/-- `GameController::new`. -/
def create (R : GameRules) (gameId : String) (session : ℕ) (config : GameConfig) (now : ℕ) :
    Except Error (GameController R) := do
  validateTimeControls config
  let initialFen := config.initialFen.getD standardFen
  let position ← initialPosition R config initialFen
  let c := fresh gameId session config initialFen position now
  (c.checkGameEnd now).playInitialMoves now config.initialMoves

def resetClock (c : GameController R) (now : ℕ) : GameController R :=
  { c with clock := c.clock.map fun clock ↦ { clock with lastTick := now } }

end GameController

/-! ## A small instance

The pawn ending of the rules as a game of an engine with White. -/

namespace PawnEnding

def fen : Position → String
  | .initial => GameController.standardFen
  | .start => "8/8/8/8/8/8/2k4P/K7 w - - 0 1"
  | .kingA2 => "8/8/8/8/8/8/K1k4P/8 b - - 1 1"
  | .pawnH3 => "8/8/8/8/8/7P/2k5/K7 b - - 0 1"
  | .pawnH4 => "8/8/8/8/7P/8/2k5/K7 b - - 0 1"

def uciMoves : List (String × Move) := [("h2h3", h3), ("h2h4", h4), ("a1a2", a2)]

def uciToMove (uci : String) (p : Position) : Except String Move :=
  match uciMoves.lookup uci with
  | some mv => if mv ∈ legalMoves p then .ok mv else .error "illegal uci move"
  | none => .error "illegal uci move"

abbrev rules : GameRules where
  toShakmaty := library
  UciMove := String
  uciFromAscii := fun bs ↦
    match uciMoves.find? fun entry ↦ utf8Bytes entry.1 = bs with
    | some entry => .ok entry.1
    | none => .error "invalid uci"
  uciToMove := uciToMove
  sanPlus := sanFromMove
  fen := fen
  halfmoves := fun p ↦ if p = .kingA2 then 1 else 0
  isCheckmate := fun _ ↦ false
  isStalemate := fun _ ↦ false
  isInsufficientMaterial := fun _ ↦ false
  hasInsufficientMaterial := fun p color ↦ p ≠ .initial ∧ color = .black

def config : GameConfig where
  white := .engine "Engine"
  black := .human "Human"
  whiteTimeControl := none
  blackTimeControl := none
  initialFen := some (fen .start)
  initialMoves := []

/-- The controller of a new game. -/
def controller : GameController rules :=
  .fresh "game" 1 config (fen .start) .start 0

theorem parseMove_h4 : parseMove rules "h2h4" .start = .ok h4 := by
  rfl

theorem initialPosition_config :
    GameController.initialPosition rules config (fen .start) = .ok .start := by
  rfl

end PawnEnding

end EnCroissant

import Mathlib
import EnCroissant.Game.Requests

/-!
# A game session

The manager's commands, the game loop and the engine tasks on one session, with
the events they emit.  Each of them keeps the reported state, or moves the game
on by one revision, or finishes it and reports the end; so the end comes last and
only once.
-/

namespace EnCroissant

/-! ## Events -/

structure GameMoveEvent where
  gameId : String
  session : ℕ
  revision : ℕ
  moves : List GameMove
  fen : String
  whiteTime : Option ℕ
  blackTime : Option ℕ
  deriving DecidableEq, Repr

structure ClockUpdateEvent where
  gameId : String
  session : ℕ
  revision : ℕ
  whiteTime : Option ℕ
  blackTime : Option ℕ
  deriving DecidableEq, Repr

structure GameOverEvent where
  gameId : String
  session : ℕ
  revision : ℕ
  result : GameResult
  moves : List GameMove
  deriving DecidableEq, Repr

inductive GameEvent where
  | move (event : GameMoveEvent)
  | clock (event : ClockUpdateEvent)
  | gameOver (event : GameOverEvent)
  deriving DecidableEq, Repr

namespace GameEvent

def revision : GameEvent → ℕ
  | move event => event.revision
  | clock event => event.revision
  | gameOver event => event.revision

def isGameOver : GameEvent → Bool
  | gameOver _ => true
  | _ => false

end GameEvent

structure GameSession (R : GameRules) where
  controller : GameController R
  /-- The manager holds the session. -/
  live : Bool
  /-- The events whose emission was attempted, in order. -/
  events : List GameEvent

namespace GameSession

variable {R : GameRules}

/-! ## Operations -/

def emitMove (s : GameSession R) (fen : String) (now : ℕ) : GameSession R :=
  let c := s.controller
  { s with events := s.events ++ [.move
      { gameId := c.gameId
        session := c.session
        revision := c.moveEventRevision
        moves := c.moves
        fen := fen
        whiteTime := (c.currentTimes now).1
        blackTime := (c.currentTimes now).2 }] }

def overEvent (s : GameSession R) (result : GameResult) : GameOverEvent where
  gameId := s.controller.gameId
  session := s.controller.session
  revision := s.controller.revision
  result := result
  moves := s.controller.moves

/-- The end of the game is reported by the first to claim the attempt. -/
def attemptTerminalEvent (s : GameSession R) : GameSession R :=
  match s.controller.status with
  | .playing => s
  | .finished result =>
      if s.controller.terminalAttemptClaimed then s
      else
        { s with
          controller := { s.controller with terminalAttemptClaimed := true }
          events := s.events ++ [.gameOver (s.overEvent result)] }

/-- `current_session`: the manager holds the session the command names. -/
def currentSession (s : GameSession R) (expectedSession : ℕ) : Except Error Unit :=
  if s.live = false then .error (.gameNotFound s.controller.gameId)
  else if s.controller.session ≠ expectedSession then
    .error (.conflict "game session is no longer current")
  else .ok ()

/-- A move of a player or an engine, and the events that report it. -/
def playMove (s : GameSession R) (uci : String) (now : ℕ) :
    Except Error GameState × GameSession R :=
  match s.controller.applyMove uci now with
  | (.ok gameMove, c) =>
      let s := (({ s with controller := c } : GameSession R).emitMove gameMove.fenAfter
        now).attemptTerminalEvent
      (.ok (s.controller.getState now), s)
  | (.error e, c) =>
      if c.status = .playing then (.error e, { s with controller := c })
      else
        let s := ({ s with controller := c } : GameSession R).attemptTerminalEvent
        (.ok (s.controller.getState now), s)

def makeMove (s : GameSession R) (expectedSession : ℕ) (uci : String) (expectedPly now : ℕ) :
    Except Error GameState × GameSession R :=
  match s.currentSession expectedSession with
  | .error e => (.error e, s)
  | .ok () =>
      if s.controller.isEngineTurn then (.error .notHumanTurn, s)
      else if s.controller.moves.length ≠ expectedPly then
        (.error (.conflict "game position changed before move commit"), s)
      else s.playMove uci now

/-- How many half-moves a take-back undoes: against an engine, back to the
human's move. -/
def takeBackCount (s : GameSession R) : ℕ :=
  let humanColor : Option Color :=
    match s.controller.config.white, s.controller.config.black with
    | .human _, .engine _ => some .white
    | .engine _, .human _ => some .black
    | _, _ => none
  if humanColor = some (R.turn s.controller.position) then 2 else 1

def takeBackMove (s : GameSession R) (expectedSession now : ℕ) :
    Except Error GameState × GameSession R :=
  match s.currentSession expectedSession with
  | .error e => (.error e, s)
  | .ok () =>
      if s.controller.status ≠ .playing then (.error .gameNotInProgress, s)
      else if s.controller.moves = [] then (.error .noMovesFound, s)
      else
        match s.controller.takeBackMoves s.takeBackCount now with
        | (.error e, c) => (.error e, { s with controller := c })
        | (.ok (), c) =>
            let s := (({ s with controller := c } : GameSession R).emitMove (R.fen c.position)
              now).attemptTerminalEvent
            (.ok (s.controller.getState now), s)

def resignResult (color : String) : Option GameResult :=
  if color = "white" then some (resignation .white)
  else if color = "black" then some (resignation .black)
  else none

def resign (s : GameSession R) (expectedSession : ℕ) (color : String) (now : ℕ) :
    Except Error GameState × GameSession R :=
  match s.currentSession expectedSession with
  | .error e => (.error e, s)
  | .ok () =>
      if s.controller.status ≠ .playing then (.error .gameNotInProgress, s)
      else
        match resignResult color with
        | none => (.error (.invalidColor color), s)
        | some result =>
            let s := ({ s with controller := (s.controller.endGame result now).2 } :
              GameSession R).attemptTerminalEvent
            (.ok (s.controller.getState now), s)

/-- The session leaves the manager and its loop is told to stop. -/
def retire (s : GameSession R) : GameSession R :=
  { s with controller := s.controller.cancelEngineRequest, live := false }

def abort (s : GameSession R) (expectedSession : ℕ) : Except Error Unit × GameSession R :=
  match s.currentSession expectedSession with
  | .error e => (.error e, s)
  | .ok () => (.ok (), s.retire)

def clockTick (s : GameSession R) (now : ℕ) : GameSession R :=
  let ticked : GameSession R := { s with controller := s.controller.clockTick now }
  if s.controller.status ≠ .playing then s
  else if ticked.controller.status ≠ .playing then ticked.attemptTerminalEvent
  else
    { ticked with events := s.events ++ [.clock
        { gameId := ticked.controller.gameId
          session := ticked.controller.session
          revision := ticked.controller.revision
          whiteTime := (ticked.controller.currentTimes now).1
          blackTime := (ticked.controller.currentTimes now).2 }] }

/-- The end of `request_engine_move`. -/
def commitEngineMove (s : GameSession R) (context : EngineRequestContext)
    (requestId : Option ℕ) (turn : Color) (uci : String) (now : ℕ) : GameSession R :=
  if (s.currentSession context.session).isOk = false ∨
      s.controller.accepts context requestId = false ∨ R.turn s.controller.position ≠ turn then s
  else (s.playMove uci now).2

def failEngine (s : GameSession R) (reason : GameInterruptionReason) (now : ℕ) :
    GameSession R :=
  ({ s with controller := s.controller.failEngine reason now } :
    GameSession R).attemptTerminalEvent

/-- A published session; a game that starts in a terminal position reports its
end at once. -/
def publish (c : GameController R) (now : ℕ) : GameSession R :=
  ({ controller := c.resetClock now, live := true, events := [] } :
    GameSession R).attemptTerminalEvent

end GameSession

inductive SessionAction where
  | makeMove (expectedSession : ℕ) (uci : String) (expectedPly : ℕ)
  | takeBackMove (expectedSession : ℕ)
  | resign (expectedSession : ℕ) (color : String)
  | abort (expectedSession : ℕ)
  | clockTick
  | beginRequest
  | register (context : EngineRequestContext) (requestId : ℕ)
  | reply (context : EngineRequestContext) (requestId : Option ℕ) (turn : Color) (uci : String)
  | engineFailed (reason : GameInterruptionReason)
  /-- The loop has ended and the manager keeps a snapshot. -/
  | complete
  /-- The session is replaced, or the application shuts down. -/
  | shutdown
  deriving DecidableEq, Repr

def GameSession.act {R : GameRules} (s : GameSession R) (now : ℕ) :
    SessionAction → GameSession R
  | .makeMove expectedSession uci expectedPly => (s.makeMove expectedSession uci expectedPly now).2
  | .takeBackMove expectedSession => (s.takeBackMove expectedSession now).2
  | .resign expectedSession color => (s.resign expectedSession color now).2
  | .abort expectedSession => (s.abort expectedSession).2
  | .clockTick => s.clockTick now
  | .beginRequest => { s with controller := s.controller.beginEngineRequest.2 }
  | .register context requestId =>
      { s with controller := (s.controller.registerEngineRequestId context requestId).2 }
  | .reply context requestId turn uci => s.commitEngineMove context requestId turn uci now
  | .engineFailed reason => s.failEngine reason now
  | .complete => { s with live := false }
  | .shutdown => s.retire

def sessionMachine (R : GameRules) : Machine (GameSession R) (SessionAction × ℕ) where
  init s := ∃ gameId session config built published c,
    GameController.create R gameId session config built = .ok c ∧
      s = GameSession.publish c published
  step s a s' := s' = s.act a.2 a.1

end EnCroissant

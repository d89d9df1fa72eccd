import Mathlib
import EnCroissant.Library.Machine
import EnCroissant.Game.Controller

/-!
# Runs of a game controller

What the game loop, the engine tasks and the commands do to one controller, in
any order.  An operation either leaves the line that was played alone, or adds a
legal move to it, or cuts it back; this file says so once for each operation.
-/

namespace EnCroissant

namespace GameController

variable {R : GameRules}

/-! ## Actions -/

/-- A move found for a request is played if the controller still accepts the
answer; a book move has no request number. -/
def accepts (c : GameController R) (context : EngineRequestContext) :
    Option ℕ → Bool
  | none => c.acceptsEngineContext context
  | some requestId => c.acceptsEngineResult context requestId

def commitEngineMove (c : GameController R) (context : EngineRequestContext)
    (requestId : Option ℕ) (turn : Color) (uci : String) (now : ℕ) :
    Option (Except Error GameMove) × GameController R :=
  if c.accepts context requestId = false ∨ R.turn c.position ≠ turn then (none, c)
  else
    let r := c.applyMove uci now
    (some r.1, r.2)

/-- The clock tick of the game loop. -/
def clockTick (c : GameController R) (now : ℕ) : GameController R :=
  if c.status ≠ .playing then c
  else
    match c.settleActiveClock now with
    | (some result, c) => (c.endGame result now).2
    | (none, c) => c.bumpRevision

/-- The game loop's answer to an engine task that failed and was not cancelled. -/
def failEngine (c : GameController R) (reason : GameInterruptionReason) (now : ℕ) :
    GameController R :=
  ({ c with engineThinking := false }.endGame (.interrupted reason) now).2

end GameController

inductive ControllerAction where
  | move (uci : String)
  | takeBack (count : ℕ)
  /-- A player resigns. -/
  | resign (color : Color)
  | clockTick
  | engineFailed (reason : GameInterruptionReason)
  | beginRequest
  | register (context : EngineRequestContext) (requestId : ℕ)
  | reply (context : EngineRequestContext) (requestId : Option ℕ) (turn : Color) (uci : String)
  /-- The session is shut down. -/
  | cancel
  deriving DecidableEq, Repr

def resignation : Color → GameResult
  | .white => .blackWins .resignation
  | .black => .whiteWins .resignation

/-- An action of the controller, at an instant. -/
def GameController.act {R : GameRules} (c : GameController R) (now : ℕ) :
    ControllerAction → GameController R
  | .move uci => (c.applyMove uci now).2
  | .takeBack count => (c.takeBackMoves count now).2
  | .resign color => (c.endGame (resignation color) now).2
  | .clockTick => c.clockTick now
  | .engineFailed reason => c.failEngine reason now
  | .beginRequest => c.beginEngineRequest.2
  | .register context requestId => (c.registerEngineRequestId context requestId).2
  | .reply context requestId turn uci => (c.commitEngineMove context requestId turn uci now).2
  | .cancel => c.cancelEngineRequest

/-- A controller starts as built, its clock started once more when the session
is published. -/
def controllerMachine (R : GameRules) :
    Machine (GameController R) (ControllerAction × ℕ) where
  init c := ∃ gameId session config built published c₀,
    GameController.create R gameId session config built = .ok c₀ ∧ c = c₀.resetClock published
  step c a c' := c' = c.act a.2 a.1

namespace GameController

variable {R : GameRules} {c c' : GameController R} {now : ℕ}

/-! ## The line that was played -/

/-- The start of the game, its moves, and what they lead to. -/
structure Line (R : GameRules) where
  rootPosition : R.Chess
  moves : List GameMove
  position : R.Chess
  positionHistory : Tally String

def line (c : GameController R) : Line R :=
  ⟨c.rootPosition, c.moves, c.position, c.positionHistory⟩

theorem line_ext (h : c.line = c'.line) :
    c.rootPosition = c'.rootPosition ∧ c.moves = c'.moves ∧ c.position = c'.position ∧
      c.positionHistory = c'.positionHistory := by
  simpa only [line, Line.mk.injEq] using h

theorem settled_eq {result : Option GameResult} {settled : GameController R}
    (h : c.settleActiveClock now = (result, settled)) :
    ∃ clock, settled = { c with clock := clock } := by
  have hsettle : ∃ clock, (c.settleActiveClock now).2 = { c with clock := clock } := by
    unfold settleActiveClock
    cases hclock : c.clock with
    | none => exact ⟨c.clock, rfl⟩
    | some clock =>
        simp only
        split
        · exact ⟨_, rfl⟩
        · split
          · exact ⟨_, rfl⟩
          · exact ⟨_, rfl⟩
  rwa [h] at hsettle

theorem endGame_of_ne {result : GameResult} (h : c.status ≠ .playing) :
    c.endGame result now = (false, c) := by
  rw [endGame, if_pos h]

/-- What the end of a game changes. -/
theorem endGame_of_playing {result : GameResult} (h : c.status = .playing) :
    c.endGame result now = (true,
      { c with
        clock := c.clock.map fun clock : ClockState ↦ clock.setTimes (c.currentTimes now)
        status := .finished result
        positionGeneration := saturatingAdd c.positionGeneration 1
        cancelled := (c.activeEngineRequest.map (·.context.cancellation)).toList ++ c.cancelled
        activeEngineRequest := none
        engineThinking := false
        terminalAttemptClaimed := false
        revision := saturatingAdd c.revision 1 }) := by
  rw [endGame, if_neg (by simp [h])]
  rfl

@[simp] theorem line_endGame (result : GameResult) : (c.endGame result now).2.line = c.line := by
  by_cases h : c.status = .playing
  · rw [endGame_of_playing h]
    rfl
  · rw [endGame_of_ne h]

theorem endGame_status (result : GameResult) : (c.endGame result now).2.status ≠ .playing := by
  by_cases h : c.status = .playing
  · rw [endGame_of_playing h]
    simp
  · rwa [endGame_of_ne h]

@[simp] theorem line_checkGameEnd : (c.checkGameEnd now).line = c.line := by
  unfold checkGameEnd
  split
  · exact line_endGame _
  · rfl

/-- A game goes on after the check only if nothing calls for its end. -/
theorem checkGameEnd_playing (h : (c.checkGameEnd now).status = .playing) :
    c.positionResult = none ∧ c.checkGameEnd now = c := by
  unfold checkGameEnd at h ⊢
  cases hresult : c.positionResult with
  | none => exact ⟨rfl, rfl⟩
  | some result =>
      rw [hresult] at h
      exact absurd h (endGame_status result)

theorem positionResult_none (h : c.positionResult = none) :
    (c.positionHistory.lookup (positionKey R c.position)).filter (3 ≤ ·) = none := by
  unfold positionResult at h
  split_ifs at h
  simpa only [Option.map_eq_none_iff] using h

/-- Everything `apply_move` can do. -/
theorem applyMove_cases (c : GameController R) (uci : String) (now : ℕ) :
    (c.status ≠ .playing ∧ c.applyMove uci now = (.error .gameNotInProgress, c)) ∨
      c.status = .playing ∧
        ((∃ result settled, c.settleActiveClock now = (some result, settled) ∧
            c.applyMove uci now = (.error .gameNotInProgress, (settled.endGame result now).2)) ∨
          ∃ settled, c.settleActiveClock now = (none, settled) ∧
            ((∃ e, c.applyMove uci now = (.error e, settled)) ∨
              ∃ mv, parseMove R uci c.position = .ok mv ∧
                c.applyMove uci now =
                  (.ok (settled.playMove uci mv now).1,
                    (settled.playMove uci mv now).2.checkGameEnd now))) := by
  by_cases hplaying : c.status = .playing
  · refine .inr ⟨hplaying, ?_⟩
    have hnot : ¬ c.status ≠ .playing := not_not.mpr hplaying
    rcases hs : c.settleActiveClock now with ⟨_ | result, settled⟩
    · refine .inr ⟨settled, rfl, ?_⟩
      have hposition : settled.position = c.position := by
        obtain ⟨clock, rfl⟩ := settled_eq hs
        rfl
      cases hmove : parseMove R uci c.position with
      | error e =>
          refine .inl ⟨e, ?_⟩
          rw [applyMove, if_neg hnot, hs]
          simp only [hposition, hmove]
      | ok mv =>
          refine .inr ⟨mv, rfl, ?_⟩
          rw [applyMove, if_neg hnot, hs]
          simp only [hposition, hmove]
    · refine .inl ⟨result, settled, rfl, ?_⟩
      rw [applyMove, if_neg hnot, hs]
  · refine .inl ⟨hplaying, ?_⟩
    rw [applyMove, if_pos hplaying]

theorem takeBackMoves_cases (c : GameController R) (count now : ℕ) :
    let cut := { c.cancelEngineRequest with moves := popMoves count c.moves, status := .playing }
    (∃ e rebuilt, cut.rebuildPositionFromMoves now = (.error e, rebuilt) ∧
        c.takeBackMoves count now = (.error e, rebuilt)) ∨
      ∃ rebuilt, cut.rebuildPositionFromMoves now = (.ok (), rebuilt) ∧
        c.takeBackMoves count now =
          (.ok (), (rebuilt.advancePositionGeneration.bumpRevision).checkGameEnd now) := by
  intro cut
  rcases hrebuild : cut.rebuildPositionFromMoves now with ⟨e | ⟨⟩, rebuilt⟩
  · refine .inl ⟨e, rebuilt, rfl, ?_⟩
    rw [takeBackMoves]
    simp only [cut] at hrebuild
    simp only [cancelEngineRequest] at hrebuild ⊢
    rw [hrebuild]
  · refine .inr ⟨rebuilt, rfl, ?_⟩
    rw [takeBackMoves]
    simp only [cut] at hrebuild
    simp only [cancelEngineRequest] at hrebuild ⊢
    rw [hrebuild]

end GameController

namespace PawnEnding

theorem positionResult_none {c : GameController rules}
    (h : (c.positionHistory.lookup (positionKey rules c.position)).filter (3 ≤ ·) = none)
    (hmoves : rules.halfmoves c.position < 100) :
    c.positionResult = none := by
  simp only [GameController.positionResult, Bool.false_eq_true, if_false]
  rw [if_neg (not_le.mpr hmoves), h]
  rfl

theorem create_controller : GameController.create rules "game" 1 config 0 = .ok controller := by
  have hresult : controller.positionResult = none := by
    refine positionResult_none ?_ (by decide)
    change (AList.lookup (positionKey rules .start)
      ((∅ : Tally String).insert (positionKey rules .start) 1)).filter _ = none
    rw [AList.lookup_insert]
    rfl
  have hcheck : controller.checkGameEnd 0 = controller := by
    rw [GameController.checkGameEnd, hresult]
  change (GameController.initialPosition rules config (fen .start) >>= fun position ↦
    ((GameController.fresh "game" 1 config (fen .start) position 0).checkGameEnd
      0).playInitialMoves 0 []) = _
  rw [initialPosition_config]
  exact congrArg Except.ok hcheck

theorem reachable_controller : (controllerMachine rules).Reachable controller :=
  ⟨controller, ⟨"game", 1, config, 0, 0, controller, create_controller, rfl⟩, .refl⟩

end PawnEnding

end EnCroissant

import Mathlib
import EnCroissant.Game.SessionRuns

/-!
# The game manager

The live session of each game id, the snapshots of completed sessions, and the
index of the latest session of each game id.  A start runs in steps between which
other sessions can end; the lifecycle lock of its game id is held over them.
-/

namespace EnCroissant

/-! ## States -/

inductive SessionDisposition where
  | active
  | completed
  | tombstoned
  deriving DecidableEq, Repr

structure LatestSession where
  session : ℕ
  disposition : SessionDisposition
  deriving DecidableEq, Repr

structure CompletedSnapshot where
  gameId : String
  session : ℕ
  state : GameState
  deriving DecidableEq, Repr

structure LiveSession (R : GameRules) where
  session : ℕ
  game : GameSession R
  /-- The engines of the ended loop could not be terminated. -/
  cleanupFailed : Bool

/-- A start that holds the lifecycle lock of its game id. -/
structure StartingGame (R : GameRules) where
  live : LiveSession R
  /-- The session it replaces has been retired. -/
  cleared : Bool

structure GameManager (R : GameRules) where
  games : String → Option (LiveSession R)
  snapshots : List CompletedSnapshot
  latest : String → Option LatestSession
  nextSession : ℕ
  sealed : Bool
  starting : String → Option (StartingGame R)
  /-- The session last published for each game id. -/
  published : String → Option ℕ
  /-- The sessions that were replaced or tombstoned, with their game ids. -/
  former : List (String × ℕ)

def completedGameSnapshots : ℕ := 128

def maxSafeJsCounter : ℕ := 9007199254740991

namespace GameManager

variable {R : GameRules}

def empty (R : GameRules) : GameManager R where
  games := fun _ ↦ none
  snapshots := []
  latest := fun _ ↦ none
  nextSession := 0
  sealed := false
  starting := fun _ ↦ none
  published := fun _ ↦ none
  former := []

/-! ## Operations -/

/-- `SessionMetadata::prune` keeps an entry of the index for a live session, for
a kept snapshot, or, tombstoned, as long as the game id has a snapshot. -/
def keeps (games : String → Option (LiveSession R)) (snapshots : List CompletedSnapshot)
    (gameId : String) (latest : LatestSession) : Bool :=
  match latest.disposition with
  | .active => (games gameId).any fun live ↦ live.session = latest.session
  | .completed =>
      snapshots.any fun snapshot ↦ snapshot.gameId = gameId && snapshot.session = latest.session
  | .tombstoned => snapshots.any fun snapshot ↦ snapshot.gameId = gameId

def prune (m : GameManager R) : GameManager R :=
  let snapshots := m.snapshots.drop (m.snapshots.length - completedGameSnapshots)
  { m with
    snapshots := snapshots
    latest := fun gameId ↦ (m.latest gameId).filter (keeps m.games snapshots gameId) }

def setLatest (m : GameManager R) (gameId : String) (session : ℕ)
    (disposition : SessionDisposition) : GameManager R :=
  { m with latest := Function.update m.latest gameId (some ⟨session, disposition⟩) }

/-- `publish_live`; a sealed manager refuses it. -/
def publishLive (m : GameManager R) (gameId : String) (live : LiveSession R) :
    Except Error Unit × GameManager R :=
  if m.sealed then (.error (.conflict "application is shutting down"), m)
  else
    (.ok (),
      ({ m with
          games := Function.update m.games gameId (some live)
          published := Function.update m.published gameId (some live.session)
          former := (m.published gameId).toList.map (gameId, ·) ++ m.former } :
        GameManager R).setLatest gameId live.session .active |>.prune)

/-- The live sessions after a loop has ended; a failed cleanup keeps its session. -/
def gamesAfterLoop (m : GameManager R) (gameId : String) (live : LiveSession R) :
    String → Option (LiveSession R) :=
  if live.cleanupFailed then m.games else Function.update m.games gameId none

/-- `complete_exact`, at the end of the loop of a session. -/
def completeExact (m : GameManager R) (gameId : String) (session now : ℕ) : GameManager R :=
  match m.games gameId with
  | none => m
  | some live =>
      if live.session ≠ session ∨ m.latest gameId ≠ some ⟨session, .active⟩ then m
      else
        let kept := m.snapshots.filter fun entry ↦
          entry.gameId ≠ gameId || entry.session ≠ session
        (({ m with
            snapshots := kept ++ [⟨gameId, session, live.game.controller.getState now⟩]
            games := m.gamesAfterLoop gameId live } :
          GameManager R).setLatest gameId session .completed).prune

/-- `retire_live_locked`. -/
def retireLiveLocked (m : GameManager R) (gameId : String) (session : ℕ) : GameManager R :=
  match m.games gameId with
  | none => m.prune
  | some live =>
      if live.session ≠ session then m.prune
      else
        (({ m with
            games := Function.update m.games gameId none
            former := (gameId, session) :: m.former } :
          GameManager R).setLatest gameId session .tombstoned).prune

def getGameState (m : GameManager R) (gameId : String) (expectedSession now : ℕ) :
    Except Error GameState :=
  match m.games gameId with
  | some live =>
      if live.session ≠ expectedSession then
        .error (.conflict "game session is no longer current")
      else .ok (live.game.controller.getState now)
  | none =>
      match m.latest gameId with
      | none => .error (.gameNotFound gameId)
      | some latest =>
          if latest.session ≠ expectedSession then
            .error (.conflict "game session is no longer current")
          else if latest.disposition = .tombstoned then .error (.gameNotFound gameId)
          else
            match m.snapshots.reverse.find? fun entry ↦
                entry.gameId = gameId && entry.session = expectedSession with
            | some entry => .ok entry.state
            | none => .error (.gameNotFound gameId)

/-- The first part of `start_game`: the lock, a session number, a controller. -/
def allocate (m : GameManager R) (gameId : String) (config : GameConfig) (now : ℕ) :
    Except Error Unit × GameManager R :=
  if m.sealed then (.error (.conflict "application is shutting down"), m)
  else if (m.starting gameId).isSome then (.ok (), m)
  else if maxSafeJsCounter ≤ m.nextSession then
    (.error (.resourceLimit "game session generation exhausted"), m)
  else
    let session := m.nextSession + 1
    let counted := { m with nextSession := session }
    match GameController.create R gameId session config now with
    | .error e => (.error e, counted)
    | .ok c =>
        (.ok (), { counted with
          starting := Function.update m.starting gameId
            (some ⟨⟨session, .publish c now, false⟩, false⟩) })

/-- The old session of the game id is retired before the new one is published. -/
def clear (m : GameManager R) (gameId : String) : GameManager R :=
  match m.starting gameId with
  | none => m
  | some start =>
      let m := match m.games gameId with
        | none => m
        | some old => m.retireLiveLocked gameId old.session
      { m with starting := Function.update m.starting gameId (some { start with cleared := true }) }

/-- The last part of `start_game`. -/
def publish (m : GameManager R) (gameId : String) : GameManager R :=
  match m.starting gameId with
  | none => m
  | some start =>
      if start.cleared = false then m
      else
        let m := (m.publishLive gameId start.live).2
        { m with starting := Function.update m.starting gameId none }

/-- A live session is changed by one of its own actions. -/
def operate (m : GameManager R) (gameId : String) (a : SessionAction) (now : ℕ) :
    GameManager R :=
  match m.games gameId with
  | none => m
  | some live =>
      let game := live.game.act now a
      if game.live then
        { m with games := Function.update m.games gameId (some { live with game := game }) }
      else m

def failCleanup (m : GameManager R) (gameId : String) : GameManager R :=
  match m.games gameId with
  | none => m
  | some live =>
      { m with games := Function.update m.games gameId (some { live with cleanupFailed := true }) }

end GameManager

inductive ManagerAction where
  | allocate (gameId : String) (config : GameConfig)
  | clear (gameId : String)
  | publish (gameId : String)
  /-- A start fails and gives its lock back. -/
  | abandon (gameId : String)
  | operate (gameId : String) (action : SessionAction)
  | failCleanup (gameId : String)
  | complete (gameId : String) (session : ℕ)
  /-- An abort, a shutdown or a loop that was never started. -/
  | retire (gameId : String) (session : ℕ)
  /-- `shutdown_all` refuses further starts. -/
  | sealStarts
  deriving DecidableEq, Repr

def GameManager.act {R : GameRules} (m : GameManager R) (now : ℕ) :
    ManagerAction → GameManager R
  | .allocate gameId config => (m.allocate gameId config now).2
  | .clear gameId => m.clear gameId
  | .publish gameId => m.publish gameId
  | .abandon gameId => { m with starting := Function.update m.starting gameId none }
  | .operate gameId action => m.operate gameId action now
  | .failCleanup gameId => m.failCleanup gameId
  | .complete gameId session => m.completeExact gameId session now
  | .retire gameId session => m.retireLiveLocked gameId session
  | .sealStarts => { m with sealed := true }

def managerMachine (R : GameRules) : Machine (GameManager R) (ManagerAction × ℕ) where
  init m := m = .empty R
  step m a m' := m' = m.act a.2 a.1

end EnCroissant

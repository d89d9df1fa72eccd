import Mathlib

/-!
# Errors

The error values of the modelled functions, with the texts they display.
-/

namespace EnCroissant

inductive ErrorKind where
  | invalidData
  | unexpectedEof
  deriving DecidableEq, Repr

inductive Error where
  | io (kind : ErrorKind) (message : String)
  | chessPosition (message : String)
  | fen (message : String)
  | parseUciMove (message : String)
  | illegalUciMove (message : String)
  | noMovesFound
  | notDistinctPlayers
  /-- A failed statement. -/
  | diesel
  | gameNotFound (id : String)
  | gameNotInProgress
  | notHumanTurn
  | invalidColor (color : String)
  | engineNotInitialized
  | engineDisconnected
  | engineTimeout (message : String)
  | engineRetired
  | enginePositionRejected (cause : Error)
  | invalidInput (message : String)
  | conflict (message : String)
  | resourceLimit (message : String)
  | staleGame
  | staleProgressLease
  | cancellation
  | analysisCancelled
  | missingReferenceDatabase
  | oauthFailure (message : String)
  /-- An `InvalidInput` labelled with the root failure `Unusable`. -/
  | unusable (message : String)
  | partialRemoval (removedEntries : ℕ) (cause : Error)
  /-- A failed `expect`, with its message. -/
  | panic (message : String)
  deriving DecidableEq, Repr

namespace Error

/-- The error's category, as displayed. -/
def category : Error → String
  | io _ _ => "I/O failure"
  | chessPosition _ => "chess data failure"
  | fen _ => "parsing failure"
  | parseUciMove _ => "parsing failure"
  | illegalUciMove _ => "chess data failure"
  | noMovesFound => "missing resource"
  | notDistinctPlayers => "conflict"
  | diesel => "database failure"
  | gameNotFound _ => "missing resource"
  | gameNotInProgress => "conflict"
  | notHumanTurn => "conflict"
  | invalidColor _ => "invalid input"
  | engineNotInitialized => "missing resource"
  | engineDisconnected => "missing resource"
  | engineTimeout _ => "engine timeout"
  | engineRetired => "engine retired"
  | enginePositionRejected _ => "engine position rejected"
  | invalidInput _ => "invalid input"
  | conflict _ => "conflict"
  | resourceLimit _ => "resource limit"
  | staleGame => "stale game"
  | staleProgressLease => "conflict"
  | cancellation => "cancellation"
  | analysisCancelled => "cancellation"
  | missingReferenceDatabase => "missing resource"
  | oauthFailure _ => "authentication failure"
  | unusable _ => "invalid input"
  | partialRemoval _ _ => "partial removal"
  | panic message => message

def toString : Error → String
  | io _ _ => "I/O failure"
  | chessPosition message => message
  | fen message => message
  | parseUciMove message => message
  | illegalUciMove message => message
  | noMovesFound => "No moves found"
  | notDistinctPlayers => "Players aren't the same. They have played against each other"
  | diesel => "database failure"
  | gameNotFound id => "Game not found: " ++ id
  | gameNotInProgress => "Game not in progress"
  | notHumanTurn => "Not human's turn"
  | invalidColor color => "Invalid color: " ++ color
  | engineNotInitialized => "Engine not initialized"
  | engineDisconnected => "Engine disconnected"
  | engineTimeout message => "Engine timeout: " ++ message
  | engineRetired => "Engine id is retired"
  | enginePositionRejected _ => "Position cannot be played against an engine"
  | invalidInput message => "Invalid input: " ++ message
  | conflict message => "Conflict: " ++ message
  | resourceLimit message => "Resource limit: " ++ message
  | staleGame => "The game changed on disk"
  | staleProgressLease => "Progress lease is stale, cleared, or expired"
  | cancellation => "Cancellation"
  | analysisCancelled => "Analysis cancelled"
  | missingReferenceDatabase => "Missing reference database"
  | oauthFailure message => "OAuth failure: " ++ message
  | unusable message => "Invalid input: " ++ message
  | partialRemoval removedEntries cause =>
      "Partially removed: " ++ removedEntries.repr ++ " entries were deleted before failing: " ++
        cause.category
  | panic message => message

end Error

def invalidData (message : String) : Error := .io .invalidData message

/-! ## Steps that may fail -/

theorem bind_eq_ok {α β : Type} {x : Except Error α} {f : α → Except Error β} {b : β}
    (h : x >>= f = .ok b) :
    ∃ a, x = .ok a ∧ f a = .ok b := by
  cases x with
  | error e => cases h
  | ok a => exact ⟨a, rfl, h⟩

/-- A guard that was passed. -/
theorem of_guard {α : Type} {P : Prop} [Decidable P] {e : Error} {x : Except Error α} {a : α}
    (h : (if P then .error e else x) = .ok a) :
    ¬P ∧ x = .ok a := by
  split_ifs at h with hP
  exact ⟨hP, h⟩

end EnCroissant

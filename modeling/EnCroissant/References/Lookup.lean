import EnCroissant.Library.Faulty
import EnCroissant.References.Players

/-!
# Looking up a reference

One traversal of the library for the games that a reference may mean.  Every loop has a
budget of its own, and what could not be read is recorded.  The databases behind the
queries are a parameter.
-/

namespace EnCroissant

/-! ## The library and its queries -/

structure DatabaseHandle where
  id : Text
  deriving DecidableEq, Repr

structure Player where
  id : ℤ
  name : Option Text
  deriving DecidableEq, Repr

inductive AppErrorCategory where
  | cancelled
  | network
  | notFound
  | appliedDespiteError
  | permission
  | validation
  | unexpected
  deriving DecidableEq, Repr

/-- The category of an error of the backend. -/
inductive BackendCategory where
  | io
  | parsing
  | platform
  | network
  | chessData
  | database
  | invalidInput
  | staleGame
  | missingResource
  | conflict
  | resourceLimit
  | authentication
  | credential
  | cancellation
  | durability
  | partialRemoval
  | operationAndCleanup
  | engineTimeout
  | enginePositionRejected
  | engineRetired
  | engineFailure
  | permission
  | puzzleThemesUnavailable
  deriving DecidableEq, Repr

/-- An error after `normalizeError`. -/
structure AppError where
  category : AppErrorCategory
  backendCategory : Option BackendCategory
  databaseAdmission : Bool
  deriving DecidableEq, Repr

inductive ManagedDatabaseInfo where
  | success (file : DatabaseHandle) (title filename : Text)
  | error (file : DatabaseHandle) (filename error : Text)
  deriving DecidableEq, Repr

def ManagedDatabaseInfo.file : ManagedDatabaseInfo → DatabaseHandle
  | success file _ _ => file
  | error file _ _ => file

inductive CollectionStatus where
  | ready
  | stale
  | missing
  | retired
  | preservedOriginal
  | unavailable
  | trashed
  deriving DecidableEq, Repr

/-- A linked collection; `account` says whether it belongs to one. -/
structure CollectionDescriptor where
  name : Text
  database : Option DatabaseHandle
  account : Bool
  status : CollectionStatus
  omitted : ℕ
  deriving DecidableEq, Repr

structure DatabaseUnread where
  filename : Text
  error : Text
  deriving DecidableEq, Repr

structure DatabaseList where
  databases : List ManagedDatabaseInfo
  unread : List DatabaseUnread
  collections : Option (List CollectionDescriptor)
  deriving DecidableEq, Repr

structure QueryResponse (α : Type) where
  data : List α
  count : Option ℕ
  deriving DecidableEq, Repr

/-- A search for the players whose names contain a text, sorted by their ids. -/
structure PlayerQuery where
  name : Option Text
  page : ℕ
  deriving DecidableEq, Repr

/-- A search for the games of two players with the colours given, sorted by their ids. -/
structure GameQuery where
  player1 : ℤ
  player2 : ℤ
  outcome : Outcome
  page : ℕ
  deriving DecidableEq, Repr

inductive PageRequest where
  | players (file : DatabaseHandle) (query : PlayerQuery)
  | games (file : DatabaseHandle) (query : GameQuery)
  deriving DecidableEq, Repr

/-- The queries of a lookup, which may be answered differently at each request, and the
signal that may abort it at each of its checks. -/
structure ReferenceApi where
  aborted : ℕ → Option AppError
  getDatabases : Except AppError DatabaseList
  queryPlayers : ℕ → DatabaseHandle → PlayerQuery → Except AppError (QueryResponse Player)
  queryGames : ℕ → DatabaseHandle → GameQuery → Except AppError (QueryResponse NormalizedGame)

/-! ## The result -/

inductive FailureCategory where
  | app (category : AppErrorCategory)
  | unavailable
  | omitted
  | budget
  deriving DecidableEq, Repr

structure ReferenceFailure where
  source : Text
  category : FailureCategory
  message : Option Text
  backendCategory : Option BackendCategory
  databaseAdmission : Bool
  deriving DecidableEq, Repr

/-- A failure with nothing but its source and its category. -/
def ReferenceFailure.of (source : Text) (category : FailureCategory) : ReferenceFailure where
  source := source
  category := category
  message := none
  backendCategory := none
  databaseAdmission := false

def sourceFailure (source : Text) (error : AppError) : ReferenceFailure where
  source := source
  category := .app error.category
  message := none
  backendCategory := error.backendCategory
  databaseAdmission := error.databaseAdmission

structure ReferenceOccurrence where
  database : DatabaseHandle
  source : Text
  game : NormalizedGame
  verification : ReferenceVerification
  deriving DecidableEq, Repr

structure ReferenceSearch where
  candidates : List ReferenceOccurrence
  failures : List ReferenceFailure
  complete : Bool
  deriving DecidableEq, Repr

namespace ReferenceSearchLimits

def pageSize : ℕ := 100

def requests : ℕ := 256

def sources : ℕ := 64

def candidates : ℕ := 100

def players : ℕ := 256

def failures : ℕ := 100

end ReferenceSearchLimits

/-! ## The traversal -/

/-- What the rows that were visited left: the players of the search in hand, the ids of the
games seen in the database in hand, and the candidates. -/
structure Found where
  matchedPlayers : List Player
  seen : List ℤ
  candidates : List ReferenceOccurrence
  deriving DecidableEq, Repr

/-- The variables of the traversal; `asked` lists the requests it has made. -/
structure LookupState where
  found : Found
  failures : List ReferenceFailure
  requests : ℕ
  asked : List PageRequest
  checks : ℕ
  deriving DecidableEq, Repr

/-- One request more. -/
def LookupState.ask (s : LookupState) (request : PageRequest) : LookupState :=
  { s with requests := s.requests + 1, asked := s.asked ++ [request] }

abbrev Lookup := Faulty LookupState AppError

namespace Lookup

open Faulty

def addFailure (failure : ReferenceFailure) : Lookup Unit :=
  modify fun s ↦
    if s.failures.length < ReferenceSearchLimits.failures then
      { s with failures := s.failures ++ [failure] }
    else
      { s with failures :=
          s.failures.set (ReferenceSearchLimits.failures - 1) (.of [] .budget) }

def budget (source : Text) : Lookup Unit := do
  let s ← Faulty.get
  if s.failures.any fun failure ↦ failure.source = source && failure.category = .budget then
    pure ()
  else addFailure (.of source .budget)

section

variable (api : ReferenceApi)

def check : Lookup Unit := do
  let s ← Faulty.get
  modify fun s ↦ { s with checks := s.checks + 1 }
  match api.aborted s.checks with
  | some reason => fail reason
  | none => pure ()

/-- A query page by page; `send` is told how many requests were made before. -/
structure Paged (α : Type) where
  request : ℕ → PageRequest
  send : ℕ → ℕ → Except AppError (QueryResponse α)

/-- Visits the rows of a page until a visit refuses; says whether none did. -/
def visitAll {α : Type} (visit : α → Found → Option Found) : List α → Found → Bool × Found
  | [], found => (true, found)
  | item :: rest, found =>
      match visit item found with
      | none => (false, found)
      | some found => visitAll visit rest found

/-- Whether a page is the last one. -/
def isLastPage {α : Type} (page : ℕ) (response : QueryResponse α) : Bool :=
  match response.count with
  | some count => count ≤ page * ReferenceSearchLimits.pageSize
  | none => response.data.length < ReferenceSearchLimits.pageSize

/-- The loop of `pages`, by the number of requests that are left of the budget. -/
def pagesFrom {α : Type} (source : Text) (query : Paged α)
    (visit : α → Found → Option Found) : ℕ → ℕ → Lookup Unit
  | 0, _ => do
      check api
      budget source
  | remaining + 1, page => do
      check api
      let s ← Faulty.get
      modify fun s ↦ s.ask (query.request page)
      let response ← ofExcept (query.send s.requests page)
      check api
      let s ← Faulty.get
      modify fun s ↦ { s with found := (visitAll visit response.data s.found).2 }
      if (visitAll visit response.data s.found).1 then
        if isLastPage page response then pure ()
        else if response.data = [] then budget source
        else pagesFrom source query visit remaining (page + 1)
      else budget source

def pages {α : Type} (source : Text) (query : Paged α) (visit : α → Found → Option Found) :
    Lookup Unit := do
  let s ← Faulty.get
  pagesFrom api source query visit (ReferenceSearchLimits.requests - s.requests) 1

end

section

variable (U : Unicode)
  (metadataVerification : GameReference → NormalizedGame → ReferenceVerification)
  (api : ReferenceApi)

def playerPages (person : ReferencePlayer) (file : DatabaseHandle) : Paged Player :=
  let name := longestAsciiFragment U person.surname
  { request := fun page ↦ .players file ⟨name, page⟩
    send := fun n page ↦ api.queryPlayers n file ⟨name, page⟩ }

def visitPlayer (person : ReferencePlayer) (player : Player) (found : Found) : Option Found :=
  if matchesReferencePlayer U person player.name then
    if ReferenceSearchLimits.players ≤ found.matchedPlayers.length then none
    else some { found with matchedPlayers := found.matchedPlayers ++ [player] }
  else some found

def players (source : Text) (file : DatabaseHandle) (person : ReferencePlayer) :
    Lookup (List Player) := do
  modify fun s ↦ { s with found := { s.found with matchedPlayers := [] } }
  pages api source (playerPages U api person file) (visitPlayer U person)
  let s ← Faulty.get
  pure s.found.matchedPlayers

def gamePages (reference : GameReference) (file : DatabaseHandle) (white black : Player) :
    Paged NormalizedGame where
  request := fun page ↦ .games file ⟨white.id, black.id, reference.outcome, page⟩
  send := fun n page ↦ api.queryGames n file ⟨white.id, black.id, reference.outcome, page⟩

def visitGame (reference : GameReference) (source : Text) (file : DatabaseHandle)
    (game : NormalizedGame) (found : Found) : Option Found :=
  let verification := referenceGameVerification U metadataVerification reference game
  if game.id ∉ found.seen ∧ verification ≠ .rejected then
    if ReferenceSearchLimits.candidates ≤ found.candidates.length then none
    else
      some { found with
        seen := found.seen ++ [game.id]
        candidates := found.candidates ++ [⟨file, source, game, verification⟩] }
  else some found

/-- The games of each pair of players, until a budget is used up. -/
def searchPairs (reference : GameReference) (source : Text) (file : DatabaseHandle) :
    List (Player × Player) → Lookup Unit
  | [] => pure ()
  | (white, black) :: rest => do
      pages api source (gamePages api reference file white black)
        (visitGame U metadataVerification reference source file)
      let s ← Faulty.get
      if ReferenceSearchLimits.requests ≤ s.requests ∨
          ReferenceSearchLimits.candidates ≤ s.found.candidates.length then
        budget source
      else searchPairs reference source file rest

def searchFile (reference : GameReference) (source : Text) (file : DatabaseHandle) :
    Lookup Unit := do
  let whites ← players U api source file reference.white
  if whites = [] then pure ()
  else
    let blacks ← players U api source file reference.black
    modify fun s ↦ { s with found := { s.found with seen := [] } }
    searchPairs U metadataVerification api reference source file
      (whites.flatMap fun white ↦ blacks.map fun black ↦ (white, black))

end

end Lookup

def ManagedDatabaseInfo.source : ManagedDatabaseInfo → Text
  | success _ title filename =>
      if title ≠ filename then title ++ " (".toList ++ filename ++ ")".toList else filename
  | error _ filename _ => filename

namespace Lookup

open Faulty

variable (U : Unicode)
  (metadataVerification : GameReference → NormalizedGame → ReferenceVerification)
  (api : ReferenceApi)

def searchDatabase (reference : GameReference) (database : ManagedDatabaseInfo) :
    Lookup Unit := do
  check api
  match database with
  | .error _ _ error =>
      addFailure { ReferenceFailure.of database.source .unavailable with message := some error }
  | .success file _ _ =>
      catching (searchFile U metadataVerification api reference database.source file)
        fun error ↦ do
          check api
          addFailure (sourceFailure database.source error)

def reviewCollection (collection : CollectionDescriptor) : Lookup Unit := do
  if collection.status = .trashed ∧ collection.account = false then pure ()
  else if collection.status = .retired then pure ()
  else
    onlyIf (collection.database = none) (addFailure (.of collection.name .unavailable))
    onlyIf (0 < collection.omitted) (addFailure (.of collection.name .omitted))

def searchLibrary (reference : GameReference) (library : DatabaseList) :
    Lookup ReferenceSearch := do
  each (fun unread ↦
    addFailure { ReferenceFailure.of unread.filename .unavailable with
      message := some unread.error }) library.unread
  each reviewCollection (library.collections.getD [])
  onlyIf (ReferenceSearchLimits.sources < library.databases.length) (budget [])
  each (searchDatabase U metadataVerification api reference)
    (library.databases.take ReferenceSearchLimits.sources)
  check api
  let s ← Faulty.get
  pure ⟨s.found.candidates, s.failures, s.failures = []⟩

def lookupGameReference (reference : GameReference) : Lookup ReferenceSearch := do
  let listed ← catching
    (do
      let library ← ofExcept api.getDatabases
      check api
      pure (Except.ok library))
    fun error ↦ do
      check api
      pure (Except.error error)
  match listed with
  | .error error => do
      let s ← Faulty.get
      pure ⟨s.found.candidates, [sourceFailure [] error], false⟩
  | .ok library => searchLibrary U metadataVerification api reference library

/-- The traversal before its first step. -/
def start : LookupState where
  found := ⟨[], [], []⟩
  failures := []
  requests := 0
  asked := []
  checks := 0

end Lookup

end EnCroissant

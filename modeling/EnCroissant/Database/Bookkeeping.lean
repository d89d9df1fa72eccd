import EnCroissant.Library.RowTable
import EnCroissant.Database.DateFilter
import EnCroissant.Database.Importer

/-!
# The tables of a game database

The rows of `Players`, `Events`, `Sites`, `Games` and `Info`, and the transactions
that change them: inserting, rewriting and deleting a game, deleting duplicates
and empty games, and merging two players.
-/

namespace EnCroissant

/-! ## Rows -/

/-- A row of `Players`, `Events` or `Sites`; only players have a rating. -/
structure NamedRow where
  name : Option String
  elo : Option Int32
  deriving DecidableEq

/-- The columns of a game that come from its headers. -/
structure GameTags where
  date : Option String
  time : Option String
  round : Option String
  whiteElo : Option Int32
  blackElo : Option Int32
  result : Option String
  timeControl : Option String
  eco : Option String
  orientation : Option String
  deriving DecidableEq

structure GameIds where
  eventId : ℤ
  siteId : ℤ
  whiteId : ℤ
  blackId : ℤ
  deriving DecidableEq

structure GameRow extends GameIds, GameTags where
  whiteMaterial : ℕ
  blackMaterial : ℕ
  plyCount : Option Int32
  fen : Option String
  moves : List UInt8
  pawnHome : BitVec 16
  deriving DecidableEq

/-- A parsed game with its headers. -/
structure ParsedGame (S : Shakmaty) extends TempGame S, GameTags where
  eventName : Option String
  siteName : Option String
  whiteName : Option String
  blackName : Option String

structure Db where
  info : AList fun _ : String ↦ Option String
  players : RowTable NamedRow
  events : RowTable NamedRow
  sites : RowTable NamedRow
  games : RowTable GameRow

/-- The columns that duplicates share. -/
structure DuplicateKey where
  eventId : ℤ
  siteId : ℤ
  round : Option String
  whiteId : ℤ
  blackId : ℤ
  moves : List UInt8
  date : Option String
  time : Option String
  fen : Option String
  result : Option String
  whiteElo : Option Int32
  blackElo : Option Int32
  timeControl : Option String
  deriving DecidableEq

namespace GameRow

/-- The `CHECK` constraints of `Games`. -/
def checks (row : GameRow) : Bool :=
  [none, some "1-0", some "0-1", some "1/2-1/2", some "*"].contains row.result &&
    [none, some "white", some "black"].contains row.orientation

def duplicateKey (row : GameRow) : DuplicateKey :=
  { eventId := row.eventId, siteId := row.siteId, round := row.round, whiteId := row.whiteId,
    blackId := row.blackId, moves := row.moves, date := row.date, time := row.time,
    fen := row.fen, result := row.result, whiteElo := row.whiteElo, blackElo := row.blackElo,
    timeControl := row.timeControl }

end GameRow

def ParsedGame.row {S : Shakmaty} (game : ParsedGame S) (ids : GameIds) : GameRow :=
  let columns := game.toTempGame.insertToDb
  { toGameIds := ids
    toGameTags := game.toGameTags
    whiteMaterial := columns.whiteMaterial
    blackMaterial := columns.blackMaterial
    plyCount := some columns.plyCount
    fen := columns.fen
    moves := columns.moves
    pawnHome := columns.pawnHome }

/-- The columns that rewriting a stored game sets. -/
def ParsedGame.updateColumns {S : Shakmaty} (game : ParsedGame S) (ids : GameIds)
    (gameTime : Option String) : GameRow :=
  let minimumMaterial := game.materialCount.minimumMaterial (S.board game.position)
  { eventId := ids.eventId
    siteId := ids.siteId
    date := game.date
    time := gameTime
    round := game.round
    whiteId := ids.whiteId
    whiteElo := game.whiteElo
    blackId := ids.blackId
    blackElo := game.blackElo
    whiteMaterial := minimumMaterial.white
    blackMaterial := minimumMaterial.black
    result := game.result
    timeControl := game.timeControl
    eco := game.eco
    plyCount := some (Int32.ofNat (iterMainlineMoveBytes game.moves).length)
    fen := game.fen
    moves := game.moves
    pawnHome := getPawnHome (S.board game.position)
    orientation := game.orientation }

/-! ## Names -/

def isNamed (name : String) (_ : ℤ) (row : NamedRow) : Bool := decide (row.name = some name)

/-- `create_player`, `create_event` and `create_site`: an insert that a row of the
same name makes void, and the row of the name. -/
def createNamed (table : RowTable NamedRow) (name : String) :
    Except Error (RowTable NamedRow × ℤ) :=
  let table := if (table.first (isNamed name)).isSome then table else table.insert ⟨name, none⟩
  match table.first (isNamed name) with
  | some (id, _) => .ok (table, id)
  | none => .error .diesel

/-- The schema reserves player 0 for this exact name. -/
def databasePlayerName (name : Option String) : Option String :=
  name.filter fun name ↦ decide (name ≠ "Unknown")

namespace Db

def createPlayer (db : Db) (name : String) : Except Error (Db × ℤ) := do
  let (players, id) ← createNamed db.players name
  return ({ db with players := players }, id)

def createEvent (db : Db) (name : String) : Except Error (Db × ℤ) := do
  let (events, id) ← createNamed db.events name
  return ({ db with events := events }, id)

def createSite (db : Db) (name : String) : Except Error (Db × ℤ) := do
  let (sites, id) ← createNamed db.sites name
  return ({ db with sites := sites }, id)

/-- The id of a named row, or of the unknown row where there is no name. -/
def idOf (create : Db → String → Except Error (Db × ℤ)) (db : Db) :
    Option String → Except Error (Db × ℤ)
  | some name => create db name
  | none => .ok (db, 0)

def createIds (db : Db) (whiteName blackName eventName siteName : Option String) :
    Except Error (Db × GameIds) := do
  let (db, whiteId) ← idOf createPlayer db whiteName
  let (db, blackId) ← idOf createPlayer db blackName
  let (db, eventId) ← idOf createEvent db eventName
  let (db, siteId) ← idOf createSite db siteName
  return (db, ⟨eventId, siteId, whiteId, blackId⟩)

def createGame (db : Db) (row : GameRow) : Except Error (Db × ℤ) :=
  if row.checks then .ok ({ db with games := db.games.insert row }, db.games.nextId)
  else .error .diesel

variable {S : Shakmaty}

def insertToDb (db : Db) (game : ParsedGame S) : Except Error (Db × ℤ) := do
  let (db, ids) ← db.createIds (databasePlayerName game.whiteName)
    (databasePlayerName game.blackName) game.eventName game.siteName
  db.createGame (game.row ids)

/-! ## Counts and orphans -/

def updateInfoCount (db : Db) (name : String) (value : ℕ) : Db :=
  { db with info := db.info.insert name (some (toString value)) }

def deleteOrphanedData (db : Db) : Db :=
  let playerIds := db.games.column (·.whiteId) ++ db.games.column (·.blackId)
  let eventIds := db.games.column (·.eventId)
  let siteIds := db.games.column (·.siteId)
  { db with
    players := db.players.deleteWhere fun id _ ↦ decide (id ≠ 0 ∧ id ∉ playerIds)
    events := db.events.deleteWhere fun id _ ↦ decide (id ≠ 0 ∧ id ∉ eventIds)
    sites := db.sites.deleteWhere fun id _ ↦ decide (id ≠ 0 ∧ id ∉ siteIds) }

def updateDatabaseCounts (db : Db) : Db :=
  let db := db.updateInfoCount "GameCount" db.games.count
  let db := db.updateInfoCount "PlayerCount" db.players.count
  let db := db.updateInfoCount "EventCount" db.events.count
  db.updateInfoCount "SiteCount" db.sites.count

def removeOrphansAndUpdateCounts (db : Db) : Db := db.deleteOrphanedData.updateDatabaseCounts

/-! ## Transactions -/

def deleteDuplicatedGames (db : Db) : Db :=
  removeOrphansAndUpdateCounts
    { db with games := db.games.deleteDuplicates GameRow.duplicateKey }

def deleteEmptyGames (db : Db) : Db :=
  removeOrphansAndUpdateCounts
    { db with games := db.games.deleteWhere fun _ row ↦ decide (row.plyCount = some 0) }

def deleteDbGame (db : Db) (gameId : ℤ) : Db :=
  removeOrphansAndUpdateCounts
    { db with games := db.games.deleteWhere fun id _ ↦ decide (id = gameId) }

/-- A game with a mainline is inserted; the names no game uses stay. -/
def insertDbGame (rowStamp : ℤ → GameRow → String) (db : Db) (game : ParsedGame S) :
    Except Error (Db × (ℤ × String)) := do
  let (db, id) ← db.insertToDb game
  let db := db.updateDatabaseCounts
  match db.games.find id with
  | some row => return (db, (id, rowStamp id row))
  | none => throw .diesel

/-- The stored game is rewritten if its row is still the one the caller read. -/
def writeParsedDbGame (rowStamp : ℤ → GameRow → String) (db : Db) (gameId : ℤ)
    (game : ParsedGame S) (expectedStamp : String) : Except Error (Db × String) :=
  match db.games.find gameId with
  | none => .error (.gameNotFound (toString gameId))
  | some existing =>
      if rowStamp gameId existing ≠ expectedStamp then .error .staleGame
      else do
        let gameTime := game.time.or existing.time
        let (db, ids) ← db.createIds game.whiteName game.blackName game.eventName game.siteName
        let row := game.updateColumns ids gameTime
        let selected := fun (id : ℤ) (_ : GameRow) ↦ decide (id = gameId)
        if !row.checks then throw .diesel
        if db.games.countWhere selected ≠ 1 then throw (.gameNotFound (toString gameId))
        let db := removeOrphansAndUpdateCounts
          { db with games := db.games.updateWhere selected fun _ ↦ row }
        match db.games.find gameId with
        | some written => return (db, rowStamp gameId written)
        | none => throw .diesel

def facedEachOther (db : Db) (sourcePlayer targetPlayer : ℤ) : ℕ :=
  db.games.countWhere fun _ row ↦
    decide (row.whiteId = sourcePlayer ∧ row.blackId = targetPlayer) ||
      decide (row.whiteId = targetPlayer ∧ row.blackId = sourcePlayer)

def movePlayer (db : Db) (sourcePlayer targetPlayer : ℤ) : Db :=
  let games := db.games.updateWhere (fun _ row ↦ decide (row.whiteId = sourcePlayer))
    fun row ↦ { row with whiteId := targetPlayer }
  let games := games.updateWhere (fun _ row ↦ decide (row.blackId = sourcePlayer))
    fun row ↦ { row with blackId := targetPlayer }
  { db with games := games }

def mergePlayers (db : Db) (sourcePlayer targetPlayer : ℤ) : Except Error Db :=
  if sourcePlayer = targetPlayer then
    .error (.invalidInput "source and target player IDs must be different")
  else if sourcePlayer = 0 ∨ targetPlayer = 0 then
    .error (.invalidInput "the unknown player (ID 0) cannot be merged")
  else if (db.players.find sourcePlayer).isNone then
    .error (.invalidInput ("source player " ++ toString sourcePlayer ++ " does not exist"))
  else if (db.players.find targetPlayer).isNone then
    .error (.invalidInput ("target player " ++ toString targetPlayer ++ " does not exist"))
  else if 0 < db.facedEachOther sourcePlayer targetPlayer then .error .notDistinctPlayers
  else
    let db := db.movePlayer sourcePlayer targetPlayer
    let selected := fun (id : ℤ) (_ : NamedRow) ↦ decide (id = sourcePlayer)
    if db.players.countWhere selected ≠ 1 then
      .error (.invalidInput ("source player " ++ toString sourcePlayer ++ " could not be deleted"))
    else .ok (removeOrphansAndUpdateCounts { db with players := db.players.deleteWhere selected })

/-! ## Validated mutations -/

def i64Max : ℕ := 2 ^ 63 - 1

/-- `parse::<i64>` of a value that is not negative. -/
def parseRevision (value : String) : Option ℕ :=
  let (negative, digits) := match value.toList with
    | '+' :: digits => (false, digits)
    | '-' :: digits => (true, digits)
    | digits => (false, digits)
  let revision := Sqlite.numeral digits
  if digits ≠ [] ∧ digits.all Char.isDigit ∧ revision ≤ i64Max ∧ (negative → revision = 0) then
    some revision
  else none

def readDataRevision (db : Db) : Except Error ℕ :=
  match db.info.lookup "DataRevision" with
  | none => .ok 0
  | some value =>
      match value.bind parseRevision with
      | some revision => .ok revision
      | none => .error (.invalidInput "DataRevision is not a non-negative i64")

def isUnknownRow (id : ℤ) (row : NamedRow) : Bool :=
  decide (id = 0 ∧ row.name = some "Unknown")

def validateSentinelRecords (db : Db) : Except Error Unit :=
  let players := db.players.countWhere fun id row ↦ isUnknownRow id row && row.elo.isNone
  let sentinelCount := players + db.events.countWhere isUnknownRow + db.sites.countWhere isUnknownRow
  if sentinelCount ≠ 3 then
    .error (.invalidInput "Database sentinel records are missing or malformed")
  else .ok ()

def bumpRevision {α : Type} (op : Db → Except Error (Db × α)) (db : Db) :
    Except Error (Db × α) := do
  let current ← db.readDataRevision
  let (db, result) ← op db
  if i64Max < current + 1 then throw (.invalidInput "DataRevision overflow")
  return (db.updateInfoCount "DataRevision" (current + 1), result)

/-- A transaction that fails is rolled back. -/
def transaction {α : Type} (op : Db → Except Error (Db × α)) (db : Db) : Db × Except Error α :=
  match op db with
  | .ok (db, result) => (db, .ok result)
  | .error error => (db, .error error)

def withValidatedMutation {α : Type} (db : Db) (operation : Db → Except Error (Db × α)) :
    Db × Except Error α :=
  db.transaction <| bumpRevision fun db ↦ do
    db.validateSentinelRecords
    operation db

end Db

/-! ## The mutations -/

/-- The database mutations, a text given by the outcome of parsing its first game. -/
inductive DatabaseMutation (S : Shakmaty) where
  | insertDbGame (pgn : Except Error (ParsedGame S))
  | writeDbGame (gameId : ℤ) (pgn : Except Error (ParsedGame S)) (expectedStamp : String)
  | deleteDbGame (gameId : ℤ)
  | deleteDuplicatedGames
  | deleteEmptyGames
  | mergePlayers (player1 player2 : ℤ)

inductive MutationReply where
  | done
  | inserted (id : ℤ) (stamp : String)
  | written (stamp : String)
  deriving DecidableEq

namespace DatabaseMutation

variable {S : Shakmaty}

def isInsert : DatabaseMutation S → Bool
  | insertDbGame _ => true
  | _ => false

def operation (rowStamp : ℤ → GameRow → String) :
    DatabaseMutation S → Db → Except Error (Db × MutationReply)
  | insertDbGame pgn, db => do
      let game ← pgn
      let (db, (id, stamp)) ← db.insertDbGame rowStamp game
      return (db, .inserted id stamp)
  | writeDbGame gameId pgn expectedStamp, db => do
      let game ← pgn
      let (db, stamp) ← db.writeParsedDbGame rowStamp gameId game expectedStamp
      return (db, .written stamp)
  | deleteDbGame gameId, db => return (db.deleteDbGame gameId, .done)
  | deleteDuplicatedGames, db => return (db.deleteDuplicatedGames, .done)
  | deleteEmptyGames, db => return (db.deleteEmptyGames, .done)
  | mergePlayers player1 player2, db => do
      let db ← db.mergePlayers player1 player2
      return (db, .done)

/-- What is refused before the database is opened. -/
def prepare : DatabaseMutation S → Except Error Unit
  | insertDbGame pgn => do
      let game ← pgn
      if (iterMainlineMoveBytes game.moves).isEmpty then throw .noMovesFound
  | writeDbGame _ pgn _ => do
      let _ ← pgn
  | _ => return

def mutate (rowStamp : ℤ → GameRow → String) (db : Db) (m : DatabaseMutation S) :
    Db × Except Error MutationReply :=
  match m.prepare with
  | .error error => (db, .error error)
  | .ok () => db.withValidatedMutation (m.operation rowStamp)

end DatabaseMutation

end EnCroissant

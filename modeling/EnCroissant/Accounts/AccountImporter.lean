import EnCroissant.Library.ByteOrder
import EnCroissant.Library.Utf8
import EnCroissant.Database.Bookkeeping

/-!
# Importing the games of an account

Every game of an export is looked up by its provider id, and by a fingerprint of
what identifies it.  An id is attached to a stored game of the same fingerprint
that has none, or to a new one.  SHA-256, the reading of the provider id and of
the start of a game are parameters.
-/

namespace EnCroissant

structure AccountIdentity where
  provider : String
  account : String

/-- A game of an export, with the bytes that its provider id is read from. -/
structure AccountGame (S : Shakmaty) extends ParsedGame S where
  providerHeaders : List UInt8

/-- The fields of a game that its fingerprint is taken of. -/
structure FingerprintFields where
  whiteName : Option String
  blackName : Option String
  date : Option String
  time : Option String
  fen : Option String
  moves : List UInt8

structure AccountEnv where
  /-- The digest of a byte string, in hexadecimal digits. -/
  sha256 : List UInt8 → String
  providerGameId : List UInt8 → AccountIdentity → Except Error (Option String)
  /-- The start of a game in milliseconds, from its date and time. -/
  startMs : String → String → Option ℤ

/-! ## Fingerprints -/

def toAsciiLowercase (text : String) : String := text.map Char.toLower

def fingerprintField : Option String → List UInt8
  | some value =>
      let bytes := Utf8.encode (toAsciiLowercase value).toList
      ByteOrder.leBytes 8 bytes.length ++ bytes
  | none => ByteOrder.leBytes 8 (2 ^ 64 - 1)

def startFen : String := "rnbqkbnr/pppppppp/8/8/8/8/PPPPPPPP/RNBQKBNR w KQkq - 0 1"

def AccountEnv.semanticFingerprint (env : AccountEnv) (identity : AccountIdentity)
    (game : FingerprintFields) : String :=
  env.sha256 ([some identity.provider, some identity.account, game.whiteName, game.blackName,
      game.date, game.time].flatMap fingerprintField ++
    Utf8.encode (game.fen.getD startFen).toList ++ iterMainlineMoveBytes game.moves)

def AccountGame.fingerprintFields {S : Shakmaty} (game : AccountGame S) : FingerprintFields where
  whiteName := game.whiteName
  blackName := game.blackName
  date := game.date
  time := game.time
  fen := game.fen
  moves := game.moves

/-- The fields of a stored game, from its row and the rows of its players. -/
def Db.storedFields (db : Db) (row : GameRow) : Option FingerprintFields := do
  let white ← db.players.find row.whiteId
  let black ← db.players.find row.blackId
  return {
    whiteName := if row.whiteId ≠ 0 then white.name else none
    blackName := if row.blackId ≠ 0 then black.name else none
    date := row.date
    time := row.time
    fen := row.fen
    moves := row.moves }

/-! ## The importer -/

/-- The database and the table `AccountProviderGames`. -/
structure AccountDb where
  db : Db
  providerGames : AList fun _ : String × String ↦ ℤ

structure AccountImportContext where
  identity : AccountIdentity
  /-- The cursor of the next export, from the newest start and the provider ids. -/
  accountSyncCursor : Option ℤ → Finset String → ℤ

structure AccountImporter where
  context : AccountImportContext
  newestStartMs : Option ℤ
  providerIds : Finset String
  /-- The temporary table `AccountFingerprints`. -/
  fingerprints : AList fun _ : ℤ ↦ String

def remember (fingerprints : AList fun _ : ℤ ↦ String) (gameId : ℤ) (fingerprint : String) :
    Except Error (AList fun _ : ℤ ↦ String) :=
  if (fingerprints.lookup gameId).isSome then .error .diesel
  else .ok (fingerprints.insert gameId fingerprint)

/-- A row of `AccountProviderGames` has a key and a game of its own. -/
def insertProviderGame (adb : AccountDb) (provider id : String) (gameId : ℤ) :
    Except Error AccountDb :=
  if (adb.providerGames.lookup (provider, id)).isSome ∨
      ∃ entry ∈ adb.providerGames.entries, entry.2 = gameId then
    .error .diesel
  else .ok { adb with providerGames := adb.providerGames.insert (provider, id) gameId }

/-- A name the schema reserves is none. -/
def AccountGame.reserveNames {S : Shakmaty} (game : AccountGame S) : AccountGame S :=
  { game with
    whiteName := databasePlayerName game.whiteName
    blackName := databasePlayerName game.blackName }

namespace AccountImporter

variable {S : Shakmaty} (env : AccountEnv)

/-- The fingerprints of the stored games. -/
def new (adb : AccountDb) (context : AccountImportContext) : AccountImporter where
  context := context
  newestStartMs := none
  providerIds := ∅
  fingerprints := adb.db.games.rows.filterMapValues fun id row ↦
    if -1 < id then
      (adb.db.storedFields row).map (env.semanticFingerprint context.identity)
    else none

/-- The least stored game of a fingerprint that no provider id is attached to. -/
def legacyGame (importer : AccountImporter) (adb : AccountDb) (fingerprint : String) : Option ℤ :=
  ((importer.fingerprints.entries.filter fun entry ↦
    decide (entry.2 = fingerprint) &&
      !adb.providerGames.entries.any fun link ↦ link.2 = entry.1).map Sigma.fst).min?

def hasFingerprint (importer : AccountImporter) (fingerprint : String) : Bool :=
  importer.fingerprints.entries.any fun entry ↦ decide (entry.2 = fingerprint)

/-- A game is inserted and its fingerprint remembered. -/
def store (importer : AccountImporter) (adb : AccountDb) (game : AccountGame S)
    (fingerprint : String) : Except Error (AccountDb × AccountImporter × ℤ) := do
  let (db, gameId) ← adb.db.insertToDb game.toParsedGame
  let fingerprints ← remember importer.fingerprints gameId fingerprint
  return ({ adb with db := db }, { importer with fingerprints := fingerprints }, gameId)

/-- A game with a provider id takes a stored game that has none, or is stored. -/
def insertIdentified (importer : AccountImporter) (adb : AccountDb) (game : AccountGame S)
    (id fingerprint : String) : Except Error (AccountDb × AccountImporter × Bool) := do
  let provider := importer.context.identity.provider
  if (adb.providerGames.lookup (provider, id)).isSome then return (adb, importer, false)
  match importer.legacyGame adb fingerprint with
  | some gameId =>
      let adb ← insertProviderGame adb provider id gameId
      return (adb, importer, false)
  | none =>
      let (adb, importer, gameId) ← importer.store adb game fingerprint
      let adb ← insertProviderGame adb provider id gameId
      return (adb, importer, true)

/-- A game without a provider id is stored if its fingerprint is new. -/
def insertUnidentified (importer : AccountImporter) (adb : AccountDb) (game : AccountGame S)
    (fingerprint : String) : Except Error (AccountDb × AccountImporter × Bool) := do
  if importer.hasFingerprint fingerprint then return (adb, importer, false)
  let (adb, importer, _) ← importer.store adb game fingerprint
  return (adb, importer, true)

def insert (importer : AccountImporter) (adb : AccountDb) (game : AccountGame S) :
    Except Error (AccountDb × AccountImporter × Bool) := do
  let game := game.reserveNames
  let start := game.date.bind fun date ↦ game.time.bind fun time ↦ env.startMs date time
  let importer := { importer with newestStartMs := max importer.newestStartMs start }
  let identity := importer.context.identity
  let id ← env.providerGameId game.providerHeaders identity
  let fingerprint := env.semanticFingerprint identity game.fingerprintFields
  match id with
  | some id =>
      let importer := { importer with providerIds := {id} ∪ importer.providerIds }
      importer.insertIdentified adb game id fingerprint
  | none => importer.insertUnidentified adb game fingerprint

def finish (importer : AccountImporter) (adb : AccountDb) : AccountDb :=
  let cursor := importer.context.accountSyncCursor importer.newestStartMs importer.providerIds
  { adb with
    db := { adb.db with info := adb.db.info.insert "AccountSyncCursor" (some (toString cursor)) } }

/-- The games of an export, one after the other. -/
def insertAll (importer : AccountImporter) (adb : AccountDb) :
    List (AccountGame S) → Except Error (AccountDb × AccountImporter)
  | [] => .ok (adb, importer)
  | game :: games => do
      let (adb, importer, _) ← importer.insert env adb game
      insertAll importer adb games

end AccountImporter

variable {S : Shakmaty}

def importAccount (env : AccountEnv) (context : AccountImportContext) (adb : AccountDb)
    (games : List (AccountGame S)) : Except Error AccountDb := do
  let (adb, importer) ← (AccountImporter.new env adb context).insertAll env adb games
  return importer.finish adb

/-- One import: the games of an export and the cursor that it computes. -/
structure AccountRun (S : Shakmaty) where
  accountSyncCursor : Option ℤ → Finset String → ℤ
  games : List (AccountGame S)

def importRuns (env : AccountEnv) (identity : AccountIdentity) (adb : AccountDb) :
    List (AccountRun S) → Except Error AccountDb
  | [] => .ok adb
  | run :: runs => do
      let adb ← importAccount env ⟨identity, run.accountSyncCursor⟩ adb run.games
      importRuns env identity adb runs

end EnCroissant

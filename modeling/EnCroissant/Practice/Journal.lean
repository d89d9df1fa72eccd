import Mathlib
import EnCroissant.Practice.DeckMap

/-!
# The review journal of a deck

A deck has a positions document and a log of reviews.  The log is cut into
shards; a review is appended to the last shard before the positions are
replaced, and the positions count how many reviews they stand for.
-/

namespace EnCroissant

def practiceShardSealBytes : ℕ := 128 * 1024

def practicePositionsMaxBytes : ℕ := 8 * 1024 * 1024

def practiceEntryMaxBytes : ℕ := 16 * 1024

def practiceIdMaxBytes : ℕ := 64

def practiceLegacyMaxBytes : ℕ := 8 * 1024 * 1024

def u32Max : ℕ := 4294967295

inductive LegacySource where
  | localStorage
  | none
  deriving DecidableEq, Repr

structure PositionsEnvelope (Value : Type) where
  version : ℕ
  fileId : String
  game : ℤ
  revision : ℕ
  generation : ℕ
  lastEntryId : Option String
  lastEntryDigest : Option String
  appliedEntries : ℕ
  orphanEntries : ℕ
  orphanAcknowledgedCount : ℕ
  legacySource : LegacySource
  migratedAt : Option String
  migratedEntries : Option ℕ
  migratedPositionsDigest : Option String
  positions : List Value
  deriving DecidableEq

structure ReviewShardEntry (Value : Type) where
  id : String
  rev : ℕ
  entry : Value
  deriving DecidableEq

structure ReviewShardEnvelope (Value : Type) where
  version : ℕ
  fileId : String
  game : ℤ
  generation : ℕ
  ordinal : ℕ
  entries : List (ReviewShardEntry Value)
  deriving DecidableEq

inductive MigrationPhase where
  | migrating
  | migrated
  | reset
  deriving DecidableEq, Repr

structure MigrationStateEnvelope where
  version : ℕ
  fileId : String
  game : ℤ
  phase : MigrationPhase
  legacyDigest : String
  deriving DecidableEq

/-- A shard with the generation and the ordinal in the name of its leaf. -/
structure ShardFile (Value : Type) where
  leaf : ℕ × ℕ
  envelope : ReviewShardEnvelope Value
  deriving DecidableEq

/-- The leaves of one deck. -/
structure DeckStore (Value : Type) where
  state : Option MigrationStateEnvelope
  positions : Option (PositionsEnvelope Value)
  shards : List (ShardFile Value)
  deriving DecidableEq

/-- What the functions take from outside: the deck, `hash_deck`, JSON, and
SHA-256.  `canonical` sorts the keys of objects, `render` is
`serde_json::to_string`, and `digest` hashes the canonical form. -/
structure JournalEnv (Value : Type) where
  fileId : String
  game : ℤ
  hashDeck : String → ℤ → String
  parse : String → Option Value
  positionsOf : Value → Option (List Value)
  positionsObject : List Value → Value
  canonical : Value → Value
  render : Value → String
  digest : Value → String
  positionsLength : PositionsEnvelope Value → ℕ
  shardLength : ReviewShardEnvelope Value → ℕ
  stateLength : MigrationStateEnvelope → ℕ
  digest_length : ∀ value, (digest value).utf8ByteSize = 64
  /-- JSON of bounded length is written with a bounded length. -/
  shardLength_single : ∀ generation ordinal rev id text value, generation ≤ u32Max →
    ordinal ≤ u32Max → rev ≤ u32Max → String.utf8ByteSize id ≤ practiceIdMaxBytes →
      String.utf8ByteSize text ≤ practiceEntryMaxBytes → parse text = some value →
        shardLength ⟨practiceStorageVersion, fileId, game, generation, ordinal,
          [⟨id, rev, canonical value⟩]⟩ ≤ practiceLegacyMaxBytes

def JournalEnv.hash {Value : Type} (env : JournalEnv Value) : String :=
  env.hashDeck env.fileId env.game

def positionsLeaf (hash : String) : String := hash ++ "-positions.json"

def stateLeaf (hash : String) : String := hash ++ "-state.json"

def shardLeaf (hash : String) (generation ordinal : ℕ) : String :=
  hash ++ "-g" ++ generation.repr ++ "-reviews-" ++ ordinal.repr ++ ".json"

variable {Value : Type}

/-! ## Reading -/

def nextCounter (value : ℕ) (label : String) : Except Error ℕ :=
  if value + 1 > u32Max then .error (.conflict ("practice " ++ label ++ " reached its limit"))
  else .ok (value + 1)

/-- `read_json` of a document that was written with the given length. -/
def readJson {α : Type} (leaf : String) (length maxBytes : ℕ) (document : α) :
    Except Error α :=
  if length > maxBytes then .error (invalidLeaf leaf "document exceeds its size limit")
  else .ok document

def checkIdentity (env : JournalEnv Value) (leaf : String) (version : ℕ) (fileId : String)
    (game : ℤ) : Except Error String :=
  if version ≠ practiceStorageVersion then
    .error (invalidLeaf leaf "unsupported storage version")
  else if env.hashDeck fileId game ≠ env.hash then
    .error (invalidLeaf leaf "identity does not match its leaf")
  else .ok (env.hashDeck fileId game)

def validatePositionsDocument (env : JournalEnv Value) (raw leaf : String) :
    Except Error (List Value) :=
  if raw.utf8ByteSize > practicePositionsMaxBytes then
    .error (invalidLeaf leaf "positions document exceeds its size limit")
  else
    match env.parse raw with
    | none => .error (invalidLeaf leaf "positions JSON is malformed")
    | some value =>
        match env.positionsOf value with
        | none => .error (invalidLeaf leaf "positions document has no positions array")
        | some positions =>
            if (env.render (env.canonical (env.positionsObject positions))).utf8ByteSize >
                practicePositionsMaxBytes then
              .error (invalidLeaf leaf "positions array exceeds its size limit")
            else .ok positions

def anchorInvalid (envelope : PositionsEnvelope Value) : Bool :=
  (envelope.lastEntryId.any fun id ↦ id.utf8ByteSize > practiceIdMaxBytes) ||
    envelope.lastEntryDigest.any fun digest ↦ digest.utf8ByteSize ≠ 64

def migrationIncomplete (envelope : PositionsEnvelope Value) : Bool :=
  envelope.legacySource = .localStorage &&
    (envelope.migratedEntries.isNone || envelope.migratedPositionsDigest.isNone)

def readPositions (env : JournalEnv Value) (store : DeckStore Value) :
    Except Error (Option (PositionsEnvelope Value)) :=
  match store.positions with
  | none => .ok none
  | some stored => do
      let leaf := positionsLeaf env.hash
      let envelope ← readJson leaf (env.positionsLength stored) practicePositionsMaxBytes stored
      let _ ← checkIdentity env leaf envelope.version envelope.fileId envelope.game
      if anchorInvalid envelope then .error (invalidLeaf leaf "entry anchor is invalid")
      else if migrationIncomplete envelope then
        .error (invalidLeaf leaf "migration metadata is incomplete")
      else .ok (some { envelope with positions := envelope.positions.map env.canonical })

def readState (env : JournalEnv Value) (store : DeckStore Value) :
    Except Error (Option MigrationStateEnvelope) :=
  match store.state with
  | none => .ok none
  | some stored => do
      let leaf := stateLeaf env.hash
      let state ← readJson leaf (env.stateLength stored) practiceLegacyMaxBytes stored
      let _ ← checkIdentity env leaf state.version state.fileId state.game
      if state.legacyDigest.utf8ByteSize ≠ 64 then
        .error (invalidLeaf leaf "migration digest is invalid")
      else .ok (some state)

def reviewInvalid (review : ReviewShardEntry Value) : Bool :=
  review.id.isEmpty || review.id.utf8ByteSize > practiceIdMaxBytes || review.rev = 0

def readShard (env : JournalEnv Value) (file : ShardFile Value) :
    Except Error (ShardFile Value) := do
  let name := shardLeaf env.hash file.leaf.1 file.leaf.2
  let envelope ← readJson name (env.shardLength file.envelope) practiceLegacyMaxBytes file.envelope
  let _ ← checkIdentity env name envelope.version envelope.fileId envelope.game
  if envelope.generation ≠ file.leaf.1 ∨ envelope.ordinal ≠ file.leaf.2 ∨
      envelope.entries = [] then
    .error (invalidLeaf name "review shard identity is invalid")
  else if envelope.entries.any reviewInvalid then
    .error (invalidLeaf name "review entry identity is invalid")
  else .ok file

/-- The shards of a generation by their ordinals. -/
def shardsOf (store : DeckStore Value) (generation : ℕ) : List (ShardFile Value) :=
  store.shards.filter fun file ↦ file.leaf.1 = generation

def readShards (env : JournalEnv Value) (store : DeckStore Value) (generation : ℕ) :
    Except Error (List (ShardFile Value)) := do
  let shards ← (shardsOf store generation).mapM (readShard env)
  .ok (shards.mergeSort fun a b ↦ a.envelope.ordinal ≤ b.envelope.ordinal)

/-- The reviews of the shards, in order. -/
def reviewsOf (shards : List (ShardFile Value)) : List (ReviewShardEntry Value) :=
  shards.flatMap fun shard ↦ shard.envelope.entries

structure Reconciliation where
  totalEntries : ℕ
  orphanEntries : ℕ
  deriving DecidableEq, Repr

def countEntries : (total : ℕ) → List (ShardFile Value) → Except Error ℕ
  | total, [] => .ok total
  | total, shard :: shards =>
      if shard.envelope.entries.length > u32Max ∨
          total + shard.envelope.entries.length > u32Max then
        .error (.conflict "practice review count exceeded u32::MAX")
      else countEntries (total + shard.envelope.entries.length) shards

def reconcile (envelope : PositionsEnvelope Value) (shards : List (ShardFile Value))
    (leaf : String) : Except Error Reconciliation := do
  let total ← countEntries 0 shards
  if total < envelope.appliedEntries then
    .error (invalidLeaf leaf "review history is missing entries")
  else if envelope.orphanEntries + (total - envelope.appliedEntries) > u32Max then
    .error (.conflict "practice orphan count exceeded u32::MAX")
  else .ok ⟨total, envelope.orphanEntries + (total - envelope.appliedEntries)⟩

def loadValidDeck (env : JournalEnv Value) (store : DeckStore Value) :
    Except Error
      (Option (PositionsEnvelope Value × List (ShardFile Value) × Reconciliation)) := do
  let state ← readState env store
  match ← readPositions env store with
  | none =>
      if state.any fun state ↦ state.phase = .reset then .ok none
      else if state.isSome || !store.shards.isEmpty then
        .error (invalidLeaf (positionsLeaf env.hash) "positions document is missing")
      else .ok none
  | some envelope => do
      let shards ← readShards env store envelope.generation
      let reconciliation ← reconcile envelope shards (positionsLeaf env.hash)
      .ok (some (envelope, shards, reconciliation))

structure PracticeDeckSnapshot where
  positionsDocument : String
  revision : ℕ
  generation : ℕ
  migrated : Bool
  unappliedReviews : ℕ
  orphansAcknowledged : Bool
  deriving DecidableEq, Repr

def snapshotFrom (env : JournalEnv Value) (envelope : PositionsEnvelope Value)
    (reconciliation : Reconciliation) : PracticeDeckSnapshot where
  positionsDocument := env.render (env.positionsObject envelope.positions)
  revision := envelope.revision
  generation := envelope.generation
  migrated := envelope.legacySource = .localStorage
  unappliedReviews := reconciliation.orphanEntries
  orphansAcknowledged := reconciliation.orphanEntries ≤ envelope.orphanAcknowledgedCount

def loadPracticeDeck (env : JournalEnv Value) (store : DeckStore Value) :
    Except Error (Option PracticeDeckSnapshot) := do
  let loaded ← loadValidDeck env store
  .ok (loaded.map fun deck ↦ snapshotFrom env deck.1 deck.2.2)

/-! ## Writing -/

/-- A leaf that is replaced or removed at once. -/
inductive JournalWrite (Value : Type) where
  | putShard (file : ShardFile Value)
  | putPositions (envelope : PositionsEnvelope Value)
  | removeShard (leaf : ℕ × ℕ)
  deriving DecidableEq

def putFile (file : ShardFile Value) : List (ShardFile Value) → List (ShardFile Value)
  | [] => [file]
  | f :: files => if f.leaf = file.leaf then file :: files else f :: putFile file files

def DeckStore.write (store : DeckStore Value) : JournalWrite Value → DeckStore Value
  | .putShard file => { store with shards := putFile file store.shards }
  | .putPositions envelope => { store with positions := some envelope }
  | .removeShard leaf => { store with shards := store.shards.filter (·.leaf ≠ leaf) }

/-- The writes of an operation, in order, and what it returns after them. -/
structure Plan (Value : Type) (α : Type) where
  writes : List (JournalWrite Value)
  result : Except Error α

def ensurePositionsSize (env : JournalEnv Value) (envelope : PositionsEnvelope Value) :
    Except Error Unit :=
  if env.positionsLength envelope > practicePositionsMaxBytes then
    .error (invalidLeaf (positionsLeaf env.hash) "positions document exceeds its size limit")
  else .ok ()

def validateEntry (env : JournalEnv Value) (entry leaf : String) : Except Error Value :=
  if entry.utf8ByteSize > practiceEntryMaxBytes then
    .error (invalidLeaf leaf "review entry exceeds its size limit")
  else
    match env.parse entry with
    | none => .error (invalidLeaf leaf "review entry is malformed JSON")
    | some value => .ok value

/-- The last shard with the review, or a new one when the last is full. -/
def appendSealedReview (env : JournalEnv Value) (generation : ℕ)
    (shards : List (ReviewShardEnvelope Value)) (review : ReviewShardEntry Value) :
    Except Error (List (ReviewShardEnvelope Value)) :=
  let current := shards.getLast?.getD
    ⟨practiceStorageVersion, env.fileId, env.game, generation, 0, []⟩
  let candidate := { current with entries := current.entries ++ [review] }
  if !current.entries.isEmpty && env.shardLength candidate > practiceShardSealBytes then do
    let ordinal ← nextCounter current.ordinal "shard ordinal"
    .ok (shards.dropLast ++ [current,
      ⟨practiceStorageVersion, env.fileId, env.game, generation, ordinal, [review]⟩])
  else .ok (shards.dropLast ++ [candidate])

/-- The shard that `append_review` writes. -/
def appendReview (env : JournalEnv Value) (generation revision : ℕ)
    (latestShard : Option (ReviewShardEnvelope Value)) (entryId : String) (entry : Value) :
    Except Error (ShardFile Value) := do
  let next ← appendSealedReview env generation latestShard.toList
    ⟨entryId, revision, env.canonical entry⟩
  match next.getLast? with
  | none => .error (.invalidInput "practice review shard is empty")
  | some target => .ok ⟨(generation, target.ordinal), target⟩

/-- The reviews are searched from the last one back. -/
def findSince (baseRevision : ℕ) (entryId : String) :
    List (ReviewShardEntry Value) → Option Value
  | [] => none
  | review :: reviews =>
      if review.rev ≤ baseRevision then none
      else if review.id = entryId then some review.entry
      else findSince baseRevision entryId reviews

def findEntrySince (shards : List (ShardFile Value)) (baseRevision : ℕ) (entryId : String) :
    Option Value :=
  findSince baseRevision entryId
    (shards.reverse.flatMap fun shard ↦ shard.envelope.entries.reverse)

def positionFrom (entryId : String) : (position : ℕ) → List (ReviewShardEntry Value) → Option ℕ
  | _, [] => none
  | position, review :: reviews =>
      if review.id = entryId then some position
      else if position + 1 > u32Max then none
      else positionFrom entryId (position + 1) reviews

def entryPosition (shards : List (ShardFile Value)) (entryId : String) : Option ℕ :=
  positionFrom entryId 0 (reviewsOf shards)

/-! ## Operations -/

structure PracticeReviewWrite where
  generation : ℕ
  revision : ℕ
  baseRevision : ℕ
  positionsDocument : String
  entry : String
  entryId : String
  deriving DecidableEq, Repr

/-- The orphans that the positions record stand for: those before, the ones that
they go past, and not the review that a retry applies. -/
def orphansAfter (envelope : PositionsEnvelope Value) (reconciliation : Reconciliation)
    (existingPosition : Option ℕ) : Except Error ℕ :=
  if existingPosition.any fun position ↦ position ≥ envelope.appliedEntries then
    if reconciliation.orphanEntries = 0 then
      .error (.invalidInput "practice reconciliation count is inconsistent")
    else .ok (reconciliation.orphanEntries - 1)
  else .ok reconciliation.orphanEntries

def recordPracticeReview (env : JournalEnv Value) (store : DeckStore Value)
    (request : PracticeReviewWrite) : Except Error (Plan Value ℕ) := do
  if request.entryId.isEmpty || request.entryId.utf8ByteSize > practiceIdMaxBytes then
    .error (.invalidInput "practice entry id is invalid")
  else do
    let positions ← validatePositionsDocument env request.positionsDocument "incoming-positions"
    let entry ← validateEntry env request.entry "incoming-review"
    match ← loadValidDeck env store with
    | none =>
        .error (invalidLeaf (positionsLeaf env.hash) "a rating needs a positions document")
    | some (envelope, shards, reconciliation) =>
        if envelope.generation ≠ request.generation then
          .error (.conflict "practice deck generation changed")
        else if envelope.lastEntryId = some request.entryId then
          if envelope.lastEntryDigest ≠ some (env.digest entry) then
            .error (.invalidInput "practice entry id was reused for different content")
          else .ok ⟨[], .ok envelope.revision⟩
        else if envelope.revision ≠ request.revision then
          .error (.conflict "practice deck revision changed")
        else
          let existing := findEntrySince shards request.baseRevision request.entryId
          if existing.any fun existing ↦ env.digest existing ≠ env.digest entry then
            .error (.invalidInput "practice entry id was reused for different content")
          else do
            let nextRevision ← nextCounter envelope.revision "revision"
            let orphanEntries ← orphansAfter envelope reconciliation
              (existing.bind fun _ ↦ entryPosition shards request.entryId)
            let appliedEntries := reconciliation.totalEntries + if existing.isNone then 1 else 0
            if appliedEntries > u32Max then
              .error (.conflict "practice review count exceeded u32::MAX")
            else do
              let next := { envelope with
                revision := nextRevision
                lastEntryId := some request.entryId
                lastEntryDigest := some (env.digest entry)
                appliedEntries := appliedEntries
                orphanEntries := orphanEntries
                positions := positions }
              ensurePositionsSize env next
              if existing.isNone then do
                let file ← appendReview env request.generation nextRevision
                  (shards.getLast?.map ShardFile.envelope) request.entryId entry
                .ok ⟨[.putShard file, .putPositions next], .ok nextRevision⟩
              else .ok ⟨[.putPositions next], .ok nextRevision⟩

def newPositions (env : JournalEnv Value) (positions : List Value) : PositionsEnvelope Value where
  version := practiceStorageVersion
  fileId := env.fileId
  game := env.game
  revision := 1
  generation := 0
  lastEntryId := none
  lastEntryDigest := none
  appliedEntries := 0
  orphanEntries := 0
  orphanAcknowledgedCount := 0
  legacySource := .none
  migratedAt := none
  migratedEntries := none
  migratedPositionsDigest := none
  positions := positions

def syncPracticePositions (env : JournalEnv Value) (store : DeckStore Value)
    (generation revision : ℕ) (positionsDocument : String) : Except Error (Plan Value ℕ) := do
  let positions ← validatePositionsDocument env positionsDocument "incoming-positions"
  let state ← readState env store
  match ← readPositions env store with
  | none =>
      if (!(state.any fun state ↦ state.phase = .reset) && state.isSome) ||
          !store.shards.isEmpty || revision ≠ 0 || generation ≠ 0 then
        .error (.conflict "practice deck creation races existing state")
      else do
        let envelope := newPositions env positions
        ensurePositionsSize env envelope
        .ok ⟨[.putPositions envelope], .ok envelope.revision⟩
  | some envelope =>
      if envelope.generation ≠ generation ∨ envelope.revision ≠ revision then
        .error (.conflict "practice deck revision or generation changed")
      else do
        let shards ← readShards env store generation
        let reconciliation ← reconcile envelope shards (positionsLeaf env.hash)
        let nextRevision ← nextCounter envelope.revision "revision"
        let next := { envelope with
          revision := nextRevision
          appliedEntries := reconciliation.totalEntries
          orphanEntries := reconciliation.orphanEntries
          positions := positions }
        ensurePositionsSize env next
        .ok ⟨[.putPositions next], .ok nextRevision⟩

def resetPracticeDeck (env : JournalEnv Value) (store : DeckStore Value)
    (generation revision : ℕ) (positionsDocument : String) : Except Error (Plan Value ℕ) := do
  let positions ← validatePositionsDocument env positionsDocument "incoming-positions"
  match ← readPositions env store with
  | none => .error (invalidLeaf (positionsLeaf env.hash) "cannot reset an empty deck")
  | some envelope =>
      if envelope.generation ≠ generation ∨ envelope.revision ≠ revision then
        .error (.conflict "practice deck revision or generation changed")
      else do
        let nextGeneration ← nextCounter envelope.generation "generation"
        let next := { envelope with
          revision := if envelope.revision = u32Max then 1 else envelope.revision + 1
          generation := nextGeneration
          lastEntryId := none
          lastEntryDigest := none
          appliedEntries := 0
          orphanEntries := 0
          orphanAcknowledgedCount := 0
          positions := positions }
        ensurePositionsSize env next
        match readShards env store envelope.generation with
        | .error cause => .ok ⟨[.putPositions next], .error (.partialRemoval 0 cause)⟩
        | .ok oldShards =>
            .ok ⟨.putPositions next :: oldShards.map fun shard ↦ .removeShard shard.leaf,
              .ok next.revision⟩

def acknowledgePracticeOrphans (env : JournalEnv Value) (store : DeckStore Value)
    (generation acknowledgedCount : ℕ) : Except Error (Plan Value Unit) := do
  match ← loadValidDeck env store with
  | none => .error (invalidLeaf (positionsLeaf env.hash) "cannot acknowledge an empty deck")
  | some (envelope, _, _) =>
      if envelope.generation ≠ generation then
        .error (.conflict "practice deck generation changed")
      else do
        let next := { envelope with orphanAcknowledgedCount := acknowledgedCount }
        ensurePositionsSize env next
        .ok ⟨[.putPositions next], .ok ()⟩

end EnCroissant

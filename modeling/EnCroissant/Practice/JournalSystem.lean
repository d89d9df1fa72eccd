import Mathlib
import EnCroissant.Library.AppliedLog
import EnCroissant.Library.Machine
import EnCroissant.Practice.JournalFacts

/-!
# Clients, crashes and the journal

Clients load a deck, rate a position and record the review, again and again
until they are answered; a crash keeps the first writes of an operation and
loses the others.
-/

namespace EnCroissant

variable {Value : Type}

/-- A review that a client wants recorded, and the deck it was rated on. -/
structure Rating where
  entryId : String
  generation : ℕ
  baseRevision : ℕ
  deriving DecidableEq, Repr

structure Journal (Value : Type) where
  store : DeckStore Value
  ratings : List Rating
  /-- The ids of the reviews whose record was written to the positions. -/
  committed : List String
  /-- The ids of the reviews that waited when the positions were written for another one. -/
  overtaken : List String
  deriving DecidableEq

inductive JournalRequest where
  | record (request : PracticeReviewWrite)
  | sync (generation revision : ℕ) (positionsDocument : String)
  | reset (generation revision : ℕ) (positionsDocument : String)
  | acknowledge (generation acknowledgedCount : ℕ)

/-- The writes of a request. -/
def planWrites (env : JournalEnv Value) (store : DeckStore Value) :
    JournalRequest → Except Error (List (JournalWrite Value))
  | .record request => Plan.writes <$> recordPracticeReview env store request
  | .sync generation revision document =>
      Plan.writes <$> syncPracticePositions env store generation revision document
  | .reset generation revision document =>
      Plan.writes <$> resetPracticeDeck env store generation revision document
  | .acknowledge generation count =>
      Plan.writes <$> acknowledgePracticeOrphans env store generation count

/-- The log of the deck: the reviews of its generation. -/
def Journal.log (env : JournalEnv Value) (s : Journal Value) : List (ReviewShardEntry Value) :=
  match s.store.positions with
  | none => []
  | some envelope =>
      match readShards env s.store envelope.generation with
      | .error _ => []
      | .ok shards => reviewsOf shards

/-- The log with the positions' count, as far as it matters for the counting. -/
def Journal.tally (env : JournalEnv Value) (s : Journal Value)
    (envelope : PositionsEnvelope Value) : AppliedLog String where
  entries := (s.log env).map ReviewShardEntry.id
  applied := envelope.appliedEntries
  orphans := envelope.orphanEntries
  committed := s.committed
  overtaken := s.overtaken

/-- The positions are written for the reviews `own`. -/
def Journal.commit (env : JournalEnv Value) (s : Journal Value)
    (envelope : PositionsEnvelope Value) (own : List String) : Journal Value :=
  { s with
    store := s.store.write (.putPositions envelope)
    committed := own ++ s.committed
    overtaken := s.overtaken ++ (s.tally env envelope).waiting.filter fun id ↦ id ∉ own }

/-- One write of a request reaches the disk. -/
def Journal.land (env : JournalEnv Value) (request : JournalRequest) (s : Journal Value) :
    JournalWrite Value → Journal Value
  | .putPositions envelope =>
      match request with
      | .record request => s.commit env envelope [request.entryId]
      | .sync _ _ _ => s.commit env envelope []
      | .reset _ _ _ =>
          { s with
            store := s.store.write (.putPositions envelope), committed := [], overtaken := [] }
      | .acknowledge _ _ => { s with store := s.store.write (.putPositions envelope) }
  | write => { s with store := s.store.write write }

/-- A request of which the first `landed` writes reach the disk. -/
def Journal.perform (env : JournalEnv Value) (s : Journal Value) (request : JournalRequest)
    (landed : ℕ) : Journal Value :=
  match planWrites env s.store request with
  | .error _ => s
  | .ok writes => (writes.take landed).foldl (Journal.land env request) s

inductive JournalAction where
  /-- A client loads the deck and rates a position. -/
  | rate (entryId : String)
  | request (request : JournalRequest) (landed : ℕ)

/-- Ids of reviews are new when a position is rated; a record presents the
generation and the base revision of its rating. -/
def journalStep (env : JournalEnv Value) (s : Journal Value) (a : JournalAction)
    (s' : Journal Value) : Prop :=
  match a with
  | .rate entryId =>
      ∃ snapshot, loadPracticeDeck env s.store = .ok (some snapshot) ∧
        entryId ∉ (s.log env).map ReviewShardEntry.id ∧
          s' = { s with
            ratings := ⟨entryId, snapshot.generation, snapshot.revision⟩ :: s.ratings }
  | .request request landed =>
      (∀ write, request = .record write →
        ⟨write.entryId, write.generation, write.baseRevision⟩ ∈ s.ratings) ∧
          s' = s.perform env request landed

/-! ## The invariant -/

/-- The review and all later ones are newer than the base. -/
def NewerFrom (reviews : List (ReviewShardEntry Value)) (entryId : String) (base : ℕ) : Prop :=
  ∀ r ∈ reviews.dropWhile fun review ↦ review.id ≠ entryId, base < r.rev

/-- A deck with positions, in order. -/
structure Journal.Deck (env : JournalEnv Value) (s : Journal Value)
    (envelope : PositionsEnvelope Value) : Prop where
  state : readState env s.store = .ok s.store.state
  positions : s.store.positions = some envelope
  readable : ReadableEnvelope env envelope
  generation_le : envelope.generation ≤ u32Max
  generations : ∀ file ∈ s.store.shards, file.leaf.1 ≤ envelope.generation
  row : ShardRow env envelope.generation (shardsOf s.store envelope.generation)
  count : (s.log env).length ≤ u32Max
  tally : (s.tally env envelope).Ok
  ratings : ∀ rating ∈ s.ratings, rating.generation ≤ envelope.generation ∧
    (rating.generation = envelope.generation →
      rating.baseRevision ≤ envelope.revision ∧
        NewerFrom (s.log env) rating.entryId rating.baseRevision)

/-- A deck that was not created yet. -/
structure Journal.Fresh (env : JournalEnv Value) (s : Journal Value) : Prop where
  state : readState env s.store = .ok s.store.state
  positions : s.store.positions = none
  shards : s.store.shards = []
  ratings : s.ratings = []
  committed : s.committed = []
  overtaken : s.overtaken = []

/-- A deck that was just migrated: its reviews are all applied. -/
structure Journal.Migrated (env : JournalEnv Value) (s : Journal Value)
    (envelope : PositionsEnvelope Value) : Prop where
  deck : s.Deck env envelope
  ratings : s.ratings = []
  committed : s.committed = (s.log env).map ReviewShardEntry.id
  overtaken : s.overtaken = []

def journalMachine (env : JournalEnv Value) : Machine (Journal Value) JournalAction where
  init s := s.Fresh env ∨ ∃ envelope, s.Migrated env envelope
  step := journalStep env

def Journal.Inv (env : JournalEnv Value) (s : Journal Value) : Prop :=
  s.Fresh env ∨ ∃ envelope, s.Deck env envelope

end EnCroissant

import Mathlib
import EnCroissant.Library.Versioned
import EnCroissant.Practice.JournalFacts

/-!
# The stored deck and its calls

What the clients of a deck see of its store: a positions document with a
revision and a generation, and calls that replace it only when they name both.
-/

namespace EnCroissant.Practice

/-- A deck as its clients see it. -/
structure StoredDeck (P : Type*) where
  revision : ℕ
  generation : ℕ
  positions : P
  deriving DecidableEq

inductive Call (P : Type*) where
  | load
  | record (generation revision : ℕ) (positions : P)
  | sync (generation revision : ℕ) (positions : P)
  | reset (generation revision : ℕ) (positions : P)
  deriving DecidableEq

inductive Reply (P : Type*) where
  | loaded (deck : Option (StoredDeck P))
  | revision (next : ℕ)
  | conflict
  | failed
  deriving DecidableEq

variable {P : Type*}

/-- A write is refused unless it names the generation and the revision of the
deck and the counters can go on. -/
def replaceDeck (deck : StoredDeck P) (generation revision : ℕ) (limit : Bool)
    (next : StoredDeck P) : Option (StoredDeck P) × Reply P :=
  if deck.generation ≠ generation ∨ deck.revision ≠ revision ∨ limit then (some deck, .conflict)
  else (some next, .revision next.revision)

def serveRecord (deck : Option (StoredDeck P)) (generation revision : ℕ) (positions : P) :
    Option (StoredDeck P) × Reply P :=
  match deck with
  | none => (none, .failed)
  | some d =>
      replaceDeck d generation revision (d.revision + 1 > u32Max)
        ⟨d.revision + 1, d.generation, positions⟩

def serveSync (deck : Option (StoredDeck P)) (generation revision : ℕ) (positions : P) :
    Option (StoredDeck P) × Reply P :=
  match deck with
  | none =>
      if revision ≠ 0 ∨ generation ≠ 0 then (none, .conflict)
      else (some ⟨1, 0, positions⟩, .revision 1)
  | some d =>
      replaceDeck d generation revision (d.revision + 1 > u32Max)
        ⟨d.revision + 1, d.generation, positions⟩

def serveReset (deck : Option (StoredDeck P)) (generation revision : ℕ) (positions : P) :
    Option (StoredDeck P) × Reply P :=
  match deck with
  | none => (none, .failed)
  | some d =>
      replaceDeck d generation revision (d.generation + 1 > u32Max)
        ⟨if d.revision = u32Max then 1 else d.revision + 1, d.generation + 1, positions⟩

/-- The deck and the answer after a call. -/
def serve (deck : Option (StoredDeck P)) : Call P → Option (StoredDeck P) × Reply P
  | .load => (deck, .loaded deck)
  | .record generation revision positions => serveRecord deck generation revision positions
  | .sync generation revision positions => serveSync deck generation revision positions
  | .reset generation revision positions => serveReset deck generation revision positions

/-! ## What a call can do -/

/-- The generation and the revision that a call names, and the generation and the
positions that it writes. -/
inductive Call.Writes : Call P → ℕ → ℕ → ℕ → P → Prop where
  | record (generation revision : ℕ) (positions : P) :
      Writes (.record generation revision positions) generation revision generation positions
  | sync (generation revision : ℕ) (positions : P) :
      Writes (.sync generation revision positions) generation revision generation positions
  | reset (generation revision : ℕ) (positions : P) :
      Writes (.reset generation revision positions) generation revision (generation + 1)
        positions

theorem Call.writes_record {generation revision a b c : ℕ} {positions p : P} :
    (Call.record generation revision positions).Writes a b c p ↔
      a = generation ∧ b = revision ∧ c = generation ∧ p = positions := by
  constructor
  · rintro ⟨⟩
    exact ⟨rfl, rfl, rfl, rfl⟩
  · rintro ⟨rfl, rfl, rfl, rfl⟩
    exact .record ..

theorem Call.writes_sync {generation revision a b c : ℕ} {positions p : P} :
    (Call.sync generation revision positions).Writes a b c p ↔
      a = generation ∧ b = revision ∧ c = generation ∧ p = positions := by
  constructor
  · rintro ⟨⟩
    exact ⟨rfl, rfl, rfl, rfl⟩
  · rintro ⟨rfl, rfl, rfl, rfl⟩
    exact .sync ..

theorem Call.writes_reset {generation revision a b c : ℕ} {positions p : P} :
    (Call.reset generation revision positions).Writes a b c p ↔
      a = generation ∧ b = revision ∧ c = generation + 1 ∧ p = positions := by
  constructor
  · rintro ⟨⟩
    exact ⟨rfl, rfl, rfl, rfl⟩
  · rintro ⟨rfl, rfl, rfl, rfl⟩
    exact .reset ..

theorem Call.not_writes_load {a b c : ℕ} {p : P} : ¬(Call.load : Call P).Writes a b c p :=
  fun h ↦ by cases h

/-- A deck that was not created yet has the counters that a client starts with. -/
def deckCounters (deck : Option (StoredDeck P)) : ℕ × ℕ :=
  match deck with
  | none => (0, 0)
  | some d => (d.generation, d.revision)

/-- A call that wrote named the counters of the deck, and they have grown. -/
structure Served (deck : Option (StoredDeck P)) (call : Call P) (after : StoredDeck P) :
    Prop where
  writes : call.Writes (deckCounters deck).1 (deckCounters deck).2 after.generation
    after.positions
  grown : (deckCounters deck).1 < after.generation ∨
    (deckCounters deck).1 = after.generation ∧ (deckCounters deck).2 < after.revision
  served : serve deck call = (some after, .revision after.revision)

theorem replaceDeck_cases (deck : StoredDeck P) (generation revision : ℕ) (limit : Bool)
    (next : StoredDeck P) :
    replaceDeck deck generation revision limit next = (some deck, .conflict) ∨
      deck.generation = generation ∧ deck.revision = revision ∧
        replaceDeck deck generation revision limit next = (some next, .revision next.revision) := by
  rw [replaceDeck]
  split_ifs with hstale
  · exact Or.inl rfl
  · obtain ⟨hgeneration, hstale⟩ := not_or.mp hstale
    obtain ⟨hrevision, -⟩ := not_or.mp hstale
    exact Or.inr ⟨not_not.mp hgeneration, not_not.mp hrevision, rfl⟩

theorem replaceDeck_of_current {deck : StoredDeck P} {generation revision : ℕ} {limit : Prop}
    [Decidable limit] (next : StoredDeck P) (hgeneration : deck.generation = generation)
    (hrevision : deck.revision = revision) (hlimit : ¬limit) :
    replaceDeck deck generation revision limit next = (some next, .revision next.revision) := by
  rw [replaceDeck, hgeneration, hrevision]
  simp [hlimit]

/-- A call writes, or it leaves the deck and says what it is. -/
theorem serve_cases (deck : Option (StoredDeck P)) (call : Call P) :
    (∃ after, Served deck call after) ∨
      ∃ reply, serve deck call = (deck, reply) ∧
        (reply = .loaded deck ∨ reply = .conflict ∨ reply = .failed) := by
  cases call with
  | load => exact Or.inr ⟨_, rfl, Or.inl rfl⟩
  | record generation revision positions =>
      cases deck with
      | none => exact Or.inr ⟨_, rfl, Or.inr (Or.inr rfl)⟩
      | some d =>
          rcases replaceDeck_cases d generation revision (d.revision + 1 > u32Max)
            ⟨d.revision + 1, d.generation, positions⟩ with h | ⟨rfl, rfl, h⟩
          · exact Or.inr ⟨_, h, Or.inr (Or.inl rfl)⟩
          · exact Or.inl ⟨⟨d.revision + 1, d.generation, positions⟩, .record _ _ _,
              Or.inr ⟨rfl, Nat.lt_succ_self _⟩, h⟩
  | sync generation revision positions =>
      cases deck with
      | none =>
          by_cases hstale : revision ≠ 0 ∨ generation ≠ 0
          · exact Or.inr ⟨_, if_pos hstale, Or.inr (Or.inl rfl)⟩
          · obtain ⟨hrevision, hgeneration⟩ := not_or.mp hstale
            obtain rfl := not_not.mp hrevision
            obtain rfl := not_not.mp hgeneration
            exact Or.inl ⟨⟨1, 0, positions⟩, .sync _ _ _, Or.inr ⟨rfl, Nat.one_pos⟩, rfl⟩
      | some d =>
          rcases replaceDeck_cases d generation revision (d.revision + 1 > u32Max)
            ⟨d.revision + 1, d.generation, positions⟩ with h | ⟨rfl, rfl, h⟩
          · exact Or.inr ⟨_, h, Or.inr (Or.inl rfl)⟩
          · exact Or.inl ⟨⟨d.revision + 1, d.generation, positions⟩, .sync _ _ _,
              Or.inr ⟨rfl, Nat.lt_succ_self _⟩, h⟩
  | reset generation revision positions =>
      cases deck with
      | none => exact Or.inr ⟨_, rfl, Or.inr (Or.inr rfl)⟩
      | some d =>
          rcases replaceDeck_cases d generation revision (d.generation + 1 > u32Max)
            ⟨if d.revision = u32Max then 1 else d.revision + 1, d.generation + 1, positions⟩
            with h | ⟨rfl, rfl, h⟩
          · exact Or.inr ⟨_, h, Or.inr (Or.inl rfl)⟩
          · exact Or.inl ⟨⟨if d.revision = u32Max then 1 else d.revision + 1, d.generation + 1,
              positions⟩, .reset _ _ _, Or.inl (Nat.lt_succ_self _), h⟩

/-! ## The journal serves these calls -/

variable {Value : Type} {env : JournalEnv Value} {store : DeckStore Value}

/-- The deck that a store holds. -/
def storedDeck (store : DeckStore Value) : Option (StoredDeck (List Value)) :=
  store.positions.map fun envelope ↦ ⟨envelope.revision, envelope.generation, envelope.positions⟩

def DeckStore.after {α : Type} (store : DeckStore Value) (plan : Plan Value α) :
    DeckStore Value :=
  plan.writes.foldl DeckStore.write store

theorem readPositions_eq_some {envelope : PositionsEnvelope Value}
    (h : readPositions env store = .ok (some envelope)) :
    ∃ stored, store.positions = some stored ∧ envelope = stored.canonical env := by
  unfold readPositions at h
  cases hstored : store.positions with
  | none =>
      rw [hstored] at h
      cases h
  | some stored =>
      rw [hstored] at h
      obtain ⟨read, hread, h⟩ := bind_eq_ok h
      have hsame : read = stored := by
        rw [readJson] at hread
        exact (Except.ok.inj (of_guard hread).2).symm
      obtain ⟨_, _, h⟩ := bind_eq_ok h
      obtain ⟨_, h⟩ := of_guard h
      obtain ⟨_, h⟩ := of_guard h
      refine ⟨stored, rfl, ?_⟩
      rw [← hsame]
      exact (Option.some.inj (Except.ok.inj h)).symm

theorem readPositions_eq_none (h : readPositions env store = .ok none) :
    store.positions = none := by
  unfold readPositions at h
  cases hstored : store.positions with
  | none => rfl
  | some stored =>
      rw [hstored] at h
      obtain ⟨_, _, h⟩ := bind_eq_ok h
      obtain ⟨_, _, h⟩ := bind_eq_ok h
      obtain ⟨_, h⟩ := of_guard h
      cases (Except.ok.inj (of_guard h).2)

theorem loadValidDeck_eq_some {deck : PositionsEnvelope Value × List (ShardFile Value) × Reconciliation}
    (h : loadValidDeck env store = .ok (some deck)) :
    ∃ stored, store.positions = some stored ∧ deck.1 = stored.canonical env := by
  unfold loadValidDeck at h
  obtain ⟨state, _, h⟩ := bind_eq_ok h
  obtain ⟨read, hread, h⟩ := bind_eq_ok h
  cases read with
  | none =>
      dsimp only at h
      split_ifs at h <;> cases h
  | some envelope =>
      obtain ⟨_, _, h⟩ := bind_eq_ok h
      obtain ⟨_, _, h⟩ := bind_eq_ok h
      obtain rfl := Option.some.inj (Except.ok.inj h)
      exact readPositions_eq_some hread

/-- A review under a new id is recorded as the stored deck serves it. -/
theorem recordPracticeReview_serve {request : PracticeReviewWrite} {plan : Plan Value ℕ}
    (h : recordPracticeReview env store request = .ok plan)
    (hnew : ∀ stored, store.positions = some stored →
      stored.lastEntryId ≠ some request.entryId) :
    ∃ positions next,
      validatePositionsDocument env request.positionsDocument "incoming-positions" =
          .ok positions ∧
        plan.result = .ok next ∧
          serve (storedDeck store) (.record request.generation request.revision positions) =
            (storedDeck (DeckStore.after store plan), .revision next) := by
  rw [recordPracticeReview] at h
  obtain ⟨_, h⟩ := of_guard h
  obtain ⟨positions, hpositions, h⟩ := bind_eq_ok h
  obtain ⟨entry, _, h⟩ := bind_eq_ok h
  obtain ⟨loaded, hloaded, h⟩ := bind_eq_ok h
  cases loaded with
  | none => cases h
  | some deck =>
      obtain ⟨stored, hstored, hdeck⟩ := loadValidDeck_eq_some hloaded
      obtain ⟨envelope, shards, reconciliation⟩ := deck
      obtain rfl : envelope = stored.canonical env := hdeck
      dsimp only at h
      obtain ⟨hgeneration, h⟩ := of_guard h
      have hgeneration : stored.generation = request.generation := not_not.mp hgeneration
      have hlast : (stored.canonical env).lastEntryId ≠ some request.entryId :=
        hnew stored hstored
      rw [if_neg hlast] at h
      obtain ⟨hrevision, h⟩ := of_guard h
      have hrevision : stored.revision = request.revision := not_not.mp hrevision
      obtain ⟨_, h⟩ := of_guard h
      obtain ⟨next, hnext, h⟩ := bind_eq_ok h
      obtain ⟨hsucc, hlimit⟩ := nextCounter_eq_ok hnext
      have hsucc : next = stored.revision + 1 := hsucc
      obtain ⟨_, _, h⟩ := bind_eq_ok h
      obtain ⟨_, h⟩ := of_guard h
      obtain ⟨_, _, h⟩ := bind_eq_ok h
      have hserve : serve (storedDeck store)
          (.record request.generation request.revision positions) =
            (some ⟨next, stored.generation, positions⟩, .revision next) := by
        rw [storedDeck, hstored, hsucc]
        rw [hsucc] at hlimit
        exact replaceDeck_of_current _ hgeneration hrevision (not_lt.mpr hlimit)
      refine ⟨positions, next, hpositions, ?_⟩
      rw [hserve]
      split_ifs at h with hexisting
      · obtain ⟨file, _, h⟩ := bind_eq_ok h
        obtain rfl := Except.ok.inj h
        exact ⟨rfl, rfl⟩
      · obtain rfl := Except.ok.inj h
        exact ⟨rfl, rfl⟩

theorem syncPracticePositions_serve {generation revision : ℕ} {document : String}
    {plan : Plan Value ℕ}
    (h : syncPracticePositions env store generation revision document = .ok plan) :
    ∃ positions next,
      validatePositionsDocument env document "incoming-positions" = .ok positions ∧
        plan.result = .ok next ∧
          serve (storedDeck store) (.sync generation revision positions) =
            (storedDeck (DeckStore.after store plan), .revision next) := by
  rw [syncPracticePositions] at h
  obtain ⟨positions, hpositions, h⟩ := bind_eq_ok h
  obtain ⟨state, _, h⟩ := bind_eq_ok h
  obtain ⟨read, hread, h⟩ := bind_eq_ok h
  cases read with
  | none =>
      have hstored := readPositions_eq_none hread
      obtain ⟨hrace, h⟩ := of_guard h
      obtain ⟨_, _, h⟩ := bind_eq_ok h
      obtain rfl := Except.ok.inj h
      have hguard : ¬(revision ≠ 0 ∨ generation ≠ 0) := by
        intro hne
        rcases hne with hne | hne <;> simp [hne] at hrace
      refine ⟨positions, 1, hpositions, rfl, ?_⟩
      rw [storedDeck, hstored]
      simp only [serve, serveSync, Option.map_none, if_neg hguard]
      rfl
  | some envelope =>
      obtain ⟨stored, hstored, rfl⟩ := readPositions_eq_some hread
      obtain ⟨hcounters, h⟩ := of_guard h
      obtain ⟨_, _, h⟩ := bind_eq_ok h
      obtain ⟨_, _, h⟩ := bind_eq_ok h
      obtain ⟨next, hnext, h⟩ := bind_eq_ok h
      obtain ⟨hsucc, hlimit⟩ := nextCounter_eq_ok hnext
      obtain ⟨_, _, h⟩ := bind_eq_ok h
      obtain rfl := Except.ok.inj h
      have hsucc : next = stored.revision + 1 := hsucc
      obtain ⟨hgeneration, hrevision⟩ := not_or.mp hcounters
      refine ⟨positions, next, hpositions, rfl, ?_⟩
      rw [storedDeck, hstored, hsucc]
      rw [hsucc] at hlimit
      exact replaceDeck_of_current _ (not_not.mp hgeneration) (not_not.mp hrevision)
        (not_lt.mpr hlimit)

theorem foldl_removeShard (leaves : List (ℕ × ℕ)) (store : DeckStore Value) :
    ((leaves.map JournalWrite.removeShard).foldl DeckStore.write store).positions =
      store.positions := by
  induction leaves generalizing store with
  | nil => rfl
  | cons leaf leaves ih => exact ih (store.write (.removeShard leaf))

/-- A reset is served even when its clean-up fails and an error is reported. -/
theorem resetPracticeDeck_serve {generation revision : ℕ} {document : String}
    {plan : Plan Value ℕ}
    (h : resetPracticeDeck env store generation revision document = .ok plan) :
    ∃ positions next,
      validatePositionsDocument env document "incoming-positions" = .ok positions ∧
        (∀ answer, plan.result = .ok answer → answer = next) ∧
          serve (storedDeck store) (.reset generation revision positions) =
            (storedDeck (DeckStore.after store plan), .revision next) := by
  rw [resetPracticeDeck] at h
  obtain ⟨positions, hpositions, h⟩ := bind_eq_ok h
  obtain ⟨read, hread, h⟩ := bind_eq_ok h
  cases read with
  | none => cases h
  | some envelope =>
      obtain ⟨stored, hstored, rfl⟩ := readPositions_eq_some hread
      obtain ⟨hcounters, h⟩ := of_guard h
      obtain ⟨next, hnext, h⟩ := bind_eq_ok h
      obtain ⟨hsucc, hlimit⟩ := nextCounter_eq_ok hnext
      obtain ⟨_, _, h⟩ := bind_eq_ok h
      have hsucc : next = stored.generation + 1 := hsucc
      obtain ⟨hgeneration, hrevision⟩ := not_or.mp hcounters
      have hserve : serve (storedDeck store) (.reset generation revision positions) =
          (some ⟨if stored.revision = u32Max then 1 else stored.revision + 1, next, positions⟩,
            .revision (if stored.revision = u32Max then 1 else stored.revision + 1)) := by
        rw [storedDeck, hstored, hsucc]
        rw [hsucc] at hlimit
        exact replaceDeck_of_current _ (not_not.mp hgeneration) (not_not.mp hrevision)
          (not_lt.mpr hlimit)
      refine ⟨positions, if stored.revision = u32Max then 1 else stored.revision + 1,
        hpositions, ?_⟩
      rw [hserve]
      split at h
      · obtain rfl := Except.ok.inj h
        exact ⟨(fun _ hanswer ↦ by cases hanswer), rfl⟩
      · rename_i oldShards _
        obtain rfl := Except.ok.inj h
        refine ⟨fun _ hanswer ↦ (Except.ok.inj hanswer).symm, ?_⟩
        have hafter := foldl_removeShard (oldShards.map ShardFile.leaf)
          (store.write (.putPositions { stored.canonical env with
            revision := if stored.revision = u32Max then 1 else stored.revision + 1
            generation := next
            lastEntryId := none
            lastEntryDigest := none
            appliedEntries := 0
            orphanEntries := 0
            orphanAcknowledgedCount := 0
            positions := positions }))
        rw [List.map_map] at hafter
        have hdeck := congrArg (Option.map fun envelope : PositionsEnvelope Value ↦
          (⟨envelope.revision, envelope.generation, envelope.positions⟩ :
            StoredDeck (List Value))) hafter
        exact congrArg (·, Reply.revision _) hdeck.symm

end EnCroissant.Practice

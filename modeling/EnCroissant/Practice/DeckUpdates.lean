import EnCroissant.Practice.JournalCounts
import EnCroissant.Practice.NativeDeck

/-!
# Updates of a deck that was read

The positions of a deck are one document, which a request replaces at most once, and with greater
counters.  So a client that names the counters it has read replaces what it has read, whatever
other clients do and wherever a crash cuts a request short.
-/

namespace EnCroissant.Practice

variable {Value : Type} {env : JournalEnv Value} {store store' : DeckStore Value}
  {s s' : Journal Value}

/-! ## The writes of a request -/

def isPositions : JournalWrite Value → Bool
  | .putPositions _ => true
  | _ => false

theorem positions_foldl {writes : List (JournalWrite Value)}
    (h : writes.filter isPositions = []) (store : DeckStore Value) :
    (writes.foldl DeckStore.write store).positions = store.positions := by
  induction writes generalizing store with
  | nil => rfl
  | cons write writes ih =>
      cases write with
      | putPositions envelope => cases h
      | putShard file => exact ih h _
      | removeShard leaf => exact ih h _

/-- The positions are replaced or not, wherever a crash comes. -/
theorem positions_take {writes : List (JournalWrite Value)}
    (h : (writes.filter isPositions).length ≤ 1) (store : DeckStore Value) (landed : ℕ) :
    ((writes.take landed).foldl DeckStore.write store).positions = store.positions ∨
      ((writes.take landed).foldl DeckStore.write store).positions =
        (writes.foldl DeckStore.write store).positions := by
  by_cases hnone : (writes.take landed).filter isPositions = []
  · exact .inl (positions_foldl hnone store)
  · right
    have hsplit : ((writes.take landed).filter isPositions).length +
        ((writes.drop landed).filter isPositions).length =
          (writes.filter isPositions).length := by
      rw [← List.length_append, ← List.filter_append, List.take_append_drop]
    have hpos := List.length_pos_iff.mpr hnone
    have hrest : (writes.drop landed).filter isPositions = [] :=
      List.length_eq_zero_iff.mp (by omega)
    conv_rhs => rw [← List.take_append_drop landed writes, List.foldl_append]
    exact (positions_foldl hrest _).symm

theorem store_foldl_land (request : JournalRequest) (writes : List (JournalWrite Value))
    (s : Journal Value) :
    (writes.foldl (Journal.land env request) s).store =
      writes.foldl DeckStore.write s.store := by
  induction writes generalizing s with
  | nil => rfl
  | cons write writes ih =>
      have hland : (s.land env request write).store = s.store.write write := by
        cases write with
        | putShard file => rfl
        | removeShard leaf => rfl
        | putPositions envelope => cases request <;> rfl
      rw [List.foldl_cons, List.foldl_cons, ih, hland]

/-- A record writes the positions once, or it finds that it was the last one. -/
theorem recordPracticeReview_writes {request : PracticeReviewWrite} {plan : Plan Value ℕ}
    (h : recordPracticeReview env store request = .ok plan) :
    plan.writes = [] ∨ (plan.writes.filter isPositions).length = 1 ∧
      ∀ stored, store.positions = some stored → stored.lastEntryId ≠ some request.entryId := by
  rw [recordPracticeReview] at h
  obtain ⟨_, h⟩ := of_guard h
  obtain ⟨positions, _, h⟩ := bind_eq_ok h
  obtain ⟨entry, _, h⟩ := bind_eq_ok h
  obtain ⟨loaded, hloaded, h⟩ := bind_eq_ok h
  cases loaded with
  | none => cases h
  | some deck =>
      obtain ⟨stored, hstored, hdeck⟩ := loadValidDeck_eq_some hloaded
      obtain ⟨envelope, shards, reconciliation⟩ := deck
      obtain rfl : envelope = stored.canonical env := hdeck
      dsimp only at h
      obtain ⟨_, h⟩ := of_guard h
      by_cases hlast : (stored.canonical env).lastEntryId = some request.entryId
      · rw [if_pos hlast] at h
        split_ifs at h
        obtain rfl := Except.ok.inj h
        exact .inl rfl
      · right
        rw [if_neg hlast] at h
        obtain ⟨_, h⟩ := of_guard h
        obtain ⟨_, h⟩ := of_guard h
        obtain ⟨next, _, h⟩ := bind_eq_ok h
        obtain ⟨_, _, h⟩ := bind_eq_ok h
        obtain ⟨_, h⟩ := of_guard h
        obtain ⟨_, _, h⟩ := bind_eq_ok h
        refine ⟨?_, fun found hfound ↦ ?_⟩
        · split_ifs at h
          · obtain ⟨file, _, h⟩ := bind_eq_ok h
            obtain rfl := Except.ok.inj h
            rfl
          · obtain rfl := Except.ok.inj h
            rfl
        · obtain rfl := Option.some.inj (hstored.symm.trans hfound)
          exact hlast

theorem syncPracticePositions_writes {generation revision : ℕ} {document : String}
    {plan : Plan Value ℕ}
    (h : syncPracticePositions env store generation revision document = .ok plan) :
    (plan.writes.filter isPositions).length = 1 := by
  rw [syncPracticePositions] at h
  obtain ⟨positions, _, h⟩ := bind_eq_ok h
  obtain ⟨state, _, h⟩ := bind_eq_ok h
  obtain ⟨read, _, h⟩ := bind_eq_ok h
  cases read with
  | none =>
      obtain ⟨_, h⟩ := of_guard h
      obtain ⟨_, _, h⟩ := bind_eq_ok h
      obtain rfl := Except.ok.inj h
      rfl
  | some envelope =>
      obtain ⟨_, h⟩ := of_guard h
      obtain ⟨_, _, h⟩ := bind_eq_ok h
      obtain ⟨_, _, h⟩ := bind_eq_ok h
      obtain ⟨_, _, h⟩ := bind_eq_ok h
      obtain ⟨_, _, h⟩ := bind_eq_ok h
      obtain rfl := Except.ok.inj h
      rfl

theorem resetPracticeDeck_writes {generation revision : ℕ} {document : String}
    {plan : Plan Value ℕ}
    (h : resetPracticeDeck env store generation revision document = .ok plan) :
    (plan.writes.filter isPositions).length = 1 := by
  rw [resetPracticeDeck] at h
  obtain ⟨positions, _, h⟩ := bind_eq_ok h
  obtain ⟨read, _, h⟩ := bind_eq_ok h
  cases read with
  | none => cases h
  | some envelope =>
      obtain ⟨_, h⟩ := of_guard h
      obtain ⟨_, _, h⟩ := bind_eq_ok h
      obtain ⟨_, _, h⟩ := bind_eq_ok h
      split at h
      · obtain rfl := Except.ok.inj h
        rfl
      · rename_i shards _
        obtain rfl := Except.ok.inj h
        have hremoved : (shards.map fun shard ↦
            (.removeShard shard.leaf : JournalWrite Value)).filter isPositions = [] := by
          rw [List.filter_map]
          exact List.map_eq_nil_iff.mpr (List.filter_eq_nil_iff.mpr fun _ _ ↦ Bool.false_ne_true)
        exact congrArg (·.length + 1) hremoved

theorem acknowledgePracticeOrphans_writes {generation count : ℕ} {plan : Plan Value Unit}
    (h : acknowledgePracticeOrphans env store generation count = .ok plan) :
    ∃ stored, store.positions = some stored ∧ plan.writes =
      [.putPositions { stored.canonical env with orphanAcknowledgedCount := count }] := by
  rw [acknowledgePracticeOrphans] at h
  obtain ⟨loaded, hloaded, h⟩ := bind_eq_ok h
  cases loaded with
  | none => cases h
  | some deck =>
      obtain ⟨stored, hstored, hdeck⟩ := loadValidDeck_eq_some hloaded
      obtain ⟨envelope, shards, reconciliation⟩ := deck
      obtain rfl : envelope = stored.canonical env := hdeck
      obtain ⟨_, h⟩ := of_guard h
      obtain ⟨_, _, h⟩ := bind_eq_ok h
      obtain rfl := Except.ok.inj h
      exact ⟨stored, hstored, rfl⟩

/-! ## What a client sees -/

/-- The generation and the revision that a request names. -/
def namedCounters : JournalRequest → Option (ℕ × ℕ)
  | .record request => some (request.generation, request.revision)
  | .sync generation revision _ => some (generation, revision)
  | .reset generation revision _ => some (generation, revision)
  | .acknowledge _ _ => none

/-- The deck with its counters, as a client that loads it sees it. -/
def deckSeen (env : JournalEnv Value) (store : DeckStore Value) :
    Versioned (ℕ ×ₗ ℕ) (Option (List Value)) where
  version := toLex (deckCounters (storedDeck store))
  value := (storedDeck store).map fun deck ↦ deck.positions.map env.canonical

/-- What `canonical_value` has sorted, it leaves as it is. -/
def CanonicalOnce (env : JournalEnv Value) : Prop :=
  ∀ value, env.canonical (env.canonical value) = env.canonical value

/-- The deck is what it was, or it was named and its counters have grown. -/
def Updates (env : JournalEnv Value) (counters : Option (ℕ × ℕ)) (store store' : DeckStore Value) :
    Prop :=
  deckSeen env store' = deckSeen env store ∨
    counters = some (deckCounters (storedDeck store)) ∧
      (deckSeen env store).version < (deckSeen env store').version

theorem deckSeen_congr (h : store'.positions = store.positions) :
    deckSeen env store' = deckSeen env store := by
  have hdeck : storedDeck store' = storedDeck store := by rw [storedDeck, h, storedDeck]
  rw [deckSeen, hdeck, deckSeen]

theorem Updates.take {counters : Option (ℕ × ℕ)} {writes : List (JournalWrite Value)}
    (hcount : (writes.filter isPositions).length ≤ 1)
    (h : Updates env counters store (writes.foldl DeckStore.write store)) (landed : ℕ) :
    Updates env counters store ((writes.take landed).foldl DeckStore.write store) := by
  rcases positions_take hcount store landed with hnone | hall
  · exact .inl (deckSeen_congr hnone)
  · rw [Updates, deckSeen_congr hall]
    exact h

/-- Positions that are written again in their canonical form look the same. -/
theorem deckSeen_acknowledged (hcanonical : CanonicalOnce env)
    {stored : PositionsEnvelope Value} (hstored : store.positions = some stored) {count : ℕ} :
    deckSeen env (store.write (.putPositions
      { stored.canonical env with orphanAcknowledgedCount := count })) = deckSeen env store := by
  have hpositions : (stored.positions.map env.canonical).map env.canonical =
      stored.positions.map env.canonical := by
    rw [List.map_map]
    exact List.map_congr_left fun value _ ↦ hcanonical value
  simp [deckSeen, storedDeck, hstored, DeckStore.write, deckCounters,
    PositionsEnvelope.canonical, hpositions]

/-- A call that is served names the deck and makes its counters greater. -/
theorem updates_of_serve {call : Call (List Value)} {next : ℕ} {counters : Option (ℕ × ℕ)}
    (hserve : serve (storedDeck store) call = (storedDeck store', .revision next))
    (hnames : ∀ a b c p, call.Writes a b c p → counters = some (a, b)) :
    Updates env counters store store' := by
  rcases serve_cases (storedDeck store) call with ⟨after, hserved⟩ | ⟨reply, hreply, hcases⟩
  · have hafter : storedDeck store' = some after :=
      congrArg Prod.fst (hserve.symm.trans hserved.served)
    refine .inr ⟨hnames _ _ _ _ hserved.writes, ?_⟩
    rw [deckSeen, deckSeen, hafter]
    exact Prod.Lex.toLex_lt_toLex.mpr hserved.grown
  · have hnext : reply = .revision next := congrArg Prod.snd (hreply.symm.trans hserve)
    rcases hcases with h | h | h <;> cases hnext.symm.trans h

theorem writes_of_planned {α : Type} {planned : Except Error (Plan Value α)}
    {writes : List (JournalWrite Value)} (h : Plan.writes <$> planned = .ok writes) :
    ∃ plan, planned = .ok plan ∧ plan.writes = writes := by
  cases planned with
  | error e => cases h
  | ok plan => exact ⟨plan, rfl, Except.ok.inj h⟩

/-- A request of which some writes reach the disk. -/
theorem updates_perform (hcanonical : CanonicalOnce env) (s : Journal Value)
    (request : JournalRequest) (landed : ℕ) :
    Updates env (namedCounters request) s.store (s.perform env request landed).store := by
  rw [Journal.perform]
  cases hwrites : planWrites env s.store request with
  | error e => exact .inl rfl
  | ok writes =>
      dsimp only
      rw [store_foldl_land]
      cases request with
      | record request =>
          obtain ⟨plan, hplan, rfl⟩ := writes_of_planned hwrites
          rcases recordPracticeReview_writes hplan with hnil | ⟨hcount, hnew⟩
          · rw [hnil, List.take_nil]
            exact .inl rfl
          · obtain ⟨positions, next, -, -, hserve⟩ := recordPracticeReview_serve hplan hnew
            refine Updates.take hcount.le (updates_of_serve hserve ?_) landed
            rintro a b c p hcall
            obtain ⟨rfl, rfl, -, -⟩ := Call.writes_record.mp hcall
            rfl
      | sync generation revision document =>
          obtain ⟨plan, hplan, rfl⟩ := writes_of_planned hwrites
          obtain ⟨positions, next, -, -, hserve⟩ := syncPracticePositions_serve hplan
          refine Updates.take (syncPracticePositions_writes hplan).le
            (updates_of_serve hserve ?_) landed
          rintro a b c p hcall
          obtain ⟨rfl, rfl, -, -⟩ := Call.writes_sync.mp hcall
          rfl
      | reset generation revision document =>
          obtain ⟨plan, hplan, rfl⟩ := writes_of_planned hwrites
          obtain ⟨positions, next, -, -, hserve⟩ := resetPracticeDeck_serve hplan
          refine Updates.take (resetPracticeDeck_writes hplan).le
            (updates_of_serve hserve ?_) landed
          rintro a b c p hcall
          obtain ⟨rfl, rfl, -, -⟩ := Call.writes_reset.mp hcall
          rfl
      | acknowledge generation count =>
          obtain ⟨plan, hplan, rfl⟩ := writes_of_planned hwrites
          obtain ⟨stored, hstored, hone⟩ := acknowledgePracticeOrphans_writes hplan
          rw [hone]
          exact Updates.take (Nat.le_refl _) (.inl (deckSeen_acknowledged hcanonical hstored))
            landed

/-! ## Runs -/

end EnCroissant.Practice

import Mathlib
import EnCroissant.Practice.JournalRuns

/-!
# What the unapplied count counts

Every review is in the log once, and the count stands for the reviews that were
missed.  A review that was overtaken stays counted when its record is committed
at last.
-/

namespace EnCroissant

variable {Value : Type} {env : JournalEnv Value} {s s' : Journal Value}

/-! ## Decks without positions -/

namespace Journal.Fresh

theorem log_eq (h : s.Fresh env) : s.log env = [] := by
  rw [Journal.log, h.positions]

theorem loadValidDeck_ne (h : s.Fresh env)
    (deck : PositionsEnvelope Value × List (ShardFile Value) × Reconciliation) :
    loadValidDeck env s.store ≠ .ok (some deck) := by
  intro hload
  simp only [loadValidDeck, h.state, readPositions_none h.positions, bind, Except.bind] at hload
  split_ifs at hload
  all_goals cases hload

theorem recordPracticeReview_ne (h : s.Fresh env) (request : PracticeReviewWrite)
    (plan : Plan Value ℕ) :
    recordPracticeReview env s.store request ≠ .ok plan := by
  intro hplan
  rw [recordPracticeReview] at hplan
  obtain ⟨-, hplan⟩ := of_guard hplan
  obtain ⟨positions, -, hplan⟩ := bind_eq_ok hplan
  obtain ⟨entry, -, hplan⟩ := bind_eq_ok hplan
  obtain ⟨loaded, hloaded, hplan⟩ := bind_eq_ok hplan
  cases loaded with
  | none => cases hplan
  | some deck => exact h.loadValidDeck_ne deck hloaded

theorem resetPracticeDeck_ne (h : s.Fresh env) (generation revision : ℕ) (document : String)
    (plan : Plan Value ℕ) :
    resetPracticeDeck env s.store generation revision document ≠ .ok plan := by
  intro hplan
  rw [resetPracticeDeck] at hplan
  obtain ⟨positions, -, hplan⟩ := bind_eq_ok hplan
  obtain ⟨loaded, hloaded, hplan⟩ := bind_eq_ok hplan
  rw [readPositions_none h.positions] at hloaded
  obtain rfl := Except.ok.inj hloaded
  cases hplan

theorem acknowledgePracticeOrphans_ne (h : s.Fresh env) (generation count : ℕ)
    (plan : Plan Value Unit) :
    acknowledgePracticeOrphans env s.store generation count ≠ .ok plan := by
  intro hplan
  rw [acknowledgePracticeOrphans] at hplan
  obtain ⟨loaded, hloaded, hplan⟩ := bind_eq_ok hplan
  cases loaded with
  | none => cases hplan
  | some deck => exact h.loadValidDeck_ne deck hloaded

theorem create (h : s.Fresh env) {positions : List Value}
    (hread : ReadableEnvelope env (newPositions env positions)) :
    (s.commit env (newPositions env positions) []).Deck env (newPositions env positions) := by
  have hshards : shardsOf s.store 0 = [] := by
    rw [shardsOf, h.shards, List.filter_nil]
  have hrow : ShardRow env 0 (shardsOf s.store 0) := by
    rw [hshards]
    exact ⟨by simp, by simp, by simp, List.Pairwise.nil⟩
  have hlog : (s.commit env (newPositions env positions) []).log env = [] := by
    have hread' : readShards env (s.store.write (.putPositions (newPositions env positions)))
        (newPositions env positions).generation = .ok (shardsOf s.store 0) := readShards_of_row hrow
    have hpositions : (s.store.write (.putPositions (newPositions env positions))).positions =
        some (newPositions env positions) := rfl
    rw [hshards] at hread'
    simp only [Journal.log, Journal.commit, hpositions, hread']
    rfl
  have hwaiting : (s.tally env (newPositions env positions)).waiting = [] := by
    rw [AppliedLog.waiting, Journal.tally, h.log_eq]
    rfl
  have htally : (s.commit env (newPositions env positions) []).tally env
      (newPositions env positions) = ⟨[], 0, 0, [], []⟩ := by
    rw [Journal.tally, hlog, Journal.commit, hwaiting, h.committed, h.overtaken]
    rfl
  refine ⟨h.state, rfl, hread, Nat.zero_le _, ?_, hrow, by rw [hlog]; exact Nat.zero_le _, ?_, ?_⟩
  · intro file hfile
    rw [show (s.commit env (newPositions env positions) []).store.shards = s.store.shards from rfl,
      h.shards] at hfile
    cases hfile
  · rw [htally]
    exact AppliedLog.Ok.nil
  · intro rating hrating
    rw [show (s.commit env (newPositions env positions) []).ratings = s.ratings from rfl,
      h.ratings] at hrating
    cases hrating

/-- A deck without positions stays as it is or is created. -/
theorem perform (h : s.Fresh env) (request : JournalRequest) (landed : ℕ) :
    s.perform env request landed = s ∨
      ∃ envelope, (s.perform env request landed).Deck env envelope := by
  cases request with
  | record request =>
      cases hplan : recordPracticeReview env s.store request with
      | error e => exact Or.inl (perform_of_error (by rw [planWrites, hplan]; rfl))
      | ok plan => exact absurd hplan (h.recordPracticeReview_ne request plan)
  | sync generation revision document =>
      cases hplan : syncPracticePositions env s.store generation revision document with
      | error e => exact Or.inl (perform_of_error (by rw [planWrites, hplan]; rfl))
      | ok plan =>
          obtain ⟨positions, hwrites, hread⟩ := syncPracticePositions_of_fresh h hplan
          rw [perform_of_ok (by rw [planWrites, hplan]; rfl), hwrites]
          cases landed with
          | zero => exact Or.inl rfl
          | succ landed =>
              rw [List.take_succ_cons, List.take_nil]
              exact Or.inr ⟨_, h.create hread⟩
  | reset generation revision document =>
      cases hplan : resetPracticeDeck env s.store generation revision document with
      | error e => exact Or.inl (perform_of_error (by rw [planWrites, hplan]; rfl))
      | ok plan => exact absurd hplan (h.resetPracticeDeck_ne generation revision document plan)
  | acknowledge generation count =>
      cases hplan : acknowledgePracticeOrphans env s.store generation count with
      | error e => exact Or.inl (perform_of_error (by rw [planWrites, hplan]; rfl))
      | ok plan => exact absurd hplan (h.acknowledgePracticeOrphans_ne generation count plan)

end Journal.Fresh

/-! ## Runs -/

theorem follows_perform {envelope : PositionsEnvelope Value} (h : s.Deck env envelope)
    {request : JournalRequest} (landed : ℕ)
    (hrating : ∀ write, request = .record write →
      ⟨write.entryId, write.generation, write.baseRevision⟩ ∈ s.ratings) :
    s.Follows env envelope (s.perform env request landed) := by
  cases request with
  | record request => exact follows_record h landed (hrating request rfl)
  | sync generation revision document => exact follows_sync h generation revision document landed
  | reset generation revision document => exact follows_reset h generation revision document landed
  | acknowledge generation count => exact follows_acknowledge h generation count landed

/-- A rating is made on the newest revision, before its review is in the log. -/
theorem follows_rate {envelope : PositionsEnvelope Value} (h : s.Deck env envelope)
    {entryId : String} {snapshot : PracticeDeckSnapshot}
    (hload : loadPracticeDeck env s.store = .ok (some snapshot))
    (hnew : entryId ∉ (s.log env).map ReviewShardEntry.id) :
    s.Follows env envelope { s with
      ratings := ⟨entryId, snapshot.generation, snapshot.revision⟩ :: s.ratings } := by
  obtain ⟨snapshot', hload', hgeneration, hrevision, -⟩ := h.loadPracticeDeck_eq
  obtain rfl := Option.some.inj (Except.ok.inj (hload.symm.trans hload'))
  refine ⟨envelope, ⟨h.state, h.positions, h.readable, h.generation_le, h.generations, h.row,
    h.count, h.tally, ?_⟩, Or.inr ⟨rfl, List.prefix_rfl⟩⟩
  rw [List.forall_mem_cons]
  refine ⟨⟨hgeneration.le, fun _ ↦ ⟨hrevision.le, fun r hr ↦ ?_⟩⟩, h.ratings⟩
  have hdrop : (s.log env).dropWhile (fun review ↦ decide (review.id ≠ entryId)) = [] := by
    rw [List.dropWhile_eq_nil_iff]
    intro review hreview
    rw [decide_eq_true_eq]
    rintro rfl
    exact hnew (List.mem_map_of_mem hreview)
  have hr' : r ∈ (s.log env).dropWhile fun review ↦ decide (review.id ≠ entryId) := hr
  rw [hdrop] at hr'
  cases hr'

theorem follows_step {envelope : PositionsEnvelope Value} (h : s.Deck env envelope)
    {a : JournalAction} (hstep : journalStep env s a s') :
    s.Follows env envelope s' := by
  cases a with
  | rate entryId =>
      obtain ⟨snapshot, hload, hnew, rfl⟩ := hstep
      exact follows_rate h hload hnew
  | request request landed =>
      obtain ⟨hrating, rfl⟩ := hstep
      exact follows_perform h landed hrating

theorem journalMachine_invariant (env : JournalEnv Value) :
    (journalMachine env).Invariant (fun _ _ ↦ True) (Journal.Inv env) where
  init := by
    rintro s (hfresh | ⟨envelope, hmigrated⟩)
    · exact Or.inl hfresh
    · exact Or.inr ⟨envelope, hmigrated.deck⟩
  step := by
    rintro s a s' (hfresh | ⟨envelope, hdeck⟩) - hstep
    · cases a with
      | rate entryId =>
          obtain ⟨snapshot, hload, -⟩ := hstep
          obtain ⟨deck, hdeck, hsnapshot⟩ := bind_eq_ok hload
          cases deck with
          | none => cases hsnapshot
          | some deck => exact absurd hdeck (hfresh.loadValidDeck_ne deck)
      | request request landed =>
          obtain ⟨-, rfl⟩ := hstep
          rcases hfresh.perform request landed with heq | hdeck
          · rw [heq]
            exact Or.inl hfresh
          · exact Or.inr hdeck
    · obtain ⟨next, hnext, -⟩ := follows_step hdeck hstep
      exact Or.inr ⟨next, hnext⟩

def Journal.generation (s : Journal Value) : Option ℕ :=
  s.store.positions.map PositionsEnvelope.generation

/-- The log of a generation only grows. -/
theorem log_prefix_of_run (hs : s.Inv env) (hrun : (journalMachine env).Run s s')
    (hgeneration : s'.generation = s.generation) :
    s.log env <+: s'.log env := by
  rcases hs with hfresh | ⟨envelope, hdeck⟩
  · rw [hfresh.log_eq]
    exact List.nil_prefix
  · have hfollows : s.Follows env envelope s' := by
      refine (journalMachine_invariant env).stable ?_ (Or.inr ⟨envelope, hdeck⟩)
        hdeck.follows_self hrun
      rintro t a t' - ⟨e, he, hle⟩ - hstep
      obtain ⟨e', he', hle'⟩ := follows_step he hstep
      refine ⟨e', he', ?_⟩
      rcases hle with hlt | ⟨heq, hlog⟩
      · rcases hle' with hlt' | ⟨heq', -⟩
        · exact Or.inl (hlt.trans hlt')
        · exact Or.inl (heq' ▸ hlt)
      · rcases hle' with hlt' | ⟨heq', hlog'⟩
        · exact Or.inl (heq ▸ hlt')
        · exact Or.inr ⟨heq.trans heq', hlog.trans hlog'⟩
    obtain ⟨next, hnext, hlt | ⟨-, hlog⟩⟩ := hfollows
    · rw [Journal.generation, Journal.generation, hnext.positions, hdeck.positions] at hgeneration
      have := Option.some.inj hgeneration
      omega
    · exact hlog

/-- Every review is in the log once, the unapplied count is the number of
reviews that are not committed or were overtaken by another commit first, and no
review of the generation is lost. -/
theorem journal_counts (hs : (journalMachine env).Reachable s) :
    ((s.log env).map ReviewShardEntry.id).Nodup ∧
      (s.store.positions.isSome →
        ∃ snapshot, loadPracticeDeck env s.store = .ok (some snapshot) ∧
          snapshot.unappliedReviews = ((s.log env).filter fun review ↦
            review.id ∉ s.committed ∨ review.id ∈ s.overtaken).length) ∧
        ∀ s', (journalMachine env).Run s s' → s'.generation = s.generation →
          s.log env <+: s'.log env := by
  have hinv := (journalMachine_invariant env).reachable hs
  refine ⟨?_, ?_, fun s' hrun hgeneration ↦ log_prefix_of_run hinv hrun hgeneration⟩
  · rcases hinv with hfresh | ⟨envelope, hdeck⟩
    · rw [hfresh.log_eq]
      exact List.nodup_nil
    · exact hdeck.tally.nodup
  · intro hpositions
    rcases hinv with hfresh | ⟨envelope, hdeck⟩
    · rw [hfresh.positions] at hpositions
      cases hpositions
    · obtain ⟨snapshot, hload, -, -, hcount⟩ := hdeck.loadPracticeDeck_eq
      refine ⟨snapshot, hload, ?_⟩
      rw [hcount, AppliedLog.missed, Journal.tally, List.filter_map, List.length_map]
      rfl

/-! ### A review that another client's commit overtakes -/

def reviewA : String := "\x7b\"fen\":\"a\"\x7d"

def reviewB : String := "\x7b\"fen\":\"b\"\x7d"

def noPositions : String := "\x7b\"positions\":[]\x7d"

/-- JSON values stand for their text. -/
def textEnv : JournalEnv String where
  fileId := "file"
  game := 1
  hashDeck fileId game :=
    if fileId = "file" ∧ game = 1 then
      "b04c393981ddaf576a71c8e23444451c4b5b0e86aa048dcefc9a8d88d0ca4638"
    else ""
  parse text := if text = reviewA ∨ text = reviewB ∨ text = noPositions then some text else none
  positionsOf value := if value = noPositions then some [] else none
  positionsObject _ := noPositions
  canonical value := value
  render value := value
  digest value :=
    if value = reviewA then "39affab3f03ff6ca0ac6137271dc76534dabc88762cb1bad930bf9cbe4efde24"
    else "e5dcbd905707d2eb5076af1b279e5f670863a25e0e9c068358e2fd9b9d848415"
  positionsLength envelope := 600 + (envelope.positions.map String.utf8ByteSize).sum
  shardLength shard :=
    200 + (shard.entries.map fun review ↦
      60 + review.id.utf8ByteSize + review.entry.utf8ByteSize).sum
  stateLength _ := 200
  digest_length value := by
    split_ifs
    · decide
    · decide
  shardLength_single generation ordinal rev id text value hgeneration hordinal hrev hid htext
      hparse := by
    split_ifs at hparse
    obtain rfl := Option.some.inj hparse
    simp only [List.map_singleton, List.sum_singleton]
    simp only [practiceIdMaxBytes, practiceEntryMaxBytes, practiceLegacyMaxBytes] at hid htext ⊢
    omega

def emptyJournal : Journal String := ⟨⟨none, none, []⟩, [], [], []⟩

/-- A sync, and two ratings on it. -/
def ratedJournal : Journal String :=
  { emptyJournal.perform textEnv (.sync 0 0 noPositions) 1 with
    ratings := [⟨"b", 0, 1⟩, ⟨"a", 0, 1⟩] }

/-- The record of `a` crashes after the append, `b` is recorded, and `a` again. -/
def overtakenJournal : Journal String :=
  ((ratedJournal.perform textEnv (.record ⟨0, 1, 1, noPositions, reviewA, "a"⟩) 1).perform textEnv
    (.record ⟨0, 1, 1, noPositions, reviewB, "b"⟩) 2).perform textEnv
      (.record ⟨0, 2, 1, noPositions, reviewA, "a"⟩) 1

theorem reachable_ratedJournal : (journalMachine textEnv).Reachable ratedJournal := by
  have hsync : (journalMachine textEnv).step emptyJournal (.request (.sync 0 0 noPositions) 1)
      (emptyJournal.perform textEnv (.sync 0 0 noPositions) 1) :=
    ⟨(fun _ hwrite ↦ by cases hwrite), rfl⟩
  have hrateA : (journalMachine textEnv).step
      (emptyJournal.perform textEnv (.sync 0 0 noPositions) 1) (.rate "a")
      { emptyJournal.perform textEnv (.sync 0 0 noPositions) 1 with ratings := [⟨"a", 0, 1⟩] } :=
    ⟨⟨noPositions, 1, 0, false, 0, true⟩, by decide +kernel, by decide +kernel, rfl⟩
  have hrateB : (journalMachine textEnv).step
      { emptyJournal.perform textEnv (.sync 0 0 noPositions) 1 with ratings := [⟨"a", 0, 1⟩] }
      (.rate "b") ratedJournal :=
    ⟨⟨noPositions, 1, 0, false, 0, true⟩, by decide +kernel, by decide +kernel, rfl⟩
  exact ⟨emptyJournal, Or.inl ⟨rfl, rfl, rfl, rfl, rfl, rfl⟩,
    ((Machine.Run.refl.step hsync).step hrateA).step hrateB⟩

theorem run_overtakenJournal :
    (journalMachine textEnv).Run ratedJournal overtakenJournal := by
  have hrecord : ∀ (s : Journal String) (request : PracticeReviewWrite) (landed : ℕ),
      ⟨request.entryId, request.generation, request.baseRevision⟩ ∈ s.ratings →
        (journalMachine textEnv).step s (.request (.record request) landed)
          (s.perform textEnv (.record request) landed) := by
    intro s request landed hrating
    refine ⟨?_, rfl⟩
    rintro _ ⟨⟩
    exact hrating
  exact ((Machine.Run.refl.step (hrecord _ _ 1 (by decide +kernel))).step
    (hrecord _ _ 2 (by decide +kernel))).step (hrecord _ _ 1 (by decide +kernel))

theorem journal_counts_overtakenJournal :
    ((overtakenJournal.log textEnv).map ReviewShardEntry.id).Nodup :=
  (journal_counts (reachable_ratedJournal.run run_overtakenJournal)).1

/-- Both reviews are committed, and one is counted as unapplied. -/
theorem exists_committed_unapplied :
    ∃ s, (journalMachine textEnv).Reachable s ∧
      ∃ snapshot, loadPracticeDeck textEnv s.store = .ok (some snapshot) ∧
        snapshot.unappliedReviews ≠
          ((s.log textEnv).filter fun review ↦ review.id ∉ s.committed).length := by
  refine ⟨overtakenJournal, reachable_ratedJournal.run run_overtakenJournal,
    ⟨noPositions, 3, 0, false, 1, false⟩, ?_, ?_⟩
  · decide +kernel
  · decide +kernel

end EnCroissant

import Mathlib
import EnCroissant.Practice.JournalSystem

/-!
# The journal along a run

No review is recorded twice or lost, and the unapplied count is the number of
reviews that are not committed or were overtaken.
-/

namespace EnCroissant

variable {Value : Type} {env : JournalEnv Value} {s s' : Journal Value}
  {envelope next : PositionsEnvelope Value}

namespace Journal.Deck

theorem readShards_eq (h : s.Deck env envelope) :
    readShards env s.store envelope.generation = .ok (shardsOf s.store envelope.generation) :=
  readShards_of_row h.row

theorem log_eq (h : s.Deck env envelope) :
    s.log env = reviewsOf (shardsOf s.store envelope.generation) := by
  simp [Journal.log, h.positions, h.readShards_eq]

/-- What is unapplied fits a counter. -/
theorem unapplied_le (h : s.Deck env envelope) :
    envelope.orphanEntries + ((s.log env).length - envelope.appliedEntries) ≤ u32Max := by
  have hle := h.tally.orphans_le
  have hcount := h.count
  simp only [Journal.tally, List.length_map] at hle
  omega

theorem applied_le (h : s.Deck env envelope) :
    envelope.appliedEntries ≤ (s.log env).length := by
  have hle := h.tally.applied_le
  simpa only [Journal.tally, List.length_map] using hle

theorem reconcile_eq (h : s.Deck env envelope) (leaf : String) :
    reconcile (envelope.canonical env) (shardsOf s.store envelope.generation) leaf =
      .ok ⟨(s.log env).length,
        envelope.orphanEntries + ((s.log env).length - envelope.appliedEntries)⟩ := by
  have hcount := h.count
  have happlied := h.applied_le
  have hunapplied := h.unapplied_le
  rw [h.log_eq] at hcount happlied hunapplied ⊢
  have htotal : countEntries 0 (shardsOf s.store envelope.generation) =
      .ok (reviewsOf (shardsOf s.store envelope.generation)).length := by
    rw [countEntries_eq_ok (by omega), Nat.zero_add]
  simp only [reconcile, htotal, bind, Except.bind]
  exact (if_neg (not_lt.mpr happlied)).trans (if_neg (not_lt.mpr hunapplied))

theorem readPositions_eq (h : s.Deck env envelope) :
    readPositions env s.store = .ok (some (envelope.canonical env)) :=
  readPositions_of_readable h.positions h.readable

theorem loadValidDeck_eq (h : s.Deck env envelope) :
    loadValidDeck env s.store = .ok (some (envelope.canonical env,
      shardsOf s.store envelope.generation,
      ⟨(s.log env).length,
        envelope.orphanEntries + ((s.log env).length - envelope.appliedEntries)⟩)) := by
  have hshards : readShards env s.store (envelope.canonical env).generation =
      .ok (shardsOf s.store envelope.generation) := h.readShards_eq
  simp only [loadValidDeck, h.state, h.readPositions_eq, hshards, h.reconcile_eq, bind,
    Except.bind]

/-- The deck loads, and the snapshot counts what was missed. -/
theorem loadPracticeDeck_eq (h : s.Deck env envelope) :
    ∃ snapshot, loadPracticeDeck env s.store = .ok (some snapshot) ∧
      snapshot.generation = envelope.generation ∧ snapshot.revision = envelope.revision ∧
        snapshot.unappliedReviews = (s.tally env envelope).missed.length := by
  refine ⟨snapshotFrom env (envelope.canonical env) ⟨(s.log env).length,
    envelope.orphanEntries + ((s.log env).length - envelope.appliedEntries)⟩, ?_, rfl, rfl, ?_⟩
  · simp only [loadPracticeDeck, h.loadValidDeck_eq, bind, Except.bind, Option.map_some]
  · rw [h.tally.length_missed]
    simp only [snapshotFrom, Journal.tally, List.length_map]

/-! ## Writes -/

/-- New positions for the same reviews. -/
theorem putPositions (h : s.Deck env envelope) (hread : ReadableEnvelope env next)
    (hgeneration : next.generation = envelope.generation)
    (hrevision : envelope.revision ≤ next.revision) {committed overtaken : List String}
    (htally : AppliedLog.Ok ⟨(s.log env).map ReviewShardEntry.id, next.appliedEntries,
      next.orphanEntries, committed, overtaken⟩) :
    Journal.Deck env
        ⟨s.store.write (.putPositions next), s.ratings, committed, overtaken⟩ next ∧
      Journal.log env ⟨s.store.write (.putPositions next), s.ratings, committed, overtaken⟩ =
        s.log env := by
  have hlog : Journal.log env
      ⟨s.store.write (.putPositions next), s.ratings, committed, overtaken⟩ = s.log env := by
    have hshards : readShards env (s.store.write (.putPositions next)) next.generation =
        .ok (shardsOf s.store envelope.generation) := hgeneration ▸ h.readShards_eq
    rw [h.log_eq]
    simp only [Journal.log, DeckStore.write] at hshards ⊢
    rw [hshards]
  refine ⟨⟨h.state, rfl, hread, hgeneration ▸ h.generation_le, hgeneration ▸ h.generations,
    hgeneration ▸ h.row, by rw [hlog]; exact h.count, ?_, ?_⟩, hlog⟩
  · rw [Journal.tally, hlog]
    exact htally
  · intro rating hrating
    obtain ⟨hle, hcurrent⟩ := h.ratings rating hrating
    rw [hgeneration, hlog]
    exact ⟨hle, fun heq ↦ (hcurrent heq).imp_left hrevision.trans'⟩

/-- The positions are committed for the reviews `own` of the log. -/
theorem commit (h : s.Deck env envelope) (hread : ReadableEnvelope env next)
    (hgeneration : next.generation = envelope.generation)
    (hrevision : envelope.revision ≤ next.revision) {own : List String}
    (hown : own ⊆ (s.log env).map ReviewShardEntry.id)
    (happlied : next.appliedEntries = (s.log env).length)
    (horphans : next.orphanEntries =
      envelope.orphanEntries + (s.tally env envelope).tail.countP fun id ↦ id ∉ own) :
    (s.commit env next own).Deck env next ∧ (s.commit env next own).log env = s.log env := by
  have htally := h.tally.advance hown
  refine h.putPositions hread hgeneration hrevision ?_
  rw [happlied, horphans]
  rw [show (s.tally env envelope).entries.length = (s.log env).length from List.length_map ..]
    at htally
  exact htally

theorem newerFrom_concat {reviews : List (ReviewShardEntry Value)}
    {review : ReviewShardEntry Value} {entryId : String} {base : ℕ}
    (h : NewerFrom reviews entryId base) (hnew : base < review.rev) :
    NewerFrom (reviews ++ [review]) entryId base := by
  intro r hr
  rw [List.dropWhile_append] at hr
  split_ifs at hr with hempty
  · rw [List.mem_singleton.mp ((List.dropWhile_sublist _).subset hr)]
    exact hnew
  · rcases List.mem_append.mp hr with hr | hr
    · exact h r hr
    · rw [List.mem_singleton.mp hr]
      exact hnew

/-- A review is appended, and its positions are not written yet. -/
theorem putShard (h : s.Deck env envelope) {file : ShardFile Value}
    {review : ReviewShardEntry Value}
    (hrow : ShardRow env envelope.generation
      (putFile file (shardsOf s.store envelope.generation)))
    (hleaf : file.leaf.1 = envelope.generation)
    (hreviews : reviewsOf (putFile file (shardsOf s.store envelope.generation)) =
      reviewsOf (shardsOf s.store envelope.generation) ++ [review])
    (hrev : review.rev = envelope.revision + 1)
    (hnew : review.id ∉ (s.log env).map ReviewShardEntry.id)
    (hcount : (s.log env).length + 1 ≤ u32Max) :
    Journal.Deck env { s with store := s.store.write (.putShard file) } envelope ∧
      Journal.log env { s with store := s.store.write (.putShard file) } =
        s.log env ++ [review] := by
  have hshards : shardsOf (s.store.write (.putShard file)) envelope.generation =
      putFile file (shardsOf s.store envelope.generation) := by
    rw [← hleaf, shardsOf_putFile]
  have hlog : Journal.log env { s with store := s.store.write (.putShard file) } =
      s.log env ++ [review] := by
    have hread : readShards env (s.store.write (.putShard file)) envelope.generation =
        .ok (putFile file (shardsOf s.store envelope.generation)) := by
      rw [readShards_of_row (by rwa [hshards]), hshards]
    have hpositions : (s.store.write (.putShard file)).positions = some envelope := h.positions
    rw [h.log_eq, ← hreviews]
    simp only [Journal.log, hpositions, hread]
  refine ⟨⟨h.state, h.positions, h.readable, h.generation_le, ?_, by rwa [hshards], ?_, ?_, ?_⟩,
    hlog⟩
  · intro f hf
    rcases mem_putFile hf with rfl | hf
    · exact hleaf.le
    · exact h.generations f hf
  · rw [hlog, List.length_append, List.length_singleton]
    exact hcount
  · rw [Journal.tally, hlog, List.map_append]
    exact h.tally.append hnew
  · intro rating hrating
    obtain ⟨hle, hcurrent⟩ := h.ratings rating hrating
    refine ⟨hle, fun heq ↦ ⟨(hcurrent heq).1, ?_⟩⟩
    rw [hlog]
    exact newerFrom_concat (hcurrent heq).2 (by rw [hrev]; exact Nat.lt_succ_of_le (hcurrent heq).1)

/-- A new generation starts with an empty log. -/
theorem reset (h : s.Deck env envelope) (hread : ReadableEnvelope env next)
    (hgeneration : next.generation = envelope.generation + 1)
    (hlimit : next.generation ≤ u32Max) (happlied : next.appliedEntries = 0)
    (horphans : next.orphanEntries = 0) :
    Journal.Deck env ⟨s.store.write (.putPositions next), s.ratings, [], []⟩ next := by
  have hshards : shardsOf (s.store.write (.putPositions next)) next.generation = [] := by
    rw [shardsOf, List.filter_eq_nil_iff]
    intro file hfile
    have := h.generations file hfile
    rw [decide_eq_true_eq]
    omega
  have hrow : ShardRow env next.generation
      (shardsOf (s.store.write (.putPositions next)) next.generation) := by
    rw [hshards]
    exact ⟨by simp, by simp, by simp, List.Pairwise.nil⟩
  have hlog : Journal.log env ⟨s.store.write (.putPositions next), s.ratings, [], []⟩ = [] := by
    have hread' : readShards env (s.store.write (.putPositions next)) next.generation = .ok [] := by
      rw [readShards_of_row hrow, hshards]
    have hpositions : (s.store.write (.putPositions next)).positions = some next := rfl
    simp only [Journal.log, hpositions, hread']
    rfl
  refine ⟨h.state, rfl, hread, hlimit, ?_, hrow, by rw [hlog]; exact Nat.zero_le _, ?_, ?_⟩
  · intro file hfile
    have := h.generations file hfile
    omega
  · rw [Journal.tally, hlog, happlied, horphans]
    exact AppliedLog.Ok.nil
  · intro rating hrating
    have := (h.ratings rating hrating).1
    exact ⟨by omega, fun heq ↦ by omega⟩

/-- Shards of older generations are not looked at. -/
theorem removeShard (h : s.Deck env envelope) {leaf : ℕ × ℕ}
    (hleaf : leaf.1 < envelope.generation) :
    Journal.Deck env { s with store := s.store.write (.removeShard leaf) } envelope ∧
      Journal.log env { s with store := s.store.write (.removeShard leaf) } = s.log env := by
  have hshards : shardsOf (s.store.write (.removeShard leaf)) envelope.generation =
      shardsOf s.store envelope.generation := by
    rw [shardsOf, shardsOf, DeckStore.write, List.filter_filter]
    refine List.filter_congr fun file _ ↦ ?_
    by_cases hgeneration : file.leaf.1 = envelope.generation
    · have hne : file.leaf ≠ leaf := by
        rintro rfl
        omega
      simp [hgeneration, hne]
    · simp [hgeneration]
  have hrow : ShardRow env envelope.generation
      (shardsOf (s.store.write (.removeShard leaf)) envelope.generation) := by
    rw [hshards]
    exact h.row
  have hlog : Journal.log env { s with store := s.store.write (.removeShard leaf) } =
      s.log env := by
    have hread : readShards env (s.store.write (.removeShard leaf)) envelope.generation =
        .ok (shardsOf s.store envelope.generation) := by
      rw [readShards_of_row hrow, hshards]
    have hpositions : (s.store.write (.removeShard leaf)).positions = some envelope := h.positions
    rw [h.log_eq]
    simp only [Journal.log, hpositions, hread]
  refine ⟨⟨h.state, h.positions, h.readable, h.generation_le, ?_, hrow, by rw [hlog]; exact h.count,
    ?_, by rw [hlog]; exact h.ratings⟩, hlog⟩
  · exact fun file hfile ↦ h.generations file (List.mem_of_mem_filter hfile)
  · rw [Journal.tally, hlog]
    exact h.tally

end Journal.Deck

/-! ## Operations -/

/-- Where a retry finds its review. -/
theorem orphansAfter_eq_ok (h : s.Deck env envelope) {entryId : String} {baseRevision : ℕ}
    {orphans : ℕ} {existing : Option Value}
    (hexisting : existing = findEntrySince (shardsOf s.store envelope.generation) baseRevision
      entryId)
    (horphans : orphansAfter (envelope.canonical env) ⟨(s.log env).length,
        envelope.orphanEntries + ((s.log env).length - envelope.appliedEntries)⟩
      (existing.bind fun _ ↦ entryPosition (shardsOf s.store envelope.generation) entryId) =
        .ok orphans) :
    (existing = none ∧
        orphans = envelope.orphanEntries + ((s.log env).length - envelope.appliedEntries)) ∨
      entryId ∈ (s.log env).map ReviewShardEntry.id ∧
        orphans = envelope.orphanEntries +
          (s.tally env envelope).tail.countP fun id ↦ id ∉ [entryId] := by
  cases existing with
  | none =>
      obtain rfl := Except.ok.inj horphans
      exact Or.inl ⟨rfl, rfl⟩
  | some existing =>
      have hmem : entryId ∈ (s.log env).map ReviewShardEntry.id := by
        rw [findEntrySince_eq, ← h.log_eq] at hexisting
        have := findSince_eq_some hexisting.symm
        rwa [List.map_reverse, List.mem_reverse] at this
      have hposition : entryPosition (shardsOf s.store envelope.generation) entryId ≠ none := by
        rw [entryPosition, ← h.log_eq]
        exact positionFrom_ne_none hmem (by rw [Nat.zero_add]; exact h.count)
      obtain ⟨position, hposition⟩ := Option.ne_none_iff_exists'.mp hposition
      rw [Option.bind_some, hposition] at horphans
      rw [entryPosition, ← h.log_eq] at hposition
      obtain ⟨-, review, hreview, hid⟩ := positionFrom_eq_some hposition
      have hentry : (s.tally env envelope).entries[position]? = some entryId := by
        rw [Nat.sub_zero] at hreview
        rw [Journal.tally, List.getElem?_map, hreview, Option.map_some, hid]
      have htail := h.tally.mem_tail_iff hentry
      have hlength : (s.tally env envelope).tail.length =
          (s.log env).length - envelope.appliedEntries := by
        rw [AppliedLog.length_tail]
        exact congrArg (· - envelope.appliedEntries) (List.length_map _)
      refine Or.inr ⟨hmem, ?_⟩
      rw [h.tally.countP_tail, hlength]
      change (if (decide (position ≥ envelope.appliedEntries)) = true then _ else _) = _ at horphans
      by_cases hafter : envelope.appliedEntries ≤ position
      · have hin := htail.mpr hafter
        have hpos : 0 < (s.log env).length - envelope.appliedEntries := by
          rw [← hlength]
          exact List.length_pos_of_mem hin
        have hne : envelope.orphanEntries + ((s.log env).length - envelope.appliedEntries) ≠ 0 := by
          omega
        rw [if_pos (by simpa using hafter), if_neg hne] at horphans
        obtain rfl := Except.ok.inj horphans
        rw [if_pos hin]
        dsimp only
        omega
      · rw [if_neg (by simpa using hafter)] at horphans
        obtain rfl := Except.ok.inj horphans
        rw [if_neg (mt htail.mp hafter)]
        rfl

/-- A review that is not found was never appended. -/
theorem not_mem_log_of_find (h : s.Deck env envelope) {entryId : String} {baseRevision : ℕ}
    (hrating : ⟨entryId, envelope.generation, baseRevision⟩ ∈ s.ratings)
    (hfind : findEntrySince (shardsOf s.store envelope.generation) baseRevision entryId = none) :
    entryId ∉ (s.log env).map ReviewShardEntry.id := by
  intro hmem
  rw [findEntrySince_eq, ← h.log_eq] at hfind
  have hnewer : NewerFrom (s.log env) entryId baseRevision := ((h.ratings _ hrating).2 rfl).2
  obtain ⟨review, hreview, hid⟩ := List.mem_map.mp hmem
  have hne : (s.log env).dropWhile (fun review ↦ review.id ≠ entryId) ≠ [] := by
    rw [Ne, List.dropWhile_eq_nil_iff]
    intro hall
    simpa [hid] using hall review hreview
  obtain ⟨found, after, hdrop⟩ := List.exists_cons_of_ne_nil hne
  have hfound : found.id = entryId := by
    have hnot := List.head_dropWhile_not
      (fun review : ReviewShardEntry Value ↦ decide (review.id ≠ entryId)) hne
    simp only [hdrop, List.head_cons] at hnot
    simpa using hnot
  rw [NewerFrom, hdrop] at hnewer
  have hsplit : (s.log env).reverse = after.reverse ++ found ::
      ((s.log env).takeWhile fun review ↦ review.id ≠ entryId).reverse := by
    have happend := @List.takeWhile_append_dropWhile _
      (fun review : ReviewShardEntry Value ↦ decide (review.id ≠ entryId)) (s.log env)
    rw [hdrop] at happend
    conv_lhs => rw [← happend]
    simp
  rw [hsplit] at hfind
  refine findSince_ne_none hfound ?_ hfind
  intro r hr
  refine hnewer r ?_
  rcases List.mem_append.mp hr with hr | hr
  · exact List.mem_cons_of_mem _ (List.mem_reverse.mp hr)
  · rw [List.mem_singleton.mp hr]
    exact List.mem_cons_self ..

theorem validateEntry_eq_ok {text leaf : String} {entry : Value}
    (h : validateEntry env text leaf = .ok entry) :
    text.utf8ByteSize ≤ practiceEntryMaxBytes ∧ env.parse text = some entry := by
  rw [validateEntry] at h
  split_ifs at h with hsize
  cases hparse : env.parse text with
  | none =>
      rw [hparse] at h
      cases h
  | some value =>
      rw [hparse] at h
      exact ⟨not_lt.mp hsize, congrArg some (Except.ok.inj h)⟩

/-- A record that writes either finds its review in the log or appends it. -/
theorem recordPracticeReview_eq_ok (h : s.Deck env envelope) {request : PracticeReviewWrite}
    {plan : Plan Value ℕ} (hplan : recordPracticeReview env s.store request = .ok plan) :
    plan.writes = [] ∨ request.generation = envelope.generation ∧
      ∃ next, ReadableEnvelope env next ∧ next.generation = envelope.generation ∧
        next.revision = envelope.revision + 1 ∧
          ((request.entryId ∈ (s.log env).map ReviewShardEntry.id ∧
              next.appliedEntries = (s.log env).length ∧
              next.orphanEntries = envelope.orphanEntries +
                ((s.tally env envelope).tail.countP fun id ↦ id ∉ [request.entryId]) ∧
              plan.writes = [.putPositions next]) ∨
            findEntrySince (shardsOf s.store envelope.generation) request.baseRevision
                request.entryId = none ∧
              (s.log env).length + 1 ≤ u32Max ∧
              next.appliedEntries = (s.log env).length + 1 ∧
              next.orphanEntries =
                envelope.orphanEntries + ((s.log env).length - envelope.appliedEntries) ∧
              ∃ file entry,
                (ShardRow env envelope.generation
                    (putFile file (shardsOf s.store envelope.generation)) ∧
                  file.leaf.1 = envelope.generation ∧
                  reviewsOf (putFile file (shardsOf s.store envelope.generation)) =
                    reviewsOf (shardsOf s.store envelope.generation) ++
                      [⟨request.entryId, envelope.revision + 1, entry⟩] ∧
                  ShardsGrow (shardsOf s.store envelope.generation)
                    (putFile file (shardsOf s.store envelope.generation))) ∧
                plan.writes = [.putShard file, .putPositions next]) := by
  rw [recordPracticeReview] at hplan
  obtain ⟨hid, hplan⟩ := of_guard hplan
  obtain ⟨hidNonempty, hidLength⟩ : request.entryId.isEmpty = false ∧
      request.entryId.utf8ByteSize ≤ practiceIdMaxBytes := by
    simpa using hid
  obtain ⟨positions, -, hplan⟩ := bind_eq_ok hplan
  obtain ⟨entry, hentry, hplan⟩ := bind_eq_ok hplan
  obtain ⟨loaded, hloaded, hplan⟩ := bind_eq_ok hplan
  rw [h.loadValidDeck_eq] at hloaded
  obtain rfl := Except.ok.inj hloaded
  dsimp only at hplan
  obtain ⟨hgeneration, hplan⟩ := of_guard hplan
  have hgeneration : envelope.generation = request.generation := not_not.mp hgeneration
  by_cases hlast : (envelope.canonical env).lastEntryId = some request.entryId
  · rw [if_pos hlast] at hplan
    obtain ⟨-, hplan⟩ := of_guard hplan
    obtain rfl := Except.ok.inj hplan
    exact Or.inl rfl
  rw [if_neg hlast] at hplan
  obtain ⟨-, hplan⟩ := of_guard hplan
  obtain ⟨-, hplan⟩ := of_guard hplan
  obtain ⟨nextRevision, hnext, hplan⟩ := bind_eq_ok hplan
  obtain ⟨rfl, hrevision⟩ := nextCounter_eq_ok hnext
  obtain ⟨orphans, horphans, hplan⟩ := bind_eq_ok hplan
  obtain ⟨hlimit, hplan⟩ := of_guard hplan
  obtain ⟨_, hsize, hplan⟩ := bind_eq_ok hplan
  have hread := h.readable.next hsize rfl rfl rfl
    (by simp [anchorInvalid, hidLength, env.digest_length]) rfl
  refine Or.inr ⟨hgeneration.symm, _, hread, rfl, rfl, ?_⟩
  have hcases := orphansAfter_eq_ok h rfl horphans
  cases hfind : findEntrySince (shardsOf s.store envelope.generation) request.baseRevision
      request.entryId with
  | none =>
      rw [hfind] at hplan hlimit horphans
      obtain ⟨file, hfile, hplan⟩ := bind_eq_ok hplan
      obtain rfl := Except.ok.inj hplan
      refine Or.inr ⟨rfl, not_lt.mp hlimit, rfl, (Except.ok.inj horphans).symm, file,
        env.canonical entry, ?_, rfl⟩
      obtain ⟨htext, hparse⟩ := validateEntry_eq_ok hentry
      rw [← hgeneration] at hfile
      refine h.row.append h.generation_le hrevision (fun value ↦ ?_) htext hparse hfile
      simp [reviewInvalid, hidNonempty, hidLength]
  | some existing =>
      rw [hfind] at hplan
      obtain rfl := Except.ok.inj hplan
      rcases hcases with ⟨hnone, -⟩ | ⟨hmem, rfl⟩
      · rw [hfind] at hnone
        cases hnone
      · exact Or.inl ⟨hmem, rfl, rfl, rfl⟩

theorem syncPracticePositions_eq_ok (h : s.Deck env envelope) {generation revision : ℕ}
    {document : String} {plan : Plan Value ℕ}
    (hplan : syncPracticePositions env s.store generation revision document = .ok plan) :
    ∃ next, ReadableEnvelope env next ∧ next.generation = envelope.generation ∧
      next.revision = envelope.revision + 1 ∧ next.appliedEntries = (s.log env).length ∧
        next.orphanEntries =
          envelope.orphanEntries + ((s.log env).length - envelope.appliedEntries) ∧
          plan.writes = [.putPositions next] := by
  rw [syncPracticePositions] at hplan
  obtain ⟨positions, -, hplan⟩ := bind_eq_ok hplan
  obtain ⟨state, -, hplan⟩ := bind_eq_ok hplan
  obtain ⟨loaded, hloaded, hplan⟩ := bind_eq_ok hplan
  rw [h.readPositions_eq] at hloaded
  obtain rfl := Except.ok.inj hloaded
  dsimp only at hplan
  obtain ⟨hcurrent, hplan⟩ := of_guard hplan
  have hgeneration : envelope.generation = generation := not_not.mp fun hne ↦ hcurrent (Or.inl hne)
  obtain ⟨shards, hshards, hplan⟩ := bind_eq_ok hplan
  rw [← hgeneration, h.readShards_eq] at hshards
  obtain rfl := Except.ok.inj hshards
  obtain ⟨reconciliation, hreconcile, hplan⟩ := bind_eq_ok hplan
  rw [h.reconcile_eq] at hreconcile
  obtain rfl := Except.ok.inj hreconcile
  obtain ⟨nextRevision, hnext, hplan⟩ := bind_eq_ok hplan
  obtain ⟨rfl, -⟩ := nextCounter_eq_ok hnext
  obtain ⟨_, hsize, hplan⟩ := bind_eq_ok hplan
  obtain rfl := Except.ok.inj hplan
  exact ⟨_, h.readable.next hsize rfl rfl rfl h.readable.anchor rfl, rfl, rfl, rfl, rfl, rfl⟩

/-- A deck is created with its first positions. -/
theorem syncPracticePositions_of_fresh (h : s.Fresh env) {generation revision : ℕ}
    {document : String} {plan : Plan Value ℕ}
    (hplan : syncPracticePositions env s.store generation revision document = .ok plan) :
    ∃ positions, plan.writes = [.putPositions (newPositions env positions)] ∧
      ReadableEnvelope env (newPositions env positions) := by
  rw [syncPracticePositions] at hplan
  obtain ⟨positions, -, hplan⟩ := bind_eq_ok hplan
  obtain ⟨state, -, hplan⟩ := bind_eq_ok hplan
  obtain ⟨loaded, hloaded, hplan⟩ := bind_eq_ok hplan
  rw [readPositions_none h.positions] at hloaded
  obtain rfl := Except.ok.inj hloaded
  dsimp only at hplan
  obtain ⟨-, hplan⟩ := of_guard hplan
  obtain ⟨_, hsize, hplan⟩ := bind_eq_ok hplan
  obtain rfl := Except.ok.inj hplan
  refine ⟨positions, rfl, ?_, rfl, rfl, rfl, rfl⟩
  rw [ensurePositionsSize] at hsize
  split_ifs at hsize with hlength
  exact not_lt.mp hlength

theorem resetPracticeDeck_eq_ok (h : s.Deck env envelope) {generation revision : ℕ}
    {document : String} {plan : Plan Value ℕ}
    (hplan : resetPracticeDeck env s.store generation revision document = .ok plan) :
    ∃ next, ReadableEnvelope env next ∧ next.generation = envelope.generation + 1 ∧
      next.generation ≤ u32Max ∧ next.appliedEntries = 0 ∧ next.orphanEntries = 0 ∧
        ∃ leaves : List (ℕ × ℕ), (∀ leaf ∈ leaves, leaf.1 = envelope.generation) ∧
          plan.writes = .putPositions next :: leaves.map .removeShard := by
  rw [resetPracticeDeck] at hplan
  obtain ⟨positions, -, hplan⟩ := bind_eq_ok hplan
  obtain ⟨loaded, hloaded, hplan⟩ := bind_eq_ok hplan
  rw [h.readPositions_eq] at hloaded
  obtain rfl := Except.ok.inj hloaded
  dsimp only at hplan
  obtain ⟨-, hplan⟩ := of_guard hplan
  obtain ⟨nextGeneration, hnext, hplan⟩ := bind_eq_ok hplan
  obtain ⟨rfl, hlimit⟩ := nextCounter_eq_ok hnext
  obtain ⟨_, hsize, hplan⟩ := bind_eq_ok hplan
  have hread := h.readable.next hsize rfl rfl rfl rfl rfl
  have hshards : readShards env s.store (envelope.canonical env).generation =
      .ok (shardsOf s.store envelope.generation) := h.readShards_eq
  rw [hshards] at hplan
  obtain rfl := Except.ok.inj hplan
  refine ⟨_, hread, rfl, hlimit, rfl, rfl,
    (shardsOf s.store envelope.generation).map ShardFile.leaf, ?_, by rw [List.map_map]; rfl⟩
  intro leaf hleaf
  obtain ⟨file, hfile, rfl⟩ := List.mem_map.mp hleaf
  exact h.row.generation file hfile

theorem acknowledgePracticeOrphans_eq_ok (h : s.Deck env envelope) {generation count : ℕ}
    {plan : Plan Value Unit}
    (hplan : acknowledgePracticeOrphans env s.store generation count = .ok plan) :
    ∃ next, ReadableEnvelope env next ∧ next.generation = envelope.generation ∧
      next.revision = envelope.revision ∧ next.appliedEntries = envelope.appliedEntries ∧
        next.orphanEntries = envelope.orphanEntries ∧ plan.writes = [.putPositions next] := by
  rw [acknowledgePracticeOrphans] at hplan
  obtain ⟨loaded, hloaded, hplan⟩ := bind_eq_ok hplan
  rw [h.loadValidDeck_eq] at hloaded
  obtain rfl := Except.ok.inj hloaded
  dsimp only at hplan
  obtain ⟨-, hplan⟩ := of_guard hplan
  obtain ⟨_, hsize, hplan⟩ := bind_eq_ok hplan
  obtain rfl := Except.ok.inj hplan
  exact ⟨_, h.readable.next hsize rfl rfl rfl h.readable.anchor rfl, rfl, rfl, rfl, rfl, rfl⟩

/-! ## Steps -/

/-- The deck is in order again, in the same generation with at least the same
log, or in a later one. -/
def Journal.Follows (env : JournalEnv Value) (s : Journal Value)
    (envelope : PositionsEnvelope Value) (s' : Journal Value) : Prop :=
  ∃ next, s'.Deck env next ∧ (envelope.generation < next.generation ∨
    envelope.generation = next.generation ∧ s.log env <+: s'.log env)

theorem Journal.Deck.follows_self (h : s.Deck env envelope) : s.Follows env envelope s :=
  ⟨envelope, h, Or.inr ⟨rfl, List.prefix_rfl⟩⟩

theorem perform_of_error {request : JournalRequest} {landed : ℕ} {e : Error}
    (h : planWrites env s.store request = .error e) :
    s.perform env request landed = s := by
  rw [Journal.perform, h]

theorem perform_of_ok {request : JournalRequest} {landed : ℕ} {writes : List (JournalWrite Value)}
    (h : planWrites env s.store request = .ok writes) :
    s.perform env request landed = (writes.take landed).foldl (Journal.land env request) s := by
  rw [Journal.perform, h]

theorem follows_record (h : s.Deck env envelope) {request : PracticeReviewWrite} (landed : ℕ)
    (hrating : ⟨request.entryId, request.generation, request.baseRevision⟩ ∈ s.ratings) :
    s.Follows env envelope (s.perform env (.record request) landed) := by
  cases hplan : recordPracticeReview env s.store request with
  | error e =>
      rw [perform_of_error (by rw [planWrites, hplan]; rfl)]
      exact h.follows_self
  | ok plan =>
      rw [perform_of_ok (by rw [planWrites, hplan]; rfl)]
      rcases recordPracticeReview_eq_ok h hplan with hnil |
        ⟨hrequest, next, hread, hgeneration, hrevision, hcases⟩
      · rw [hnil, List.take_nil]
        exact h.follows_self
      have hle : envelope.revision ≤ next.revision := hrevision ▸ Nat.le_succ _
      rcases hcases with ⟨hmem, happlied, horphans, hwrites⟩ |
        ⟨hfind, hcount, happlied, horphans, file, entry, ⟨hrow, hleaf, hreviews, -⟩, hwrites⟩
      · rw [hwrites]
        cases landed with
        | zero => exact h.follows_self
        | succ landed =>
            have hown : [request.entryId] ⊆ (s.log env).map ReviewShardEntry.id := by
              simpa using hmem
            obtain ⟨hcommit, hlog⟩ := h.commit hread hgeneration hle hown happlied horphans
            rw [List.take_succ_cons, List.take_nil]
            change s.Follows env envelope (s.commit env next [request.entryId])
            exact ⟨next, hcommit, Or.inr ⟨hgeneration.symm, hlog ▸ List.prefix_rfl⟩⟩
      · rw [hwrites]
        rw [hrequest] at hrating
        have hnew := not_mem_log_of_find h hrating hfind
        obtain ⟨happend, hlog⟩ := h.putShard hrow hleaf hreviews rfl hnew hcount
        have hgrown : s.log env <+:
            Journal.log env { s with store := s.store.write (.putShard file) } :=
          hlog ▸ List.prefix_append _ _
        match landed with
        | 0 => exact h.follows_self
        | 1 => exact ⟨envelope, happend, Or.inr ⟨rfl, hgrown⟩⟩
        | landed + 2 =>
            have hown : [request.entryId] ⊆ (Journal.log env
                { s with store := s.store.write (.putShard file) }).map ReviewShardEntry.id := by
              simp [hlog]
            have hlength : next.appliedEntries = (Journal.log env
                { s with store := s.store.write (.putShard file) }).length := by
              rw [hlog, List.length_append, happlied]
              rfl
            have htally : Journal.tally env { s with store := s.store.write (.putShard file) }
                envelope = { s.tally env envelope with
                  entries := (s.tally env envelope).entries ++ [request.entryId] } := by
              simp only [Journal.tally, hlog, List.map_append, List.map_singleton]
            have htail : next.orphanEntries = envelope.orphanEntries +
                ((Journal.tally env { s with store := s.store.write (.putShard file) }
                  envelope).tail.countP fun id ↦ id ∉ [request.entryId]) := by
              rw [htally, h.tally.countP_tail_append hnew, horphans]
              simp only [Journal.tally, List.length_map]
            obtain ⟨hcommit, hlog'⟩ := happend.commit hread hgeneration hle hown hlength htail
            rw [List.take_succ_cons, List.take_succ_cons, List.take_nil]
            change s.Follows env envelope (Journal.commit env
              { s with store := s.store.write (.putShard file) } next [request.entryId])
            exact ⟨next, hcommit, Or.inr ⟨hgeneration.symm, hlog' ▸ hgrown⟩⟩

theorem follows_sync (h : s.Deck env envelope) (generation revision : ℕ) (document : String)
    (landed : ℕ) :
    s.Follows env envelope (s.perform env (.sync generation revision document) landed) := by
  cases hplan : syncPracticePositions env s.store generation revision document with
  | error e =>
      rw [perform_of_error (by rw [planWrites, hplan]; rfl)]
      exact h.follows_self
  | ok plan =>
      rw [perform_of_ok (by rw [planWrites, hplan]; rfl)]
      obtain ⟨next, hread, hgeneration, hrevision, happlied, horphans, hwrites⟩ :=
        syncPracticePositions_eq_ok h hplan
      rw [hwrites]
      cases landed with
      | zero => exact h.follows_self
      | succ landed =>
          have hle : envelope.revision ≤ next.revision := hrevision ▸ Nat.le_succ _
          have htail : next.orphanEntries = envelope.orphanEntries +
              ((s.tally env envelope).tail.countP fun id ↦ id ∉ []) := by
            rw [horphans, List.countP_eq_length.mpr (by simp), AppliedLog.length_tail]
            simp only [Journal.tally, List.length_map]
          obtain ⟨hcommit, hlog⟩ :=
            h.commit hread hgeneration hle (List.nil_subset _) happlied htail
          rw [List.take_succ_cons, List.take_nil]
          change s.Follows env envelope (s.commit env next [])
          exact ⟨next, hcommit, Or.inr ⟨hgeneration.symm, hlog ▸ List.prefix_rfl⟩⟩

theorem follows_acknowledge (h : s.Deck env envelope) (generation count landed : ℕ) :
    s.Follows env envelope (s.perform env (.acknowledge generation count) landed) := by
  cases hplan : acknowledgePracticeOrphans env s.store generation count with
  | error e =>
      rw [perform_of_error (by rw [planWrites, hplan]; rfl)]
      exact h.follows_self
  | ok plan =>
      rw [perform_of_ok (by rw [planWrites, hplan]; rfl)]
      obtain ⟨next, hread, hgeneration, hrevision, happlied, horphans, hwrites⟩ :=
        acknowledgePracticeOrphans_eq_ok h hplan
      rw [hwrites]
      cases landed with
      | zero => exact h.follows_self
      | succ landed =>
          have htally : AppliedLog.Ok ⟨(s.log env).map ReviewShardEntry.id, next.appliedEntries,
              next.orphanEntries, s.committed, s.overtaken⟩ := by
            rw [happlied, horphans]
            exact h.tally
          obtain ⟨hdeck, hlog⟩ := h.putPositions hread hgeneration hrevision.ge htally
          rw [List.take_succ_cons, List.take_nil]
          change s.Follows env envelope { s with store := s.store.write (.putPositions next) }
          exact ⟨next, hdeck, Or.inr ⟨hgeneration.symm, hlog ▸ List.prefix_rfl⟩⟩

theorem Journal.Deck.removeShards (h : s.Deck env envelope) {request : JournalRequest}
    {leaves : List (ℕ × ℕ)} (hleaves : ∀ leaf ∈ leaves, leaf.1 < envelope.generation) :
    Journal.Deck env ((leaves.map .removeShard).foldl (Journal.land env request) s) envelope := by
  induction leaves generalizing s with
  | nil => exact h
  | cons leaf leaves ih =>
      rw [List.forall_mem_cons] at hleaves
      exact ih (h.removeShard hleaves.1).1 hleaves.2

theorem follows_reset (h : s.Deck env envelope) (generation revision : ℕ) (document : String)
    (landed : ℕ) :
    s.Follows env envelope (s.perform env (.reset generation revision document) landed) := by
  cases hplan : resetPracticeDeck env s.store generation revision document with
  | error e =>
      rw [perform_of_error (by rw [planWrites, hplan]; rfl)]
      exact h.follows_self
  | ok plan =>
      rw [perform_of_ok (by rw [planWrites, hplan]; rfl)]
      obtain ⟨next, hread, hgeneration, hlimit, happlied, horphans, leaves, hleaves, hwrites⟩ :=
        resetPracticeDeck_eq_ok h hplan
      rw [hwrites]
      cases landed with
      | zero => exact h.follows_self
      | succ landed =>
          have hreset := h.reset hread hgeneration hlimit happlied horphans
          have hold : ∀ leaf ∈ leaves.take landed, leaf.1 < next.generation := by
            intro leaf hleaf
            have := hleaves leaf (List.mem_of_mem_take hleaf)
            omega
          rw [List.take_succ_cons, List.foldl_cons, ← List.map_take]
          exact ⟨next, hreset.removeShards hold, Or.inl (by omega)⟩

end EnCroissant

import Mathlib
import EnCroissant.Practice.Journal

/-!
# What the journal functions do

What reading needs, which shard an append writes, and what each operation
writes when it succeeds.
-/

namespace EnCroissant

variable {Value : Type} {env : JournalEnv Value} {store : DeckStore Value}
  {envelope : PositionsEnvelope Value}

theorem nextCounter_eq_ok {value next : ℕ} {label : String}
    (h : nextCounter value label = .ok next) :
    next = value + 1 ∧ next ≤ u32Max := by
  rw [nextCounter] at h
  split_ifs at h with hlimit
  obtain rfl := Except.ok.inj h
  exact ⟨rfl, not_lt.mp hlimit⟩

/-! ## Reading positions -/

def PositionsEnvelope.canonical (env : JournalEnv Value) (envelope : PositionsEnvelope Value) :
    PositionsEnvelope Value :=
  { envelope with positions := envelope.positions.map env.canonical }

structure ReadableEnvelope (env : JournalEnv Value) (envelope : PositionsEnvelope Value) :
    Prop where
  length : env.positionsLength envelope ≤ practicePositionsMaxBytes
  version : envelope.version = practiceStorageVersion
  identity : env.hashDeck envelope.fileId envelope.game = env.hash
  anchor : anchorInvalid envelope = false
  migration : migrationIncomplete envelope = false

theorem checkIdentity_of_eq (leaf : String) {version : ℕ} {fileId : String} {game : ℤ}
    (hversion : version = practiceStorageVersion)
    (hidentity : env.hashDeck fileId game = env.hash) :
    checkIdentity env leaf version fileId game = .ok env.hash := by
  rw [checkIdentity, if_neg (not_not.mpr hversion), if_neg (not_not.mpr hidentity), hidentity]

theorem readJson_of_le {α : Type} (leaf : String) {length maxBytes : ℕ} (document : α)
    (h : length ≤ maxBytes) :
    readJson leaf length maxBytes document = .ok document :=
  if_neg (not_lt.mpr h)

theorem readPositions_none (h : store.positions = none) :
    readPositions env store = .ok none := by
  rw [readPositions, h]

theorem readPositions_of_readable (hpositions : store.positions = some envelope)
    (h : ReadableEnvelope env envelope) :
    readPositions env store = .ok (some (envelope.canonical env)) := by
  have hidentity := checkIdentity_of_eq (positionsLeaf env.hash) h.version h.identity
  simp [readPositions, hpositions, readJson_of_le _ _ h.length, hidentity, h.anchor, h.migration,
    bind, Except.bind, PositionsEnvelope.canonical]

/-- Replaced positions are read back if their size and their anchor allow it. -/
theorem ReadableEnvelope.next {next : PositionsEnvelope Value}
    (h : ReadableEnvelope env envelope) (hsize : ensurePositionsSize env next = .ok ())
    (hversion : next.version = envelope.version) (hfile : next.fileId = envelope.fileId)
    (hgame : next.game = envelope.game) (hanchor : anchorInvalid next = false)
    (hmigration : migrationIncomplete next = migrationIncomplete envelope) :
    ReadableEnvelope env next := by
  rw [ensurePositionsSize] at hsize
  split_ifs at hsize with hlength
  exact ⟨not_lt.mp hlength, hversion.trans h.version, by rw [hfile, hgame]; exact h.identity,
    hanchor, hmigration.trans h.migration⟩

/-! ## Reading shards -/

structure ReadableShard (env : JournalEnv Value) (file : ShardFile Value) : Prop where
  length : env.shardLength file.envelope ≤ practiceLegacyMaxBytes
  version : file.envelope.version = practiceStorageVersion
  identity : env.hashDeck file.envelope.fileId file.envelope.game = env.hash
  generation : file.envelope.generation = file.leaf.1
  ordinal : file.envelope.ordinal = file.leaf.2
  ne_nil : file.envelope.entries ≠ []
  reviews : ∀ review ∈ file.envelope.entries, reviewInvalid review = false

theorem readShard_of_readable {file : ShardFile Value} (h : ReadableShard env file) :
    readShard env file = .ok file := by
  have hidentity :=
    checkIdentity_of_eq (shardLeaf env.hash file.leaf.1 file.leaf.2) h.version h.identity
  have hreviews : file.envelope.entries.any reviewInvalid = false := by
    simpa using h.reviews
  simp [readShard, readJson_of_le _ _ h.length, hidentity, h.generation, h.ordinal, h.ne_nil,
    hreviews, bind, Except.bind]

/-- The shards of one generation, by ascending ordinals. -/
structure ShardRow (env : JournalEnv Value) (generation : ℕ) (shards : List (ShardFile Value)) :
    Prop where
  readable : ∀ file ∈ shards, ReadableShard env file
  generation : ∀ file ∈ shards, file.leaf.1 = generation
  ordinal_le : ∀ file ∈ shards, file.leaf.2 ≤ u32Max
  ascending : shards.Pairwise fun a b ↦ a.leaf.2 < b.leaf.2

theorem ShardRow.sort {generation : ℕ} {shards : List (ShardFile Value)}
    (h : ShardRow env generation shards) :
    (shards.mergeSort fun a b ↦ a.envelope.ordinal ≤ b.envelope.ordinal) = shards := by
  refine List.mergeSort_of_pairwise (h.ascending.imp_of_mem ?_)
  intro a b ha hb hlt
  rw [decide_eq_true_eq, (h.readable a ha).ordinal, (h.readable b hb).ordinal]
  exact hlt.le

theorem mapM_readShard {shards : List (ShardFile Value)}
    (h : ∀ file ∈ shards, ReadableShard env file) :
    shards.mapM (readShard env) = .ok shards := by
  induction shards with
  | nil => rfl
  | cons file shards ih =>
      rw [List.forall_mem_cons] at h
      simp [List.mapM_cons, readShard_of_readable h.1, ih h.2, bind, Except.bind, pure, Except.pure]

theorem readShards_of_row {generation : ℕ}
    (h : ShardRow env generation (shardsOf store generation)) :
    readShards env store generation = .ok (shardsOf store generation) := by
  simp [readShards, mapM_readShard h.readable, h.sort, bind, Except.bind]

theorem countEntries_eq_ok {shards : List (ShardFile Value)} {total : ℕ}
    (h : total + (reviewsOf shards).length ≤ u32Max) :
    countEntries total shards = .ok (total + (reviewsOf shards).length) := by
  induction shards generalizing total with
  | nil => rfl
  | cons shard shards ih =>
      have hlength : (reviewsOf (shard :: shards)).length =
          shard.envelope.entries.length + (reviewsOf shards).length := by
        rw [reviewsOf, List.flatMap_cons, List.length_append]
        rfl
      rw [hlength, ← Nat.add_assoc] at h ⊢
      rw [countEntries, if_neg (by omega), ih h]

/-! ## Searching -/

theorem findSince_eq_some {baseRevision : ℕ} {entryId : String}
    {reviews : List (ReviewShardEntry Value)} {entry : Value}
    (h : findSince baseRevision entryId reviews = some entry) :
    entryId ∈ reviews.map ReviewShardEntry.id := by
  induction reviews with
  | nil => cases h
  | cons review reviews ih =>
      rw [findSince] at h
      rw [List.map_cons]
      split_ifs at h with hrev hid
      · exact hid ▸ List.mem_cons_self ..
      · exact List.mem_cons_of_mem _ (ih h)

/-- A review with newer ones only behind it is found. -/
theorem findSince_ne_none {baseRevision : ℕ} {entryId : String}
    {after before : List (ReviewShardEntry Value)} {review : ReviewShardEntry Value}
    (hid : review.id = entryId)
    (hnewer : ∀ r ∈ after ++ [review], baseRevision < r.rev) :
    findSince baseRevision entryId (after ++ review :: before) ≠ none := by
  induction after with
  | nil =>
      have := hnewer review (by simp)
      rw [List.nil_append, findSince, if_neg (by omega), if_pos hid]
      exact Option.some_ne_none _
  | cons r after ih =>
      have := hnewer r (by simp)
      rw [List.cons_append, findSince, if_neg (by omega)]
      split_ifs
      · exact Option.some_ne_none _
      · exact ih fun r' hr' ↦ hnewer r' (List.mem_cons_of_mem _ hr')

theorem findEntrySince_eq (shards : List (ShardFile Value)) (baseRevision : ℕ)
    (entryId : String) :
    findEntrySince shards baseRevision entryId =
      findSince baseRevision entryId (reviewsOf shards).reverse := by
  rw [findEntrySince, reviewsOf, List.reverse_flatMap]
  rfl

theorem positionFrom_eq_some {entryId : String} {reviews : List (ReviewShardEntry Value)}
    {start position : ℕ} (h : positionFrom entryId start reviews = some position) :
    start ≤ position ∧ ∃ review, reviews[position - start]? = some review ∧ review.id = entryId := by
  induction reviews generalizing start with
  | nil => cases h
  | cons review reviews ih =>
      rw [positionFrom] at h
      split_ifs at h with hid hlimit
      · obtain rfl := Option.some.inj h
        exact ⟨le_rfl, review, by simp, hid⟩
      · obtain ⟨hle, found, hfound, hid'⟩ := ih h
        refine ⟨by omega, found, ?_, hid'⟩
        rw [show position - start = position - (start + 1) + 1 by omega, List.getElem?_cons_succ]
        exact hfound

theorem positionFrom_ne_none {entryId : String} {reviews : List (ReviewShardEntry Value)}
    {start : ℕ} (hmem : entryId ∈ reviews.map ReviewShardEntry.id)
    (hlength : start + reviews.length ≤ u32Max) :
    positionFrom entryId start reviews ≠ none := by
  induction reviews generalizing start with
  | nil => cases hmem
  | cons review reviews ih =>
      rw [List.length_cons] at hlength
      rw [positionFrom]
      split_ifs with hid hlimit
      · exact Option.some_ne_none _
      · omega
      · rw [List.map_cons, List.mem_cons] at hmem
        exact ih (hmem.resolve_left fun heq ↦ hid heq.symm) (by omega)

/-! ## Appending -/

theorem putFile_of_new {file : ShardFile Value} {files : List (ShardFile Value)}
    (h : ∀ f ∈ files, f.leaf ≠ file.leaf) :
    putFile file files = files ++ [file] := by
  induction files with
  | nil => rfl
  | cons f files ih =>
      rw [List.forall_mem_cons] at h
      rw [putFile, if_neg h.1, ih h.2, List.cons_append]

theorem putFile_concat {file last : ShardFile Value} {files : List (ShardFile Value)}
    (h : ∀ f ∈ files, f.leaf ≠ file.leaf) (hlast : last.leaf = file.leaf) :
    putFile file (files ++ [last]) = files ++ [file] := by
  induction files with
  | nil => rw [List.nil_append, List.nil_append, putFile, if_pos hlast]
  | cons f files ih =>
      rw [List.forall_mem_cons] at h
      rw [List.cons_append, putFile, if_neg h.1, ih h.2, List.cons_append]

theorem mem_putFile {f file : ShardFile Value} {files : List (ShardFile Value)}
    (h : f ∈ putFile file files) :
    f = file ∨ f ∈ files := by
  induction files with
  | nil => exact Or.inl (List.mem_singleton.mp h)
  | cons g files ih =>
      rw [putFile] at h
      split_ifs at h
      · exact (List.mem_cons.mp h).imp_right (List.mem_cons_of_mem _)
      · rcases List.mem_cons.mp h with rfl | h
        · exact Or.inr (List.mem_cons_self ..)
        · exact (ih h).imp_right (List.mem_cons_of_mem _)

theorem shardsOf_putFile {file : ShardFile Value} :
    shardsOf (store.write (.putShard file)) file.leaf.1 =
      putFile file (shardsOf store file.leaf.1) := by
  rw [shardsOf, shardsOf, DeckStore.write]
  induction store.shards with
  | nil => simp [putFile]
  | cons f files ih =>
      dsimp only at ih ⊢
      by_cases hleaf : f.leaf = file.leaf
      · have hgeneration : f.leaf.1 = file.leaf.1 := congrArg Prod.fst hleaf
        simp [putFile, hleaf]
      · rw [putFile, if_neg hleaf]
        by_cases hgeneration : f.leaf.1 = file.leaf.1
        · rw [List.filter_cons_of_pos (by simpa using hgeneration), ih,
            List.filter_cons_of_pos (by simpa using hgeneration), putFile, if_neg hleaf]
        · rw [List.filter_cons_of_neg (by simpa using hgeneration), ih,
            List.filter_cons_of_neg (by simpa using hgeneration)]

/-- The shard that an append writes, by the last shard of the row. -/
theorem appendReview_eq_ok {generation revision : ℕ}
    {latest : Option (ReviewShardEnvelope Value)} {entryId : String} {entry : Value}
    {file : ShardFile Value}
    (h : appendReview env generation revision latest entryId entry = .ok file) :
    (∃ current ∈ latest, file = ⟨(generation, current.ordinal),
        { current with entries := current.entries ++ [⟨entryId, revision, env.canonical entry⟩] }⟩ ∧
      (current.entries ≠ [] → env.shardLength file.envelope ≤ practiceShardSealBytes)) ∨
    ∃ ordinal, ordinal ≤ u32Max ∧
      (latest = none ∧ ordinal = 0 ∨ ∃ current ∈ latest, ordinal = current.ordinal + 1) ∧
      file = ⟨(generation, ordinal), ⟨practiceStorageVersion, env.fileId, env.game, generation,
        ordinal, [⟨entryId, revision, env.canonical entry⟩]⟩⟩ := by
  cases latest with
  | none =>
      obtain rfl := Except.ok.inj h
      exact Or.inr ⟨0, Nat.zero_le _, Or.inl ⟨rfl, rfl⟩, rfl⟩
  | some current =>
      simp only [appendReview, appendSealedReview, Option.toList_some, List.getLast?_singleton,
        Option.getD_some, List.dropLast_singleton, List.nil_append, bind, Except.bind] at h
      split_ifs at h with hseal
      · cases hnext : nextCounter current.ordinal "shard ordinal" with
        | error e =>
            rw [hnext] at h
            cases h
        | ok ordinal =>
            rw [hnext] at h
            obtain ⟨rfl, hlimit⟩ := nextCounter_eq_ok hnext
            obtain rfl := Except.ok.inj h
            exact Or.inr ⟨_, hlimit, Or.inr ⟨current, rfl, rfl⟩, rfl⟩
      · obtain rfl := Except.ok.inj h
        refine Or.inl ⟨current, rfl, rfl, fun hentries ↦ ?_⟩
        simpa [hentries] using hseal

theorem ShardRow.concat {generation : ℕ} {front : List (ShardFile Value)} {file : ShardFile Value}
    (h : ShardRow env generation front) (hread : ReadableShard env file)
    (hgeneration : file.leaf.1 = generation) (hordinal : file.leaf.2 ≤ u32Max)
    (hbelow : ∀ f ∈ front, f.leaf.2 < file.leaf.2) :
    ShardRow env generation (front ++ [file]) := by
  refine ⟨?_, ?_, ?_, List.pairwise_append.mpr ⟨h.ascending, List.pairwise_singleton _ _, ?_⟩⟩
  · exact List.forall_mem_append.mpr ⟨h.readable, List.forall_mem_singleton.mpr hread⟩
  · exact List.forall_mem_append.mpr ⟨h.generation, List.forall_mem_singleton.mpr hgeneration⟩
  · exact List.forall_mem_append.mpr ⟨h.ordinal_le, List.forall_mem_singleton.mpr hordinal⟩
  · intro f hf g hg
    rw [List.mem_singleton.mp hg]
    exact hbelow f hf

theorem ShardRow.of_concat {generation : ℕ} {front : List (ShardFile Value)}
    {last : ShardFile Value} (h : ShardRow env generation (front ++ [last])) :
    ShardRow env generation front ∧ ReadableShard env last ∧
      last.leaf = (generation, last.envelope.ordinal) ∧ last.leaf.2 ≤ u32Max ∧
        ∀ f ∈ front, f.leaf.2 < last.leaf.2 := by
  have hmem : last ∈ front ++ [last] := List.mem_append_right _ (List.mem_singleton_self _)
  have hread := h.readable last hmem
  obtain ⟨hfront, -, hbelow⟩ := List.pairwise_append.mp h.ascending
  refine ⟨⟨fun f hf ↦ ?_, fun f hf ↦ ?_, fun f hf ↦ ?_, hfront⟩, hread,
    Prod.ext (h.generation last hmem) hread.ordinal.symm, h.ordinal_le last hmem,
    fun f hf ↦ hbelow f hf last (List.mem_singleton_self _)⟩
  · exact h.readable f (List.mem_append_left _ hf)
  · exact h.generation f (List.mem_append_left _ hf)
  · exact h.ordinal_le f (List.mem_append_left _ hf)

/-- A leaf behind a row is not in it. -/
theorem leaf_ne_of_below {shards : List (ShardFile Value)} {generation ordinal : ℕ}
    (h : ∀ f ∈ shards, f.leaf.2 < ordinal) :
    ∀ f ∈ shards, f.leaf ≠ (generation, ordinal) := by
  intro f hf heq
  have := h f hf
  rw [heq] at this
  exact lt_irrefl _ this

/-- The shards in front of the last stay as they are, the last may get more reviews, and more
shards may follow. -/
def ShardsGrow (shards shards' : List (ShardFile Value)) : Prop :=
  ∀ index shard, shards[index]? = some shard → ∃ shard', shards'[index]? = some shard' ∧
    shard'.envelope.ordinal = shard.envelope.ordinal ∧
      shard.envelope.entries <+: shard'.envelope.entries ∧
        (index + 1 < shards.length → shard'.envelope.entries = shard.envelope.entries)

namespace ShardsGrow

theorem refl (shards : List (ShardFile Value)) : ShardsGrow shards shards :=
  fun _ shard h ↦ ⟨shard, h, rfl, List.prefix_rfl, fun _ ↦ rfl⟩

theorem trans {shards shards' shards'' : List (ShardFile Value)} (h : ShardsGrow shards shards')
    (h' : ShardsGrow shards' shards'') : ShardsGrow shards shards'' := by
  intro index shard hshard
  obtain ⟨shard', hshard', hordinal, hentries, hsame⟩ := h index shard hshard
  obtain ⟨shard'', hshard'', hordinal', hentries', hsame'⟩ := h' index shard' hshard'
  refine ⟨shard'', hshard'', hordinal'.trans hordinal, hentries.trans hentries', fun hlast ↦ ?_⟩
  obtain ⟨next, hnext, -⟩ := h _ _ (List.getElem?_eq_getElem hlast)
  obtain ⟨hindex, -⟩ := List.getElem?_eq_some_iff.mp hnext
  rw [hsame' hindex, hsame hlast]

theorem of_append (shards more : List (ShardFile Value)) : ShardsGrow shards (shards ++ more) := by
  intro index shard hshard
  obtain ⟨hindex, -⟩ := List.getElem?_eq_some_iff.mp hshard
  refine ⟨shard, ?_, rfl, List.prefix_rfl, fun _ ↦ rfl⟩
  rw [List.getElem?_append_left hindex, hshard]

theorem of_last {front : List (ShardFile Value)} {last last' : ShardFile Value}
    (hordinal : last'.envelope.ordinal = last.envelope.ordinal)
    (hentries : last.envelope.entries <+: last'.envelope.entries) :
    ShardsGrow (front ++ [last]) (front ++ [last']) := by
  intro index shard hshard
  by_cases hindex : index < front.length
  · rw [List.getElem?_append_left hindex] at hshard ⊢
    exact ⟨shard, hshard, rfl, List.prefix_rfl, fun _ ↦ rfl⟩
  · obtain ⟨hlength, -⟩ := List.getElem?_eq_some_iff.mp hshard
    rw [List.length_append, List.length_singleton] at hlength
    obtain rfl : index = front.length := by omega
    rw [List.getElem?_concat_length, Option.some.injEq] at hshard
    subst hshard
    refine ⟨last', List.getElem?_concat_length, hordinal, hentries, fun hlast ↦ ?_⟩
    rw [List.length_append, List.length_singleton] at hlast
    omega

end ShardsGrow

/-- An append keeps the row and puts the review at its end. -/
theorem ShardRow.append {generation revision : ℕ} {shards : List (ShardFile Value)}
    {entryId text : String} {entry : Value} {file : ShardFile Value}
    (hrow : ShardRow env generation shards) (hgeneration : generation ≤ u32Max)
    (hrevision : revision ≤ u32Max)
    (hreview : ∀ entry : Value, reviewInvalid ⟨entryId, revision, entry⟩ = false)
    (htext : text.utf8ByteSize ≤ practiceEntryMaxBytes) (hparse : env.parse text = some entry)
    (h : appendReview env generation revision (shards.getLast?.map ShardFile.envelope) entryId
      entry = .ok file) :
    ShardRow env generation (putFile file shards) ∧ file.leaf.1 = generation ∧
      reviewsOf (putFile file shards) =
        reviewsOf shards ++ [⟨entryId, revision, env.canonical entry⟩] ∧
          ShardsGrow shards (putFile file shards) := by
  have hid : entryId.utf8ByteSize ≤ practiceIdMaxBytes := by
    have := hreview entry
    simp only [reviewInvalid, Bool.or_eq_false_iff, decide_eq_false_iff_not, not_lt] at this
    exact this.1.2
  rcases appendReview_eq_ok h with ⟨current, hcurrent, rfl, hseal⟩ | ⟨ordinal, hlimit, hordinal, rfl⟩
  · rw [Option.mem_def, Option.map_eq_some_iff] at hcurrent
    obtain ⟨last, hlast, rfl⟩ := hcurrent
    obtain ⟨front, rfl⟩ := List.getLast?_eq_some_iff.mp hlast
    obtain ⟨hfront, hread, hleaf, hlimit, hbelow⟩ := hrow.of_concat
    rw [hleaf] at hlimit hbelow
    rw [putFile_concat (leaf_ne_of_below hbelow) hleaf]
    refine ⟨hfront.concat ?_ rfl hlimit hbelow, rfl, by simp [reviewsOf],
      .of_last rfl (List.prefix_append _ _)⟩
    refine ⟨(hseal hread.ne_nil).trans (by decide), hread.version, hread.identity, ?_, rfl,
      by simp, List.forall_mem_append.mpr
        ⟨hread.reviews, List.forall_mem_singleton.mpr (hreview _)⟩⟩
    exact hread.generation.trans (congrArg Prod.fst hleaf)
  · have hbelow : ∀ f ∈ shards, f.leaf.2 < ordinal := by
      intro f hf
      rcases hordinal with ⟨hnone, -⟩ | ⟨current, hcurrent, rfl⟩
      · rw [Option.map_eq_none_iff, List.getLast?_eq_none_iff] at hnone
        rw [hnone] at hf
        cases hf
      · rw [Option.mem_def, Option.map_eq_some_iff] at hcurrent
        obtain ⟨last, hlast, rfl⟩ := hcurrent
        obtain ⟨front, rfl⟩ := List.getLast?_eq_some_iff.mp hlast
        obtain ⟨-, -, hleaf, -, hbelow⟩ := hrow.of_concat
        rw [hleaf] at hbelow
        rcases List.mem_append.mp hf with hf | hf
        · exact Nat.lt_succ_of_lt (hbelow f hf)
        · rw [List.mem_singleton.mp hf, hleaf]
          exact Nat.lt_succ_self _
    rw [putFile_of_new (leaf_ne_of_below hbelow)]
    refine ⟨hrow.concat ?_ rfl hlimit hbelow, rfl, by simp [reviewsOf], .of_append _ _⟩
    exact ⟨env.shardLength_single _ _ _ _ _ _ hgeneration hlimit hrevision hid htext hparse,
      rfl, rfl, rfl, rfl, List.cons_ne_nil _ _, List.forall_mem_singleton.mpr (hreview _)⟩

end EnCroissant

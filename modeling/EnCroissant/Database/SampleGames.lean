import Mathlib
import EnCroissant.Library.TopSample

/-!
# The sample of games of a position search

The workers offer the games they match to one heap, in an order that depends on
their scheduling.  The heap keeps five hundred games of the highest ratings, the
earlier ones among those that tie at the cut.
-/

namespace EnCroissant

/-- What the sample reads of an entry of the search index; a missing rating is zero. -/
structure SampleEntry where
  id : ℤ
  whiteElo : ℤ
  blackElo : ℤ
  deriving DecidableEq, Repr

/-- What the last query reads of a row of the games table. -/
structure GameElos where
  id : ℤ
  whiteElo : Option ℤ
  blackElo : Option ℤ
  deriving DecidableEq, Repr

def maxSamples : ℕ := 500

namespace SampleEntry

def eloKey (entry : SampleEntry) : ℤ := max entry.whiteElo entry.blackElo

/-- What is pushed on the heap, ordered by rating and then by id. -/
def item (entry : SampleEntry) : ℤ ×ₗ ℤ := toLex (entry.eloKey, entry.id)

def itemElo (item : ℤ ×ₗ ℤ) : ℤ := (ofLex item).1

def itemId (item : ℤ ×ₗ ℤ) : ℤ := (ofLex item).2

@[simp] theorem itemElo_item (entry : SampleEntry) : itemElo entry.item = entry.eloKey := rfl

@[simp] theorem itemId_item (entry : SampleEntry) : itemId entry.item = entry.id := rfl

theorem monotone_itemElo : Monotone itemElo := Prod.Lex.monotone_fst

end SampleEntry

open SampleEntry

/-- The heap after the matching entries were offered in this order. -/
def topGames (order : List SampleEntry) : List (ℤ ×ₗ ℤ) :=
  TopSample.sample itemElo maxSamples (order.map item)

def sampleIds (order : List SampleEntry) : List ℤ := (topGames order).map itemId

/-- A missing rating is below all others. -/
def ratingRank : Option ℤ → WithBot ℤ
  | none => ⊥
  | some elo => elo

/-- The order of the last query. -/
def betterRated (a b : GameElos) : Prop :=
  ratingRank b.whiteElo < ratingRank a.whiteElo ∨
    ratingRank a.whiteElo = ratingRank b.whiteElo ∧
      ratingRank b.blackElo ≤ ratingRank a.blackElo

instance : DecidableRel betterRated := fun a b ↦
  have := WithBot.decidableLT (ratingRank b.whiteElo) (ratingRank a.whiteElo)
  have := WithBot.decidableLE (ratingRank b.blackElo) (ratingRank a.blackElo)
  inferInstanceAs (Decidable (_ ∨ _ ∧ _))

/-- The rows with the sampled ids, best rated first. -/
def sampledGames (games : List GameElos) (order : List SampleEntry) : List GameElos :=
  (games.filter (·.id ∈ sampleIds order)).insertionSort betterRated

/-- The ids that a search returns. -/
def returnedIds (games : List GameElos) (order : List SampleEntry) : Set ℤ :=
  {id | id ∈ (sampledGames games order).map (·.id)}

variable {games : List GameElos} {entries order order₁ order₂ : List SampleEntry}

/-! ## The ids name the items -/

theorem nodup_items (hids : (entries.map (·.id)).Nodup) : (entries.map item).Nodup := by
  refine List.Nodup.of_map itemId ?_
  rw [List.map_map]
  exact hids

/-- Items of the entries with one id are the same. -/
theorem item_eq_of_itemId_eq (hids : (entries.map (·.id)).Nodup) {a b : ℤ ×ₗ ℤ}
    (ha : a ∈ entries.map item) (hb : b ∈ entries.map item) (h : itemId a = itemId b) :
    a = b := by
  obtain ⟨entry, hentry, rfl⟩ := List.mem_map.mp ha
  obtain ⟨entry', hentry', rfl⟩ := List.mem_map.mp hb
  rw [List.inj_on_of_nodup_map hids hentry hentry' h]

theorem nodup_of_isTop (hids : (entries.map (·.id)).Nodup) {kept : List (ℤ ×ₗ ℤ)}
    (h : TopSample.IsTop itemElo maxSamples (entries.map item) kept) :
    kept.Nodup := by
  obtain ⟨-, left, hperm, -⟩ := h
  exact (List.nodup_append.mp (hperm.nodup_iff.mpr (nodup_items hids))).1

theorem isTop_topGames (h : order.Perm entries) :
    TopSample.IsTop itemElo maxSamples (entries.map item) (topGames order) :=
  (TopSample.isTop_sample monotone_itemElo _).1.perm (h.map item)

/-- Every item of the heap was offered. -/
theorem subset_of_isTop {kept : List (ℤ ×ₗ ℤ)}
    (h : TopSample.IsTop itemElo maxSamples (entries.map item) kept) :
    kept ⊆ entries.map item := by
  obtain ⟨-, left, hperm, -⟩ := h
  exact fun a ha ↦ hperm.subset (List.mem_append_left left ha)

/-- The search returns the ids of the heap. -/
theorem returnedIds_eq (h : order.Perm entries)
    (hrows : ∀ entry ∈ entries, entry.id ∈ games.map (·.id)) :
    returnedIds games order = {id | id ∈ sampleIds order} := by
  ext id
  simp only [returnedIds, sampledGames, Set.mem_ofPred_eq, List.mem_map, List.mem_insertionSort,
    List.mem_filter, decide_eq_true_eq]
  constructor
  · rintro ⟨game, ⟨-, hid⟩, rfl⟩
    exact hid
  · intro hid
    obtain ⟨a, ha, rfl⟩ := List.mem_map.mp hid
    obtain ⟨entry, hentry, rfl⟩ := List.mem_map.mp (subset_of_isTop (isTop_topGames h) ha)
    obtain ⟨game, hgame, heq⟩ := List.mem_map.mp (hrows entry hentry)
    refine ⟨game, ⟨hgame, ?_⟩, heq⟩
    rw [heq]
    exact hid

theorem exists_perm_of_perm_map {α β : Type*} {f : α → β} {l : List β} {items : List α}
    (h : l.Perm (items.map f)) :
    ∃ order : List α, order.Perm items ∧ order.map f = l := by
  have hmap : List.Forall₂ (fun b a ↦ b = f a) (items.map f) items := by
    rw [List.forall₂_map_left_iff]
    exact List.forall₂_same.mpr fun _ _ ↦ rfl
  obtain ⟨order, hforall, horder⟩ := List.perm_comp_forall₂ h hmap
  refine ⟨order, horder, ?_⟩
  rw [← List.forall₂_eq_eq_eq, List.forall₂_map_left_iff]
  exact hforall.flip.imp fun _ _ heq ↦ heq.symm

theorem returnedIds_eq_iff (hids : (entries.map (·.id)).Nodup) (h₁ : order₁.Perm entries)
    (h₂ : order₂.Perm entries) (hrows : ∀ entry ∈ entries, entry.id ∈ games.map (·.id)) :
    returnedIds games order₁ = returnedIds games order₂ ↔
      (topGames order₁).Perm (topGames order₂) := by
  have htop₁ := isTop_topGames h₁
  have htop₂ := isTop_topGames h₂
  rw [returnedIds_eq h₁ hrows, returnedIds_eq h₂ hrows]
  constructor
  · intro hsame
    rw [List.perm_ext_iff_of_nodup (nodup_of_isTop hids htop₁) (nodup_of_isTop hids htop₂)]
    have hhalf : ∀ {order order'}, order.Perm entries → order'.Perm entries →
        {id | id ∈ sampleIds order} ⊆ {id | id ∈ sampleIds order'} →
          ∀ a ∈ topGames order, a ∈ topGames order' := by
      intro order order' h h' hsub a ha
      obtain ⟨b, hb, heq⟩ := List.mem_map.mp (hsub (List.mem_map_of_mem ha))
      rwa [← item_eq_of_itemId_eq hids (subset_of_isTop (isTop_topGames h') hb)
        (subset_of_isTop (isTop_topGames h) ha) heq]
    exact fun a ↦ ⟨hhalf h₁ h₂ hsame.subset a, hhalf h₂ h₁ hsame.symm.subset a⟩
  · intro hperm
    ext id
    exact (hperm.map itemId).mem_iff

/-! ## What scheduling leaves open -/

/-- In every order of the offers the sample has the same number of games and the same
ratings, and it has every game for which the games rated no lower all fit.  Its
games are the same in all orders exactly if the games that tie at the cut fit. -/
theorem returnedIds_order (hids : (entries.map (·.id)).Nodup)
    (hrows : ∀ entry ∈ entries, entry.id ∈ games.map (·.id)) :
    (∀ order, order.Perm entries →
      (sampleIds order).Nodup ∧ returnedIds games order = {id | id ∈ sampleIds order} ∧
        (sampleIds order).length = min maxSamples entries.length) ∧
    (∀ order₁ order₂, order₁.Perm entries → order₂.Perm entries →
      ((topGames order₁).map itemElo).Perm ((topGames order₂).map itemElo)) ∧
    (∀ order entry, order.Perm entries → entry ∈ entries →
      (entries.filter (entry.eloKey ≤ ·.eloKey)).length ≤ maxSamples →
        entry.id ∈ returnedIds games order) ∧
    ((∀ order₁ order₂, order₁.Perm entries → order₂.Perm entries →
        returnedIds games order₁ = returnedIds games order₂) ↔
      entries.length ≤ maxSamples ∨
        ∃ cut, (entries.filter (cut ≤ ·.eloKey)).length = maxSamples) := by
  have hcount : ∀ cut, ((entries.map item).filter (cut ≤ itemElo ·)).length =
      (entries.filter (cut ≤ ·.eloKey)).length := by
    intro cut
    rw [List.filter_map, List.length_map]
    rfl
  refine ⟨?_, ?_, ?_, ?_⟩
  · intro order h
    have htop := isTop_topGames h
    refine ⟨?_, returnedIds_eq h hrows, ?_⟩
    · refine (nodup_of_isTop hids htop).map_on ?_
      intro a ha b hb heq
      exact item_eq_of_itemId_eq hids (subset_of_isTop htop ha) (subset_of_isTop htop hb) heq
    · rw [sampleIds, List.length_map, htop.length, List.length_map]
  · intro order₁ order₂ h₁ h₂
    exact (isTop_topGames h₁).keys_perm (isTop_topGames h₂)
  · intro order entry h hentry hfits
    rw [returnedIds_eq h hrows]
    refine List.mem_map.mpr ⟨entry.item, ?_, rfl⟩
    refine (isTop_topGames h).mem_of_count_le (List.mem_map_of_mem hentry) ?_
    rw [itemElo_item, hcount]
    exact hfits
  · have hties : TopSample.TiesFit itemElo maxSamples (entries.map item) ↔
        entries.length ≤ maxSamples ∨
          ∃ cut, (entries.filter (cut ≤ ·.eloKey)).length = maxSamples := by
      rw [TopSample.TiesFit, List.length_map]
      simp only [hcount]
    rw [← hties, ← TopSample.sample_perm_iff monotone_itemElo (by decide) (nodup_items hids)]
    constructor
    · intro hsame l₁ l₂ h₁ h₂
      obtain ⟨order₁, horder₁, rfl⟩ := exists_perm_of_perm_map h₁
      obtain ⟨order₂, horder₂, rfl⟩ := exists_perm_of_perm_map h₂
      exact (returnedIds_eq_iff hids horder₁ horder₂ hrows).mp (hsame _ _ horder₁ horder₂)
    · intro hsame order₁ order₂ h₁ h₂
      exact (returnedIds_eq_iff hids h₁ h₂ hrows).mpr (hsame _ _ (h₁.map item) (h₂.map item))

/-! ### Unrated games -/

def unrated (n : ℕ) : List SampleEntry := (List.range n).map fun id : ℕ ↦ ⟨id, 0, 0⟩

def unratedRows (n : ℕ) : List GameElos := (List.range n).map fun id : ℕ ↦ ⟨id, none, none⟩

theorem returnedIds_order_unrated :
    (sampleIds (unrated 2)).Nodup ∧
      returnedIds (unratedRows 2) (unrated 2) = {id | id ∈ sampleIds (unrated 2)} ∧
        (sampleIds (unrated 2)).length = 2 :=
  (@returnedIds_order (unratedRows 2) (unrated 2) (by decide) (by decide)).1 _ (List.Perm.refl _)

theorem nodup_ids_unrated (n : ℕ) : ((unrated n).map (·.id)).Nodup := by
  rw [unrated, List.map_map]
  exact List.nodup_range.map fun _ _ h ↦ Int.ofNat.inj h

theorem id_mem_unratedRows (n : ℕ) : ∀ entry ∈ unrated n, entry.id ∈ (unratedRows n).map (·.id) := by
  intro entry hentry
  obtain ⟨id, hid, rfl⟩ := List.mem_map.mp hentry
  rw [unratedRows, List.map_map]
  exact List.mem_map_of_mem (f := fun id : ℕ ↦ (id : ℤ)) hid

/-- Unrated games tie, so they fit together or not at all. -/
theorem tiesFit_unrated {n : ℕ}
    (h : TopSample.TiesFit itemElo maxSamples ((unrated n).map item)) : n ≤ maxSamples := by
  rcases h with hlength | ⟨cut, hcut⟩
  · simpa [unrated] using hlength
  · have hle := List.length_filter_le (cut ≤ itemElo ·) ((unrated n).map item)
    by_cases hzero : cut ≤ 0
    · have hall : ((unrated n).map item).filter (cut ≤ itemElo ·) = (unrated n).map item := by
        rw [List.filter_eq_self]
        intro a ha
        obtain ⟨entry, hentry, rfl⟩ := List.mem_map.mp ha
        obtain ⟨id, -, rfl⟩ := List.mem_map.mp hentry
        simpa [eloKey] using hzero
      rw [hall] at hcut
      simpa [unrated] using hcut.le
    · have hnone : ((unrated n).map item).filter (cut ≤ itemElo ·) = [] := by
        rw [List.filter_eq_nil_iff]
        intro a ha
        obtain ⟨entry, hentry, rfl⟩ := List.mem_map.mp ha
        obtain ⟨id, -, rfl⟩ := List.mem_map.mp hentry
        simpa [eloKey] using hzero
      rw [hnone] at hcut
      cases hcut

/-- Of 501 games without ratings, which one is left out depends on the order. -/
theorem returnedIds_depend_on_order :
    ¬ ∀ order₁ order₂, order₁.Perm (unrated 501) → order₂.Perm (unrated 501) →
      returnedIds (unratedRows 501) order₁ = returnedIds (unratedRows 501) order₂ := by
  intro h
  have hids := nodup_ids_unrated 501
  have hfit : TopSample.TiesFit itemElo maxSamples ((unrated 501).map item) := by
    rw [← TopSample.sample_perm_iff monotone_itemElo (by decide) (nodup_items hids)]
    intro l₁ l₂ h₁ h₂
    obtain ⟨order₁, horder₁, rfl⟩ := exists_perm_of_perm_map h₁
    obtain ⟨order₂, horder₂, rfl⟩ := exists_perm_of_perm_map h₂
    exact (returnedIds_eq_iff hids horder₁ horder₂ (id_mem_unratedRows 501)).mp
      (h _ _ horder₁ horder₂)
  exact absurd (tiesFit_unrated hfit) (by decide)

end EnCroissant

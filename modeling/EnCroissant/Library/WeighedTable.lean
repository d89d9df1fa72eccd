import EnCroissant.Library.Table

/-!
# Weights and evictions

The weight of a table is the sum of the weights of its entries.  Evictions take
the entries of least rank, as long as a condition holds of what is left.
-/

namespace AList

universe u v w

variable {α : Type u} {β : α → Type v}

/-- The weight of all entries together. -/
def weight (w : ∀ a, β a → ℕ) (table : AList β) : ℕ :=
  (table.entries.map fun entry ↦ w entry.1 entry.2).sum

@[simp] theorem weight_empty (w : ∀ a, β a → ℕ) : (∅ : AList β).weight w = 0 := rfl

theorem weight_of_size {w : ∀ a, β a → ℕ} {table : AList β} (h : table.size = 0) :
    table.weight w = 0 := by
  rw [weight, List.length_eq_zero_iff.mp h, List.map_nil, List.sum_nil]

/-- What passes a test and what fails it make the whole weight. -/
theorem weight_retain (w : ∀ a, β a → ℕ) (keep : ∀ a, β a → Bool) (table : AList β) :
    (table.retain keep).weight w + (table.retain fun a b ↦ !keep a b).weight w =
      table.weight w := by
  simp only [weight, retain]
  induction table.entries with
  | nil => rfl
  | cons entry entries ih =>
      cases hkeep : keep entry.1 entry.2 with
      | true =>
          simp only [List.filter_cons, hkeep, if_true, Bool.not_true, Bool.false_eq_true,
            if_false, List.map_cons, List.sum_cons]
          omega
      | false =>
          simp only [List.filter_cons, hkeep, Bool.not_false, if_true, Bool.false_eq_true,
            if_false, List.map_cons, List.sum_cons]
          omega

variable [DecidableEq α] {w : ∀ a, β a → ℕ} {table : AList β} {a a' : α} {b : β a}

theorem weight_insert (a : α) (b : β a) (table : AList β) :
    (table.insert a b).weight w = w a b + (table.erase a).weight w := by
  rw [weight, entries_insert, List.map_cons, List.sum_cons]
  rfl

theorem erase_insert (a : α) (b : β a) (table : AList β) :
    (table.insert a b).erase a = table.erase a := by
  refine ext ?_
  change List.kerase a (table.insert a b).entries = List.kerase a table.entries
  rw [entries_insert]
  exact List.kerase_cons_eq rfl

theorem weight_erase (h : table.lookup a = some b) :
    (table.erase a).weight w + w a b = table.weight w := by
  obtain ⟨b', front, back, -, hentries, herase⟩ :=
    List.exists_of_kerase (l := table.entries) (mem_of_lookup h)
  have hb : b' = b := by
    have hmem : (⟨a, b'⟩ : Sigma β) ∈ table.entries := by
      rw [hentries]
      exact List.mem_append_right front List.mem_cons_self
    exact Option.some.inj ((mem_lookup_iff.mpr hmem).symm.trans h)
  subst hb
  have hleft : (table.erase a).entries = front ++ back := herase
  rw [weight, weight, hleft, hentries]
  simp only [List.map_append, List.map_cons, List.sum_append, List.sum_cons]
  omega

theorem weight_erase_le (a : α) (table : AList β) :
    (table.erase a).weight w ≤ table.weight w := by
  cases h : table.lookup a with
  | none => rw [erase_of_notMem (lookup_eq_none.mp h)]
  | some b => exact (weight_erase h).le.trans' (Nat.le_add_right _ _)

/-! ## Eviction of the oldest -/

section

variable {ρ : Type w} [LinearOrder ρ]

/-- A way to choose an entry of least rank. -/
structure Oldest (rank : ∀ a, β a → ρ) where
  pick : AList β → Option α
  size_of_none : ∀ {table}, pick table = none → table.size = 0
  least : ∀ {table a}, pick table = some a → ∃ b, table.lookup a = some b ∧
    ∀ a' b', table.lookup a' = some b' → rank a b ≤ rank a' b'

/-- The first of the entries of least rank. -/
def Oldest.first (rank : ∀ a, β a → ρ) : Oldest rank where
  pick := leastKey rank
  size_of_none := leastKey_eq_none
  least := by
    intro table a h
    obtain ⟨entry, hentry, rfl⟩ := Option.map_eq_some_iff.mp h
    refine ⟨entry.2, mem_lookup_iff.mpr (List.argmin_mem hentry), fun a' b' h' ↦ ?_⟩
    exact List.le_of_mem_argmin (mem_lookup_iff.mp h') hentry

variable {rank : ∀ a, β a → ρ} (oldest : Oldest rank) (full : AList β → Bool)

theorem Oldest.size_erase (h : oldest.pick table = some a) :
    (table.erase a).size < table.size := by
  obtain ⟨b, hb, -⟩ := oldest.least h
  rw [← AList.size_erase (mem_of_lookup hb)]
  exact Nat.lt_succ_self _

/-- Evicts the oldest entries until the table is not full. -/
def evictWhile (table : AList β) : AList β :=
  if full table then
    match _h : oldest.pick table with
    | some a => evictWhile (table.erase a)
    | none => table
  else table
termination_by table.size
decreasing_by exact oldest.size_erase ‹_›

theorem evictWhile_of_not (h : full table = false) : evictWhile oldest full table = table := by
  rw [evictWhile, if_neg (by simp [h])]

theorem evictWhile_of_pick (h : full table = true) (hpick : oldest.pick table = some a) :
    evictWhile oldest full table = evictWhile oldest full (table.erase a) := by
  rw [evictWhile, if_pos h]
  split
  next a' hpick' =>
    rw [hpick, Option.some.injEq] at hpick'
    rw [hpick']
  next hnone =>
    rw [hpick] at hnone
    cases hnone

theorem evictWhile_of_none (hpick : oldest.pick table = none) :
    evictWhile oldest full table = table := by
  rw [evictWhile]
  split
  · split
    next hsome =>
      rw [hpick] at hsome
      cases hsome
    next => rfl
  · rfl

/-- After the eviction the table is empty or not full. -/
theorem evictWhile_not_full (table : AList β) :
    full (evictWhile oldest full table) = false ∨ (evictWhile oldest full table).size = 0 := by
  fun_induction evictWhile oldest full table with
  | case1 table _ a _ ih => exact ih
  | case2 table _ hnone => exact Or.inr (oldest.size_of_none hnone)
  | case3 table hfull => exact Or.inl (by simpa using hfull)

theorem lookup_of_evictWhile (h : (evictWhile oldest full table).lookup a = some b) :
    table.lookup a = some b := by
  fun_induction evictWhile oldest full table with
  | case1 table _ a' _ ih => exact (lookup_of_erase (ih h)).2
  | case2 => exact h
  | case3 => exact h

theorem weight_evictWhile_le (table : AList β) :
    (evictWhile oldest full table).weight w ≤ table.weight w := by
  fun_induction evictWhile oldest full table with
  | case1 table _ a _ ih => exact ih.trans (weight_erase_le a table)
  | case2 => exact le_rfl
  | case3 => exact le_rfl

/-- What was evicted is no newer than what was kept. -/
theorem rank_le_of_evictWhile {b' : β a'} (hb : table.lookup a = some b)
    (hevicted : (evictWhile oldest full table).lookup a = none)
    (hkept : (evictWhile oldest full table).lookup a' = some b') :
    rank a b ≤ rank a' b' := by
  fun_induction evictWhile oldest full table with
  | case1 table _ least hpick ih =>
      obtain ⟨c, hc, hleast⟩ := oldest.least hpick
      by_cases heq : a = least
      · subst heq
        rw [hc, Option.some.injEq] at hb
        subst hb
        exact hleast a' b' (lookup_of_erase (lookup_of_evictWhile oldest full hkept)).2
      · exact ih ((lookup_erase_ne heq).trans hb) hevicted hkept
  | case2 =>
      rw [hb] at hevicted
      cases hevicted
  | case3 =>
      rw [hb] at hevicted
      cases hevicted

end

end AList

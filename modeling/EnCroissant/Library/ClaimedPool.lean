import Mathlib

/-!
# Rows that names claim

Rows of classes, each row claimed by at most one name.  A named item takes a row
of its class that nobody has claimed, or else a new one, unless its name has
claimed one before; an unnamed item only makes sure that its class has a row.
What a list of items leaves depends on which items occur in it, not on their
order or number.
-/

universe u v

/-- How many rows each class has and how many of them are claimed, and the names
that have claimed one. -/
@[ext]
structure ClaimedPool (κ : Type u) (ν : Type v) where
  rows : κ → ℕ
  claimed : κ → ℕ
  names : Set ν

namespace ClaimedPool

variable {κ : Type u} {ν : Type v}

/-- One name stands for items of one class. -/
def Consistent (items : List (κ × Option ν)) : Prop :=
  ∀ c c' name, (c, some name) ∈ items → (c', some name) ∈ items → c = c'

/-- The names of a class that have not claimed a row before. -/
def newNames (pool : ClaimedPool κ ν) (items : List (κ × Option ν)) (c : κ) : Set ν :=
  {name | (c, some name) ∈ items ∧ name ∉ pool.names}

variable {pool : ClaimedPool κ ν} {items items' : List (κ × Option ν)} {c : κ} {name : ν}

theorem finite_newNames (pool : ClaimedPool κ ν) (items : List (κ × Option ν)) (c : κ) :
    (pool.newNames items c).Finite := by
  refine Set.Finite.subset (List.finite_toSet (items.filterMap Prod.snd)) ?_
  rintro name ⟨hmem, -⟩
  exact List.mem_filterMap.mpr ⟨_, hmem, rfl⟩

theorem Consistent.of_append (h : Consistent (items ++ items')) : Consistent items :=
  fun c c' name hc hc' ↦ h c c' name (List.mem_append_left _ hc) (List.mem_append_left _ hc')

theorem newNames_concat_none (d : κ) :
    pool.newNames (items ++ [(d, none)]) c = pool.newNames items c := by
  ext name
  simp [newNames]

theorem newNames_concat_of_ne {d : κ} (h : d ≠ c) :
    pool.newNames (items ++ [(d, some name)]) c = pool.newNames items c := by
  ext name'
  simp [newNames, h.symm]

theorem newNames_concat_self (h : name ∉ pool.names) :
    pool.newNames (items ++ [(c, some name)]) c = insert name (pool.newNames items c) := by
  ext name'
  simp only [newNames, List.mem_append, List.mem_singleton, Prod.mk.injEq, Option.some.injEq,
    true_and, Set.mem_ofPred_eq, Set.mem_insert_iff]
  constructor
  · rintro ⟨hmem | rfl, hnew⟩
    · exact .inr ⟨hmem, hnew⟩
    · exact .inl rfl
  · rintro (rfl | ⟨hmem, hnew⟩)
    · exact ⟨.inr rfl, h⟩
    · exact ⟨.inl hmem, hnew⟩

/-! ## Adding items -/

variable [DecidableEq κ]

open Classical in
noncomputable def add (pool : ClaimedPool κ ν) (item : κ × Option ν) : ClaimedPool κ ν :=
  match item with
  | (c, none) => { pool with rows := Function.update pool.rows c (max (pool.rows c) 1) }
  | (c, some name) =>
      if name ∈ pool.names then pool
      else
        { rows := Function.update pool.rows c (max (pool.rows c) (pool.claimed c + 1))
          claimed := Function.update pool.claimed c (pool.claimed c + 1)
          names := insert name pool.names }

theorem names_add_none : (pool.add (c, none)).names = pool.names := rfl

theorem names_add_some : (pool.add (c, some name)).names = insert name pool.names := by
  rw [add]
  split_ifs with h
  · exact (Set.insert_eq_of_mem h).symm
  · rfl

/-- The names that have claimed a row after a list of items. -/
theorem names_foldl (pool : ClaimedPool κ ν) (items : List (κ × Option ν)) :
    (items.foldl add pool).names = pool.names ∪ {name | ∃ c, (c, some name) ∈ items} := by
  induction items using List.reverseRecOn with
  | nil => simp
  | append_singleton items item ih =>
      rw [List.foldl_concat]
      obtain ⟨c, _ | name⟩ := item
      · rw [names_add_none, ih]
        simp
      · rw [names_add_some, ih]
        ext name'
        simp only [Set.mem_insert_iff, Set.mem_union, Set.mem_ofPred_eq, List.mem_append,
          List.mem_singleton, Prod.mk.injEq, Option.some.injEq]
        constructor
        · rintro (rfl | hold | ⟨c', hc'⟩)
          · exact .inr ⟨c, .inr ⟨rfl, rfl⟩⟩
          · exact .inl hold
          · exact .inr ⟨c', .inl hc'⟩
        · rintro (hold | ⟨c', hc' | ⟨-, rfl⟩⟩)
          · exact .inr (.inl hold)
          · exact .inr (.inr ⟨c', hc'⟩)
          · exact .inl rfl

/-- A name that is known already adds nothing. -/
theorem newNames_concat_known (hconsistent : Consistent (items ++ [(c, some name)]))
    (h : name ∈ (items.foldl add pool).names) (d : κ) :
    pool.newNames (items ++ [(c, some name)]) d = pool.newNames items d := by
  rw [names_foldl] at h
  ext name'
  simp only [newNames, List.mem_append, List.mem_singleton, Prod.mk.injEq, Option.some.injEq,
    Set.mem_ofPred_eq, and_congr_left_iff, or_iff_left_iff_imp, and_imp]
  rintro hnew rfl rfl
  obtain hold | ⟨c', hc'⟩ := h
  · exact absurd hold hnew
  · have hsame := hconsistent c' d name' (List.mem_append_left _ hc') (by simp)
    exact hsame ▸ hc'

/-- Every class has as many claimed rows as names have claimed one. -/
theorem claimed_foldl (pool : ClaimedPool κ ν) (hconsistent : Consistent items) (c : κ) :
    (items.foldl add pool).claimed c = pool.claimed c + (pool.newNames items c).ncard := by
  induction items using List.reverseRecOn with
  | nil => simp [newNames]
  | append_singleton items item ih =>
      rw [List.foldl_concat]
      have ih := ih hconsistent.of_append
      obtain ⟨d, _ | name⟩ := item
      · rw [newNames_concat_none, ← ih]
        rfl
      · by_cases hknown : name ∈ (items.foldl add pool).names
        · rw [add, if_pos hknown, newNames_concat_known hconsistent hknown, ih]
        · rw [add, if_neg hknown]
          rw [names_foldl, Set.mem_union, not_or] at hknown
          by_cases hd : d = c
          · subst hd
            have hfresh : name ∉ pool.newNames items d := fun h ↦ hknown.2 ⟨d, h.1⟩
            rw [newNames_concat_self hknown.1,
              Set.ncard_insert_of_notMem hfresh (finite_newNames pool items d)]
            simp only [Function.update_self]
            omega
          · rw [newNames_concat_of_ne hd, ← ih]
            exact Function.update_of_ne (Ne.symm hd) _ _

open Classical in
/-- Every class has the rows it had, one for each name that claims one, and one if
there was an unnamed item. -/
theorem rows_foldl (pool : ClaimedPool κ ν) (hle : ∀ c, pool.claimed c ≤ pool.rows c)
    (items : List (κ × Option ν)) (c : κ) :
    (items.foldl add pool).rows c =
      max (max (pool.rows c) ((items.foldl add pool).claimed c))
        (if (c, none) ∈ items then 1 else 0) := by
  induction items using List.reverseRecOn with
  | nil => simp [hle c]
  | append_singleton items item ih =>
      rw [List.foldl_concat]
      set before := items.foldl add pool
      obtain ⟨d, _ | name⟩ := item
      · have hclaimed : (before.add (d, none)).claimed = before.claimed := rfl
        have hadd : (before.add (d, none)).rows =
          Function.update before.rows d (max (before.rows d) 1) := rfl
        rw [hadd, hclaimed]
        by_cases hd : d = c
        · subst hd
          rw [Function.update_self, ih, if_pos (List.mem_append_right _ List.mem_cons_self)]
          split_ifs <;> omega
        · rw [Function.update_of_ne (Ne.symm hd), ih]
          simp only [List.mem_append, List.mem_singleton, Prod.mk.injEq, and_true, Ne.symm hd,
            or_false]
      · simp only [List.mem_append, List.mem_singleton, Prod.mk.injEq, reduceCtorEq, and_false,
          or_false]
        by_cases hknown : name ∈ before.names
        · rw [add, if_pos hknown]
          exact ih
        · rw [add, if_neg hknown]
          by_cases hd : d = c
          · subst hd
            simp only [Function.update_self]
            rw [ih]
            omega
          · simp only [Function.update_of_ne (Ne.symm hd)]
            exact ih

/-- Lists with the same items leave the same pool. -/
theorem foldl_eq_of_mem_iff (pool : ClaimedPool κ ν) (hle : ∀ c, pool.claimed c ≤ pool.rows c)
    (hconsistent : Consistent items) (h : ∀ item, item ∈ items ↔ item ∈ items') :
    items.foldl add pool = items'.foldl add pool := by
  have hconsistent' : Consistent items' := fun c c' name hc hc' ↦
    hconsistent c c' name ((h _).mpr hc) ((h _).mpr hc')
  have hclaimed : (items.foldl add pool).claimed = (items'.foldl add pool).claimed := by
    funext c
    have hnew : pool.newNames items c = pool.newNames items' c := by
      ext name
      simp only [newNames, h]
    rw [claimed_foldl pool hconsistent, claimed_foldl pool hconsistent', hnew]
  have hrows : (items.foldl add pool).rows = (items'.foldl add pool).rows := by
    classical
    funext c
    rw [rows_foldl pool hle, rows_foldl pool hle, hclaimed, if_congr (h _) rfl rfl]
  ext1
  · exact hrows
  · exact hclaimed
  · rw [names_foldl, names_foldl]
    simp only [h]

end ClaimedPool

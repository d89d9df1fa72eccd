import Mathlib.Data.List.Basic

/-!
# Cutting a sequence into batches

A writer collects elements as long as they fit and then closes the batch.  An
element that fits nowhere gets a batch of its own.
-/

namespace Batches

variable {α : Type*} (fits : List α → α → Prop)

/-- How a batch may be grown, element by element. -/
inductive Grown : List α → Prop where
  | single (a : α) : Grown [a]
  | push {batch : List α} {a : α} (h : Grown batch) (hfits : fits batch a) : Grown (batch ++ [a])

theorem Grown.ne_nil {fits : List α → α → Prop} {batch : List α} (h : Grown fits batch) :
    batch ≠ [] := by
  cases h with
  | single a => exact List.cons_ne_nil a []
  | push h hfits => exact List.append_ne_nil_of_right_ne_nil _ (List.cons_ne_nil _ [])

/-- What fitting elements keep, a batch has if an element alone has it. -/
theorem Grown.induct {fits : List α → α → Prop} {P : List α → Prop} {batch : List α}
    (h : Grown fits batch) (hsingle : ∀ a, P [a])
    (hpush : ∀ {batch a}, batch ≠ [] → P batch → fits batch a → P (batch ++ [a])) :
    P batch := by
  induction h with
  | single a => exact hsingle a
  | push h hfits ih => exact hpush h.ne_nil ih hfits

variable [∀ batch a, Decidable (fits batch a)]

/-- The batches of a sequence whose first batch was begun. -/
def batchesFrom : List α → List α → List (List α)
  | begun, [] => if begun = [] then [] else [begun]
  | begun, a :: as =>
      if begun ≠ [] ∧ ¬fits begun a then begun :: batchesFrom [a] as
      else batchesFrom (begun ++ [a]) as

def batches (as : List α) : List (List α) := batchesFrom fits [] as

variable {fits}

theorem flatten_batchesFrom (begun as : List α) :
    (batchesFrom fits begun as).flatten = begun ++ as := by
  induction as generalizing begun with
  | nil =>
      rw [batchesFrom]
      split_ifs with hnil
      · rw [hnil, List.flatten_nil, List.append_nil]
      · rw [List.flatten_singleton, List.append_nil]
  | cons a as ih =>
      rw [batchesFrom]
      split_ifs
      · rw [List.flatten_cons, ih, List.singleton_append]
      · rw [ih, List.append_assoc, List.singleton_append]

/-- The batches hold the sequence in its order. -/
theorem flatten_batches (as : List α) : (batches fits as).flatten = as := by
  rw [batches, flatten_batchesFrom, List.nil_append]

theorem grown_of_mem_batchesFrom {begun as batch : List α} (hbegun : begun = [] ∨ Grown fits begun)
    (h : batch ∈ batchesFrom fits begun as) : Grown fits batch := by
  induction as generalizing begun with
  | nil =>
      rw [batchesFrom] at h
      split_ifs at h with hnil
      · cases h
      · rw [List.mem_singleton.mp h]
        exact hbegun.resolve_left hnil
  | cons a as ih =>
      rw [batchesFrom] at h
      split_ifs at h with hclose
      · rcases List.mem_cons.mp h with rfl | h
        · exact hbegun.resolve_left hclose.1
        · exact ih (Or.inr (.single a)) h
      · refine ih (Or.inr ?_) h
        rcases hbegun with rfl | hbegun
        · exact .single a
        · exact hbegun.push (not_not.mp fun hnot ↦ hclose ⟨hbegun.ne_nil, hnot⟩)

theorem grown_of_mem_batches {as batch : List α} (h : batch ∈ batches fits as) :
    Grown fits batch :=
  grown_of_mem_batchesFrom (Or.inl rfl) h

/-- A batch is a piece of the sequence. -/
theorem infix_of_mem_batches {as batch : List α} (h : batch ∈ batches fits as) :
    batch <:+: as := by
  obtain ⟨front, back, hsplit⟩ := List.append_of_mem h
  have hflatten := congrArg List.flatten hsplit
  rw [flatten_batches, List.flatten_append, List.flatten_cons] at hflatten
  exact ⟨front.flatten, back.flatten, by rw [hflatten, List.append_assoc]⟩

end Batches

import Mathlib

/-!
# Tallies

How often each value occurs in a list, kept as a table that is updated one
occurrence at a time.
-/

abbrev Tally (α : Type*) := AList fun _ : α ↦ ℕ

namespace Tally

variable {α : Type*} [DecidableEq α]

def add (t : Tally α) (a : α) : Tally α := t.insert a ((t.lookup a).getD 0 + 1)

def of (as : List α) : Tally α := as.foldl add ∅

theorem of_concat (as : List α) (a : α) : of (as ++ [a]) = (of as).add a := by
  simp only [of, List.foldl_append, List.foldl_cons, List.foldl_nil]

theorem of_singleton (a : α) : of [a] = (∅ : Tally α).insert a 1 := by
  simp only [of, List.foldl_cons, List.foldl_nil, add, AList.lookup_empty, Option.getD_none,
    zero_add]

theorem lookup_of (as : List α) (a : α) :
    (of as).lookup a = if as.count a = 0 then none else some (as.count a) := by
  induction as using List.reverseRecOn with
  | nil => simp [of]
  | append_singleton as b ih =>
      rw [of_concat, add]
      by_cases h : a = b
      · subst h
        rw [AList.lookup_insert, ih]
        by_cases hzero : as.count a = 0 <;> simp [hzero]
      · rw [AList.lookup_insert_ne h, ih]
        simp [Ne.symm h]

theorem getD_lookup_of (as : List α) (a : α) : ((of as).lookup a).getD 0 = as.count a := by
  rw [lookup_of]
  by_cases h : as.count a = 0 <;> simp [h]

/-- A table entry reaches a positive bound when the count does. -/
theorem filter_lookup_of (as : List α) (a : α) {bound : ℕ} (hbound : 0 < bound) :
    ((of as).lookup a).filter (bound ≤ ·) = none ↔ as.count a < bound := by
  rw [lookup_of]
  by_cases h : as.count a = 0
  · simp [h, hbound]
  · simp [h, Option.filter]

end Tally

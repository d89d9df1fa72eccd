import Mathlib

/-!
# Walks along a list

A function that goes from every element of a list to the next one and stays at
the last.  Its iterates are the elements in their order, and from the end of
the list on they are constant.
-/

variable {α : Type*}

/-- `f` goes along the list and stays at its end. -/
def Walks (f : α → α) : List α → Prop
  | [] => True
  | [a] => f a = a
  | a :: b :: as => f a = b ∧ Walks f (b :: as)

namespace Walks

variable {f : α → α} {a : α} {as : List α}

theorem iterate_eq (h : Walks f (a :: as)) (n : ℕ) :
    f^[n] a = (a :: as)[n]?.getD ((a :: as).getLast (List.cons_ne_nil a as)) := by
  induction n generalizing a as with
  | zero => rfl
  | succ n ih =>
      rw [Function.iterate_succ_apply, List.getElem?_cons_succ]
      cases as with
      | nil =>
          have hstays : f a = a := h
          have hiter := ih h
          rw [hstays, hiter, List.getElem?_nil, Option.getD_none]
          cases n with
          | zero => rfl
          | succ n => rw [List.getElem?_cons_succ, List.getElem?_nil, Option.getD_none]
      | cons b as =>
          rw [h.1, ih h.2, List.getLast_cons (List.cons_ne_nil b as)]

theorem iterate_of_getElem? (h : Walks f (a :: as)) {n : ℕ} {b : α}
    (hb : (a :: as)[n]? = some b) :
    f^[n] a = b := by
  rw [h.iterate_eq, hb, Option.getD_some]

/-- From the end of the list on nothing changes. -/
theorem iterate_of_length_le (h : Walks f (a :: as)) {n : ℕ} (hn : as.length ≤ n) :
    f^[n] a = f^[as.length] a := by
  have hlast : (a :: as)[as.length]? =
      some ((a :: as).getLast (List.cons_ne_nil a as)) := by
    rw [List.getLast_eq_getElem, List.getElem?_eq_getElem]
    rfl
  rw [h.iterate_of_getElem? hlast]
  rcases hn.eq_or_lt with rfl | hlt
  · exact h.iterate_of_getElem? hlast
  · rw [h.iterate_eq, List.getElem?_eq_none, Option.getD_none]
    rw [List.length_cons]
    omega

theorem exists_iterate_eq (h : Walks f (a :: as)) {b : α} (hb : b ∈ a :: as) :
    ∃ n ≤ as.length, f^[n] a = b := by
  obtain ⟨n, hn⟩ := List.mem_iff_getElem?.mp hb
  obtain ⟨hlt, -⟩ := List.getElem?_eq_some_iff.mp hn
  rw [List.length_cons] at hlt
  exact ⟨n, by omega, h.iterate_of_getElem? hn⟩

/-- Until the end of the list no element comes twice if the list has none
twice. -/
theorem iterate_injective (h : Walks f (a :: as)) (hnodup : (a :: as).Nodup) {m n : ℕ}
    (hm : m ≤ as.length) (hn : n ≤ as.length) (heq : f^[m] a = f^[n] a) :
    m = n := by
  have hm' : m < (a :: as).length := Nat.lt_succ_of_le hm
  have hn' : n < (a :: as).length := Nat.lt_succ_of_le hn
  rw [h.iterate_of_getElem? (List.getElem?_eq_getElem hm'),
    h.iterate_of_getElem? (List.getElem?_eq_getElem hn')] at heq
  exact (hnodup.getElem_inj_iff).mp heq

end Walks

import Mathlib

/-!
# The first and the last element of each key

Walking through a list, the first element of each key is kept, or the last one.
-/

namespace Firsts

variable {α κ : Type*} [DecidableEq κ] (key : α → κ)

/-- The first elements of keys that are not seen before. -/
def firstsFrom (seen : List κ) : List α → List α
  | [] => []
  | a :: as => if key a ∈ seen then firstsFrom seen as else a :: firstsFrom (key a :: seen) as

/-- The last element of each key. -/
def lasts : List α → List α
  | [] => []
  | a :: as => if key a ∈ as.map key then lasts as else a :: lasts as

variable {key} {seen : List κ} {as : List α} {a : α} {k : κ}

theorem firstsFrom_sublist (seen : List κ) (as : List α) : (firstsFrom key seen as).Sublist as := by
  induction as generalizing seen with
  | nil => exact List.Sublist.refl _
  | cons a as ih =>
      rw [firstsFrom]
      split_ifs
      · exact (ih seen).cons a
      · exact (ih _).cons_cons a

theorem mem_keys_firstsFrom :
    k ∈ (firstsFrom key seen as).map key ↔ k ∈ as.map key ∧ k ∉ seen := by
  induction as generalizing seen with
  | nil => simp [firstsFrom]
  | cons a as ih =>
      rw [firstsFrom]
      by_cases ha : key a ∈ seen
      · rw [if_pos ha, ih, List.map_cons, List.mem_cons]
        constructor
        · exact fun h ↦ ⟨Or.inr h.1, h.2⟩
        · rintro ⟨rfl | h, hseen⟩
          · exact absurd ha hseen
          · exact ⟨h, hseen⟩
      · rw [if_neg ha, List.map_cons, List.map_cons, List.mem_cons, List.mem_cons, ih,
          List.mem_cons]
        constructor
        · rintro (rfl | ⟨h, hseen⟩)
          · exact ⟨Or.inl rfl, ha⟩
          · exact ⟨Or.inr h, fun hmem ↦ hseen (Or.inr hmem)⟩
        · rintro ⟨rfl | h, hseen⟩
          · exact Or.inl rfl
          · by_cases hk : k = key a
            · exact Or.inl hk
            · exact Or.inr ⟨h, not_or_intro hk hseen⟩

theorem nodup_keys_firstsFrom (seen : List κ) (as : List α) :
    ((firstsFrom key seen as).map key).Nodup := by
  induction as generalizing seen with
  | nil => exact List.nodup_nil
  | cons a as ih =>
      rw [firstsFrom]
      split_ifs
      · exact ih seen
      · rw [List.map_cons, List.nodup_cons, mem_keys_firstsFrom]
        exact ⟨fun h ↦ h.2 List.mem_cons_self, ih _⟩

theorem firstsFrom_of_nodup (h : (as.map key).Nodup) (hseen : ∀ a ∈ as, key a ∉ seen) :
    firstsFrom key seen as = as := by
  induction as generalizing seen with
  | nil => rfl
  | cons a as ih =>
      rw [List.map_cons, List.nodup_cons] at h
      rw [firstsFrom, if_neg (hseen a List.mem_cons_self), ih h.2]
      intro b hb hmem
      rcases List.mem_cons.mp hmem with heq | hmem
      · exact h.1 (heq ▸ List.mem_map_of_mem hb)
      · exact hseen b (List.mem_cons_of_mem _ hb) hmem

/-- What is kept is the first element of its key. -/
theorem find?_of_mem_firstsFrom (h : a ∈ firstsFrom key seen as) :
    as.find? (fun b ↦ key b = key a) = some a := by
  induction as generalizing seen with
  | nil => cases h
  | cons b as ih =>
      have hseen : key a ∉ seen := (mem_keys_firstsFrom.mp (List.mem_map_of_mem h)).2
      rw [firstsFrom] at h
      by_cases hb : key b ∈ seen
      · rw [if_pos hb] at h
        have hne : key b ≠ key a := fun heq ↦ hseen (heq ▸ hb)
        rw [List.find?_cons_of_neg (by simpa using hne)]
        exact ih h
      · rw [if_neg hb] at h
        rcases List.mem_cons.mp h with rfl | h
        · rw [List.find?_cons_of_pos (by simp)]
        · have hlater := (mem_keys_firstsFrom.mp (List.mem_map_of_mem h)).2
          have hne : key b ≠ key a := fun heq ↦ hlater (heq ▸ List.mem_cons_self)
          rw [List.find?_cons_of_neg (by simpa using hne)]
          exact ih h

theorem lasts_sublist (as : List α) : (lasts key as).Sublist as := by
  induction as with
  | nil => exact List.Sublist.refl _
  | cons a as ih =>
      rw [lasts]
      split_ifs
      · exact ih.cons a
      · exact ih.cons_cons a

theorem mem_keys_lasts : k ∈ (lasts key as).map key ↔ k ∈ as.map key := by
  induction as with
  | nil => rfl
  | cons a as ih =>
      rw [lasts]
      by_cases ha : key a ∈ as.map key
      · rw [if_pos ha, ih, List.map_cons, List.mem_cons]
        constructor
        · exact Or.inr
        · rintro (rfl | h)
          · exact ha
          · exact h
      · rw [if_neg ha, List.map_cons, List.mem_cons, ih, List.map_cons, List.mem_cons]

theorem nodup_keys_lasts (as : List α) : ((lasts key as).map key).Nodup := by
  induction as with
  | nil => exact List.nodup_nil
  | cons a as ih =>
      rw [lasts]
      split_ifs with ha
      · exact ih
      · rw [List.map_cons, List.nodup_cons, mem_keys_lasts]
        exact ⟨ha, ih⟩

/-- Where no key comes twice every element is the last of its key. -/
theorem lasts_of_nodup (h : (as.map key).Nodup) : lasts key as = as := by
  induction as with
  | nil => rfl
  | cons a as ih =>
      rw [List.map_cons, List.nodup_cons] at h
      rw [lasts, if_neg h.1, ih h.2]

/-- What is kept is the last element of its key. -/
theorem find?_reverse_of_mem_lasts (h : a ∈ lasts key as) :
    as.reverse.find? (fun b ↦ key b = key a) = some a := by
  induction as with
  | nil => cases h
  | cons b as ih =>
      rw [List.reverse_cons, List.find?_append]
      rw [lasts] at h
      by_cases hb : key b ∈ as.map key
      · rw [if_pos hb] at h
        rw [ih h, Option.some_or]
      · rw [if_neg hb] at h
        rcases List.mem_cons.mp h with rfl | h
        · have hnone : as.reverse.find? (fun b ↦ key b = key a) = none := by
            rw [List.find?_eq_none]
            intro c hc
            have hne : key c ≠ key a := fun heq ↦
              hb (heq ▸ List.mem_map_of_mem (List.mem_reverse.mp hc))
            simpa using hne
          rw [hnone, Option.none_or, List.find?_cons_of_pos (by simp)]
        · rw [ih h, Option.some_or]

omit [DecidableEq κ] in
/-- Of two rows without repetition each has as many elements of the other. -/
theorem countP_mem_comm {xs ys : List κ} (hx : xs.Nodup) (hy : ys.Nodup) {p q : κ → Bool}
    (hp : ∀ k, p k = true ↔ k ∈ ys) (hq : ∀ k, q k = true ↔ k ∈ xs) :
    xs.countP p = ys.countP q := by
  rw [List.countP_eq_length_filter, List.countP_eq_length_filter]
  apply List.Perm.length_eq
  rw [List.perm_ext_iff_of_nodup (hx.filter _) (hy.filter _)]
  intro k
  rw [List.mem_filter, List.mem_filter, hp, hq]
  exact and_comm

end Firsts

import Mathlib

/-!
# Lines

A list is cut behind every occurrence of a newline element.  Cutting and
joining are inverse to each other on rows of lines.
-/

namespace Lines

variable {α : Type*} (nl : α)

/-- A line that ends with its only newline. -/
def Complete (l : List α) : Prop :=
  ∃ body, nl ∉ body ∧ l = body ++ [nl]

/-- A nonempty line without a newline. -/
def Unfinished (l : List α) : Prop :=
  l ≠ [] ∧ nl ∉ l

/-- A row of lines of which only the last may be unfinished. -/
def Row : List (List α) → Prop
  | [] => True
  | l :: ls => (Complete nl l ∨ Unfinished nl l ∧ ls = []) ∧ Row ls

variable {nl}

theorem Complete.ne_nil {l : List α} (h : Complete nl l) : l ≠ [] := by
  obtain ⟨body, -, rfl⟩ := h
  simp

theorem Complete.getLast? {l : List α} (h : Complete nl l) : l.getLast? = some nl := by
  obtain ⟨body, -, rfl⟩ := h
  simp

theorem Complete.cons {a : α} {l : List α} (ha : a ≠ nl) (h : Complete nl l) :
    Complete nl (a :: l) := by
  obtain ⟨body, hbody, rfl⟩ := h
  exact ⟨a :: body, by simpa [Ne.symm ha] using hbody, rfl⟩

theorem Complete.of_append {as bs : List α} (h : Complete nl (as ++ bs)) (hne : bs ≠ []) :
    Complete nl bs := by
  obtain ⟨body, hbody, heq⟩ := h
  obtain ⟨init, last, rfl⟩ := (List.eq_nil_or_concat' bs).resolve_left hne
  rw [← List.append_assoc] at heq
  obtain ⟨rfl, hlast⟩ := List.append_inj' heq rfl
  obtain rfl := List.singleton_inj.mp hlast
  exact ⟨init, fun hmem ↦ hbody (List.mem_append_right _ hmem), rfl⟩

theorem Unfinished.append_newline {l : List α} (h : Unfinished nl l) :
    Complete nl (l ++ [nl]) :=
  ⟨l, h.2, rfl⟩

theorem Unfinished.getLast?_ne {l : List α} (h : Unfinished nl l) : l.getLast? ≠ some nl :=
  fun hlast ↦ h.2 (List.mem_of_getLast? hlast)

theorem row_append {ls ls' : List (List α)} (h : ∀ l ∈ ls, Complete nl l) (h' : Row nl ls') :
    Row nl (ls ++ ls') := by
  induction ls with
  | nil => exact h'
  | cons l ls ih =>
      exact ⟨Or.inl (h l (List.mem_cons_self ..)),
        ih fun l' hl' ↦ h l' (List.mem_cons_of_mem _ hl')⟩

theorem row_of_complete {ls : List (List α)} (h : ∀ l ∈ ls, Complete nl l) : Row nl ls := by
  have := @row_append _ _ _ [] h trivial
  rwa [List.append_nil] at this

theorem Row.right {ls ls' : List (List α)} (h : Row nl (ls ++ ls')) : Row nl ls' := by
  induction ls with
  | nil => exact h
  | cons l ls ih => exact ih h.2

theorem Row.left {ls ls' : List (List α)} (h : Row nl (ls ++ ls')) : Row nl ls := by
  induction ls with
  | nil => trivial
  | cons l ls ih =>
      refine ⟨h.1.imp_right fun hl ↦ ⟨hl.1, ?_⟩, ih h.2⟩
      exact (List.append_eq_nil_iff.mp hl.2).1

/-- In front of further lines, every line is complete. -/
theorem Row.complete {ls ls' : List (List α)} (h : Row nl (ls ++ ls')) (hne : ls' ≠ []) :
    ∀ l ∈ ls, Complete nl l := by
  induction ls with
  | nil => simp
  | cons l ls ih =>
      intro l' hl'
      rcases List.mem_cons.mp hl' with rfl | hl'
      · rcases h.1 with hl | ⟨-, hnil⟩
        · exact hl
        · exact absurd (List.append_eq_nil_iff.mp hnil).2 hne
      · exact ih h.2 l' hl'

theorem Row.ne_nil {ls : List (List α)} (h : Row nl ls) : ∀ l ∈ ls, l ≠ [] := by
  induction ls with
  | nil => simp
  | cons l ls ih =>
      intro l' hl'
      rcases List.mem_cons.mp hl' with rfl | hl'
      · exact h.1.elim Complete.ne_nil fun hl ↦ hl.1.1
      · exact ih h.2 l' hl'

/-- A row keeps its shape without the front of its first line. -/
theorem Row.of_append {as l : List α} {ls : List (List α)} (h : Row nl ((as ++ l) :: ls))
    (hne : l ≠ []) :
    Row nl (l :: ls) := by
  refine ⟨?_, h.2⟩
  rcases h.1 with hl | ⟨hl, hnil⟩
  · exact Or.inl (hl.of_append hne)
  · exact Or.inr ⟨⟨hne, fun hmem ↦ hl.2 (List.mem_append_right _ hmem)⟩, hnil⟩

/-! ## Cutting -/

variable [DecidableEq α]

variable (nl) in
/-- The lines of a list, each with its newline. -/
def split : List α → List (List α)
  | [] => []
  | a :: as =>
      if a = nl then [a] :: split as
      else
        match split as with
        | [] => [[a]]
        | l :: ls => (a :: l) :: ls

@[simp] theorem split_nil : split nl [] = [] := rfl

theorem split_complete_append {l : List α} (h : Complete nl l) (as : List α) :
    split nl (l ++ as) = l :: split nl as := by
  obtain ⟨body, hbody, rfl⟩ := h
  induction body with
  | nil => simp [split]
  | cons a body ih =>
      have ha : a ≠ nl := fun heq ↦ hbody (heq ▸ List.mem_cons_self ..)
      have htail := ih fun hmem ↦ hbody (List.mem_cons_of_mem _ hmem)
      simp only [List.cons_append] at htail ⊢
      rw [split, if_neg ha, htail]

theorem split_unfinished {l : List α} (h : Unfinished nl l) : split nl l = [l] := by
  obtain ⟨hne, hnl⟩ := h
  induction l with
  | nil => exact absurd rfl hne
  | cons a l ih =>
      have ha : a ≠ nl := fun heq ↦ hnl (heq ▸ List.mem_cons_self ..)
      rw [split, if_neg ha]
      cases l with
      | nil => rfl
      | cons b l =>
          rw [ih (List.cons_ne_nil _ _) fun hmem ↦ hnl (List.mem_cons_of_mem _ hmem)]

/-- Cutting a joined row gives the row back. -/
theorem split_flatten {ls : List (List α)} (h : Row nl ls) : split nl ls.flatten = ls := by
  induction ls with
  | nil => rfl
  | cons l ls ih =>
      rcases h.1 with hl | ⟨hl, rfl⟩
      · rw [List.flatten_cons, split_complete_append hl, ih h.2]
      · simpa using split_unfinished hl

theorem flatten_split (as : List α) : (split nl as).flatten = as := by
  induction as with
  | nil => rfl
  | cons a as ih =>
      rw [split]
      split_ifs
      · simp [ih]
      · cases hs : split nl as with
        | nil =>
            rw [hs] at ih
            simp [← ih]
        | cons l ls =>
            rw [hs] at ih
            simp [← ih]

theorem row_split (as : List α) : Row nl (split nl as) := by
  induction as with
  | nil => trivial
  | cons a as ih =>
      rw [split]
      split_ifs with ha
      · exact ⟨Or.inl ⟨[], by simp, by simp [ha]⟩, ih⟩
      · cases hs : split nl as with
        | nil => exact ⟨Or.inr ⟨⟨by simp, by simpa using Ne.symm ha⟩, rfl⟩, trivial⟩
        | cons l ls =>
            rw [hs] at ih
            refine ⟨?_, ih.2⟩
            rcases ih.1 with hl | ⟨⟨-, hl⟩, rfl⟩
            · exact Or.inl (hl.cons ha)
            · exact Or.inr ⟨⟨by simp, by simpa [Ne.symm ha] using hl⟩, rfl⟩

/-! ## The newline at the end -/

variable (nl) in
/-- What is missing for a list to end with a newline, unless it is empty. -/
def ending (as : List α) : List α :=
  match as.getLast? with
  | none => []
  | some a => if a = nl then [] else [nl]

variable (nl) in
/-- The row with its last line finished. -/
def finish : List (List α) → List (List α)
  | [] => []
  | [l] => [l ++ ending nl l]
  | l :: l' :: ls => l :: finish (l' :: ls)

theorem Complete.ending_eq {l : List α} (h : Complete nl l) : ending nl l = [] := by
  simp [ending, h.getLast?]

theorem Unfinished.ending_eq {l : List α} (h : Unfinished nl l) : ending nl l = [nl] := by
  cases hlast : l.getLast? with
  | none => exact absurd (List.getLast?_eq_none_iff.mp hlast) h.1
  | some a =>
      have ha : a ≠ nl := fun heq ↦ h.getLast?_ne (heq ▸ hlast)
      simp [ending, hlast, ha]

theorem complete_append_ending {l : List α} (h : Complete nl l ∨ Unfinished nl l) :
    Complete nl (l ++ ending nl l) := by
  rcases h with h | h
  · rwa [h.ending_eq, List.append_nil]
  · rw [h.ending_eq]
    exact h.append_newline

theorem complete_finish {ls : List (List α)} (h : Row nl ls) :
    ∀ l ∈ finish nl ls, Complete nl l := by
  induction ls with
  | nil => simp [finish]
  | cons l ls ih =>
      cases ls with
      | nil =>
          intro l' hl'
          obtain rfl : l' = l ++ ending nl l := by simpa [finish] using hl'
          exact complete_append_ending (h.1.imp_right And.left)
      | cons l' ls =>
          intro k hk
          rcases List.mem_cons.mp hk with rfl | hk
          · exact h.1.resolve_right fun hl ↦ List.cons_ne_nil _ _ hl.2
          · exact ih h.2 k hk

theorem ending_append {as bs : List α} (h : bs ≠ []) :
    ending nl (as ++ bs) = ending nl bs := by
  rw [ending, ending, List.getLast?_append_of_ne_nil _ h]

theorem flatten_finish {ls : List (List α)} (h : Row nl ls) :
    (finish nl ls).flatten = ls.flatten ++ ending nl ls.flatten := by
  induction ls with
  | nil => rfl
  | cons l ls ih =>
      cases ls with
      | nil => simp [finish]
      | cons l' ls =>
          have hne : (l' :: ls).flatten ≠ [] := by
            intro hnil
            exact h.2.ne_nil l' (List.mem_cons_self ..)
              (List.flatten_eq_nil_iff.mp hnil l' (List.mem_cons_self ..))
          rw [finish, List.flatten_cons, ih h.2, @List.flatten_cons _ l,
            ending_append hne, List.append_assoc]

/-! ## The first line -/

variable (nl) in
/-- The length of the first line, with its newline. -/
def firstLength (as : List α) : ℕ :=
  (as.findIdx? (· == nl)).elim as.length (· + 1)

theorem findIdx?_of_notMem {as : List α} (h : nl ∉ as) : as.findIdx? (· == nl) = none := by
  rw [List.findIdx?_eq_none_iff]
  intro a ha
  rw [beq_eq_false_iff_ne]
  rintro rfl
  exact h ha

theorem firstLength_of_notMem {as : List α} (h : nl ∉ as) : firstLength nl as = as.length := by
  rw [firstLength, findIdx?_of_notMem h, Option.elim_none]

theorem firstLength_le {as : List α} : firstLength nl as ≤ as.length := by
  rw [firstLength]
  cases hindex : as.findIdx? (· == nl) with
  | none => exact le_rfl
  | some i => exact Nat.succ_le_of_lt (List.findIdx?_eq_some_iff_getElem.mp hindex).1

theorem firstLength_cons_self (as : List α) : firstLength nl (nl :: as) = 1 := by
  simp [firstLength, List.findIdx?_cons]

theorem firstLength_append {as : List α} (h : nl ∉ as) (bs : List α) :
    firstLength nl (as ++ bs) = as.length + firstLength nl bs := by
  rw [firstLength, List.findIdx?_append, findIdx?_of_notMem h, Option.none_or, firstLength]
  cases bs.findIdx? (· == nl) with
  | none => simp
  | some i =>
      simp only [Option.map_some, Option.elim_some]
      omega

theorem drop_firstLength_append {as : List α} (h : nl ∉ as) (bs : List α) :
    (as ++ bs).drop (firstLength nl (as ++ bs)) = bs.drop (firstLength nl bs) := by
  rw [firstLength_append h, List.drop_append, List.drop_eq_nil_of_le (Nat.le_add_right _ _),
    List.nil_append, Nat.add_sub_cancel_left]

/-- The first line, and the lines behind it. -/
theorem split_eq_cons {as : List α} (h : as ≠ []) :
    split nl as = as.take (firstLength nl as) :: split nl (as.drop (firstLength nl as)) := by
  by_cases hmem : nl ∈ as
  · obtain ⟨body, rest, rfl, hbody⟩ := List.eq_append_cons_of_mem hmem
    have hcomplete : Complete nl (body ++ [nl]) := ⟨body, hbody, rfl⟩
    have hlength : firstLength nl (body ++ nl :: rest) = (body ++ [nl]).length := by
      rw [firstLength_append hbody, firstLength_cons_self, List.length_append, List.length_singleton]
    have happend : body ++ nl :: rest = (body ++ [nl]) ++ rest := by simp
    rw [hlength, happend, List.take_left, List.drop_left, split_complete_append hcomplete]
  · rw [firstLength_of_notMem hmem, List.take_length, List.drop_length, split_nil,
      split_unfinished ⟨h, hmem⟩]

end Lines

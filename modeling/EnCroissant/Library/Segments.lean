import Mathlib

/-!
# Segments cut out by an automaton

An automaton reads a list and marks some of its elements as the start of a
segment.  Every list is a quiet prefix followed by the segments, and this
decomposition can be edited segment by segment.
-/

/-- A transition function together with a mark for the elements that start a
segment. -/
structure Splitter (σ α : Type*) where
  step : σ → α → σ
  starts : σ → α → Bool

namespace Splitter

variable {σ α : Type*} (A : Splitter σ α)

def run (s : σ) (xs : List α) : σ :=
  xs.foldl A.step s

/-- No element starts a segment. -/
def Quiet : σ → List α → Prop
  | _, [] => True
  | s, x :: xs => A.starts s x = false ∧ Quiet (A.step s x) xs

/-- The first element, and no other, starts a segment. -/
def Segment (s : σ) : List α → Prop
  | [] => False
  | x :: xs => A.starts s x = true ∧ A.Quiet (A.step s x) xs

def Segments : σ → List (List α) → Prop
  | _, [] => True
  | s, b :: bs => A.Segment s b ∧ Segments (A.run s b) bs

variable {A}

@[simp] theorem run_nil (s : σ) : A.run s [] = s := rfl

@[simp] theorem run_cons (s : σ) (x : α) (xs : List α) :
    A.run s (x :: xs) = A.run (A.step s x) xs := rfl

theorem run_append (s : σ) (xs ys : List α) :
    A.run s (xs ++ ys) = A.run (A.run s xs) ys :=
  List.foldl_append

theorem Segment.ne_nil {s : σ} {b : List α} (h : A.Segment s b) : b ≠ [] := by
  rintro rfl
  exact h

theorem quiet_append {s : σ} {xs ys : List α} :
    A.Quiet s (xs ++ ys) ↔ A.Quiet s xs ∧ A.Quiet (A.run s xs) ys := by
  induction xs generalizing s with
  | nil => simp [Quiet]
  | cons x xs ih => simp only [List.cons_append, Quiet, run_cons, ih, and_assoc]

theorem segment_append {s : σ} {xs ys : List α} (h : A.Segment s xs)
    (h' : A.Quiet (A.run s xs) ys) :
    A.Segment s (xs ++ ys) := by
  cases xs with
  | nil => exact h.elim
  | cons x xs => exact ⟨h.1, quiet_append.mpr ⟨h.2, h'⟩⟩

theorem segments_append {s : σ} {bs bs' : List (List α)} :
    A.Segments s (bs ++ bs') ↔ A.Segments s bs ∧ A.Segments (A.run s bs.flatten) bs' := by
  induction bs generalizing s with
  | nil => simp [Segments]
  | cons b bs ih =>
      simp only [List.cons_append, Segments, List.flatten_cons, run_append, ih, and_assoc]

/-- Every list has a decomposition. -/
theorem exists_segments (s : σ) (xs : List α) :
    ∃ pre bs, xs = pre ++ bs.flatten ∧ A.Quiet s pre ∧ A.Segments (A.run s pre) bs := by
  induction xs generalizing s with
  | nil => exact ⟨[], [], rfl, trivial, trivial⟩
  | cons x xs ih =>
      obtain ⟨pre, bs, rfl, hquiet, hsegments⟩ := ih (A.step s x)
      cases hx : A.starts s x with
      | false => exact ⟨x :: pre, bs, rfl, ⟨hx, hquiet⟩, hsegments⟩
      | true => exact ⟨[], (x :: pre) :: bs, rfl, trivial, ⟨hx, hquiet⟩, hsegments⟩

/-! ## Elements that the automaton does not tell apart -/

variable (A) in
/-- The automaton reads the two elements alike in every state. -/
def Alike (x y : α) : Prop :=
  ∀ s, A.step s x = A.step s y ∧ A.starts s x = A.starts s y

theorem Alike.refl (x : α) : A.Alike x x := fun _ ↦ ⟨rfl, rfl⟩

theorem run_congr {xs ys : List α} (h : List.Forall₂ A.Alike xs ys) (s : σ) :
    A.run s xs = A.run s ys := by
  induction h generalizing s with
  | nil => rfl
  | cons hxy _ ih => rw [run_cons, run_cons, (hxy s).1, ih]

theorem quiet_congr {xs ys : List α} (h : List.Forall₂ A.Alike xs ys) (s : σ) :
    A.Quiet s xs ↔ A.Quiet s ys := by
  induction h generalizing s with
  | nil => exact Iff.rfl
  | cons hxy _ ih => rw [Quiet, Quiet, (hxy s).1, (hxy s).2, ih]

theorem segment_congr {xs ys : List α} (h : List.Forall₂ A.Alike xs ys) (s : σ) :
    A.Segment s xs ↔ A.Segment s ys := by
  cases h with
  | nil => exact Iff.rfl
  | cons hxy hrest => rw [Segment, Segment, (hxy s).1, (hxy s).2, quiet_congr hrest]

end Splitter

import Mathlib

/-!
# Nested marks

A text with marks is a sequence of leaves and of the places where marks open and close.
It nests when every mark that closes is the innermost open one; a leaf is then enclosed
by the marks that are open at its place.
-/

namespace Nesting

variable {μ α : Type*}

inductive Token (μ α : Type*) where
  | opening (mark : μ)
  | closing (mark : μ)
  | leaf (a : α)
  deriving DecidableEq, Repr

/-- The leaves with the marks around them, innermost first, where `around` are open; fails where
the marks do not nest. -/
def enclosures [DecidableEq μ] : (around : List μ) → List (Token μ α) → Option (List (α × List μ))
  | [], [] => some []
  | _ :: _, [] => none
  | around, .opening mark :: rest => enclosures (mark :: around) rest
  | mark' :: around, .closing mark :: rest =>
      if mark = mark' then enclosures around rest else none
  | [], .closing _ :: _ => none
  | around, .leaf a :: rest => (enclosures around rest).map ((a, around) :: ·)

/-- The leaves that stand next to each other, between two marks. -/
def blocks : List (Token μ α) → List (List α)
  | [] => [[]]
  | .opening _ :: rest => [] :: blocks rest
  | .closing _ :: rest => [] :: blocks rest
  | .leaf a :: rest =>
      match blocks rest with
      | [] => [[a]]
      | block :: later => (a :: block) :: later

/-- A sequence put between a mark and its end. -/
def wrapped (mark : μ) (tokens : List (Token μ α)) : List (Token μ α) :=
  .opening mark :: (tokens ++ [.closing mark])

section Enclosures

variable [DecidableEq μ]

/-- What follows a sequence that nests is read with the marks that were open before it. -/
theorem enclosures_append {tokens : List (Token μ α)} :
    ∀ {inner : List μ} {placed : List (α × List μ)} (around : List μ) (rest : List (Token μ α)),
      enclosures inner tokens = some placed →
        enclosures (inner ++ around) (tokens ++ rest) =
          (enclosures around rest).map
            ((placed.map fun leaf ↦ (leaf.1, leaf.2 ++ around)) ++ ·) := by
  induction tokens with
  | nil =>
      intro inner placed around rest h
      cases inner with
      | nil =>
          rw [enclosures] at h
          cases h
          simp
      | cons mark inner =>
          rw [enclosures] at h
          cases h
  | cons token tokens ih =>
      intro inner placed around rest h
      cases token with
      | opening mark =>
          rw [enclosures] at h
          rw [List.cons_append, enclosures]
          exact ih around rest h
      | closing mark =>
          cases inner with
          | nil =>
              rw [enclosures] at h
              cases h
          | cons mark' inner =>
              rw [enclosures] at h
              rw [List.cons_append, List.cons_append, enclosures]
              split_ifs at h ⊢
              exact ih around rest h
      | leaf a =>
          rw [enclosures] at h
          obtain ⟨later, hlater, rfl⟩ := Option.map_eq_some_iff.mp h
          rw [List.cons_append, enclosures, ih around rest hlater, Option.map_map]
          rfl

theorem enclosures_append_of_nil {tokens rest : List (Token μ α)}
    {placed later : List (α × List μ)} (h : enclosures [] tokens = some placed)
    (hrest : enclosures [] rest = some later) :
    enclosures [] (tokens ++ rest) = some (placed ++ later) := by
  have happend := enclosures_append [] rest h
  rw [List.nil_append, hrest] at happend
  rw [happend]
  simp

theorem enclosures_wrapped {mark : μ} {tokens : List (Token μ α)} {placed : List (α × List μ)}
    (h : enclosures [] tokens = some placed) :
    enclosures [] (wrapped mark tokens) =
      some (placed.map fun leaf ↦ (leaf.1, leaf.2 ++ [mark])) := by
  have happend := enclosures_append [mark] [.closing mark] h
  rw [List.nil_append, enclosures, if_pos rfl, enclosures] at happend
  rw [wrapped, enclosures, happend]
  simp

theorem enclosures_leaves (leaves : List α) :
    enclosures ([] : List μ) (leaves.map Token.leaf) = some (leaves.map fun a ↦ (a, [])) := by
  induction leaves with
  | nil => rfl
  | cons a leaves ih =>
      rw [List.map_cons, enclosures, ih]
      rfl

end Enclosures

theorem blocks_ne_nil (tokens : List (Token μ α)) : blocks tokens ≠ [] := by
  cases tokens with
  | nil => simp [blocks]
  | cons token rest =>
      cases token with
      | opening mark => simp [blocks]
      | closing mark => simp [blocks]
      | leaf a =>
          rw [blocks]
          split <;> simp

theorem blocks_leaves (leaves : List α) :
    blocks (leaves.map (@Token.leaf μ α)) = [leaves] := by
  induction leaves with
  | nil => rfl
  | cons a leaves ih => rw [List.map_cons, blocks, ih]

/-- A mark ends a block. -/
theorem blocks_append_mark {mark : Token μ α} (hmark : ∀ a, mark ≠ .leaf a)
    (tokens rest : List (Token μ α)) :
    blocks (tokens ++ mark :: rest) = blocks tokens ++ blocks rest := by
  induction tokens with
  | nil =>
      cases mark with
      | opening mark => rfl
      | closing mark => rfl
      | leaf a => exact absurd rfl (hmark a)
  | cons token tokens ih =>
      cases token with
      | opening mark => rw [List.cons_append, blocks, blocks, ih, List.cons_append]
      | closing mark => rw [List.cons_append, blocks, blocks, ih, List.cons_append]
      | leaf a =>
          obtain ⟨block, later, hblocks⟩ := List.exists_cons_of_ne_nil (blocks_ne_nil tokens)
          rw [List.cons_append, blocks, blocks, ih, hblocks]
          rfl

theorem blocks_wrapped (mark : μ) (before tokens after : List (Token μ α)) :
    blocks (before ++ wrapped mark tokens ++ after) =
      blocks before ++ blocks tokens ++ blocks after := by
  have hclosing : wrapped mark tokens ++ after =
      .opening mark :: (tokens ++ .closing mark :: after) := by
    rw [wrapped, List.cons_append, List.append_assoc, List.singleton_append]
  rw [List.append_assoc, hclosing, blocks_append_mark (by simp), blocks_append_mark (by simp),
    List.append_assoc]

end Nesting

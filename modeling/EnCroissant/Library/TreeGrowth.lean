import EnCroissant.Library.TreeMoves

/-!
# Growing trees

A map of paths says where the nodes of a tree have gone in a tree that has more of them.  A
tree that grows loses, doubles and changes no node; the nodes that no old one has become lie
on the added paths.
-/

namespace RoseTree

variable {α : Type*}

structure Grows (t t' : RoseTree α) (move : List ℕ → List ℕ) (added : List ℕ → Prop) : Prop where
  label : ∀ {p}, (t.nodeAt p).isSome → t'.labelAt (move p) = t.labelAt p
  injective : ∀ {p q}, (t.nodeAt p).isSome → (t.nodeAt q).isSome → move p = move q → p = q
  covers : ∀ {q}, (t'.nodeAt q).isSome → added q ∨ ∃ p, (t.nodeAt p).isSome ∧ move p = q

namespace Grows

variable {t t' t'' : RoseTree α} {move move' : List ℕ → List ℕ} {added added' : List ℕ → Prop}

theorem isSome (h : Grows t t' move added) {p : List ℕ} (hp : (t.nodeAt p).isSome) :
    (t'.nodeAt (move p)).isSome := by
  obtain ⟨u, hu⟩ := Option.isSome_iff_exists.mp hp
  exact isSome_of_labelAt ((h.label hp).trans (labelAt_eq_some hu))

theorem refl (t : RoseTree α) : Grows t t id fun _ ↦ False where
  label _ := rfl
  injective _ _ h := h
  covers hq := .inr ⟨_, hq, rfl⟩

theorem trans (h : Grows t t' move added) (h' : Grows t' t'' move' added') :
    Grows t t'' (move' ∘ move) fun q ↦ added' q ∨ ∃ p, added p ∧ move' p = q where
  label hp := (h'.label (h.isSome hp)).trans (h.label hp)
  injective hp hq heq := h.injective hp hq (h'.injective (h.isSome hp) (h.isSome hq) heq)
  covers := by
    intro q hq
    rcases h'.covers hq with hadded | ⟨r, hr, rfl⟩
    · exact .inl (.inl hadded)
    · rcases h.covers hr with hadded | ⟨p, hp, rfl⟩
      · exact .inl (.inr ⟨r, hadded, rfl⟩)
      · exact .inr ⟨p, hp, rfl⟩

theorem mono (h : Grows t t' move added) (hadded : ∀ q, added q → added' q) :
    Grows t t' move added' :=
  ⟨h.label, h.injective, fun hq ↦ (h.covers hq).imp_left (hadded _)⟩

end Grows

variable {t u : RoseTree α} {parent : List ℕ}

/-- A leaf that is added as the child `k` of a node. -/
theorem grows_updateChildren {f : List (RoseTree α) → List (RoseTree α)} {σ : ℕ → ℕ} {k : ℕ}
    (hu : t.nodeAt parent = some u)
    (hf : Relocates (fun i ↦ some (σ i)) u.children (f u.children))
    (hinjective : Function.Injective σ)
    (hcovers : ∀ {j c}, (f u.children)[j]? = some c →
      (j = k ∧ c.children = []) ∨ ∃ i, u.children[i]? = some c ∧ σ i = j) :
    Grows t (updateChildren f parent t)
      (fun p ↦ (rebase (fun i ↦ some (σ i)) parent p).getD p) (· = parent ++ [k]) := by
  have hsome : ∀ p, ∃ r, rebase (fun i ↦ some (σ i)) parent p = some r := by
    intro p
    by_cases hbelow : ∃ i rest, p = parent ++ i :: rest
    · obtain ⟨i, rest, rfl⟩ := hbelow
      exact ⟨_, rebase_append_cons _ parent i rest⟩
    · exact ⟨p, rebase_of_not_below _ hbelow⟩
  refine ⟨?_, ?_, ?_⟩
  · intro p hp
    obtain ⟨r, hr⟩ := hsome p
    rw [hr]
    exact labelAt_updateChildren _ hu hf hr hp
  · intro p q _ _ heq
    obtain ⟨r, hr⟩ := hsome p
    obtain ⟨r', hr'⟩ := hsome q
    rw [hr, hr'] at heq
    obtain rfl : r = r' := heq
    refine rebase_injective (fun {i j k} hi hj ↦ hinjective ?_) hr hr'
    exact (Option.some.inj hi).trans (Option.some.inj hj).symm
  · intro q hq
    by_cases hbelow : ∃ j rest, q = parent ++ j :: rest
    · obtain ⟨j, rest, rfl⟩ := hbelow
      rw [nodeAt_append, nodeAt_updateChildren_self hu, Option.bind_some, nodeAt_cons,
        children_node] at hq
      cases hc : (f u.children)[j]? with
      | none => simp [hc] at hq
      | some c =>
          rw [hc, Option.bind_some] at hq
          rcases hcovers hc with ⟨rfl, hleaf⟩ | ⟨i, hi, rfl⟩
          · cases rest with
            | nil => exact .inl rfl
            | cons i rest => simp [nodeAt_cons, hleaf] at hq
          · refine .inr ⟨parent ++ i :: rest, ?_, by rw [rebase_append_cons]; rfl⟩
            rw [nodeAt_append, hu, Option.bind_some, nodeAt_cons, hi, Option.bind_some]
            exact hq
    · refine .inr ⟨q, ?_, by rw [rebase_of_not_below _ hbelow]; rfl⟩
      rwa [nodeAt_updateChildren_of_not_below hu hbelow] at hq

/-- A leaf in front of the children of a node. -/
theorem grows_cons {leaf : RoseTree α} (hu : t.nodeAt parent = some u)
    (hleaf : leaf.children = []) :
    Grows t (updateChildren (leaf :: ·) parent t)
      (fun p ↦ (rebase (fun i ↦ some (i + 1)) parent p).getD p) (· = parent ++ [0]) := by
  refine grows_updateChildren hu (relocates_cons leaf u.children) (fun i j h ↦ by omega) ?_
  intro j c hc
  cases j with
  | zero =>
      obtain rfl := Option.some.inj hc
      exact .inl ⟨rfl, hleaf⟩
  | succ i => exact .inr ⟨i, hc, rfl⟩

/-- A leaf behind the children of a node. -/
theorem grows_concat {leaf : RoseTree α} (hu : t.nodeAt parent = some u)
    (hleaf : leaf.children = []) :
    Grows t (updateChildren (· ++ [leaf]) parent t) id
      (· = parent ++ [u.children.length]) := by
  have hmove : (fun p ↦ (rebase (fun i ↦ some (id i)) parent p).getD p) = id := by
    funext p
    by_cases hbelow : ∃ i rest, p = parent ++ i :: rest
    · obtain ⟨i, rest, rfl⟩ := hbelow
      rw [rebase_append_cons]
      rfl
    · rw [rebase_of_not_below _ hbelow]
      rfl
  rw [← hmove]
  refine grows_updateChildren hu (relocates_append u.children [leaf]) (fun i j h ↦ h) ?_
  intro j c hc
  rcases Nat.lt_or_ge j u.children.length with hlt | hge
  · rw [List.getElem?_append_left hlt] at hc
    exact .inr ⟨j, hc, rfl⟩
  · rw [List.getElem?_append_right hge] at hc
    obtain ⟨hj, rfl⟩ := List.getElem?_eq_some_iff.mp hc
    rw [List.length_singleton] at hj
    refine .inl ⟨by omega, ?_⟩
    rw [List.getElem_singleton]
    exact hleaf

end RoseTree

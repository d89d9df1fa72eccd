import EnCroissant.Library.RoseTree

/-!
# Post-order walks

A walk enters some of the nodes of a tree and picks some of those it enters,
the nodes below a node before the node itself.  Ordered by their paths, each
closed by a top element, the picked nodes come in increasing order.
-/

namespace RoseTree

variable {α : Type*} (enter : List ℕ → Bool) (pick : List ℕ → RoseTree α → Bool)

mutual

/-- The paths of the picked nodes, in post-order. -/
def picked (path : List ℕ) : RoseTree α → List (List ℕ)
  | node a cs =>
      if enter path then
        pickedBelow path 0 cs ++ if pick path (node a cs) then [path] else []
      else []

def pickedBelow (path : List ℕ) (i : ℕ) : List (RoseTree α) → List (List ℕ)
  | [] => []
  | c :: cs => picked (path ++ [i]) c ++ pickedBelow path (i + 1) cs

end

variable {enter pick}

/-- The walk enters a node and all nodes above it, and picks it. -/
def Picks (enter : List ℕ → Bool) (pick : List ℕ → RoseTree α → Bool) (path : List ℕ)
    (t : RoseTree α) (rel : List ℕ) : Prop :=
  ∃ u, t.nodeAt rel = some u ∧ (∀ q, q <+: rel → enter (path ++ q) = true) ∧
    pick (path ++ rel) u = true

theorem picks_nil {path : List ℕ} {t : RoseTree α} :
    Picks enter pick path t [] ↔ enter path = true ∧ pick path t = true := by
  rw [Picks]
  constructor
  · rintro ⟨u, hu, henter, hpick⟩
    rw [nodeAt_nil] at hu
    obtain rfl := Option.some.inj hu
    rw [List.append_nil] at hpick
    refine ⟨?_, hpick⟩
    have h := henter [] List.prefix_rfl
    rwa [List.append_nil] at h
  · rintro ⟨henter, hpick⟩
    refine ⟨t, nodeAt_nil t, fun q hq ↦ ?_, by rwa [List.append_nil]⟩
    rw [List.prefix_nil.mp hq, List.append_nil]
    exact henter

theorem picks_cons {path : List ℕ} {a : α} {cs : List (RoseTree α)} {i : ℕ} {rel : List ℕ} :
    Picks enter pick path (node a cs) (i :: rel) ↔
      enter path = true ∧ ∃ c, cs[i]? = some c ∧ Picks enter pick (path ++ [i]) c rel := by
  rw [Picks]
  constructor
  · rintro ⟨u, hu, henter, hpick⟩
    rw [nodeAt_cons, children_node] at hu
    obtain ⟨c, hc, hu⟩ := Option.bind_eq_some_iff.mp hu
    refine ⟨?_, c, hc, u, hu, fun q hq ↦ ?_, ?_⟩
    · have h := henter [] List.nil_prefix
      rwa [List.append_nil] at h
    · rw [List.append_assoc]
      exact henter (i :: q) (List.cons_prefix_cons.mpr ⟨rfl, hq⟩)
    · rw [List.append_assoc]
      exact hpick
  · rintro ⟨hroot, c, hc, u, hu, henter, hpick⟩
    refine ⟨u, ?_, fun q hq ↦ ?_, ?_⟩
    · rw [nodeAt_cons, children_node, hc]
      exact hu
    · cases q with
      | nil => rwa [List.append_nil]
      | cons j q =>
          obtain ⟨rfl, hq'⟩ := List.cons_prefix_cons.mp hq
          have h := henter q hq'
          rwa [List.append_assoc] at h
    · rwa [List.append_assoc] at hpick

mutual

theorem mem_picked {path p : List ℕ} :
    ∀ {t : RoseTree α}, p ∈ picked enter pick path t ↔
      ∃ rel, p = path ++ rel ∧ Picks enter pick path t rel
  | node a cs => by
      rw [picked]
      constructor
      · intro h
        by_cases henter : enter path = true
        · rw [if_pos henter] at h
          rcases List.mem_append.mp h with hbelow | hself
          · obtain ⟨j, c, hc, rel, rfl, hpicks⟩ := mem_pickedBelow.mp hbelow
            refine ⟨j :: rel, ?_, picks_cons.mpr ⟨henter, c, hc, ?_⟩⟩
            · rw [Nat.zero_add]
            · rwa [Nat.zero_add] at hpicks
          · by_cases hpick : pick path (node a cs) = true
            · rw [if_pos hpick] at hself
              exact ⟨[], by rw [List.mem_singleton.mp hself, List.append_nil],
                picks_nil.mpr ⟨henter, hpick⟩⟩
            · rw [if_neg hpick] at hself
              cases hself
        · rw [if_neg henter] at h
          cases h
      · rintro ⟨rel, rfl, hpicks⟩
        cases rel with
        | nil =>
            obtain ⟨henter, hpick⟩ := picks_nil.mp hpicks
            rw [if_pos henter, if_pos hpick, List.append_nil]
            exact List.mem_append_right _ (List.mem_singleton.mpr rfl)
        | cons j rel =>
            obtain ⟨henter, c, hc, hpicks⟩ := picks_cons.mp hpicks
            rw [if_pos henter]
            refine List.mem_append_left _ (mem_pickedBelow.mpr ⟨j, c, hc, rel, ?_, ?_⟩)
            · rw [Nat.zero_add]
            · rwa [Nat.zero_add]

theorem mem_pickedBelow {path p : List ℕ} {i : ℕ} :
    ∀ {cs : List (RoseTree α)}, p ∈ pickedBelow enter pick path i cs ↔
      ∃ j c, cs[j]? = some c ∧ ∃ rel, p = path ++ (i + j) :: rel ∧
        Picks enter pick (path ++ [i + j]) c rel
  | [] => by
      rw [pickedBelow]
      constructor
      · intro h
        cases h
      · rintro ⟨j, c, hc, -⟩
        cases hc
  | c :: cs => by
      rw [pickedBelow, List.mem_append, mem_picked, mem_pickedBelow]
      constructor
      · rintro (⟨rel, rfl, hpicks⟩ | ⟨j, d, hd, rel, rfl, hpicks⟩)
        · exact ⟨0, c, rfl, rel, by rw [List.append_assoc]; rfl, hpicks⟩
        · refine ⟨j + 1, d, hd, rel, ?_, ?_⟩
          · rw [Nat.add_right_comm, Nat.add_assoc]
          · rwa [Nat.add_right_comm, Nat.add_assoc] at hpicks
      · rintro ⟨j, d, hd, rel, rfl, hpicks⟩
        cases j with
        | zero =>
            obtain rfl := Option.some.inj hd
            exact .inl ⟨rel, by rw [List.append_assoc]; rfl, hpicks⟩
        | succ j =>
            refine .inr ⟨j, d, hd, rel, ?_, ?_⟩
            · rw [Nat.add_right_comm, Nat.add_assoc]
            · rwa [Nat.add_right_comm, Nat.add_assoc]

end

/-! ## The order of the walk -/

/-- A path, closed so that what lies below a node comes before it. -/
def postOrderKey (path : List ℕ) : List (WithTop ℕ) := path.map (↑) ++ [⊤]

theorem postOrderKey_append (path rel : List ℕ) :
    postOrderKey (path ++ rel) = path.map (↑) ++ postOrderKey rel := by
  rw [postOrderKey, List.map_append, List.append_assoc]
  rfl

theorem postOrderKey_lt_self (path : List ℕ) (i : ℕ) (rel : List ℕ) :
    postOrderKey (path ++ i :: rel) < postOrderKey path := by
  have hself : postOrderKey path = path.map (↑) ++ postOrderKey [] := by
    rw [← postOrderKey_append, List.append_nil]
  rw [postOrderKey_append, hself]
  exact List.append_left_lt (List.cons_lt_cons_iff.mpr (.inl (WithTop.coe_lt_top i)))

theorem postOrderKey_lt_right (path : List ℕ) {i j : ℕ} (hij : i < j) (rel rel' : List ℕ) :
    postOrderKey (path ++ i :: rel) < postOrderKey (path ++ j :: rel') := by
  rw [postOrderKey_append, postOrderKey_append]
  exact List.append_left_lt (List.cons_lt_cons_iff.mpr (.inl (WithTop.coe_lt_coe.mpr hij)))

mutual

theorem pairwise_picked (path : List ℕ) :
    ∀ t : RoseTree α, (picked enter pick path t).Pairwise
      fun p q ↦ postOrderKey p < postOrderKey q
  | node a cs => by
      rw [picked]
      split_ifs
      · rw [List.pairwise_append]
        refine ⟨pairwise_pickedBelow path 0 cs, List.pairwise_singleton _ _, ?_⟩
        intro p hp q hq
        obtain ⟨j, c, -, rel, rfl, -⟩ := mem_pickedBelow.mp hp
        rw [List.mem_singleton.mp hq]
        exact postOrderKey_lt_self path _ rel
      · rw [List.append_nil]
        exact pairwise_pickedBelow path 0 cs
      · exact List.Pairwise.nil

theorem pairwise_pickedBelow (path : List ℕ) (i : ℕ) :
    ∀ cs : List (RoseTree α), (pickedBelow enter pick path i cs).Pairwise
      fun p q ↦ postOrderKey p < postOrderKey q
  | [] => by
      rw [pickedBelow]
      exact List.Pairwise.nil
  | c :: cs => by
      rw [pickedBelow, List.pairwise_append]
      refine ⟨pairwise_picked (path ++ [i]) c, pairwise_pickedBelow path (i + 1) cs, ?_⟩
      intro p hp q hq
      obtain ⟨rel, rfl, -⟩ := mem_picked.mp hp
      obtain ⟨j, d, -, rel', rfl, -⟩ := mem_pickedBelow.mp hq
      rw [List.append_assoc]
      exact postOrderKey_lt_right path (by omega) rel rel'

end

/-- The first picked node is the least one. -/
theorem head?_picked_eq_some_iff {path p : List ℕ} {t : RoseTree α} :
    (picked enter pick path t).head? = some p ↔
      p ∈ picked enter pick path t ∧
        ∀ q ∈ picked enter pick path t, postOrderKey p ≤ postOrderKey q := by
  have hpairwise : (picked enter pick path t).Pairwise
      fun p q ↦ postOrderKey p < postOrderKey q := pairwise_picked path t
  cases hpicked : picked enter pick path t with
  | nil =>
      constructor
      · intro h
        cases h
      · rintro ⟨h, -⟩
        cases h
  | cons q rest =>
      rw [hpicked, List.pairwise_cons] at hpairwise
      rw [List.head?_cons, Option.some.injEq]
      constructor
      · rintro rfl
        refine ⟨List.mem_cons_self, fun r hr ↦ ?_⟩
        rcases List.mem_cons.mp hr with rfl | hr
        · exact le_rfl
        · exact (hpairwise.1 r hr).le
      · rintro ⟨hp, hle⟩
        rcases List.mem_cons.mp hp with rfl | hp
        · rfl
        · exact absurd (hpairwise.1 p hp) (not_lt.mpr (hle q List.mem_cons_self))

end RoseTree

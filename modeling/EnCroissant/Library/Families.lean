import EnCroissant.Library.RoseTree

/-!
# Families of a tree

A condition on a label and the labels below it, at every node of a tree.  An edit of the
children of one node keeps it if the new family meets it.
-/

namespace RoseTree

variable {α : Type*}

/-- Every node and its children satisfy `R`. -/
inductive Families (R : α → List α → Prop) : RoseTree α → Prop
  | node {a : α} {cs : List (RoseTree α)} (family : R a (cs.map label))
      (below : ∀ c ∈ cs, Families R c) : Families R (.node a cs)

namespace Families

variable {R Q : α → List α → Prop} {t u : RoseTree α} {path : List ℕ}

theorem family (h : Families R t) : R t.label (t.children.map label) := by
  cases h with
  | node family below => exact family

theorem child (h : Families R t) : ∀ c ∈ t.children, Families R c := by
  cases h with
  | node family below => exact below

theorem of_parts (hfamily : R t.label (t.children.map label))
    (hbelow : ∀ c ∈ t.children, Families R c) : Families R t := by
  rw [← node_eta t]
  exact .node hfamily hbelow

theorem leaf {a : α} (h : R a []) : Families R (.node a []) := .node h nofun

theorem mono (hRQ : ∀ a ks, R a ks → Q a ks) (h : Families R t) : Families Q t := by
  induction h with
  | node family below ih => exact .node (hRQ _ _ family) ih

theorem and (h : Families R t) (h' : Families Q t) :
    Families (fun a ks ↦ R a ks ∧ Q a ks) t := by
  induction h with
  | node family below ih => exact .node ⟨family, h'.family⟩ fun c hc ↦ ih c hc (h'.child c hc)

theorem nodeAt (h : Families R t) (hu : t.nodeAt path = some u) : Families R u := by
  induction path generalizing t with
  | nil =>
      rw [nodeAt_nil] at hu
      exact Option.some.inj hu ▸ h
  | cons i path ih =>
      rw [nodeAt_cons, Option.bind_eq_some_iff] at hu
      obtain ⟨c, hc, hu⟩ := hu
      exact ih (h.child c (List.mem_of_getElem? hc)) hu

theorem deepest (h : Families R t) (path : List ℕ) : Families R (t.deepest path) :=
  h.nodeAt (nodeAt_inRange t path)

end Families

theorem label_updateChildren (f : List (RoseTree α) → List (RoseTree α)) (path : List ℕ)
    (t : RoseTree α) : (t.updateChildren f path).label = t.label := by
  cases path with
  | nil => rw [updateChildren, updateAt, label_node]
  | cons i path =>
      rw [updateChildren, updateAt]
      cases t.children[i]? <;> rfl

/-- The edited node is the last one that the path reaches. -/
theorem Families.updateChildren {R : α → List α → Prop} {t : RoseTree α}
    {f : List (RoseTree α) → List (RoseTree α)} {path : List ℕ} (h : Families R t)
    (hfamily : R (t.deepest path).label ((f (t.deepest path).children).map label))
    (hbelow : ∀ c ∈ f (t.deepest path).children, Families R c) :
    Families R (t.updateChildren f path) := by
  induction path generalizing t with
  | nil =>
      rw [RoseTree.updateChildren, updateAt]
      exact .node hfamily hbelow
  | cons i path ih =>
      rw [RoseTree.deepest] at hfamily hbelow
      rw [RoseTree.updateChildren, updateAt]
      cases hc : t.children[i]? with
      | none =>
          rw [hc] at hfamily hbelow
          exact .node hfamily hbelow
      | some c =>
          rw [hc] at hfamily hbelow
          have hlabel : (c.updateChildren f path).label = c.label := label_updateChildren f path c
          have hgiven : (t.children.map label)[i]? = some c.label := by
            rw [List.getElem?_map, hc, Option.map_some]
          obtain ⟨hi, hget⟩ := List.getElem?_eq_some_iff.mp hgiven
          refine .node ?_ fun d hd ↦ ?_
          · have hsame : (t.children.set i (c.updateChildren f path)).map label =
                t.children.map label := by
              rw [List.map_set, hlabel, ← hget, List.set_getElem_self]
            exact hsame.symm ▸ h.family
          · rcases List.mem_or_eq_of_mem_set hd with hd | rfl
            · exact h.child d hd
            · exact ih (h.child c (List.mem_of_getElem? hc)) hfamily hbelow

/-- What grows by one along every edge is the value at the root and the depth. -/
theorem Families.depth {g : α → ℤ} {R : α → List α → Prop} {t : RoseTree α} {path : List ℕ}
    {a : α} (hR : ∀ a ks, R a ks → ∀ k ∈ ks, g k = g a + 1) (h : Families R t)
    (ha : t.labelAt path = some a) : g a = g t.label + path.length := by
  induction path generalizing t with
  | nil =>
      rw [labelAt, nodeAt_nil] at ha
      obtain rfl := Option.some.inj ha
      simp
  | cons i path ih =>
      rw [labelAt, nodeAt_cons, Option.map_bind, Option.bind_eq_some_iff] at ha
      obtain ⟨c, hc, ha⟩ := ha
      have hmem := List.mem_of_getElem? hc
      have hstep := hR _ _ h.family c.label (List.mem_map_of_mem hmem)
      have hrest := ih (h.child c hmem) ha
      rw [List.length_cons]
      push_cast
      omega

end RoseTree

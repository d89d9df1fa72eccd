import EnCroissant.Library.Families

/-!
# Relabelled trees

Two trees of one shape, whose labels are related place by place.
-/

namespace RoseTree

variable {α : Type*}

/-- The same paths are in range, and the labels there are related. -/
def Relabels (R : α → α → Prop) (t t' : RoseTree α) : Prop :=
  ∀ path, Option.Rel R (t.labelAt path) (t'.labelAt path)

namespace Relabels

variable {R : α → α → Prop} {t t' : RoseTree α} {path : List ℕ}

theorem mono {Q : α → α → Prop} (hRQ : ∀ a b, R a b → Q a b) (h : Relabels R t t') :
    Relabels Q t t' := by
  intro path
  have hpath := h path
  generalize t.labelAt path = found, t'.labelAt path = found' at hpath ⊢
  cases hpath with
  | some hab => exact .some (hRQ _ _ hab)
  | none => exact .none

theorem isSome (h : Relabels R t t') (path : List ℕ) :
    (t'.nodeAt path).isSome = (t.nodeAt path).isSome := by
  have hpath := h path
  have hlabel : ∀ u : RoseTree α, (u.labelAt path).isSome = (u.nodeAt path).isSome := by
    intro u
    rw [labelAt, Option.isSome_map]
  rw [← hlabel, ← hlabel]
  generalize t.labelAt path = found, t'.labelAt path = found' at hpath ⊢
  cases hpath <;> rfl

theorem label_of (h : Relabels R t t') {b : α} (hb : t'.labelAt path = some b) :
    ∃ a, t.labelAt path = some a ∧ R a b := by
  have hpath := h path
  rw [hb] at hpath
  generalize ha : t.labelAt path = found at hpath
  cases hpath with
  | some hab => exact ⟨_, rfl, hab⟩

theorem root (h : Relabels R t t') : R t.label t'.label := by
  have hroot := h []
  rw [labelAt, labelAt, nodeAt_nil, nodeAt_nil] at hroot
  cases hroot with
  | some hab => exact hab

end Relabels

theorem relabels_refl {R : α → α → Prop} (hR : ∀ a, R a a) (t : RoseTree α) :
    Relabels R t t := by
  intro path
  cases t.labelAt path with
  | none => exact .none
  | some a => exact .some (hR a)

/-! ## Changing one label -/

def updateLabel (f : α → α) : List ℕ → RoseTree α → RoseTree α :=
  updateAt fun t ↦ node (f t.label) t.children

theorem relabels_updateLabel {R : α → α → Prop} (hR : ∀ a, R a a) {f : α → α}
    (hf : ∀ a, R a (f a)) (path : List ℕ) (t : RoseTree α) :
    Relabels R t (updateLabel f path t) := by
  have hhere : ∀ t : RoseTree α, Relabels R t (node (f t.label) t.children) := by
    intro t q
    cases q with
    | nil =>
        rw [labelAt, labelAt, nodeAt_nil, nodeAt_nil]
        exact .some (hf t.label)
    | cons j q =>
        rw [labelAt, labelAt, nodeAt_cons, nodeAt_cons, children_node]
        exact relabels_refl hR t (j :: q)
  induction path generalizing t with
  | nil => exact hhere t
  | cons i path ih =>
      rw [updateLabel, updateAt]
      cases hc : t.children[i]? with
      | none => exact hhere t
      | some c =>
          intro q
          cases q with
          | nil =>
              rw [labelAt, labelAt, nodeAt_nil, nodeAt_nil]
              exact .some (hR t.label)
          | cons j q =>
              rw [labelAt, labelAt, nodeAt_cons, nodeAt_cons, children_node]
              by_cases hij : i = j
              · subst hij
                rw [List.getElem?_set_self (List.getElem?_eq_some_iff.mp hc).1, hc]
                exact ih c q
              · rw [List.getElem?_set_ne hij]
                exact relabels_refl hR t (j :: q)

/-! ## Changing all labels -/

mutual

/-- Changes every label by its depth. -/
def mapDepths (f : ℕ → α → α) (depth : ℕ) : RoseTree α → RoseTree α
  | node a cs => node (f depth a) (mapDepthsAll f (depth + 1) cs)

def mapDepthsAll (f : ℕ → α → α) (depth : ℕ) : List (RoseTree α) → List (RoseTree α)
  | [] => []
  | c :: cs => mapDepths f depth c :: mapDepthsAll f depth cs

end

theorem mapDepthsAll_eq (f : ℕ → α → α) (depth : ℕ) (cs : List (RoseTree α)) :
    mapDepthsAll f depth cs = cs.map (mapDepths f depth) := by
  induction cs with
  | nil => rw [mapDepthsAll, List.map_nil]
  | cons c cs ih => rw [mapDepthsAll, ih, List.map_cons]

theorem nodeAt_mapDepths (f : ℕ → α → α) (depth : ℕ) (t : RoseTree α) (path : List ℕ) :
    (mapDepths f depth t).nodeAt path =
      (t.nodeAt path).map (mapDepths f (depth + path.length)) := by
  induction path generalizing depth t with
  | nil =>
      rw [nodeAt_nil, nodeAt_nil]
      rfl
  | cons i path ih =>
      obtain ⟨a, cs⟩ := t
      rw [mapDepths, nodeAt_cons, nodeAt_cons, children_node, children_node, mapDepthsAll_eq,
        List.getElem?_map, List.length_cons, Option.bind_map, Option.map_bind]
      congr 1
      funext c
      have hdepth : depth + 1 + path.length = depth + (path.length + 1) := by omega
      rw [Function.comp_apply, Function.comp_apply, ih, hdepth]

theorem label_mapDepths (f : ℕ → α → α) (depth : ℕ) (t : RoseTree α) :
    (mapDepths f depth t).label = f depth t.label := by
  obtain ⟨a, cs⟩ := t
  rw [mapDepths, label_node, label_node]

theorem labelAt_mapDepths (f : ℕ → α → α) (depth : ℕ) (t : RoseTree α) (path : List ℕ) :
    (mapDepths f depth t).labelAt path = (t.labelAt path).map (f (depth + path.length)) := by
  rw [labelAt, labelAt, nodeAt_mapDepths, Option.map_map, Option.map_map]
  congr 1
  funext u
  exact label_mapDepths f _ u

theorem relabels_mapDepths {R : α → α → Prop} {f : ℕ → α → α} (hf : ∀ n a, R a (f n a))
    (depth : ℕ) (t : RoseTree α) : Relabels R t (mapDepths f depth t) := by
  intro path
  rw [labelAt_mapDepths]
  cases t.labelAt path with
  | none => exact .none
  | some a => exact .some (hf _ a)

/-! ## Families by paths -/

/-- A condition on the label of a node and that of each child, read off along the paths. -/
theorem families_of_labelAt {Q : α → α → Prop} : ∀ t : RoseTree α,
    (∀ path i a b, t.labelAt path = some a → t.labelAt (path ++ [i]) = some b → Q a b) →
      Families (fun a children ↦ ∀ b ∈ children, Q a b) t
  | .node a cs, h => by
      have hchild : ∀ i (hi : i < cs.length) path,
          (node a cs).labelAt (i :: path) = cs[i].labelAt path := by
        intro i hi path
        rw [labelAt, nodeAt_cons, children_node, List.getElem?_eq_getElem hi, Option.bind_some,
          labelAt]
      refine .node (fun b hb ↦ ?_) fun c hc ↦ ?_
      · obtain ⟨i, hi, rfl⟩ := List.mem_iff_getElem.mp hb
        rw [List.length_map] at hi
        refine h [] i a _ (labelAt_eq_some (nodeAt_nil _)) ?_
        rw [List.nil_append, hchild i hi, List.getElem_map]
        exact labelAt_eq_some (nodeAt_nil _)
      · have hsize : sizeOf c < 1 + sizeOf a + sizeOf cs := by
          have hlt := List.sizeOf_lt_of_mem hc
          omega
        refine families_of_labelAt c fun path j b b' hb hb' ↦ ?_
        obtain ⟨i, hi, rfl⟩ := List.mem_iff_getElem.mp hc
        rw [← hchild i hi] at hb hb'
        exact h (i :: path) j b b' hb hb'

theorem Families.labelAt {Q : α → α → Prop} {t : RoseTree α}
    (h : Families (fun a children ↦ ∀ b ∈ children, Q a b) t) {path : List ℕ} {i : ℕ} {a b : α}
    (ha : t.labelAt path = some a) (hb : t.labelAt (path ++ [i]) = some b) : Q a b := by
  obtain ⟨u, hu, rfl⟩ := Option.map_eq_some_iff.mp ha
  rw [RoseTree.labelAt, nodeAt_concat, hu, Option.bind_some, Option.map_eq_some_iff] at hb
  obtain ⟨c, hc, rfl⟩ := hb
  exact (h.nodeAt hu).family _ (List.mem_map_of_mem (List.mem_of_getElem? hc))

end RoseTree

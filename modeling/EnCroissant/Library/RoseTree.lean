import Mathlib

/-!
# Labelled trees addressed by paths

A path is the list of child indices from the root.  An edit replaces the
children of one node; when it moves them by an index map, `rebase` sends every
path to the path that names the same node afterwards.
-/

/-- Finitely branching trees with ordered children. -/
inductive RoseTree (α : Type*) where
  | node (label : α) (children : List (RoseTree α))

namespace RoseTree

variable {α : Type*}

def label : RoseTree α → α
  | node a _ => a

def children : RoseTree α → List (RoseTree α)
  | node _ cs => cs

@[simp] theorem label_node (a : α) (cs : List (RoseTree α)) : (node a cs).label = a := rfl

@[simp] theorem children_node (a : α) (cs : List (RoseTree α)) : (node a cs).children = cs := rfl

theorem node_eta (t : RoseTree α) : node t.label t.children = t := by
  cases t
  rfl

/-- The node a path names, if every index of it is in range. -/
def nodeAt : RoseTree α → List ℕ → Option (RoseTree α)
  | t, [] => some t
  | t, i :: path => t.children[i]?.bind fun c ↦ c.nodeAt path

/-- The label of the node a path names. -/
def labelAt (t : RoseTree α) (path : List ℕ) : Option α :=
  (t.nodeAt path).map label

/-- The node at the end of the longest part of a path that is in range. -/
def deepest : RoseTree α → List ℕ → RoseTree α
  | t, [] => t
  | t, i :: path =>
      match t.children[i]? with
      | some c => c.deepest path
      | none => t

/-- The longest part of a path that is in range. -/
def inRange : RoseTree α → List ℕ → List ℕ
  | _, [] => []
  | t, i :: path =>
      match t.children[i]? with
      | some c => i :: c.inRange path
      | none => []

/-- Replaces the node at the end of the longest part of a path that is in
range. -/
def updateAt (f : RoseTree α → RoseTree α) : List ℕ → RoseTree α → RoseTree α
  | [], t => f t
  | i :: path, t =>
      match t.children[i]? with
      | some c => node t.label (t.children.set i (updateAt f path c))
      | none => f t

/-- Replaces the children of the node at the end of a path. -/
def updateChildren (f : List (RoseTree α) → List (RoseTree α)) :
    List ℕ → RoseTree α → RoseTree α :=
  updateAt fun t ↦ node t.label (f t.children)

@[simp] theorem nodeAt_nil (t : RoseTree α) : t.nodeAt [] = some t := by
  rw [nodeAt]

theorem nodeAt_cons (t : RoseTree α) (i : ℕ) (path : List ℕ) :
    t.nodeAt (i :: path) = t.children[i]?.bind fun c ↦ c.nodeAt path := by
  rw [nodeAt]

theorem nodeAt_append (t : RoseTree α) (p q : List ℕ) :
    t.nodeAt (p ++ q) = (t.nodeAt p).bind fun u ↦ u.nodeAt q := by
  induction p generalizing t with
  | nil => rw [List.nil_append, nodeAt_nil, Option.bind_some]
  | cons i p ih =>
      rw [List.cons_append, nodeAt_cons, nodeAt_cons, Option.bind_assoc]
      simp only [ih]

theorem nodeAt_concat (t : RoseTree α) (p : List ℕ) (i : ℕ) :
    t.nodeAt (p ++ [i]) = (t.nodeAt p).bind fun u ↦ u.children[i]? := by
  rw [nodeAt_append]
  congr 1
  funext u
  rw [nodeAt_cons]
  cases u.children[i]? with
  | none => rfl
  | some c => exact nodeAt_nil c

theorem nodeAt_of_prefix {t u : RoseTree α} {p q : List ℕ}
    (hu : t.nodeAt q = some u) (hp : p <+: q) :
    ∃ v, t.nodeAt p = some v := by
  obtain ⟨r, rfl⟩ := hp
  rw [nodeAt_append] at hu
  cases hv : t.nodeAt p with
  | none => simp [hv] at hu
  | some v => exact ⟨v, rfl⟩

theorem deepest_of_nodeAt {t u : RoseTree α} {path : List ℕ}
    (h : t.nodeAt path = some u) :
    t.deepest path = u := by
  induction path generalizing t with
  | nil =>
      rw [nodeAt_nil] at h
      rw [deepest]
      exact Option.some.inj h
  | cons i path ih =>
      rw [nodeAt_cons] at h
      cases hc : t.children[i]? with
      | none => simp [hc] at h
      | some c =>
          rw [hc, Option.bind_some] at h
          rw [deepest, hc]
          exact ih h

theorem nodeAt_inRange (t : RoseTree α) (path : List ℕ) :
    t.nodeAt (t.inRange path) = some (t.deepest path) := by
  induction path generalizing t with
  | nil => rw [inRange, deepest, nodeAt_nil]
  | cons i path ih =>
      rw [inRange, deepest]
      cases hc : t.children[i]? with
      | none => exact nodeAt_nil t
      | some c =>
          simp only
          rw [nodeAt_cons, hc, Option.bind_some]
          exact ih c

theorem inRange_prefix (t : RoseTree α) (path : List ℕ) : t.inRange path <+: path := by
  induction path generalizing t with
  | nil => exact List.prefix_rfl
  | cons i path ih =>
      rw [inRange]
      cases t.children[i]? with
      | none => exact List.nil_prefix
      | some c => exact List.cons_prefix_cons.mpr ⟨rfl, ih c⟩

theorem inRange_of_nodeAt {t u : RoseTree α} {path : List ℕ}
    (h : t.nodeAt path = some u) :
    t.inRange path = path := by
  induction path generalizing t with
  | nil => rw [inRange]
  | cons i path ih =>
      rw [nodeAt_cons] at h
      cases hc : t.children[i]? with
      | none => simp [hc] at h
      | some c =>
          rw [hc, Option.bind_some] at h
          rw [inRange, hc]
          simp only
          rw [ih h]

/-- A path that goes on after it has left the tree gets no further. -/
theorem inRange_append (t : RoseTree α) {p : List ℕ} (q : List ℕ)
    (h : t.inRange p ≠ p) :
    t.inRange (p ++ q) = t.inRange p := by
  induction p generalizing t with
  | nil => exact absurd (by rw [inRange]) h
  | cons i p ih =>
      rw [inRange] at h
      rw [List.cons_append, inRange, inRange]
      cases hc : t.children[i]? with
      | none => rfl
      | some c =>
          rw [hc] at h
          simp only [ne_eq, List.cons.injEq, true_and] at h
          simp only
          rw [ih c h]

theorem labelAt_eq_some {t u : RoseTree α} {path : List ℕ} (h : t.nodeAt path = some u) :
    t.labelAt path = some u.label := by
  rw [labelAt, h, Option.map_some]

/-! ## Index maps -/

/-- The children `cs'` hold the child `i` of `cs` at `move i`, where that is
defined. -/
def Relocates (move : ℕ → Option ℕ) (cs cs' : List (RoseTree α)) : Prop :=
  ∀ i c j, cs[i]? = some c → move i = some j → cs'[j]? = some c

/-- The path of the same node after the children of the node at `parent` have
moved by `move`. -/
def rebase (move : ℕ → Option ℕ) : List ℕ → List ℕ → Option (List ℕ)
  | _, [] => some []
  | [], i :: rest => (move i).map (· :: rest)
  | a :: parent, i :: rest =>
      if a = i then (rebase move parent rest).map (i :: ·) else some (i :: rest)

theorem rebase_append_cons (move : ℕ → Option ℕ) (parent : List ℕ) (i : ℕ) (rest : List ℕ) :
    rebase move parent (parent ++ i :: rest) =
      (move i).map fun j ↦ parent ++ j :: rest := by
  induction parent with
  | nil =>
      rw [List.nil_append, rebase]
      rfl
  | cons a parent ih =>
      rw [List.cons_append, rebase, if_pos rfl, ih, Option.map_map]
      rfl

theorem rebase_of_not_below (move : ℕ → Option ℕ) {parent path : List ℕ}
    (h : ¬ ∃ i rest, path = parent ++ i :: rest) :
    rebase move parent path = some path := by
  induction parent generalizing path with
  | nil =>
      cases path with
      | nil => rw [rebase]
      | cons i rest => exact absurd ⟨i, rest, rfl⟩ h
  | cons a parent ih =>
      cases path with
      | nil => rw [rebase]
      | cons i rest =>
          rw [rebase]
          by_cases hai : a = i
          · subst hai
            have hrest : ¬ ∃ j tail, rest = parent ++ j :: tail := by
              rintro ⟨j, tail, rfl⟩
              exact h ⟨j, tail, rfl⟩
            rw [if_pos rfl, ih hrest]
            rfl
          · rw [if_neg hai]

/-- Where a path is rebased to, it names a node with the label it named. -/
theorem labelAt_updateChildren (move : ℕ → Option ℕ)
    {f : List (RoseTree α) → List (RoseTree α)} {t u : RoseTree α}
    {parent path path' : List ℕ}
    (hu : t.nodeAt parent = some u) (hf : Relocates move u.children (f u.children))
    (hpath : rebase move parent path = some path') (hvalid : (t.nodeAt path).isSome) :
    (updateChildren f parent t).labelAt path' = t.labelAt path := by
  induction parent generalizing t path path' with
  | nil =>
      rw [nodeAt_nil] at hu
      have htu : t = u := Option.some.inj hu
      subst htu
      rw [updateChildren, updateAt]
      cases path with
      | nil =>
          rw [rebase] at hpath
          cases hpath
          simp only [labelAt, nodeAt_nil, Option.map_some, label_node]
      | cons i rest =>
          rw [rebase, Option.map_eq_some_iff] at hpath
          obtain ⟨j, hj, rfl⟩ := hpath
          rw [nodeAt_cons] at hvalid
          cases hc : t.children[i]? with
          | none => simp [hc] at hvalid
          | some c =>
              have hc' := hf i c j hc hj
              rw [labelAt, labelAt, nodeAt_cons, nodeAt_cons, children_node, hc, hc']
  | cons a parent ih =>
      rw [nodeAt_cons] at hu
      cases hc : t.children[a]? with
      | none => simp [hc] at hu
      | some c =>
          rw [hc, Option.bind_some] at hu
          have hupdate : updateChildren f (a :: parent) t =
              node t.label (t.children.set a (updateChildren f parent c)) := by
            rw [updateChildren, updateAt, hc]
          rw [hupdate]
          cases path with
          | nil =>
              rw [rebase] at hpath
              cases hpath
              simp only [labelAt, nodeAt_nil, Option.map_some, label_node]
          | cons i rest =>
              rw [rebase] at hpath
              by_cases hai : a = i
              · subst hai
                rw [if_pos rfl, Option.map_eq_some_iff] at hpath
                obtain ⟨rest', hrest, rfl⟩ := hpath
                rw [nodeAt_cons, hc, Option.bind_some] at hvalid
                have hlt : a < t.children.length := (List.getElem?_eq_some_iff.mp hc).1
                have hset : (t.children.set a (updateChildren f parent c))[a]? =
                    some (updateChildren f parent c) := List.getElem?_set_self hlt
                have hmove := ih hu hrest hvalid
                rw [labelAt] at hmove ⊢
                rw [nodeAt_cons, children_node, hset, Option.bind_some, hmove, labelAt, labelAt,
                  nodeAt_cons, hc, Option.bind_some]
              · rw [if_neg hai] at hpath
                cases hpath
                rw [labelAt, labelAt, nodeAt_cons, nodeAt_cons, children_node,
                  List.getElem?_set_ne hai]

/-- The node whose children were replaced. -/
theorem nodeAt_updateChildren_self {f : List (RoseTree α) → List (RoseTree α)}
    {t u : RoseTree α} {parent : List ℕ} (hu : t.nodeAt parent = some u) :
    (updateChildren f parent t).nodeAt parent = some (node u.label (f u.children)) := by
  induction parent generalizing t with
  | nil =>
      rw [nodeAt_nil] at hu
      have htu : t = u := Option.some.inj hu
      subst htu
      rw [updateChildren, updateAt, nodeAt_nil]
  | cons a parent ih =>
      rw [nodeAt_cons] at hu
      cases hc : t.children[a]? with
      | none => simp [hc] at hu
      | some c =>
          rw [hc, Option.bind_some] at hu
          have hlt : a < t.children.length := (List.getElem?_eq_some_iff.mp hc).1
          have hrest := ih hu
          rw [updateChildren] at hrest ⊢
          rw [updateAt, hc]
          rw [nodeAt_cons, children_node, List.getElem?_set_self hlt, Option.bind_some]
          exact hrest

/-! ## The index maps of the usual edits -/

theorem relocates_cons (c : RoseTree α) (cs : List (RoseTree α)) :
    Relocates (fun i ↦ some (i + 1)) cs (c :: cs) := by
  intro i d j hi hj
  cases Option.some.inj hj
  rw [List.getElem?_cons_succ]
  exact hi

theorem relocates_append (cs ds : List (RoseTree α)) :
    Relocates some cs (cs ++ ds) := by
  intro i c j hi hj
  cases Option.some.inj hj
  have hlt : i < cs.length := (List.getElem?_eq_some_iff.mp hi).1
  rw [List.getElem?_append_left hlt]
  exact hi

theorem relocates_eraseIdx (k : ℕ) (cs : List (RoseTree α)) :
    Relocates (fun i ↦ if i = k then none else if k < i then some (i - 1) else some i)
      cs (cs.eraseIdx k) := by
  intro i c j hi hj
  rw [List.getElem?_eraseIdx]
  by_cases hik : i = k
  · simp [hik] at hj
  · by_cases hlt : k < i
    · simp only [hik, hlt, if_false, if_true, Option.some.injEq] at hj
      subst hj
      have hpred : i - 1 + 1 = i := by omega
      rw [if_neg (by omega), hpred]
      exact hi
    · simp only [hik, hlt, if_false, Option.some.injEq] at hj
      subst hj
      rw [if_pos (by omega)]
      exact hi

theorem relocates_moveToFront {k : ℕ} {cs : List (RoseTree α)} {c : RoseTree α}
    (hk : cs[k]? = some c) :
    Relocates (fun i ↦ if i = k then some 0 else if i < k then some (i + 1) else some i)
      cs (c :: cs.eraseIdx k) := by
  intro i d j hi hj
  by_cases hik : i = k
  · simp only [hik, if_true, Option.some.injEq] at hj
    subst hj
    rw [hik, hk] at hi
    exact hi
  · by_cases hlt : i < k
    · simp only [hik, hlt, if_false, if_true, Option.some.injEq] at hj
      subst hj
      rw [List.getElem?_cons_succ, List.getElem?_eraseIdx, if_pos hlt]
      exact hi
    · simp only [hik, hlt, if_false, Option.some.injEq] at hj
      subst hj
      have hpred : i - 1 + 1 = i := by omega
      rw [← hpred, List.getElem?_cons_succ, List.getElem?_eraseIdx, if_neg (by omega), hpred]
      exact hi

end RoseTree

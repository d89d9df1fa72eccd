import EnCroissant.Tree.Edits

/-!
# Edits keep the tracked paths on their nodes

Every edit replaces the children of one node and moves them by an index map.
The rebasing functions of the store compute the general rebasing of that map,
so each tracked path names the node it named before, unless that node was
deleted.
-/

namespace EnCroissant

open RoseTree

variable {ι : Type}

/-- The two paths name the same node, with its data untouched. -/
def SameNode (root root' : TreeNode ι) (path path' : List ℕ) : Prop :=
  ∃ data, root.labelAt path = some data ∧ root'.labelAt path' = some data

/-- A path the store may hold names the same node in both trees. -/
def SamePath (root root' : TreeNode ι) : Option (List ℕ) → Option (List ℕ) → Prop
  | none, none => True
  | some path, some path' => SameNode root root' path path'
  | _, _ => False

/-- The tracked paths lead to nodes of the tree. -/
structure TreeState.Tracks (s : TreeState ι) : Prop where
  position : (s.root.nodeAt s.position).isSome
  start : ∀ path, s.headers.start = some path → (s.root.nodeAt path).isSome
  practicePath : ∀ path, s.practicePath = some path → (s.root.nodeAt path).isSome

/-- The repertoire start and the practice path stay on their nodes. -/
structure KeepsStored (s s' : TreeState ι) : Prop where
  start : SamePath s.root s'.root s.headers.start s'.headers.start
  practicePath : SamePath s.root s'.root s.practicePath s'.practicePath

/-- All tracked paths stay on their nodes. -/
structure KeepsTracked (s s' : TreeState ι) : Prop extends KeepsStored s s' where
  position : SameNode s.root s'.root s.position s'.position

theorem isSome_nodeAt_of_labelAt {t : TreeNode ι} {path : List ℕ} {data : NodeData ι}
    (h : t.labelAt path = some data) :
    (t.nodeAt path).isSome := by
  rw [labelAt, Option.map_eq_some_iff] at h
  obtain ⟨n, hn, -⟩ := h
  rw [hn]
  rfl

theorem SameNode.refl {root : TreeNode ι} {path : List ℕ} (h : (root.nodeAt path).isSome) :
    SameNode root root path path := by
  obtain ⟨n, hn⟩ := Option.isSome_iff_exists.mp h
  exact ⟨n.label, labelAt_eq_some hn, labelAt_eq_some hn⟩

theorem SameNode.trans {a b c : TreeNode ι} {p q r : List ℕ}
    (h : SameNode a b p q) (h' : SameNode b c q r) :
    SameNode a c p r := by
  obtain ⟨data, hp, hq⟩ := h
  obtain ⟨data', hq', hr⟩ := h'
  have hdata : data' = data := Option.some.inj (hq'.symm.trans hq)
  subst hdata
  exact ⟨data', hp, hr⟩

theorem SamePath.trans {a b c : TreeNode ι} {p q r : Option (List ℕ)}
    (h : SamePath a b p q) (h' : SamePath b c q r) :
    SamePath a c p r := by
  cases p <;> cases q <;> cases r <;> try trivial
  exact SameNode.trans h h'

theorem samePath_refl {root : TreeNode ι} {path : Option (List ℕ)}
    (h : ∀ p, path = some p → (root.nodeAt p).isSome) :
    SamePath root root path path := by
  cases path with
  | none => trivial
  | some p => exact SameNode.refl (h p rfl)

theorem KeepsTracked.refl {s s' : TreeState ι} (h : s.Tracks) (hroot : s'.root = s.root)
    (htracked : s'.tracked = s.tracked) :
    KeepsTracked s s' := by
  have hposition : s'.position = s.position := congrArg TrackedPaths.position htracked
  have hstart : s'.headers.start = s.headers.start := congrArg TrackedPaths.start htracked
  have hpractice : s'.practicePath = s.practicePath :=
    congrArg TrackedPaths.practicePath htracked
  refine ⟨⟨?_, ?_⟩, ?_⟩
  · rw [hroot, hstart]
    exact samePath_refl h.start
  · rw [hroot, hpractice]
    exact samePath_refl h.practicePath
  · rw [hroot, hposition]
    exact SameNode.refl h.position

theorem KeepsTracked.trans {s₁ s₂ s₃ : TreeState ι}
    (h : KeepsTracked s₁ s₂) (h' : KeepsTracked s₂ s₃) :
    KeepsTracked s₁ s₃ :=
  ⟨⟨h.start.trans h'.start, h.practicePath.trans h'.practicePath⟩,
    h.position.trans h'.position⟩

theorem SamePath.resolves {root root' : TreeNode ι} {path path' : Option (List ℕ)}
    (h : SamePath root root' path path') :
    ∀ p, path' = some p → (root'.nodeAt p).isSome := by
  rintro p rfl
  cases path with
  | none => cases h
  | some q =>
      obtain ⟨data, -, hp⟩ := h
      exact isSome_nodeAt_of_labelAt hp

theorem KeepsTracked.tracks {s s' : TreeState ι} (h : KeepsTracked s s') :
    s'.Tracks := by
  obtain ⟨data, -, hposition⟩ := h.position
  exact ⟨isSome_nodeAt_of_labelAt hposition, h.start.resolves, h.practicePath.resolves⟩

/-! ## The rebasing functions -/

/-- A path is below a node when its index there is defined. -/
theorem below_iff (parent path : List ℕ) :
    (∃ i rest, path = parent ++ i :: rest) ↔
      parent.length < path.length ∧ isPrefix parent path = true := by
  rw [isPrefix_iff]
  constructor
  · rintro ⟨i, rest, rfl⟩
    refine ⟨?_, List.prefix_append _ _⟩
    rw [List.length_append, List.length_cons]
    omega
  · rintro ⟨hlen, tail, rfl⟩
    cases tail with
    | nil => simp at hlen
    | cons i rest => exact ⟨i, rest, rfl⟩

theorem getD_below (parent rest : List ℕ) (i : ℕ) :
    (parent ++ i :: rest).getD parent.length 0 = i := by
  simp

theorem set_below (parent rest : List ℕ) (i j : ℕ) :
    (parent ++ i :: rest).set parent.length j = parent ++ j :: rest := by
  simp

theorem not_below_cond {parent path : List ℕ}
    (h : ¬ ∃ i rest, path = parent ++ i :: rest) :
    (decide (path.length ≤ parent.length) || !isPrefix parent path) = true := by
  rw [below_iff] at h
  by_cases hlen : path.length ≤ parent.length
  · rw [decide_eq_true hlen, Bool.true_or]
  · have houtside : isPrefix parent path = false := by
      rw [Bool.eq_false_iff]
      exact fun hp ↦ h ⟨by omega, hp⟩
    rw [houtside, Bool.not_false, Bool.or_true]

theorem below_cond (parent rest : List ℕ) (i : ℕ) :
    (decide ((parent ++ i :: rest).length ≤ parent.length) ||
      !isPrefix parent (parent ++ i :: rest)) = false := by
  obtain ⟨hlen, hinside⟩ := (below_iff parent (parent ++ i :: rest)).mp ⟨i, rest, rfl⟩
  rw [hinside, Bool.not_true, Bool.or_false]
  exact decide_eq_false (by omega)

theorem rebase_prepend (target parent : List ℕ) :
    rebase (fun i ↦ some (i + 1)) parent target =
      some (rebasePathAfterPrepend target parent) := by
  rw [rebasePathAfterPrepend]
  by_cases h : ∃ i rest, target = parent ++ i :: rest
  · obtain ⟨i, rest, rfl⟩ := h
    rw [below_cond, rebase_append_cons, getD_below, set_below]
    rfl
  · rw [not_below_cond h, rebase_of_not_below _ h]
    rfl

/-- Where promoting the child `v` moves the child `i`. -/
def promoteIndex (v i : ℕ) : Option ℕ :=
  if i = v then some 0 else if i < v then some (i + 1) else some i

theorem rebase_promotion (target parent : List ℕ) (v : ℕ) :
    rebase (promoteIndex v) parent target =
      some (rebasePathAfterPromotion target parent v) := by
  by_cases h : ∃ i rest, target = parent ++ i :: rest
  · obtain ⟨i, rest, rfl⟩ := h
    rw [rebasePathAfterPromotion_append, rebase_append_cons, promoteIndex]
    by_cases hiv : i = v
    · rw [if_pos hiv, if_pos hiv]
      rfl
    · by_cases hlt : i < v
      · rw [if_neg hiv, if_neg hiv, if_pos hlt, if_pos hlt]
        rfl
      · rw [if_neg hiv, if_neg hiv, if_neg hlt, if_neg hlt]
        rfl
  · rw [rebasePathAfterPromotion, not_below_cond h, rebase_of_not_below _ h]
    rfl

/-- Where deleting the child `k` moves the child `i`. -/
def deleteIndex (k i : ℕ) : Option ℕ :=
  if i = k then none else if k < i then some (i - 1) else some i

theorem isPrefix_concat_append (parent rest : List ℕ) (i k : ℕ) :
    isPrefix (parent ++ [k]) (parent ++ i :: rest) = decide (i = k) := by
  rw [Bool.eq_iff_iff, isPrefix_iff, decide_eq_true_iff, List.prefix_append_right_inj,
    List.cons_prefix_cons]
  constructor
  · rintro ⟨rfl, -⟩
    rfl
  · rintro rfl
    exact ⟨rfl, List.nil_prefix⟩

theorem rebase_delete (target parent : List ℕ) (k : ℕ) :
    rebase (deleteIndex k) parent target =
      rebasePathAfterDelete target (parent ++ [k]) := by
  rw [rebasePathAfterDelete]
  by_cases h : ∃ i rest, target = parent ++ i :: rest
  · obtain ⟨i, rest, rfl⟩ := h
    have hlen : (parent ++ [k]).length - 1 = parent.length := by simp
    have hget : (parent ++ [k]).getD parent.length 0 = k := getD_below parent [] k
    have hprefix : isPrefix parent (parent ++ i :: rest) = true :=
      (isPrefix_iff _ _).mpr (List.prefix_append _ _)
    have hlong : (parent ++ i :: rest).length > parent.length := by simp
    rw [isPrefix_concat_append, rebase_append_cons, deleteIndex]
    by_cases hik : i = k
    · simp [hik]
    · simp only [hik, decide_false, Bool.false_eq_true, if_false, hlen, hget, hprefix, hlong,
        getD_below, List.dropLast_concat, decide_true, Bool.true_and, gt_iff_lt, decide_eq_true_eq,
        set_below]
      by_cases hlt : k < i
      · rw [if_pos hlt, if_pos hlt]
        rfl
      · rw [if_neg hlt, if_neg hlt]
        rfl
  · have hnot : isPrefix (parent ++ [k]) target = false := by
      rw [Bool.eq_false_iff]
      intro hp
      obtain ⟨rest, rfl⟩ := (isPrefix_iff _ _).mp hp
      exact h ⟨k, rest, by simp⟩
    have hlen : (parent ++ [k]).length - 1 = parent.length := by simp
    have hcond : (decide (target.length > parent.length) &&
        isPrefix (parent ++ [k]).dropLast target) = false := by
      rw [List.dropLast_concat, Bool.eq_false_iff]
      intro hp
      rw [Bool.and_eq_true, decide_eq_true_iff] at hp
      exact h ((below_iff _ _).mpr hp)
    rw [rebase_of_not_below _ h, hnot]
    simp only [hlen, hcond, Bool.false_and, Bool.false_eq_true, if_false]

/-! ## One edit of the children of a node -/

theorem sameNode_updateChildren {move : ℕ → Option ℕ}
    {f : List (TreeNode ι) → List (TreeNode ι)} {root u : TreeNode ι}
    {parent path path' : List ℕ}
    (hu : root.nodeAt parent = some u) (hf : Relocates move u.children (f u.children))
    (hpath : rebase move parent path = some path') (hvalid : (root.nodeAt path).isSome) :
    SameNode root (root.updateChildren f parent) path path' := by
  obtain ⟨n, hn⟩ := Option.isSome_iff_exists.mp hvalid
  refine ⟨n.label, labelAt_eq_some hn, ?_⟩
  rw [labelAt_updateChildren move hu hf hpath hvalid]
  exact labelAt_eq_some hn

theorem keepsTracked_rebase {s : TreeState ι} {root' : TreeNode ι} {r : List ℕ → List ℕ}
    (fallback : TrackedPaths) (htracks : s.Tracks)
    (h : ∀ path, (s.root.nodeAt path).isSome → SameNode s.root root' path (r path)) :
    KeepsTracked s
      (rebaseTrackedPaths { s with root := root' } (fun target ↦ some (r target)) fallback) := by
  refine ⟨⟨?_, ?_⟩, h _ htracks.position⟩
  · cases hstart : s.headers.start with
    | none =>
        simp only [rebaseTrackedPaths, hstart]
        trivial
    | some start =>
        simp only [rebaseTrackedPaths, hstart, Option.some_or]
        exact h start (htracks.start start hstart)
  · cases hpractice : s.practicePath with
    | none =>
        simp only [rebaseTrackedPaths]
        trivial
    | some path =>
        simp only [rebaseTrackedPaths, Option.some_or]
        exact h path (htracks.practicePath path hpractice)

/-! ## Promoting -/

theorem promoteVariation_keeps {s : TreeState ι} (htracks : s.Tracks) {path : List ℕ}
    (hpath : (s.root.nodeAt path).isSome) :
    ∃ s' path', promoteVariation s path = some (s', path') ∧ KeepsTracked s s' ∧
      SameNode s.root s'.root path path' := by
  rw [promoteVariation]
  cases hi : findLastIndex (· ≠ 0) path with
  | none => exact ⟨s, path, rfl, KeepsTracked.refl htracks rfl rfl, SameNode.refl hpath⟩
  | some i =>
      obtain ⟨v, rest, hsplit, -, hlen⟩ := findLastIndex_eq_some hi
      have hget : path.getD i 0 = v := by
        rw [hsplit, List.getD_append_right _ _ _ _ (le_of_eq hlen), hlen]
        simp
      obtain ⟨n, hn⟩ := Option.isSome_iff_exists.mp hpath
      have hbelow : s.root.nodeAt (path.take i ++ v :: rest) = some n := by
        rw [← hsplit]
        exact hn
      rw [nodeAt_append, Option.bind_eq_some_iff] at hbelow
      obtain ⟨u, hu, hbelow⟩ := hbelow
      rw [nodeAt_cons, Option.bind_eq_some_iff] at hbelow
      obtain ⟨child, hchild, -⟩ := hbelow
      have hdeepest : getNodeAtPath s.root (path.take i) = u := deepest_of_nodeAt hu
      have hsame : ∀ target, (s.root.nodeAt target).isSome →
          SameNode s.root (s.root.updateChildren (child :: ·.eraseIdx v) (path.take i)) target
            (rebasePathAfterPromotion target (path.take i) v) :=
        fun target htarget ↦
          sameNode_updateChildren hu (relocates_moveToFront hchild)
            (rebase_promotion target (path.take i) v) htarget
      simp only [hget, hdeepest, hchild]
      exact ⟨_, _, rfl, keepsTracked_rebase _ htracks hsame, hsame path hpath⟩

theorem promoteAll_keeps {s : TreeState ι} (htracks : s.Tracks) {path : List ℕ}
    (hpath : (s.root.nodeAt path).isSome) :
    ∃ s', promoteAll s path = some s' ∧ KeepsTracked s s' := by
  induction hn : path.countP (· ≠ 0) using Nat.strong_induction_on generalizing s path with
  | _ n ih =>
      rw [promoteAll]
      by_cases hany : path.any (· ≠ 0) = true
      · obtain ⟨s₁, path₁, hstep, hkeeps, hsame⟩ := promoteVariation_keeps htracks hpath
        have hless := promoteVariation_nonzero hstep hany
        obtain ⟨data, -, hdata⟩ := hsame
        obtain ⟨s', hrest, hkeeps'⟩ :=
          ih _ (hn ▸ hless) hkeeps.tracks (isSome_nodeAt_of_labelAt hdata) rfl
        refine ⟨s', ?_, hkeeps.trans hkeeps'⟩
        rw [dif_pos hany]
        split
        · rename_i hnone
          rw [hstep] at hnone
          cases hnone
        · rename_i s₂ path₂ hsome
          rw [hstep] at hsome
          cases hsome
          exact hrest
      · rw [dif_neg hany]
        exact ⟨s, rfl, KeepsTracked.refl htracks rfl rfl⟩

theorem promoteToMainline_keeps {s : TreeState ι} (htracks : s.Tracks) {path : List ℕ}
    (hpath : (s.root.nodeAt path).isSome) :
    ∃ s', promoteToMainline s path = some s' ∧ KeepsTracked s s' := by
  have htracks' : ({ s with dirty := true } : TreeState ι).Tracks :=
    ⟨htracks.position, htracks.start, htracks.practicePath⟩
  obtain ⟨s', hs', hkeeps⟩ := promoteAll_keeps htracks' hpath
  exact ⟨s', hs', ⟨⟨hkeeps.start, hkeeps.practicePath⟩, hkeeps.position⟩⟩

/-! ## Deleting -/

/-- What deleting the node at `deleted` makes of a tracked path: the path of the
same node, or the fallback where the node is gone. -/
def DeletedPath (root root' : TreeNode ι) (deleted : List ℕ) (fallback : Option (List ℕ)) :
    Option (List ℕ) → Option (List ℕ) → Prop
  | none, path' => path' = none
  | some path, path' =>
      if deleted <+: path then path' = fallback else SamePath root root' (some path) path'

/-- The state after deleting the node at `path`. -/
structure Deletes (s s' : TreeState ι) (path : List ℕ) : Prop where
  parent : SameNode s.root s'.root path.dropLast path.dropLast
  position : DeletedPath s.root s'.root path (some path.dropLast) (some s.position)
    (some s'.position)
  start : DeletedPath s.root s'.root path none s.headers.start s'.headers.start
  practicePath : DeletedPath s.root s'.root path (some path.dropLast) s.practicePath
    s'.practicePath

theorem childIndex_of_nodeAt {root n : TreeNode ι} {parent : List ℕ} {k : ℕ}
    (h : root.nodeAt (parent ++ [k]) = some n) :
    childIndex root parent (parent ++ [k]) = some k := by
  have hchild := h
  rw [nodeAt_concat, Option.bind_eq_some_iff] at hchild
  obtain ⟨u, hu, hk⟩ := hchild
  have hlt : k < u.children.length := (List.getElem?_eq_some_iff.mp hk).1
  rw [childIndex, getNodeAtPath, deepest_of_nodeAt hu, inRange_of_nodeAt hu, inRange_of_nodeAt h]
  rw [List.find?_range_eq_some]
  refine ⟨by simp, List.mem_range.mpr hlt, ?_⟩
  intro j hj
  have hne : j ≠ k := by omega
  simp [hne]

theorem childIndex_of_not_nodeAt {root : TreeNode ι} {parent : List ℕ} {k : ℕ}
    (h : root.nodeAt (parent ++ [k]) = none) :
    childIndex root parent (parent ++ [k]) = none := by
  rw [childIndex, List.find?_eq_none]
  intro i _ hi
  rw [beq_iff_eq] at hi
  by_cases hparent : root.inRange parent = parent
  · have hprefix := inRange_prefix root (parent ++ [k])
    rw [← hi, hparent, List.prefix_append_right_inj, List.cons_prefix_cons] at hprefix
    obtain ⟨rfl, -⟩ := hprefix
    have hnode := nodeAt_inRange root (parent ++ [i])
    rw [← hi, hparent, h] at hnode
    cases hnode
  · rw [inRange_append root [k] hparent] at hi
    have hlen := congrArg List.length hi
    simp at hlen

theorem deletedPath_rebase {root root' : TreeNode ι} {deleted : List ℕ}
    (fallback : Option (List ℕ)) {path : List ℕ}
    (h : ∀ path', rebasePathAfterDelete path deleted = some path' →
      SameNode root root' path path') :
    DeletedPath root root' deleted fallback (some path)
      ((rebasePathAfterDelete path deleted).or fallback) := by
  rw [DeletedPath]
  by_cases hprefix : deleted <+: path
  · have hnone : rebasePathAfterDelete path deleted = none := by
      rw [rebasePathAfterDelete, if_pos ((isPrefix_iff _ _).mpr hprefix)]
    rw [if_pos hprefix, hnone, Option.none_or]
  · rw [if_neg hprefix]
    have hnot : ¬ isPrefix deleted path = true := fun hp ↦ hprefix ((isPrefix_iff _ _).mp hp)
    cases hrebased : rebasePathAfterDelete path deleted with
    | none =>
        rw [rebasePathAfterDelete, if_neg hnot] at hrebased
        simp only at hrebased
        split at hrebased <;> cases hrebased
    | some path' =>
        rw [Option.some_or]
        exact h path' hrebased

theorem deleteMove_deletes {s : TreeState ι} (htracks : s.Tracks) {path : List ℕ}
    (hne : path ≠ []) (hpath : (s.root.nodeAt path).isSome) :
    Deletes s (deleteMove s path) path := by
  obtain ⟨n, hn⟩ := Option.isSome_iff_exists.mp hpath
  obtain ⟨parent, k, rfl⟩ := List.eq_nil_or_concat' path |>.resolve_left hne
  have hchild := hn
  rw [nodeAt_concat, Option.bind_eq_some_iff] at hchild
  obtain ⟨u, hu, -⟩ := hchild
  have hsame : ∀ target target', (s.root.nodeAt target).isSome →
      rebasePathAfterDelete target (parent ++ [k]) = some target' →
      SameNode s.root (s.root.updateChildren (·.eraseIdx k) parent) target target' := by
    intro target target' hvalid htarget
    rw [← rebase_delete] at htarget
    exact sameNode_updateChildren hu (relocates_eraseIdx k u.children) htarget hvalid
  have hself : rebase (deleteIndex k) parent parent = some parent := by
    apply rebase_of_not_below
    rintro ⟨i, rest, hself⟩
    simp at hself
  have hparent : SameNode s.root (s.root.updateChildren (·.eraseIdx k) parent) parent parent :=
    sameNode_updateChildren hu (relocates_eraseIdx k u.children) hself (by rw [hu]; rfl)
  rw [deleteMove, if_neg hne, List.dropLast_concat]
  simp only [childIndex_of_nodeAt hn]
  refine ⟨?_, ?_, ?_, ?_⟩
  · rw [List.dropLast_concat]
    exact hparent
  · rw [List.dropLast_concat]
    have hposition := deletedPath_rebase (some parent)
      (hsame s.position · htracks.position)
    rw [Option.or_some] at hposition
    exact hposition
  · cases hstart : s.headers.start with
    | none =>
        simp only [rebaseTrackedPaths, hstart]
        rfl
    | some start =>
        simp only [rebaseTrackedPaths, hstart]
        exact deletedPath_rebase none (hsame start · (htracks.start start hstart))
  · rw [List.dropLast_concat]
    cases hpractice : s.practicePath with
    | none =>
        simp only [rebaseTrackedPaths]
        rfl
    | some practice =>
        simp only [rebaseTrackedPaths]
        exact deletedPath_rebase (some parent)
          (hsame practice · (htracks.practicePath practice hpractice))

theorem deleteMove_of_unresolved {s : TreeState ι} {path : List ℕ}
    (h : path = [] ∨ s.root.nodeAt path = none) :
    deleteMove s path = s := by
  by_cases hne : path = []
  · rw [deleteMove, if_pos hne]
  · obtain ⟨parent, k, rfl⟩ := List.eq_nil_or_concat' path |>.resolve_left hne
    rw [deleteMove, if_neg hne, List.dropLast_concat]
    simp only [childIndex_of_not_nodeAt (h.resolve_left hne)]

theorem Deletes.tracks {s s' : TreeState ι} {path : List ℕ} (h : Deletes s s' path) :
    s'.Tracks := by
  obtain ⟨data, -, hparent⟩ := h.parent
  have hresolves := isSome_nodeAt_of_labelAt hparent
  have hfallback : ∀ p, some path.dropLast = some p → (s'.root.nodeAt p).isSome := by
    rintro p hp
    cases hp
    exact hresolves
  have hdeleted : ∀ {fallback p q : Option (List ℕ)},
      (∀ r, fallback = some r → (s'.root.nodeAt r).isSome) →
      DeletedPath s.root s'.root path fallback p q →
      ∀ r, q = some r → (s'.root.nodeAt r).isSome := by
    intro fallback p q hfall hpq r hr
    cases p with
    | none =>
        rw [DeletedPath] at hpq
        rw [hpq] at hr
        cases hr
    | some p =>
        rw [DeletedPath] at hpq
        by_cases hprefix : path <+: p
        · rw [if_pos hprefix] at hpq
          exact hfall r (hpq.symm.trans hr)
        · rw [if_neg hprefix] at hpq
          exact hpq.resolves r hr
  exact ⟨hdeleted hfallback h.position _ rfl, hdeleted (fun r hr ↦ by cases hr) h.start,
    hdeleted hfallback h.practicePath⟩

/-! ## Playing a move -/

variable (C : Chessops)

/-- The cursor leads to the node of the move `san`, below the node the move was
played at. -/
def OnMove (s s' : TreeState ι) (position : List ℕ) (san : Text) : Prop :=
  SameNode s.root s'.root position position ∧
    ∃ i data, s'.position = position ++ [i] ∧ s'.root.labelAt s'.position = some data ∧
      data.san = some san

/-- The state after a move: only the cursor moves, and only to the move. -/
structure Plays (s s' : TreeState ι) (args : MoveArgs) : Prop extends KeepsStored s s' where
  illegal : playedSan C s args = none → s' = s
  stays : args.changePosition = false → SameNode s.root s'.root s.position s'.position
  moves : ∀ san, playedSan C s args = some san → args.changePosition = true →
    OnMove s s' (args.position s) san

theorem nodeAt_mainLineEnd (root : TreeNode ι) :
    ∃ n, root.nodeAt (mainLineEnd root) = some n ∧ n.children = [] := by
  induction root using mainLineEnd.induct with
  | case1 data => exact ⟨_, by rw [mainLineEnd, nodeAt_nil], rfl⟩
  | case2 data c cs ih =>
      obtain ⟨n, hn, hleaf⟩ := ih
      refine ⟨n, ?_, hleaf⟩
      rw [mainLineEnd, nodeAt_cons, children_node]
      exact hn

theorem nodeAt_position {s : TreeState ι} (htracks : s.Tracks) (args : MoveArgs) :
    ∃ u, s.root.nodeAt (args.position s) = some u ∧
      (args.last = true → u.children = []) := by
  rw [MoveArgs.position]
  by_cases hlast : args.last = true
  · rw [if_pos hlast]
    obtain ⟨u, hu, hleaf⟩ := nodeAt_mainLineEnd s.root
    exact ⟨u, hu, fun _ ↦ hleaf⟩
  · rw [if_neg hlast]
    obtain ⟨u, hu⟩ := Option.isSome_iff_exists.mp htracks.position
    exact ⟨u, hu, fun h ↦ absurd h hlast⟩

theorem not_below_self (p : List ℕ) : ¬ ∃ i rest, p = p ++ i :: rest := by
  rintro ⟨i, rest, hself⟩
  simp at hself

theorem labelAt_child {root u c : TreeNode ι} {parent : List ℕ} {i : ℕ}
    (hu : root.nodeAt parent = some u) (hc : u.children[i]? = some c) :
    root.labelAt (parent ++ [i]) = some c.label := by
  apply labelAt_eq_some
  rw [nodeAt_concat, hu, Option.bind_some]
  exact hc

theorem existingIndex_spec {u : TreeNode ι} {san : Text} {i : ℕ}
    (h : existingIndex u san = some i) :
    ∃ c, u.children[i]? = some c ∧ c.label.san = some san := by
  rw [existingIndex, List.findIdx?_eq_some_iff_getElem] at h
  obtain ⟨hi, hsan, -⟩ := h
  rw [beq_iff_eq] at hsan
  exact ⟨_, List.getElem?_eq_getElem hi, hsan⟩

/-- The index a new child gets. -/
def newIndex (args : MoveArgs) (u : TreeNode ι) : ℕ :=
  if args.mainline then 0 else u.children.length

/-- What adding a child does: every tracked path stays on its node, and the
child stands below the node the move is played at. -/
structure Inserts (s s' : TreeState ι) (args : MoveArgs) (node : TreeNode ι) : Prop extends
    KeepsTracked s s' where
  parent : SameNode s.root s'.root (args.position s) (args.position s)
  cursor : args.last = false → s'.position = s.position
  child : ∀ u, s.root.nodeAt (args.position s) = some u →
    ∃ u', s'.root.nodeAt (args.position s) = some u' ∧
      u'.children.length = u.children.length + 1 ∧
      u'.children[newIndex args u]? = some node

theorem insertChild_front {s : TreeState ι} (htracks : s.Tracks) {args : MoveArgs}
    (hmainline : args.mainline = true) (node : TreeNode ι) :
    Inserts s (insertChild s args (args.position s) node) args node := by
  obtain ⟨u, hu, -⟩ := nodeAt_position htracks args
  have hsame : ∀ path, (s.root.nodeAt path).isSome →
      SameNode s.root (s.root.updateChildren (node :: ·) (args.position s)) path
        (rebasePathAfterPrepend path (args.position s)) :=
    fun path hpath ↦
      sameNode_updateChildren hu (relocates_cons node u.children)
        (rebase_prepend path (args.position s)) hpath
  have hself : rebasePathAfterPrepend (args.position s) (args.position s) =
      args.position s := by
    rw [rebasePathAfterPrepend, not_below_cond (not_below_self _), if_pos rfl]
  have hkeeps := keepsTracked_rebase s.tracked htracks hsame
  rw [insertChild, if_pos hmainline]
  refine ⟨⟨⟨hkeeps.start, hkeeps.practicePath⟩, hkeeps.position⟩, ?_, ?_, ?_⟩
  · have hparent := hsame (args.position s) (by rw [hu]; rfl)
    rw [hself] at hparent
    exact hparent
  · intro hlast
    have hposition : args.position s = s.position := by
      rw [MoveArgs.position, hlast]
      rfl
    rw [hposition] at hself ⊢
    exact hself
  · intro v hv
    have huv : u = v := Option.some.inj (hu.symm.trans hv)
    subst huv
    refine ⟨_, nodeAt_updateChildren_self hu, ?_, ?_⟩
    · rw [children_node, List.length_cons]
    · rw [newIndex, if_pos hmainline]
      rfl

theorem insertChild_back {s : TreeState ι} (htracks : s.Tracks) {args : MoveArgs}
    (hmainline : args.mainline = false) (node : TreeNode ι) :
    Inserts s (insertChild s args (args.position s) node) args node := by
  obtain ⟨u, hu, -⟩ := nodeAt_position htracks args
  have hrebase : ∀ path, rebase some (args.position s) path = some path := by
    intro path
    by_cases h : ∃ i rest, path = args.position s ++ i :: rest
    · obtain ⟨i, rest, hpath⟩ := h
      rw [hpath, rebase_append_cons]
      rfl
    · exact rebase_of_not_below some h
  have hsame : ∀ path, (s.root.nodeAt path).isSome →
      SameNode s.root (s.root.updateChildren (· ++ [node]) (args.position s)) path path :=
    fun path hpath ↦
      sameNode_updateChildren hu (relocates_append u.children [node]) (hrebase path) hpath
  have hnode : (s.root.updateChildren (· ++ [node]) (args.position s)).nodeAt
      (args.position s) = some (.node u.label (u.children ++ [node])) :=
    nodeAt_updateChildren_self hu
  have hstored : ∀ stored : Option (List ℕ),
      (∀ path, stored = some path → (s.root.nodeAt path).isSome) →
      SamePath s.root (s.root.updateChildren (· ++ [node]) (args.position s)) stored stored := by
    intro stored hvalid
    cases stored with
    | none => trivial
    | some path => exact hsame path (hvalid path rfl)
  rw [insertChild, if_neg (by rw [hmainline]; decide)]
  refine ⟨⟨⟨hstored _ htracks.start, hstored _ htracks.practicePath⟩,
    hsame _ htracks.position⟩, hsame _ (by rw [hu]; rfl), fun _ ↦ rfl, ?_⟩
  intro v hv
  have huv : u = v := Option.some.inj (hu.symm.trans hv)
  subst huv
  refine ⟨_, hnode, ?_, ?_⟩
  · rw [children_node, List.length_append, List.length_singleton]
  · rw [newIndex, hmainline, children_node]
    exact List.getElem?_concat_length

theorem insertMove_plays {s : TreeState ι} (htracks : s.Tracks) (args : MoveArgs)
    (node : TreeNode ι) {san : Text} (hsan : node.label.san = some san) :
    let s' := insertMove s args (args.position s) node
    KeepsStored s s' ∧
      (args.changePosition = false → SameNode s.root s'.root s.position s'.position) ∧
      (args.changePosition = true → OnMove s s' (args.position s) san) := by
  intro s'
  have hinserts : Inserts s (insertChild s args (args.position s) node) args node := by
    cases hmainline : args.mainline with
    | true => exact insertChild_front htracks hmainline node
    | false => exact insertChild_back htracks hmainline node
  obtain ⟨u, hu, hleaf⟩ := nodeAt_position htracks args
  obtain ⟨u', hu', hcount, hchild⟩ := hinserts.child u hu
  have hdeepest : getNodeAtPath (insertChild s args (args.position s) node).root
      (args.position s) = u' := deepest_of_nodeAt hu'
  cases hchange : args.changePosition with
  | false =>
      have hs' : s' = insertChild s args (args.position s) node := by
        simp only [s', insertMove, hchange, Bool.false_eq_true, if_false]
      rw [hs']
      exact ⟨hinserts.toKeepsStored, fun _ ↦ hinserts.position, fun h ↦ by cases h⟩
  | true =>
      have hs' : s' = { insertChild s args (args.position s) node with
          position := args.position s ++ [newIndex args u] } := by
        simp only [s', insertMove, hchange, if_true, hdeepest, hcount, Nat.add_sub_cancel]
        congr 1
        cases hlast : args.last with
        | true =>
            rw [if_pos rfl, newIndex, hleaf hlast]
            cases args.mainline <;> rfl
        | false =>
            have hposition : args.position s = s.position := by
              rw [MoveArgs.position, hlast]
              rfl
            rw [if_neg (by decide), hinserts.cursor hlast, hposition]
            rfl
      rw [hs']
      refine ⟨⟨hinserts.start, hinserts.practicePath⟩, (fun h ↦ by cases h), fun _ ↦ ?_⟩
      exact ⟨hinserts.parent, _, node.label, rfl, labelAt_child hu' hchild, hsan⟩

theorem TreeState.Tracks.withResult {s : TreeState ι} (htracks : s.Tracks)
    (result : Outcome) :
    (s.withResult result).Tracks :=
  ⟨htracks.position, htracks.start, htracks.practicePath⟩

theorem makeMove_plays {s : TreeState ι} (htracks : s.Tracks) (fresh : ι) (args : MoveArgs) :
    Plays C s (makeMove C fresh s args) args := by
  obtain ⟨u, hu, -⟩ := nodeAt_position htracks args
  have hdeepest : getNodeAtPath s.root (args.position s) = u := deepest_of_nodeAt hu
  have hsame : KeepsTracked s s := KeepsTracked.refl htracks rfl rfl
  have hparent : SameNode s.root s.root (args.position s) (args.position s) :=
    SameNode.refl (by rw [hu]; rfl)
  rcases makeMove_cases C fresh s args with
    ⟨hsan, hs'⟩ | ⟨pos, result, -, -, hsan, ⟨i, hi, hs'⟩ | hs'⟩
  · rw [hs']
    refine ⟨hsame.toKeepsStored, fun _ ↦ rfl, fun _ ↦ hsame.position, ?_⟩
    intro san hplayed
    rw [hsan] at hplayed
    cases hplayed
  · rw [hdeepest] at hi
    obtain ⟨c, hc, hcsan⟩ := existingIndex_spec hi
    have hillegal : playedSan C s args = none → makeMove C fresh s args = s := by
      intro hnone
      rw [hsan] at hnone
      cases hnone
    cases hchange : args.changePosition with
    | false =>
        rw [hchange] at hs'
        simp only [Bool.false_eq_true, if_false] at hs'
        rw [hs'] at hillegal ⊢
        refine ⟨⟨hsame.start, hsame.practicePath⟩, hillegal, fun _ ↦ hsame.position, ?_⟩
        intro san _ hmoves
        rw [hchange] at hmoves
        cases hmoves
    | true =>
        rw [hchange] at hs'
        simp only [if_true] at hs'
        rw [hs'] at hillegal ⊢
        refine ⟨⟨hsame.start, hsame.practicePath⟩, hillegal, fun hstays ↦ ?_, ?_⟩
        · rw [hchange] at hstays
          cases hstays
        · intro san hplayed _
          rw [hsan] at hplayed
          cases hplayed
          exact ⟨hparent, i, c.label, rfl, labelAt_child hu hc, hcsan⟩
  · have hplays := insertMove_plays (htracks.withResult result) args
      (moveChild C fresh (getNodeAtPath s.root (args.position s)).label pos args) rfl
    have hillegal : playedSan C s args = none → makeMove C fresh s args = s := by
      intro hnone
      rw [hsan] at hnone
      cases hnone
    rw [hs'] at hillegal ⊢
    obtain ⟨hstored, hstays, hmoves⟩ := hplays
    refine ⟨⟨hstored.start, hstored.practicePath⟩, hillegal, hstays, ?_⟩
    intro san hplayed hchange
    rw [hsan] at hplayed
    cases hplayed
    exact hmoves hchange

/-- Every edit keeps the tracked paths on their nodes: playing a move only moves
the cursor to the move, promoting moves nothing, and deleting a node sends the
paths into it to their fallbacks. -/
theorem edits_keep_tracked_paths
    (s : TreeState ι) (htracks : s.Tracks) :
    (∀ fresh args, Plays C s (makeMove C fresh s args) args) ∧
      (∀ path, (s.root.nodeAt path).isSome →
        ∃ s' path', promoteVariation s path = some (s', path') ∧ KeepsTracked s s' ∧
          SameNode s.root s'.root path path') ∧
      (∀ path, (s.root.nodeAt path).isSome →
        ∃ s', promoteToMainline s path = some s' ∧ KeepsTracked s s') ∧
      (∀ path, path ≠ [] → (s.root.nodeAt path).isSome →
        Deletes s (deleteMove s path) path ∧ (deleteMove s path).Tracks) ∧
      ∀ path, path = [] ∨ s.root.nodeAt path = none → deleteMove s path = s := by
  refine ⟨fun fresh args ↦ makeMove_plays C htracks fresh args,
    fun path hpath ↦ promoteVariation_keeps htracks hpath,
    fun path hpath ↦ promoteToMainline_keeps htracks hpath, ?_,
    fun path hpath ↦ deleteMove_of_unresolved hpath⟩
  intro path hne hpath
  have hdeletes := deleteMove_deletes htracks hne hpath
  exact ⟨hdeletes, hdeletes.tracks⟩

namespace KingPawn

/-- The tree of `1. e4 (1. d4) e5`, with its nodes numbered. -/
def tree : TreeNode ℕ :=
  .node (rootData chessops 0 initialFen)
    [.node (createNode 1 Game.kingPawn.fen e4 "e4".toList 1 none).label
      [createNode 2 Game.openGame.fen e5 "e5".toList 2 none],
      createNode 3 Game.queenPawn.fen d4 "d4".toList 1 none]

def state : TreeState ℕ :=
  { defaultTree chessops 0 initialFen with
    root := tree
    headers := { fen := initialFen, result := .unknown, start := some [0], termination := none }
    position := [0, 0]
    practicePath := some [1] }

theorem tracks_state : state.Tracks := by
  refine ⟨rfl, ?_, ?_⟩
  · intro path hpath
    cases hpath
    rfl
  · intro path hpath
    cases hpath
    rfl

theorem edits_keep_tracked_paths_state :
    (∃ s' path', promoteVariation state [1] = some (s', path') ∧ KeepsTracked state s' ∧
        SameNode state.root s'.root [1] path') ∧
      Deletes state (deleteMove state [0]) [0] :=
  have hkeeps := edits_keep_tracked_paths chessops state tracks_state
  ⟨hkeeps.2.1 [1] rfl, (hkeeps.2.2.2.1 [0] (by decide) rfl).1⟩

example : (deleteMove state [0]).tracked = ⟨[], none, some [0]⟩ := by
  rfl

end KingPawn

end EnCroissant

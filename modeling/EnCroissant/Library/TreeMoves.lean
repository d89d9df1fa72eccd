import EnCroissant.Library.RoseTree

/-!
# Rearranged trees

A map of paths says where the nodes of a tree have gone.  A rearrangement loses,
doubles and changes no node and keeps every node under its parent; siblings that
are not exempt keep their order.
-/

namespace RoseTree

variable {α : Type*}

structure Rearranges (t t' : RoseTree α) (move : List ℕ → List ℕ) (exempt : List ℕ → Prop) :
    Prop where
  root : move [] = []
  label : ∀ {p}, (t.nodeAt p).isSome → t'.labelAt (move p) = t.labelAt p
  injective : ∀ {p q}, (t.nodeAt p).isSome → (t.nodeAt q).isSome → move p = move q → p = q
  surjective : ∀ {q}, (t'.nodeAt q).isSome → ∃ p, (t.nodeAt p).isSome ∧ move p = q
  parent : ∀ {p i}, (t.nodeAt (p ++ [i])).isSome → ∃ j, move (p ++ [i]) = move p ++ [j]
  order : ∀ {p i j i' j'}, (t.nodeAt (p ++ [i])).isSome → (t.nodeAt (p ++ [j])).isSome →
    ¬exempt (p ++ [i]) → ¬exempt (p ++ [j]) → move (p ++ [i]) = move p ++ [i'] →
      move (p ++ [j]) = move p ++ [j'] → i < j → i' < j'

theorem isSome_of_labelAt {t : RoseTree α} {p : List ℕ} {a : α} (h : t.labelAt p = some a) :
    (t.nodeAt p).isSome := by
  rw [labelAt, Option.map_eq_some_iff] at h
  obtain ⟨u, hu, -⟩ := h
  rw [hu]
  rfl

namespace Rearranges

variable {t t' t'' : RoseTree α} {move move' : List ℕ → List ℕ} {exempt exempt' : List ℕ → Prop}

theorem isSome (h : Rearranges t t' move exempt) {p : List ℕ} (hp : (t.nodeAt p).isSome) :
    (t'.nodeAt (move p)).isSome := by
  obtain ⟨u, hu⟩ := Option.isSome_iff_exists.mp hp
  exact isSome_of_labelAt ((h.label hp).trans (labelAt_eq_some hu))

theorem refl (t : RoseTree α) (exempt : List ℕ → Prop) : Rearranges t t id exempt where
  root := rfl
  label _ := rfl
  injective _ _ h := h
  surjective hq := ⟨_, hq, rfl⟩
  parent _ := ⟨_, rfl⟩
  order := by
    intro p i j i' j' _ _ _ _ hi hj hlt
    obtain rfl : i = i' := by simpa using hi
    obtain rfl : j = j' := by simpa using hj
    exact hlt

theorem trans (h : Rearranges t t' move exempt) (h' : Rearranges t' t'' move' exempt') :
    Rearranges t t'' (move' ∘ move) fun p ↦ exempt p ∨ exempt' (move p) where
  root := by rw [Function.comp_apply, h.root, h'.root]
  label hp := (h'.label (h.isSome hp)).trans (h.label hp)
  injective hp hq heq := h.injective hp hq (h'.injective (h.isSome hp) (h.isSome hq) heq)
  surjective hq := by
    obtain ⟨r, hr, rfl⟩ := h'.surjective hq
    obtain ⟨p, hp, rfl⟩ := h.surjective hr
    exact ⟨p, hp, rfl⟩
  parent := by
    intro p i hp
    obtain ⟨j, hj⟩ := h.parent hp
    have hmoved := h.isSome hp
    rw [hj] at hmoved
    obtain ⟨k, hk⟩ := h'.parent hmoved
    exact ⟨k, by rw [Function.comp_apply, hj, hk, Function.comp_apply]⟩
  order := by
    intro p i j i' j' hpi hpj hi hj hmi hmj hlt
    obtain ⟨k, hk⟩ := h.parent hpi
    obtain ⟨l, hl⟩ := h.parent hpj
    have hkl := h.order hpi hpj (mt Or.inl hi) (mt Or.inl hj) hk hl hlt
    have hmk := h.isSome hpi
    have hml := h.isSome hpj
    rw [Function.comp_apply, hk] at hmi
    rw [Function.comp_apply, hl] at hmj
    rw [hk] at hi hmk
    rw [hl] at hj hml
    exact h'.order hmk hml (mt Or.inr hi) (mt Or.inr hj) hmi hmj hkl

theorem mono (h : Rearranges t t' move exempt)
    (hexempt : ∀ p, (t.nodeAt p).isSome → exempt p → exempt' p) :
    Rearranges t t' move exempt' :=
  ⟨h.root, h.label, h.injective, h.surjective, h.parent, fun hpi hpj hi hj ↦
    h.order hpi hpj (mt (hexempt _ hpi) hi) (mt (hexempt _ hpj) hj)⟩

end Rearranges

/-! ## Paths through a rearranged tree -/

namespace Rearranges

variable {t t' : RoseTree α} {move : List ℕ → List ℕ} {exempt : List ℕ → Prop}

theorem length_eq (h : Rearranges t t' move exempt) {p : List ℕ} (hp : (t.nodeAt p).isSome) :
    (move p).length = p.length := by
  induction p using List.reverseRecOn with
  | nil => rw [h.root]
  | append_singleton p i ih =>
      obtain ⟨u, hu⟩ := Option.isSome_iff_exists.mp hp
      obtain ⟨v, hv⟩ := nodeAt_of_prefix hu (List.prefix_append p [i])
      obtain ⟨j, hj⟩ := h.parent hp
      rw [hj, List.length_append, List.length_append, ih (by rw [hv]; rfl)]
      rfl

theorem take_eq (h : Rearranges t t' move exempt) {p : List ℕ} (hp : (t.nodeAt p).isSome) (n : ℕ) :
    move (p.take n) = (move p).take n := by
  induction p using List.reverseRecOn with
  | nil => rw [List.take_nil, h.root, List.take_nil]
  | append_singleton p i ih =>
      obtain ⟨u, hu⟩ := Option.isSome_iff_exists.mp hp
      obtain ⟨v, hv⟩ := nodeAt_of_prefix hu (List.prefix_append p [i])
      have hpSome : (t.nodeAt p).isSome := by
        rw [hv]
        rfl
      obtain ⟨j, hj⟩ := h.parent hp
      by_cases hn : n ≤ p.length
      · have hn' : n ≤ (move p).length := by rwa [h.length_eq hpSome]
        rw [List.take_append_of_le_length hn, hj, List.take_append_of_le_length hn', ih hpSome]
      · have hlength := h.length_eq hp
        rw [List.take_of_length_le (by simp; omega), List.take_of_length_le]
        rw [hlength, List.length_append, List.length_singleton]
        omega

end Rearranges

/-! ## Moving the children of one node -/

variable {move : ℕ → Option ℕ} {t u : RoseTree α} {parent : List ℕ}

theorem rebase_concat (move : ℕ → Option ℕ) (parent p : List ℕ) (i : ℕ) :
    rebase move parent (p ++ [i]) =
      if p = parent then (move i).map (fun j ↦ p ++ [j])
      else (rebase move parent p).map (· ++ [i]) := by
  by_cases hp : p = parent
  · subst hp
    rw [if_pos rfl, rebase_append_cons]
  · rw [if_neg hp]
    by_cases hbelow : ∃ j rest, p = parent ++ j :: rest
    · obtain ⟨j, rest, rfl⟩ := hbelow
      rw [List.append_assoc, List.cons_append, rebase_append_cons, rebase_append_cons,
        Option.map_map]
      congr 1
      funext k
      simp
    · have hbelow' : ¬∃ j rest, p ++ [i] = parent ++ j :: rest := by
        rintro ⟨j, rest, heq⟩
        rcases List.eq_nil_or_concat' rest with rfl | ⟨front, last, rfl⟩
        · exact hp (List.append_inj' heq rfl).1
        · rw [← List.cons_append, ← List.append_assoc] at heq
          exact hbelow ⟨j, front, (List.append_inj' heq rfl).1⟩
      rw [rebase_of_not_below move hbelow, rebase_of_not_below move hbelow']
      rfl

theorem rebase_injective (hmove : ∀ {i j k}, move i = some k → move j = some k → i = j)
    {parent p q r : List ℕ} (hp : rebase move parent p = some r)
    (hq : rebase move parent q = some r) : p = q := by
  induction parent generalizing p q r with
  | nil =>
      cases p with
      | nil =>
          cases q with
          | nil => rfl
          | cons j q =>
              simp only [rebase, Option.some.injEq] at hp
              subst hp
              simp [rebase] at hq
      | cons i p =>
          rw [rebase, Option.map_eq_some_iff] at hp
          obtain ⟨k, hk, rfl⟩ := hp
          cases q with
          | nil => simp [rebase] at hq
          | cons j q =>
              rw [rebase, Option.map_eq_some_iff] at hq
              obtain ⟨l, hl, heq⟩ := hq
              obtain ⟨rfl, rfl⟩ := List.cons.inj heq
              rw [hmove hk hl]
  | cons a parent ih =>
      cases p with
      | nil =>
          rw [rebase] at hp
          obtain rfl := Option.some.inj hp
          cases q with
          | nil => rfl
          | cons j q =>
              rw [rebase] at hq
              split_ifs at hq <;> simp at hq
      | cons i p =>
          cases q with
          | nil =>
              simp only [rebase, Option.some.injEq] at hq
              subst hq
              rw [rebase] at hp
              split_ifs at hp <;> simp at hp
          | cons j q =>
              rw [rebase] at hp hq
              by_cases hai : a = i
              · rw [if_pos hai, Option.map_eq_some_iff] at hp
                obtain ⟨p', hp', rfl⟩ := hp
                by_cases haj : a = j
                · rw [if_pos haj, Option.map_eq_some_iff] at hq
                  obtain ⟨q', hq', heq⟩ := hq
                  obtain ⟨rfl, rfl⟩ := List.cons.inj heq
                  rw [ih hp' hq']
                · rw [if_neg haj] at hq
                  obtain ⟨rfl, -⟩ := List.cons.inj (Option.some.inj hq)
                  exact absurd hai haj
              · rw [if_neg hai] at hp
                obtain rfl := Option.some.inj hp
                by_cases haj : a = j
                · rw [if_pos haj, Option.map_eq_some_iff] at hq
                  obtain ⟨q', hq', heq⟩ := hq
                  obtain ⟨rfl, -⟩ := List.cons.inj heq
                  exact absurd haj hai
                · rw [if_neg haj] at hq
                  exact (Option.some.inj hq).symm

/-- Replaced children do not change which paths beside them are in range. -/
theorem nodeAt_updateChildren_of_not_below {f : List (RoseTree α) → List (RoseTree α)}
    (hu : t.nodeAt parent = some u) {q : List ℕ} (hq : ¬∃ j rest, q = parent ++ j :: rest) :
    ((updateChildren f parent t).nodeAt q).isSome = (t.nodeAt q).isSome := by
  induction parent generalizing t q with
  | nil =>
      cases q with
      | nil => rw [nodeAt_nil, nodeAt_nil]; rfl
      | cons j rest => exact absurd ⟨j, rest, rfl⟩ hq
  | cons a parent ih =>
      rw [nodeAt_cons] at hu
      cases hc : t.children[a]? with
      | none => simp [hc] at hu
      | some c =>
          rw [hc, Option.bind_some] at hu
          have hupdate : updateChildren f (a :: parent) t =
              node t.label (t.children.set a (updateChildren f parent c)) := by
            rw [updateChildren, updateAt, hc]
          rw [hupdate]
          cases q with
          | nil => rw [nodeAt_nil, nodeAt_nil]; rfl
          | cons i rest =>
              rw [nodeAt_cons, nodeAt_cons, children_node]
              by_cases hai : a = i
              · subst hai
                have hlt : a < t.children.length := (List.getElem?_eq_some_iff.mp hc).1
                have hrest : ¬∃ j tail, rest = parent ++ j :: tail := by
                  rintro ⟨j, tail, rfl⟩
                  exact hq ⟨j, tail, rfl⟩
                rw [List.getElem?_set_self hlt, hc, Option.bind_some, Option.bind_some]
                exact ih hu hrest
              · rw [List.getElem?_set_ne hai]

/-- A permutation of the children of one node rearranges the tree. -/
theorem rearranges_updateChildren {f : List (RoseTree α) → List (RoseTree α)}
    {σ : ℕ → ℕ} {exempt : List ℕ → Prop} (hu : t.nodeAt parent = some u)
    (hf : Relocates (fun i ↦ some (σ i)) u.children (f u.children))
    (hinjective : Function.Injective σ)
    (hsurjective : ∀ j < (f u.children).length, ∃ i < u.children.length, σ i = j)
    (horder : ∀ {i j}, ¬exempt (parent ++ [i]) → ¬exempt (parent ++ [j]) → i < j → σ i < σ j) :
    Rearranges t (updateChildren f parent t)
      (fun p ↦ (rebase (fun i ↦ some (σ i)) parent p).getD p) exempt := by
  have hsome : ∀ p, ∃ r, rebase (fun i ↦ some (σ i)) parent p = some r := by
    intro p
    by_cases hbelow : ∃ i rest, p = parent ++ i :: rest
    · obtain ⟨i, rest, rfl⟩ := hbelow
      exact ⟨_, rebase_append_cons _ parent i rest⟩
    · exact ⟨p, rebase_of_not_below _ hbelow⟩
  have hconcat : ∀ p i, (rebase (fun i ↦ some (σ i)) parent (p ++ [i])).getD (p ++ [i]) =
      (rebase (fun i ↦ some (σ i)) parent p).getD p ++ [if p = parent then σ i else i] := by
    intro p i
    rw [rebase_concat]
    by_cases hp : p = parent
    · subst hp
      have hself : ¬∃ j rest, p = p ++ j :: rest := by
        rintro ⟨j, rest, heq⟩
        simpa using congrArg List.length heq
      rw [if_pos rfl, if_pos rfl, rebase_of_not_below _ hself]
      rfl
    · obtain ⟨r, hr⟩ := hsome p
      rw [if_neg hp, if_neg hp, hr]
      rfl
  refine ⟨?_, ?_, ?_, ?_, ?_, ?_⟩
  · have hroot : ¬∃ i rest, ([] : List ℕ) = parent ++ i :: rest := by
      rintro ⟨i, rest, heq⟩
      simpa using congrArg List.length heq
    rw [rebase_of_not_below _ hroot]
    rfl
  · intro p hp
    obtain ⟨r, hr⟩ := hsome p
    rw [hr]
    exact labelAt_updateChildren _ hu hf hr hp
  · intro p q _ _ heq
    obtain ⟨r, hr⟩ := hsome p
    obtain ⟨r', hr'⟩ := hsome q
    rw [hr, hr'] at heq
    obtain rfl : r = r' := heq
    refine rebase_injective (fun {i j k} hi hj ↦ hinjective ?_) hr hr'
    exact (Option.some.inj hi).trans (Option.some.inj hj).symm
  · intro q hq
    by_cases hbelow : ∃ j rest, q = parent ++ j :: rest
    · obtain ⟨j, rest, rfl⟩ := hbelow
      rw [nodeAt_append, nodeAt_updateChildren_self hu, Option.bind_some, nodeAt_cons,
        children_node] at hq
      cases hc : (f u.children)[j]? with
      | none => simp [hc] at hq
      | some c =>
          rw [hc, Option.bind_some] at hq
          obtain ⟨hj, -⟩ := List.getElem?_eq_some_iff.mp hc
          obtain ⟨i, hi, rfl⟩ := hsurjective j hj
          have hi' := List.getElem?_eq_getElem hi
          have hmoved := hf i _ _ hi' rfl
          rw [hc] at hmoved
          refine ⟨parent ++ i :: rest, ?_, by rw [rebase_append_cons]; rfl⟩
          rw [nodeAt_append, hu, Option.bind_some, nodeAt_cons, hi', Option.bind_some,
            ← Option.some.inj hmoved]
          exact hq
    · refine ⟨q, ?_, by rw [rebase_of_not_below _ hbelow]; rfl⟩
      rwa [nodeAt_updateChildren_of_not_below hu hbelow] at hq
  · intro p i _
    exact ⟨_, hconcat p i⟩
  · intro p i j i' j' _ _ hi hj hmi hmj hlt
    rw [hconcat] at hmi hmj
    obtain rfl : (if p = parent then σ i else i) = i' := by simpa using hmi
    obtain rfl : (if p = parent then σ j else j) = j' := by simpa using hmj
    by_cases hp : p = parent
    · subst hp
      rw [if_pos rfl, if_pos rfl]
      exact horder hi hj hlt
    · rw [if_neg hp, if_neg hp]
      exact hlt

/-- Where the children are when the child `v` is moved in front of them. -/
def frontIndex (v i : ℕ) : ℕ :=
  if i = v then 0 else if i < v then i + 1 else i

theorem frontIndex_injective (v : ℕ) : Function.Injective (frontIndex v) := by
  intro i j h
  simp only [frontIndex] at h
  split_ifs at h <;> omega

/-- A child that is moved in front of its siblings is the only one that is exempt. -/
theorem rearranges_moveToFront {v : ℕ} {c : RoseTree α} (hu : t.nodeAt parent = some u)
    (hv : u.children[v]? = some c) :
    Rearranges t (updateChildren (c :: ·.eraseIdx v) parent t)
      (fun p ↦ (rebase (fun i ↦ some (frontIndex v i)) parent p).getD p)
      (· = parent ++ [v]) := by
  obtain ⟨hlt, -⟩ := List.getElem?_eq_some_iff.mp hv
  have hf : Relocates (fun i ↦ some (frontIndex v i)) u.children (c :: u.children.eraseIdx v) := by
    intro i d j hi hj
    obtain rfl := Option.some.inj hj
    refine relocates_moveToFront hv i d _ hi ?_
    simp only [frontIndex]
    split_ifs <;> rfl
  refine rearranges_updateChildren hu hf (frontIndex_injective v) ?_ ?_
  · intro j hj
    rw [List.length_cons, List.length_eraseIdx, if_pos hlt] at hj
    rcases Nat.eq_zero_or_pos j with rfl | hpos
    · exact ⟨v, hlt, if_pos rfl⟩
    · by_cases hjv : j ≤ v
      · refine ⟨j - 1, by omega, ?_⟩
        rw [frontIndex, if_neg (by omega), if_pos (by omega)]
        omega
      · refine ⟨j, by omega, ?_⟩
        rw [frontIndex, if_neg (by omega), if_neg (by omega)]
  · intro i j hi hj hij
    have hi' : i ≠ v := fun heq ↦ hi (by rw [heq])
    have hj' : j ≠ v := fun heq ↦ hj (by rw [heq])
    simp only [frontIndex, if_neg hi', if_neg hj']
    split_ifs <;> omega

end RoseTree

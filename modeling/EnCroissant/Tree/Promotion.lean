import EnCroissant.Library.TreeMoves
import EnCroissant.Tree.TrackedPaths

/-!
# Promoting a line to the main line

Every round moves one node of the path in front of its siblings.  At the end the
path runs along first children, and nothing but the promoted nodes has changed
its place among its siblings.
-/

namespace EnCroissant

open RoseTree

variable {ι : Type}

/-- The nodes of a path that are not first among their siblings. -/
def Promoted (path p : List ℕ) : Prop :=
  ∃ i v, path[i]? = some v ∧ v ≠ 0 ∧ p = path.take (i + 1)

theorem frontIndex_eq (v i : ℕ) : some (frontIndex v i) = promoteIndex v i := by
  rw [promoteIndex, frontIndex]
  split_ifs <;> rfl

theorem rebase_frontIndex (target parent : List ℕ) (v : ℕ) :
    rebase (fun i ↦ some (frontIndex v i)) parent target =
      some (rebasePathAfterPromotion target parent v) := by
  rw [← rebase_promotion]
  congr 1
  funext i
  exact frontIndex_eq v i

/-- One round moves the last node of the path that is not first. -/
theorem promoteVariation_rearranges {s : TreeState ι} {path : List ℕ}
    (hpath : (s.root.nodeAt path).isSome) (hany : path.any (· ≠ 0) = true) :
    ∃ s' move k, promoteVariation s path = some (s', path.set k 0) ∧
      s.root.Rearranges s'.root move (Promoted path) ∧ move path = path.set k 0 := by
  cases hi : findLastIndex (· ≠ 0) path with
  | none =>
      rw [findLastIndex_eq_none hi] at hany
      cases hany
  | some i =>
      obtain ⟨v, rest, hsplit, hv, hlen⟩ := findLastIndex_eq_some hi
      have hget : path.getD i 0 = v := by
        rw [hsplit, List.getD_append_right _ _ _ _ (le_of_eq hlen), hlen]
        simp
      have hv' : v ≠ 0 := of_decide_eq_true hv
      have hat : path[i]? = some v := by
        rw [hsplit, List.getElem?_append_right hlen.le, hlen, Nat.sub_self,
          List.getElem?_cons_zero]
      obtain ⟨n, hn⟩ := Option.isSome_iff_exists.mp hpath
      have hbelow : s.root.nodeAt (path.take i ++ v :: rest) = some n := by
        rw [← hsplit]
        exact hn
      rw [nodeAt_append, Option.bind_eq_some_iff] at hbelow
      obtain ⟨u, hu, hbelow⟩ := hbelow
      rw [nodeAt_cons, Option.bind_eq_some_iff] at hbelow
      obtain ⟨child, hchild, -⟩ := hbelow
      have hdeepest : getNodeAtPath s.root (path.take i) = u := deepest_of_nodeAt hu
      have hfront : rebasePathAfterPromotion path (path.take i) v = path.set i 0 := by
        conv_lhs => rw [hsplit, List.take_left' hlen]
        conv_rhs => rw [hsplit]
        rw [rebasePathAfterPromotion_append, if_pos rfl, List.set_append_right _ _ hlen.le, hlen,
          Nat.sub_self, List.set_cons_zero]
      have hstep : promoteVariation s path = some
          (rebaseTrackedPaths
            { s with root := s.root.updateChildren (child :: ·.eraseIdx v) (path.take i) }
            (fun target ↦ some (rebasePathAfterPromotion target (path.take i) v)) s.tracked,
            path.set i 0) := by
        rw [promoteVariation, hi]
        simp only [hget, hdeepest, hchild, hfront]
      refine ⟨_, _, i, hstep, (rearranges_moveToFront hu hchild).mono ?_, ?_⟩
      · rintro p - rfl
        refine ⟨i, v, hat, hv', ?_⟩
        rw [List.take_add_one, hat]
        rfl
      · rw [rebase_frontIndex, hfront]
        rfl

theorem promoteAll_rearranges {s : TreeState ι} {path : List ℕ}
    (hpath : (s.root.nodeAt path).isSome) :
    ∃ s' move, promoteAll s path = some s' ∧
      s.root.Rearranges s'.root move (Promoted path) ∧
        move path = List.replicate path.length 0 := by
  induction hn : path.countP (· ≠ 0) using Nat.strong_induction_on generalizing s path with
  | _ n ih =>
      rw [promoteAll]
      by_cases hany : path.any (· ≠ 0) = true
      · obtain ⟨s₁, move, k, hstep, hmove, hself⟩ := promoteVariation_rearranges hpath hany
        have hless := promoteVariation_nonzero hstep hany
        have hpath₁ := hmove.isSome hpath
        rw [hself] at hpath₁
        obtain ⟨s', move', hrest, hmove', hself'⟩ := ih _ (hn ▸ hless) hpath₁ rfl
        refine ⟨s', move' ∘ move, ?_, (hmove.trans hmove').mono ?_, ?_⟩
        · rw [dif_pos hany]
          split
          · rename_i hnone
            rw [hstep] at hnone
            cases hnone
          · rename_i s₂ path₂ hsome
            rw [hstep] at hsome
            cases hsome
            exact hrest
        · rintro p hp (hpromoted | ⟨i, v, hv, hne, htake⟩)
          · exact hpromoted
          · have hik : k ≠ i := by
              rintro rfl
              rw [List.getElem?_set] at hv
              rw [if_pos rfl] at hv
              split_ifs at hv
              exact hne (Option.some.inj hv).symm
            rw [List.getElem?_set_ne hik] at hv
            refine ⟨i, v, hv, hne, ?_⟩
            obtain ⟨u, hu⟩ := Option.isSome_iff_exists.mp hpath
            obtain ⟨w, hw⟩ := nodeAt_of_prefix hu (List.take_prefix (i + 1) path)
            refine hmove.injective hp (by rw [hw]; rfl) ?_
            rw [htake, hmove.take_eq hpath, hself]
        · rw [Function.comp_apply, hself, hself', List.length_set]
      · rw [dif_neg hany]
        refine ⟨s, id, rfl, .refl _ _, List.eq_replicate_of_mem ?_⟩
        intro v hv
        have hzero := List.any_eq_false.mp (Bool.eq_false_iff.mpr hany) v hv
        simpa using hzero

/-- Promoting to the main line ends; the node is reached by first children then, no node is
lost, doubled or changed, every node keeps its parent, and siblings that are not promoted keep
their order. -/
theorem promoteToMainline_rearranges (s : TreeState ι) {path : List ℕ}
    (hpath : (s.root.nodeAt path).isSome) :
    ∃ s' move, promoteToMainline s path = some s' ∧
      s.root.Rearranges s'.root move (Promoted path) ∧
        move path = List.replicate path.length 0 :=
  promoteAll_rearranges (s := { s with dirty := true }) hpath

theorem KingPawn.promoteToMainline_rearranges_d4 :
    ∃ s' move, promoteToMainline state [1] = some s' ∧
      state.root.Rearranges s'.root move (Promoted [1]) ∧ move [1] = [0] :=
  promoteToMainline_rearranges state rfl

end EnCroissant

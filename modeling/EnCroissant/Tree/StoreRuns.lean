import EnCroissant.Tree.Walking

/-!
# Every state of the tree store

In every state that a store reaches, the ply count of a node is that of the root and its depth,
its position is the one after its move, and every tracked path names a node.
-/

namespace EnCroissant

open RoseTree

variable {ι : Type} {C : Chessops} {s s' : TreeState ι}

theorem StoreAction.sound (moves : C.NormalMoves) (laws : C.FenLaws) {env : StoreEnv ι}
    {action : StoreAction} (h : s.Sound C) (hpromised : action.Promised C s)
    (hs' : action.apply C env s = some s') : s'.Sound C := by
  cases action with
  | load initialFen tokens =>
      obtain rfl := Option.some.inj hs'
      exact sound_loadGame laws _ _ _ _ _
  | reset =>
      obtain rfl := Option.some.inj hs'
      exact sound_defaultTree _ _
  | rehydrate =>
      obtain rfl := Option.some.inj hs'
      exact h.relabels (relabels_normalizeTreeHalfMoves h.consistent) rfl
  | edit action => exact h.edit moves laws hpromised hs'
  | walk action =>
      obtain rfl := Option.some.inj hs'
      obtain ⟨path, hpath, hresolves⟩ := WalkAction.movesCursor h.tracks hpromised
      rw [hpath]
      exact ⟨h.consistent, hresolves, h.tracks.start, h.tracks.practicePath⟩

theorem storeMachine_invariant (moves : C.NormalMoves) (laws : C.FenLaws) :
    (storeMachine ι C).Invariant (fun s action ↦ action.Promised C s) (TreeState.Sound C) where
  init := by
    rintro s ⟨ref, fen, rfl⟩
    exact sound_defaultTree ref fen
  step := by
    rintro s action s' h hpromised ⟨env, hs'⟩
    exact StoreAction.sound moves laws h hpromised hs'

/-- Ply counts and positions agree in every state of a store, and no tracked path dangles. -/
theorem store_plies_and_positions (moves : C.NormalMoves) (laws : C.FenLaws)
    (hs : (storeMachine ι C).ReachableBy (fun s action ↦ action.Promised C s) s) :
    (∀ path data, s.root.labelAt path = some data →
      data.halfMoves = rootHalfMoves C s.root.label.fen + path.length) ∧
    (∀ path i parent child, s.root.labelAt path = some parent →
      s.root.labelAt (path ++ [i]) = some child → Follows C parent child) ∧
    s.Tracks := by
  have hsound := (storeMachine_invariant moves laws).reachable hs
  exact ⟨fun path data hdata ↦ hsound.consistent.halfMoves hdata,
    fun path i parent child ↦ follows_of_labelAt hsound.consistent.follows, hsound.tracks⟩

namespace KingPawn

/-- No comment is read by it, and no move is rated. -/
def storeEnv : StoreEnv ℕ where
  reader := ⟨⟨fun _ _ ↦ false, fun _ ↦ none, fun _ ↦ none⟩, fun _ _ ↦ none⟩
  parseJson _ := none
  getAnnotation _ _ _ _ _ _ _ := none
  fresh i j := 10 * i + j + 1

/-- `1. e4 e5` is played, and then `1. d4` in front of it from the start. -/
def playedActions : List StoreAction :=
  [.edit (.makeMoves ⟨["e4".toList, "e5".toList], false, true⟩), .walk .goToStart,
    .edit (.makeMove (.san "d4".toList) true true true none)]

def played : TreeState ℕ :=
  (playedActions.foldlM (fun s (a : StoreAction) ↦ a.apply chessops storeEnv s)
    (defaultTree chessops 0 [])).getD (defaultTree chessops 0 [])

theorem reachable_played :
    (storeMachine ℕ chessops).ReachableBy (fun s action ↦ action.Promised chessops s) played := by
  have hrun : ∀ (actions : List StoreAction) (s s' : TreeState ℕ),
      (∀ a ∈ actions, ∀ s : TreeState ℕ, a.Promised chessops s) →
      actions.foldlM (fun s (a : StoreAction) ↦ a.apply chessops storeEnv s) s = some s' →
      (storeMachine ℕ chessops).RunOf (fun s action ↦ action.Promised chessops s) s s' := by
    intro actions
    induction actions with
    | nil =>
        intro s s' _ hs'
        obtain rfl := Option.some.inj hs'
        exact Relation.ReflTransGen.refl
    | cons a actions ih =>
        intro s s' hpromised hs'
        rw [List.foldlM_cons] at hs'
        obtain ⟨t, hstep, hrest⟩ := Option.bind_eq_some_iff.mp hs'
        rw [List.forall_mem_cons] at hpromised
        exact Relation.ReflTransGen.head ⟨a, hpromised.1 s, storeEnv, hstep⟩
          (ih t s' hpromised.2 hrest)
  refine ⟨defaultTree chessops 0 [], ⟨0, [], rfl⟩, hrun playedActions _ _ ?_ ?_⟩
  · intro a ha s
    simp only [playedActions, List.mem_cons, List.not_mem_nil, or_false] at ha
    rcases ha with rfl | rfl | rfl <;> trivial
  · rfl

theorem store_plies_and_positions_played :
    played.root.children.map (fun c ↦ (c.label.san, c.label.halfMoves)) =
        [(some "d4".toList, 1), (some "e4".toList, 1)] ∧ played.Tracks :=
  ⟨by decide, (store_plies_and_positions normalMoves fenLaws reachable_played).2.2⟩

end KingPawn

end EnCroissant

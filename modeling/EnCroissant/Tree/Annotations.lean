import EnCroissant.Tree.Navigation
import EnCroissant.Tree.TrackedPaths

/-!
# Going to the next annotation

The search runs along the line of the cursor to its end and goes on with the
main line from the root, the root included.
-/

namespace EnCroissant

open RoseTree

variable {ι : Type}

/-- The positions behind the cursor on its line, and then the whole main line. -/
def annotationOrder (root : TreeNode ι) (cursor : List ℕ) : List (List ℕ) :=
  (treeIteratorMainLine cursor (getNodeAtPath root cursor)).tail ++ treeIteratorMainLine [] root

theorem treeIteratorMainLine_eq_cons (position : List ℕ) (t : TreeNode ι) :
    treeIteratorMainLine position t = position :: (treeIteratorMainLine position t).tail := by
  cases t with
  | node data cs =>
      cases cs with
      | nil => rfl
      | cons c cs => rfl

section Search

variable (root : TreeNode ι) ( annotation : String) (color : Color)

def matchesAt (p : List ℕ) : Bool :=
  isAnnotated annotation color (getNodeAtPath root p)

/-- As many steps as the line is long look at the rest of the line. -/
theorem searchAnnotation_line {u : TreeNode ι} {p : List ℕ} (hu : root.nodeAt p = some u)
    (limit : ℕ) :
    searchAnnotation root annotation color (countMainPly u + limit) p =
      ((treeIteratorMainLine p u).tail.find? (matchesAt root annotation color)).or
        ( searchAnnotation root annotation color limit (p ++ mainLineEnd u)) := by
  induction u using mainLineEnd.induct generalizing p with
  | case1 data =>
      rw [countMainPly, treeIteratorMainLine, mainLineEnd, Nat.zero_add, List.append_nil,
        List.tail_cons, List.find?_nil, Option.none_or]
  | case2 data c cs ih =>
      have hc : root.nodeAt (p ++ [0]) = some c := by
        rw [nodeAt_concat, hu, Option.bind_some, children_node, List.getElem?_cons_zero]
      have hnode : getNodeAtPath root p = .node data (c :: cs) := deepest_of_nodeAt hu
      have hchildren : (getNodeAtPath root p).children ≠ [] := by
        rw [hnode, children_node]
        exact List.cons_ne_nil c cs
      rw [countMainPly, treeIteratorMainLine, mainLineEnd, List.tail_cons,
        treeIteratorMainLine_eq_cons, List.find?_cons, Nat.add_right_comm, searchAnnotation]
      simp only [if_neg hchildren]
      by_cases hmatches : isAnnotated annotation color (getNodeAtPath root (p ++ [0])) = true
      · rw [if_pos hmatches, matchesAt, hmatches, Option.some_or]
      · rw [if_neg hmatches, matchesAt, Bool.eq_false_iff.mpr hmatches, ih hc, List.append_assoc]
        rfl

/-- From the end of a line the search goes to the root and along the main line. -/
theorem searchAnnotation_wraps {p : List ℕ} (hleaf : (getNodeAtPath root p).children = []) :
    searchAnnotation root annotation color (countMainPly root + 1) p =
      (treeIteratorMainLine [] root).find? (matchesAt root annotation color) := by
  have hline := searchAnnotation_line root annotation color (nodeAt_nil root) 0
  rw [ searchAnnotation, Option.or_none, Nat.add_zero] at hline
  rw [treeIteratorMainLine_eq_cons, List.find?_cons, searchAnnotation, if_pos hleaf]
  by_cases hmatches : isAnnotated annotation color (getNodeAtPath root []) = true
  · rw [if_pos hmatches, matchesAt, hmatches]
  · rw [if_neg hmatches, matchesAt, Bool.eq_false_iff.mpr hmatches, hline]

end Search

/-- The cursor goes to the first match behind it on its line, else to the first match of the
main line, the root included; where there is none it stays. -/
theorem goToAnnotation_eq {s : TreeState ι} ( annotation : String) (color : Color)
    (hposition : (s.root.nodeAt s.position).isSome) :
    goToAnnotation s annotation color =
      { s with
        position := ((annotationOrder s.root s.position).find? fun p ↦
          isAnnotated annotation color (getNodeAtPath s.root p)).getD s.position } := by
  obtain ⟨u, hu⟩ := Option.isSome_iff_exists.mp hposition
  have hnode : getNodeAtPath s.root s.position = u := deepest_of_nodeAt hu
  obtain ⟨v, hv, hleaf⟩ := nodeAt_mainLineEnd u
  have hend : (getNodeAtPath s.root (s.position ++ mainLineEnd u)).children = [] := by
    have hat : s.root.nodeAt (s.position ++ mainLineEnd u) = some v := by
      rw [nodeAt_append, hu, Option.bind_some, hv]
    rw [getNodeAtPath, deepest_of_nodeAt hat, hleaf]
  rw [ goToAnnotation, annotationOrder, List.find?_append, hnode, Nat.add_assoc,
    searchAnnotation_line s.root annotation color hu,
    searchAnnotation_wraps s.root annotation color hend]
  rfl

namespace KingPawn

/-- The tree of `1. e4! (1. d4) e5` with the cursor on the variation. -/
def praised : TreeState ℕ :=
  { state with
    root :=
      .node (rootData chessops 0 initialFen)
        [.node { (createNode 1 Game.kingPawn.fen e4 "e4".toList 1 none).label with nags := [1] }
          [createNode 2 Game.openGame.fen e5 "e5".toList 2 none],
        createNode 3 Game.queenPawn.fen d4 "d4".toList 1 none]
    position := [1] }

theorem goToAnnotation_praised :
    goToAnnotation praised "!" .white = { praised with position := [0] } :=
  (goToAnnotation_eq "!" .white rfl).trans rfl

end KingPawn

end EnCroissant

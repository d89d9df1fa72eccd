import EnCroissant.Tree.Lines
import EnCroissant.Tree.Annotations
import EnCroissant.Tree.StoreEdits

/-!
# Walking through the tree

An action that moves the cursor moves nothing else, and the cursor stays on the nodes of the
tree.  Turning to the next and to the previous branch undo each other, and so do the jumps
between branchings.
-/

namespace EnCroissant

open RoseTree
open Practice.Opening (treeIteratorFrom_eq preOrder preOrders ListNode)

variable {ι : Type} {C : Chessops} {s s' : TreeState ι}

/-- Only the cursor moves, and it stays on the tree. -/
def MovesCursor (s s' : TreeState ι) : Prop :=
  ∃ path, s' = { s with position := path } ∧ (s.root.nodeAt path).isSome

theorem MovesCursor.stay (h : s.Tracks) : MovesCursor s s := ⟨s.position, rfl, h.position⟩

/-! ## Continuations -/

mutual

theorem nodeAt_of_mem_preOrder {path : List ℕ} {t : TreeNode ι} {entry : ListNode ι}
    (h : entry ∈ preOrder path t) :
    ∃ rest, entry.1 = path ++ rest ∧ t.nodeAt rest = some entry.2 := by
  obtain ⟨data, cs⟩ := t
  rw [preOrder, List.mem_cons] at h
  rcases h with rfl | h
  · exact ⟨[], (List.append_nil path).symm, nodeAt_nil _⟩
  · obtain ⟨j, c, rest, hc, hpath, hentry⟩ := nodeAt_of_mem_preOrders h
    refine ⟨j :: rest, ?_, ?_⟩
    · rw [hpath, Nat.zero_add]
    · rw [nodeAt_cons, children_node, hc, Option.bind_some, hentry]

theorem nodeAt_of_mem_preOrders {path : List ℕ} {i : ℕ} {cs : List (TreeNode ι)}
    {entry : ListNode ι} (h : entry ∈ preOrders path i cs) :
    ∃ j c rest, cs[j]? = some c ∧ entry.1 = path ++ (i + j) :: rest ∧
      c.nodeAt rest = some entry.2 := by
  cases cs with
  | nil => simp [preOrders] at h
  | cons c cs =>
      rw [preOrders, List.mem_append] at h
      rcases h with h | h
      · obtain ⟨rest, hpath, hentry⟩ := nodeAt_of_mem_preOrder h
        exact ⟨0, c, rest, rfl, by rw [hpath, List.append_assoc]; rfl, hentry⟩
      · obtain ⟨j, d, rest, hd, hpath, hentry⟩ := nodeAt_of_mem_preOrders h
        refine ⟨j + 1, d, rest, hd, ?_, hentry⟩
        rw [hpath, Nat.add_right_comm, Nat.add_assoc]

end

/-- The continuation is that of a node of the tree. -/
theorem nodeAt_nextContinuation {c : ListNode ι} (h : s.Tracks)
    (hc : nextContinuation C s = some c) : s.root.nodeAt c.1 = some c.2 := by
  unfold nextContinuation at hc
  dsimp only at hc
  split_ifs at hc with hchildren hpractice
  · obtain rfl := Option.some.inj hc
    obtain ⟨u, hu⟩ := Option.isSome_iff_exists.mp h.position
    rw [getNodeAtPath, deepest_of_nodeAt hu]
    exact hu
  · have hmem := List.mem_of_find?_eq_some hc
    rw [treeIteratorFrom_eq, List.flatMap_singleton] at hmem
    obtain ⟨rest, hpath, hentry⟩ := nodeAt_of_mem_preOrder hmem
    have hstart : (s.root.nodeAt (s.headers.start.getD [])).isSome := by
      cases hstart : s.headers.start with
      | none => rw [Option.getD_none, nodeAt_nil]; rfl
      | some path => exact h.start path hstart
    obtain ⟨u, hu⟩ := Option.isSome_iff_exists.mp hstart
    rw [hpath, nodeAt_append, hu, Option.bind_some]
    rw [getNodeAtPath, deepest_of_nodeAt hu] at hentry
    exact hentry

theorem movesCursor_stepIntoChild (h : s.Tracks) {path : List ℕ} {u : TreeNode ι}
    (hu : s.root.nodeAt path = some u) (index : ℕ) :
    MovesCursor s (stepIntoChild s path u.children index) := by
  unfold stepIntoChild
  split
  · exact .stay h
  · next child hchild =>
    split_ifs
    · refine ⟨path ++ [index], rfl, ?_⟩
      rw [nodeAt_concat, hu, Option.bind_some, hchild]
      rfl
    · exact .stay h

theorem movesCursor_continuation (h : s.Tracks) (index : ℕ) :
    MovesCursor s (match nextContinuation C s with
      | none => s
      | some c => stepIntoChild s c.1 c.2.children index) := by
  split
  · exact .stay h
  · next c hc => exact movesCursor_stepIntoChild h (nodeAt_nextContinuation h hc) index

theorem movesCursor_goToNext (h : s.Tracks) : MovesCursor s (goToNext C s) := by
  unfold goToNext
  split
  · exact movesCursor_continuation h 0
  · split_ifs
    · exact .stay h
    · split
      · exact .stay h
      · exact movesCursor_continuation h _

theorem movesCursor_goToContinuation (h : s.Tracks) (index : ℕ) :
    MovesCursor s (goToContinuation C s index) := by
  unfold goToContinuation
  split_ifs
  · exact .stay h
  · exact movesCursor_continuation h index

/-! ## Lines -/

theorem isSome_of_below {root : TreeNode ι} {p q : List ℕ} (hq : (root.nodeAt q).isSome)
    (hp : p <+: q) : (root.nodeAt p).isSome := by
  obtain ⟨u, hu⟩ := Option.isSome_iff_exists.mp hq
  obtain ⟨v, hv⟩ := nodeAt_of_prefix hu hp
  rw [hv]
  rfl

theorem isSome_mainLineEnd {root u : TreeNode ι} {path : List ℕ}
    (hu : root.nodeAt path = some u) : (root.nodeAt (path ++ mainLineEnd u)).isSome := by
  obtain ⟨v, hv, -⟩ := nodeAt_mainLineEnd u
  rw [nodeAt_append, hu, Option.bind_some, hv]
  rfl

theorem movesCursor_goToBranchEnd (h : s.Tracks) : MovesCursor s (goToBranchEnd s) := by
  obtain ⟨u, hu⟩ := Option.isSome_iff_exists.mp h.position
  refine ⟨_, rfl, ?_⟩
  rw [getNodeAtPath, deepest_of_nodeAt hu]
  exact isSome_mainLineEnd hu

theorem mem_of_startAfter {current start : List ℕ} {found : Bool} {starts : List (List ℕ)}
    (h : startAfter current found starts = some start) : start ∈ starts := by
  induction starts generalizing found with
  | nil => cases h
  | cons first starts ih =>
      rw [startAfter] at h
      split_ifs at h
      · rw [Option.some.inj h]
        exact List.mem_cons_self
      · exact List.mem_cons_of_mem _ (ih h)

theorem movesCursor_goToBranchEndOrNextLine (h : s.Tracks) :
    MovesCursor s (goToBranchEndOrNextLine s) := by
  unfold goToBranchEndOrNextLine
  split_ifs
  · exact movesCursor_goToBranchEnd h
  · exact .stay h
  · split
    · next next hnext =>
      refine ⟨next, rfl, ?_⟩
      rw [nextLineStart] at hnext
      split_ifs at hnext
      exact (mem_lineStarts.mp (mem_of_startAfter hnext)).1
    · exact .stay h

theorem movesCursor_goToBranchStart (h : s.Tracks) : MovesCursor s (goToBranchStart s) := by
  refine ⟨_, rfl, isSome_of_below h.position ?_⟩
  refine (List.rdropWhile_prefix _ _).trans ?_
  split_ifs
  · exact List.dropLast_prefix s.position
  · exact List.prefix_rfl

/-! ## Branches -/

theorem Turn.index_lt (turn : Turn) (branchIndex : ℕ) {count : ℕ} (hcount : 0 < count) :
    turn.index branchIndex count < count := by
  cases turn <;> exact Nat.mod_lt _ hcount

theorem isSome_child {root u : TreeNode ι} {path : List ℕ} {i : ℕ}
    (hu : root.nodeAt path = some u) (hi : i < u.children.length) :
    (root.nodeAt (path ++ [i])).isSome := by
  rw [nodeAt_concat, hu, Option.bind_some, List.getElem?_eq_getElem hi]
  rfl

theorem movesCursor_turnBranch (turn : Turn) (h : s.Tracks) :
    MovesCursor s (turnBranch turn s) := by
  obtain ⟨v, hv⟩ := Option.isSome_iff_exists.mp
    (isSome_of_below h.position (List.dropLast_prefix s.position))
  have hparent : getNodeAtPath s.root s.position.dropLast = v := deepest_of_nodeAt hv
  unfold turnBranch
  dsimp only
  rw [hparent]
  split
  · exact .stay h
  · next branchIndex hlast =>
    split
    · exact .stay h
    · next child hchild =>
      have hposition : s.position.dropLast ++ [branchIndex] = s.position :=
        List.dropLast_append_getLast? branchIndex hlast
      have hat : s.root.nodeAt s.position = some child := by
        rw [← hposition, nodeAt_concat, hv, Option.bind_some, hchild]
      split_ifs with hfluid
      · exact ⟨_, rfl, isSome_child hat (turn.index_lt 0 (by omega))⟩
      · refine ⟨_, rfl, isSome_child hv (turn.index_lt branchIndex ?_)⟩
        exact Nat.zero_lt_of_lt (List.getElem?_eq_some_iff.mp hchild).1

/-- The nodes that are jumped over have one child, the one that is reached has not. -/
structure JumpsTo (t : TreeNode ι) (n : ℕ) : Prop where
  between : ∀ k, 0 < k → k < n →
    ∃ u, t.nodeAt (List.replicate k 0) = some u ∧ u.children.length = 1
  reached : ∃ u, t.nodeAt (List.replicate n 0) = some u ∧ u.children.length ≠ 1

theorem branchingBelow_spec (t : TreeNode ι) (hchildren : t.children ≠ []) :
    ∃ n, branchingBelow t = List.replicate (n + 1) 0 ∧ JumpsTo t (n + 1) := by
  induction t using mainLineEnd.induct with
  | case1 data => exact absurd rfl hchildren
  | case2 data c cs ih =>
      have hfirst : ∀ path, (RoseTree.node data (c :: cs)).nodeAt (0 :: path) = c.nodeAt path := by
        intro path
        rw [nodeAt_cons, children_node, List.getElem?_cons_zero, Option.bind_some]
      rw [branchingBelow]
      by_cases hone : c.children.length = 1
      · have hne : c.children ≠ [] := by
          rintro hnil
          rw [hnil] at hone
          cases hone
        obtain ⟨n, hbelow, hbetween, hreached⟩ := ih hne
        refine ⟨n + 1, by rw [if_pos hone, hbelow]; rfl, ?_, ?_⟩
        · rintro (- | - | k) hpos hlt
          · omega
          · exact ⟨c, by rw [List.replicate_one, hfirst, nodeAt_nil], hone⟩
          · obtain ⟨u, hu, hcount⟩ := hbetween (k + 1) (by omega) (by omega)
            exact ⟨u, by rw [List.replicate_succ, hfirst, hu], hcount⟩
        · obtain ⟨u, hu, hcount⟩ := hreached
          exact ⟨u, by rw [List.replicate_succ, hfirst, hu], hcount⟩
      · refine ⟨0, by rw [if_neg hone]; rfl, fun k hpos hlt ↦ absurd hlt (by omega), c, ?_, hone⟩
        rw [List.replicate_one, hfirst, nodeAt_nil]

theorem movesCursor_nextBranching (h : s.Tracks) : MovesCursor s (nextBranching s) := by
  obtain ⟨u, hu⟩ := Option.isSome_iff_exists.mp h.position
  refine ⟨_, rfl, ?_⟩
  rw [getNodeAtPath, deepest_of_nodeAt hu, nodeAt_append, hu, Option.bind_some]
  by_cases hchildren : u.children = []
  · obtain ⟨data, cs⟩ := u
    obtain rfl : cs = [] := hchildren
    rw [branchingBelow, nodeAt_nil]
    rfl
  · obtain ⟨n, hbelow, -, v, hv, -⟩ := branchingBelow_spec u hchildren
    rw [hbelow, hv]
    rfl

theorem branchingAbove_le (root : TreeNode ι) (position : List ℕ) :
    branchingAbove root position <+: position := by
  fun_induction branchingAbove root position with
  | case1 position hone ih => exact ih.trans (List.dropLast_prefix position)
  | case2 position hone => exact List.dropLast_prefix position

theorem movesCursor_previousBranching (h : s.Tracks) : MovesCursor s (previousBranching s) := by
  unfold previousBranching
  split_ifs
  · exact .stay h
  · exact ⟨_, rfl, isSome_of_below h.position (branchingAbove_le s.root s.position)⟩

theorem mem_annotationOrder {root : TreeNode ι} {cursor path : List ℕ}
    (hcursor : (root.nodeAt cursor).isSome) (hpath : path ∈ annotationOrder root cursor) :
    (root.nodeAt path).isSome := by
  have hline : ∀ (t : TreeNode ι) (p : List ℕ), root.nodeAt p = some t →
      ∀ q ∈ treeIteratorMainLine p t, (root.nodeAt q).isSome := by
    intro t
    induction t using mainLineEnd.induct with
    | case1 data =>
        intro p hp q hq
        rw [treeIteratorMainLine, List.mem_singleton] at hq
        rw [hq, hp]
        rfl
    | case2 data c cs ih =>
        intro p hp q hq
        rw [treeIteratorMainLine, List.mem_cons] at hq
        rcases hq with rfl | hq
        · rw [hp]
          rfl
        · refine ih (p ++ [0]) ?_ q hq
          rw [nodeAt_concat, hp, Option.bind_some, children_node, List.getElem?_cons_zero]
  obtain ⟨u, hu⟩ := Option.isSome_iff_exists.mp hcursor
  have hat : getNodeAtPath root cursor = u := deepest_of_nodeAt hu
  rw [annotationOrder, hat, List.mem_append] at hpath
  rcases hpath with hpath | hpath
  · exact hline u cursor hu path (List.mem_of_mem_tail hpath)
  · exact hline root [] (nodeAt_nil root) path hpath

theorem movesCursor_toGlyph (h : s.Tracks) ( annotation : String) (color : Color) :
    MovesCursor s ( goToAnnotation s annotation color) := by
  rw [goToAnnotation_eq _ _ h.position]
  refine ⟨_, rfl, ?_⟩
  cases hfound : (annotationOrder s.root s.position).find? _ with
  | none => exact h.position
  | some path => exact mem_annotationOrder h.position (List.mem_of_find?_eq_some hfound)

/-! ## All actions -/

theorem WalkAction.movesCursor {action : WalkAction} (h : s.Tracks)
    (hpromised : (StoreAction.walk action).Promised C s) : MovesCursor s (action.apply C s) := by
  cases action with
  | goToNext => exact movesCursor_goToNext h
  | goToContinuation index => exact movesCursor_goToContinuation h index
  | goToPrevious =>
      exact ⟨_, rfl, isSome_of_below h.position (List.dropLast_prefix s.position)⟩
  | goToStart =>
      refine ⟨_, rfl, ?_⟩
      cases hstart : s.headers.start with
      | none => rw [Option.getD_none, nodeAt_nil]; rfl
      | some path => exact h.start path hstart
  | goToEnd =>
      refine ⟨_, rfl, ?_⟩
      have hend := isSome_mainLineEnd (nodeAt_nil s.root)
      rwa [List.nil_append] at hend
  | goToMove path => exact ⟨path, rfl, hpromised⟩
  | goToBranchStart => exact movesCursor_goToBranchStart h
  | goToBranchEnd => exact movesCursor_goToBranchEnd h
  | goToBranchEndOrNextLine => exact movesCursor_goToBranchEndOrNextLine h
  | turnBranch turn => exact movesCursor_turnBranch turn h
  | nextBranching => exact movesCursor_nextBranching h
  | previousBranching => exact movesCursor_previousBranching h
  | goToAnnotation glyph color => exact movesCursor_toGlyph h glyph color

/-! ## Back and forth -/

def Turn.back : Turn → Turn
  | next => previous
  | previous => next

theorem Turn.index_back (turn : Turn) {i count : ℕ} (hi : i < count) :
    turn.back.index (turn.index i count) count = i := by
  cases turn with
  | next =>
      rw [back, index, index]
      rcases Nat.lt_or_ge (i + 1) count with hlt | hge
      · have hsum : i + 1 + count - 1 = i + count := by omega
        rw [Nat.mod_eq_of_lt hlt, hsum, Nat.add_mod_right, Nat.mod_eq_of_lt hi]
      · have heq : i + 1 = count := by omega
        rw [heq, Nat.mod_self, Nat.zero_add, Nat.mod_eq_of_lt (by omega)]
        omega
  | previous =>
      rw [back, index, index]
      rcases Nat.eq_zero_or_pos i with rfl | hpos
      · have hpred : (0 + count - 1) % count = count - 1 := by
          rw [Nat.zero_add]
          exact Nat.mod_eq_of_lt (by omega)
        rw [hpred, Nat.sub_add_cancel hi, Nat.mod_self]
      · have hsum : i + count - 1 = i - 1 + count := by omega
        have hpred : (i - 1) % count = i - 1 := Nat.mod_eq_of_lt (by omega)
        rw [hsum, Nat.add_mod_right, hpred, Nat.sub_add_cancel hpos, Nat.mod_eq_of_lt hi]

/-- Among several siblings a turn leads to the sibling it says. -/
theorem turnBranch_sibling {path : List ℕ} {i : ℕ} {u : TreeNode ι} (turn : Turn)
    (hu : s.root.nodeAt path = some u) (hi : i < u.children.length)
    (hsiblings : 2 ≤ u.children.length) (hposition : s.position = path ++ [i]) :
    turnBranch turn s = { s with position := path ++ [turn.index i u.children.length] } := by
  have hparent : getNodeAtPath s.root path = u := deepest_of_nodeAt hu
  unfold turnBranch
  dsimp only
  rw [hposition, List.dropLast_concat, List.getLast?_concat, hparent]
  dsimp only
  rw [List.getElem?_eq_getElem hi]
  dsimp only
  rw [if_neg (by omega)]

theorem turnBranch_back {path : List ℕ} {i : ℕ} {u : TreeNode ι} (turn : Turn)
    (hu : s.root.nodeAt path = some u) (hi : i < u.children.length)
    (hsiblings : 2 ≤ u.children.length) (hposition : s.position = path ++ [i]) :
    turnBranch turn.back (turnBranch turn s) = s := by
  rw [turnBranch_sibling turn hu hi hsiblings hposition]
  have hturned : turn.index i u.children.length < u.children.length :=
    turn.index_lt i (by omega)
  have hback := turnBranch_sibling
    (s := { s with position := path ++ [turn.index i u.children.length] })
    turn.back hu hturned hsiblings rfl
  rw [hback, turn.index_back hi, ← hposition]

/-- The way back up stops where the jump began. -/
theorem branchingAbove_append {root u : TreeNode ι} {path : List ℕ} {n : ℕ}
    (hu : root.nodeAt path = some u) (hstop : path = [] ∨ u.children.length ≠ 1)
    (hbetween : ∀ k, 0 < k → k < n + 1 →
      ∃ v, u.nodeAt (List.replicate k 0) = some v ∧ v.children.length = 1) :
    branchingAbove root (path ++ List.replicate (n + 1) 0) = path := by
  have hlast : ∀ k, (path ++ List.replicate (k + 1) 0).dropLast = path ++ List.replicate k 0 := by
    intro k
    rw [List.replicate_succ', ← List.append_assoc, List.dropLast_concat]
  induction n with
  | zero =>
      have hat : getNodeAtPath root (path ++ List.replicate 0 0) = u := by
        rw [List.replicate_zero, List.append_nil]
        exact deepest_of_nodeAt hu
      rw [branchingAbove, hlast, hat, dif_neg, List.replicate_zero, List.append_nil]
      rintro ⟨hone, hne⟩
      rw [List.replicate_zero, List.append_nil] at hne
      exact hstop.elim hne fun hcount ↦ hcount hone
  | succ n ih =>
      obtain ⟨v, hv, hone⟩ := hbetween (n + 1) (by omega) (by omega)
      have hat : getNodeAtPath root (path ++ List.replicate (n + 1) 0) = v := by
        apply deepest_of_nodeAt
        rw [nodeAt_append, hu, Option.bind_some, hv]
      rw [branchingAbove, hlast, hat, dif_pos ⟨hone, by simp⟩]
      exact ih fun k hpos hlt ↦ hbetween k hpos (by omega)

/-- The jump to the next branching, and the way back. -/
theorem nextBranching_spec {u : TreeNode ι} (hu : s.root.nodeAt s.position = some u)
    (hchildren : u.children ≠ []) :
    ∃ n, (nextBranching s).position = s.position ++ List.replicate (n + 1) 0 ∧
      JumpsTo u (n + 1) ∧
      (s.position = [] ∨ u.children.length ≠ 1 → previousBranching (nextBranching s) = s) := by
  obtain ⟨n, hbelow, hjumps⟩ := branchingBelow_spec u hchildren
  have hnext : nextBranching s = { s with position := s.position ++ List.replicate (n + 1) 0 } := by
    rw [nextBranching, getNodeAtPath, deepest_of_nodeAt hu, hbelow]
  refine ⟨n, by rw [hnext], hjumps, fun hstop ↦ ?_⟩
  rw [hnext, previousBranching, if_neg (by simp)]
  dsimp only
  rw [branchingAbove_append hu hstop hjumps.between]

/-! ## Practice -/

/-- In practice the cursor only goes on along the path of the drill. -/
theorem goToNext_practice {path : List ℕ} (hpractice : s.practicePath = some path) :
    (goToNext C s).position = s.position ∨
      s.position <+: path ∧ (goToNext C s).position = path.take (s.position.length + 1) := by
  unfold goToNext
  rw [hpractice]
  dsimp only
  split_ifs with hbelow
  · exact .inl rfl
  · rw [Bool.not_eq_false, isPrefix_iff] at hbelow
    split
    · exact .inl rfl
    · next index hindex =>
      have htake : path.take (s.position.length + 1) = s.position ++ [index] := by
        rw [List.take_add_one, hindex, ← List.prefix_iff_eq_take.mp hbelow]
        rfl
      have hstep : ∀ c, nextContinuation C s = some c → c.1 = s.position := by
        intro c hc
        unfold nextContinuation at hc
        dsimp only at hc
        split_ifs at hc with hchildren hnone
        · rw [← Option.some.inj hc]
        · rw [hpractice] at hnone
          exact absurd rfl hnone
      split
      · exact .inl rfl
      · next c hc =>
        unfold stepIntoChild
        split
        · exact .inl rfl
        · split_ifs
          · exact .inr ⟨hbelow, by rw [hstep c hc, htake]⟩
          · exact .inl rfl

/-- Walking through the tree of a store. -/
structure Walks (C : Chessops) (s : TreeState ι) : Prop where
  cursor : ∀ action, (StoreAction.walk action).Promised C s →
    MovesCursor s (action.apply C s)
  turns : ∀ (turn : Turn) path i u, s.position = path ++ [i] → s.root.nodeAt path = some u →
    2 ≤ u.children.length → turnBranch turn.back (turnBranch turn s) = s
  branchings : ∀ u, s.root.nodeAt s.position = some u → u.children ≠ [] →
    ∃ n, (nextBranching s).position = s.position ++ List.replicate (n + 1) 0 ∧
      JumpsTo u (n + 1) ∧
      (s.position = [] ∨ u.children.length ≠ 1 → previousBranching (nextBranching s) = s)
  practice : ∀ path, s.practicePath = some path →
    (goToNext C s).position = s.position ∨
      s.position <+: path ∧ (goToNext C s).position = path.take (s.position.length + 1)

end EnCroissant

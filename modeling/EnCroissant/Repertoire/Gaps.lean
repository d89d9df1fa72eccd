import EnCroissant.Library.PostOrder
import EnCroissant.Repertoire.Coverage

/-!
# Gaps of a repertoire

Both searches walk the tree below the start, leave out what is covered or rare,
and stop at the positions of the opponent and at the user's last positions.
The coverage they read is one of positions, shared between transposed lines;
the moves they look at are those of the node alone.
-/

namespace EnCroissant

open MemoRecursion

variable {ι : Type}

/-- The entries of the tree's nodes, by their paths. -/
structure PathMaps where
  coverageMap : List ℕ → Option ℚ
  gamesMap : List ℕ → Option ℕ
  missingGamesMap : List ℕ → Option ℕ

namespace Repertoire

variable (g : Repertoire) (C : Chessops)

/-- The coverage of all positions, the cached ones computed in turn. -/
def fenCoverageCache : Memo Text Coverage :=
  (g.coverageMemo (g.dbCache.map Prod.fst)).get (g.coverageMemo_isSome _)

/-- The position of the node at a path below the start. -/
def boardAt (root : TreeNode ι) (startPath path : List ℕ) : Option Text :=
  if startPath.isPrefixOf path then
    ((getNodeAtPath root startPath).labelAt (path.drop startPath.length)).map fun data ↦
      getBoardState C data.fen
  else none

/-- The maps a walk over the nodes below the start fills in. -/
def buildPathMaps (root : TreeNode ι) (startPath : List ℕ) : PathMaps where
  coverageMap path := (boardAt C root startPath path).bind fun boardFen ↦
    (g.fenCoverageCache boardFen).map Coverage.coverage
  gamesMap path := (boardAt C root startPath path).bind fun boardFen ↦
    (g.dbCache.lookup boardFen).map DbData.total
  missingGamesMap path := (boardAt C root startPath path).bind fun boardFen ↦
    (g.fenCoverageCache boardFen).map Coverage.missing

/-! ## What is missing in a position -/

def missingGames (boardFen : Text) : ℕ :=
  if g.total boardFen < g.minGames then 0
  else if g.isUserTurn boardFen then
    match g.childFenMap boardFen with
    | [] => g.total boardFen
    | _ :: _ => 0
  else
    (((g.significant boardFen).filter fun m ↦ (g.answer boardFen m).isNone).map
      DbMove.games).foldl max 0

/-- By the coverage rules a reply is expected in a position, in a game at least, and the
repertoire has none. -/
def MissesReply (boardFen : Text) : Prop :=
  g.minGames ≤ g.total boardFen ∧
    if g.isUserTurn boardFen then g.childFenMap boardFen = [] ∧ 0 < g.total boardFen
    else ∃ m ∈ g.significant boardFen, g.answer boardFen m = none ∧ 0 < m.games

theorem lt_foldl_max_iff {n start : ℕ} {values : List ℕ} :
    n < values.foldl max start ↔ n < start ∨ ∃ value ∈ values, n < value := by
  induction values generalizing start with
  | nil => simp
  | cons value values ih =>
      rw [List.foldl_cons, ih, lt_max_iff]
      simp [or_assoc]

theorem missingGames_pos_iff (boardFen : Text) :
    0 < g.missingGames boardFen ↔ g.MissesReply boardFen := by
  rw [missingGames, MissesReply]
  by_cases htotal : g.total boardFen < g.minGames
  · rw [if_pos htotal]
    exact ⟨fun h ↦ absurd h (lt_irrefl 0), fun h ↦ absurd h.1 (not_le.mpr htotal)⟩
  · rw [if_neg htotal]
    by_cases huser : g.isUserTurn boardFen = true
    · rw [if_pos huser, if_pos huser]
      cases g.childFenMap boardFen with
      | nil => exact ⟨fun h ↦ ⟨not_lt.mp htotal, rfl, h⟩, fun h ↦ h.2.2⟩
      | cons entry entries =>
          exact ⟨fun h ↦ absurd h (lt_irrefl 0), fun h ↦ by cases h.2.1⟩
    · rw [if_neg huser, if_neg huser, lt_foldl_max_iff]
      constructor
      · rintro (h | ⟨games, hgames, hpos⟩)
        · exact absurd h (lt_irrefl 0)
        · obtain ⟨m, hm, rfl⟩ := List.mem_map.mp hgames
          obtain ⟨hm, hnone⟩ := List.mem_filter.mp hm
          exact ⟨not_lt.mp htotal, m, hm, Option.isNone_iff_eq_none.mp hnone, hpos⟩
      · rintro ⟨-, m, hm, hnone, hpos⟩
        refine .inr ⟨m.games, List.mem_map_of_mem (List.mem_filter.mpr ⟨hm, ?_⟩), hpos⟩
        exact Option.isNone_iff_eq_none.mpr hnone

theorem missing_userBody {children : List Text} {maxCoverage : ℚ} {value : Coverage}
    (h : Yields (userBody children maxCoverage) value) :
    value.missing = 0 := by
  induction children generalizing maxCoverage with
  | nil =>
      rw [userBody] at h
      cases h
      rfl
  | cons childFen rest ih =>
      rw [userBody] at h
      cases h with
      | call _ answer h => exact ih h

theorem missing_opponentBody {boardFen : Text} {ms : List DbMove} {weighted : ℚ}
    {maxMissing : ℕ} {fullyCovered : Bool} {value : Coverage}
    (h : Yields (g.opponentBody boardFen ms weighted maxMissing fullyCovered) value) :
    value.missing = ((ms.filter fun m ↦ (g.answer boardFen m).isNone).map
      DbMove.games).foldl max maxMissing := by
  induction ms generalizing weighted maxMissing fullyCovered with
  | nil =>
      rw [opponentBody] at h
      cases h
      rfl
  | cons m rest ih =>
      rw [opponentBody] at h
      cases hanswer : g.answer boardFen m with
      | none =>
          rw [hanswer] at h
          rw [List.filter_cons_of_pos (by rw [hanswer]; rfl), List.map_cons, List.foldl_cons]
          exact ih h
      | some childFen =>
          rw [hanswer] at h
          rw [List.filter_cons_of_neg (by rw [hanswer]; exact Bool.false_ne_true)]
          cases h with
          | call _ answer h => exact ih h

/-- What is missing in a position does not depend on the positions after it. -/
theorem missing_coverageBody {boardFen : Text} {value : Coverage}
    (h : Yields (g.coverageBody boardFen) value) :
    value.missing = g.missingGames boardFen := by
  rw [coverageBody] at h
  rw [missingGames]
  by_cases htotal : g.total boardFen < g.minGames
  · rw [if_pos htotal] at h ⊢
    cases h
    rfl
  · rw [if_neg htotal] at h ⊢
    by_cases huser : g.isUserTurn boardFen = true
    · rw [if_pos huser] at h ⊢
      cases hchildren : g.childFenMap boardFen with
      | nil =>
          rw [hchildren] at h
          cases h
          rfl
      | cons entry entries =>
          rw [hchildren] at h
          exact missing_userBody h
    · rw [if_neg huser] at h ⊢
      by_cases hzero : g.sigTotal boardFen = 0
      · rw [if_pos hzero] at h
        cases h
        refine (Nat.eq_zero_of_not_pos fun hpos ↦ ?_).symm
        rcases lt_foldl_max_iff.mp hpos with hlt | ⟨games, hgames, hlt⟩
        · exact absurd hlt (lt_irrefl 0)
        · have hmem : games ∈ (g.significant boardFen).map DbMove.games :=
            List.map_subset _ (List.filter_subset_self _) hgames
          have hle := List.le_sum_of_mem hmem
          rw [sigTotal] at hzero
          omega
      · rw [if_neg hzero] at h
        exact g.missing_opponentBody h

theorem coverageMemo_fenCoverageCache :
    g.coverageMemo (g.dbCache.map Prod.fst) = some g.fenCoverageCache :=
  (Option.some_get _).symm

theorem missing_of_fenCoverageCache {boardFen : Text} {value : Coverage}
    (h : g.fenCoverageCache boardFen = some value) :
    value.missing = g.missingGames boardFen :=
  g.missing_coverageBody (evalAll_yields g.coverageMemo_fenCoverageCache h)

theorem lookup_isSome_of_missesReply {boardFen : Text} (h : g.MissesReply boardFen) :
    (g.dbCache.lookup boardFen).isSome := by
  by_contra hnone
  rw [Option.not_isSome_iff_eq_none] at hnone
  rw [MissesReply] at h
  split_ifs at h
  · have htotal := h.2.2
    rw [total, hnone] at htotal
    cases htotal
  · obtain ⟨m, hm, -⟩ := h.2
    rw [significant, moves, hnone] at hm
    cases hm

theorem fenCoverageCache_of_missesReply {boardFen : Text} (h : g.MissesReply boardFen) :
    ∃ value, g.fenCoverageCache boardFen = some value ∧ 0 < value.missing := by
  obtain ⟨data, hdata⟩ := Option.isSome_iff_exists.mp (g.lookup_isSome_of_missesReply h)
  obtain ⟨before, after, hsplit, -⟩ := List.lookup_eq_some_iff.mp hdata
  have hmem : boardFen ∈ g.dbCache.map Prod.fst := by
    rw [hsplit]
    simp
  obtain ⟨value, hvalue⟩ := Option.ne_none_iff_exists'.mp
    (evalAll_ne_none g.coverageMemo_fenCoverageCache hmem)
  refine ⟨value, hvalue, ?_⟩
  rw [g.missing_of_fenCoverageCache hvalue]
  exact (g.missingGames_pos_iff boardFen).mpr h

end Repertoire

/-! ## The searches -/

/-- The arguments of the searches. -/
structure GapSearch where
  startPath : List ℕ
  userColor : Color
  maps : PathMaps
  minGames : ℕ

namespace GapSearch

variable (s : GapSearch)

def coverage (path : List ℕ) : ℚ := (s.maps.coverageMap path).getD 0

def games (path : List ℕ) : ℕ := (s.maps.gamesMap path).getD 0

def missing (path : List ℕ) : ℕ := (s.maps.missingGamesMap path).getD 0

def userParity : ℤ :=
  match s.userColor with
  | .white => 0
  | .black => 1

def isUserTurn (data : NodeData ι) : Bool := decide (data.halfMoves.tmod 2 = s.userParity)

mutual

def findNextInSubtree (path : List ℕ) : TreeNode ι → Option (List ℕ)
  | .node data children =>
      if 1 ≤ s.coverage path ∨ s.games path < s.minGames then none
      else
        match findNextInChildren path 0 children with
        | some result => some result
        | none =>
            if s.startPath.length < path.length then
              if s.isUserTurn data && children.isEmpty then some path
              else if !s.isUserTurn data then some path
              else none
            else none

def findNextInChildren (path : List ℕ) (i : ℕ) : List (TreeNode ι) → Option (List ℕ)
  | [] => none
  | child :: children =>
      match findNextInSubtree (path ++ [i]) child with
      | some result => some result
      | none => findNextInChildren path (i + 1) children

end

def findNextGap (root : TreeNode ι) : Option (List ℕ) :=
  s.findNextInSubtree s.startPath (getNodeAtPath root s.startPath)

/-- `maxMissing` and `bestPath`. -/
abbrev Best := ℤ × Option (List ℕ)

def consider (best : Best) (path : List ℕ) : Best :=
  if best.1 < s.missing path then (s.missing path, some path)
  else if s.missing path = best.1 then
    match best.2 with
    | none => best
    | some bestPath => if path.length < bestPath.length then (best.1, some path) else best
  else best

mutual

def traverse (path : List ℕ) (best : Best) : TreeNode ι → Best
  | .node data children =>
      if 1 ≤ s.coverage path ∨ s.games path < s.minGames then best
      else
        let best := traverseChildren path 0 best children
        if s.startPath.length < path.length then
          if !s.isUserTurn data || children.isEmpty then s.consider best path else best
        else best

def traverseChildren (path : List ℕ) (i : ℕ) (best : Best) : List (TreeNode ι) → Best
  | [] => best
  | child :: children => traverseChildren path (i + 1) (traverse (path ++ [i]) best child) children

end

def findBiggestGap (root : TreeNode ι) : Option (List ℕ) :=
  (s.traverse s.startPath (-1, none) (getNodeAtPath root s.startPath)).2

/-! ## What the searches find -/

/-- The search goes into a node that is neither covered nor rare. -/
def enters (path : List ℕ) : Bool :=
  !decide (1 ≤ s.coverage path ∨ s.games path < s.minGames)

/-- The search looks for a gap at a node below the start where the opponent is to move, or the
user is and the node is the last of its line. -/
def looksAt (path : List ℕ) (t : TreeNode ι) : Bool :=
  decide (s.startPath.length < path.length) &&
    (!s.isUserTurn t.label || t.children.isEmpty)

theorem enters_eq_true_iff (path : List ℕ) :
    s.enters path = true ↔ ¬(1 ≤ s.coverage path ∨ s.games path < s.minGames) := by
  rw [enters, Bool.not_eq_true', decide_eq_false_iff_not]

theorem looksAt_node (path : List ℕ) (data : NodeData ι) (children : List (TreeNode ι)) :
    s.looksAt path (.node data children) = (decide (s.startPath.length < path.length) &&
      (!s.isUserTurn data || children.isEmpty)) :=
  rfl

/-- The nodes at which the search looks for a gap, in the order of the walk. -/
def candidates (root : TreeNode ι) : List (List ℕ) :=
  RoseTree.picked s.enters s.looksAt s.startPath (getNodeAtPath root s.startPath)

mutual

theorem findNextInSubtree_eq (path : List ℕ) :
    ∀ t : TreeNode ι, s.findNextInSubtree path t =
      (RoseTree.picked s.enters s.looksAt path t).head?
  | .node data children => by
      have hchildren := findNextInChildren_eq path 0 children
      rw [findNextInSubtree, RoseTree.picked]
      by_cases hpruned : 1 ≤ s.coverage path ∨ s.games path < s.minGames
      · rw [if_pos hpruned, if_neg fun h ↦ (s.enters_eq_true_iff path).mp h hpruned]
        rfl
      · rw [if_neg hpruned, if_pos ((s.enters_eq_true_iff path).mpr hpruned), hchildren,
          List.head?_append, looksAt_node]
        cases (RoseTree.pickedBelow s.enters s.looksAt path 0 children).head? with
        | some result => rfl
        | none =>
            by_cases hbelow : s.startPath.length < path.length
            · rw [if_pos hbelow, decide_eq_true hbelow]
              cases s.isUserTurn data <;> cases children.isEmpty <;> rfl
            · rw [if_neg hbelow, decide_eq_false hbelow]
              rfl

theorem findNextInChildren_eq (path : List ℕ) (i : ℕ) :
    ∀ cs : List (TreeNode ι), s.findNextInChildren path i cs =
      (RoseTree.pickedBelow s.enters s.looksAt path i cs).head?
  | [] => by
      rw [findNextInChildren, RoseTree.pickedBelow]
      rfl
  | child :: children => by
      have hchild := findNextInSubtree_eq (path ++ [i]) child
      have hchildren := findNextInChildren_eq path (i + 1) children
      rw [findNextInChildren, RoseTree.pickedBelow, List.head?_append, hchild, hchildren]
      cases (RoseTree.picked s.enters s.looksAt (path ++ [i]) child).head? with
      | none => rfl
      | some result => rfl

end

mutual

theorem traverse_eq (path : List ℕ) (best : Best) :
    ∀ t : TreeNode ι, s.traverse path best t =
      (RoseTree.picked s.enters s.looksAt path t).foldl s.consider best
  | .node data children => by
      have hchildren := traverseChildren_eq path 0 best children
      rw [traverse, RoseTree.picked]
      by_cases hpruned : 1 ≤ s.coverage path ∨ s.games path < s.minGames
      · rw [if_pos hpruned, if_neg fun h ↦ (s.enters_eq_true_iff path).mp h hpruned]
        rfl
      · rw [if_neg hpruned, if_pos ((s.enters_eq_true_iff path).mpr hpruned), hchildren,
          List.foldl_append, looksAt_node]
        dsimp only
        by_cases hbelow : s.startPath.length < path.length
        · rw [if_pos hbelow, decide_eq_true hbelow]
          cases s.isUserTurn data <;> cases children.isEmpty <;> rfl
        · rw [if_neg hbelow, decide_eq_false hbelow]
          rfl

theorem traverseChildren_eq (path : List ℕ) (i : ℕ) (best : Best) :
    ∀ cs : List (TreeNode ι), s.traverseChildren path i best cs =
      (RoseTree.pickedBelow s.enters s.looksAt path i cs).foldl s.consider best
  | [] => by
      rw [traverseChildren, RoseTree.pickedBelow]
      rfl
  | child :: children => by
      rw [traverseChildren, RoseTree.pickedBelow, List.foldl_append,
        traverse_eq (path ++ [i]) best child, traverseChildren_eq path (i + 1) _ children]

end

/-! ## The biggest candidate -/

/-- The best of the candidates so far: none, or one with the most missing games and, among those,
the shortest path. -/
def IsBest (seen : List (List ℕ)) (best : Best) : Prop :=
  (seen = [] ∧ best = (-1, none)) ∨
    ∃ path ∈ seen, best = ((s.missing path : ℤ), some path) ∧
      ∀ q ∈ seen, s.missing q < s.missing path ∨
        s.missing q = s.missing path ∧ path.length ≤ q.length

theorem isBest_consider {seen : List (List ℕ)} {best : Best} (h : s.IsBest seen best)
    (path : List ℕ) :
    s.IsBest (seen ++ [path]) (s.consider best path) := by
  rcases h with ⟨rfl, rfl⟩ | ⟨bestPath, hmem, rfl, hbest⟩
  · have hlt : (-1 : ℤ) < s.missing path := by omega
    refine .inr ⟨path, List.mem_singleton.mpr rfl, ?_, fun q hq ↦ ?_⟩
    · rw [consider, if_pos hlt]
    · rw [List.mem_singleton.mp hq]
      exact .inr ⟨rfl, le_rfl⟩
  · have hseen : ∀ q ∈ seen ++ [path], q ∈ seen ∨ q = path := by
      intro q hq
      rcases List.mem_append.mp hq with hq | hq
      · exact .inl hq
      · exact .inr (List.mem_singleton.mp hq)
    have hold : bestPath ∈ seen ++ [path] := List.mem_append_left _ hmem
    have hnew : path ∈ seen ++ [path] := List.mem_append_right _ (List.mem_singleton.mpr rfl)
    rw [consider]
    dsimp only
    by_cases hlt : (s.missing bestPath : ℤ) < s.missing path
    · rw [if_pos hlt]
      refine .inr ⟨path, hnew, rfl, fun q hq ↦ ?_⟩
      rcases hseen q hq with hq | rfl
      · have hle := hbest q hq
        omega
      · exact .inr ⟨rfl, le_rfl⟩
    · rw [if_neg hlt]
      by_cases heq : (s.missing path : ℤ) = s.missing bestPath
      · rw [if_pos heq]
        by_cases hshort : path.length < bestPath.length
        · rw [if_pos hshort]
          refine .inr ⟨path, hnew, by rw [heq], fun q hq ↦ ?_⟩
          rcases hseen q hq with hq | rfl
          · have hle := hbest q hq
            omega
          · exact .inr ⟨rfl, le_rfl⟩
        · rw [if_neg hshort]
          refine .inr ⟨bestPath, hold, rfl, fun q hq ↦ ?_⟩
          rcases hseen q hq with hq | rfl
          · exact hbest q hq
          · exact .inr ⟨by omega, by omega⟩
      · rw [if_neg heq]
        refine .inr ⟨bestPath, hold, rfl, fun q hq ↦ ?_⟩
        rcases hseen q hq with hq | rfl
        · exact hbest q hq
        · exact .inl (by omega)

theorem isBest_foldl {seen rest : List (List ℕ)} {best : Best} (h : s.IsBest seen best) :
    s.IsBest (seen ++ rest) (rest.foldl s.consider best) := by
  induction rest generalizing seen best with
  | nil => rwa [List.append_nil]
  | cons path rest ih =>
      have hstep := ih (s.isBest_consider h path)
      rwa [List.append_assoc] at hstep

theorem findNextGap_eq (root : TreeNode ι) :
    s.findNextGap root = (s.candidates root).head? :=
  s.findNextInSubtree_eq _ _

theorem isBest_findBiggestGap (root : TreeNode ι) :
    s.IsBest (s.candidates root)
      (s.traverse s.startPath (-1, none) (getNodeAtPath root s.startPath)) := by
  rw [traverse_eq]
  exact s.isBest_foldl (.inl ⟨rfl, rfl⟩)

theorem findBiggestGap_eq_none_iff (root : TreeNode ι) :
    s.findBiggestGap root = none ↔ s.candidates root = [] := by
  rw [findBiggestGap]
  rcases s.isBest_findBiggestGap root with ⟨hnil, hbest⟩ | ⟨path, hmem, hbest, -⟩
  · rw [hbest, hnil]
    exact ⟨fun _ ↦ rfl, fun _ ↦ rfl⟩
  · rw [hbest]
    constructor
    · intro h
      cases h
    · intro hnil
      rw [hnil] at hmem
      cases hmem

theorem findBiggestGap_eq_some {root : TreeNode ι} {path : List ℕ}
    (h : s.findBiggestGap root = some path) :
    path ∈ s.candidates root ∧ ∀ q ∈ s.candidates root, s.missing q < s.missing path ∨
      s.missing q = s.missing path ∧ path.length ≤ q.length := by
  rw [findBiggestGap] at h
  rcases s.isBest_findBiggestGap root with ⟨-, hbest⟩ | ⟨path', hmem, hbest, hall⟩
  · rw [hbest] at h
    cases h
  · rw [hbest] at h
    obtain rfl := Option.some.inj h
    exact ⟨hmem, hall⟩

end GapSearch

/-! ## When the gaps are gaps -/

namespace Repertoire

variable (g : Repertoire) (C : Chessops)

/-- The search over the coverage of a repertoire. -/
def gapSearch (root : TreeNode ι) (startPath : List ℕ) : GapSearch where
  startPath := startPath
  userColor := g.orientation
  maps := g.buildPathMaps C root startPath
  minGames := g.minGames

/-- The path leads to a position that misses a reply. -/
def IsGap (root : TreeNode ι) (startPath path : List ℕ) : Prop :=
  ∃ boardFen, boardAt C root startPath path = some boardFen ∧ g.MissesReply boardFen

/-- The node is one that the searches consider: below the start, with neither it nor a node above
it covered or rare, and the opponent to move or no move below it. -/
def Considers (root : TreeNode ι) (startPath path : List ℕ) : Prop :=
  ∃ rel, path = startPath ++ rel ∧ RoseTree.Picks (g.gapSearch C root startPath).enters
    (g.gapSearch C root startPath).looksAt startPath (getNodeAtPath root startPath) rel

/-- What the two searches promise. -/
structure FindsGaps (root : TreeNode ι) (startPath : List ℕ) : Prop where
  agree : (g.gapSearch C root startPath).findNextGap root = none ↔
    (g.gapSearch C root startPath).findBiggestGap root = none
  next : ∀ path, (g.gapSearch C root startPath).findNextGap root = some path →
    g.IsGap C root startPath path
  biggest : ∀ path, (g.gapSearch C root startPath).findBiggestGap root = some path →
    g.IsGap C root startPath path ∧ ∀ q, g.Considers C root startPath q →
      (g.gapSearch C root startPath).missing q < (g.gapSearch C root startPath).missing path ∨
        (g.gapSearch C root startPath).missing q = (g.gapSearch C root startPath).missing path ∧
          path.length ≤ q.length

variable {g C}

theorem mem_candidates {root : TreeNode ι} {startPath path : List ℕ} :
    path ∈ (g.gapSearch C root startPath).candidates root ↔ g.Considers C root startPath path :=
  RoseTree.mem_picked

theorem missing_pos_iff {root : TreeNode ι} {startPath path : List ℕ} :
    0 < (g.gapSearch C root startPath).missing path ↔ g.IsGap C root startPath path := by
  rw [GapSearch.missing, IsGap]
  change 0 < ((boardAt C root startPath path).bind fun boardFen ↦
    (g.fenCoverageCache boardFen).map Coverage.missing).getD 0 ↔ _
  cases boardAt C root startPath path with
  | none =>
      constructor
      · intro h
        exact absurd h (lt_irrefl 0)
      · rintro ⟨boardFen, hboard, -⟩
        cases hboard
  | some boardFen =>
      rw [Option.bind_some]
      constructor
      · intro h
        refine ⟨boardFen, rfl, (g.missingGames_pos_iff boardFen).mp ?_⟩
        cases hvalue : g.fenCoverageCache boardFen with
        | none =>
            rw [hvalue] at h
            exact absurd h (lt_irrefl 0)
        | some value =>
            rw [hvalue] at h
            rw [← g.missing_of_fenCoverageCache hvalue]
            exact h
      · rintro ⟨boardFen', hboard, hmisses⟩
        obtain rfl := Option.some.inj hboard
        obtain ⟨value, hvalue, hpos⟩ := g.fenCoverageCache_of_missesReply hmisses
        rw [hvalue]
        exact hpos

end Repertoire

namespace TwoOrders

/-! ## Two move orders -/

/-- Black plays `a6` and `h6` in either order, White the king move in between. -/
def start : Text := "4k3/p6p/8/8/8/8/8/4K3 b - -".toList

def afterA6 : Text := "4k3/7p/p7/8/8/8/8/4K3 w - -".toList

def afterA6King : Text := "4k3/7p/p7/8/8/8/3K4/8 b - -".toList

def afterH6 : Text := "4k3/p7/7p/8/8/8/8/4K3 w - -".toList

def afterH6King : Text := "4k3/p7/7p/8/8/8/3K4/8 b - -".toList

/-- The position both orders lead to. -/
def afterBoth : Text := "4k3/8/p6p/8/8/8/3K4/8 w - -".toList

/-- White's reply to it, which Black may answer with `a5`. -/
def afterReply : Text := "4k3/8/p6p/8/8/3K4/8/8 b - -".toList

def data (moves : List String) : DbData where
  moves := moves.map fun move ↦ ⟨move.toList, 10, 0, 0⟩
  total := 10 * moves.length

/-- A repertoire for White with both orders, and the reply in the second one only. -/
def repertoire : Repertoire where
  dbCache :=
    [(start, data ["a6", "h6"]), (afterA6, data ["Kd2"]), (afterA6King, data ["h6"]),
      (afterH6, data ["Kd2"]), (afterH6King, data ["a6"]), (afterBoth, data ["Kd3"]),
      (afterReply, data ["a5"])]
  stateMoves :=
    [(start, [("a6".toList, afterA6), ("h6".toList, afterH6)]),
      (afterA6, [("Kd2".toList, afterA6King)]), (afterA6King, [("h6".toList, afterBoth)]),
      (afterH6, [("Kd2".toList, afterH6King)]), (afterH6King, [("a6".toList, afterBoth)]),
      (afterBoth, [("Kd3".toList, afterReply)])]
  orientation := .white
  minGames := 1

def node (fen : Text) (halfMoves : ℤ) (clocks : String) (children : List (TreeNode Unit)) :
    TreeNode Unit :=
  .node
    { ref := ()
      fen := fen ++ clocks.toList
      move := none
      san := none
      score := none
      depth := none
      halfMoves := halfMoves
      shapes := []
      nags := []
      comment := []
      commands := none
      startingComment := none
      clock := none
      gameEnd := none }
    children

def tree : TreeNode Unit :=
  node start 1 " 0 1"
    [node afterA6 2 " 0 2" [node afterA6King 3 " 1 2" [node afterBoth 4 " 0 3" []]],
      node afterH6 2 " 0 2" [node afterH6King 3 " 1 2"
        [node afterBoth 4 " 0 3" [node afterReply 5 " 1 3" []]]]]

end TwoOrders

end EnCroissant

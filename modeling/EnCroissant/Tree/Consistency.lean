import EnCroissant.Library.Families
import EnCroissant.Report.Variations
import EnCroissant.Tree.MainLine

/-!
# Positions and ply counts of a tree

Every node caches its position and its ply count.  They are consistent when each node
follows from its parent by its move; every edit of the tree keeps that.
-/

namespace EnCroissant

open RoseTree

/-- What is used of the rules library: positions that differ only in what no move and no FEN
shows are told apart by nothing, and a FEN that was written after a legal move is read back as
such a position. -/
structure Chessops.FenLaws (C : Chessops) where
  Same : C.Chess → C.Chess → Prop
  equivalence : Equivalence Same
  legal : ∀ {p q} move, Same p q → C.isLegal p move = C.isLegal q move
  san : ∀ {p q} move, Same p q → C.isLegal p move = true → C.makeSan p move = C.makeSan q move
  play : ∀ {p q} move, Same p q → C.isLegal p move = true → Same (C.play p move) (C.play q move)
  fen : ∀ {p q}, Same p q → C.makeFen (C.toSetup p) = C.makeFen (C.toSetup q)
  parseSan : ∀ {p q} text, Same p q → C.parseSan p text = C.parseSan q text
  reread : ∀ p move, C.isLegal p move = true →
    ∃ q, positionFromFen C (C.makeFen (C.toSetup (C.play p move))) = some q ∧
      Same (C.play p move) q
  /-- The notation is read as a legal move only. -/
  parseSan_legal : ∀ {p text move}, C.parseSan p text = some move → C.isLegal p move = true
  /-- The notation tells moves apart, up to two spellings of castling. -/
  san_injective : ∀ {p move move'}, C.isLegal p move = true → C.isLegal p move' = true →
    C.makeSan p move = C.makeSan p move' → Same (C.play p move) (C.play p move')
  trim : ∀ setup, (C.makeFen setup).trim = C.makeFen setup ∧ C.makeFen setup ≠ []

variable {ι : Type} {C : Chessops}

/-- The node of a legal move from its parent. -/
structure Follows (C : Chessops) (parent child : NodeData ι) : Prop where
  position : ∃ pos move, positionFromFen C parent.fen = some pos ∧ child.move = some move ∧
    C.isLegal pos move = true ∧ child.san = some (C.makeSan pos move) ∧
      child.fen = C.makeFen (C.toSetup (C.play pos move))
  halfMoves : child.halfMoves = parent.halfMoves + 1

/-- Every node follows from its parent. -/
def FollowsOn (C : Chessops) (t : TreeNode ι) : Prop :=
  Families (fun parent children ↦ ∀ child ∈ children, Follows C parent child) t

/-- Positions and ply counts agree with the moves. -/
structure Consistent (C : Chessops) (root : TreeNode ι) : Prop where
  follows : FollowsOn C root
  root : root.label.halfMoves = rootHalfMoves C root.label.fen

/-- The ply count of a node is that of the root and its depth. -/
theorem Consistent.halfMoves {root : TreeNode ι} (h : Consistent C root) {path : List ℕ}
    {data : NodeData ι} (hdata : root.labelAt path = some data) :
    data.halfMoves = rootHalfMoves C root.label.fen + path.length := by
  rw [← h.root]
  exact Families.depth (fun _ _ hR k hk ↦ (hR k hk).halfMoves) h.follows hdata

/-- A node has the position after its move on its parent. -/
theorem FollowsOn.child {t : TreeNode ι} (h : FollowsOn C t) {path : List ℕ} {i : ℕ}
    {u c : TreeNode ι} (hu : t.nodeAt path = some u) (hc : u.children[i]? = some c) :
    Follows C u.label c.label :=
  (h.nodeAt hu).family c.label (List.mem_map_of_mem (List.mem_of_getElem? hc))

theorem FollowsOn.node {data : NodeData ι} {children : List (TreeNode ι)}
    (h : ∀ c ∈ children, Follows C data c.label ∧ FollowsOn C c) :
    FollowsOn C (.node data children) := by
  refine Families.node (fun child hchild ↦ ?_) fun c hc ↦ (h c hc).2
  obtain ⟨c, hc, rfl⟩ := List.mem_map.mp hchild
  exact (h c hc).1

theorem FollowsOn.children {t : TreeNode ι} (h : FollowsOn C t) :
    ∀ c ∈ t.children, Follows C t.label c.label ∧ FollowsOn C c :=
  fun c hc ↦ ⟨h.family c.label (List.mem_map_of_mem hc), Families.child h c hc⟩

/-- An edit of the children of one node. -/
theorem FollowsOn.updateChildren {t : TreeNode ι} (h : FollowsOn C t)
    {f : List (TreeNode ι) → List (TreeNode ι)} {path : List ℕ}
    (hf : ∀ c ∈ f (t.deepest path).children,
      Follows C (t.deepest path).label c.label ∧ FollowsOn C c) :
    FollowsOn C (t.updateChildren f path) := by
  refine Families.updateChildren h (fun child hchild ↦ ?_) fun c hc ↦ (hf c hc).2
  obtain ⟨c, hc, rfl⟩ := List.mem_map.mp hchild
  exact (hf c hc).1

theorem Consistent.updateChildren {t : TreeNode ι} (h : Consistent C t)
    {f : List (TreeNode ι) → List (TreeNode ι)} {path : List ℕ}
    (hf : ∀ c ∈ f (t.deepest path).children,
      Follows C (t.deepest path).label c.label ∧ FollowsOn C c) :
    Consistent C (t.updateChildren f path) where
  follows := h.follows.updateChildren hf
  root := by rw [label_updateChildren, h.root]

/-- An edit that brings in no new child. -/
theorem Consistent.updateChildren_of_subset {t : TreeNode ι} (h : Consistent C t)
    (f : List (TreeNode ι) → List (TreeNode ι)) (path : List ℕ)
    (hf : f (t.deepest path).children ⊆ (t.deepest path).children) :
    Consistent C (t.updateChildren f path) :=
  h.updateChildren fun c hc ↦ FollowsOn.children (h.follows.deepest path) c (hf hc)

theorem consistent_defaultTree (ref : ι) (fen : Text) :
    Consistent C (defaultTree C ref fen).root where
  follows := .leaf (by simp)
  root := rfl

theorem parseSanOrUci_legal (laws : C.FenLaws) {pos : C.Chess} {text : Text} {move : BoardMove}
    (h : parseSanOrUci C pos text = some move) : C.isLegal pos move = true := by
  rw [parseSanOrUci] at h
  split at h
  · next hsan =>
    rw [← Option.some.inj h]
    exact laws.parseSan_legal hsan
  · split at h
    · split_ifs at h with hlegal
      rw [← Option.some.inj h]
      exact hlegal
    · cases h

/-! ## Playing a move -/

theorem follows_moveChild (fresh : ι) {parent : NodeData ι} {pos : C.Chess} {args : MoveArgs}
    (hpos : positionFromFen C parent.fen = some pos) (hlegal : C.isLegal pos args.move = true) :
    Follows C parent (moveChild C fresh parent pos args).label :=
  ⟨⟨pos, args.move, hpos, rfl, hlegal, rfl, rfl⟩, rfl⟩

theorem consistent_insertMove {s : TreeState ι} (h : Consistent C s.root) (args : MoveArgs)
    {path : List ℕ} {node : TreeNode ι}
    (hfollows : Follows C (s.root.deepest path).label node.label) (hbelow : FollowsOn C node) :
    Consistent C (insertMove s args path node).root := by
  rw [(root_insertMove s args path node).1, (root_insertChild s args path node).1]
  have hold := FollowsOn.children (h.follows.deepest path)
  refine h.updateChildren fun c hc ↦ ?_
  split at hc
  · rcases List.mem_cons.mp hc with rfl | hc
    · exact ⟨hfollows, hbelow⟩
    · exact hold c hc
  · rcases List.mem_append.mp hc with hc | hc
    · exact hold c hc
    · rw [List.mem_singleton.mp hc]
      exact ⟨hfollows, hbelow⟩

theorem consistent_makeMove {s : TreeState ι} (h : Consistent C s.root) (fresh : ι)
    (args : MoveArgs) : Consistent C (makeMove C fresh s args).root := by
  rcases makeMove_cases C fresh s args with
    ⟨-, hs'⟩ | ⟨pos, result, hpos, hlegal, -, ⟨i, -, hs'⟩ | hs'⟩
  · rw [hs']
    exact h
  · rw [hs']
    split_ifs <;> exact h
  · rw [hs']
    refine consistent_insertMove (s := s.withResult result) h args ?_ ?_
    · exact follows_moveChild fresh hpos hlegal
    · exact .leaf (by simp)

/-! ## Deleting and promoting -/

theorem consistent_deleteMove {s : TreeState ι} (h : Consistent C s.root) (path : List ℕ) :
    Consistent C (deleteMove s path).root := by
  unfold deleteMove
  split_ifs
  · exact h
  · dsimp only
    split
    · exact h
    · exact h.updateChildren_of_subset (·.eraseIdx _) _ List.eraseIdx_subset

theorem consistent_promoteVariation {s s' : TreeState ι} {path path' : List ℕ}
    (h : Consistent C s.root) (hs' : promoteVariation s path = some (s', path')) :
    Consistent C s'.root := by
  rw [promoteVariation] at hs'
  split at hs'
  · obtain ⟨rfl, -⟩ := Prod.mk.inj (Option.some.inj hs')
    exact h
  · next i hi =>
    dsimp only at hs'
    split at hs'
    · cases hs'
    · next child hchild =>
      obtain ⟨rfl, -⟩ := Prod.mk.inj (Option.some.inj hs')
      have hsubset : child :: (getNodeAtPath s.root (path.take i)).children.eraseIdx (path.getD i 0) ⊆
          (getNodeAtPath s.root (path.take i)).children :=
        List.cons_subset.mpr ⟨List.mem_of_getElem? hchild, List.eraseIdx_subset⟩
      exact h.updateChildren_of_subset (child :: ·.eraseIdx (path.getD i 0)) _ hsubset

theorem consistent_promoteAll {s s' : TreeState ι} {path : List ℕ} (h : Consistent C s.root)
    (hs' : promoteAll s path = some s') : Consistent C s'.root := by
  fun_induction promoteAll s path with
  | case1 s path hany hnone => cases hs'
  | case2 s path hany s₁ path₁ hstep ih =>
      exact ih (consistent_promoteVariation h hstep) hs'
  | case3 s path hany =>
      obtain rfl := Option.some.inj hs'
      exact h

/-! ## Adding a report -/

/-- Two nodes with the same move, position and ply count. -/
def SamePly (data data' : NodeData ι) : Prop :=
  data'.fen = data.fen ∧ data'.move = data.move ∧ data'.san = data.san ∧
    data'.halfMoves = data.halfMoves

theorem Reannotates.samePly {data data' : NodeData ι} (h : Reannotates data data') :
    SamePly data data' := by
  rw [h.rest]
  exact ⟨rfl, rfl, rfl, rfl⟩

theorem Follows.samePly {parent parent' child child' : NodeData ι} (h : Follows C parent child)
    (hparent : SamePly parent parent') (hchild : SamePly child child') :
    Follows C parent' child' := by
  obtain ⟨hfen, -, -, hply⟩ := hparent
  obtain ⟨hfen', hmove', hsan', hply'⟩ := hchild
  refine ⟨?_, by rw [hply', hply, h.halfMoves]⟩
  rw [hfen, hmove', hsan', hfen']
  exact h.position

/-- A variation of legal moves, hung below a node with its first position. -/
theorem Spells.follows (laws : C.FenLaws) {pos : C.Chess} {halfMoves : ℤ} {line : List Text}
    {t : TreeNode ι} (h : Spells C pos halfMoves line t) {parent : NodeData ι} {pos' : C.Chess}
    (hpos : positionFromFen C parent.fen = some pos') (hsame : laws.Same pos pos')
    (hply : parent.halfMoves = halfMoves) : Follows C parent t.label ∧ FollowsOn C t := by
  have hfirst : ∀ {pos : C.Chess} {halfMoves : ℤ} {uci : Text} {move : BoardMove}
      {data parent : NodeData ι} {pos' : C.Chess}, NodeOfMove C pos halfMoves uci move data →
      positionFromFen C parent.fen = some pos' → laws.Same pos pos' →
      parent.halfMoves = halfMoves → Follows C parent data := by
    intro pos halfMoves uci move data parent pos' hnode hpos hsame hply
    have hlegal := hnode.legal
    refine ⟨⟨pos', move, hpos, hnode.played, (laws.legal move hsame).symm.trans hlegal, ?_, ?_⟩,
      by rw [hnode.halfMoves, hply]⟩
    · rw [hnode.san, laws.san move hsame hlegal]
    · rw [hnode.fen, laws.fen (laws.play move hsame hlegal)]
  induction h generalizing parent pos' with
  | last first => exact ⟨hfirst first hpos hsame hply, .leaf (by simp)⟩
  | @next pos halfMoves uci rest move data child first later ih =>
      obtain ⟨q, hq, hsame'⟩ := laws.reread pos move first.legal
      have hbelow : Follows C data child.label ∧ FollowsOn C child :=
        ih (by rw [first.fen, hq]) hsame' first.halfMoves
      refine ⟨hfirst first hpos hsame hply, FollowsOn.node fun c hc ↦ ?_⟩
      rw [List.mem_singleton.mp hc]
      exact hbelow

section

variable { getAnnotation : GetAnnotation} {analysis : List (MoveAnalysis BestMoves)}
  {showVariations : Bool} {fresh : ℕ → ℕ → ι}

theorem LegalReport.first {n : ℕ} {data : NodeData ι} {child : TreeNode ι}
    {rest : List (TreeNode ι)} (h : LegalReport C analysis n (.node data (child :: rest))) :
    LegalReport C analysis (n + 1) child := by
  intro i d current line pos hd hcurrent hline hpos
  refine h (i + 1) d current line pos ?_ ?_ hline hpos
  · rw [List.replicate_succ, labelAt, nodeAt_cons, children_node, List.getElem?_cons_zero,
      Option.bind_some]
    exact hd
  · rw [← hcurrent]
    congr 1
    omega

theorem followsOn_addAnalysisFrom (moves : C.NormalMoves) (laws : C.FenLaws) {n : ℕ}
    {t : TreeNode ι} (h : FollowsOn C t) (hreport : LegalReport C analysis n t) :
    FollowsOn C (addAnalysisFrom C getAnnotation analysis showVariations fresh n t) := by
  induction t using mainLineEnd.induct generalizing n with
  | case1 data =>
      rw [addAnalysisFrom]
      exact .leaf (by simp)
  | case2 data child rest ih =>
      have hself : OnlyAnnotated C analysis n [] (.node data (child :: rest))
          (addAnalysisFrom C getAnnotation analysis showVariations fresh n
            (.node data (child :: rest))) := onlyAnnotated_self moves hreport
      have hchildren := FollowsOn.children h
      have hply : SamePly data (annotate C getAnnotation analysis n data) :=
        (reannotates_annotate n data).samePly
      rw [addAnalysisFrom_cons] at hself ⊢
      refine FollowsOn.node fun c hc ↦ ?_
      rcases List.mem_cons.mp hc with rfl | hc
      · obtain ⟨hfollows, hbelow⟩ := hchildren child (List.mem_cons_self)
        refine ⟨hfollows.samePly hply ?_, ih hbelow hreport.first⟩
        rw [label_addAnalysisFrom]
        exact (reannotates_annotate (n + 1) child.label).samePly
      · rcases List.mem_append.mp hc with hc | hc
        · obtain ⟨hfollows, hbelow⟩ := hchildren c (List.mem_cons_of_mem _ hc)
          exact ⟨hfollows.samePly hply ⟨rfl, rfl, rfl, rfl⟩, hbelow⟩
        · obtain ⟨current, line, pos, -, -, hpos, hspells, -⟩ := hself.added c (by
            rw [children_node, children_node, List.length_cons, List.drop_succ_cons,
              List.drop_left]
            exact hc)
          refine hspells.follows laws ?_ (laws.equivalence.refl pos) hply.2.2.2
          rw [hply.1]
          exact hpos

theorem consistent_addAnalysis (moves : C.NormalMoves) (laws : C.FenLaws) {root : TreeNode ι}
    (h : Consistent C root) (hreport : LegalReport C analysis 0 root) :
    Consistent C (addAnalysis C getAnnotation analysis showVariations fresh root) where
  follows := followsOn_addAnalysisFrom moves laws h.follows hreport
  root := by
    have hply : SamePly root.label (annotate C getAnnotation analysis 0 root.label) :=
      (reannotates_annotate 0 root.label).samePly
    rw [addAnalysis, label_addAnalysisFrom, hply.1, hply.2.2.2, h.root]

end

namespace KingPawn

theorem positionFromFen_fen (game : Game) : positionFromFen chessops game.fen = some game := by
  cases game <;> decide

theorem isLegal_iff {game : Game} {move : BoardMove} :
    chessops.isLegal game move = true ↔ ∃ found ∈ game.moves, found.1 = move := by
  simp only [List.any_eq_true, beq_iff_eq]

/-- The sample tells its positions and its moves apart. -/
def fenLaws : chessops.FenLaws where
  Same := Eq
  equivalence := eq_equivalence
  legal := by
    rintro p q move rfl
    rfl
  san := by
    rintro p q move rfl -
    rfl
  play := by
    rintro p q move rfl -
    rfl
  fen := by
    rintro p q rfl
    rfl
  parseSan := by
    rintro p q text rfl
    rfl
  reread p move _ := ⟨chessops.play p move, positionFromFen_fen _, rfl⟩
  parseSan_legal := by
    intro p text move h
    obtain ⟨found, hfound, rfl⟩ := Option.map_eq_some_iff.mp h
    exact isLegal_iff.mpr ⟨found, List.mem_of_find?_eq_some hfound, rfl⟩
  san_injective := by
    intro p move move' h h' heq
    obtain ⟨found, hfound, rfl⟩ := isLegal_iff.mp h
    obtain ⟨found', hfound', rfl⟩ := isLegal_iff.mp h'
    revert heq
    revert found found'
    cases p <;> decide
  trim setup := by cases setup <;> exact ⟨by decide, by decide⟩

end KingPawn

end EnCroissant

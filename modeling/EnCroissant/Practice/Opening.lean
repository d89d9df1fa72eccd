import EnCroissant.Library.Firsts
import EnCroissant.Library.Record
import EnCroissant.Practice.Clients
import EnCroissant.Tree.Edits

/-!
# The deck of a repertoire

A deck has a card for every board state of the repertoire in which the learner is to
move and an answer is known.  Synchronising a deck with the tree rebuilds its positions
and keeps the cards it had.
-/

namespace EnCroissant.Practice.Opening

open RoseTree Firsts

variable {ι Card : Type}

/-! ## Walking through a tree -/

/-- A node with its path. -/
abbrev ListNode (ι : Type) := List ℕ × TreeNode ι

mutual

def nodeCount : TreeNode ι → ℕ
  | .node _ cs => 1 + nodesCount cs

def nodesCount : List (TreeNode ι) → ℕ
  | [] => 0
  | c :: cs => nodeCount c + nodesCount cs

end

/-- The children of a node from an index on, with their paths. -/
def listNodes (position : List ℕ) (i : ℕ) : List (TreeNode ι) → List (ListNode ι)
  | [] => []
  | c :: cs => (position ++ [i], c) :: listNodes position (i + 1) cs

theorem nodesCount_append (cs cs' : List (TreeNode ι)) :
    nodesCount (cs ++ cs') = nodesCount cs + nodesCount cs' := by
  induction cs with
  | nil => simp [nodesCount]
  | cons c cs ih => rw [List.cons_append, nodesCount, nodesCount, ih, Nat.add_assoc]

theorem map_snd_listNodes (position : List ℕ) (i : ℕ) (cs : List (TreeNode ι)) :
    (listNodes position i cs).map Prod.snd = cs := by
  induction cs generalizing i with
  | nil => rfl
  | cons c cs ih => rw [listNodes, List.map_cons, ih]

theorem nodesCount_children (t : TreeNode ι) : nodeCount t = 1 + nodesCount t.children := by
  cases t
  rw [nodeCount, children_node]

/-- The loop of `treeIterator`; the top of the stack comes first. -/
def treeIteratorFrom : List (ListNode ι) → List (ListNode ι)
  | [] => []
  | item :: stack => item :: treeIteratorFrom (listNodes item.1 0 item.2.children ++ stack)
termination_by stack => nodesCount (stack.map Prod.snd)
decreasing_by
  rw [List.map_append, map_snd_listNodes, nodesCount_append, List.map_cons, nodesCount,
    nodesCount_children]
  omega

def treeIterator (node : TreeNode ι) : List (ListNode ι) := treeIteratorFrom [([], node)]

mutual

/-- The nodes of a tree in pre-order. -/
def preOrder (position : List ℕ) : TreeNode ι → List (ListNode ι)
  | .node data cs => (position, .node data cs) :: preOrders position 0 cs

def preOrders (position : List ℕ) (i : ℕ) : List (TreeNode ι) → List (ListNode ι)
  | [] => []
  | c :: cs => preOrder (position ++ [i]) c ++ preOrders position (i + 1) cs

end

theorem flatMap_listNodes (position : List ℕ) (i : ℕ) (cs : List (TreeNode ι)) :
    (listNodes position i cs).flatMap (fun item ↦ preOrder item.1 item.2) =
      preOrders position i cs := by
  induction cs generalizing i with
  | nil => rw [listNodes, List.flatMap_nil, preOrders]
  | cons c cs ih => rw [listNodes, List.flatMap_cons, ih, preOrders]

theorem treeIteratorFrom_eq (stack : List (ListNode ι)) :
    treeIteratorFrom stack = stack.flatMap fun item ↦ preOrder item.1 item.2 := by
  induction stack using treeIteratorFrom.induct with
  | case1 => rw [treeIteratorFrom, List.flatMap_nil]
  | case2 item stack ih =>
      obtain ⟨position, data, cs⟩ := item
      rw [treeIteratorFrom, ih, List.flatMap_append, children_node, flatMap_listNodes,
        List.flatMap_cons, preOrder, List.cons_append]

theorem treeIterator_eq (node : TreeNode ι) : treeIterator node = preOrder [] node := by
  rw [treeIterator, treeIteratorFrom_eq, List.flatMap_singleton]

/-! ## The positions of a repertoire -/

variable (C : Chessops)

/-- The test of the ply count for the colour that is to move. -/
def movesNext (color : Color) (halfMoves : ℤ) : Bool :=
  match color with
  | .white => halfMoves.tmod 2 == 0
  | .black => halfMoves.tmod 2 == 1

/-- The notation of the first move, unless it is missing or empty. -/
def firstSan (node : TreeNode ι) : Option Text :=
  (node.children.head?.bind fun c ↦ c.label.san).filter (· != [])

structure Building (Card : Type) where
  cards : List (Position Card)
  seenBoardStates : List Text

/-- The step of `buildFromTree`.  A new card may depend on how many there are. -/
def buildStep (color : Color) (start : List ℕ) (createEmptyCard : ℕ → Card)
    (building : Building Card) (item : ListNode ι) : Building Card :=
  match firstSan item.2 with
  | none => building
  | some san =>
      if isPrefix item.1 start then building
      else
        let fen := item.2.label.fen
        let boardState := getBoardState C fen
        if boardState ∈ building.seenBoardStates then building
        else if movesNext color item.2.label.halfMoves then
          { cards := building.cards ++ [⟨fen, san, createEmptyCard building.cards.length⟩]
            seenBoardStates := boardState :: building.seenBoardStates }
        else building

def buildFromTree (createEmptyCard : ℕ → Card) (tree : TreeNode ι) (color : Color)
    (start : List ℕ) : List (Position Card) :=
  ((treeIterator tree).foldl (buildStep C color start createEmptyCard) ⟨[], []⟩).cards

/-! ## Synchronising -/

structure SyncResult (Card : Type) where
  positions : List (Position Card)
  added : ℤ
  removed : ℤ
  updated : ℤ
  reordered : Bool

structure Merging (Card : Type) where
  merged : List (Position Card)
  added : ℤ
  updated : ℤ

def existingByFen (existing : List (Position Card)) : Record Text (Position Card) :=
  .ofList (existing.map fun pos ↦ (getBoardState C pos.fen, pos))

def mergeStep (existing : List (Position Card)) (merging : Merging Card) (pos : Position Card) :
    Merging Card :=
  match (existingByFen C existing).get? (getBoardState C pos.fen) with
  | some prev =>
      { merged := merging.merged ++ [{ prev with fen := pos.fen, answer := pos.answer }]
        added := merging.added
        updated :=
          if prev.answer ≠ pos.answer ∨ prev.fen ≠ pos.fen then merging.updated + 1
          else merging.updated }
  | none => { merging with merged := merging.merged ++ [pos], added := merging.added + 1 }

/-- The positions of the tree, merged with the existing ones.  `existing[index]` is read
only where the two have as many positions. -/
def syncPositions (existing freshPositions : List (Position Card)) : SyncResult Card :=
  let ⟨merged, added, updated⟩ := freshPositions.foldl (mergeStep C existing) ⟨[], 0, 0⟩
  let removed : ℤ := existing.length - (freshPositions.length - added)
  { positions := merged
    added := added
    removed := removed
    updated := updated
    reordered := added == 0 && removed == 0 &&
      merged.zipIdx.any fun (pos, index) ↦
        some (getBoardState C pos.fen) !=
          existing[index]?.map fun old ↦ getBoardState C old.fen }

def syncDeck (createEmptyCard : ℕ → Card) (existing : List (Position Card)) (tree : TreeNode ι)
    (color : Color) (start : List ℕ) : SyncResult Card :=
  syncPositions C existing (buildFromTree C createEmptyCard tree color start)

/-! ## What is built -/

/-- A node that is asked for: it has an answer, it is not on the way to the start, and the
learner is to move. -/
def quizzed (color : Color) (start : List ℕ) (item : ListNode ι) : Bool :=
  (firstSan item.2).isSome && !isPrefix item.1 start && movesNext color item.2.label.halfMoves

def boardState (item : ListNode ι) : Text := getBoardState C item.2.label.fen

/-- The nodes that are asked for, one for each board state. -/
def quizNodes (tree : TreeNode ι) (color : Color) (start : List ℕ) : List (ListNode ι) :=
  firstsFrom (boardState C) [] ((preOrder [] tree).filter (quizzed color start))

/-- A new card of a node. -/
structure CardOf (createEmptyCard : ℕ → Card) (item : ListNode ι) (pos : Position Card) : Prop where
  fen : pos.fen = item.2.label.fen
  answer : firstSan item.2 = some pos.answer
  card : ∃ i, pos.card = createEmptyCard i

section

variable {C} {createEmptyCard : ℕ → Card} {color : Color} {start : List ℕ}

theorem buildStep_skipped {building : Building Card} {item : ListNode ι}
    (h : quizzed color start item = false ∨ boardState C item ∈ building.seenBoardStates) :
    buildStep C color start createEmptyCard building item = building := by
  rw [buildStep]
  cases hsan : firstSan item.2 with
  | none => rfl
  | some san =>
      dsimp only
      split_ifs with hbefore hseen hmoves
      · rfl
      · rfl
      · rcases h with h | h
        · simp [quizzed, hsan, hbefore, hmoves] at h
        · exact absurd h hseen
      · rfl

theorem buildStep_adds {building : Building Card} {item : ListNode ι}
    (hquizzed : quizzed color start item = true)
    (hnew : boardState C item ∉ building.seenBoardStates) :
    ∃ pos, CardOf createEmptyCard item pos ∧
      buildStep C color start createEmptyCard building item =
        ⟨building.cards ++ [pos], boardState C item :: building.seenBoardStates⟩ := by
  rw [quizzed, Bool.and_eq_true, Bool.and_eq_true, Bool.not_eq_true',
    Option.isSome_iff_exists] at hquizzed
  obtain ⟨⟨⟨san, hsan⟩, hbefore⟩, hmoves⟩ := hquizzed
  rw [boardState] at hnew
  refine ⟨⟨item.2.label.fen, san, createEmptyCard building.cards.length⟩, ⟨rfl, hsan, _, rfl⟩, ?_⟩
  rw [buildStep, hsan]
  dsimp only
  rw [hbefore, if_neg Bool.false_ne_true, if_neg hnew, if_pos hmoves]
  rfl

theorem foldl_buildStep (items : List (ListNode ι)) (building : Building Card) :
    ∃ cards, List.Forall₂ (CardOf createEmptyCard)
        (firstsFrom (boardState C) building.seenBoardStates (items.filter (quizzed color start)))
        cards ∧
      (items.foldl (buildStep C color start createEmptyCard) building).cards =
        building.cards ++ cards := by
  induction items generalizing building with
  | nil => exact ⟨[], .nil, (List.append_nil _).symm⟩
  | cons item items ih =>
      rw [List.foldl_cons]
      cases hquizzed : quizzed color start item with
      | false =>
          rw [buildStep_skipped (Or.inl hquizzed), List.filter_cons_of_neg (by simp [hquizzed])]
          exact ih building
      | true =>
          rw [List.filter_cons_of_pos hquizzed, firstsFrom]
          by_cases hseen : boardState C item ∈ building.seenBoardStates
          · rw [buildStep_skipped (Or.inr hseen), if_pos hseen]
            exact ih building
          · obtain ⟨pos, hpos, hstep⟩ :=
              buildStep_adds hquizzed hseen
            obtain ⟨cards, hcards, hfold⟩ :=
              ih ⟨building.cards ++ [pos], boardState C item :: building.seenBoardStates⟩
            rw [hstep, if_neg hseen]
            refine ⟨pos :: cards, .cons hpos hcards, ?_⟩
            rw [hfold, List.append_assoc]
            rfl

theorem cardsOf_buildFromTree (tree : TreeNode ι) :
    List.Forall₂ (CardOf createEmptyCard) (quizNodes C tree color start)
      (buildFromTree C createEmptyCard tree color start) := by
  obtain ⟨cards, hcards, hfold⟩ :=
    @foldl_buildStep _ _ C createEmptyCard color start (preOrder [] tree) ⟨[], []⟩
  rw [buildFromTree, treeIterator_eq, hfold]
  exact hcards

theorem keys_of_cardsOf {items : List (ListNode ι)} {cards : List (Position Card)}
    (h : List.Forall₂ (CardOf createEmptyCard) items cards) :
    cards.map (Position.key C) = items.map (boardState C) := by
  induction h with
  | nil => rfl
  | cons hcard _ ih =>
      rw [List.map_cons, List.map_cons, ih, Position.key, hcard.fen]
      rfl

theorem nodup_keys_buildFromTree (tree : TreeNode ι) :
    ((buildFromTree C createEmptyCard tree color start).map (Position.key C)).Nodup := by
  rw [keys_of_cardsOf (cardsOf_buildFromTree tree)]
  exact nodup_keys_firstsFrom _ _

end

/-! ## What is merged -/

/-- The last existing position of a board state. -/
def previous (existing : List (Position Card)) (key : Text) : Option (Position Card) :=
  existing.reverse.find? fun old ↦ old.key C = key

/-- A position whose card is kept, with another answer or move number. -/
def changed (existing : List (Position Card)) (pos : Position Card) : Bool :=
  (previous C existing (pos.key C)).any fun old ↦ old.answer != pos.answer || old.fen != pos.fen

/-- The existing positions whose cards are kept. -/
def keptPositions (existing fresh : List (Position Card)) : List (Position Card) :=
  (lasts (Position.key C) existing).filter fun old ↦ old.key C ∈ fresh.map (Position.key C)

section

variable {C} {existing fresh : List (Position Card)}

theorem get?_existingByFen (existing : List (Position Card)) (key : Text) :
    (existingByFen C existing).get? key = previous C existing key := by
  have hlookup : ∀ positions : List (Position Card),
      @List.lookup _ _ instBEqOfDecidableEq key
          (positions.map fun pos ↦ (getBoardState C pos.fen, pos)) =
        positions.find? fun pos ↦ pos.key C = key := by
    intro positions
    induction positions with
    | nil => rfl
    | cons pos positions ih =>
        rw [List.map_cons, Record.lookup_cons, ih]
        by_cases hkey : pos.key C = key
        · rw [List.find?_cons_of_pos (by simpa using hkey)]
          exact if_pos hkey.symm
        · rw [List.find?_cons_of_neg (by simpa using hkey)]
          exact if_neg fun heq ↦ hkey heq.symm
  rw [existingByFen, Record.get?_ofList, ← List.map_reverse, hlookup, previous]

theorem previous_isSome_iff {key : Text} :
    (previous C existing key).isSome = true ↔ key ∈ existing.map (Position.key C) := by
  rw [previous, List.find?_isSome, List.mem_map]
  simp only [List.mem_reverse, decide_eq_true_eq]

theorem withCardOf_eq (existing : List (Position Card)) (pos : Position Card) :
    withCardOf C existing pos = match previous C existing (pos.key C) with
      | some prev => { pos with card := prev.card }
      | none => pos := rfl

theorem mergeStep_eq (merging : Merging Card) (pos : Position Card) :
    mergeStep C existing merging pos =
      { merged := merging.merged ++ [withCardOf C existing pos]
        added := merging.added + if (previous C existing (pos.key C)).isNone then 1 else 0
        updated := merging.updated + if changed C existing pos then 1 else 0 } := by
  rw [mergeStep, get?_existingByFen, withCardOf_eq, changed, Position.key]
  cases previous C existing (getBoardState C pos.fen) with
  | none => simp
  | some prev =>
      by_cases hchanged : prev.answer ≠ pos.answer ∨ prev.fen ≠ pos.fen
      · simp [hchanged]
      · simp only [hchanged, if_false]
        simp only [not_or, not_not] at hchanged
        simp [hchanged]

theorem foldl_mergeStep (fresh : List (Position Card)) (merging : Merging Card) :
    fresh.foldl (mergeStep C existing) merging =
      { merged := merging.merged ++ fresh.map (withCardOf C existing)
        added := merging.added +
          fresh.countP fun pos ↦ (previous C existing (pos.key C)).isNone
        updated := merging.updated + fresh.countP (changed C existing) } := by
  induction fresh generalizing merging with
  | nil => simp
  | cons pos fresh ih =>
      rw [List.foldl_cons, ih, mergeStep_eq, List.countP_cons, List.countP_cons]
      rw [Merging.mk.injEq]
      refine ⟨?_, ?_, ?_⟩
      · rw [List.append_assoc]
        rfl
      · push_cast
        ring
      · push_cast
        ring

theorem positions_syncPositions (existing fresh : List (Position Card)) :
    (syncPositions C existing fresh).positions = fresh.map (withCardOf C existing) := by
  rw [syncPositions, foldl_mergeStep]
  rfl

/-- The positions are those that a client builds. -/
theorem positions_syncPositions_eq (existing fresh : Positions C Card) :
    (syncPositions C existing.list fresh.list).positions =
      (Practice.syncDeck existing fresh).list :=
  positions_syncPositions existing.list fresh.list

theorem added_syncPositions (existing fresh : List (Position Card)) :
    (syncPositions C existing fresh).added =
      fresh.countP fun pos ↦ (previous C existing (pos.key C)).isNone := by
  rw [syncPositions, foldl_mergeStep]
  exact zero_add _

theorem updated_syncPositions (existing fresh : List (Position Card)) :
    (syncPositions C existing fresh).updated = fresh.countP (changed C existing) := by
  rw [syncPositions, foldl_mergeStep]
  exact zero_add _

theorem removed_eq (existing fresh : List (Position Card)) :
    (syncPositions C existing fresh).removed =
      existing.length - (fresh.length - (syncPositions C existing fresh).added) := rfl

theorem length_keptPositions (hfresh : (fresh.map (Position.key C)).Nodup) :
    (keptPositions C existing fresh).length =
      fresh.countP fun pos ↦ (previous C existing (pos.key C)).isSome := by
  have hlasts : ((lasts (Position.key C) existing).map (Position.key C)).Nodup :=
    nodup_keys_lasts existing
  have hold : ∀ key, decide (key ∈ fresh.map (Position.key C)) = true ↔
      key ∈ fresh.map (Position.key C) := fun _ ↦ decide_eq_true_iff
  have hnew : ∀ key, (previous C existing key).isSome = true ↔
      key ∈ (lasts (Position.key C) existing).map (Position.key C) :=
    fun _ ↦ previous_isSome_iff.trans mem_keys_lasts.symm
  have hcomm := countP_mem_comm hlasts hfresh hold hnew
  rw [List.countP_map, List.countP_map] at hcomm
  rw [keptPositions, ← List.countP_eq_length_filter]
  exact hcomm

/-- What is removed is what is not kept. -/
theorem removed_syncPositions (hfresh : (fresh.map (Position.key C)).Nodup) :
    (syncPositions C existing fresh).removed =
      existing.length - (keptPositions C existing fresh).length := by
  have hsplit : fresh.length = _ := List.length_eq_countP_add_countP
    fun pos ↦ (previous C existing (Position.key C pos)).isSome
  have hnone : fresh.countP (fun pos ↦ (previous C existing (pos.key C)).isNone) =
      fresh.countP fun pos ↦ ¬(previous C existing (pos.key C)).isSome := by
    apply List.countP_congr
    intro pos _
    simp
  rw [removed_eq, added_syncPositions, length_keptPositions hfresh, hnone]
  omega

/-! ## Decks that are up to date -/

/-- Where the board states are those of the deck, each position is the previous one of its
board state. -/
theorem previous_of_keys (hkeys : existing.map (Position.key C) = fresh.map (Position.key C))
    (hfresh : (fresh.map (Position.key C)).Nodup) {old : Position Card} (hold : old ∈ existing) :
    previous C existing (old.key C) = some old := by
  have hlasts : lasts (Position.key C) existing = existing := lasts_of_nodup (hkeys ▸ hfresh)
  exact find?_reverse_of_mem_lasts (hlasts.symm ▸ hold)

theorem changed_eq_false {pos old : Position Card}
    (hprevious : previous C existing (pos.key C) = some old) :
    changed C existing pos = false ↔ withCardOf C existing pos = old := by
  rw [changed, withCardOf_eq, hprevious, Option.any_some]
  obtain ⟨fen, answer, card⟩ := pos
  obtain ⟨fen', answer', card'⟩ := old
  simp only [Bool.or_eq_false_iff, bne_eq_false_iff_eq, Position.mk.injEq, and_true]
  constructor
  · exact fun h ↦ ⟨h.2.symm, h.1.symm⟩
  · exact fun h ↦ ⟨h.2.symm, h.1.symm⟩

/-- The board states of the merged positions are those of the deck, in the same order. -/
theorem keys_eq_of_not_reordered (hadded : (syncPositions C existing fresh).added = 0)
    (hremoved : (syncPositions C existing fresh).removed = 0)
    (hreordered : (syncPositions C existing fresh).reordered = false) :
    existing.map (Position.key C) = fresh.map (Position.key C) := by
  have hlength : existing.length = fresh.length := by
    rw [removed_eq, hadded] at hremoved
    omega
  rw [syncPositions, foldl_mergeStep] at hadded hremoved hreordered
  dsimp only at hadded hremoved hreordered
  rw [hadded] at hremoved hreordered
  rw [hremoved] at hreordered
  rw [beq_self_eq_true, Bool.true_and, Bool.true_and, List.nil_append, List.any_eq_false]
    at hreordered
  apply List.ext_getElem?
  intro i
  rw [List.getElem?_map, List.getElem?_map]
  by_cases hi : i < fresh.length
  · have hmem : (withCardOf C existing fresh[i], i) ∈
        (fresh.map (withCardOf C existing)).zipIdx := by
      rw [List.mem_zipIdx_iff_getElem?, List.getElem?_map, List.getElem?_eq_getElem hi]
      rfl
    have hsame := hreordered _ hmem
    rw [Bool.not_eq_true, bne_eq_false_iff_eq] at hsame
    rw [List.getElem?_eq_getElem hi]
    have hkey := key_withCardOf C existing fresh[i]
    exact (hsame.symm.trans (congrArg some hkey))
  · rw [List.getElem?_eq_none (not_lt.mp hi), List.getElem?_eq_none (hlength ▸ not_lt.mp hi)]

theorem positions_eq_of_unchanged (hfresh : (fresh.map (Position.key C)).Nodup)
    (hkeys : existing.map (Position.key C) = fresh.map (Position.key C))
    (hupdated : (syncPositions C existing fresh).updated = 0) :
    fresh.map (withCardOf C existing) = existing := by
  rw [updated_syncPositions, Int.natCast_eq_zero, List.countP_eq_zero] at hupdated
  have hlength : existing.length = fresh.length := by
    have h := congrArg List.length hkeys
    rwa [List.length_map, List.length_map] at h
  apply List.ext_getElem
  · rw [List.length_map, hlength]
  · intro i hleft hright
    have hi : i < fresh.length := hlength ▸ hright
    have hkey : fresh[i].key C = existing[i].key C := by
      have h := congrArg (·[i]?) hkeys
      simp only [List.getElem?_map, List.getElem?_eq_getElem hi,
        List.getElem?_eq_getElem hright, Option.map_some, Option.some.injEq] at h
      exact h.symm
    have hprevious : previous C existing (fresh[i].key C) = some existing[i] := by
      rw [hkey]
      exact previous_of_keys hkeys hfresh (List.getElem_mem hright)
    have hunchanged := hupdated fresh[i] (List.getElem_mem hi)
    rw [List.getElem_map]
    exact (changed_eq_false hprevious).mp (Bool.eq_false_iff.mpr hunchanged)

theorem unchanged_of_positions_eq (hfresh : (fresh.map (Position.key C)).Nodup)
    (h : fresh.map (withCardOf C existing) = existing) :
    (syncPositions C existing fresh).added = 0 ∧ (syncPositions C existing fresh).removed = 0 ∧
      (syncPositions C existing fresh).updated = 0 ∧
      (syncPositions C existing fresh).reordered = false := by
  have hkeys : existing.map (Position.key C) = fresh.map (Position.key C) := by
    have hsame := keys_withCardOf C existing fresh
    rw [h] at hsame
    exact hsame
  have hlength : existing.length = fresh.length := by
    have h := congrArg List.length h
    rwa [List.length_map, eq_comm] at h
  have hprevious : ∀ pos ∈ fresh,
      previous C existing (pos.key C) = some (withCardOf C existing pos) := by
    intro pos hpos
    have hmem : withCardOf C existing pos ∈ fresh.map (withCardOf C existing) :=
      List.mem_map_of_mem hpos
    rw [h] at hmem
    rw [← previous_of_keys hkeys hfresh hmem, key_withCardOf]
  have hadded : (syncPositions C existing fresh).added = 0 := by
    rw [added_syncPositions, Int.natCast_eq_zero, List.countP_eq_zero]
    intro pos hpos
    rw [hprevious pos hpos]
    exact Bool.false_ne_true
  refine ⟨hadded, ?_, ?_, ?_⟩
  · rw [removed_eq, hadded, hlength]
    omega
  · rw [updated_syncPositions, Int.natCast_eq_zero, List.countP_eq_zero]
    intro pos hpos
    rw [(changed_eq_false (hprevious pos hpos)).mpr rfl]
    exact Bool.false_ne_true
  · rw [syncPositions, foldl_mergeStep]
    dsimp only
    rw [List.nil_append, h, Bool.and_eq_false_iff]
    right
    rw [List.any_eq_false]
    rintro ⟨pos, i⟩ hmem
    rw [List.mem_zipIdx_iff_getElem?] at hmem
    simp [hmem]

end

/-! ## The cards of a repertoire -/

section

variable {C}

/-- A ply count that is the one of its FEN. -/
def CountsPlies (C : Chessops) (data : NodeData ι) (setup : C.Setup) : Prop :=
  C.parseFen data.fen = some setup ∧ 1 ≤ C.fullmoves setup ∧ data.halfMoves =
    ((C.fullmoves setup : ℤ) - 1) * 2 + if C.setupTurn setup = .black then 1 else 0

/-- Then the test of the ply count is the one for the side to move. -/
theorem movesNext_iff {data : NodeData ι} {setup : C.Setup} (h : CountsPlies C data setup)
    (color : Color) : movesNext color data.halfMoves = true ↔ C.setupTurn setup = color := by
  obtain ⟨-, hpos, hcount⟩ := h
  obtain ⟨n, hn⟩ : ∃ n : ℕ, (C.fullmoves setup : ℤ) - 1 = n :=
    ⟨C.fullmoves setup - 1, by omega⟩
  rw [hcount, hn]
  have hodd : ((n : ℤ) * 2 + 1).tmod 2 = 1 := by
    rw [Int.tmod_eq_emod_of_nonneg (by omega)]
    omega
  cases hturn : C.setupTurn setup <;> cases color <;> simp [movesNext, hodd]

/-- A card of the synchronised deck: a new one, with the scheduling state that the last
existing position of its board state has. -/
structure MergedCard (C : Chessops) (createEmptyCard : ℕ → Card) (existing : List (Position Card))
    (item : ListNode ι) (pos : Position Card) : Prop where
  fen : pos.fen = item.2.label.fen
  answer : firstSan item.2 = some pos.answer
  kept : ∀ old, previous C existing (boardState C item) = some old → pos.card = old.card
  new : previous C existing (boardState C item) = none → ∃ i, pos.card = createEmptyCard i

theorem CardOf.merged {createEmptyCard : ℕ → Card} {item : ListNode ι} {pos : Position Card}
    (h : CardOf createEmptyCard item pos) (existing : List (Position Card)) :
    MergedCard C createEmptyCard existing item (withCardOf C existing pos) := by
  have hkey : pos.key C = boardState C item := by
    rw [Position.key, h.fen]
    rfl
  rw [withCardOf_eq, hkey]
  cases hprevious : previous C existing (boardState C item) with
  | none =>
      refine ⟨h.fen, h.answer, fun old hold ↦ ?_, fun _ ↦ h.card⟩
      rw [hprevious] at hold
      cases hold
  | some prev =>
      refine ⟨h.fen, h.answer, fun old hold ↦ ?_, fun hnone ↦ ?_⟩
      · rw [hprevious] at hold
        rw [Option.some.inj hold]
      · rw [hprevious] at hnone
        cases hnone

theorem changed_withCardOf (existing : List (Position Card)) (pos : Position Card) :
    changed C existing (withCardOf C existing pos) = changed C existing pos := by
  rw [changed, changed, key_withCardOf, withCardOf_eq]
  cases previous C existing (pos.key C) <;> rfl

/-- The synchronised deck has one card for each board state that is asked for, of the first
such node and in pre-order, with the scheduling states that were there; the counts say what
was added, removed and changed, and all of them are zero only for a deck that is up to date. -/
theorem syncDeck_keeps_repertoire (C : Chessops) (createEmptyCard : ℕ → Card)
    (existing : List (Position Card)) (tree : TreeNode ι) (color : Color) (start : List ℕ) :
    let r := syncDeck C createEmptyCard existing tree color start
    let asked := (preOrder [] tree).filter (quizzed color start)
    let nodes := quizNodes C tree color start
    (nodes.Sublist asked ∧ (nodes.map (boardState C)).Nodup ∧
        (∀ item ∈ asked, boardState C item ∈ nodes.map (boardState C)) ∧
        ∀ item ∈ nodes,
          asked.find? (fun other ↦ boardState C other = boardState C item) = some item) ∧
      List.Forall₂ (MergedCard C createEmptyCard existing) nodes r.positions ∧
      r.added = nodes.countP (fun item ↦ (previous C existing (boardState C item)).isNone) ∧
      ((keptPositions C existing r.positions).Sublist existing ∧
        r.removed = existing.length - (keptPositions C existing r.positions).length) ∧
      r.updated = r.positions.countP (changed C existing) ∧
      (r.added = 0 ∧ r.removed = 0 ∧ r.updated = 0 ∧ r.reordered = false ↔
        r.positions = existing) ∧
      ∀ (data : NodeData ι) setup, CountsPlies C data setup →
        (movesNext color data.halfMoves = true ↔ C.setupTurn setup = color) := by
  intro r asked nodes
  set fresh := buildFromTree C createEmptyCard tree color start
  have hcards : List.Forall₂ (CardOf createEmptyCard) nodes fresh := cardsOf_buildFromTree tree
  have hkeys : fresh.map (Position.key C) = nodes.map (boardState C) := keys_of_cardsOf hcards
  have hfresh : (fresh.map (Position.key C)).Nodup := nodup_keys_buildFromTree tree
  have hpositions : r.positions = fresh.map (withCardOf C existing) :=
    positions_syncPositions existing fresh
  have hkept : keptPositions C existing r.positions = keptPositions C existing fresh := by
    rw [keptPositions, hpositions, keys_withCardOf]
    rfl
  refine ⟨⟨?_, ?_, ?_, ?_⟩, ?_, ?_, ⟨?_, ?_⟩, ?_, ?_, fun data setup h ↦ movesNext_iff h color⟩
  · exact firstsFrom_sublist _ _
  · exact nodup_keys_firstsFrom _ _
  · exact fun item hitem ↦
      mem_keys_firstsFrom.mpr ⟨List.mem_map_of_mem hitem, List.not_mem_nil⟩
  · exact fun item hitem ↦ find?_of_mem_firstsFrom hitem
  · rw [hpositions, List.forall₂_map_right_iff]
    exact hcards.imp fun item pos h ↦ h.merged existing
  · have hadded : r.added = _ := added_syncPositions existing fresh
    have hcount := congrArg (List.countP fun key ↦ (previous C existing key).isNone) hkeys
    rw [List.countP_map, List.countP_map] at hcount
    rw [hadded]
    exact congrArg Nat.cast hcount
  · exact List.filter_sublist.trans (lasts_sublist existing)
  · rw [hkept]
    exact removed_syncPositions hfresh
  · have hupdated : r.updated = _ := updated_syncPositions existing fresh
    rw [hupdated, hpositions, List.countP_map]
    congr 2
    funext pos
    exact (changed_withCardOf existing pos).symm
  · rw [hpositions]
    constructor
    · rintro ⟨hadded, hremoved, hupdated, hreordered⟩
      exact positions_eq_of_unchanged hfresh
        (keys_eq_of_not_reordered hadded hremoved hreordered) hupdated
    · exact unchanged_of_positions_eq hfresh

end

end EnCroissant.Practice.Opening

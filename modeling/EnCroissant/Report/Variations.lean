import EnCroissant.Report.Annotations
import EnCroissant.Tree.Edits

/-!
# A report only annotates

Adding a report to a game tree changes scores, depths and annotations of the main line
and appends the engine's lines behind the moves that are there.  Every path still names
its node, and adding the same report again changes nothing.
-/

namespace EnCroissant

open RoseTree

/-- What is used of the rules library: a normalised move is normal form, of a legal move it
is legal, and nothing is dropped onto the board. -/
structure Chessops.NormalMoves (C : Chessops) : Prop where
  idem : ∀ pos move, C.normalizeMove pos (C.normalizeMove pos move) = C.normalizeMove pos move
  legal : ∀ pos move, C.isLegal pos move = true →
    C.isLegal pos (C.normalizeMove pos move) = true
  noDrop : ∀ pos role target, C.isLegal pos (.drop role target) = false

section

variable {ι : Type} (C : Chessops)

/-- A line of legal moves from a position. -/
def LegalLine : C.Chess → List Text → Prop
  | _, [] => True
  | pos, uci :: rest =>
      ∃ parsed, C.parseUci uci = some parsed ∧ C.isLegal pos parsed = true ∧
        LegalLine (C.play pos (C.normalizeMove pos parsed)) rest

/-- A node for a legal move of a position. -/
structure NodeOfMove (pos : C.Chess) (halfMoves : ℤ) (uci : Text) (move : BoardMove)
    (data : NodeData ι) : Prop where
  parses : ∃ parsed, C.parseUci uci = some parsed ∧ move = C.normalizeMove pos parsed
  legal : C.isLegal pos move = true
  played : data.move = some move
  san : data.san = some (C.makeSan pos move)
  fen : data.fen = C.makeFen (C.toSetup (C.play pos move))
  halfMoves : data.halfMoves = halfMoves + 1

/-- A variation without branches that spells a line. -/
inductive Spells : C.Chess → ℤ → List Text → TreeNode ι → Prop
  | last {pos : C.Chess} {halfMoves : ℤ} {uci : Text} {move : BoardMove} {data : NodeData ι}
      (first : NodeOfMove C pos halfMoves uci move data) :
      Spells pos halfMoves [uci] (.node data [])
  | next {pos : C.Chess} {halfMoves : ℤ} {uci : Text} {rest : List Text} {move : BoardMove}
      {data : NodeData ι} {child : TreeNode ι} (first : NodeOfMove C pos halfMoves uci move data)
      (later : Spells (C.play pos move) (halfMoves + 1) rest child) :
      Spells pos halfMoves (uci :: rest) (.node data [child])

/-- The data with other annotations, of which none is a repetition. -/
structure Reannotates (data data' : NodeData ι) : Prop where
  rest : data' = { data with score := data'.score, depth := data'.depth, nags := data'.nags }
  nags : ∃ added, data'.nags = data.nags ++ added ∧ added.Nodup ∧ ∀ nag ∈ added, nag ∉ data.nags

variable (analysis : List (MoveAnalysis BestMoves))

/-- A line of the engine from a node, as a variation that its children do not begin. -/
def IsVariation (n : ℕ) (u : TreeNode ι) (variation : TreeNode ι) : Prop :=
  ∃ current line pos, analysis[n]? = some current ∧ current.best.head? = some line ∧
    positionFromFen C u.label.fen = some pos ∧
    Spells C pos u.label.halfMoves (line.uciMoves.take maxGeneratedAnalysisVariationPlies)
      variation ∧
    ∀ c ∈ u.children, ∀ move, c.label.move = some move →
      variation.label.move ≠ some (C.normalizeMove pos move)

/-- The lines of a report are legal in the positions of the main line. -/
def LegalReport (n : ℕ) (t : TreeNode ι) : Prop :=
  ∀ i data current line pos, t.labelAt (List.replicate i 0) = some data →
    analysis[n + i]? = some current → current.best.head? = some line →
    positionFromFen C data.fen = some pos → LegalLine C pos line.uciMoves

end

section

variable {ι : Type} {C : Chessops} { getAnnotation : GetAnnotation}
  {analysis : List (MoveAnalysis BestMoves)} {showVariations : Bool} {fresh : ℕ → ℕ → ι}

/-! ## Annotations -/

theorem addNag_of_mem {nag : ℕ} {nags : List ℕ} (h : nag ∈ nags) : addNag nag nags = nags :=
  if_pos h

theorem subset_addNag {nag other : ℕ} {nags : List ℕ} (h : other ∈ nags) :
    other ∈ addNag nag nags := by
  rw [addNag]
  split_ifs
  · exact h
  · exact List.mem_append_left _ h

/-- Annotations that come behind the ones there are, without repetition. -/
def NagsGrow (nags nags' : List ℕ) : Prop :=
  ∃ added, nags' = nags ++ added ∧ added.Nodup ∧ ∀ nag ∈ added, nag ∉ nags

theorem nagsGrow_refl (nags : List ℕ) : NagsGrow nags nags :=
  ⟨[], (List.append_nil _).symm, List.nodup_nil, nofun⟩

theorem NagsGrow.addNag {nags nags' : List ℕ} (h : NagsGrow nags nags') (nag : ℕ) :
    NagsGrow nags (addNag nag nags') := by
  obtain ⟨added, rfl, hnodup, hnew⟩ := h
  rw [EnCroissant.addNag]
  split_ifs with hmem
  · exact ⟨added, rfl, hnodup, hnew⟩
  · rw [List.mem_append, not_or] at hmem
    refine ⟨added ++ [nag], List.append_assoc _ _ _, ?_, ?_⟩
    · rw [← List.concat_eq_append]
      exact hnodup.concat hmem.2
    · intro other hother
      rcases List.mem_append.mp hother with hother | hother
      · exact hnew other hother
      · rw [List.mem_singleton.mp hother]
        exact hmem.1

theorem reannotates_refl (data : NodeData ι) : Reannotates data data :=
  ⟨rfl, nagsGrow_refl _⟩

/-- The annotations of a node, once those of a report are added. -/
def writtenNags (verdict : Option Annotation) (novelty : Bool) (nags : List ℕ) : List ℕ :=
  let nags := verdict.elim nags fun verdict ↦ EnCroissant.addNag verdict.nag nags
  if novelty then EnCroissant.addNag noveltyNag nags else nags

theorem nagsGrow_writtenNags (verdict : Option Annotation) (novelty : Bool) (nags : List ℕ) :
    NagsGrow nags (writtenNags verdict novelty nags) := by
  have hfirst : NagsGrow nags
      (verdict.elim nags fun verdict ↦ addNag verdict.nag nags) := by
    cases verdict with
    | none => exact nagsGrow_refl nags
    | some verdict => exact (nagsGrow_refl nags).addNag verdict.nag
  cases novelty with
  | true => exact hfirst.addNag noveltyNag
  | false => exact hfirst

theorem writtenNags_writtenNags (verdict : Option Annotation) (novelty : Bool)
    (nags : List ℕ) :
    writtenNags verdict novelty (writtenNags verdict novelty nags) =
      writtenNags verdict novelty nags := by
  cases verdict with
  | none =>
      cases novelty with
      | true => exact addNag_of_mem (mem_addNag noveltyNag nags)
      | false => rfl
  | some verdict =>
      have hmem := mem_addNag verdict.nag nags
      cases novelty with
      | true =>
          have hboth : verdict.nag ∈ addNag noveltyNag (addNag verdict.nag nags) :=
            subset_addNag hmem
          simp only [writtenNags, Option.elim_some, if_true]
          rw [addNag_of_mem hboth, addNag_of_mem (mem_addNag _ _)]
      | false =>
          simp only [writtenNags, Option.elim_some, Bool.false_eq_true, if_false]
          exact addNag_of_mem hmem

theorem annotate_of_line {n : ℕ} {current : MoveAnalysis BestMoves} {line : BestMoves}
    {others : List BestMoves} (hcurrent : analysis[n]? = some current)
    (hbest : current.best = line :: others) (data : NodeData ι) :
    annotate C getAnnotation analysis n data =
      if isRunning C data.fen then
        { data with
          score := some line.score
          depth := some line.depth
          nags := writtenNags (annotationAt getAnnotation analysis n data current line)
            current.novelty data.nags }
      else data := by
  rw [annotate, hcurrent]
  simp only [hbest]
  rfl

theorem annotate_of_none {n : ℕ} (data : NodeData ι)
    (h : ∀ current, analysis[n]? = some current → current.best = []) :
    annotate C getAnnotation analysis n data = data := by
  rw [annotate]
  cases hcurrent : analysis[n]? with
  | none => rfl
  | some current => simp only [h current hcurrent]

/-- A ply has an analysis with a line, or its node stays as it is. -/
theorem exists_line_or (analysis : List (MoveAnalysis BestMoves)) (n : ℕ) :
    (∃ current line others, analysis[n]? = some current ∧ current.best = line :: others) ∨
      ∀ current, analysis[n]? = some current → current.best = [] := by
  cases hcurrent : analysis[n]? with
  | none => exact Or.inr nofun
  | some current =>
      cases hbest : current.best with
      | nil =>
          right
          rintro _ ⟨⟩
          exact hbest
      | cons line others => exact Or.inl ⟨current, line, others, rfl, hbest⟩

theorem reannotates_annotate (n : ℕ) (data : NodeData ι) :
    Reannotates data (annotate C getAnnotation analysis n data) := by
  rcases exists_line_or analysis n with ⟨current, line, others, hcurrent, hbest⟩ | hnone
  · rw [annotate_of_line hcurrent hbest]
    split_ifs with hrunning
    · exact ⟨rfl, nagsGrow_writtenNags _ _ _⟩
    · exact reannotates_refl data
  · rw [annotate_of_none data hnone]
    exact reannotates_refl data

/-- The evaluation of a move does not read what a report writes. -/
theorem annotationAt_congr {n : ℕ} {data data' : NodeData ι} (h : Reannotates data data')
    (current : MoveAnalysis BestMoves) (line : BestMoves) :
    annotationAt getAnnotation analysis n data' current line =
      annotationAt getAnnotation analysis n data current line := by
  rw [h.rest]
  rfl

theorem annotate_annotate (n : ℕ) (data : NodeData ι) :
    annotate C getAnnotation analysis n (annotate C getAnnotation analysis n data) =
      annotate C getAnnotation analysis n data := by
  rcases exists_line_or analysis n with ⟨current, line, others, hcurrent, hbest⟩ | hnone
  · have hsame : Reannotates data (annotate C getAnnotation analysis n data) :=
      reannotates_annotate n data
    have hannotation : annotationAt getAnnotation analysis n _ current line = _ :=
      annotationAt_congr hsame current line
    have honce : annotate C getAnnotation analysis n data = _ :=
      annotate_of_line hcurrent hbest data
    by_cases hrunning : isRunning C data.fen = true
    · rw [if_pos hrunning] at honce
      rw [honce] at hannotation ⊢
      rw [annotate_of_line hcurrent hbest, hannotation]
      dsimp only
      rw [if_pos hrunning, writtenNags_writtenNags]
    · rw [if_neg hrunning] at honce
      rw [honce, honce]
  · rw [annotate_of_none data hnone, annotate_of_none data hnone]

/-! ## Variations -/

theorem LegalLine.take {pos : C.Chess} {line : List Text} (h : LegalLine C pos line) (n : ℕ) :
    LegalLine C pos (line.take n) := by
  induction line generalizing pos n with
  | nil =>
      rw [List.take_nil]
      trivial
  | cons uci rest ih =>
      cases n with
      | zero => trivial
      | succ n =>
          obtain ⟨parsed, hparsed, hlegal, hrest⟩ := h
          exact ⟨parsed, hparsed, hlegal, ih hrest n⟩

/-- The data of a variation's node. -/
theorem nodeOfMove (laws : C.NormalMoves) {pos : C.Chess} {uci : Text} {parsed : BoardMove}
    (hparsed : C.parseUci uci = some parsed) (hlegal : C.isLegal pos parsed = true) (ref : ι)
    (halfMoves : ℤ) :
    let move := C.normalizeMove pos parsed
    NodeOfMove C pos halfMoves uci move (createNode ref (C.makeFen (C.toSetup (C.play pos move)))
      move (C.makeSan pos move) (halfMoves + 1) none).label :=
  ⟨⟨parsed, hparsed, rfl⟩, laws.legal pos parsed hlegal, rfl, rfl, rfl, rfl⟩

/-- A node of a variation, with what the rest of the line adds below it. -/
theorem spells_node {pos : C.Chess} {halfMoves : ℤ} {uci : Text} {rest : List Text}
    {move : BoardMove} {data : NodeData ι} {below : List (TreeNode ι)}
    (hdata : NodeOfMove C pos halfMoves uci move data)
    (hbelow : rest = [] ∧ below = [] ∨
      ∃ v, below = [v] ∧ Spells C (C.play pos move) (halfMoves + 1) rest v) :
    Spells C pos halfMoves (uci :: rest) (.node data below) := by
  rcases hbelow with ⟨rfl, rfl⟩ | ⟨v, rfl, hv⟩
  · exact .last hdata
  · exact .next hdata hv

theorem variationTail_spells (laws : C.NormalMoves) {fresh : ℕ → ι} {pos : C.Chess} (j : ℕ)
    (halfMoves : ℤ) {line : List Text} (h : LegalLine C pos line) :
    line = [] ∧ variationTail C fresh j pos halfMoves line = [] ∨
      ∃ v, variationTail C fresh j pos halfMoves line = [v] ∧
        Spells C pos halfMoves line v := by
  induction line generalizing j pos halfMoves with
  | nil => exact Or.inl ⟨rfl, rfl⟩
  | cons uci rest ih =>
      obtain ⟨parsed, hparsed, hlegal, hrest⟩ := h
      rw [variationTail, hparsed]
      exact Or.inr ⟨_, rfl, spells_node (nodeOfMove laws hparsed hlegal (fresh j) halfMoves)
        (ih (j + 1) (halfMoves + 1) hrest)⟩

theorem exists_normal (laws : C.NormalMoves) {pos : C.Chess} {move : BoardMove}
    (h : C.isLegal pos move = true) :
    ∃ source target promotion, move = .normal source target promotion := by
  cases move with
  | normal source target promotion => exact ⟨source, target, promotion, rfl⟩
  | drop role target =>
      rw [laws.noDrop] at h
      cases h

theorem isSameNormalMove_self (laws : C.NormalMoves) {pos : C.Chess} {move : BoardMove}
    (h : C.isLegal pos move = true) : isSameNormalMove move move = true := by
  obtain ⟨source, target, promotion, rfl⟩ := exists_normal laws h
  simp [isSameNormalMove]

theorem Spells.first {pos : C.Chess} {halfMoves : ℤ} {uci : Text} {rest : List Text}
    {v : TreeNode ι} (h : Spells C pos halfMoves (uci :: rest) v) :
    ∃ move, NodeOfMove C pos halfMoves uci move v.label := by
  cases h with
  | last first => exact ⟨_, first⟩
  | next first later => exact ⟨_, first⟩

/-- The engine's line is there already, or it is appended. -/
inductive ContinuesLine (parent : NodeData ι) (children : List (TreeNode ι)) (line : BestMoves)
    (pos : C.Chess) (added : List (TreeNode ι)) : Prop
  | known {child : TreeNode ι} {move best : BoardMove} (none_added : added = [])
      (isChild : child ∈ children) (played : child.label.move = some move)
      (first : ∃ parsed, C.parseUci (line.uciMoves.head line.hasMove) = some parsed ∧
        best = C.normalizeMove pos parsed)
      (same : isSameNormalMove (C.normalizeMove pos move) best = true)
  | appended {variation : TreeNode ι} (one_added : added = [variation])
      (spells : Spells C pos parent.halfMoves
        (line.uciMoves.take maxGeneratedAnalysisVariationPlies) variation)
      (new : ∀ c ∈ children, ∀ move, c.label.move = some move →
        variation.label.move ≠ some (C.normalizeMove pos move))

theorem bestVariation_continues (laws : C.NormalMoves) {fresh : ℕ → ι} {parent : NodeData ι}
    {children : List (TreeNode ι)} {line : BestMoves} {pos : C.Chess}
    (hpos : positionFromFen C parent.fen = some pos) (hline : LegalLine C pos line.uciMoves) :
    ContinuesLine parent children line pos (bestVariation C fresh parent children line) := by
  obtain ⟨depth, score, uciMoves, sanMoves, hasMove⟩ := line
  obtain ⟨uci, rest, rfl⟩ := List.exists_cons_of_ne_nil hasMove
  obtain ⟨parsed, hparsed, hlegal, hrest⟩ := hline
  rw [bestVariation, hpos]
  dsimp only [List.head_cons]
  rw [hparsed]
  dsimp only
  split_ifs with hexists
  · obtain ⟨child, hchild, hsame⟩ := List.any_eq_true.mp hexists
    cases hmove : child.label.move with
    | none =>
        rw [hmove] at hsame
        cases hsame
    | some move =>
        rw [hmove, Option.any_some] at hsame
        exact .known rfl hchild hmove ⟨parsed, hparsed, rfl⟩ hsame
  · have htail : LegalLine C (C.play pos (C.normalizeMove pos parsed))
        ((uci :: rest).take maxGeneratedAnalysisVariationPlies).tail :=
      hrest.take 9
    have hbelow : _ ∨ ∃ v, variationTail C fresh 1 _ (parent.halfMoves + 1) _ = [v] ∧ _ :=
      variationTail_spells laws 1 (parent.halfMoves + 1) htail
    have hnode := nodeOfMove laws hparsed hlegal (fresh 0) parent.halfMoves
    refine .appended rfl ?_ ?_
    · rw [List.drop_one]
      exact spells_node hnode hbelow
    · intro c hc move hmove heq
      have hbest := laws.legal pos parsed hlegal
      apply hexists
      rw [List.any_eq_true]
      refine ⟨c, hc, ?_⟩
      rw [hmove, Option.any_some, ← Option.some.inj heq]
      exact isSameNormalMove_self laws hbest

/-- With the line's first move among the children nothing is appended. -/
theorem bestVariation_eq_nil {fresh : ℕ → ι} {parent : NodeData ι} {children : List (TreeNode ι)}
    {line : BestMoves} {pos : C.Chess} {child : TreeNode ι} {move parsed : BoardMove}
    (hpos : positionFromFen C parent.fen = some pos)
    (hparsed : C.parseUci (line.uciMoves.head line.hasMove) = some parsed)
    (hchild : child ∈ children) (hmove : child.label.move = some move)
    (hsame : isSameNormalMove (C.normalizeMove pos move) (C.normalizeMove pos parsed) = true) :
    bestVariation C fresh parent children line = [] := by
  rw [bestVariation, hpos, hparsed]
  dsimp only
  rw [if_pos]
  rw [List.any_eq_true]
  refine ⟨child, hchild, ?_⟩
  rw [hmove]
  exact hsame

/-! ## The walk along the main line -/

variable {n : ℕ} {data : NodeData ι} {child : TreeNode ι} {rest : List (TreeNode ι)}

theorem earlierLine_succ (analysis : List (MoveAnalysis BestMoves)) (n : ℕ) :
    earlierLine analysis (n + 1) 1 = analysis[n]?.bind fun current ↦ current.best.head? := by
  rw [earlierLine, if_pos (Nat.le_add_left 1 n), Nat.add_sub_cancel]

theorem addedVariations_of_length_le (hn : analysis.length ≤ n) (parent : NodeData ι)
    (children : List (TreeNode ι)) (data : NodeData ι) :
    addedVariations C getAnnotation analysis showVariations fresh n parent children data = [] := by
  rw [addedVariations, List.getElem?_eq_none hn]

/-- A step of the walk. -/
theorem addAnalysisFrom_cons (n : ℕ) (data : NodeData ι) (child : TreeNode ι)
    (rest : List (TreeNode ι)) :
    addAnalysisFrom C getAnnotation analysis showVariations fresh n (.node data (child :: rest)) =
      .node (annotate C getAnnotation analysis n data)
        (addAnalysisFrom C getAnnotation analysis showVariations fresh (n + 1) child ::
          (rest ++ addedVariations C getAnnotation analysis showVariations fresh (n + 1)
            (annotate C getAnnotation analysis n data) (child :: rest) child.label)) := by
  rw [addAnalysisFrom]
  split_ifs with hn
  · rfl
  · have hlength : analysis.length ≤ n := not_lt.mp hn
    have hnext : analysis.length ≤ n + 1 := hlength.trans (Nat.le_succ n)
    rw [annotate_of_length_le hlength, addAnalysisFrom_of_length_le hnext,
      addedVariations_of_length_le hnext, List.append_nil]

theorem label_addAnalysisFrom (n : ℕ) (t : TreeNode ι) :
    (addAnalysisFrom C getAnnotation analysis showVariations fresh n t).label =
      annotate C getAnnotation analysis n t.label := by
  obtain ⟨data, children⟩ := t
  cases children with
  | nil => rw [addAnalysisFrom, label_node, label_node]
  | cons child rest => rw [addAnalysisFrom_cons, label_node, label_node]

/-- Which of the engine's lines a move adds beside itself, if any. -/
theorem exists_addedVariations (C : Chessops) ( getAnnotation : GetAnnotation)
    (analysis : List (MoveAnalysis BestMoves)) (showVariations : Bool) (n : ℕ)
    (data : NodeData ι) :
    ∃ lead? : Option BestMoves,
      (∀ lead ∈ lead?, ∃ current, analysis[n]? = some current ∧ current.best.head? = some lead) ∧
        ∀ (fresh : ℕ → ℕ → ι) parent children,
          addedVariations C getAnnotation analysis showVariations fresh (n + 1) parent children
            data = lead?.elim [] (bestVariation C (fresh (n + 1)) parent children) := by
  rcases exists_line_or analysis (n + 1) with ⟨next, line, others, hnext, hbest⟩ | hnone
  · simp only [addedVariations, hnext, hbest, earlierLine_succ]
    cases hcurrent : analysis[n]? with
    | none => exact ⟨none, nofun, fun _ _ _ ↦ rfl⟩
    | some current =>
        rw [Option.bind_some]
        cases hlead : current.best.head? with
        | none => exact ⟨none, nofun, fun _ _ _ ↦ rfl⟩
        | some lead =>
            dsimp only
            split_ifs
            · refine ⟨some lead, fun lead' hlead' ↦ ?_, fun _ _ _ ↦ rfl⟩
              rw [← Option.some.inj hlead']
              exact ⟨current, rfl, hlead⟩
            · exact ⟨none, nofun, fun _ _ _ ↦ rfl⟩
  · refine ⟨none, nofun, fun fresh parent children ↦ ?_⟩
    rw [addedVariations]
    cases hnext : analysis[n + 1]? with
    | none => rfl
    | some next => simp only [hnone next hnext, Option.elim_none]

theorem LegalReport.line {t : TreeNode ι} (h : LegalReport C analysis n t)
    {current : MoveAnalysis BestMoves} {lead : BestMoves} {pos : C.Chess}
    (hcurrent : analysis[n]? = some current) (hlead : current.best.head? = some lead)
    (hpos : positionFromFen C t.label.fen = some pos) : LegalLine C pos lead.uciMoves :=
  h 0 t.label current lead pos rfl hcurrent hlead hpos

theorem LegalReport.below (h : LegalReport C analysis n (.node data (child :: rest))) :
    LegalReport C analysis (n + 1) child := by
  intro i data' current line pos hlabel hcurrent hline hpos
  rw [Nat.add_assoc, Nat.add_comm 1] at hcurrent
  exact h (i + 1) data' current line pos (by rw [List.replicate_succ, labelAt_cons]; exact hlabel)
    hcurrent hline hpos

theorem fen_annotate (n : ℕ) (data : NodeData ι) :
    (annotate C getAnnotation analysis n data).fen = data.fen := by
  have hsame : Reannotates data (annotate C getAnnotation analysis n data) :=
    reannotates_annotate n data
  rw [hsame.rest]

theorem halfMoves_annotate (n : ℕ) (data : NodeData ι) :
    (annotate C getAnnotation analysis n data).halfMoves = data.halfMoves := by
  have hsame : Reannotates data (annotate C getAnnotation analysis n data) :=
    reannotates_annotate n data
  rw [hsame.rest]

theorem move_annotate (n : ℕ) (data : NodeData ι) :
    (annotate C getAnnotation analysis n data).move = data.move := by
  have hsame : Reannotates data (annotate C getAnnotation analysis n data) :=
    reannotates_annotate n data
  rw [hsame.rest]

/-- Every node that is added begins a line of the engine. -/
theorem isVariation_added (laws : C.NormalMoves)
    (h : LegalReport C analysis n (.node data (child :: rest))) :
    ∀ v ∈ addedVariations C getAnnotation analysis showVariations fresh (n + 1)
        (annotate C getAnnotation analysis n data) (child :: rest) child.label,
      IsVariation C analysis n (.node data (child :: rest)) v := by
  intro v hv
  obtain ⟨lead?, hleads, hadded⟩ :=
    exists_addedVariations C getAnnotation analysis showVariations n child.label
  rw [hadded] at hv
  cases lead? with
  | none => cases hv
  | some lead =>
    obtain ⟨current, hcurrent, hlead⟩ := hleads lead rfl
    rw [Option.elim_some] at hv
    cases hpos : positionFromFen C data.fen with
    | none =>
        rw [bestVariation, fen_annotate, hpos] at hv
        cases hv
    | some pos =>
        have hpos' : positionFromFen C (annotate C getAnnotation analysis n data).fen = some pos :=
          (congrArg (positionFromFen C) (fen_annotate n data)).trans hpos
        have hcontinues : ContinuesLine _ (child :: rest) lead pos
            (bestVariation C (fresh (n + 1)) _ (child :: rest) lead) :=
          bestVariation_continues laws hpos' (h.line hcurrent hlead hpos)
        cases hcontinues with
        | known none_added =>
            rw [none_added] at hv
            cases hv
        | appended one_added spells new =>
            rw [one_added] at hv
            rw [List.mem_singleton.mp hv]
            rw [halfMoves_annotate] at spells
            exact ⟨current, lead, pos, hcurrent, hlead, hpos, spells, new⟩

/-- A node, found by its path before and after the report was added. -/
structure OnlyAnnotated (C : Chessops) (analysis : List (MoveAnalysis BestMoves)) (n : ℕ)
    (path : List ℕ) (u u' : TreeNode ι) : Prop where
  label : Reannotates u.label u'.label
  offMainLine : (∃ j ∈ path, j ≠ 0) → u' = u
  length : u.children.length ≤ u'.children.length
  added : ∀ v ∈ u'.children.drop u.children.length, IsVariation C analysis (n + path.length) u v

theorem onlyAnnotated_refl (n : ℕ) (path : List ℕ) (u : TreeNode ι) :
    OnlyAnnotated C analysis n path u u where
  label := reannotates_refl u.label
  offMainLine := fun _ ↦ rfl
  length := le_rfl
  added := by
    rw [List.drop_length]
    exact nofun

theorem OnlyAnnotated.first {path : List ℕ} {u u' : TreeNode ι}
    (h : OnlyAnnotated C analysis (n + 1) path u u') :
    OnlyAnnotated C analysis n (0 :: path) u u' where
  label := h.label
  offMainLine := by
    rintro ⟨j, hj, hne⟩
    rcases List.mem_cons.mp hj with rfl | hj
    · exact absurd rfl hne
    · exact h.offMainLine ⟨j, hj, hne⟩
  length := h.length
  added := by
    rw [List.length_cons, Nat.add_comm path.length, ← Nat.add_assoc]
    exact h.added

/-- The node itself. -/
theorem onlyAnnotated_self (laws : C.NormalMoves) {t : TreeNode ι}
    (h : LegalReport C analysis n t) :
    OnlyAnnotated C analysis n [] t
      (addAnalysisFrom C getAnnotation analysis showVariations fresh n t) := by
  have hroot : ¬∃ j ∈ ([] : List ℕ), j ≠ 0 := by simp
  obtain ⟨data, children⟩ := t
  cases children with
  | nil =>
      have hleaf : addAnalysisFrom C getAnnotation analysis showVariations fresh n
          (.node data []) = .node (annotate C getAnnotation analysis n data) [] := by
        rw [addAnalysisFrom]
      rw [hleaf]
      exact ⟨reannotates_annotate n data, fun h ↦ absurd h hroot, le_rfl,
        fun u hu ↦ absurd hu List.not_mem_nil⟩
  | cons child rest =>
      rw [addAnalysisFrom_cons]
      refine ⟨reannotates_annotate n data, fun h ↦ absurd h hroot, by simp, ?_⟩
      rw [children_node, children_node, List.length_cons, List.drop_succ_cons, List.drop_left]
      exact isVariation_added laws h

/-- Every path still names its node. -/
theorem nodeAt_addAnalysisFrom (laws : C.NormalMoves) {path : List ℕ} {t u : TreeNode ι}
    (h : LegalReport C analysis n t) (hu : t.nodeAt path = some u) :
    ∃ u', (addAnalysisFrom C getAnnotation analysis showVariations fresh n t).nodeAt path =
        some u' ∧ OnlyAnnotated C analysis n path u u' := by
  induction path generalizing n t with
  | nil =>
      rw [nodeAt_nil] at hu
      cases hu
      exact ⟨_, nodeAt_nil _, onlyAnnotated_self laws h⟩
  | cons j path ih =>
      obtain ⟨data, children⟩ := t
      cases children with
      | nil => cases hu
      | cons child rest =>
          rw [nodeAt_cons, children_node] at hu
          rw [addAnalysisFrom_cons, nodeAt_cons, children_node]
          cases j with
          | zero =>
              obtain ⟨u', hu', honly⟩ := ih h.below hu
              exact ⟨u', hu', honly.first⟩
          | succ j =>
              obtain ⟨c, hc, hcu⟩ := Option.bind_eq_some_iff.mp hu
              rw [List.getElem?_cons_succ] at hc ⊢
              refine ⟨u, ?_, onlyAnnotated_refl n ((j + 1) :: path) u⟩
              rw [List.getElem?_append_left (List.getElem?_eq_some_iff.mp hc).1, hc]
              exact hcu

/-- The main line stays the main line. -/
theorem mainLineEnd_addAnalysisFrom (n : ℕ) :
    ∀ t : TreeNode ι,
      mainLineEnd (addAnalysisFrom C getAnnotation analysis showVariations fresh n t) =
        mainLineEnd t := by
  intro t
  induction hline : mainLineEnd t generalizing n t with
  | nil =>
      obtain ⟨data, children⟩ := t
      cases children with
      | nil => rfl
      | cons child rest =>
          rw [mainLineEnd] at hline
          cases hline
  | cons j line ih =>
      obtain ⟨data, children⟩ := t
      cases children with
      | nil => cases hline
      | cons child rest =>
          rw [mainLineEnd, List.cons.injEq] at hline
          rw [addAnalysisFrom_cons, mainLineEnd, ih (n + 1) child hline.2, hline.1]

/-! ## Adding a report again -/

/-- What a move adds reads its own data only as far as a report leaves it alone. -/
theorem addedVariations_congr {parent data data' : NodeData ι} {children : List (TreeNode ι)}
    (h : Reannotates data data') :
    addedVariations C getAnnotation analysis showVariations fresh n parent children data' =
      addedVariations C getAnnotation analysis showVariations fresh n parent children data := by
  have hfen : data'.fen = data.fen := by rw [h.rest]
  rw [addedVariations, addedVariations]
  cases analysis[n]? with
  | none => rfl
  | some current =>
      dsimp only
      rw [hfen]
      simp only [annotationAt_congr h]

/-- Behind the variations that are there a move adds no more. -/
theorem bestVariation_twice (laws : C.NormalMoves) {first second : ℕ → ι} {parent : NodeData ι}
    {children children' : List (TreeNode ι)} {line : BestMoves}
    (hline : ∀ pos, positionFromFen C parent.fen = some pos → LegalLine C pos line.uciMoves)
    (hmoves : ∀ c ∈ children ++ bestVariation C first parent children line,
      ∃ c' ∈ children', c'.label.move = c.label.move) :
    bestVariation C second parent children' line = [] := by
  cases hpos : positionFromFen C parent.fen with
  | none => rw [bestVariation, hpos]
  | some pos =>
      have hlegal := hline pos hpos
      have hcontinues : ContinuesLine parent children line pos
          (bestVariation C first parent children line) :=
        bestVariation_continues laws hpos hlegal
      cases hcontinues with
      | @known c move best none_added isChild played hfirst same =>
          obtain ⟨parsed, hparsed, rfl⟩ := hfirst
          obtain ⟨c', hc', hmove⟩ := hmoves c (List.mem_append_left _ isChild)
          exact bestVariation_eq_nil hpos hparsed hc' (hmove.trans played) same
      | @appended variation one_added spells new =>
          obtain ⟨c', hc', hmove⟩ := hmoves variation
            (List.mem_append_right _ (one_added ▸ List.mem_singleton_self _))
          obtain ⟨uci, rest, huci⟩ := List.exists_cons_of_ne_nil line.hasMove
          have hhead : line.uciMoves.head line.hasMove = uci := by simp [huci]
          rw [huci] at spells
          obtain ⟨move, hnode⟩ := spells.first
          obtain ⟨parsed, hparsed, hbest⟩ := hnode.parses
          rw [← hhead] at hparsed
          apply bestVariation_eq_nil hpos hparsed hc' (hmove.trans hnode.played)
          rw [hbest, laws.idem, ← hbest]
          exact isSameNormalMove_self laws hnode.legal

theorem bestVariation_annotate (n : ℕ) (data : NodeData ι) (first : ℕ → ι)
    (children : List (TreeNode ι)) (line : BestMoves) :
    bestVariation C first (annotate C getAnnotation analysis n data) children line =
      bestVariation C first data children line := by
  rw [bestVariation, bestVariation, fen_annotate, halfMoves_annotate]

theorem addAnalysisFrom_twice (laws : C.NormalMoves) (second : ℕ → ℕ → ι) {t : TreeNode ι}
    (h : LegalReport C analysis n t) :
    addAnalysisFrom C getAnnotation analysis showVariations second n
        (addAnalysisFrom C getAnnotation analysis showVariations fresh n t) =
      addAnalysisFrom C getAnnotation analysis showVariations fresh n t := by
  induction hline : mainLineEnd t generalizing n t with
  | nil =>
      obtain ⟨data, children⟩ := t
      cases children with
      | nil => rw [addAnalysisFrom, addAnalysisFrom, annotate_annotate]
      | cons child rest => cases hline
  | cons j line ih =>
      obtain ⟨data, children⟩ := t
      cases children with
      | nil => cases hline
      | cons child rest =>
          rw [mainLineEnd, List.cons.injEq] at hline
          -- The second report finds the first one's variations among the children.
          set child' := addAnalysisFrom C getAnnotation analysis showVariations fresh (n + 1) child
          set added := addedVariations C getAnnotation analysis showVariations fresh (n + 1)
            (annotate C getAnnotation analysis n data) (child :: rest) child.label with hadded
          have hnone : addedVariations C getAnnotation analysis showVariations second (n + 1)
              (annotate C getAnnotation analysis n data) (child' :: (rest ++ added))
              child'.label = [] := by
            have hlabel : Reannotates child.label child'.label := by
              rw [label_addAnalysisFrom]
              exact reannotates_annotate (n + 1) child.label
            obtain ⟨lead?, hleads, hsame⟩ :=
              exists_addedVariations C getAnnotation analysis showVariations n child.label
            rw [addedVariations_congr hlabel, hsame]
            rw [hsame] at hadded
            cases lead? with
            | none => rfl
            | some lead =>
                obtain ⟨current, hcurrent, hlead⟩ := hleads lead rfl
                rw [Option.elim_some] at hadded ⊢
                apply bestVariation_twice laws
                · intro pos hpos
                  rw [fen_annotate] at hpos
                  exact h.line hcurrent hlead hpos
                · rw [← hadded]
                  intro c hc
                  rcases List.mem_append.mp hc with hc | hc
                  · rcases List.mem_cons.mp hc with rfl | hc
                    · refine ⟨child', List.mem_cons_self, ?_⟩
                      rw [label_addAnalysisFrom, move_annotate]
                    · exact ⟨c, List.mem_cons_of_mem _ (List.mem_append_left _ hc), rfl⟩
                  · exact ⟨c, List.mem_cons_of_mem _ (List.mem_append_right _ hc), rfl⟩
          rw [addAnalysisFrom_cons, addAnalysisFrom_cons, annotate_annotate, hnone,
            List.append_nil, ih h.below hline.2]

end

/-- Adding a report annotates main-line nodes and appends legal lines of the engine that are
not there yet; every path still names its node, and the same report again changes nothing. -/
theorem addAnalysis_only_annotates {ι : Type} {C : Chessops} (laws : C.NormalMoves)
    ( getAnnotation : GetAnnotation) (analysis : List (MoveAnalysis BestMoves))
    (showVariations : Bool) (fresh second : ℕ → ℕ → ι) {root : TreeNode ι}
    (h : LegalReport C analysis 0 root) :
    let root' := addAnalysis C getAnnotation analysis showVariations fresh root
    mainLineEnd root' = mainLineEnd root ∧
      (∀ path u, root.nodeAt path = some u →
        ∃ u', root'.nodeAt path = some u' ∧ OnlyAnnotated C analysis 0 path u u') ∧
      addAnalysis C getAnnotation analysis showVariations second root' = root' :=
  ⟨mainLineEnd_addAnalysisFrom 0 root, fun _ _ hu ↦ nodeAt_addAnalysisFrom laws h hu,
    addAnalysisFrom_twice laws second h⟩

namespace KingPawn

theorem normalMoves : chessops.NormalMoves where
  idem := fun _ _ ↦ rfl
  legal := fun _ _ h ↦ h
  noDrop := by
    intro pos role target
    cases pos <;> rfl

/-- The tree of `1. e4`. -/
def kingPawnTree : TreeNode ℕ :=
  .node (rootData chessops 0 initialFen)
    [createNode 1 Game.kingPawn.fen e4 "e4".toList 1 none]

def bestLine (uci san : String) (hasMove : [uci.toList] ≠ []) : BestMoves :=
  ⟨12, ⟨.cp, 30, none⟩, [uci.toList], [san.toList], hasMove⟩

/-- The engine would rather play `1. d4`. -/
def queenPawnReport : List (MoveAnalysis BestMoves) :=
  [⟨[bestLine "d2d4" "d4" (by decide)], false, false⟩,
    ⟨[bestLine "e7e5" "e5" (by decide)], false, false⟩]

theorem legalReport : LegalReport chessops queenPawnReport 0 kingPawnTree := by
  intro i data current line pos hlabel hcurrent hline hpos
  match i with
  | 0 =>
      cases hlabel
      cases hcurrent
      cases hline
      cases hpos
      exact ⟨d4, by decide, by decide, trivial⟩
  | 1 =>
      cases hlabel
      cases hcurrent
      cases hline
      cases hpos
      exact ⟨e5, by decide, by decide, trivial⟩
  | i + 2 => cases hlabel

/-- `1. d4` comes beside `1. e4`, once. -/
theorem addAnalysis_kingPawnTree :
    let root' := addAnalysis chessops (fun _ _ _ _ _ _ _ ↦ some .blunder) queenPawnReport true
      (fun i j ↦ 10 * i + j) kingPawnTree
    root'.children.map (fun c ↦ c.label.san) = [some "e4".toList, some "d4".toList] ∧
      addAnalysis chessops (fun _ _ _ _ _ _ _ ↦ some .blunder) queenPawnReport true
        (fun i j ↦ 20 * i + j) root' = root' := by
  intro root'
  have hreport := addAnalysis_only_annotates normalMoves (fun _ _ _ _ _ _ _ ↦ some .blunder)
    queenPawnReport true (fun i j ↦ 10 * i + j) (fun i j ↦ 20 * i + j) legalReport
  exact ⟨by decide, hreport.2.2⟩

end KingPawn

end EnCroissant

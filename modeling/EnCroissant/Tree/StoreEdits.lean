import EnCroissant.Tree.Store

/-!
# Edits keep the tree store sound

Whatever is loaded, edited and annotated: every node follows from its parent by its move,
stands at the ply of its depth, and every tracked path names a node.
-/

namespace EnCroissant

open RoseTree

variable {ι : Type} {C : Chessops} {s s' : TreeState ι}

/-! ## Annotations -/

theorem follows_of_labelAt {t : TreeNode ι} (h : FollowsOn C t) {path : List ℕ} {i : ℕ}
    {parent child : NodeData ι} (hparent : t.labelAt path = some parent)
    (hchild : t.labelAt (path ++ [i]) = some child) : Follows C parent child :=
  Families.labelAt h hparent hchild

theorem FollowsOn.relabels {t t' : TreeNode ι} (h : FollowsOn C t)
    (hrelabels : Relabels SamePly t t') : FollowsOn C t' := by
  refine families_of_labelAt t' fun path i parent child hparent hchild ↦ ?_
  obtain ⟨parent', hparent', hply⟩ := hrelabels.label_of hparent
  obtain ⟨child', hchild', hply'⟩ := hrelabels.label_of hchild
  exact (follows_of_labelAt h hparent' hchild').samePly hply hply'

theorem Consistent.relabels {t t' : TreeNode ι} (h : Consistent C t)
    (hrelabels : Relabels SamePly t t') : Consistent C t' where
  follows := h.follows.relabels hrelabels
  root := by
    obtain ⟨hfen, -, -, hply⟩ := hrelabels.root
    rw [hfen, hply, h.root]

theorem relabels_updateLabel_samePly {f : NodeData ι → NodeData ι}
    (hf : ∀ data, SamePly data (f data)) (path : List ℕ) (t : TreeNode ι) :
    Relabels SamePly t (t.updateLabel f path) :=
  relabels_updateLabel SamePly.refl hf path t

theorem relabels_clearGameEnds (t : TreeNode ι) : Relabels SamePly t (clearGameEnds t) :=
  relabels_mapDepths (fun _ _ ↦ ⟨rfl, rfl, rfl, rfl⟩) 0 t

theorem Relabels.trans_samePly {t t' t'' : TreeNode ι} (h : Relabels SamePly t t')
    (h' : Relabels SamePly t' t'') : Relabels SamePly t t'' := by
  intro path
  have hpath := h path
  have hpath' := h' path
  generalize t.labelAt path = a, t'.labelAt path = b, t''.labelAt path = c at hpath hpath' ⊢
  cases hpath with
  | none =>
      cases hpath'
      exact .none
  | some hab =>
      cases hpath' with
      | some hbc => exact .some (hab.trans hbc)

/-- The ply counts that a stored tree is given are those it has. -/
theorem relabels_normalizeTreeHalfMoves {root : TreeNode ι} (h : Consistent C root) :
    Relabels SamePly root (normalizeTreeHalfMoves C root) := by
  intro path
  rw [normalizeTreeHalfMoves, labelAt_mapDepths]
  cases hdata : root.labelAt path with
  | none => exact .none
  | some data =>
      refine .some ⟨rfl, rfl, rfl, ?_⟩
      rw [h.halfMoves hdata, Nat.zero_add]

/-! ## The tracked paths -/

/-- The state of a store: positions and ply counts follow from the moves, and the tracked paths
lead to nodes. -/
structure TreeState.Sound (C : Chessops) (s : TreeState ι) : Prop where
  consistent : Consistent C s.root
  tracks : s.Tracks

theorem TreeState.Tracks.relabels (h : s.Tracks) (hrelabels : Relabels SamePly s.root s'.root)
    (htracked : s'.tracked = s.tracked) : s'.Tracks := by
  obtain ⟨hposition, hstart, hpractice⟩ := TrackedPaths.mk.inj htracked
  refine ⟨?_, fun path hpath ↦ ?_, fun path hpath ↦ ?_⟩
  · rw [hrelabels.isSome, hposition]
    exact h.position
  · rw [hrelabels.isSome]
    exact h.start path (hstart ▸ hpath)
  · rw [hrelabels.isSome]
    exact h.practicePath path (hpractice ▸ hpath)

/-- An edit that changes nothing but what the nodes say. -/
theorem TreeState.Sound.relabels (h : s.Sound C) (hrelabels : Relabels SamePly s.root s'.root)
    (htracked : s'.tracked = s.tracked) : s'.Sound C :=
  ⟨h.consistent.relabels hrelabels, h.tracks.relabels hrelabels htracked⟩

theorem TreeState.Sound.same (h : s.Sound C) (hroot : s'.root = s.root)
    (htracked : s'.tracked = s.tracked) : s'.Sound C :=
  h.relabels (hroot ▸ relabels_refl SamePly.refl s.root) htracked

theorem TreeState.Sound.annotate (h : s.Sound C) {f : NodeData ι → NodeData ι}
    (hf : ∀ data, SamePly data (f data)) : (s.annotate f).Sound C :=
  h.relabels (relabels_updateLabel_samePly hf s.position s.root) rfl

theorem Plays.tracks {args : MoveArgs} (htracks : s.Tracks) (h : Plays C s s' args) :
    s'.Tracks := by
  refine ⟨?_, h.start.resolves, h.practicePath.resolves⟩
  cases hsan : playedSan C s args with
  | none =>
      rw [h.illegal hsan]
      exact htracks.position
  | some san =>
      cases hchange : args.changePosition with
      | false =>
          obtain ⟨data, -, hdata⟩ := h.stays hchange
          exact isSome_nodeAt_of_labelAt hdata
      | true =>
          obtain ⟨-, i, data, -, hdata, -⟩ := h.moves san hsan hchange
          exact isSome_nodeAt_of_labelAt hdata

theorem TreeState.Sound.makeMove (h : s.Sound C) (fresh : ι) (args : MoveArgs) :
    (makeMove C fresh s args).Sound C :=
  ⟨consistent_makeMove h.consistent fresh args,
    (makeMove_plays C h.tracks fresh args).tracks h.tracks⟩

theorem TreeState.Sound.deleteMove (h : s.Sound C) (path : List ℕ) :
    (deleteMove s path).Sound C := by
  refine ⟨consistent_deleteMove h.consistent path, ?_⟩
  by_cases hpath : path = [] ∨ s.root.nodeAt path = none
  · rw [deleteMove_of_unresolved hpath]
    exact h.tracks
  · rw [not_or] at hpath
    exact (deleteMove_deletes h.tracks hpath.1 (Option.isSome_iff_ne_none.mpr hpath.2)).tracks

theorem TreeState.Sound.promoteVariation {path path' : List ℕ} (h : s.Sound C)
    (hpath : (s.root.nodeAt path).isSome) (hs' : promoteVariation s path = some (s', path')) :
    s'.Sound C := by
  obtain ⟨t, p, ht, hkeeps, -⟩ := promoteVariation_keeps h.tracks hpath
  rw [hs'] at ht
  obtain ⟨rfl, -⟩ := Prod.mk.inj (Option.some.inj ht)
  exact ⟨consistent_promoteVariation h.consistent hs', hkeeps.tracks⟩

theorem TreeState.Sound.promoteToMainline {path : List ℕ} (h : s.Sound C)
    (hpath : (s.root.nodeAt path).isSome) (hs' : promoteToMainline s path = some s') :
    s'.Sound C := by
  obtain ⟨t, ht, hkeeps⟩ := promoteToMainline_keeps h.tracks hpath
  rw [hs'] at ht
  obtain rfl := Option.some.inj ht
  have hconsistent : Consistent C ({ s with dirty := true } : TreeState ι).root := h.consistent
  exact ⟨consistent_promoteAll hconsistent hs', hkeeps.tracks⟩

theorem tracks_of_root {s : TreeState ι} (hposition : s.position = [])
    (hstart : s.headers.start = none) (hpractice : s.practicePath = none) : s.Tracks where
  position := by
    rw [hposition, nodeAt_nil]
    rfl
  start path hpath := by rw [hstart] at hpath; cases hpath
  practicePath path hpath := by rw [hpractice] at hpath; cases hpath

theorem sound_defaultTree (ref : ι) (fen : Text) : (defaultTree C ref fen).Sound C :=
  ⟨consistent_defaultTree ref fen, tracks_of_root rfl rfl rfl⟩

theorem sound_installRoot (s : TreeState ι) (ref : ι) (fen : Text) :
    (installRoot s (defaultTree C ref fen).root).Sound C :=
  ⟨consistent_defaultTree ref fen, tracks_of_root rfl rfl rfl⟩

/-! ## Loading -/

theorem isSome_of_inRange_length {root : TreeNode ι} {path : List ℕ}
    (h : (root.inRange path).length = path.length) : (root.nodeAt path).isSome := by
  have hpath : root.inRange path = path := ( inRange_prefix root path).eq_of_length h
  rw [← hpath, nodeAt_inRange]
  rfl

theorem isSome_parseStartHeader (start : Option (List ℕ)) (root : TreeNode ι) :
    (root.nodeAt (parseStartHeader start root)).isSome := by
  have hroot : (root.nodeAt []).isSome := by rw [nodeAt_nil]; rfl
  unfold parseStartHeader
  split
  · exact hroot
  · split_ifs with hlong hresolves
    · exact hroot
    · exact isSome_of_inRange_length hresolves
    · exact hroot

theorem TreeState.Sound.applyGameEndLoadDefault (h : s.Sound C) :
    (applyGameEndLoadDefault s).Sound C := by
  unfold EnCroissant.applyGameEndLoadDefault
  dsimp only
  split
  · exact h
  · split
    · exact h
    · refine h.relabels ?_ rfl
      dsimp only
      apply relabels_updateLabel_samePly
      exact fun _ ↦ ⟨rfl, rfl, rfl, rfl⟩

theorem sound_loadGame (laws : C.FenLaws) (R : CommentReader)
    (parseJson : Text → Option PgnHeaders.JsonValue) (ref : ι) (initialFen : Text)
    (tokens : List PgnHeaders.Token) : (loadGame C R parseJson ref initialFen tokens).Sound C := by
  apply TreeState.Sound.applyGameEndLoadDefault
  refine ⟨consistent_innerParsePGN laws _ tokens, ?_, ?_, nofun⟩
  · exact isSome_parseStartHeader (PgnHeaders.getPgnHeaders parseJson tokens).start _
  · rintro path ⟨⟩
    exact isSome_parseStartHeader (PgnHeaders.getPgnHeaders parseJson tokens).start _

/-! ## Editing -/

theorem TreeState.Sound.addAnalysis (moves : C.NormalMoves) (laws : C.FenLaws) (h : s.Sound C)
    { getAnnotation : GetAnnotation} {analysis : List (MoveAnalysis BestMoves)}
    {showVariations : Bool} {fresh : ℕ → ℕ → ι} (hreport : LegalReport C analysis 0 s.root) :
    ({ s with
      root := addAnalysis C getAnnotation analysis showVariations fresh s.root
      dirty := true } : TreeState ι).Sound C := by
  have hkept : ∀ {path : List ℕ}, (s.root.nodeAt path).isSome →
      ((EnCroissant.addAnalysis C getAnnotation analysis showVariations fresh s.root).nodeAt
        path).isSome := by
    intro path hpath
    obtain ⟨u, hu⟩ := Option.isSome_iff_exists.mp hpath
    obtain ⟨u', hu', -⟩ : ∃ u', (EnCroissant.addAnalysis C getAnnotation analysis showVariations
        fresh s.root).nodeAt path = some u' ∧ OnlyAnnotated C analysis 0 path u u' :=
      nodeAt_addAnalysisFrom moves hreport hu
    rw [hu']
    rfl
  exact ⟨consistent_addAnalysis moves laws h.consistent hreport, hkept h.tracks.position,
    fun path hpath ↦ hkept (h.tracks.start path hpath),
    fun path hpath ↦ hkept (h.tracks.practicePath path hpath)⟩

theorem TreeState.Sound.setGameEnd (h : s.Sound C) (path : List ℕ) :
    (setGameEnd s path).Sound C := by
  unfold EnCroissant.setGameEnd
  split_ifs
  · exact h
  · refine h.relabels (Relabels.trans_samePly (relabels_clearGameEnds s.root) ?_) rfl
    dsimp only
    apply relabels_updateLabel_samePly
    exact fun _ ↦ ⟨rfl, rfl, rfl, rfl⟩

theorem TreeState.Sound.setTermination (h : s.Sound C) (text : Text) :
    (setTermination s text).Sound C := by
  unfold EnCroissant.setTermination
  split
  · exact h
  · split
    · exact h
    · refine h.relabels ?_ rfl
      dsimp only
      apply relabels_updateLabel_samePly
      exact fun _ ↦ ⟨rfl, rfl, rfl, rfl⟩

theorem TreeState.Sound.clearShapes (h : s.Sound C) : (clearShapes s).Sound C := by
  unfold EnCroissant.clearShapes
  split_ifs
  · exact h
  · exact h.annotate fun _ ↦ ⟨rfl, rfl, rfl, rfl⟩

theorem TreeState.Sound.setHeaders (h : s.Sound C) (ref : ι) {headers : GameHeaders}
    (hstart : headers.fen = [] ∨ headers.fen = s.root.label.fen →
      ∀ p ∈ headers.start, (s.root.nodeAt p).isSome) :
    (if headers.fen ≠ [] ∧ headers.fen ≠ s.root.label.fen then
      installRoot { s with headers := headers, dirty := true }
        (defaultTree C ref headers.fen).root
    else { s with headers := headers, dirty := true }).Sound C := by
  split_ifs with hfen
  · exact sound_installRoot _ ref headers.fen
  · rw [not_and_or, not_ne_iff, not_ne_iff] at hfen
    exact ⟨h.consistent, h.tracks.position, hstart hfen, h.tracks.practicePath⟩

/-- Every edit of a sound state gives a sound state. -/
theorem TreeState.Sound.edit (moves : C.NormalMoves) (laws : C.FenLaws) {env : StoreEnv ι}
    {action : EditAction} (h : s.Sound C) (hpromised : (StoreAction.edit action).Promised C s)
    (hs' : action.apply C env s = some s') : s'.Sound C := by
  have hdirty : ({ s with dirty := true } : TreeState ι).Sound C := h.same rfl rfl
  have hsome : ∀ {t : TreeState ι}, some t = some s' → t.Sound C → s'.Sound C :=
    fun ht hsound ↦ Option.some.inj ht ▸ hsound
  cases action with
  | makeMove payload changePosition mainline changeHeaders clock =>
      rw [EditAction.apply] at hs'
      split at hs'
      · exact hsome hs' h
      · exact hsome hs' (h.makeMove _ _)
  | appendMove move clock => exact hsome hs' (h.makeMove _ _)
  | makeMoves args =>
      obtain ⟨hconsistent, htracks⟩ :=
        makeMoves_keeps laws (env.fresh 0) h.consistent h.tracks args
      exact hsome hs' ⟨hconsistent, htracks⟩
  | deleteMove path => exact hsome hs' (hdirty.deleteMove _)
  | promoteVariation path =>
      obtain ⟨⟨t, path'⟩, hpromoted, rfl⟩ := Option.map_eq_some_iff.mp hs'
      exact hdirty.promoteVariation hpromised hpromoted
  | promoteToMainline path => exact h.promoteToMainline hpromised hs'
  | setStart start =>
      refine hsome hs' ⟨h.consistent, h.tracks.position, ?_, h.tracks.practicePath⟩
      rintro path ⟨⟩
      exact hpromised
  | setPracticePath path =>
      exact hsome hs' ⟨h.consistent, h.tracks.position, h.tracks.start, hpromised⟩
  | setAnnotation glyph => exact hsome hs' (h.annotate fun _ ↦ ⟨rfl, rfl, rfl, rfl⟩)
  | setComment text => exact hsome hs' (h.annotate fun _ ↦ ⟨rfl, rfl, rfl, rfl⟩)
  | setGameEnd path => exact hsome hs' (h.setGameEnd path)
  | clearGameEnd => exact hsome hs' (h.relabels (relabels_clearGameEnds s.root) rfl)
  | setTermination text => exact hsome hs' (h.setTermination text)
  | setHeaders headers =>
      have hsound := h.setHeaders (env.fresh 0 0) hpromised
      rw [EditAction.apply] at hs'
      dsimp only at hs'
      split_ifs at hs' hsound with hfen
      · exact hsome hs' hsound
      · exact hsome hs' hsound
  | setResult result => exact hsome hs' (h.same rfl rfl)
  | setShapes shapes => exact hsome hs' (h.annotate fun _ ↦ ⟨rfl, rfl, rfl, rfl⟩)
  | setScore score => exact hsome hs' (h.annotate fun _ ↦ ⟨rfl, rfl, rfl, rfl⟩)
  | clearShapes => exact hsome hs' h.clearShapes
  | setFen fen => exact hsome hs' (sound_installRoot _ _ fen)
  | addAnalysis analysis showVariations =>
      exact hsome hs' (h.addAnalysis moves laws hpromised)

end EnCroissant

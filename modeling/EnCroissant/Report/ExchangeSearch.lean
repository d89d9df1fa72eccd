import EnCroissant.Library.AlphaBeta
import EnCroissant.Report.Annotations

/-!
# The exchange search behind the sacrifice flag

The pruned search over the captures returns the plain quiescence value, inside the
integers of 32 bits and in whatever order the captures are tried.
-/

namespace EnCroissant

/-! ## Captures take pieces off the board -/

/-- The number of pieces on a board. -/
def Board.pieces (b : Board) : ℕ := (Finset.univ.filter fun s ↦ (b s).isSome).card

theorem Board.pieces_le (b : Board) : b.pieces ≤ 64 :=
  (Finset.card_le_univ _).trans_eq (Fintype.card_fin 64)

/-- A piece that moves onto an occupied square leaves one piece less. -/
theorem Board.pieces_capture {b : Board} {source target : Square} {piece : Piece}
    (hne : source ≠ target) (hsource : (b source).isSome = true)
    (htarget : (b target).isSome = true) :
    Board.pieces (Function.update (Function.update b source none) target (some piece)) <
      b.pieces := by
  refine Finset.card_lt_card ⟨fun s hs ↦ ?_, fun hsubset ↦ ?_⟩
  · rw [Finset.mem_filter] at hs ⊢
    refine ⟨hs.1, ?_⟩
    have hoccupied := hs.2
    by_cases htarget' : s = target
    · rw [htarget']
      exact htarget
    · rw [Function.update_of_ne htarget'] at hoccupied
      by_cases hsource' : s = source
      · rw [hsource']
        exact hsource
      · rwa [Function.update_of_ne hsource'] at hoccupied
  · have hmem := hsubset (Finset.mem_filter.mpr ⟨Finset.mem_univ source, hsource⟩)
    rw [Finset.mem_filter, Function.update_of_ne hne, Function.update_self] at hmem
    cases hmem.2

/-- A pawn that takes beside its target square leaves one piece less. -/
theorem Board.pieces_enPassant {b : Board} {source target taken : Square} {piece : Piece}
    (hne : taken ≠ source) (hsource : (b source).isSome = true)
    (htaken : (b taken).isSome = true) :
    Board.pieces (Function.update (Function.update (Function.update b taken none) source none)
      target (some piece)) < b.pieces := by
  have hsubset : (Finset.univ.filter fun s ↦ (Function.update (Function.update
      (Function.update b taken none) source none) target (some piece) s).isSome) ⊆
      insert target (((Finset.univ.filter fun s ↦ (b s).isSome).erase taken).erase source) := by
    intro s hs
    rw [Finset.mem_insert, Finset.mem_erase, Finset.mem_erase, Finset.mem_filter]
    rw [Finset.mem_filter] at hs
    have hoccupied := hs.2
    by_cases htarget' : s = target
    · exact .inl htarget'
    · rw [Function.update_of_ne htarget'] at hoccupied
      by_cases hsource' : s = source
      · rw [hsource', Function.update_self] at hoccupied
        cases hoccupied
      · rw [Function.update_of_ne hsource'] at hoccupied
        by_cases htaken' : s = taken
        · rw [htaken', Function.update_self] at hoccupied
          cases hoccupied
        · rw [Function.update_of_ne htaken'] at hoccupied
          exact .inr ⟨hsource', htaken', Finset.mem_univ s, hoccupied⟩
  have htaken' : taken ∈ Finset.univ.filter fun s ↦ (b s).isSome :=
    Finset.mem_filter.mpr ⟨Finset.mem_univ _, htaken⟩
  have hsource' : source ∈ (Finset.univ.filter fun s ↦ (b s).isSome).erase taken :=
    Finset.mem_erase.mpr ⟨hne.symm, Finset.mem_filter.mpr ⟨Finset.mem_univ _, hsource⟩⟩
  have hle := (Finset.card_le_card hsubset).trans (Finset.card_insert_le _ _)
  have herase := Finset.card_erase_add_one hsource'
  have herase' := Finset.card_erase_add_one htaken'
  rw [Board.pieces, Board.pieces]
  omega

/-- Documented facts about the captures of a position and its end. -/
structure ReportRules.CaptureLaws (R : ReportRules) : Prop where
  rules : R.toShakmaty.Laws
  captured : ∀ p role source captured target promotion,
    .normal role source (some captured) target promotion ∈ R.legalMoves p →
      R.board p target = some ⟨(R.turn p).other, captured⟩
  enPassant : ∀ p source target, .enPassant source target ∈ R.legalMoves p →
    R.board p (Square.fromCoords target.file source.rank) = some ⟨(R.turn p).other, .pawn⟩
  ended : ∀ p, ∀ m ∈ R.legalMoves p, R.isCheckmate p = false ∧ R.isStalemate p = false

theorem Color.other_ne (color : Color) : color.other ≠ color := by
  cases color <;> decide

section

variable {R : ReportRules}

theorem pieces_play_lt (laws : R.CaptureLaws) {p : R.Chess} {m : Move} (hm : m ∈ R.legalMoves p)
    (hcapture : m.captured.isSome = true) :
    (R.board (R.playUnchecked p m)).pieces < (R.board p).pieces := by
  have hfits := laws.rules.legal_fits p m hm
  rw [laws.rules.board_play p m hm]
  cases m with
  | normal role source capture target promotion =>
      cases capture with
      | none => cases hcapture
      | some captured =>
          have htarget := laws.captured p role source captured target promotion hm
          have hne : source ≠ target := by
            rintro rfl
            rw [hfits.1] at htarget
            injection htarget with hpiece
            injection hpiece with hcolor
            exact Color.other_ne _ hcolor.symm
          refine Board.pieces_capture hne ?_ ?_
          · rw [hfits.1]
            rfl
          · rw [htarget]
            rfl
  | enPassant source target =>
      have htaken := laws.enPassant p source target hm
      have hne : Square.fromCoords target.file source.rank ≠ source := by
        intro hsame
        rw [hsame, hfits.1] at htaken
        injection htaken with hpiece
        injection hpiece with hcolor
        exact Color.other_ne _ hcolor.symm
      refine Board.pieces_enPassant hne ?_ ?_
      · rw [hfits.1]
        rfl
      · rw [htaken]
        rfl
  | castle king rook => cases hcapture
  | put role target => cases hcapture

end

/-! ## The static count is small -/

/-- A board full of queens. -/
def materialMax : ℤ := 64 * 900

theorem pieceValue_mem (role : Role) : 0 ≤ pieceValue role ∧ pieceValue role ≤ 900 := by
  cases role <;> decide

theorem Board.material_mem (b : Board) (color : Color) :
    0 ≤ b.material color ∧ b.material color ≤ materialMax := by
  have hbounds : ∀ values : List ℤ, values.length = 64 → (∀ x ∈ values, 0 ≤ x ∧ x ≤ 900) →
      0 ≤ values.sum ∧ values.sum ≤ materialMax := by
    intro values hlength hall
    have hsum := List.sum_le_card_nsmul _ 900 fun x hx ↦ (hall x hx).2
    rw [hlength] at hsum
    exact ⟨List.sum_nonneg fun x hx ↦ (hall x hx).1, hsum⟩
  apply hbounds
  · rw [List.length_map, List.length_finRange]
  · intro x hx
    obtain ⟨s, -, rfl⟩ := List.mem_map.mp hx
    cases b s with
    | none => exact ⟨le_rfl, by norm_num⟩
    | some piece =>
        simp only
        split_ifs
        · exact pieceValue_mem piece.role
        · exact ⟨le_rfl, by norm_num⟩

theorem abs_countMaterial_le {R : ReportRules} (p : R.Chess) :
    |countMaterial R p| ≤ materialMax := by
  rw [countMaterial]
  split_ifs
  · decide
  · decide
  · have hown := (R.board p).material_mem (R.turn p)
    have hothers := (R.board p).material_mem (R.turn p).other
    simp only [abs_le]
    constructor <;> omega

/-! ## The searches -/

/-- What the loop does with the score of a capture: it returns, or goes on with `alpha`. -/
def captureStep (beta alpha found : ℤ) : Except ℤ ℤ :=
  if beta ≤ found then .error beta else .ok (if alpha < found then found else alpha)

/-- `-x`, which overflows for the least integer of 32 bits. -/
def negI32 (x : ℤ) : Option ℤ := if x = scoreMin then none else some (-x)

section

variable (R : ReportRules)

def captures (position : R.Chess) : List Move :=
  (R.legalMoves position).filter fun m ↦ m.captured.isSome

/-- The plain quiescence value: the static count at the end of the game, and otherwise the
largest of the static count and of what the legal captures are worth. -/
structure IsQuiescence (Q : R.Chess → ℤ) : Prop where
  ended : ∀ p, (R.isCheckmate p || R.isStalemate p) = true → Q p = countMaterial R p
  quiet : ∀ p, (R.isCheckmate p || R.isStalemate p) = false →
    IsGreatest
      (insert (countMaterial R p) {s | ∃ m ∈ captures R p, s = -Q (R.playUnchecked p m)}) (Q p)

/-- `qsearch` with the captures of each position in any order. -/
def qsearchWith (order : R.Chess → List Move) : ℕ → R.Chess → ℤ → ℤ → ℤ
  | fuel, position, alpha, beta =>
      if R.isCheckmate position || R.isStalemate position then countMaterial R position
      else
        let standPat := countMaterial R position
        if beta ≤ standPat then beta
        else
          let alpha := if alpha < standPat then standPat else alpha
          match fuel with
          | 0 => alpha
          | fuel + 1 =>
              searchCaptures
                (fun m alpha ↦
                  -qsearchWith order fuel (R.playUnchecked position m) (-beta) (-alpha))
                beta (order position) alpha

def naiveEvalWith (order : R.Chess → List Move) (position : R.Chess) : ℤ :=
  if R.isCheckmate position || R.isStalemate position then countMaterial R position
  else
    ((R.legalMoves position).map fun m ↦
      -qsearchWith R order 64 (R.playUnchecked position m) scoreMin scoreMax).max?.getD
        (countMaterial R position)

def isSacrificeWith (order : R.Chess → List Move) (previous current : R.Chess) : Bool :=
  -naiveEvalWith R order current + 100 < naiveEvalWith R order previous

/-- The loop of `qsearch` with scores whose computation may fail. -/
def searchCapturesChecked (score : Move → ℤ → Option ℤ) (beta : ℤ) : List Move → ℤ → Option ℤ
  | [], alpha => some alpha
  | m :: rest, alpha =>
      match score m alpha with
      | none => none
      | some found =>
          if beta ≤ found then some beta
          else searchCapturesChecked score beta rest (if alpha < found then found else alpha)

/-- `qsearch` that fails where a negation overflows, and where the fuel ends before the
captures do. -/
def qsearchChecked : ℕ → R.Chess → ℤ → ℤ → Option ℤ
  | fuel, position, alpha, beta =>
      if R.isCheckmate position || R.isStalemate position then some (countMaterial R position)
      else
        let standPat := countMaterial R position
        if beta ≤ standPat then some beta
        else
          let alpha := if alpha < standPat then standPat else alpha
          match fuel with
          | 0 => if (capturesByValue R position).isEmpty then some alpha else none
          | fuel + 1 =>
              searchCapturesChecked
                (fun m alpha ↦ do
                  let low ← negI32 beta
                  let high ← negI32 alpha
                  let found ← qsearchChecked fuel (R.playUnchecked position m) low high
                  negI32 found)
                beta (capturesByValue R position) alpha

/-- The game of captures, tried in some order. -/
def exchange (order : R.Chess → List Move) : QuietGame R.Chess ℤ where
  ended := fun p ↦ R.isCheckmate p || R.isStalemate p
  stand := countMaterial R
  next := fun p ↦ (order p).map (R.playUnchecked p)

/-- The quiescence value of a position. -/
def quiescence : R.Chess → ℤ := (exchange R (captures R)).value 64

/-- The captures of every position in an order of their own. -/
def OrdersCaptures (order : R.Chess → List Move) : Prop :=
  ∀ p, (order p).Perm (captures R p)

end

/-! ## The searches are searches of the game of captures -/

open QuietGame

theorem captureStep_eq (beta alpha found : ℤ) :
    captureStep beta alpha found = attempt beta alpha found := by
  rw [captureStep, attempt, ← max_def_lt]

theorem searchCaptures_cons (score : Move → ℤ → ℤ) (beta alpha : ℤ) (m : Move)
    (rest : List Move) :
    searchCaptures score beta (m :: rest) alpha =
      match captureStep beta alpha (score m alpha) with
      | .error result => result
      | .ok alpha => searchCaptures score beta rest alpha := by
  rw [searchCaptures, captureStep]
  by_cases hreached : beta ≤ score m alpha
  · simp only [if_pos hreached]
  · simp only [if_neg hreached]

theorem searchCaptures_eq {C : Type} (play : Move → C) (score : C → ℤ → ℤ) (beta : ℤ)
    (moves : List Move) : ∀ alpha : ℤ,
      searchCaptures (fun m ↦ score (play m)) beta moves alpha =
        tryAll score beta (moves.map play) alpha := by
  induction moves with
  | nil => exact fun alpha ↦ rfl
  | cons m moves ih =>
      intro alpha
      rw [searchCaptures_cons, captureStep_eq, List.map_cons, tryAll]
      cases attempt beta alpha (score (play m) alpha) with
      | error result => rfl
      | ok alpha => exact ih alpha

theorem searchCapturesChecked_eq {C : Type} (play : Move → C) (score : C → ℤ → Option ℤ)
    (beta : ℤ) (moves : List Move) : ∀ alpha : ℤ,
      searchCapturesChecked (fun m ↦ score (play m)) beta moves alpha =
        tryAllChecked score beta (moves.map play) alpha := by
  induction moves with
  | nil => exact fun alpha ↦ rfl
  | cons m moves ih =>
      intro alpha
      rw [searchCapturesChecked, List.map_cons, tryAllChecked]
      cases score (play m) alpha with
      | none => rfl
      | some found =>
          simp only [ih, attempt, max_def_lt]
          by_cases hreached : beta ≤ found
          · simp only [if_pos hreached]
          · simp only [if_neg hreached]

section

variable {R : ReportRules} {order : R.Chess → List Move}

theorem qsearchWith_eq_search (fuel : ℕ) : ∀ (p : R.Chess) (alpha beta : ℤ),
    qsearchWith R order fuel p alpha beta = (exchange R order).search fuel p alpha beta := by
  induction fuel with
  | zero =>
      intro p alpha beta
      rw [qsearchWith, search, max_def_lt]
      rfl
  | succ fuel ih =>
      intro p alpha beta
      rw [qsearchWith, search, max_def_lt]
      simp only [ih]
      rw [searchCaptures_eq (R.playUnchecked p)
        fun q alpha ↦ -(exchange R order).search fuel q (-beta) (-alpha)]
      rfl

theorem qsearch_eq_with (fuel : ℕ) : ∀ (p : R.Chess) (alpha beta : ℤ),
    qsearch R fuel p alpha beta = qsearchWith R (capturesByValue R) fuel p alpha beta := by
  induction fuel with
  | zero => exact fun p alpha beta ↦ rfl
  | succ fuel ih =>
      intro p alpha beta
      rw [qsearch, qsearchWith]
      simp only [ih]

theorem qsearchChecked_eq_search (fuel : ℕ) : ∀ (p : R.Chess) (alpha beta : ℤ),
    qsearchChecked R fuel p alpha beta =
      (exchange R (capturesByValue R)).searchChecked negI32 fuel p alpha beta := by
  induction fuel with
  | zero =>
      intro p alpha beta
      rw [qsearchChecked, searchChecked, max_def_lt]
      simp only [exchange, List.isEmpty_map]
      rfl
  | succ fuel ih =>
      intro p alpha beta
      rw [qsearchChecked, searchChecked, max_def_lt]
      simp only [ih]
      rw [searchCapturesChecked_eq (R.playUnchecked p) fun q alpha ↦ do
        let low ← negI32 beta
        let high ← negI32 alpha
        let found ← (exchange R (capturesByValue R)).searchChecked negI32 fuel q low high
        negI32 found]
      rfl

/-! ## The quiescence value -/

theorem capturesByValue_perm : OrdersCaptures R (capturesByValue R) :=
  fun _ ↦ List.mergeSort_perm _ _

theorem isQuiescence_iff (horder : OrdersCaptures R order) {Q : R.Chess → ℤ} :
    IsQuiescence R Q ↔ (exchange R order).IsValue Q := by
  have hset : ∀ p, {s | ∃ q ∈ (exchange R order).next p, s = -Q q} =
      {s | ∃ m ∈ captures R p, s = -Q (R.playUnchecked p m)} := by
    intro p
    ext s
    simp [exchange, (horder p).mem_iff]
  constructor
  · intro h
    exact ⟨h.ended, fun p hp ↦ by rw [hset]; exact h.quiet p hp⟩
  · intro h
    exact ⟨h.ended, fun p hp ↦ by rw [← hset]; exact h.quiet p hp⟩

theorem exchange_shrinks (laws : R.CaptureLaws) (horder : OrdersCaptures R order) :
    (exchange R order).Shrinks fun p ↦ (R.board p).pieces := by
  intro p _ q hq
  obtain ⟨m, hm, rfl⟩ := List.mem_map.mp hq
  obtain ⟨hlegal, hcapture⟩ := List.mem_filter.mp ((horder p).mem_iff.mp hm)
  exact pieces_play_lt laws hlegal hcapture

theorem isQuiescence_quiescence (laws : R.CaptureLaws) : IsQuiescence R (quiescence R) := by
  have hself : OrdersCaptures R (captures R) := fun p ↦ List.Perm.refl _
  rw [isQuiescence_iff hself]
  exact isValue_value (exchange_shrinks laws hself) fun p ↦ (R.board p).pieces_le

theorem IsQuiescence.unique (laws : R.CaptureLaws) {Q : R.Chess → ℤ} (hQ : IsQuiescence R Q) :
    Q = quiescence R := by
  have hself : OrdersCaptures R (captures R) := fun p ↦ List.Perm.refl _
  funext p
  exact ((isQuiescence_iff hself).mp hQ).unique (exchange_shrinks laws hself)
    ((isQuiescence_iff hself).mp (isQuiescence_quiescence laws)) le_rfl

theorem isValue_quiescence (laws : R.CaptureLaws) (horder : OrdersCaptures R order) :
    (exchange R order).IsValue (quiescence R) :=
  (isQuiescence_iff horder).mp (isQuiescence_quiescence laws)

theorem abs_quiescence_le (laws : R.CaptureLaws) (p : R.Chess) :
    |quiescence R p| ≤ materialMax := by
  apply (isValue_quiescence laws capturesByValue_perm).abs_le
    (exchange_shrinks laws capturesByValue_perm) (fun p ↦ abs_countMaterial_le p) le_rfl

/-- In the whole window the search returns the quiescence value. -/
theorem qsearchWith_eq_quiescence (laws : R.CaptureLaws) (horder : OrdersCaptures R order)
    {fuel : ℕ} (hfuel : 64 ≤ fuel) (p : R.Chess) :
    qsearchWith R order fuel p scoreMin scoreMax = quiescence R p := by
  have hbound := abs_le.mp (abs_quiescence_le laws p)
  have hsize : (R.board p).pieces ≤ fuel := (R.board p).pieces_le.trans hfuel
  rw [qsearchWith_eq_search, search_eq (exchange_shrinks laws horder)
    (isValue_quiescence laws horder) hsize (by decide)]
  split_ifs
  · rfl
  · have hmin : scoreMin ≤ -materialMax := by decide
    have hmax : materialMax ≤ scoreMax := by decide
    exact clip_of_mem (hmin.trans hbound.1) (hbound.2.trans hmax)

theorem fitsIn_negI32 : (exchange R order).FitsIn negI32 scoreMin scoreMax where
  neg := fun x hx ↦ if_neg hx.ne'
  opposite := by decide
  above := fun p ↦ by
    have hbound := abs_le.mp (abs_countMaterial_le p)
    have hmin : scoreMin < -materialMax := by decide
    exact hmin.trans_le hbound.1
  below := fun p ↦ by
    have hbound := abs_le.mp (abs_countMaterial_le p)
    have hmax : -scoreMax ≤ -materialMax := by decide
    exact hmax.trans hbound.1

/-- No negation of the search overflows, and it never runs out of fuel. -/
theorem qsearchChecked_eq_some (laws : R.CaptureLaws) {fuel : ℕ} {p : R.Chess} {alpha beta : ℤ}
    (hsize : (R.board p).pieces ≤ fuel) (hmin : scoreMin ≤ alpha) (hwindow : alpha < beta)
    (hmax : beta ≤ scoreMax) :
    qsearchChecked R fuel p alpha beta = some (qsearch R fuel p alpha beta) := by
  rw [qsearchChecked_eq_search, qsearch_eq_with, qsearchWith_eq_search]
  exact fitsIn_negI32.searchChecked_eq (exchange_shrinks laws capturesByValue_perm) hsize hmin
    hwindow hmax

/-- The loop that calls the search goes on as it would with the value cut to the window. -/
theorem captureStep_qsearch (laws : R.CaptureLaws) {fuel : ℕ} {p : R.Chess} {alpha beta : ℤ}
    (hsize : (R.board p).pieces ≤ fuel) (hwindow : alpha < beta) :
    captureStep (-alpha) (-beta) (-qsearch R fuel p alpha beta) =
      captureStep (-alpha) (-beta) (-clip alpha beta (quiescence R p)) := by
  rw [captureStep_eq, captureStep_eq, qsearch_eq_with, qsearchWith_eq_search]
  exact attempt_search (exchange_shrinks laws capturesByValue_perm)
    (isValue_quiescence laws capturesByValue_perm) hsize hwindow

/-! ## The evaluation of a position -/

theorem naiveEvalWith_eq (laws : R.CaptureLaws) (horder : OrdersCaptures R order) (p : R.Chess) :
    naiveEvalWith R order p =
      if R.isCheckmate p || R.isStalemate p then countMaterial R p
      else ((R.legalMoves p).map fun m ↦ -quiescence R (R.playUnchecked p m)).max?.getD
        (countMaterial R p) := by
  rw [naiveEvalWith]
  simp only [qsearchWith_eq_quiescence laws horder le_rfl]

theorem naiveEval_eq_with (p : R.Chess) : naiveEval R p = naiveEvalWith R (capturesByValue R) p := by
  rw [naiveEval, naiveEvalWith]
  simp only [qsearch_eq_with]

/-- The evaluation is the largest value of a legal move. -/
theorem isGreatest_naiveEval (laws : R.CaptureLaws) {p : R.Chess} (hmoves : R.legalMoves p ≠ []) :
    IsGreatest {s | ∃ m ∈ R.legalMoves p, s = -quiescence R (R.playUnchecked p m)}
      (naiveEval R p) := by
  obtain ⟨m, hm⟩ := List.exists_mem_of_ne_nil _ hmoves
  obtain ⟨hmate, hstalemate⟩ := laws.ended p m hm
  rw [naiveEval_eq_with, naiveEvalWith_eq laws capturesByValue_perm, hmate, hstalemate,
    if_neg (by decide)]
  cases hmax : ((R.legalMoves p).map fun m ↦ -quiescence R (R.playUnchecked p m)).max? with
  | none =>
      rw [List.max?_eq_none_iff, List.map_eq_nil_iff] at hmax
      exact absurd hmax hmoves
  | some best =>
      obtain ⟨hmem, hle⟩ := List.max?_eq_some_iff.mp hmax
      refine ⟨?_, ?_⟩
      · obtain ⟨m, hm, hvalue⟩ := List.mem_map.mp hmem
        exact ⟨m, hm, hvalue.symm⟩
      · rintro s ⟨m, hm, rfl⟩
        exact hle _ (List.mem_map.mpr ⟨m, hm, rfl⟩)

theorem abs_naiveEval_le (laws : R.CaptureLaws) (p : R.Chess) : |naiveEval R p| ≤ materialMax := by
  by_cases hmoves : R.legalMoves p = []
  · rw [naiveEval, hmoves]
    exact (ite_self (countMaterial R p)).symm ▸ abs_countMaterial_le p
  · obtain ⟨m, -, hvalue⟩ := (isGreatest_naiveEval laws hmoves).1
    rw [hvalue, abs_neg]
    exact abs_quiescence_le laws _

end

/-- The pruned search over the captures is the plain one: it never overflows or runs out of fuel,
returns the quiescence value in the whole window, decides the same at its callers in every
window, and the sacrifice flag does not depend on the order of the captures. -/
theorem qsearch_is_quiescence {R : ReportRules} (laws : R.CaptureLaws) :
    (IsQuiescence R (quiescence R) ∧ ∀ Q, IsQuiescence R Q → Q = quiescence R) ∧
      (∀ fuel p, 64 ≤ fuel → qsearchChecked R fuel p scoreMin scoreMax = some (quiescence R p) ∧
        qsearch R fuel p scoreMin scoreMax = quiescence R p) ∧
      (∀ fuel p alpha beta, (R.board p).pieces ≤ fuel → scoreMin ≤ alpha → alpha < beta →
        beta ≤ scoreMax →
          qsearchChecked R fuel p alpha beta = some (qsearch R fuel p alpha beta) ∧
            captureStep (-alpha) (-beta) (-qsearch R fuel p alpha beta) =
              captureStep (-alpha) (-beta) (-clip alpha beta (quiescence R p))) ∧
      (∀ p, R.legalMoves p ≠ [] →
        IsGreatest {s | ∃ m ∈ R.legalMoves p, s = -quiescence R (R.playUnchecked p m)}
          (naiveEval R p)) ∧
      (∀ p, |quiescence R p| ≤ materialMax ∧ |naiveEval R p| ≤ materialMax) ∧
      ∀ order, OrdersCaptures R order → ∀ previous current,
        isSacrificeWith R order previous current = isSacrifice R previous current := by
  refine ⟨⟨isQuiescence_quiescence laws, fun Q hQ ↦ hQ.unique laws⟩, fun fuel p hfuel ↦ ?_,
    fun fuel p alpha beta hsize hmin hwindow hmax ↦
      ⟨qsearchChecked_eq_some laws hsize hmin hwindow hmax, captureStep_qsearch laws hsize hwindow⟩,
    fun p hmoves ↦ isGreatest_naiveEval laws hmoves,
    fun p ↦ ⟨abs_quiescence_le laws p, abs_naiveEval_le laws p⟩,
    fun order horder previous current ↦ ?_⟩
  · have hvalue : qsearch R fuel p scoreMin scoreMax = quiescence R p := by
      rw [qsearch_eq_with]
      exact qsearchWith_eq_quiescence laws capturesByValue_perm hfuel p
    have hsize : (R.board p).pieces ≤ fuel := (R.board p).pieces_le.trans hfuel
    refine ⟨?_, hvalue⟩
    rw [qsearchChecked_eq_some laws hsize le_rfl (by decide) le_rfl, hvalue]
  · have heval : ∀ p, naiveEvalWith R order p = naiveEval R p := by
      intro p
      rw [naiveEval_eq_with, naiveEvalWith_eq laws horder,
        naiveEvalWith_eq laws capturesByValue_perm]
    rw [isSacrificeWith, isSacrifice, heval, heval]

namespace LoneQueen

theorem rules_captureLaws : rules.CaptureLaws where
  rules := rules_laws.rules
  captured := fun p role source captured target promotion hm ↦ by
    obtain ⟨rfl, htakes⟩ := eq_start_of_mem hm
    cases htakes
    rfl
  enPassant := fun p source target hm ↦ by
    cases (eq_start_of_mem hm).2
  ended := fun _ _ _ ↦ ⟨rfl, rfl⟩

/-- The search finds that White can take the queen. -/
theorem qsearch_start :
    rules.CaptureLaws ∧
      qsearchChecked rules 64 Position.start scoreMin scoreMax =
        some (quiescence rules Position.start) ∧
      captureStep (-0) (-100) (-qsearch rules 64 Position.start 0 100) =
        captureStep (-0) (-100) (-clip 0 100 (quiescence rules Position.start)) ∧
      IsGreatest {s | ∃ m ∈ [takes], s = -quiescence rules (rules.playUnchecked .start m)}
        (naiveEval rules Position.start) := by
  obtain ⟨-, hfull, hwindow, heval, -⟩ := qsearch_is_quiescence rules_captureLaws
  exact ⟨rules_captureLaws, (hfull 64 .start le_rfl).1,
    (hwindow 64 .start 0 100 (Board.pieces_le _) (by decide) (by decide) (by decide)).2,
    heval .start (List.cons_ne_nil _ _)⟩

example : qsearch rules 64 Position.start scoreMin scoreMax = 0 := by decide +kernel

end LoneQueen

end EnCroissant

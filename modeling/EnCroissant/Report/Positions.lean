import EnCroissant.Chess.Material
import EnCroissant.Game.Controller

/-!
# The positions of a report

The positions of a game that a report analyses, each with the moves that lead to it
and the sacrifice flag, and the analyses of them in either direction.  The engine and
the reference database are parameters.
-/

namespace EnCroissant

/-- What a report uses of the rules library, besides `GameRules`. -/
structure ReportRules extends GameRules where
  isGameOver : Chess → Bool
  /-- The FEN of a setup, as text. -/
  setupFen : Setup → String

/-! ## The evaluation behind the sacrifice flag -/

def pieceValue : Role → ℤ
  | .pawn => 100
  | .knight => 300
  | .bishop => 300
  | .rook => 500
  | .queen => 900
  | .king => 0

def mateScore : ℤ := 10000

def Board.material (b : Board) (color : Color) : ℤ :=
  ((List.finRange 64).map fun s ↦
    match b s with
    | some piece => if piece.color = color then pieceValue piece.role else 0
    | none => 0).sum

def Move.captured : Move → Option Role
  | .normal _ _ capture _ _ => capture
  | .enPassant .. => some .pawn
  | _ => none

def scoreMin : ℤ := -2 ^ 31

def scoreMax : ℤ := 2 ^ 31 - 1

section

variable (R : ReportRules)

def countMaterial (position : R.Chess) : ℤ :=
  if R.isCheckmate position then -mateScore
  else if R.isStalemate position then 0
  else
    let own := (R.board position).material (R.turn position)
    let others := (R.board position).material (R.turn position).other
    own - others

/-- The loop over the captures, with the score of each at the current `alpha`. -/
def searchCaptures (score : Move → ℤ → ℤ) (beta : ℤ) : List Move → ℤ → ℤ
  | [], alpha => alpha
  | m :: rest, alpha =>
      let found := score m alpha
      if beta ≤ found then beta
      else searchCaptures score beta rest (if alpha < found then found else alpha)

def capturesByValue (position : R.Chess) : List Move :=
  let captures := (R.legalMoves position).filter fun m ↦ m.captured.isSome
  let value m := (Move.captured m).elim 0 pieceValue
  captures.mergeSort fun a b ↦ value b ≤ value a

/-- Every capture takes a piece off the board, so that fuel for the pieces suffices. -/
def qsearch : ℕ → R.Chess → ℤ → ℤ → ℤ
  | fuel, position, alpha, beta =>
      if R.isCheckmate position || R.isStalemate position then countMaterial R position
      else
        let standPat := countMaterial R position
        if beta ≤ standPat then beta
        else
          let alpha := if alpha < standPat then standPat else alpha
          match fuel with
          | 0 => alpha
          | fuel + 1 =>
              searchCaptures
                (fun m alpha ↦ -qsearch fuel (R.playUnchecked position m) (-beta) (-alpha))
                beta (capturesByValue R position) alpha

def naiveEval (position : R.Chess) : ℤ :=
  if R.isCheckmate position || R.isStalemate position then countMaterial R position
  else
    ((R.legalMoves position).map fun m ↦
      -qsearch R 64 (R.playUnchecked position m) scoreMin scoreMax).max?.getD
        (countMaterial R position)

/-! ## The positions -/

structure ReportPosition where
  fen : String
  moves : List String
  isSacrifice : Bool
  deriving DecidableEq, Repr

def isSacrifice (previous current : R.Chess) : Bool :=
  -naiveEval R current + 100 < naiveEval R previous

/-- The replay of the moves from the ply `i` on. -/
def replayReport (moves : List String) :
    ℕ → R.Chess → List String → Except Error (List ReportPosition)
  | _, _, [] => .ok []
  | i, position, uci :: rest => do
      let played ← parseMove R.toGameRules uci position
      let next := R.playUnchecked position played
      let later ← replayReport moves (i + 1) next rest
      if R.isGameOver next then .ok later
      else .ok (⟨R.fen next, moves.take (i + 1), isSacrifice R position next⟩ :: later)

def collectReportPositions (setup : R.Setup) (moves : List String) (reversed : Bool) :
    Except Error (List ReportPosition) := do
  let position ← positionError R.toGameRules (R.fromSetup setup (R.detectCastlingMode setup))
  let later ← replayReport R moves 0 position moves
  let fens := ⟨R.setupFen setup, [], false⟩ :: later
  .ok (if reversed then fens.reverse else fens)

end

/-! ## The analyses -/

/-- The results of `analyse`, which knows how many positions came before. -/
def analyseEach {β : Type} (analyse : ℕ → List String → Except Error (List β)) :
    ℕ → List ReportPosition → Except Error (List (List β))
  | _, [] => .ok []
  | i, position :: rest => do
      let best ← analyse i position.moves
      let later ← analyseEach analyse (i + 1) rest
      .ok (best :: later)

/-- Whether each position is in the reference database, up to the first that is not. -/
def noveltyLookup (inDatabase : String → Except Error Bool) : List String → Except Error (List Bool)
  | [] => .ok []
  | fen :: rest => do
      let found ← inDatabase fen
      if !found then .ok [found]
      else do
        let later ← noveltyLookup inDatabase rest
        .ok (found :: later)

structure MoveAnalysis (β : Type) where
  best : List β
  novelty : Bool
  isSacrifice : Bool
  deriving DecidableEq, Repr

/-- The loop that writes the flags into the analyses. -/
def flagAnalyses {β : Type} (annotateNovelties : Bool) (present : List Bool)
    (fens : List ReportPosition) : ℕ → Bool → List (List β) → List (MoveAnalysis β)
  | _, _, [] => []
  | i, noveltyFound, best :: rest =>
      let sacrifice := fens[i]?.any (·.isSacrifice)
      if annotateNovelties && !noveltyFound then
        match present[i]? with
        | some found =>
            ⟨best, !found, sacrifice⟩ :: flagAnalyses annotateNovelties present fens (i + 1) (!found) rest
        | none =>
            ⟨best, false, sacrifice⟩ ::
              flagAnalyses annotateNovelties present fens (i + 1) noveltyFound rest
      else
        ⟨best, false, sacrifice⟩ ::
          flagAnalyses annotateNovelties present fens (i + 1) noveltyFound rest

structure AnalysisOptions where
  fen : String
  moves : List String
  annotateNovelties : Bool
  referenceDb : Option (String → Except Error Bool)
  reversed : Bool

def presentPositions (options : AnalysisOptions) (fens : List ReportPosition) :
    Except Error (List Bool) :=
  if options.annotateNovelties then
    match options.referenceDb with
    | none => .error .missingReferenceDatabase
    | some inDatabase => noveltyLookup inDatabase (fens.map (·.fen))
  else .ok []

def analyzeGame (R : ReportRules) {β : Type}
    (analyse : ℕ → List String → Except Error (List β)) (options : AnalysisOptions) :
    Except Error (List (MoveAnalysis β)) := do
  let setup ← parseFen R.toGameRules options.fen
  let fens ← collectReportPositions R setup options.moves options.reversed
  let analysis ← analyseEach analyse 0 fens
  let analysis := if options.reversed then analysis.reverse else analysis
  let fens := if options.reversed then fens.reverse else fens
  let present ← presentPositions options fens
  .ok (flagAnalyses options.annotateNovelties present fens 0 false analysis)

/-! ## The positions of a line -/

/-- Documented facts about the end of a game and the moves that are accepted. -/
structure ReportRules.Laws (R : ReportRules) : Prop where
  rules : R.toShakmaty.Laws
  material : R.toShakmaty.MaterialLaws
  gameOver_iff : ∀ p, R.isGameOver p = true ↔
    R.legalMoves p = [] ∨ R.isInsufficientMaterial p = true
  insufficient : ∀ p, R.isInsufficientMaterial p = (R.board p).isInsufficientMaterial
  legal : ∀ uci p m, R.uciToMove uci p = .ok m → m ∈ R.legalMoves p

section

variable {R : ReportRules}

theorem mem_legalMoves_of_parseMove (laws : R.Laws) {uci : String} {p : R.Chess} {m : Move}
    (h : parseMove R.toGameRules uci p = .ok m) : m ∈ R.legalMoves p := by
  obtain ⟨parsed, -, hmove⟩ := bind_eq_ok h
  cases hto : R.uciToMove parsed p with
  | error e =>
      rw [hto] at hmove
      cases hmove
  | ok found =>
      rw [hto] at hmove
      cases hmove
      exact laws.legal parsed p m hto

/-- A game that is over stays over. -/
theorem isGameOver_play (laws : R.Laws) {p : R.Chess} {m : Move} (hm : m ∈ R.legalMoves p)
    (h : R.isGameOver p = true) : R.isGameOver (R.playUnchecked p m) = true := by
  rw [laws.gameOver_iff] at h ⊢
  rcases h with hnone | hinsufficient
  · rw [hnone] at hm
    cases hm
  · rw [laws.insufficient] at hinsufficient ⊢
    exact .inr (Shakmaty.insufficient_play laws.rules laws.material hm hinsufficient)

/-- The positions after each of the moves, where all of them are legal. -/
def playUci (R : ReportRules) : R.Chess → List String → Except Error (List R.Chess)
  | _, [] => .ok []
  | p, uci :: rest => do
      let m ← parseMove R.toGameRules uci p
      let later ← playUci R (R.playUnchecked p m) rest
      .ok (R.playUnchecked p m :: later)

theorem length_playUci {p : R.Chess} {moves : List String} :
    ∀ {line : List R.Chess}, playUci R p moves = .ok line → line.length = moves.length := by
  induction moves generalizing p with
  | nil =>
      intro line h
      cases h
      rfl
  | cons uci rest ih =>
      intro line h
      obtain ⟨m, -, hlater⟩ := bind_eq_ok h
      obtain ⟨later, hplay, hline⟩ := bind_eq_ok hlater
      cases hline
      rw [List.length_cons, List.length_cons, ih hplay]

theorem isGameOver_line (laws : R.Laws) {p : R.Chess} {moves : List String}
    (hover : R.isGameOver p = true) :
    ∀ {line : List R.Chess}, playUci R p moves = .ok line →
      ∀ q ∈ line, R.isGameOver q = true := by
  induction moves generalizing p with
  | nil =>
      intro line h q hq
      cases h
      cases hq
  | cons uci rest ih =>
      intro line h q hq
      obtain ⟨m, hparse, hlater⟩ := bind_eq_ok h
      obtain ⟨later, hplay, hline⟩ := bind_eq_ok hlater
      cases hline
      have hnext := isGameOver_play laws (mem_legalMoves_of_parseMove laws hparse) hover
      rcases List.mem_cons.mp hq with rfl | hq
      · exact hnext
      · exact ih hnext hplay q hq

/-- The reports on the positions of a line. -/
def lineReports (R : ReportRules) (moves : List String) :
    ℕ → R.Chess → List R.Chess → List ReportPosition
  | _, _, [] => []
  | i, previous, current :: rest =>
      ⟨R.fen current, moves.take (i + 1), isSacrifice R previous current⟩ ::
        lineReports R moves (i + 1) current rest

/-- The positions of a line before the game is over. -/
def unfinished (R : ReportRules) (line : List R.Chess) : List R.Chess :=
  line.takeWhile fun p ↦ !R.isGameOver p

theorem unfinished_cons (p : R.Chess) (line : List R.Chess) :
    unfinished R (p :: line) = if R.isGameOver p = true then [] else p :: unfinished R line := by
  rw [unfinished, List.takeWhile_cons]
  cases R.isGameOver p <;> rfl

theorem replayReport_eq (laws : R.Laws) (moves : List String) {rest : List String} :
    ∀ {i : ℕ} {p : R.Chess} {line : List R.Chess}, playUci R p rest = .ok line →
      replayReport R moves i p rest = .ok (lineReports R moves i p (unfinished R line)) := by
  induction rest with
  | nil =>
      intro i p line h
      cases h
      rfl
  | cons uci rest ih =>
      intro i p line h
      obtain ⟨m, hparse, hlater⟩ := bind_eq_ok h
      obtain ⟨later, hplay, hline⟩ := bind_eq_ok hlater
      cases hline
      have hrest := ih (i := i + 1) hplay
      simp only [replayReport, hparse, bind, Except.bind, hrest]
      by_cases hover : R.isGameOver (R.playUnchecked p m) = true
      · have hnone : unfinished R later = [] := by
          cases later with
          | nil => rfl
          | cons q later =>
              rw [unfinished_cons, if_pos (isGameOver_line laws hover hplay q List.mem_cons_self)]
        rw [if_pos hover, hnone, unfinished_cons, if_pos hover]
        rfl
      · rw [if_neg hover, unfinished_cons, if_neg hover]
        rfl

theorem length_lineReports (moves : List String) (line : List R.Chess) :
    ∀ (i : ℕ) (p : R.Chess), (lineReports R moves i p line).length = line.length := by
  induction line with
  | nil => exact fun i p ↦ rfl
  | cons q line ih =>
      intro i p
      rw [lineReports, List.length_cons, List.length_cons, ih]

theorem getElem?_lineReports (moves : List String) {positions : List R.Chess} {j : ℕ} :
    ∀ {i : ℕ} {p previous current : R.Chess}, (p :: positions)[j]? = some previous →
      positions[j]? = some current →
        (lineReports R moves i p positions)[j]? =
          some ⟨R.fen current, moves.take (i + j + 1), isSacrifice R previous current⟩ := by
  induction positions generalizing j with
  | nil =>
      intro i p previous current _ h
      cases h
  | cons q positions ih =>
      intro i p previous current hprevious hcurrent
      cases j with
      | zero =>
          cases hprevious
          cases hcurrent
          rfl
      | succ j =>
          rw [lineReports, List.getElem?_cons_succ, ih (i := i + 1) hprevious hcurrent]
          rw [show i + 1 + j + 1 = i + (j + 1) + 1 by omega]

theorem length_unfinished_le (positions : List R.Chess) :
    (unfinished R positions).length ≤ positions.length :=
  (List.takeWhile_sublist _).length_le

/-- The reports on a game: its start, then the positions before its end. -/
def gameReports (R : ReportRules) (setup : R.Setup) (p : R.Chess) (moves : List String)
    (positions : List R.Chess) : List ReportPosition :=
  ⟨R.setupFen setup, [], false⟩ :: lineReports R moves 0 p (unfinished R positions)

theorem length_gameReports {setup : R.Setup} {p : R.Chess} {moves : List String}
    {positions : List R.Chess} :
    (gameReports R setup p moves positions).length = (unfinished R positions).length + 1 := by
  rw [gameReports, List.length_cons, length_lineReports]

theorem getElem?_unfinished {positions : List R.Chess} {i : ℕ}
    (hi : i < (unfinished R positions).length) :
    (unfinished R positions)[i]? = positions[i]? := by
  induction positions generalizing i with
  | nil => rfl
  | cons q positions ih =>
      rw [unfinished_cons] at hi ⊢
      split_ifs at hi ⊢ with hover
      · cases hi
      · cases i with
        | zero => rfl
        | succ i => exact ih (Nat.lt_of_succ_lt_succ hi)

/-- The positions before the end are exactly those in which the game is not over. -/
theorem isGameOver_iff_unfinished (laws : R.Laws) {p : R.Chess} {moves : List String} :
    ∀ {positions : List R.Chess}, playUci R p moves = .ok positions →
      ∀ {i : ℕ} {q : R.Chess}, positions[i]? = some q →
        (R.isGameOver q = true ↔ (unfinished R positions).length ≤ i) := by
  induction moves generalizing p with
  | nil =>
      intro positions h i q hq
      cases h
      cases hq
  | cons uci rest ih =>
      intro positions h i q hq
      obtain ⟨m, hparse, hlater⟩ := bind_eq_ok h
      obtain ⟨later, hplay, hpositions⟩ := bind_eq_ok hlater
      cases hpositions
      rw [unfinished_cons]
      split_ifs with hover
      · refine ⟨fun _ ↦ Nat.zero_le _, fun _ ↦ ?_⟩
        cases i with
        | zero =>
            cases hq
            exact hover
        | succ i => exact isGameOver_line laws hover hplay q (List.mem_of_getElem? hq)
      · cases i with
        | zero =>
            cases hq
            simp [hover]
        | succ i =>
            rw [List.length_cons, Nat.succ_le_succ_iff]
            exact ih hplay hq

theorem getElem?_gameReports {setup : R.Setup} {p : R.Chess} {moves : List String}
    {positions : List R.Chess} {i : ℕ} {previous current : R.Chess}
    (hi : i < (unfinished R positions).length) (hprevious : (p :: positions)[i]? = some previous)
    (hcurrent : positions[i]? = some current) :
    (gameReports R setup p moves positions)[i + 1]? =
      some ⟨R.fen current, moves.take (i + 1), isSacrifice R previous current⟩ := by
  rw [gameReports, List.getElem?_cons_succ]
  have hcurrent' : (unfinished R positions)[i]? = some current := by
    rw [getElem?_unfinished hi, hcurrent]
  have hprevious' : (p :: unfinished R positions)[i]? = some previous := by
    cases i with
    | zero => exact hprevious
    | succ i =>
        rw [List.getElem?_cons_succ] at hprevious ⊢
        rw [getElem?_unfinished (Nat.lt_of_succ_lt hi), hprevious]
  rw [getElem?_lineReports moves hprevious' hcurrent', Nat.zero_add]

theorem collectReportPositions_eq (laws : R.Laws) {setup : R.Setup} {p : R.Chess}
    {moves : List String} {positions : List R.Chess} (reversed : Bool)
    (hstart : positionError R.toGameRules (R.fromSetup setup (R.detectCastlingMode setup)) = .ok p)
    (hplay : playUci R p moves = .ok positions) :
    collectReportPositions R setup moves reversed =
      .ok (if reversed then (gameReports R setup p moves positions).reverse
        else gameReports R setup p moves positions) := by
  simp only [collectReportPositions, hstart, bind, Except.bind, replayReport_eq laws moves hplay]
  rfl

end

/-! ## The flags of the analyses -/

section

variable {β : Type} {analyse : ℕ → List String → Except Error (List β)}

theorem analyseEach_ok {fens : List ReportPosition} :
    ∀ {n : ℕ} {out : List (List β)}, analyseEach analyse n fens = .ok out →
      out.length = fens.length ∧ ∀ i best, out[i]? = some best →
        ∃ position, fens[i]? = some position ∧ analyse (n + i) position.moves = .ok best := by
  induction fens with
  | nil =>
      intro n out h
      cases h
      exact ⟨rfl, fun i best hbest ↦ by cases hbest⟩
  | cons position rest ih =>
      intro n out h
      obtain ⟨best, hbest, hlater⟩ := bind_eq_ok h
      obtain ⟨later, hrest, hout⟩ := bind_eq_ok hlater
      cases hout
      obtain ⟨hlength, hget⟩ := ih hrest
      refine ⟨by rw [List.length_cons, List.length_cons, hlength], fun i found hfound ↦ ?_⟩
      cases i with
      | zero =>
          cases hfound
          exact ⟨position, rfl, hbest⟩
      | succ i =>
          obtain ⟨position', hposition', hanalysed⟩ := hget i found hfound
          refine ⟨position', hposition', ?_⟩
          rwa [Nat.add_right_comm, Nat.add_assoc] at hanalysed

/-- The first absent position is the only one looked up as absent. -/
theorem noveltyLookup_ok {inDatabase : String → Except Error Bool} {fens : List String} :
    ∀ {present : List Bool}, noveltyLookup inDatabase fens = .ok present → ∀ i : ℕ,
      present[i]? = some false ↔
        (∃ fen : String, fens[i]? = some fen ∧ inDatabase fen = .ok false) ∧
          ∀ m < i, ∀ fen : String, fens[m]? = some fen → inDatabase fen = .ok true := by
  induction fens with
  | nil =>
      intro present h i
      cases h
      simp
  | cons fen rest ih =>
      intro present h i
      obtain ⟨found, hfound, hrest⟩ := bind_eq_ok h
      cases found with
      | false =>
          cases hrest
          cases i with
          | zero => simp [hfound]
          | succ i =>
              simp only [List.getElem?_cons_succ, List.getElem?_nil]
              constructor
              · intro hcase
                cases hcase
              · rintro ⟨-, hall⟩
                cases hfound.symm.trans (hall 0 (Nat.succ_pos i) fen rfl)
      | true =>
          obtain ⟨later, hlater, hpresent⟩ := bind_eq_ok hrest
          cases hpresent
          cases i with
          | zero => simp [hfound]
          | succ i =>
              rw [List.getElem?_cons_succ, ih hlater i, List.getElem?_cons_succ]
              refine and_congr_right fun _ ↦ ⟨fun hall m hm fen' hfen' ↦ ?_,
                fun hall m hm fen' hfen' ↦ hall (m + 1) (Nat.succ_lt_succ hm) fen' hfen'⟩
              cases m with
              | zero =>
                  cases hfen'
                  exact hfound
              | succ m => exact hall m (Nat.lt_of_succ_lt_succ hm) fen' hfen'

theorem flagAnalyses_cons (annotate : Bool) (present : List Bool) (fens : List ReportPosition)
    (n : ℕ) (noveltyFound : Bool) (best : List β) (rest : List (List β)) :
    flagAnalyses annotate present fens n noveltyFound (best :: rest) =
      ⟨best, annotate && !noveltyFound && decide (present[n]? = some false),
        fens[n]?.any (·.isSacrifice)⟩ ::
          flagAnalyses annotate present fens (n + 1)
            (noveltyFound || (annotate && decide (present[n]? = some false))) rest := by
  rw [flagAnalyses]
  cases annotate
  · simp
  · cases noveltyFound
    · cases present[n]? with
      | none => simp
      | some found => cases found <;> simp
    · simp

/-- The flags: the sacrifice of the position, and the first absent position as the novelty. -/
theorem flagAnalyses_getElem? {annotate : Bool} {present : List Bool}
    {fens : List ReportPosition} {bests : List (List β)} :
    ∀ {n : ℕ} {noveltyFound : Bool} {i : ℕ} {analysis : MoveAnalysis β},
      (flagAnalyses annotate present fens n noveltyFound bests)[i]? = some analysis →
        bests[i]? = some analysis.best ∧
          analysis.isSacrifice = fens[n + i]?.any (·.isSacrifice) ∧
            (analysis.novelty = true ↔ annotate = true ∧ noveltyFound = false ∧
              present[n + i]? = some false ∧ ∀ m < i, present[n + m]? ≠ some false) := by
  induction bests with
  | nil =>
      intro n noveltyFound i analysis h
      cases h
  | cons best rest ih =>
      intro n noveltyFound i analysis h
      rw [flagAnalyses_cons] at h
      cases i with
      | zero =>
          cases h
          refine ⟨rfl, rfl, ?_⟩
          simp [and_assoc]
      | succ i =>
          rw [List.getElem?_cons_succ] at h
          obtain ⟨hbest, hsacrifice, hnovelty⟩ := ih h
          rw [Nat.add_right_comm, Nat.add_assoc] at hsacrifice hnovelty
          refine ⟨hbest, hsacrifice, hnovelty.trans ?_⟩
          constructor
          · rintro ⟨hannotate, hfound, habsent, hbefore⟩
            rw [hannotate, Bool.true_and, Bool.or_eq_false_iff, decide_eq_false_iff_not] at hfound
            refine ⟨hannotate, hfound.1, habsent, fun m hm ↦ ?_⟩
            cases m with
            | zero => exact hfound.2
            | succ m =>
                have hlater := hbefore m (Nat.lt_of_succ_lt_succ hm)
                rwa [Nat.add_right_comm, Nat.add_assoc] at hlater
          · rintro ⟨hannotate, hfound, habsent, hbefore⟩
            refine ⟨hannotate, ?_, habsent, fun m hm ↦ ?_⟩
            · rw [hannotate, hfound, Bool.true_and, Bool.false_or, decide_eq_false_iff_not]
              exact hbefore 0 (Nat.succ_pos i)
            · have hlater := hbefore (m + 1) (Nat.succ_lt_succ hm)
              rwa [Nat.add_right_comm, Nat.add_assoc]

theorem length_flagAnalyses (annotate : Bool) (present : List Bool) (fens : List ReportPosition)
    (bests : List (List β)) :
    ∀ (n : ℕ) (noveltyFound : Bool),
      (flagAnalyses annotate present fens n noveltyFound bests).length = bests.length := by
  induction bests with
  | nil => exact fun n noveltyFound ↦ rfl
  | cons best rest ih =>
      intro n noveltyFound
      rw [flagAnalyses_cons, List.length_cons, List.length_cons, ih]

/-- Each analysis belongs to the report of its place: it is what the engine returned for the
moves of that report, with its sacrifice flag, and it is the novelty where the position is the
first one that the reference database does not have. -/
structure Aligned (analyse : ℕ → List String → Except Error (List β)) (options : AnalysisOptions)
    (fens : List ReportPosition) (analyses : List (MoveAnalysis β)) : Prop where
  length : analyses.length = fens.length
  best : ∀ i analysis, analyses[i]? = some analysis → ∃ report, fens[i]? = some report ∧
    analyse (if options.reversed then fens.length - 1 - i else i) report.moves =
      .ok analysis.best
  sacrifice : ∀ i : ℕ, ∀ analysis report, analyses[i]? = some analysis →
    fens[i]? = some report → analysis.isSacrifice = report.isSacrifice
  novelty : ∀ i : ℕ, ∀ analysis report, analyses[i]? = some analysis →
    fens[i]? = some report →
      (analysis.novelty = true ↔ options.annotateNovelties = true ∧
        ∃ inDatabase, options.referenceDb = some inDatabase ∧
          inDatabase report.fen = .ok false ∧ ∀ m < i, ∀ earlier : ReportPosition,
            fens[m]? = some earlier → inDatabase earlier.fen = .ok true)

/-- At most one analysis is the novelty. -/
theorem Aligned.novelty_unique {options : AnalysisOptions} {fens : List ReportPosition}
    {analyses : List (MoveAnalysis β)} (h : Aligned analyse options fens analyses) {i j : ℕ}
    {a b : MoveAnalysis β} (ha : analyses[i]? = some a) (hb : analyses[j]? = some b)
    (hna : a.novelty = true) (hnb : b.novelty = true) : i = j := by
  have hle : ∀ {i j : ℕ} {a b : MoveAnalysis β}, analyses[i]? = some a → analyses[j]? = some b →
      a.novelty = true → b.novelty = true → ¬i < j := by
    intro i j a b ha hb hna hnb hlt
    obtain ⟨ra, hra, -⟩ := h.best i a ha
    obtain ⟨rb, hrb, -⟩ := h.best j b hb
    obtain ⟨-, inDatabase, hdatabase, habsent, -⟩ := (h.novelty i a ra ha hra).mp hna
    obtain ⟨-, inDatabase', hdatabase', -, hbefore⟩ := (h.novelty j b rb hb hrb).mp hnb
    cases Option.some.inj (hdatabase.symm.trans hdatabase')
    cases habsent.symm.trans (hbefore i hlt ra hra)
  exact le_antisymm (not_lt.mp (hle hb ha hnb hna)) (not_lt.mp (hle ha hb hna hnb))

theorem getElem?_reverse_of_eq {α : Type} {l : List α} {i : ℕ} {a : α} (n : ℕ)
    (hn : n = l.length) (h : l.reverse[i]? = some a) : l[n - 1 - i]? = some a := by
  have hi : i < l.reverse.length := (List.getElem?_eq_some_iff.mp h).1
  rw [List.length_reverse] at hi
  rw [hn, ← List.getElem?_reverse hi]
  exact h

theorem aligned_of_analyzeGame {R : ReportRules} (laws : R.Laws) {options : AnalysisOptions}
    {setup : R.Setup} {p : R.Chess} {positions : List R.Chess}
    {analyses : List (MoveAnalysis β)}
    (hsetup : parseFen R.toGameRules options.fen = .ok setup)
    (hstart : positionError R.toGameRules (R.fromSetup setup (R.detectCastlingMode setup)) = .ok p)
    (hplay : playUci R p options.moves = .ok positions)
    (h : analyzeGame R analyse options = .ok analyses) :
    Aligned analyse options (gameReports R setup p options.moves positions) analyses := by
  obtain ⟨setup', hsetup', hcollect⟩ := bind_eq_ok h
  cases Except.ok.inj (hsetup'.symm.trans hsetup)
  obtain ⟨fens, hfens, hanalysis⟩ := bind_eq_ok hcollect
  cases Except.ok.inj (hfens.symm.trans
    (collectReportPositions_eq laws options.reversed hstart hplay))
  obtain ⟨out, hout, hnovelty⟩ := bind_eq_ok hanalysis
  obtain ⟨present, hpresent, hok⟩ := bind_eq_ok hnovelty
  obtain ⟨hlength, hget⟩ := analyseEach_ok hout
  have hfens : (if options.reversed = true then
      (if options.reversed = true then (gameReports R setup p options.moves positions).reverse
        else gameReports R setup p options.moves positions).reverse
      else if options.reversed = true then
        (gameReports R setup p options.moves positions).reverse
        else gameReports R setup p options.moves positions) =
      gameReports R setup p options.moves positions := by
    split_ifs
    · exact List.reverse_reverse _
    · rfl
  rw [hfens] at hpresent hok
  cases hok
  have hlength' : (if options.reversed = true then out.reverse else out).length =
      (gameReports R setup p options.moves positions).length := by
    split_ifs at hlength ⊢
    · rw [List.length_reverse, hlength, List.length_reverse]
    · exact hlength
  refine ⟨(length_flagAnalyses ..).trans hlength', fun i analysis hi ↦ ?_,
    fun i analysis report hi hreport ↦ ?_, fun i analysis report hi hreport ↦ ?_⟩
  · obtain ⟨hbest, -, -⟩ := flagAnalyses_getElem? hi
    split_ifs at hbest hget hlength ⊢
    · rw [List.length_reverse] at hlength
      obtain ⟨report, hreport, hanalysed⟩ := hget _ _ (getElem?_reverse_of_eq _ hlength.symm hbest)
      have hi : i < out.reverse.length := (List.getElem?_eq_some_iff.mp hbest).1
      rw [List.length_reverse, hlength] at hi
      have hplace := getElem?_reverse_of_eq _ rfl hreport
      rw [Nat.zero_add] at hanalysed
      refine ⟨report, ?_, hanalysed⟩
      rwa [show (gameReports R setup p options.moves positions).length - 1 -
        ((gameReports R setup p options.moves positions).length - 1 - i) = i by omega] at hplace
    · obtain ⟨report, hreport, hanalysed⟩ := hget i _ hbest
      rw [Nat.zero_add] at hanalysed
      exact ⟨report, hreport, hanalysed⟩
  · obtain ⟨-, hsacrifice, -⟩ := flagAnalyses_getElem? hi
    rw [Nat.zero_add, hreport] at hsacrifice
    exact hsacrifice
  · obtain ⟨-, -, hflag⟩ := flagAnalyses_getElem? hi
    rw [hflag]
    refine and_congr_right fun hannotate ↦ ?_
    rw [presentPositions, if_pos hannotate] at hpresent
    cases hdatabase : options.referenceDb with
    | none =>
        rw [hdatabase] at hpresent
        cases hpresent
    | some inDatabase =>
        rw [hdatabase] at hpresent
        have hlookup := noveltyLookup_ok hpresent
        simp only [List.getElem?_map] at hlookup
        simp only [Nat.zero_add, true_and, Option.some.injEq, exists_eq_left']
        rw [hlookup i, hreport]
        simp only [Option.map_some, Option.some.injEq, exists_eq_left']
        constructor
        · rintro ⟨⟨habsent, hbefore⟩, -⟩
          refine ⟨habsent, fun m hm earlier hearlier ↦ hbefore m hm _ ?_⟩
          rw [hearlier, Option.map_some]
        · rintro ⟨habsent, hbefore⟩
          have hall : ∀ m < i, ∀ fen : String,
              ((gameReports R setup p options.moves positions)[m]?).map (·.fen) = some fen →
                inDatabase fen = .ok true := by
            intro m hm fen hfen
            obtain ⟨earlier, hearlier, rfl⟩ := Option.map_eq_some_iff.mp hfen
            exact hbefore m hm earlier hearlier
          refine ⟨⟨habsent, hall⟩, fun m hm habsent' ↦ ?_⟩
          obtain ⟨⟨fen, hfen, hfalse⟩, -⟩ := (hlookup m).mp habsent'
          cases hfalse.symm.trans (hall m hm fen hfen)

end

end EnCroissant

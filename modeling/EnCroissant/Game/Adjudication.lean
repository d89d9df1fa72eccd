import EnCroissant.Game.Replay
import EnCroissant.Tree.MainLine

/-!
# The end of a game on the board and in the controller

The board decides a game from the FENs along the main line of its tree, the
controller from its position and its table of positions.  The two are compared
over two rules libraries that agree about single positions.
-/

namespace List

variable {α : Type*}

theorem splitOnP_intercalate {p : α → Bool} {sep : α} (hsep : p sep = true) {ls : List (List α)}
    (hls : ls ≠ []) (h : ∀ l ∈ ls, ∀ a ∈ l, p a = false) :
    ([sep].intercalate ls).splitOnP p = ls := by
  induction ls with
  | nil => exact absurd rfl hls
  | cons l ls ih =>
      have hl : ∀ a ∈ l, p a = false := h l List.mem_cons_self
      cases ls with
      | nil => rw [intercalate_singleton, splitOnP_eq_singleton hl]
      | cons m ms =>
          rw [intercalate_cons_cons, append_assoc, singleton_append,
            splitOnP_append_cons_of_forall_mem hl sep hsep]
          rw [ih (cons_ne_nil m ms) fun l' hl' ↦ h l' (mem_cons_of_mem l hl')]

end List

namespace EnCroissant

open RoseTree

/-! ## Two rules libraries -/

/-- How the renderer's library writes a FEN. -/
structure FenWriter (C : Chessops) where
  boardFen : C.Setup → Text
  turnFen : C.Setup → Text
  epFen : C.Setup → Text
  halfmoveFen : C.Setup → Text
  fullmoveFen : C.Setup → Text
  /-- The halfmove clock as it is written. -/
  halfmoves : C.Setup → ℕ
  makeFen_eq : ∀ s, C.makeFen s = [' '].intercalate [boardFen s, turnFen s, C.makeCastlingFen s,
    epFen s, halfmoveFen s, fullmoveFen s]
  words : ∀ s, ∀ field ∈ [boardFen s, turnFen s, C.makeCastlingFen s, epFen s, halfmoveFen s,
    fullmoveFen s], field ≠ [] ∧ ∀ c ∈ field, Text.isSpace c = false
  epFen_none : ∀ s, C.epSquare s = none → epFen s = ['-']
  parseInt_halfmoveFen : ∀ s, Text.parseInt (halfmoveFen s) = some (halfmoves s : ℤ)

namespace FenWriter

variable {C : Chessops} (W : FenWriter C)

/-- The fields that name a position, without its clocks. -/
def keyFields (s : C.Setup) : List Text :=
  [W.boardFen s, W.turnFen s, C.makeCastlingFen s, W.epFen s]

def key (s : C.Setup) : Text := [' '].intercalate (W.keyFields s)

theorem space_notMem {s : C.Setup} {field : Text}
    (h : field ∈ [W.boardFen s, W.turnFen s, C.makeCastlingFen s, W.epFen s, W.halfmoveFen s,
      W.fullmoveFen s]) :
    ' ' ∉ field := by
  intro hspace
  exact absurd ((W.words s field h).2 ' ' hspace) (by decide)

theorem space_notMem_key {s : C.Setup} {field : Text} (h : field ∈ W.keyFields s) :
    ' ' ∉ field := by
  refine W.space_notMem (s := s) ?_
  simp only [keyFields, List.mem_cons, List.not_mem_nil, or_false] at h ⊢
  tauto

theorem splitOn_key (s : C.Setup) : (W.key s).splitOn ' ' = W.keyFields s :=
  List.splitOn_intercalate ' ' (fun _ h ↦ W.space_notMem_key h) (by simp [keyFields])

theorem keyFields_of_key {s t : C.Setup} (h : W.key s = W.key t) :
    W.keyFields s = W.keyFields t := by
  rw [← W.splitOn_key s, h, W.splitOn_key]

theorem splitOn_makeFen (s : C.Setup) :
    ((C.makeFen s).splitOn ' ').take 4 = W.keyFields s := by
  rw [W.makeFen_eq, List.splitOn_intercalate ' ' (fun _ h ↦ W.space_notMem h) (by simp)]
  rfl

include W in
theorem trim_makeFen (s : C.Setup) : (C.makeFen s).trim = C.makeFen s := by
  have hboard := W.words s (W.boardFen s) (by simp)
  have hfullmoves := W.words s (W.fullmoveFen s) (by simp)
  obtain ⟨c, cs, hc⟩ := List.exists_cons_of_ne_nil hboard.1
  obtain ⟨ds, d, hd⟩ := (List.eq_nil_or_concat' (W.fullmoveFen s)).resolve_left hfullmoves.1
  have hshape : ∃ middle, C.makeFen s = c :: (middle ++ [d]) := by
    rw [W.makeFen_eq, hc, hd]
    refine ⟨cs ++ ' ' :: (W.turnFen s ++ ' ' :: (C.makeCastlingFen s ++ ' ' :: (W.epFen s ++
      ' ' :: (W.halfmoveFen s ++ ' ' :: ds)))), ?_⟩
    simp [List.intercalate_cons_cons]
  obtain ⟨middle, hmiddle⟩ := hshape
  rw [hmiddle]
  refine Text.trim_of_ends middle (hboard.2 c ?_) (hfullmoves.2 d ?_)
  · rw [hc]
    exact List.mem_cons_self
  · rw [hd]
    exact List.mem_append_right _ List.mem_cons_self

/-- The fifty-move test reads the halfmove clock of a written FEN. -/
theorem is50MoveRule_makeFen (s : C.Setup) :
    is50MoveRule (C.makeFen s) = decide (100 ≤ W.halfmoves s) := by
  have hsplit : ((C.makeFen s).splitOnP Text.isSpace).filter (· ≠ []) =
      [W.boardFen s, W.turnFen s, C.makeCastlingFen s, W.epFen s, W.halfmoveFen s,
        W.fullmoveFen s] := by
    rw [W.makeFen_eq, List.splitOnP_intercalate (by decide) (by simp)
      fun field h ↦ (W.words s field h).2]
    rw [List.filter_eq_self]
    intro field h
    simpa using (W.words s field h).1
  rw [is50MoveRule, W.trim_makeFen, hsplit]
  simp only [List.getElem?_cons_succ, List.getElem?_cons_zero, Option.bind_some,
    W.parseInt_halfmoveFen, ge_iff_le]
  norm_cast

end FenWriter

/-- Two rules libraries that agree about positions: on what is legal, on check,
mate and material, and on the fields of a FEN that name a position. -/
structure SameRules (C : Chessops) (R : GameRules) extends FenWriter C where
  Same : C.Chess → R.Chess → Prop
  makeUci : BoardMove → String
  parsed : ∀ config fen pos position, positionFromFen C fen = some pos →
    GameController.initialPosition R config (String.ofList fen) = .ok position →
      Same pos position
  reparsed : ∀ pos position, Same pos position →
    ∃ pos', positionFromFen C (C.makeFen (C.toSetup pos)) = some pos' ∧ Same pos' position
  legal : ∀ pos position move, Same pos position → C.isLegal pos move = true →
    ∃ mv, parseMove R (makeUci move) position = .ok mv ∧
      Same (C.play pos move) (R.playUnchecked position mv)
  turn : ∀ pos position, Same pos position → C.turn pos = R.turn position
  checkmate : ∀ pos position, Same pos position → C.isCheckmate pos = R.isCheckmate position
  stalemate : ∀ pos position, Same pos position → C.isStalemate pos = R.isStalemate position
  insufficientMaterial : ∀ pos position, Same pos position →
    C.isInsufficientMaterial pos = R.isInsufficientMaterial position
  fiftyMoves : ∀ pos position, Same pos position →
    (100 ≤ toFenWriter.halfmoves (C.toSetup pos) ↔ 100 ≤ R.halfmoves position)
  key : ∀ pos position, Same pos position →
    positionKey R position = String.ofList (toFenWriter.key (C.toSetup pos))
  /-- A position is over when it is mate, stalemate or a dead draw. -/
  isEnd : ∀ pos, C.isEnd pos =
    (C.isCheckmate pos || C.isStalemate pos || C.isInsufficientMaterial pos)
  /-- Mate is neither stalemate nor a dead draw. -/
  mate : ∀ pos, C.isCheckmate pos = true →
    C.isStalemate pos = false ∧ C.isInsufficientMaterial pos = false

/-! ## Shared games -/

/-- The status of a game and the result on its board that say the same. -/
inductive Reports : GameStatus → Outcome → Prop
  | playing : Reports .playing .unknown
  | whiteWins (reason : GameEndReason) : Reports (.finished (.whiteWins reason)) .whiteWins
  | blackWins (reason : GameEndReason) : Reports (.finished (.blackWins reason)) .blackWins
  | draw (reason : DrawReason) : Reports (.finished (.draw reason)) .draw

theorem Reports.unknown_iff {status : GameStatus} {result : Outcome} (h : Reports status result) :
    result = .unknown ↔ status = .playing := by
  cases h <;> simp

/-- What the board makes of a position that stood `earlier` times before. -/
def boardResult (C : Chessops) (pos : C.Chess) (earlier halfmoves : ℕ) : Outcome :=
  if C.isCheckmate pos then if C.turn pos = .white then .blackWins else .whiteWins
  else if C.isStalemate pos || C.isInsufficientMaterial pos || 100 ≤ halfmoves || 2 ≤ earlier
    then .draw
  else .unknown

/-- A move appended to the main line, and the time at which the controller is
given it. -/
structure AppendedMove (ι : Type) where
  fresh : ι
  args : MoveArgs
  now : ℕ

/-- A move that is legal at the end of the main line and played there. -/
structure Appends (C : Chessops) {ι : Type} (s : TreeState ι) (a : AppendedMove ι) : Prop where
  position : a.args.position s = mainLineEnd s.root
  changeHeaders : a.args.changeHeaders = true
  legal : (playedSan C s a.args).isSome = true

def appendMove (C : Chessops) {ι : Type} (s : TreeState ι) (a : AppendedMove ι) : TreeState ι :=
  makeMove C a.fresh s a.args

/-- A new tree and a new game without clocks that start from the same FEN, spelled
so that repetitions on the board recognise it. -/
structure SharedStart (C : Chessops) {ι : Type} (s : TreeState ι) (config : GameConfig)
    (pos : C.Chess) : Prop where
  empty : s.root.children = []
  result : s.headers.result = .unknown
  parsed : positionFromFen C s.root.label.fen = some pos
  spelled : getBoardState C s.root.label.fen = getBoardState C (C.makeFen (C.toSetup pos))
  fen : config.initialFen.getD GameController.standardFen = String.ofList s.root.label.fen
  moves : config.initialMoves = []
  whiteTimeControl : config.whiteTimeControl = none
  blackTimeControl : config.blackTimeControl = none

namespace SameRules

variable {C : Chessops} {R : GameRules} (A : SameRules C R)

/-- Repetitions on the board compare the fields that name a position. -/
theorem getBoardState_makeFen {pos : C.Chess} {position : R.Chess} (h : A.Same pos position) :
    getBoardState C (C.makeFen (C.toSetup pos)) = A.toFenWriter.key (C.toSetup pos) := by
  obtain ⟨pos', hpos', hsame'⟩ := A.reparsed pos position h
  have hkey : A.toFenWriter.key (C.toSetup pos) = A.toFenWriter.key (C.toSetup pos') := by
    rw [← String.ofList_inj, ← A.key pos position h, ← A.key pos' position hsame']
  have hfields := A.toFenWriter.keyFields_of_key hkey
  simp only [FenWriter.keyFields, List.cons.injEq, and_true] at hfields
  obtain ⟨-, -, hcastling, hep⟩ := hfields
  have hdash : C.epSquare (C.toSetup pos') = none → A.epFen (C.toSetup pos) = ['-'] := by
    intro hnone
    rw [hep, A.epFen_none _ hnone]
  rw [getBoardState, A.toFenWriter.splitOn_makeFen, hpos']
  simp only [FenWriter.key, FenWriter.keyFields, List.set_cons_succ, List.set_cons_zero,
    ← hcastling]
  split_ifs with hused hnone
  · simp only [Bool.and_eq_true, Option.isNone_iff_eq_none] at hnone
    rw [hdash hnone.2]
  · rfl
  · rfl

/-! ## One move -/

variable {ι : Type}

theorem adjudicatedResult_eq {s : TreeState ι} {pos : C.Chess} {position : R.Chess}
    (h : A.Same pos position) (hresult : s.headers.result = .unknown) :
    adjudicatedResult C s (mainLineEnd s.root) pos (C.makeFen (C.toSetup pos)) =
      boardResult C pos
        ((mainLine s.root).countP fun n ↦
          getBoardState C n.fen == A.toFenWriter.key (C.toSetup pos))
        (A.halfmoves (C.toSetup pos)) := by
  have hrepetition : isThreeFoldRepetition C s.root (C.makeFen (C.toSetup pos))
      (mainLineEnd s.root) = decide (2 ≤ (mainLine s.root).countP fun n ↦
        getBoardState C n.fen == A.toFenWriter.key (C.toSetup pos)) := by
    rw [isThreeFoldRepetition, nodesOnPath_mainLineEnd, A.getBoardState_makeFen h]
    simp only [ge_iff_le, Nat.reduceLeDiff]
  rw [adjudicatedResult, hrepetition, A.toFenWriter.is50MoveRule_makeFen, hresult, A.isEnd,
    boardResult]
  by_cases hmate : C.isCheckmate pos = true
  · obtain ⟨hstalemate, hmaterial⟩ := A.mate pos hmate
    simp [hmate, hstalemate, hmaterial]
  · rw [Bool.not_eq_true] at hmate
    cases hstalemate : C.isStalemate pos <;> cases hmaterial : C.isInsufficientMaterial pos <;>
      simp [hmate, or_comm]

theorem status_checkGameEnd {c : GameController R} (now : ℕ) (hplaying : c.status = .playing) :
    (c.checkGameEnd now).status =
      match c.positionResult with
      | some result => .finished result
      | none => .playing := by
  rw [GameController.checkGameEnd]
  cases c.positionResult with
  | none => exact hplaying
  | some result =>
      simp only [GameController.endGame_of_playing hplaying]

/-- The controller makes of its position what the board makes of it. -/
theorem reports_checkGameEnd {c : GameController R} {pos : C.Chess} {earlier : ℕ} (now : ℕ)
    (h : A.Same pos c.position) (hplaying : c.status = .playing)
    (hcount : c.positionHistory.lookup (positionKey R c.position) = some (earlier + 1)) :
    Reports (c.checkGameEnd now).status
      (boardResult C pos earlier (A.halfmoves (C.toSetup pos))) := by
  have hclocks : decide (100 ≤ A.halfmoves (C.toSetup pos)) =
      decide (100 ≤ R.halfmoves c.position) :=
    decide_eq_decide.mpr (A.fiftyMoves _ _ h)
  rw [status_checkGameEnd now hplaying, GameController.positionResult, boardResult,
    A.checkmate _ _ h, A.stalemate _ _ h, A.insufficientMaterial _ _ h, A.turn _ _ h, hcount,
    hclocks]
  have hthird : 3 ≤ earlier + 1 ↔ 2 ≤ earlier := by omega
  cases R.isCheckmate c.position with
  | true =>
      cases R.turn c.position with
      | white => exact .blackWins _
      | black => exact .whiteWins _
  | false =>
      cases R.isStalemate c.position with
      | true => exact .draw _
      | false =>
          cases R.isInsufficientMaterial c.position with
          | true => exact .draw _
          | false =>
              by_cases hfifty : 100 ≤ R.halfmoves c.position
              · simp only [hfifty, Bool.false_eq_true, if_false, if_true, decide_true,
                  Bool.or_true, Bool.true_or]
                exact .draw _
              · by_cases htwice : 2 ≤ earlier
                · simp only [hfifty, hthird, htwice, Bool.false_eq_true, if_false, if_true,
                    decide_true, Bool.or_true, Option.filter_some, Option.map_some]
                  exact .draw _
                · simp only [hfifty, hthird, htwice, Bool.false_eq_true, if_false, decide_false,
                    Bool.or_false, Option.filter_some, Option.map_none]
                  exact .playing

/-- What a move does to a game that goes on, when nobody has a clock. -/
theorem applyMove_noClock {c : GameController R} {uci : String} {mv : Move} (now : ℕ)
    (hplaying : c.status = .playing) (hclock : c.clock = none)
    (hmove : parseMove R uci c.position = .ok mv) :
    let played := (c.playMove uci mv now).2
    (c.applyMove uci now).2 = played.checkGameEnd now ∧ played.status = .playing ∧
      played.clock = none ∧ played.position = R.playUnchecked c.position mv ∧
        played.positionHistory =
          c.positionHistory.add (positionKey R (R.playUnchecked c.position mv)) := by
  intro played
  refine ⟨?_, hplaying, ?_, rfl, rfl⟩
  · rw [GameController.applyMove, if_neg (by simp [hplaying]), GameController.settleActiveClock,
      hclock]
    simp only [hmove]
    rfl
  · change Option.map _ c.clock = none
    rw [hclock, Option.map_none]

/-! ## Whole games -/

/-- A board and a controller in the middle of the same game. -/
structure Paired (s : TreeState ι) (c : GameController R) : Prop where
  result : s.headers.result = .unknown
  unmarked : effectiveGameEnd s.root = none
  playing : c.status = .playing
  noClock : c.clock = none
  table : c.positionHistory =
    Tally.of ((mainLine s.root).map fun n ↦ String.ofList (getBoardState C n.fen))
  last : ∃ earlier last pos, mainLine s.root = earlier ++ [last] ∧
    positionFromFen C last.fen = some pos ∧ A.Same pos c.position

def giveMove (c : GameController R) (a : AppendedMove ι) : GameController R :=
  (c.applyMove (A.makeUci a.args.move) a.now).2

variable {A}

theorem Paired.step {s : TreeState ι} {c : GameController R} {a : AppendedMove ι}
    (h : Paired A s c) (ha : Appends C s a) :
    Reports (giveMove A c a).status (appendMove C s a).headers.result ∧
      ((giveMove A c a).status = .playing → Paired A (appendMove C s a) (giveMove A c a)) := by
  obtain ⟨earlier, last, pos, hline, hpos, hsame⟩ := h.last
  have hlegal : C.isLegal pos a.args.move = true := by
    obtain ⟨earlier', last', hline', hnode⟩ := mainLine_eq_concat s.root
    have hlast : last = last' :=
      List.singleton_inj.mp (List.append_inj' (hline.symm.trans hline') rfl).2
    have hplayed := ha.legal
    rw [playedSan, ha.position, hnode, label_node, ← hlast, hpos] at hplayed
    by_contra hillegal
    simp [hillegal] at hplayed
  obtain ⟨mv, hmove, hsame'⟩ := A.legal pos c.position a.args.move hsame hlegal
  obtain ⟨hline', hunmarked', hresult'⟩ := makeMove_mainLineEnd a.fresh ha.position
    ha.changeHeaders h.unmarked hline hpos hlegal
  obtain ⟨hgive, hplaying', hclock', hposition', htable'⟩ :=
    applyMove_noClock a.now h.playing h.noClock hmove
  set played := (c.playMove (A.makeUci a.args.move) mv a.now).2
  set pos' := C.play pos a.args.move
  set count := (mainLine s.root).countP fun n ↦
    getBoardState C n.fen == A.toFenWriter.key (C.toSetup pos') with hcount
  have hkey : positionKey R (R.playUnchecked c.position mv) =
      String.ofList (A.toFenWriter.key (C.toSetup pos')) := A.key _ _ hsame'
  have htable : played.positionHistory =
      Tally.of ((mainLine (appendMove C s a).root).map fun n ↦
        String.ofList (getBoardState C n.fen)) := by
    rw [htable', h.table, hkey, appendMove, hline', List.map_append, List.map_singleton,
      Tally.of_concat]
    congr 2
    exact (A.getBoardState_makeFen hsame').symm
  have hlookup : played.positionHistory.lookup (positionKey R played.position) =
      some (count + 1) := by
    have hcounted : ((mainLine s.root).map fun n ↦ String.ofList (getBoardState C n.fen)).count
        (String.ofList (A.toFenWriter.key (C.toSetup pos'))) = count := by
      rw [hcount, List.count, List.countP_map]
      refine List.countP_congr fun n _ ↦ ?_
      simp [String.ofList_inj]
    rw [hposition', hkey, htable', hkey, h.table, ← Tally.of_concat, Tally.lookup_of,
      List.count_append, hcounted, List.count_singleton_self, if_neg (by omega)]
  have hreports : Reports (giveMove A c a).status (appendMove C s a).headers.result := by
    rw [giveMove, hgive, appendMove, hresult', A.adjudicatedResult_eq hsame' h.result]
    refine A.reports_checkGameEnd a.now ?_ hplaying' hlookup
    rw [hposition']
    exact hsame'
  refine ⟨hreports, fun hplaying ↦ ?_⟩
  have hunchanged : giveMove A c a = played := by
    rw [giveMove, hgive]
    refine (GameController.checkGameEnd_playing ?_).2
    rwa [giveMove, hgive] at hplaying
  exact
    { result := hreports.unknown_iff.mpr hplaying
      unmarked := hunmarked'
      playing := hplaying
      noClock := by rw [hunchanged, hclock']
      table := by rw [hunchanged, htable]
      last := by
        obtain ⟨pos'', hpos'', hsame''⟩ := A.reparsed pos' _ hsame'
        refine ⟨mainLine s.root, _, pos'', hline', hpos'', ?_⟩
        rw [hunchanged, hposition']
        exact hsame'' }

/-- As long as the game went on before a move, board and controller say the same
after it. -/
theorem Paired.reports {s : TreeState ι} {c : GameController R} {moves : List (AppendedMove ι)}
    (h : Paired A s c) (hmoves : ∀ n a, moves[n]? = some a →
      Appends C ((moves.take n).foldl (appendMove C) s) a) (k : ℕ)
    (hbefore : ∀ j < k, ((moves.take j).foldl (appendMove C) s).headers.result = .unknown) :
    Reports ((moves.take k).foldl (giveMove A) c).status
      ((moves.take k).foldl (appendMove C) s).headers.result := by
  induction moves generalizing s c k with
  | nil =>
      rw [List.take_nil, List.foldl_nil, List.foldl_nil, h.result, h.playing]
      exact .playing
  | cons a moves ih =>
      cases k with
      | zero =>
          rw [List.take_zero, List.foldl_nil, List.foldl_nil, h.result, h.playing]
          exact .playing
      | succ k =>
          obtain ⟨hreports, hpaired⟩ := h.step (hmoves 0 a rfl)
          simp only [List.take_succ_cons, List.foldl_cons]
          cases k with
          | zero => exact hreports
          | succ k =>
              have hgoes : (appendMove C s a).headers.result = .unknown :=
                hbefore 1 (by omega)
              refine ih (hpaired (hreports.unknown_iff.mp hgoes)) ?_ (k + 1) ?_
              · intro n b hb
                exact hmoves (n + 1) b hb
              · intro j hj
                exact hbefore (j + 1) (by omega)

theorem Paired.unknown_iff {s : TreeState ι} {c : GameController R}
    {moves : List (AppendedMove ι)} (h : Paired A s c)
    (hmoves : ∀ n a, moves[n]? = some a →
      Appends C ((moves.take n).foldl (appendMove C) s) a) (k : ℕ) :
    (∀ j < k, ((moves.take j).foldl (appendMove C) s).headers.result = .unknown) ↔
      ∀ j < k, ((moves.take j).foldl (giveMove A) c).status = .playing := by
  induction k with
  | zero => simp
  | succ k ih =>
      constructor
      · intro hboard j hj
        refine (h.reports hmoves j ?_).unknown_iff.mp (hboard j hj)
        exact fun i hi ↦ hboard i (hi.trans hj)
      · intro hgame
        have hbefore := ih.mpr fun j hj ↦ hgame j (hj.trans k.lt_succ_self)
        intro j hj
        rcases Nat.lt_succ_iff_lt_or_eq.mp hj with hlt | rfl
        · exact hbefore j hlt
        · exact (h.reports hmoves j hbefore).unknown_iff.mpr (hgame j hj)

theorem paired_of_sharedStart {s : TreeState ι} {config : GameConfig} {pos : C.Chess}
    (h : SharedStart C s config pos) {gameId : String} {session now : ℕ} {c : GameController R}
    (hcreate : GameController.create R gameId session config now = .ok c)
    (hplaying : c.status = .playing) :
    Paired A s c := by
  obtain ⟨-, -, hrest⟩ := bind_eq_ok hcreate
  obtain ⟨position, hposition, hrest⟩ := bind_eq_ok hrest
  rw [h.fen] at hposition
  have hsame : A.Same pos position := A.parsed config _ pos position h.parsed hposition
  have hfresh : c = .fresh gameId session config
      (config.initialFen.getD GameController.standardFen) position now := by
    rw [h.moves, GameController.playInitialMoves] at hrest
    obtain rfl := Except.ok.inj hrest
    exact (GameController.checkGameEnd_playing hplaying).2
  have hline : mainLine s.root = [s.root.label] := by
    have hroot : s.root = .node s.root.label [] := by
      rw [← h.empty, node_eta]
    rw [hroot]
    rfl
  have hunmarked : effectiveGameEnd s.root = none := by
    rw [effectiveGameEnd_eq_none, hline]
    simp
  have hkey : positionKey R position = String.ofList (getBoardState C s.root.label.fen) := by
    rw [h.spelled, A.getBoardState_makeFen hsame, A.key pos position hsame]
  exact
    { result := h.result
      unmarked := hunmarked
      playing := hplaying
      noClock := by
        rw [hfresh]
        simp [GameController.fresh, GameController.initialClock, h.whiteTimeControl,
          h.blackTimeControl]
      table := by
        rw [hfresh, hline, List.map_singleton, Tally.of_singleton, ← hkey]
        rfl
      last := by
        refine ⟨[], _, pos, hline, h.parsed, ?_⟩
        rw [hfresh]
        exact hsame }

theorem isLeast_setOf_iff {P : ℕ → Prop} {k : ℕ} :
    IsLeast {n | P n} k ↔ P k ∧ ∀ j < k, ¬ P j := by
  refine and_congr_right fun _ ↦ ⟨fun hleast j hj hP ↦ ?_, fun hbefore n hn ↦ ?_⟩
  · exact absurd (hleast hP) (not_le.mpr hj)
  · by_contra hlt
    exact hbefore n (not_le.mp hlt) hn

/-- From a start at which the game is not over, the result on the board first
changes at the move at which the controller ends the game, and to the same
result. -/
theorem ends_together {s : TreeState ι} {config : GameConfig} {pos : C.Chess}
    (h : SharedStart C s config pos) {gameId : String} {session now : ℕ} {c : GameController R}
    (hcreate : GameController.create R gameId session config now = .ok c)
    (hplaying : c.status = .playing) {moves : List (AppendedMove ι)}
    (hmoves : ∀ n a, moves[n]? = some a →
      Appends C ((moves.take n).foldl (appendMove C) s) a) (k : ℕ) :
    let board (n : ℕ) := ((moves.take n).foldl (appendMove C) s).headers.result
    let controller (n : ℕ) := ((moves.take n).foldl (giveMove A) c).status
    (IsLeast {n | board n ≠ .unknown} k ↔ IsLeast {n | controller n ≠ .playing} k) ∧
      (IsLeast {n | board n ≠ .unknown} k → Reports (controller k) (board k)) := by
  intro board controller
  have hpaired : Paired A s c := paired_of_sharedStart h hcreate hplaying
  have hbefore := hpaired.unknown_iff hmoves k
  rw [isLeast_setOf_iff, isLeast_setOf_iff]
  simp only [not_not]
  constructor
  · constructor
    · rintro ⟨hend, hgoes⟩
      refine ⟨?_, hbefore.mp hgoes⟩
      rwa [Ne, ← (hpaired.reports hmoves k hgoes).unknown_iff]
    · rintro ⟨hend, hgoes⟩
      refine ⟨?_, hbefore.mpr hgoes⟩
      rwa [Ne, (hpaired.reports hmoves k (hbefore.mpr hgoes)).unknown_iff]
  · rintro ⟨-, hgoes⟩
    exact hpaired.reports hmoves k hgoes

end SameRules

/-! ## Rook against king

White shuffles `Ra1` and `Ra2`, Black `Kc8` and `Kc7`, from the first move of a
game and from the fiftieth move without progress. -/

namespace RookEnding

/-- The positions by their halfmove clock, up to `11`, and then `100` and `101`. -/
abbrev Position := Fin 14

def clock (p : Position) : ℕ := if p.val < 12 then p.val else p.val + 88

def boardFen (p : Position) : Text :=
  match clock p % 4 with
  | 0 => "2k5/8/8/8/8/8/8/R6K".toList
  | 1 => "2k5/8/8/8/8/8/R7/7K".toList
  | 2 => "8/2k5/8/8/8/8/R7/7K".toList
  | _ => "8/2k5/8/8/8/8/8/R6K".toList

def turn (p : Position) : Color := if clock p % 2 = 0 then .white else .black

def turnFen (p : Position) : Text := if turn p = .white then ['w'] else ['b']

def digits (n : ℕ) : Text := Nat.toDigits 10 n

def fen (p : Position) : Text :=
  [' '].intercalate [boardFen p, turnFen p, ['-'], ['-'], digits (clock p),
    digits (clock p / 2 + 1)]

/-- The first position without the fields that have defaults. -/
def shortFen : Text := "2k5/8/8/8/8/8/8/R6K w".toList

def fens : List (Text × Position) :=
  (shortFen, 0) :: (List.finRange 14).map fun p ↦ (fen p, p)

def next (p : Position) : Position := if p = 11 ∨ p = 13 then p else p + 1

/-- The move of a position, for either library, and its names. -/
def moves (p : Position) : BoardMove × Move × String × String :=
  let a1 := Square.fromCoords 0 0
  let a2 := Square.fromCoords 0 1
  let c7 := Square.fromCoords 2 6
  let c8 := Square.fromCoords 2 7
  match clock p % 4 with
  | 0 => (.normal a1 a2 none, .normal .rook a1 none a2 none, "a1a2", "Ra2")
  | 1 => (.normal c8 c7 none, .normal .king c8 none c7 none, "c8c7", "Kc7")
  | 2 => (.normal a2 a1 none, .normal .rook a2 none a1 none, "a2a1", "Ra1")
  | _ => (.normal c7 c8 none, .normal .king c7 none c8 none, "c7c8", "Kc8")

def isLegal (p : Position) (move : BoardMove) : Bool :=
  next p ≠ p && move = (moves p).1

def makeUci (move : BoardMove) : String :=
  (((List.finRange 14).find? fun p ↦ (moves p).1 = move).map fun p ↦ (moves p).2.2.1).getD ""

abbrev chessops : Chessops where
  Chess := Position
  Setup := Position
  parseFen text := fens.lookup text
  makeFen := fen
  fullmoves p := clock p / 2 + 1
  setupTurn := turn
  epSquare _ := none
  makeCastlingFen _ := ['-']
  fromSetup := some
  toSetup := id
  turn := turn
  isLegal := isLegal
  play p _ := next p
  isEnd _ := false
  isCheckmate _ := false
  isStalemate _ := false
  isInsufficientMaterial _ := false
  makeSan p _ := (moves p).2.2.2.toList
  parseSan _ _ := none
  parseUci _ := none
  normalizeMove _ move := move

abbrev rules : GameRules where
  toShakmaty :=
    { Chess := Position
      Setup := Position
      San := String
      CastlingMode := Unit
      PositionError := Unit
      default := 0
      board := fun _ _ ↦ none
      turn := turn
      castlingRights := fun _ ↦ 0
      epSquare := fun _ ↦ none
      legalMoves := fun p ↦ if next p ≠ p then [(moves p).2.1] else []
      playUnchecked := fun p _ ↦ next p
      toMove := fun san p ↦ if san = (moves p).2.2.2 then some (moves p).2.1 else none
      sanFromMove := fun p _ ↦ (moves p).2.2.2
      sanToString := id
      setupBoard := fun _ _ ↦ none
      fenFromAscii := fun bs ↦
        match fens.find? fun entry ↦ utf8Bytes (String.ofList entry.1) = bs with
        | some entry => .ok entry.2
        | none => .error "invalid fen"
      detectCastlingMode := fun _ ↦ ()
      fromSetup := fun p _ ↦ .ok p
      ignoreTooMuchMaterial := .error
      ignoreInvalidCastlingRights := .error
      positionErrorToString := fun _ ↦ "illegal position" }
  UciMove := String
  uciFromAscii := fun bs ↦ .ok (String.ofList (bs.map fun b ↦ Char.ofNat b.toNat))
  uciToMove := fun uci p ↦
    if next p ≠ p ∧ uci = (moves p).2.2.1 then .ok (moves p).2.1 else .error "illegal uci move"
  sanPlus := fun p _ ↦ (moves p).2.2.2
  fen := fun p ↦ String.ofList (fen p)
  halfmoves := clock
  isCheckmate := fun _ ↦ false
  isStalemate := fun _ ↦ false
  isInsufficientMaterial := fun _ ↦ false
  hasInsufficientMaterial := fun _ color ↦ color = .black

theorem ok_of_toOption {α : Type} {result : Except Error α} {a : α}
    (h : result.toOption = some a) :
    result = .ok a := by
  cases result with
  | error e => exact absurd h (by simp [Except.toOption])
  | ok b => rw [Option.some.inj h]

theorem initialPosition_fens (config : GameConfig) {text : Text} {p : Position}
    (h : (text, p) ∈ fens) :
    GameController.initialPosition rules config (String.ofList text) = .ok p := by
  have hread : ∀ entry ∈ fens,
      (parseFenToPosition rules (String.ofList entry.1)).toOption = some entry.2 ∧
        (canonicalizeEnginePosition rules (String.ofList entry.1)).toOption = some entry.2 := by
    decide +kernel
  obtain ⟨hparse, hengine⟩ := hread _ h
  rw [GameController.initialPosition]
  split_ifs
  · exact ok_of_toOption hengine
  · exact ok_of_toOption hparse

def sameRules : SameRules chessops rules where
  boardFen := boardFen
  turnFen := turnFen
  epFen _ := ['-']
  halfmoveFen p := digits (clock p)
  fullmoveFen p := digits (clock p / 2 + 1)
  halfmoves := clock
  makeFen_eq _ := rfl
  words := by
    have hwords : ∀ p, ([boardFen p, turnFen p, ['-'], ['-'], digits (clock p),
        digits (clock p / 2 + 1)].all fun field ↦
          field != [] && field.all fun c ↦ 32 < c.toNat && c.toNat < 127) = true := by
      decide +kernel
    intro p field hfield
    have hfield := List.all_eq_true.mp (hwords p) field hfield
    rw [Bool.and_eq_true, bne_iff_ne, List.all_eq_true] at hfield
    refine ⟨hfield.1, fun c hc ↦ ?_⟩
    have hascii := hfield.2 c hc
    rw [Bool.and_eq_true, decide_eq_true_eq, decide_eq_true_eq] at hascii
    exact Text.isSpace_of_ascii hascii.1 hascii.2
  epFen_none _ _ := rfl
  parseInt_halfmoveFen := by decide
  Same pos position := pos = position
  makeUci := makeUci
  parsed := by
    intro config text pos position hpos hposition
    have hmem : (text, pos) ∈ fens := by
      rw [positionFromFen, Option.bind_eq_some_iff] at hpos
      obtain ⟨setup, hlookup, hsetup⟩ := hpos
      obtain rfl := Option.some.inj hsetup
      obtain ⟨before, after, hsplit, -⟩ := List.lookup_eq_some_iff.mp hlookup
      rw [hsplit]
      exact List.mem_append_right _ List.mem_cons_self
    rw [initialPosition_fens config hmem] at hposition
    exact Except.ok.inj hposition
  reparsed := by
    rintro pos _ rfl
    refine ⟨pos, ?_, rfl⟩
    revert pos
    decide
  legal := by
    rintro pos _ move rfl hlegal
    have hmove : move = (moves pos).1 ∧ next pos ≠ pos := by
      simpa [isLegal, and_comm] using hlegal
    refine ⟨(moves pos).2.1, ?_, rfl⟩
    rw [hmove.1]
    have hread : ∀ p, next p ≠ p →
        (parseMove rules (makeUci (moves p).1) p).toOption = some (moves p).2.1 := by
      decide
    exact ok_of_toOption (hread pos hmove.2)
  turn := by
    rintro pos _ rfl
    rfl
  checkmate _ _ _ := rfl
  stalemate _ _ _ := rfl
  insufficientMaterial _ _ _ := rfl
  fiftyMoves := by
    rintro pos _ rfl
    rfl
  key := by
    rintro pos _ rfl
    revert pos
    decide
  isEnd _ := rfl
  mate _ h := absurd h Bool.false_ne_true

def config (text : Text) : GameConfig where
  white := .human "White"
  black := .human "Black"
  whiteTimeControl := none
  blackTimeControl := none
  initialFen := some (String.ofList text)
  initialMoves := []

def tree (text : Text) : TreeState Unit := defaultTree chessops () text

/-- The controller of a new game. -/
def controller (text : Text) (p : Position) : GameController rules :=
  (GameController.fresh "game" 1 (config text) (String.ofList text) p 0).checkGameEnd 0

def appended (p : Position) : AppendedMove Unit where
  fresh := ()
  args :=
    { move := (moves p).1
      last := true
      changePosition := true
      changeHeaders := true
      mainline := false
      clock := none }
  now := 0

/-- Both sides shuffle twice. -/
def shuffles : List (AppendedMove Unit) := [0, 1, 2, 3, 4, 5, 6, 7].map appended

theorem create_controller {text : Text} {p : Position} (h : (text, p) ∈ fens) :
    GameController.create rules "game" 1 (config text) 0 = .ok (controller text p) := by
  have hposition := initialPosition_fens (config text) h
  simp only [GameController.create, validateTimeControls, config, Option.getD_some] at hposition ⊢
  simp only [hposition, bind, Except.bind]
  rfl

theorem tree_start : SharedStart chessops (tree (fen 0)) (config (fen 0)) 0 where
  empty := rfl
  result := rfl
  parsed := by decide
  spelled := by decide
  fen := by decide
  moves := rfl
  whiteTimeControl := rfl
  blackTimeControl := rfl

theorem appends_shuffles (n : ℕ) (a : AppendedMove Unit) (h : shuffles[n]? = some a) :
    Appends chessops ((shuffles.take n).foldl (appendMove chessops) (tree (fen 0))) a := by
  have hn : n < shuffles.length := (List.getElem?_eq_some_iff.mp h).1
  have hall : ∀ n : Fin 8, ∃ a, shuffles[n.val]? = some a ∧
      a.args.position ((shuffles.take n).foldl (appendMove chessops) (tree (fen 0))) =
        mainLineEnd ((shuffles.take n).foldl (appendMove chessops) (tree (fen 0))).root ∧
      a.args.changeHeaders = true ∧
        (playedSan chessops ((shuffles.take n).foldl (appendMove chessops) (tree (fen 0)))
          a.args).isSome = true := by
    intro n
    fin_cases n <;> exact ⟨_, rfl, by decide⟩
  obtain ⟨b, hb, hposition, hheaders, hlegal⟩ := hall ⟨n, hn⟩
  obtain rfl : b = a := Option.some.inj (hb.symm.trans h)
  exact ⟨hposition, hheaders, hlegal⟩

theorem ends_together_shuffles :
    ∃ c, GameController.create rules "game" 1 (config (fen 0)) 0 = .ok c ∧
      ∀ k,
        let board (n : ℕ) := ((shuffles.take n).foldl (appendMove chessops)
          (tree (fen 0))).headers.result
        let controller (n : ℕ) := ((shuffles.take n).foldl sameRules.giveMove c).status
        (IsLeast {n | board n ≠ .unknown} k ↔ IsLeast {n | controller n ≠ .playing} k) ∧
          (IsLeast {n | board n ≠ .unknown} k → Reports (controller k) (board k)) := by
  have hcreate : GameController.create rules "game" 1 (config (fen 0)) 0 =
      .ok (controller (fen 0) 0) := create_controller (by decide)
  refine ⟨_, hcreate, ?_⟩
  exact SameRules.ends_together tree_start hcreate (by decide) appends_shuffles

/-- A game that is over before its first move, and a FEN without its castling and
en-passant fields. -/
theorem ends_apart :
    (∃ c, GameController.create rules "game" 1 (config (fen 12)) 0 = .ok c ∧
      c.status = .finished (.draw .fiftyMoveRule) ∧
        (tree (fen 12)).headers.result = .unknown ∧
          (appendMove chessops (tree (fen 12)) (appended 12)).headers.result = .draw) ∧
    (∃ c, GameController.create rules "game" 1 (config shortFen) 0 = .ok c ∧
      (shuffles.foldl sameRules.giveMove c).status =
        .finished (.draw .threefoldRepetition) ∧
          (shuffles.foldl (appendMove chessops) (tree shortFen)).headers.result = .unknown) := by
  refine ⟨⟨controller (fen 12) 12, create_controller (by decide), ?_, ?_, ?_⟩,
    ⟨controller shortFen 0, create_controller (by decide +kernel), ?_, ?_⟩⟩ <;> decide +kernel

end RookEnding

end EnCroissant

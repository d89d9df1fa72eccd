import Mathlib
import EnCroissant.Database.PawnHome
import EnCroissant.Database.ImporterRun

/-!
# Position search

A search asks for the move that follows a position.  Two tests on home pawns
cut it short: one before a game is replayed, one after every move that may
remove a home pawn.  Neither changes the answer.
-/

namespace EnCroissant

open Bracketed

/-! ## Queries -/

def isContained (container subset : Bitboard) : Bool :=
  container &&& subset = subset

/-- The pawn structure `target` is reachable from `current`. -/
def isEndReachable (target current : BitVec 16) : Bool :=
  target &&& ~~~current = 0

structure ExactData (S : Shakmaty) where
  pawnHome : BitVec 16
  position : S.Chess
  pawnHome_eq : pawnHome = getPawnHome (S.board position)

inductive PositionQuery (S : Shakmaty) where
  | exact (data : ExactData S)
  | partialSetup (data : S.Setup)

namespace PositionQuery

variable {S : Shakmaty}

def exactFromFen (fen : String) : Except Error (PositionQuery S) :=
  match S.fenFromAscii (Utf8.encode fen.toList) with
  | .error e => .error (.fen e)
  | .ok setup =>
      match databaseSetupToChess S setup with
      | .error e => .error e
      | .ok position => .ok (.exact ⟨getPawnHome (S.board position), position, rfl⟩)

def partialFromFen (fen : String) : Except Error (PositionQuery S) :=
  match S.fenFromAscii (Utf8.encode fen.toList) with
  | .error e => .error (.fen e)
  | .ok setup => .ok (.partialSetup setup)

/-- `convert_position_query`. -/
def convert (fen type : String) : Except Error (PositionQuery S) :=
  if type = "exact" then exactFromFen fen
  else if type = "partial" then partialFromFen fen
  else .error (.invalidInput ("unsupported position query type: " ++ type))

/-- An exact query compares everything but the move counters; a query by setup
asks for its pieces. -/
def matchesPosition (query : PositionQuery S) (position : S.Chess) : Bool :=
  match query with
  | exact data =>
      S.turn data.position = S.turn position &&
        S.board data.position = S.board position &&
          S.castlingRights data.position = S.castlingRights position &&
            S.epSquare data.position = S.epSquare position
  | partialSetup data =>
      let queryBoard := S.setupBoard data
      let testedBoard := S.board position
      isContained (testedBoard.byRole .pawn) (queryBoard.byRole .pawn) &&
        isContained (testedBoard.byRole .knight) (queryBoard.byRole .knight) &&
        isContained (testedBoard.byRole .bishop) (queryBoard.byRole .bishop) &&
        isContained (testedBoard.byRole .rook) (queryBoard.byRole .rook) &&
        isContained (testedBoard.byRole .queen) (queryBoard.byRole .queen) &&
        isContained (testedBoard.byRole .king) (queryBoard.byRole .king) &&
        isContained (testedBoard.byColor .white) (queryBoard.byColor .white) &&
        isContained (testedBoard.byColor .black) (queryBoard.byColor .black)

def isReachableBy (query : PositionQuery S) (pawnHome : BitVec 16) : Bool :=
  match query with
  | exact data => isEndReachable data.pawnHome pawnHome
  | partialSetup _ => true

def canReach (query : PositionQuery S) (pawnHome : BitVec 16) : Bool :=
  match query with
  | exact data => isEndReachable pawnHome data.pawnHome
  | partialSetup _ => true

end PositionQuery

/-! ## The search -/

section

variable (S : Shakmaty)

def gameLabel (gameId : Int32) : String := "game " ++ toString gameId.toInt

def invalidMoveStream (gameId : Int32) (error : Error) : Error :=
  .invalidInput (gameLabel gameId ++ " has invalid move stream: " ++ error.toString)

def illegalEncodedMove (gameId : Int32) (byte : UInt8) : Error :=
  .invalidInput (gameLabel gameId ++ " has illegal encoded move " ++ toString byte.toNat)

/-- The position a stored game starts from. -/
def initialPosition (gameId : Int32) (fen : Option String) : Except Error S.Chess :=
  match fen with
  | none => .ok S.default
  | some fen =>
      match S.fenFromAscii (Utf8.encode fen.toList) with
      | .error e => .error (.invalidInput (gameLabel gameId ++ " has invalid FEN: " ++ e))
      | .ok setup =>
          match databaseSetupToChess S setup with
          | .error e =>
              .error (.invalidInput
                (gameLabel gameId ++ " has invalid FEN setup: " ++ e.toString))
          | .ok chess => .ok chess

def matchedPositionContinuation (gameId : Int32) (chess : S.Chess) (nextByte : Option UInt8) :
    Except Error String :=
  match nextByte with
  | none => .ok "*"
  | some byte =>
      match decodeMove S byte chess with
      | none => .error (illegalEncodedMove gameId byte)
      | some m => .ok (S.sanToString (S.sanFromMove chess m))

variable {S}

def Move.isIrreversible (m : Move) : Bool :=
  m.isCapture || m.role = .pawn || m.isPromotion

/-- The loop over the mainline bytes. -/
def searchLine (gameId : Int32) (query : PositionQuery S) (chess : S.Chess) :
    List UInt8 → Except Error (Option String)
  | [] => .ok none
  | byte :: mainline =>
      match decodeMove S byte chess with
      | none => .error (illegalEncodedMove gameId byte)
      | some m =>
          let chess := S.playUnchecked chess m
          if m.isIrreversible && !query.isReachableBy (getPawnHome (S.board chess)) then
            .ok none
          else if query.matchesPosition chess then
            some <$> matchedPositionContinuation S gameId chess mainline.head?
          else searchLine gameId query chess mainline

def getMoveAfterMatch (gameId : Int32) (moveBlob : List UInt8) (fen : Option String)
    (query : PositionQuery S) : Except Error (Option String) :=
  match initialPosition S gameId fen with
  | .error e => .error e
  | .ok chess =>
      match tryIterMainlineMoveBytes moveBlob with
      | .error e => .error (invalidMoveStream gameId e)
      | .ok mainline =>
          if query.matchesPosition chess then
            some <$> matchedPositionContinuation S gameId chess mainline.head?
          else searchLine gameId query chess mainline

/-- What a search does with one stored game. -/
def searchEntry (gameId : Int32) (entry : NewGame) (query : PositionQuery S) :
    Except Error (Option String) :=
  if query.canReach entry.pawnHome then
    getMoveAfterMatch gameId entry.moves entry.fen query
  else .ok none

/-! ## Plain replay -/

/-- The move after the first matching position, or the end marker if that is
the last one. -/
def plainSearch (query : PositionQuery S) (chess : S.Chess) (ms : List Move) : Option String :=
  if query.matchesPosition chess then
    match ms with
    | [] => some "*"
    | m :: _ => some (S.sanToString (S.sanFromMove chess m))
  else
    match ms with
    | [] => none
    | m :: ms => plainSearch query (S.playUnchecked chess m) ms

theorem plainSearch_eq_none {query : PositionQuery S} {chess : S.Chess} {ms : List Move}
    (h : ∀ position ∈ S.positions chess ms, query.matchesPosition position = false) :
    plainSearch query chess ms = none := by
  induction ms generalizing chess with
  | nil =>
      have hchess := h chess (List.mem_cons_self ..)
      simp [plainSearch, hchess]
  | cons m ms ih =>
      have hchess := h chess (List.mem_cons_self ..)
      rw [plainSearch, if_neg (by simp [hchess])]
      exact ih fun position hposition ↦ h position (List.mem_cons_of_mem _ hposition)

/-! ## The pruning tests -/

theorem isEndReachable_iff {target current : BitVec 16} :
    isEndReachable target current = true ↔
      ∀ i < 16, target.getLsbD i = true → current.getLsbD i = true := by
  rw [isEndReachable, decide_eq_true_iff, BitVec.eq_of_getLsbD_eq_iff]
  refine forall₂_congr fun i hi ↦ ?_
  simp only [BitVec.getLsbD_and, BitVec.getLsbD_not, hi, decide_true, Bool.true_and]
  cases target.getLsbD i <;> cases current.getLsbD i <;> simp

/-- Positions whose home pawns are a subset pass the reachability test. -/
theorem isEndReachable_of_homeSubset {b b' : Board} (h : HomeSubset b b') :
    isEndReachable (getPawnHome b) (getPawnHome b') = true := by
  rw [isEndReachable_iff]
  intro i hi
  rw [getLsbD_getPawnHome b hi, getLsbD_getPawnHome b' hi]
  exact h _ _

/-- If a later position can match an exact query, the home test of the current
position lets the search go on. -/
theorem isReachableBy_of_matches {query : PositionQuery S} {current later : S.Chess}
    (hmatch : query.matchesPosition later = true)
    (hhome : HomeSubset (S.board later) (S.board current)) :
    query.isReachableBy (getPawnHome (S.board current)) = true := by
  cases query with
  | partialSetup data => rfl
  | exact data =>
      have hboard : S.board data.position = S.board later := by
        simp only [PositionQuery.matchesPosition, Bool.and_eq_true, decide_eq_true_eq] at hmatch
        exact hmatch.1.1.2
      rw [PositionQuery.isReachableBy, data.pawnHome_eq, hboard]
      exact isEndReachable_of_homeSubset hhome

theorem canReach_of_matches {query : PositionQuery S} {earlier final : S.Chess}
    (hmatch : query.matchesPosition earlier = true)
    (hhome : HomeSubset (S.board final) (S.board earlier)) :
    query.canReach (getPawnHome (S.board final)) = true := by
  cases query with
  | partialSetup data => rfl
  | exact data =>
      have hboard : S.board data.position = S.board earlier := by
        simp only [PositionQuery.matchesPosition, Bool.and_eq_true, decide_eq_true_eq] at hmatch
        exact hmatch.1.1.2
      rw [PositionQuery.canReach, data.pawnHome_eq, hboard]
      exact isEndReachable_of_homeSubset hhome

/-- The home pawns of a position on a line lie between those of its end and
those of its start. -/
theorem homeSubset_of_mem_positions (laws : S.Laws) {chess position : S.Chess}
    {ms : List Move} (hlegal : S.LegalLine chess ms) (h : position ∈ S.positions chess ms) :
    HomeSubset (S.board (S.playLine chess ms)) (S.board position) ∧
      HomeSubset (S.board position) (S.board chess) := by
  induction ms generalizing chess with
  | nil =>
      obtain rfl : position = chess := by simpa [Shakmaty.positions] using h
      exact ⟨HomeSubset.refl _, HomeSubset.refl _⟩
  | cons m ms ih =>
      rcases List.mem_cons.mp h with rfl | hposition
      · exact ⟨homeSubset_playLine laws hlegal, HomeSubset.refl _⟩
      · obtain ⟨hfinal, hstart⟩ := ih hlegal.2 hposition
        exact ⟨hfinal, hstart.trans (homeSubset_playUnchecked laws hlegal.1)⟩

/-! ## Pruned search is plain replay -/

/-- The continuation of a matching position. -/
theorem matchedPositionContinuation_eq {gameId : Int32} {query : PositionQuery S}
    {chess : S.Chess} {ms : List Move} {mainline : List UInt8}
    (hline : LineBytes S chess ms mainline) (hmatch : query.matchesPosition chess = true) :
    some <$> matchedPositionContinuation S gameId chess mainline.head? =
      .ok (plainSearch query chess ms) := by
  cases ms with
  | nil =>
      cases mainline with
      | nil => simp [matchedPositionContinuation, plainSearch, hmatch, Functor.map, Except.map]
      | cons byte mainline => exact hline.elim
  | cons m ms =>
      cases mainline with
      | nil => exact hline.elim
      | cons byte mainline =>
          simp [matchedPositionContinuation, plainSearch, hmatch, hline.1, Functor.map,
            Except.map]

/-- The loop after a position that does not match. -/
theorem searchLine_eq_plainSearch (laws : S.Laws) {gameId : Int32} {query : PositionQuery S}
    {chess : S.Chess} {ms : List Move} {mainline : List UInt8}
    (hline : LineBytes S chess ms mainline) (hmatch : query.matchesPosition chess = false) :
    searchLine gameId query chess mainline = .ok (plainSearch query chess ms) := by
  induction ms generalizing chess mainline with
  | nil =>
      cases mainline with
      | nil => simp [searchLine, plainSearch, hmatch]
      | cons byte mainline => exact hline.elim
  | cons m ms ih =>
      cases mainline with
      | nil => exact hline.elim
      | cons byte mainline =>
          obtain ⟨hdecode, hrest⟩ := hline
          have hlegal := legalLine_of_lineBytes S hrest
          have hplain : plainSearch query chess (m :: ms) =
              plainSearch query (S.playUnchecked chess m) ms := by
            rw [plainSearch, if_neg (by simp [hmatch])]
          rw [hplain]
          simp only [searchLine, hdecode]
          split
          case isTrue hpruned =>
            have hunreachable : query.isReachableBy
                (getPawnHome (S.board (S.playUnchecked chess m))) = false := by
              exact (Bool.not_eq_true' _).mp (Bool.and_eq_true_iff.mp hpruned).2
            rw [plainSearch_eq_none]
            intro position hposition
            by_contra hne
            have hreach := isReachableBy_of_matches (Bool.eq_true_of_not_eq_false hne)
              (homeSubset_of_mem_positions laws hlegal hposition).2
            rw [hunreachable] at hreach
            cases hreach
          case isFalse =>
            by_cases hnext : query.matchesPosition (S.playUnchecked chess m) = true
            · rw [if_pos hnext]
              exact matchedPositionContinuation_eq hrest hnext
            · rw [if_neg hnext]
              exact ih hrest (Bool.eq_false_of_not_eq_true hnext)

/-- A stored game whose blob plays the line `ms` from `start` and whose position
is the end of that line. -/
structure Playable (game : TempGame S) (start : S.Chess) (ms : List Move) : Prop where
  valid : validateMainlineMoveBytes game.moves = .ok ()
  line : LineBytes S start ms (iterMainlineMoveBytes game.moves)
  position : game.position = S.playLine start ms

/-- The search of a stored game, with both of its pruning tests, answers what
replaying every mainline position answers. -/
theorem searchEntry_eq_plainSearch (laws : S.Laws) {gameId : Int32} {game : TempGame S}
    {start : S.Chess} {ms : List Move}
    (hstart : initialPosition S gameId game.fen = .ok start)
    (hgame : Playable game start ms) (query : PositionQuery S) :
    searchEntry gameId game.insertToDb query = .ok (plainSearch query start ms) := by
  have hlegal := legalLine_of_lineBytes S hgame.line
  have hhome : game.insertToDb.pawnHome = getPawnHome (S.board (S.playLine start ms)) := by
    rw [← hgame.position]
    rfl
  rw [searchEntry]
  split
  case isTrue =>
    have hiter : tryIterMainlineMoveBytes game.moves =
        .ok (iterMainlineMoveBytes game.moves) := by
      simp only [tryIterMainlineMoveBytes, hgame.valid]
    simp only [getMoveAfterMatch, TempGame.insertToDb, hstart, hiter]
    by_cases hmatch : query.matchesPosition start = true
    · rw [if_pos hmatch]
      exact matchedPositionContinuation_eq hgame.line hmatch
    · rw [if_neg hmatch]
      exact searchLine_eq_plainSearch laws hgame.line (Bool.eq_false_of_not_eq_true hmatch)
  case isFalse hprune =>
    rw [plainSearch_eq_none]
    intro position hposition
    by_contra hne
    rw [hhome] at hprune
    exact hprune (canReach_of_matches (Bool.eq_true_of_not_eq_false hne)
      (homeSubset_of_mem_positions laws hlegal hposition).1)

end

namespace PawnEnding

/-- The pawn ending after `1. h3`, as it is stored. -/
def storedGame : TempGame library where
  fen := some "8/8/8/8/8/8/2k4P/K7 w - - 0 1"
  moves := [0]
  position := .pawnH3
  materialCount := {}

def queryAfterH3 : PositionQuery library := .exact ⟨_, .pawnH3, rfl⟩

theorem searchEntry_storedGame :
    searchEntry 1 storedGame.insertToDb queryAfterH3 =
      .ok (plainSearch queryAfterH3 .start [h3]) := by
  have hstart : initialPosition library 1 storedGame.fen = .ok .start := rfl
  have hgame : Playable storedGame .start [h3] := ⟨by decide, ⟨rfl, trivial⟩, rfl⟩
  exact searchEntry_eq_plainSearch library_laws hstart hgame queryAfterH3

end PawnEnding

section

variable {S : Shakmaty}

/-! ## Imported games -/

theorem decodeHeader_of_plain {value : List UInt8} (h : ∀ b ∈ value, b ≠ 92) :
    decodeHeader value = value := by
  fun_induction decodeHeader value with
  | case1 c rest _ => exact absurd rfl (h 92 (List.mem_cons_self ..))
  | case2 c rest _ => exact absurd rfl (h 92 (List.mem_cons_self ..))
  | case3 b rest _ ih => rw [ih fun b hb ↦ h b (List.mem_cons_of_mem _ hb)]
  | case4 => rfl

/-- The stored `FEN` column of a parsed header reads back as the header. -/
theorem encode_storedFen (hplain : S.FenPlain) {value : List UInt8} {setup : S.Setup}
    (h : S.fenFromAscii value = .ok setup) :
    Utf8.encode (fromUtf8Lossy (decodeHeader value)).toList = value := by
  have hvalue := hplain value setup h
  rw [decodeHeader_of_plain fun b hb ↦ (hvalue b hb).2, fromUtf8Lossy, String.toList_ofList]
  exact Utf8.encode_lossy_of_ascii fun b hb ↦ (hvalue b hb).1

/-- After its headers, a game that is not skipped stands at the start position
that its columns describe. -/
theorem initialPosition_header (hplain : S.FenPlain) (gameId : Int32) (imp : Importer S)
    (fenHeader : Option (List UInt8)) :
    let imp' := fenHeader.elim imp.beginGame imp.beginGame.headerFen
    imp'.skip = false →
      initialPosition S gameId imp'.game.fen = .ok imp'.game.position ∧
        imp'.game.moves = [] := by
  intro imp' hskip
  cases fenHeader with
  | none => exact ⟨rfl, rfl⟩
  | some value =>
      simp only [imp', Option.elim_some, Importer.headerFen] at hskip ⊢
      split_ifs at hskip ⊢ with hstandard
      · exact ⟨rfl, rfl⟩
      · cases hfen : S.fenFromAscii value with
        | error e => simp [hfen] at hskip
        | ok setup =>
            simp only [hfen] at hskip ⊢
            cases hsetup : databaseSetupToChess S setup with
            | error e => simp [hsetup] at hskip
            | ok position =>
                simp [initialPosition, encode_storedFen hplain hfen, hfen, hsetup,
                  Importer.beginGame, TempGame.default]

/-- Every game that the importer keeps is playable from its own start
position. -/
theorem playable_readGame (hplain : S.FenPlain) (gameId : Int32) {imp : Importer S}
    {fenHeader : Option (List UInt8)} {f : Forest (EventLeaf S)} {game : TempGame S}
    (h : imp.readGame fenHeader f.tokens = some game) :
    ∃ start, initialPosition S gameId game.fen = .ok start ∧
      Playable game start (lineMoves S f start) := by
  have hheader := initialPosition_header hplain gameId imp fenHeader
  obtain ⟨base, rfl, hskip, hkept, rfl⟩ := Importer.readGame_kept h
  obtain ⟨hinitial, hmoves⟩ := hheader hskip
  generalize fenHeader.elim imp.beginGame imp.beginGame.headerFen = base at *
  have hframes : base.endHeaders.1.frames = [ImportFrame.new base.game.position] := rfl
  have hsync : base.endHeaders.1.Synced := ⟨_, rfl, rfl⟩
  obtain ⟨g, hg⟩ := Importer.exists_encodes_of_kept hframes hsync hkept
  have hwrote := Importer.wrote_visitAll hframes hsync hg
  have hblob : (base.endHeaders.1.visitAll f.tokens).game.moves = storedBytes g := by
    rw [hwrote.moves, Importer.endHeaders, hmoves, List.nil_append]
  refine ⟨base.game.position, ?_, ?_, ?_, ?_⟩
  · rw [hwrote.fen]
    exact hinitial
  · exact validateMainlineMoveBytes_iff.mpr ⟨g, hblob.symm⟩
  · rw [hblob, iterMainlineMoveBytes_storedBytes]
    exact lineBytes_of_encodes S hg
  · obtain ⟨root, hroot, hposition⟩ := hwrote.synced
    rw [hwrote.frames] at hroot
    obtain rfl := Option.some.inj hroot
    rw [hposition]
    exact ImportFrame.position_foldl_play _ _

end

end EnCroissant

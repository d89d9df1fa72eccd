import EnCroissant.Game.Polyglot

/-!
# What a Polyglot book answers

A lookup gives the records of the position, and the move that is drawn is one the
book stores for it, unless the castling rewrite met a piece other than the king.
-/

namespace EnCroissant

/-! ## Moves as text -/

def parseSquare : List Char → Option Square
  | [file, rank] => some (Fin.ofNat 64 (8 * (rank.toNat - '1'.toNat) + (file.toNat - 'a'.toNat)))
  | _ => none

theorem parseSquare_squareChars : ∀ square, parseSquare (squareChars square) = some square := by
  decide

theorem squareChars_injective : Function.Injective squareChars := by
  intro a b h
  have hparse := congrArg parseSquare h
  rwa [parseSquare_squareChars, parseSquare_squareChars, Option.some.injEq] at hparse

theorem promotionChar_injective : Function.Injective promotionChar := by
  intro a b h
  cases a <;> cases b <;> first | rfl | exact absurd h (by decide)

theorem toList_injective {α : Type} : Function.Injective (Option.toList : Option α → List α) := by
  intro a b h
  cases a <;> cases b <;> cases h <;> rfl

theorem uciText_inj {source target source' target' : Square} {promotion promotion' : Option Role} :
    uciText source target promotion = uciText source' target' promotion' ↔
      source = source' ∧ target = target' ∧ promotion = promotion' := by
  constructor
  · intro h
    have hchars := String.ofList_injective h
    obtain ⟨hsquares, hpromotion⟩ := List.append_inj hchars rfl
    obtain ⟨hsource, htarget⟩ := List.append_inj hsquares rfl
    refine ⟨squareChars_injective hsource, squareChars_injective htarget, ?_⟩
    exact Option.map_injective promotionChar_injective (toList_injective hpromotion)
  · rintro ⟨rfl, rfl, rfl⟩
    rfl

/-- The king's target where a castling text is rewritten. -/
def castlingTarget (source target : Square) : Option Square :=
  if source = 4 ∧ target = 7 then some 6
  else if source = 4 ∧ target = 0 then some 2
  else if source = 60 ∧ target = 63 then some 62
  else if source = 60 ∧ target = 56 then some 58
  else none

def normalizedTarget (source target : Square) (promotion : Option Role) : Square :=
  if promotion = none then (castlingTarget source target).getD target else target

theorem normalizePolyglotUci_uciText (source target : Square) (promotion : Option Role) :
    normalizePolyglotUci (uciText source target promotion) =
      uciText source (normalizedTarget source target promotion) promotion := by
  have h₁ : ("e1h1" : String) = uciText 4 7 none := by decide
  have h₂ : ("e1a1" : String) = uciText 4 0 none := by decide
  have h₃ : ("e8h8" : String) = uciText 60 63 none := by decide
  have h₄ : ("e8a8" : String) = uciText 60 56 none := by decide
  rw [normalizePolyglotUci, h₁, h₂, h₃, h₄]
  simp only [uciText_inj, normalizedTarget, castlingTarget]
  split_ifs <;> simp_all <;> rfl

/-! ## Moves a text denotes -/

def Move.Reads (source target : Square) (promotion : Option Role) : Move → Prop
  | .normal _ source' _ target' promotion' =>
      source = source' ∧ target = target' ∧ promotion = promotion'
  | .enPassant source' target' => source = source' ∧ target = target' ∧ promotion = none
  | .castle king rook =>
      source = king ∧ promotion = none ∧ (target = rook ∨ castlingTarget king rook = some target)
  | .put .. => False

def ownPiece (R : GameRules) (position : R.Chess) (square : Square) (role : Role) : Prop :=
  R.board position square = some ⟨R.turn position, role⟩

instance (R : GameRules) (position : R.Chess) (square : Square) (role : Role) :
    Decidable (ownPiece R position square role) :=
  inferInstanceAs (Decidable (_ = _))

/-- Documented facts about moves in the notation of the protocol. -/
structure GameRules.UciLaws (R : GameRules) : Prop where
  parse_iff : ∀ position source target promotion m,
    parseMove R (uciText source target promotion) position = .ok m ↔
      m ∈ R.legalMoves position ∧ m.Reads source target promotion
  normal_source : ∀ position role source capture target promotion,
    .normal role source capture target promotion ∈ R.legalMoves position →
      ownPiece R position source role ∧ ∀ role', ¬ownPiece R position target role'
  enPassant_source : ∀ position source target,
    .enPassant source target ∈ R.legalMoves position → ownPiece R position source .pawn
  castle_squares : ∀ position king rook, .castle king rook ∈ R.legalMoves position →
    ownPiece R position king .king ∧ ownPiece R position rook .rook ∧
      ∀ target, castlingTarget king rook = some target → R.board position target = none

section

variable {R : GameRules} {position : R.Chess}

/-- A king move onto its own rook denotes castling, any other text the move it reads. -/
def TextDenotes (R : GameRules) (position : R.Chess) (source target : Square)
    (promotion : Option Role) (m : Move) : Prop :=
  if ownPiece R position source .king ∧ ownPiece R position target .rook ∧ promotion = none then
    m = .castle source target
  else parseMove R (uciText source target promotion) position = .ok m

theorem textDenotes_of_parse (laws : R.UciLaws) {source target : Square}
    {promotion : Option Role} {m : Move}
    (h : parseMove R (uciText source target promotion) position = .ok m) :
    TextDenotes R position source target promotion m := by
  rw [TextDenotes]
  split_ifs with hcastle
  · obtain ⟨hking, hrook, -⟩ := hcastle
    obtain ⟨hlegal, hreads⟩ := (laws.parse_iff ..).mp h
    cases m with
    | normal role source' capture target' promotion' =>
        obtain ⟨rfl, rfl, -⟩ := hreads
        exact absurd hrook ((laws.normal_source _ _ _ _ _ _ hlegal).2 .rook)
    | enPassant source' target' =>
        obtain ⟨rfl, -, -⟩ := hreads
        have hpawn := laws.enPassant_source _ _ _ hlegal
        rw [ownPiece, hking] at hpawn
        cases hpawn
    | castle king rook =>
        obtain ⟨rfl, -, rfl | htarget⟩ := hreads
        · rfl
        · have hempty := (laws.castle_squares _ _ _ hlegal).2.2 _ htarget
          rw [ownPiece, hempty] at hrook
          cases hrook
    | put role square => exact hreads.elim
  · exact h

/-- Where castling is legal its rewritten text reads as that castling. -/
theorem textDenotes_castle (laws : R.UciLaws) {source target kingTarget : Square} {m : Move}
    (hcastle : Move.castle source target ∈ R.legalMoves position)
    (htarget : castlingTarget source target = some kingTarget)
    (h : parseMove R (uciText source kingTarget none) position = .ok m) :
    TextDenotes R position source target none m := by
  have hparse : parseMove R (uciText source kingTarget none) position =
      .ok (.castle source target) :=
    (laws.parse_iff ..).mpr ⟨hcastle, rfl, rfl, .inr htarget⟩
  obtain ⟨hking, hrook, -⟩ := laws.castle_squares _ _ _ hcastle
  rw [TextDenotes, if_pos ⟨hking, hrook, rfl⟩]
  exact Except.ok.inj (h.symm.trans hparse)

theorem castlingTarget_kingTarget {source target kingTarget : Square}
    (h : castlingTarget source target = some kingTarget) :
    castlingTarget source kingTarget = none := by
  rw [castlingTarget] at h
  split_ifs at h with h₁ h₂ h₃ h₄
  · cases h
    rw [h₁.1]
    rfl
  · cases h
    rw [h₂.1]
    rfl
  · cases h
    rw [h₃.1]
    rfl
  · cases h
    rw [h₄.1]
    rfl

theorem castlingTarget_inj {source rook rook' kingTarget : Square}
    (h : castlingTarget source rook = some kingTarget)
    (h' : castlingTarget source rook' = some kingTarget) :
    rook = rook' := by
  rw [castlingTarget] at h h'
  split_ifs at h h' <;> simp_all
  all_goals exact absurd (h.trans h'.symm) (by decide)

/-- A text that denotes what a rewritten text reads is that text, or the castling's. -/
theorem reads_rewritten (laws : R.UciLaws) {source target kingTarget source' target' : Square}
    {promotion' : Option Role} {m : Move}
    (htarget : castlingTarget source target = some kingTarget)
    (h : parseMove R (uciText source kingTarget none) position = .ok m)
    (hdenotes : TextDenotes R position source' target' promotion' m) :
    Move.castle source target ∈ R.legalMoves position ∨
      source' = source ∧ target' = kingTarget ∧ promotion' = none := by
  obtain ⟨hlegal, hreads⟩ := (laws.parse_iff ..).mp h
  rw [TextDenotes] at hdenotes
  cases m with
  | normal role square capture square' promotion =>
      obtain ⟨rfl, rfl, rfl⟩ := hreads
      split_ifs at hdenotes
      obtain ⟨-, rfl, rfl, rfl⟩ := (laws.parse_iff ..).mp hdenotes
      exact .inr ⟨rfl, rfl, rfl⟩
  | enPassant square square' =>
      obtain ⟨rfl, rfl, -⟩ := hreads
      split_ifs at hdenotes
      obtain ⟨-, rfl, rfl, rfl⟩ := (laws.parse_iff ..).mp hdenotes
      exact .inr ⟨rfl, rfl, rfl⟩
  | castle king rook =>
      obtain ⟨rfl, -, rfl | hrook⟩ := hreads
      · right
        split_ifs at hdenotes with hcastle
        · obtain ⟨rfl, rfl⟩ := Move.castle.inj hdenotes
          exact ⟨rfl, rfl, hcastle.2.2⟩
        · obtain ⟨-, rfl, hpromotion, rfl | htarget'⟩ := (laws.parse_iff ..).mp hdenotes
          · exact ⟨rfl, rfl, hpromotion⟩
          · rw [castlingTarget_kingTarget htarget] at htarget'
            cases htarget'
      · left
        obtain rfl := castlingTarget_inj htarget hrook
        exact hlegal
  | put role square => exact hreads.elim

end

/-! ## Draws -/

theorem targetIndex_of_lt {weights : List ℕ} {target : ℕ} (h : target < weights.sum) :
    ∃ index weight, targetIndex weights target = some index ∧ weights[index]? = some weight ∧
      0 < weight := by
  induction weights generalizing target with
  | nil => cases h
  | cons weight weights ih =>
      rw [targetIndex]
      split_ifs with hlt
      · exact ⟨0, weight, rfl, rfl, Nat.zero_lt_of_lt hlt⟩
      · rw [List.sum_cons] at h
        obtain ⟨index, weight', hindex, hget, hpos⟩ := ih (by omega : target - weight < weights.sum)
        exact ⟨index + 1, weight', by rw [hindex, Option.map_some], hget, hpos⟩

theorem exists_targetIndex {weights : List ℕ} {index weight : ℕ}
    (h : weights[index]? = some weight) (hpos : 0 < weight) :
    ∃ target < weights.sum, targetIndex weights target = some index := by
  induction weights generalizing index with
  | nil => cases h
  | cons first weights ih =>
      rw [List.sum_cons]
      cases index with
      | zero =>
          obtain rfl := Option.some.inj h
          exact ⟨0, by omega, by rw [targetIndex, if_pos hpos]⟩
      | succ index =>
          obtain ⟨target, hlt, hindex⟩ := ih h
          refine ⟨first + target, by omega, ?_⟩
          rw [targetIndex, if_neg (by omega), Nat.add_sub_cancel_left, hindex, Option.map_some]

/-- A draw may give any entry of positive weight, and any entry if all weights are zero. -/
def Drawable (weights : List ℕ) (weight : ℕ) : Prop := 0 < weight ∨ weights.sum = 0

theorem drawable_chooseWeightedIndex (rng : Rng) {weights : List ℕ} (h : weights ≠ []) :
    ∃ weight, weights[chooseWeightedIndex rng weights]? = some weight ∧
      Drawable weights weight := by
  rw [chooseWeightedIndex]
  split_ifs with hzero
  · have hlt := rng.genRange_lt _ (List.length_pos_of_ne_nil h)
    exact ⟨_, List.getElem?_eq_getElem hlt, .inr hzero⟩
  · have hlt := rng.genRange_lt _ (Nat.pos_of_ne_zero hzero)
    obtain ⟨index, weight, hindex, hget, hpos⟩ := targetIndex_of_lt hlt
    rw [chooseWeightedTarget, hindex]
    exact ⟨weight, hget, .inl hpos⟩

/-- A source of random numbers that gives one number where it can. -/
def Rng.constant (value : ℕ) : Rng where
  genRange n := if value < n then value else 0
  genRange_lt n hn := by
    split_ifs with h
    · exact h
    · exact hn

theorem exists_chooseWeightedIndex {weights : List ℕ} {index weight : ℕ}
    (h : weights[index]? = some weight) (hdrawable : Drawable weights weight) :
    ∃ rng, chooseWeightedIndex rng weights = index := by
  by_cases hzero : weights.sum = 0
  · obtain ⟨hlt, -⟩ := List.getElem?_eq_some_iff.mp h
    refine ⟨Rng.constant index, ?_⟩
    rw [chooseWeightedIndex, if_pos hzero]
    exact if_pos hlt
  · obtain ⟨target, hlt, hindex⟩ := exists_targetIndex h (hdrawable.resolve_right hzero)
    refine ⟨Rng.constant target, ?_⟩
    have hrange : (Rng.constant target).genRange weights.sum = target := if_pos hlt
    rw [chooseWeightedIndex, if_neg hzero, hrange, chooseWeightedTarget, hindex]
    rfl

/-! ## Lookups -/

section

variable {R : PolyglotRules}

/-- The records of a file whose key is the hash of a position. -/
def matchingRecords (R : PolyglotRules) (bytes : List UInt8) (fen : String) :
    List PolyglotRecord :=
  match R.polyglotHashFromFen fen with
  | none => []
  | some key => (fileRecords bytes).filter fun record ↦ decide (record.key = key)

/-- The decodable records of the position, by descending weight and in the file's order
among equal weights. -/
structure FindsRecords (R : PolyglotRules) (bytes : List UInt8) (fen : String)
    (moves : List PolyglotMoveEntry) : Prop where
  descending : moves.Pairwise fun a b ↦ b.weight ≤ a.weight
  fileOrder : ∀ weight, moves.filter (fun entry ↦ decide (entry.weight = weight)) =
    ((matchingRecords R bytes fen).filterMap PolyglotRecord.entry).filter
      fun entry ↦ decide (entry.weight = weight)

theorem loadPolyglotBook_ok {bytes : List UInt8} {book : List PolyglotRecord}
    (h : loadPolyglotBook bytes = .ok book) :
    book = KeyedSort.sort PolyglotRecord.key (fileRecords bytes) := by
  obtain ⟨-, h⟩ := of_guard h
  obtain ⟨-, h⟩ := of_guard h
  exact (Except.ok.inj h).symm

theorem getAllMovesFromFen_eq {bytes : List UInt8} {book : List PolyglotRecord}
    (h : loadPolyglotBook bytes = .ok book) (fen : String) :
    getAllMovesFromFen R book fen =
      KeyedSort.sortByKey byWeight
        ((matchingRecords R bytes fen).filterMap PolyglotRecord.entry) := by
  obtain rfl := loadPolyglotBook_ok h
  rw [getAllMovesFromFen, matchingRecords]
  cases R.polyglotHashFromFen fen with
  | none => exact (List.mergeSort_nil).symm
  | some key =>
      have hrun := KeyedSort.equalRun_eq_withKey
        (KeyedSort.sorted_sort PolyglotRecord.key (fileRecords bytes)) key
      dsimp only
      rw [hrun, KeyedSort.withKey_sort]
      rfl

theorem findsRecords {bytes : List UInt8} {book : List PolyglotRecord}
    (h : loadPolyglotBook bytes = .ok book) (fen : String) :
    FindsRecords R bytes fen (getAllMovesFromFen R book fen) := by
  rw [getAllMovesFromFen_eq h]
  constructor
  · exact KeyedSort.sorted_sortByKey byWeight _
  · intro weight
    exact KeyedSort.withKey_sortByKey byWeight (OrderDual.toDual weight) _

/-! ## Moves that may be drawn -/

def PolyglotRecord.Playable (record : PolyglotRecord) (R : GameRules) (position : R.Chess) : Prop :=
  ∃ text, record.moveToUci = some text ∧
    ∃ m, parseMove R (normalizePolyglotUci text) position = .ok m

/-- A playable record may be drawn if it has a weight, or if none has. -/
def PolyglotRecord.MayBeDrawn (record : PolyglotRecord) (R : GameRules) (position : R.Chess)
    (records : List PolyglotRecord) : Prop :=
  record ∈ records ∧ (0 < record.weight ∨
    ∀ record' ∈ records, record'.Playable R position → record'.weight = 0)

theorem mem_playableMoves {position : R.Chess} {entries : List PolyglotMoveEntry} {uci : String}
    {weight : ℕ} :
    (uci, weight) ∈ playableMoves R position entries ↔
      ∃ entry ∈ entries, normalizePolyglotUci entry.moveString = uci ∧ entry.weight = weight ∧
        ∃ m, parseMove R.toGameRules uci position = .ok m := by
  rw [playableMoves, List.mem_filterMap]
  refine exists_congr fun entry ↦ and_congr_right fun _ ↦ ?_
  dsimp only
  split
  case h_1 m hparse =>
    constructor
    · intro h
      cases h
      exact ⟨rfl, rfl, m, hparse⟩
    · rintro ⟨rfl, rfl, -⟩
      rfl
  case h_2 e hparse =>
    constructor
    · intro h
      cases h
    · rintro ⟨rfl, -, m, hm⟩
      rw [hparse] at hm
      cases hm

theorem mem_getAllMovesFromFen {bytes : List UInt8} {book : List PolyglotRecord}
    (h : loadPolyglotBook bytes = .ok book) {fen : String} {entry : PolyglotMoveEntry} :
    entry ∈ getAllMovesFromFen R book fen ↔
      ∃ record ∈ matchingRecords R bytes fen, record.moveToUci = some entry.moveString ∧
        record.weight = entry.weight := by
  rw [getAllMovesFromFen_eq h, KeyedSort.sortByKey, (List.mergeSort_perm _ _).mem_iff,
    List.mem_filterMap]
  refine exists_congr fun record ↦ and_congr_right fun _ ↦ ?_
  rw [PolyglotRecord.entry, Option.map_eq_some_iff]
  constructor
  · rintro ⟨text, htext, rfl⟩
    exact ⟨htext, rfl⟩
  · rintro ⟨htext, hweight⟩
    exact ⟨entry.moveString, htext, by rw [hweight]⟩

theorem mem_legalMoves {bytes : List UInt8} {book : List PolyglotRecord}
    (h : loadPolyglotBook bytes = .ok book) {position : R.Chess} {fen uci : String}
    {weight : ℕ} :
    (uci, weight) ∈ playableMoves R position (getAllMovesFromFen R book fen) ↔
      ∃ record ∈ matchingRecords R bytes fen, record.weight = weight ∧
        ∃ text, record.moveToUci = some text ∧ normalizePolyglotUci text = uci ∧
          ∃ m, parseMove R.toGameRules uci position = .ok m := by
  rw [mem_playableMoves]
  constructor
  · rintro ⟨entry, hentry, huci, rfl, hparse⟩
    obtain ⟨record, hrecord, htext, hweight⟩ := (mem_getAllMovesFromFen h).mp hentry
    exact ⟨record, hrecord, hweight, entry.moveString, htext, huci, hparse⟩
  · rintro ⟨record, hrecord, rfl, text, htext, huci, hparse⟩
    exact ⟨⟨text, record.weight⟩, (mem_getAllMovesFromFen h).mpr ⟨record, hrecord, htext, rfl⟩,
      huci, rfl, hparse⟩

theorem tryPolyglotBookMove_iff {controller : PolyglotController R} {book : List PolyglotRecord}
    (hbook : controller.polyglotBook = some book) {uci : String} :
    (∃ rng, tryPolyglotBookMove rng controller = some uci) ↔
      controller.moves.length < controller.polyglotMaxPly ∧
        ∃ weight, (uci, weight) ∈ playableMoves R controller.position
            (getAllMovesFromFen R book (R.pseudoLegalFen controller.position)) ∧
          Drawable ((playableMoves R controller.position
            (getAllMovesFromFen R book (R.pseudoLegalFen controller.position))).map Prod.snd)
            weight := by
  set legalMoves := playableMoves R controller.position
    (getAllMovesFromFen R book (R.pseudoLegalFen controller.position)) with hlegal
  simp only [tryPolyglotBookMove, hbook, ← hlegal]
  split_ifs with hply
  · simp only [exists_false, false_iff, not_and]
    exact fun hlt ↦ absurd hply (not_le.mpr hlt)
  · rw [and_iff_right (not_le.mp hply)]
    constructor
    · rintro ⟨rng, hmove⟩
      obtain ⟨⟨text, weight⟩, hget, rfl⟩ := Option.map_eq_some_iff.mp hmove
      have hne : legalMoves.map Prod.snd ≠ [] := by
        intro hnil
        rw [List.map_eq_nil_iff.mp hnil] at hget
        cases hget
      obtain ⟨weight', hweight, hdrawable⟩ := drawable_chooseWeightedIndex rng hne
      rw [List.getElem?_map, hget, Option.map_some, Option.some.injEq] at hweight
      subst hweight
      exact ⟨weight, List.mem_of_getElem? hget, hdrawable⟩
    · rintro ⟨weight, hmem, hdrawable⟩
      obtain ⟨index, hget⟩ := List.mem_iff_getElem?.mp hmem
      have hweight : (legalMoves.map Prod.snd)[index]? = some weight := by
        rw [List.getElem?_map, hget, Option.map_some]
      obtain ⟨rng, hindex⟩ := exists_chooseWeightedIndex hweight hdrawable
      exact ⟨rng, by rw [hindex, hget, Option.map_some]⟩

/-! ## The move that is played -/

/-- Every move the book gives is legal and is what a record of the position denotes. -/
def MovesDenoted (bytes : List UInt8) (controller : PolyglotController R) : Prop :=
  ∀ rng uci, tryPolyglotBookMove rng controller = some uci →
    ∃ m ∈ R.legalMoves controller.position,
      parseMove R.toGameRules uci controller.position = .ok m ∧
        ∃ record ∈ matchingRecords R bytes (R.pseudoLegalFen controller.position),
          ∃ promotion, record.promotion = some promotion ∧
            TextDenotes R.toGameRules controller.position record.source record.target promotion m

/-- A record between the squares of a castling that may be drawn and whose rewritten
text can be played is a legal castling, or the book stores the rewritten move too. -/
def RewritesAgree (bytes : List UInt8) (position : R.Chess) : Prop :=
  let records := matchingRecords R bytes (R.pseudoLegalFen position)
  ∀ record : PolyglotRecord, record.MayBeDrawn R.toGameRules position records →
    record.promotion = some none →
    ∀ kingTarget, castlingTarget record.source record.target = some kingTarget →
      (∃ m, parseMove R.toGameRules (uciText record.source kingTarget none) position = .ok m) →
        .castle record.source record.target ∈ R.legalMoves position ∨
          ∃ record' ∈ records, record'.promotion = some none ∧
            record'.source = record.source ∧ record'.target = kingTarget

theorem returned_iff {bytes : List UInt8} {controller : PolyglotController R}
    {book : List PolyglotRecord} (hload : loadPolyglotBook bytes = .ok book)
    (hbook : controller.polyglotBook = some book) {uci : String} :
    (∃ rng, tryPolyglotBookMove rng controller = some uci) ↔
      controller.moves.length < controller.polyglotMaxPly ∧
        ∃ record : PolyglotRecord, record.MayBeDrawn R.toGameRules controller.position
            (matchingRecords R bytes (R.pseudoLegalFen controller.position)) ∧
          ∃ promotion, record.promotion = some promotion ∧
            uciText record.source (normalizedTarget record.source record.target promotion)
              promotion = uci ∧
            ∃ m, parseMove R.toGameRules uci controller.position = .ok m := by
  rw [tryPolyglotBookMove_iff hbook]
  refine and_congr_right fun _ ↦ ?_
  have hsum : ∀ weights : List ℕ, weights.sum = 0 ↔ ∀ weight ∈ weights, weight = 0 :=
    fun weights ↦ List.sum_eq_zero_iff
  have hzero : ((playableMoves R controller.position (getAllMovesFromFen R book
      (R.pseudoLegalFen controller.position))).map Prod.snd).sum = 0 ↔
      ∀ record ∈ matchingRecords R bytes (R.pseudoLegalFen controller.position),
        record.Playable R.toGameRules controller.position → record.weight = 0 := by
    rw [hsum]
    constructor
    · rintro h record hrecord ⟨text, htext, hparse⟩
      exact h record.weight (List.mem_map.mpr ⟨(normalizePolyglotUci text, record.weight),
        (mem_legalMoves hload).mpr ⟨record, hrecord, rfl, text, htext, rfl, hparse⟩, rfl⟩)
    · intro h weight hweight
      obtain ⟨⟨text, weight⟩, hmem, rfl⟩ := List.mem_map.mp hweight
      obtain ⟨record, hrecord, rfl, text, htext, rfl, hparse⟩ := (mem_legalMoves hload).mp hmem
      exact h record hrecord ⟨text, htext, hparse⟩
  have hdrawable : ∀ weight, Drawable ((playableMoves R controller.position (getAllMovesFromFen R
      book (R.pseudoLegalFen controller.position))).map Prod.snd) weight ↔ 0 < weight ∨
      ∀ record ∈ matchingRecords R bytes (R.pseudoLegalFen controller.position),
        record.Playable R.toGameRules controller.position → record.weight = 0 :=
    fun weight ↦ or_congr_right hzero
  constructor
  · rintro ⟨weight, hmem, hdrawn⟩
    obtain ⟨record, hrecord, rfl, text, htext, huci, hparse⟩ := (mem_legalMoves hload).mp hmem
    obtain ⟨promotion, hpromotion, rfl⟩ := Option.map_eq_some_iff.mp htext
    rw [normalizePolyglotUci_uciText] at huci
    exact ⟨record, ⟨hrecord, (hdrawable _).mp hdrawn⟩, promotion, hpromotion, huci, hparse⟩
  · rintro ⟨record, ⟨hrecord, hdrawn⟩, promotion, hpromotion, huci, hparse⟩
    refine ⟨record.weight, (mem_legalMoves hload).mpr ⟨record, hrecord, rfl,
      uciText record.source record.target promotion, ?_, ?_, hparse⟩, (hdrawable _).mpr hdrawn⟩
    · rw [PolyglotRecord.moveToUci, hpromotion, Option.map_some]
    · rw [normalizePolyglotUci_uciText, huci]

/-- A lookup always finds the records of the position; the move played is one of
theirs exactly where the rewriting of castling texts does no harm. -/
theorem polyglot_faithful_iff (laws : R.UciLaws) {bytes : List UInt8}
    {book : List PolyglotRecord} (hload : loadPolyglotBook bytes = .ok book)
    (controller : PolyglotController R) (hbook : controller.polyglotBook = some book) :
    ((∀ fen, FindsRecords R bytes fen (getAllMovesFromFen R book fen)) ∧
      MovesDenoted bytes controller) ↔
      controller.polyglotMaxPly ≤ controller.moves.length ∨
        RewritesAgree bytes controller.position := by
  constructor
  · rintro ⟨-, hdenoted⟩
    rcases le_or_gt controller.polyglotMaxPly controller.moves.length with hply | hply
    · exact .inl hply
    · refine .inr fun record hdrawn hpromotion kingTarget htarget ⟨m, hparse⟩ ↦ ?_
      have hnormal : normalizedTarget record.source record.target none = kingTarget := by
        rw [normalizedTarget, if_pos rfl, htarget, Option.getD_some]
      obtain ⟨rng, hmove⟩ := (returned_iff hload hbook).mpr
        ⟨hply, record, hdrawn, none, hpromotion, by rw [hnormal], m, hparse⟩
      obtain ⟨m', -, hparse', record', hrecord', promotion', hpromotion', hdenotes⟩ :=
        hdenoted rng _ hmove
      rcases reads_rewritten laws htarget hparse' hdenotes with hcastle | ⟨hs, ht, rfl⟩
      · exact .inl hcastle
      · exact .inr ⟨record', hrecord', hpromotion', hs, ht⟩
  · intro hcondition
    refine ⟨findsRecords hload, fun rng uci hmove ↦ ?_⟩
    obtain ⟨hply, record, hdrawn, promotion, hpromotion, huci, m, hparse⟩ :=
      (returned_iff hload hbook).mp ⟨rng, hmove⟩
    have hagree := hcondition.resolve_left (not_le.mpr hply)
    subst huci
    refine ⟨m, ((laws.parse_iff ..).mp hparse).1, hparse, ?_⟩
    by_cases hcastling : promotion = none ∧ castlingTarget record.source record.target ≠ none
    · obtain ⟨rfl, hne⟩ := hcastling
      obtain ⟨kingTarget, htarget⟩ := Option.ne_none_iff_exists'.mp hne
      rw [normalizedTarget, if_pos rfl, htarget, Option.getD_some] at hparse
      rcases hagree record hdrawn hpromotion kingTarget htarget ⟨m, hparse⟩ with
        hcastle | ⟨record', hrecord', hpromotion', hs, rfl⟩
      · exact ⟨record, hdrawn.1, none, hpromotion, textDenotes_castle laws hcastle htarget hparse⟩
      · rw [← hs] at hparse
        exact ⟨record', hrecord', none, hpromotion', textDenotes_of_parse laws hparse⟩
    · have hsame : normalizedTarget record.source record.target promotion = record.target := by
        rw [normalizedTarget]
        split_ifs with hnone
        · rw [not_ne_iff.mp fun hne ↦ hcastling ⟨hnone, hne⟩, Option.getD_none]
        · rfl
      rw [hsame] at hparse
      exact ⟨record, hdrawn.1, promotion, hpromotion, textDenotes_of_parse laws hparse⟩

end

/-! ## A pinned rook

White's king on `d1` has no move, and the rook on `e1`, pinned by the rook on `h1`,
may go to `f1` or `g1` or capture on `h1`. -/

namespace PinnedRook

inductive Position where
  | start
  | played
  deriving DecidableEq, Repr

def board (square : Square) : Option Piece :=
  if square = 3 then some ⟨.white, .king⟩
  else if square = 4 then some ⟨.white, .rook⟩
  else if square = 7 then some ⟨.black, .rook⟩
  else if square = 19 then some ⟨.black, .king⟩
  else if square = 58 then some ⟨.black, .rook⟩
  else none

def rf1 : Move := .normal .rook 4 none 5 none

def rg1 : Move := .normal .rook 4 none 6 none

def rxh1 : Move := .normal .rook 4 (some .rook) 7 none

def legalMoves : Position → List Move
  | .start => [rf1, rg1, rxh1]
  | .played => []

def uciMoves : List (String × Move) :=
  [(uciText 4 5 none, rf1), (uciText 4 6 none, rg1), (uciText 4 7 none, rxh1)]

def fen : String := "2r5/8/8/8/8/3k4/8/3KR2r w - - 0 1"

abbrev rules : PolyglotRules where
  Chess := Position
  Setup := Unit
  San := String
  CastlingMode := Unit
  PositionError := Unit
  default := .start
  board := fun _ ↦ board
  turn := fun _ ↦ .white
  castlingRights := fun _ ↦ 0
  epSquare := fun _ ↦ none
  legalMoves := legalMoves
  playUnchecked := fun _ _ ↦ .played
  toMove := fun _ _ ↦ none
  sanFromMove := fun _ _ ↦ ""
  sanToString := id
  setupBoard := fun _ ↦ board
  fenFromAscii := fun _ ↦ .ok ()
  detectCastlingMode := fun _ ↦ ()
  fromSetup := fun _ _ ↦ .ok .start
  ignoreTooMuchMaterial := .error
  ignoreInvalidCastlingRights := .error
  positionErrorToString := fun _ ↦ "illegal position"
  UciMove := Move
  uciFromAscii := fun bs ↦
    match uciMoves.find? fun entry ↦ utf8Bytes entry.1 = bs with
    | some entry => .ok entry.2
    | none => .error "invalid uci"
  uciToMove := fun m p ↦ if m ∈ legalMoves p then .ok m else .error "illegal uci move"
  sanPlus := fun _ _ ↦ ""
  fen := fun _ ↦ fen
  halfmoves := fun _ ↦ 0
  isCheckmate := fun _ ↦ false
  isStalemate := fun _ ↦ false
  isInsufficientMaterial := fun _ ↦ false
  hasInsufficientMaterial := fun _ _ ↦ false
  pseudoLegalFen := fun _ ↦ fen
  polyglotHashFromFen := fun text ↦ if text = fen then some 1 else none

theorem utf8Bytes_injective : Function.Injective utf8Bytes := by
  intro a b h
  exact String.toByteArray_inj.mp (ByteArray.ext (Array.toList_inj.mp h))

theorem parse_iff (position : Position) (source target : Square) (promotion : Option Role)
    (m : Move) :
    parseMove rules.toGameRules (uciText source target promotion) position = .ok m ↔
      m ∈ legalMoves position ∧ m.Reads source target promotion := by
  have hmem : m ∈ legalMoves position ↔ position = .start ∧ (m = rf1 ∨ m = rg1 ∨ m = rxh1) := by
    cases position <;> simp [legalMoves]
  have hparse : parseMove rules.toGameRules (uciText source target promotion) position = .ok m ↔
      position = .start ∧ source = 4 ∧ promotion = none ∧
        (target = 5 ∧ m = rf1 ∨ target = 6 ∧ m = rg1 ∨ target = 7 ∧ m = rxh1) := by
    simp only [parseMove, uciMoves, utf8Bytes_injective.eq_iff, uciText_inj, List.find?]
    by_cases h₅ : 4 = source ∧ 5 = target ∧ none = promotion
    · obtain ⟨rfl, rfl, rfl⟩ := h₅
      cases position <;> simp [legalMoves, Except.mapError, bind, Except.bind, eq_comm]
    by_cases h₆ : 4 = source ∧ 6 = target ∧ none = promotion
    · obtain ⟨rfl, rfl, rfl⟩ := h₆
      cases position <;> simp [legalMoves, Except.mapError, bind, Except.bind, eq_comm]
    by_cases h₇ : 4 = source ∧ 7 = target ∧ none = promotion
    · obtain ⟨rfl, rfl, rfl⟩ := h₇
      cases position <;> simp [legalMoves, Except.mapError, bind, Except.bind, eq_comm]
    · simp only [h₅, h₆, h₇, decide_false]
      constructor
      · intro h
        cases h
      · rintro ⟨-, rfl, rfl, ⟨rfl, -⟩ | ⟨rfl, -⟩ | ⟨rfl, -⟩⟩
        · exact absurd ⟨rfl, rfl, rfl⟩ h₅
        · exact absurd ⟨rfl, rfl, rfl⟩ h₆
        · exact absurd ⟨rfl, rfl, rfl⟩ h₇
  rw [hparse, hmem]
  constructor
  · rintro ⟨rfl, rfl, rfl, ⟨rfl, rfl⟩ | ⟨rfl, rfl⟩ | ⟨rfl, rfl⟩⟩
    · exact ⟨⟨rfl, .inl rfl⟩, rfl, rfl, rfl⟩
    · exact ⟨⟨rfl, .inr (.inl rfl)⟩, rfl, rfl, rfl⟩
    · exact ⟨⟨rfl, .inr (.inr rfl)⟩, rfl, rfl, rfl⟩
  · rintro ⟨⟨rfl, rfl | rfl | rfl⟩, rfl, rfl, rfl⟩
    · exact ⟨rfl, rfl, rfl, .inl ⟨rfl, rfl⟩⟩
    · exact ⟨rfl, rfl, rfl, .inr (.inl ⟨rfl, rfl⟩)⟩
    · exact ⟨rfl, rfl, rfl, .inr (.inr ⟨rfl, rfl⟩)⟩

theorem uciLaws : rules.UciLaws where
  parse_iff := parse_iff
  normal_source position role source capture target promotion h := by
    cases position with
    | played => cases h
    | start =>
        have hcases : (source = 4 ∧ role = .rook) ∧ (target = 5 ∨ target = 6 ∨ target = 7) := by
          simp only [legalMoves, rf1, rg1, rxh1, List.mem_cons, Move.normal.injEq,
            List.not_mem_nil, or_false] at h
          tauto
        obtain ⟨⟨rfl, rfl⟩, htarget⟩ := hcases
        refine ⟨rfl, fun role' ↦ ?_⟩
        rcases htarget with rfl | rfl | rfl <;> cases role' <;> decide
  enPassant_source position source target h := by
    cases position with
    | played => cases h
    | start => simp [legalMoves, rf1, rg1, rxh1] at h
  castle_squares position king rook h := by
    cases position with
    | played => cases h
    | start => simp [legalMoves, rf1, rg1, rxh1] at h

def config : GameConfig where
  white := .engine "Engine"
  black := .human "Human"
  whiteTimeControl := none
  blackTimeControl := none
  initialFen := some fen
  initialMoves := []

/-- A book of one record for the position, a rook move from `e1` to the square of the byte. -/
def bookBytes (move : UInt8) : List UInt8 := [0, 0, 0, 0, 0, 0, 0, 1, 1, move, 0, 1, 0, 0, 0, 0]

def record (move : UInt8) : PolyglotRecord := ⟨1, 256 + move.toNat, 1⟩

def controller (move : UInt8) : PolyglotController rules where
  toGameController := .fresh "game" 1 config fen .start 0
  polyglotBook := some [record move]
  polyglotMaxPly := 1

theorem matchingRecords_bookBytes (move : UInt8) (p : Position)
    (h : fileRecords (bookBytes move) = [record move]) :
    matchingRecords rules (bookBytes move) (rules.pseudoLegalFen p) = [record move] := by
  rw [matchingRecords, h]
  rfl

theorem loadsBook (move : UInt8) (h : fileRecords (bookBytes move) = [record move]) :
    loadPolyglotBook (bookBytes move) = .ok [record move] := by
  have hsort : KeyedSort.sort PolyglotRecord.key [record move] = [record move] := rfl
  have hlength : (bookBytes move).length = 16 := rfl
  rw [loadPolyglotBook, h, hsort, hlength, if_neg (by decide), if_neg (by decide)]

/-- The book stores the capture on `h1`; the move played is the one to `g1`. -/
theorem plays_g1_for_h1 :
    loadPolyglotBook (bookBytes 7) = .ok [record 7] ∧
      (∃ rng, tryPolyglotBookMove rng (controller 7) = some (uciText 4 6 none)) ∧
      parseMove rules.toGameRules (uciText 4 7 none) .start = .ok rxh1 ∧
      ¬MovesDenoted (bookBytes 7) (controller 7) := by
  have hload := loadsBook 7 rfl
  have hrecords := matchingRecords_bookBytes 7 .start rfl
  have hg1 : parseMove rules.toGameRules (uciText 4 6 none) .start = .ok rg1 :=
    (parse_iff ..).mpr ⟨by decide, rfl, rfl, rfl⟩
  have hh1 : parseMove rules.toGameRules (uciText 4 7 none) .start = .ok rxh1 :=
    (parse_iff ..).mpr ⟨by decide, rfl, rfl, rfl⟩
  have hplays : ∃ rng, tryPolyglotBookMove rng (controller 7) = some (uciText 4 6 none) := by
    refine (returned_iff hload rfl).mpr ⟨by decide, record 7, ⟨?_, .inl (by decide)⟩, none, rfl,
      rfl, rg1, hg1⟩
    exact hrecords ▸ List.mem_singleton_self _
  refine ⟨hload, hplays, hh1, fun hdenoted ↦ ?_⟩
  obtain ⟨rng, hmove⟩ := hplays
  obtain ⟨m, -, hparse, record', hrecord, promotion, hpromotion, hdenotes⟩ := hdenoted rng _ hmove
  obtain rfl : record' = record 7 := List.mem_singleton.mp (hrecords ▸ hrecord)
  obtain rfl : none = promotion := Option.some.inj hpromotion
  rw [TextDenotes, if_neg (by decide)] at hdenotes
  have hsame : rg1 = rxh1 := by
    have h := hparse.symm.trans hg1
    have h' := hdenotes.symm.trans hh1
    exact (Except.ok.inj h).symm.trans (Except.ok.inj h')
  exact absurd hsame (by decide)

/-- A book of the move to `g1` is answered with that move. -/
theorem polyglot_faithful_iff_g1 :
    (∀ fen, FindsRecords rules (bookBytes 6) fen (getAllMovesFromFen rules [record 6] fen)) ∧
      MovesDenoted (bookBytes 6) (controller 6) := by
  refine (polyglot_faithful_iff uciLaws (loadsBook 6 rfl) (controller 6) rfl).mpr (.inr ?_)
  intro record' hdrawn _ kingTarget htarget _
  have hrecords := matchingRecords_bookBytes 6 .start rfl
  obtain rfl : record' = record 6 := List.mem_singleton.mp (hrecords ▸ hdrawn.1)
  cases htarget

end PinnedRook

end EnCroissant

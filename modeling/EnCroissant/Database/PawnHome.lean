import Mathlib
import EnCroissant.Database.Importer

/-!
# Home pawns only ever disappear

A pawn on its home square has never moved, so the home bits of a position are
among those of every earlier position of the game.
-/

namespace EnCroissant

/-- The rank the pawns of a color start on. -/
def Color.homeRank : Color → ℕ
  | .white => 1
  | .black => 6

/-- A pawn of the color stands on the square, and the square is on its home
rank. -/
def HomePawn (b : Board) (c : Color) (s : Square) : Prop :=
  s.rank = c.homeRank ∧ b s = some ⟨c, .pawn⟩

/-- The square and the color that a bit of `getPawnHome` stands for. -/
def homeSquare (i : ℕ) : Square := Square.fromCoords (i % 8) (if i < 8 then 1 else 6)

def homeColor (i : ℕ) : Color := if i < 8 then .white else .black

theorem rank_homeSquare {i : ℕ} (h : i < 16) :
    (homeSquare i).rank = (homeColor i).homeRank := by
  interval_cases i <;> rfl

theorem getLsbD_byPiece (b : Board) (p : Piece) (s : Square) :
    (b.byPiece p).getLsbD s = true ↔ b s = some p := by
  rw [Board.byPiece, Board.getLsbD_bitboard]
  cases b s with
  | none => simp
  | some q => simp

theorem getLsbD_getPawnHome_white (b : Board) {i : ℕ} (h : i < 8) :
    (getPawnHome b).getLsbD i = (b.byPiece whitePawn).getLsbD (8 + i) := by
  have h16 : i < 16 := by omega
  simp [getPawnHome, h, h16]

theorem getLsbD_getPawnHome_black (b : Board) {i : ℕ} (h : i < 8) :
    (getPawnHome b).getLsbD (8 + i) = (b.byPiece blackPawn).getLsbD (48 + i) := by
  have h16 : 8 + i < 16 := by omega
  simp [getPawnHome, h, h16]

/-- The bits of `getPawnHome` are the home pawns. -/
theorem getLsbD_getPawnHome (b : Board) {i : ℕ} (h : i < 16) :
    (getPawnHome b).getLsbD i = true ↔ HomePawn b (homeColor i) (homeSquare i) := by
  rw [HomePawn, rank_homeSquare h]
  by_cases hi : i < 8
  · have hsquare : ((homeSquare i : Square) : ℕ) = 8 + i := by
      simp only [homeSquare, Square.fromCoords, hi, if_true, Fin.val_ofNat]
      omega
    rw [getLsbD_getPawnHome_white b hi, ← hsquare, getLsbD_byPiece]
    simp [homeColor, hi, whitePawn]
  · obtain ⟨j, rfl⟩ := Nat.exists_eq_add_of_le (Nat.le_of_not_lt hi)
    have hsquare : ((homeSquare (8 + j) : Square) : ℕ) = 48 + j := by
      simp only [homeSquare, Square.fromCoords, hi, if_false, Fin.val_ofNat]
      omega
    rw [getLsbD_getPawnHome_black b (by omega), ← hsquare, getLsbD_byPiece]
    simp [homeColor, hi, blackPawn]

/-- Home pawns of the one board are home pawns of the other. -/
def HomeSubset (b b' : Board) : Prop :=
  ∀ c s, HomePawn b c s → HomePawn b' c s

theorem HomeSubset.refl (b : Board) : HomeSubset b b := fun _ _ h ↦ h

theorem HomeSubset.trans {b b' b'' : Board} (h : HomeSubset b b') (h' : HomeSubset b' b'') :
    HomeSubset b b'' := fun c s hs ↦ h' c s (h c s hs)

/-- A pawn that moves to `target` does not land on its home rank. -/
theorem Forward.ne_homeRank {b : Board} {turn : Color} {source target : Square}
    (hbackrank : ∀ s c, b s = some ⟨c, .pawn⟩ → s.rank ≠ 0 ∧ s.rank ≠ 7)
    (hpawn : b source = some ⟨turn, .pawn⟩) (h : Forward turn source target) :
    target.rank ≠ turn.homeRank := by
  have hsource := hbackrank source turn hpawn
  have hrank : source.rank < 8 := by
    have := source.isLt
    rw [Square.rank]
    omega
  cases turn with
  | white =>
      simp only [Forward, Color.homeRank] at *
      omega
  | black =>
      simp only [Forward, Color.homeRank] at *
      omega

/-- A move puts no pawn on its home rank. -/
theorem homeSubset_playMove {b : Board} {turn : Color} {m : Move}
    (hbackrank : ∀ s c, b s = some ⟨c, .pawn⟩ → s.rank ≠ 0 ∧ s.rank ≠ 7)
    (hfits : m.Fits b turn) :
    HomeSubset (b.playMove turn m) b := by
  rintro c s ⟨hrank, hs⟩
  refine ⟨hrank, ?_⟩
  cases m with
  | normal role source capture target promotion =>
      obtain ⟨hsource, hpromotion, hforward⟩ := hfits
      simp only [Board.playMove, Function.update_apply] at hs
      split_ifs at hs with htarget
      · obtain ⟨rfl, hrole⟩ := Piece.mk.inj (Option.some.inj hs)
        cases promotion with
        | some r =>
            obtain rfl : r = .pawn := hrole
            exact absurd rfl hpromotion
        | none =>
            obtain rfl : role = .pawn := hrole
            subst htarget
            exact absurd hrank ((hforward rfl).ne_homeRank hbackrank hsource)
      · exact hs
  | enPassant source target =>
      obtain ⟨hsource, hforward⟩ := hfits
      simp only [Board.playMove, Function.update_apply] at hs
      split_ifs at hs with htarget
      · obtain ⟨rfl, -⟩ := Piece.mk.inj (Option.some.inj hs)
        subst htarget
        exact absurd hrank (hforward.ne_homeRank hbackrank hsource)
      · exact hs
  | castle king rook =>
      simp only [Board.playMove, Function.update_apply] at hs
      split_ifs at hs
      all_goals first
        | exact hs
        | exact absurd (Piece.mk.inj (Option.some.inj hs)).2 (by decide)
  | put role target => exact hfits.elim

section

variable {S : Shakmaty}

/-- One legal move: no home pawn appears. -/
theorem homeSubset_playUnchecked (laws : S.Laws) {chess : S.Chess} {m : Move}
    (hm : m ∈ S.legalMoves chess) :
    HomeSubset (S.board (S.playUnchecked chess m)) (S.board chess) := by
  rw [laws.board_play chess m hm]
  exact homeSubset_playMove (laws.pawns_off_backranks chess) (laws.legal_fits chess m hm)

/-- A whole line: no home pawn appears. -/
theorem homeSubset_playLine (laws : S.Laws) {chess : S.Chess} {ms : List Move}
    (h : S.LegalLine chess ms) :
    HomeSubset (S.board (S.playLine chess ms)) (S.board chess) := by
  induction ms generalizing chess with
  | nil => exact HomeSubset.refl _
  | cons m ms ih => exact (ih h.2).trans (homeSubset_playUnchecked laws h.1)

end

end EnCroissant

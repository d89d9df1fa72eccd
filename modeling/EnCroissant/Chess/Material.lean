import EnCroissant.Chess.Rules

/-!
# Insufficient material

The rules library's test for a position that neither side can win, on concrete
boards, and its invariant: a legal move never brings back enough material.
-/

namespace EnCroissant

namespace Board

/-- The squares a side's pieces stand on. -/
def occupied (b : Board) (color : Color) : Finset Square :=
  Finset.univ.filter fun s ↦ (b s).any (·.color = color)

def heavy (role : Role) : Bool := role = .pawn || role = .rook || role = .queen

/-- Whether a square is light. -/
def shade (s : Square) : Bool := (s.file + s.rank) % 2 = 1

def someSquare (b : Board) (test : Piece → Bool) : Bool := decide (∃ s, (b s).any test)

def bishopsOn (b : Board) (light : Bool) : Bool :=
  decide (∀ s, (b s).any (fun p ↦ p.role = .bishop) → shade s = light)

/-- `has_insufficient_material`. -/
def hasInsufficientMaterial (b : Board) (color : Color) : Bool :=
  if b.someSquare fun p ↦ p.color = color && heavy p.role then false
  else if b.someSquare fun p ↦ p.color = color && p.role = .knight then
    (b.occupied color).card ≤ 2 &&
      !b.someSquare fun p ↦ p.color ≠ color && p.role ≠ .king && p.role ≠ .queen
  else if b.someSquare fun p ↦ p.color = color && p.role = .bishop then
    (b.bishopsOn false || b.bishopsOn true) &&
      !(b.someSquare fun p ↦ p.role = .knight) && !(b.someSquare fun p ↦ p.role = .pawn)
  else true

/-- `is_insufficient_material`. -/
def isInsufficientMaterial (b : Board) : Bool :=
  b.hasInsufficientMaterial .white && b.hasInsufficientMaterial .black

/-- Some piece of a side, with a role. -/
def Has (b : Board) (color : Color) (role : Role) : Prop := ∃ s, b s = some ⟨color, role⟩

/-- All bishops stand on squares of one shade. -/
def BishopsAgree (b : Board) : Prop :=
  ∃ light, ∀ s color, b s = some ⟨color, .bishop⟩ → shade s = light

/-- Neither side has enough material. -/
structure Insufficient (b : Board) : Prop where
  light : ∀ color role, b.Has color role → heavy role = false
  few : ∀ color, b.Has color .knight → (b.occupied color).card ≤ 2
  alone : ∀ color, b.Has color .knight →
    ∀ color' role, b.Has color' role → color' ≠ color → role = .king
  bishops : ∀ color, ¬b.Has color .knight → b.Has color .bishop →
    b.BishopsAgree ∧ ∀ color', ¬b.Has color' .knight

theorem someSquare_iff {b : Board} {test : Piece → Bool} :
    b.someSquare test = true ↔ ∃ color role, b.Has color role ∧ test ⟨color, role⟩ = true := by
  rw [someSquare, decide_eq_true_eq]
  constructor
  · rintro ⟨s, hs⟩
    obtain ⟨⟨color, role⟩, hp, htest⟩ := (Option.any_eq_true _ _).mp hs
    exact ⟨color, role, ⟨s, hp⟩, htest⟩
  · rintro ⟨color, role, ⟨s, hs⟩, htest⟩
    exact ⟨s, (Option.any_eq_true _ _).mpr ⟨_, hs, htest⟩⟩

theorem bishopsOn_iff {b : Board} {light : Bool} :
    b.bishopsOn light = true ↔ ∀ s color, b s = some ⟨color, .bishop⟩ → shade s = light := by
  rw [bishopsOn, decide_eq_true_eq]
  constructor
  · intro h s color hs
    exact h s ((Option.any_eq_true _ _).mpr ⟨_, hs, by simp⟩)
  · intro h s hs
    obtain ⟨⟨color, role⟩, hp, htest⟩ := (Option.any_eq_true _ _).mp hs
    rw [decide_eq_true_eq] at htest
    simp only at htest
    exact h s color (htest ▸ hp)

theorem hasInsufficientMaterial_iff {b : Board} {color : Color} :
    b.hasInsufficientMaterial color = true ↔
      (∀ role, b.Has color role → heavy role = false) ∧
        (b.Has color .knight → (b.occupied color).card ≤ 2 ∧
          ∀ color' role, b.Has color' role → color' ≠ color → role = .king ∨ role = .queen) ∧
          (¬b.Has color .knight → b.Has color .bishop → b.BishopsAgree ∧
            ∀ color', ¬b.Has color' .knight ∧ ¬b.Has color' .pawn) := by
  have hheavy : (b.someSquare fun p ↦ p.color = color && heavy p.role) = true ↔
      ∃ role, b.Has color role ∧ heavy role = true := by
    rw [someSquare_iff]
    simp
  have hrole : ∀ role, (b.someSquare fun p ↦ p.color = color && p.role = role) = true ↔
      b.Has color role := by
    intro role
    rw [someSquare_iff]
    simp
  have hany : ∀ role, (b.someSquare fun p ↦ p.role = role) = true ↔
      ∃ color', b.Has color' role := by
    intro role
    rw [someSquare_iff]
    simp
  have hothers : (b.someSquare fun p ↦ p.color ≠ color && p.role ≠ .king && p.role ≠ .queen) =
      true ↔ ∃ color' role, b.Has color' role ∧ color' ≠ color ∧ role ≠ .king ∧ role ≠ .queen := by
    rw [someSquare_iff]
    simp [and_assoc]
  have hagree : (b.bishopsOn false || b.bishopsOn true) = true ↔ b.BishopsAgree := by
    rw [Bool.or_eq_true, bishopsOn_iff, bishopsOn_iff, BishopsAgree, Bool.exists_bool]
  rw [hasInsufficientMaterial]
  split_ifs with h1 h2 h3
  · rw [hheavy] at h1
    obtain ⟨role, hhas, htrue⟩ := h1
    simp only [false_iff, not_and]
    intro hlight
    rw [hlight role hhas] at htrue
    cases htrue
  all_goals
    rw [hheavy] at h1
    push Not at h1
    simp only [Bool.not_eq_true] at h1
  · rw [hrole] at h2
    rw [Bool.and_eq_true, decide_eq_true_eq, Bool.not_eq_true', ← Bool.not_eq_true, hothers]
    push Not
    constructor
    · rintro ⟨hcount, hothers⟩
      refine ⟨h1, fun _ ↦ ⟨hcount, fun color' role hhas hne ↦ ?_⟩, fun hnot ↦ absurd h2 hnot⟩
      by_cases hking : role = .king
      · exact .inl hking
      · exact .inr (hothers color' role hhas hne hking)
    · rintro ⟨-, hknight, -⟩
      obtain ⟨hcount, hothers⟩ := hknight h2
      exact ⟨hcount, fun color' role hhas hne hking ↦ (hothers color' role hhas hne).resolve_left hking⟩
  · rw [hrole] at h2 h3
    rw [Bool.and_eq_true, Bool.and_eq_true, hagree, Bool.not_eq_true', ← Bool.not_eq_true, hany,
      Bool.not_eq_true', ← Bool.not_eq_true, hany]
    push Not
    constructor
    · rintro ⟨⟨hbishops, hknights⟩, hpawns⟩
      exact ⟨h1, fun h ↦ absurd h h2, fun _ _ ↦ ⟨hbishops, fun color' ↦ ⟨hknights color', hpawns color'⟩⟩⟩
    · rintro ⟨-, -, hbishop⟩
      obtain ⟨hbishops, hothers⟩ := hbishop h2 h3
      exact ⟨⟨hbishops, fun color' ↦ (hothers color').1⟩, fun color' ↦ (hothers color').2⟩
  · rw [hrole] at h2 h3
    simp only [true_iff]
    exact ⟨h1, fun h ↦ absurd h h2, fun _ h ↦ absurd h h3⟩

theorem isInsufficientMaterial_iff {b : Board} :
    b.isInsufficientMaterial = true ↔ b.Insufficient := by
  rw [isInsufficientMaterial, Bool.and_eq_true, hasInsufficientMaterial_iff,
    hasInsufficientMaterial_iff]
  constructor
  · intro h
    have hboth : ∀ color, (∀ role, b.Has color role → heavy role = false) ∧
        (b.Has color .knight → (b.occupied color).card ≤ 2 ∧
          ∀ color' role, b.Has color' role → color' ≠ color → role = .king ∨ role = .queen) ∧
          (¬b.Has color .knight → b.Has color .bishop → b.BishopsAgree ∧
            ∀ color', ¬b.Has color' .knight ∧ ¬b.Has color' .pawn) := by
      intro color
      cases color with
      | white => exact h.1
      | black => exact h.2
    refine ⟨fun color ↦ (hboth color).1, fun color hknight ↦ ((hboth color).2.1 hknight).1,
      fun color hknight color' role hhas hne ↦ ?_, fun color hno hbishop ↦ ?_⟩
    · rcases ((hboth color).2.1 hknight).2 color' role hhas hne with hking | rfl
      · exact hking
      · cases (hboth color').1 _ hhas
    · obtain ⟨hagree, hothers⟩ := (hboth color).2.2 hno hbishop
      exact ⟨hagree, fun color' ↦ (hothers color').1⟩
  · intro h
    have hone : ∀ color, (∀ role, b.Has color role → heavy role = false) ∧
        (b.Has color .knight → (b.occupied color).card ≤ 2 ∧
          ∀ color' role, b.Has color' role → color' ≠ color → role = .king ∨ role = .queen) ∧
          (¬b.Has color .knight → b.Has color .bishop → b.BishopsAgree ∧
            ∀ color', ¬b.Has color' .knight ∧ ¬b.Has color' .pawn) := by
      intro color
      refine ⟨h.light color, fun hknight ↦ ⟨h.few color hknight, fun color' role hhas hne ↦
        .inl (h.alone color hknight color' role hhas hne)⟩, fun hno hbishop ↦ ?_⟩
      obtain ⟨hagree, hknights⟩ := h.bishops color hno hbishop
      refine ⟨hagree, fun color' ↦ ⟨hknights color', fun hpawn ↦ ?_⟩⟩
      cases h.light color' _ hpawn
    exact ⟨hone .white, hone .black⟩

/-- The pieces of `b'` are pieces of `b`, each bishop on its shade, and no side has more. -/
structure Fewer (b b' : Board) : Prop where
  has : ∀ color role, b'.Has color role → b.Has color role
  bishops : ∀ s color, b' s = some ⟨color, .bishop⟩ →
    ∃ s₀, b s₀ = some ⟨color, .bishop⟩ ∧ shade s₀ = shade s
  count : ∀ color, (b'.occupied color).card ≤ (b.occupied color).card

theorem three_le_card {b : Board} {color : Color} (hking : b.Has color .king)
    (hknight : b.Has color .knight) (hbishop : b.Has color .bishop) :
    3 ≤ (b.occupied color).card := by
  obtain ⟨s₁, h₁⟩ := hking
  obtain ⟨s₂, h₂⟩ := hknight
  obtain ⟨s₃, h₃⟩ := hbishop
  have hmem : ∀ {s role}, b s = some ⟨color, role⟩ → s ∈ b.occupied color := by
    intro s role hs
    rw [occupied, Finset.mem_filter]
    exact ⟨Finset.mem_univ _, by rw [hs]; simp⟩
  have h₁₂ : s₁ ≠ s₂ := by
    rintro rfl
    rw [h₁] at h₂
    cases h₂
  have h₁₃ : s₁ ≠ s₃ := by
    rintro rfl
    rw [h₁] at h₃
    cases h₃
  have h₂₃ : s₂ ≠ s₃ := by
    rintro rfl
    rw [h₂] at h₃
    cases h₃
  have hsubset : ({s₁, s₂, s₃} : Finset Square) ⊆ b.occupied color := by
    intro s hs
    simp only [Finset.mem_insert, Finset.mem_singleton] at hs
    rcases hs with rfl | rfl | rfl
    · exact hmem h₁
    · exact hmem h₂
    · exact hmem h₃
  have hcard : ({s₁, s₂, s₃} : Finset Square).card = 3 := Finset.card_eq_three.mpr
    ⟨s₁, s₂, s₃, h₁₂, h₁₃, h₂₃, rfl⟩
  rw [← hcard]
  exact Finset.card_le_card hsubset

/-- With fewer pieces the material stays insufficient. -/
theorem Insufficient.of_fewer {b b' : Board} (h : b.Insufficient) (hfewer : Fewer b b')
    (hkings : ∀ color, b.Has color .king) : b'.Insufficient where
  light := fun color role hhas ↦ h.light color role (hfewer.has color role hhas)
  few := fun color hknight ↦
    (hfewer.count color).trans (h.few color (hfewer.has color _ hknight))
  alone := fun color hknight color' role hhas hne ↦
    h.alone color (hfewer.has color _ hknight) color' role (hfewer.has color' role hhas) hne
  bishops := fun color _ hbishop ↦ by
    have hbishop := hfewer.has color _ hbishop
    have hno : ¬b.Has color .knight := by
      intro hknight
      have hthree := three_le_card (hkings color) hknight hbishop
      have hfew := h.few color hknight
      omega
    obtain ⟨⟨light, hlight⟩, hknights⟩ := h.bishops color hno hbishop
    refine ⟨⟨light, fun s color' hs ↦ ?_⟩, fun color' hknight ↦
      hknights color' (hfewer.has color' _ hknight)⟩
    obtain ⟨s₀, hs₀, hshade⟩ := hfewer.bishops s color' hs
    rw [← hshade]
    exact hlight s₀ color' hs₀

/-- Moving a piece that keeps its role leaves fewer pieces. -/
theorem fewer_move {b : Board} {source target : Square} {color : Color} {role : Role}
    (hsource : b source = some ⟨color, role⟩)
    (hshade : role = .bishop → shade source = shade target) :
    Fewer b (Function.update (Function.update b source none) target (some ⟨color, role⟩)) := by
  have hpiece : ∀ {s p},
      Function.update (Function.update b source none) target (some ⟨color, role⟩) s = some p →
        s = target ∧ p = ⟨color, role⟩ ∨ s ≠ source ∧ b s = some p := by
    intro s p hs
    by_cases htarget : s = target
    · subst htarget
      rw [Function.update_self] at hs
      cases hs
      exact .inl ⟨rfl, rfl⟩
    · rw [Function.update_of_ne htarget] at hs
      by_cases hne : s = source
      · subst hne
        rw [Function.update_self] at hs
        cases hs
      · rw [Function.update_of_ne hne] at hs
        exact .inr ⟨hne, hs⟩
  refine ⟨fun color' role' ⟨s, hs⟩ ↦ ?_, fun s color' hs ↦ ?_, fun color' ↦ ?_⟩
  · rcases hpiece hs with ⟨-, hp⟩ | ⟨-, hs⟩
    · cases hp
      exact ⟨source, hsource⟩
    · exact ⟨s, hs⟩
  · rcases hpiece hs with ⟨rfl, hp⟩ | ⟨-, hs⟩
    · cases hp
      exact ⟨source, hsource, hshade rfl⟩
    · exact ⟨s, hs, rfl⟩
  · by_cases hcolor : color' = color
    · subst hcolor
      have hmem : source ∈ b.occupied color' := by
        rw [occupied, Finset.mem_filter]
        exact ⟨Finset.mem_univ _, by rw [hsource]; simp⟩
      have hsubset : occupied
          (Function.update (Function.update b source none) target (some ⟨color', role⟩)) color' ⊆
            insert target ((b.occupied color').erase source) := by
        intro s hs
        rw [occupied, Finset.mem_filter] at hs
        obtain ⟨p, hp, hpc⟩ := (Option.any_eq_true _ _).mp hs.2
        rw [Finset.mem_insert, Finset.mem_erase, occupied, Finset.mem_filter]
        rcases hpiece hp with ⟨htarget, -⟩ | ⟨hne, hb⟩
        · exact .inl htarget
        · exact .inr ⟨hne, Finset.mem_univ _, (Option.any_eq_true _ _).mpr ⟨p, hb, hpc⟩⟩
      have hle := (Finset.card_le_card hsubset).trans (Finset.card_insert_le _ _)
      have herase := Finset.card_erase_add_one hmem
      omega
    · refine Finset.card_le_card fun s hs ↦ ?_
      rw [occupied, Finset.mem_filter] at hs ⊢
      obtain ⟨p, hp, hpc⟩ := (Option.any_eq_true _ _).mp hs.2
      rcases hpiece hp with ⟨-, rfl⟩ | ⟨-, hb⟩
      · exact absurd (of_decide_eq_true hpc).symm hcolor
      · exact ⟨Finset.mem_univ _, (Option.any_eq_true _ _).mpr ⟨p, hb, hpc⟩⟩

end Board

namespace Shakmaty

/-- Documented facts about the pieces of a position and its legal moves. -/
structure MaterialLaws (S : Shakmaty) : Prop where
  kings : ∀ p color, (S.board p).Has color .king
  promotes : ∀ p role source capture target promotion,
    .normal role source capture target (some promotion) ∈ S.legalMoves p → role = .pawn
  castles : ∀ p king rook, .castle king rook ∈ S.legalMoves p → (S.board p).Has (S.turn p) .rook
  bishops : ∀ p source capture target promotion,
    .normal .bishop source capture target promotion ∈ S.legalMoves p →
      Board.shade source = Board.shade target

/-- Legal moves keep the material insufficient. -/
theorem insufficient_play {S : Shakmaty} (laws : S.Laws) (material : S.MaterialLaws)
    {p : S.Chess} {m : Move} (hm : m ∈ S.legalMoves p)
    (h : (S.board p).isInsufficientMaterial = true) :
    (S.board (S.playUnchecked p m)).isInsufficientMaterial = true := by
  rw [Board.isInsufficientMaterial_iff] at h ⊢
  have hfits := laws.legal_fits p m hm
  rw [laws.board_play p m hm]
  cases m with
  | normal role source capture target promotion =>
      have hrole : Board.heavy role = false := h.light _ _ ⟨source, hfits.1⟩
      have hpromotion : promotion = none := by
        cases promotion with
        | none => rfl
        | some promotion =>
            rw [material.promotes p role source capture target promotion hm] at hrole
            cases hrole
      subst hpromotion
      refine h.of_fewer (Board.fewer_move hfits.1 fun hbishop ↦ ?_) (material.kings p)
      subst hbishop
      exact material.bishops p source capture target none hm
  | enPassant source target => cases h.light _ _ ⟨source, hfits.1⟩
  | castle king rook => cases h.light _ _ (material.castles p king rook hm)
  | put role target => exact hfits.elim

end Shakmaty

end EnCroissant

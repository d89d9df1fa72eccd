import EnCroissant.Library.MemoRecursion
import EnCroissant.Tree.Node

/-!
# Coverage of a repertoire

The coverage of a position is the share of the opponent's moves the repertoire
answers, computed by a memoised recursion over the positions of the repertoire.
A position on the call stack is seeded with full coverage, so the recursion ends
on a repetition; the values of positions that reach a repetition may depend on
which one was computed first, all others do not.
-/

namespace EnCroissant

open MemoRecursion

structure DbMove where
  move : Text
  white : ℕ
  draw : ℕ
  black : ℕ

def DbMove.games (m : DbMove) : ℕ := m.white + m.draw + m.black

structure DbData where
  moves : List DbMove
  total : ℕ

structure Coverage where
  coverage : ℚ
  missing : ℕ
  deriving DecidableEq

/-- What the coverage is computed from: the database result of each position and
the moves of the repertoire, with the position each leads to. -/
structure Repertoire where
  dbCache : List (Text × DbData)
  stateMoves : List (Text × List (Text × Text))
  orientation : Color
  minGames : ℕ

namespace Repertoire

variable (g : Repertoire)

def moves (boardFen : Text) : List DbMove :=
  ((g.dbCache.lookup boardFen).map DbData.moves).getD []

def total (boardFen : Text) : ℕ :=
  ((g.dbCache.lookup boardFen).map DbData.total).getD 0

def isUserTurn (boardFen : Text) : Bool :=
  (boardFen.splitOn ' ')[1]? ==
    some (match g.orientation with | .white => ['w'] | .black => ['b'])

def childFenMap (boardFen : Text) : List (Text × Text) :=
  (g.stateMoves.lookup boardFen).getD []

def significant (boardFen : Text) : List DbMove :=
  (g.moves boardFen).filter fun m ↦ m.games ≥ g.minGames

def sigTotal (boardFen : Text) : ℕ :=
  ((g.significant boardFen).map DbMove.games).sum

/-- The position a move of the opponent leads to, if the repertoire has it. -/
def answer (boardFen : Text) (m : DbMove) : Option Text :=
  match (g.childFenMap boardFen).lookup m.move with
  | none => none
  | some [] => none
  | some childFen => some childFen

/-- The best coverage among the positions the user can go to. -/
def userBody : List Text → ℚ → Body Text Coverage
  | [], maxCoverage => .done ⟨maxCoverage, 0⟩
  | childFen :: rest, maxCoverage =>
      .call childFen fun child ↦ userBody rest (max maxCoverage child.coverage)

/-- The coverage of the opponent's moves, weighted by how often they occur. -/
def opponentBody (boardFen : Text) :
    List DbMove → ℚ → ℕ → Bool → Body Text Coverage
  | [], weighted, maxMissing, fullyCovered =>
      .done ⟨if fullyCovered then 1 else weighted, maxMissing⟩
  | m :: rest, weighted, maxMissing, fullyCovered =>
      let freq : ℚ := m.games / g.sigTotal boardFen
      match g.answer boardFen m with
      | some childFen =>
          .call childFen fun child ↦
            opponentBody boardFen rest (weighted + freq * child.coverage) maxMissing
              (fullyCovered && child.coverage == 1)
      | none => opponentBody boardFen rest weighted (max maxMissing m.games) false

/-- The computation of one position. -/
def coverageBody (boardFen : Text) : Body Text Coverage :=
  if g.total boardFen < g.minGames then .done ⟨1, 0⟩
  else if g.isUserTurn boardFen then
    match g.childFenMap boardFen with
    | [] => .done ⟨0, g.total boardFen⟩
    | entry :: entries => userBody ((entry :: entries).map Prod.snd) 0
  else if g.sigTotal boardFen = 0 then .done ⟨1, 0⟩
  else g.opponentBody boardFen (g.significant boardFen) 0 0 true

/-- The value a position has while it is on the call stack. -/
def neutral : Coverage := ⟨1, 0⟩

def computeCoverageForFen (fuel : ℕ) (memo : Memo Text Coverage) (boardFen : Text) :
    Option (Memo Text Coverage × Coverage) :=
  eval neutral g.coverageBody fuel memo boardFen

/-- The positions the recursion can come to. -/
def positions (order : List Text) : List Text :=
  order ++ g.stateMoves.flatMap fun entry ↦ entry.2.map Prod.snd

/-- The memo after the cached positions were evaluated in an order; the fuel
suffices for every depth of calls. -/
def coverageMemo (order : List Text) : Option (Memo Text Coverage) :=
  evalAll neutral g.coverageBody ((g.positions order).length + 1) order fun _ ↦ none

/-- The positions whose coverage a position's own is computed from. -/
def continuations (boardFen : Text) : List Text :=
  if g.total boardFen < g.minGames then []
  else if g.isUserTurn boardFen then (g.childFenMap boardFen).map Prod.snd
  else if g.sigTotal boardFen = 0 then []
  else (g.significant boardFen).filterMap (g.answer boardFen)

theorem calls_userBody {children : List Text} {maxCoverage : ℚ} {key : Text} :
    Calls (userBody children maxCoverage) key ↔ key ∈ children := by
  induction children generalizing maxCoverage with
  | nil =>
      rw [userBody]
      exact ⟨(fun h ↦ by cases h), fun h ↦ by cases h⟩
  | cons childFen rest ih =>
      rw [userBody, List.mem_cons]
      constructor
      · intro h
        cases h with
        | head => exact Or.inl rfl
        | tail value h => exact Or.inr (ih.mp h)
      · rintro (rfl | h)
        · exact .head _ _
        · exact .tail neutral (ih.mpr h)

theorem calls_opponentBody {boardFen : Text} {ms : List DbMove} {weighted : ℚ}
    {maxMissing : ℕ} {fullyCovered : Bool} {key : Text} :
    Calls (g.opponentBody boardFen ms weighted maxMissing fullyCovered) key ↔
      key ∈ ms.filterMap (g.answer boardFen) := by
  induction ms generalizing weighted maxMissing fullyCovered with
  | nil =>
      rw [opponentBody]
      exact ⟨(fun h ↦ by cases h), fun h ↦ by cases h⟩
  | cons m rest ih =>
      rw [opponentBody]
      cases hanswer : g.answer boardFen m with
      | none =>
          rw [List.filterMap_cons_none hanswer]
          exact ih
      | some childFen =>
          rw [List.filterMap_cons_some hanswer, List.mem_cons]
          constructor
          · intro h
            cases h with
            | head => exact Or.inl rfl
            | tail value h => exact Or.inr (ih.mp h)
          · rintro (rfl | h)
            · exact .head _ _
            · exact .tail neutral (ih.mpr h)

/-- The recursion goes from a position to its continuations. -/
theorem edge_iff (boardFen key : Text) :
    Edge g.coverageBody boardFen key ↔ key ∈ g.continuations boardFen := by
  rw [Edge, coverageBody, continuations]
  by_cases htotal : g.total boardFen < g.minGames
  · rw [if_pos htotal, if_pos htotal]
    exact ⟨(fun h ↦ by cases h), fun h ↦ by cases h⟩
  · rw [if_neg htotal, if_neg htotal]
    by_cases huser : g.isUserTurn boardFen = true
    · rw [if_pos huser, if_pos huser]
      cases g.childFenMap boardFen with
      | nil => exact ⟨(fun h ↦ by cases h), fun h ↦ by cases h⟩
      | cons entry entries => exact calls_userBody
    · rw [if_neg huser, if_neg huser]
      by_cases hzero : g.sigTotal boardFen = 0
      · rw [if_pos hzero, if_pos hzero]
        exact ⟨(fun h ↦ by cases h), fun h ↦ by cases h⟩
      · rw [if_neg hzero, if_neg hzero]
        exact g.calls_opponentBody

theorem answer_mem {boardFen key : Text} {m : DbMove} (h : g.answer boardFen m = some key) :
    key ∈ (g.childFenMap boardFen).map Prod.snd := by
  rw [answer] at h
  cases hlookup : (g.childFenMap boardFen).lookup m.move with
  | none =>
      rw [hlookup] at h
      cases h
  | some childFen =>
      rw [hlookup] at h
      cases childFen with
      | nil => cases h
      | cons c cs =>
          cases h
          obtain ⟨before, after, hsplit, -⟩ := List.lookup_eq_some_iff.mp hlookup
          rw [hsplit]
          simp

theorem continuations_subset {boardFen key : Text} (h : key ∈ g.continuations boardFen) :
    key ∈ (g.childFenMap boardFen).map Prod.snd := by
  rw [continuations] at h
  split_ifs at h
  · cases h
  · exact h
  · cases h
  · obtain ⟨m, -, hm⟩ := List.mem_filterMap.mp h
    exact g.answer_mem hm

theorem continuations_positions (order : List Text) {boardFen key : Text}
    (h : key ∈ g.continuations boardFen) :
    key ∈ g.positions order := by
  have hmem := g.continuations_subset h
  rw [childFenMap] at hmem
  cases hlookup : g.stateMoves.lookup boardFen with
  | none =>
      rw [hlookup] at hmem
      cases hmem
  | some children =>
      rw [hlookup, Option.getD_some] at hmem
      obtain ⟨before, after, hsplit, -⟩ := List.lookup_eq_some_iff.mp hlookup
      rw [positions, List.mem_append, List.mem_flatMap]
      right
      refine ⟨(boardFen, children), ?_, hmem⟩
      rw [hsplit]
      simp

theorem edge_positions (order : List Text) :
    ∀ key ∈ (g.positions order).toFinset, ∀ key', Edge g.coverageBody key key' →
      key' ∈ (g.positions order).toFinset := by
  intro key _ key' hedge
  rw [List.mem_toFinset]
  exact g.continuations_positions order ((g.edge_iff key key').mp hedge)

/-- The evaluation returns, whatever the repertoire. -/
theorem coverageMemo_isSome (order : List Text) : (g.coverageMemo order).isSome := by
  apply evalAll_isSome (g.edge_positions order)
  · intro key hkey
    rw [List.mem_toFinset, positions, List.mem_append]
    exact Or.inl hkey
  · have hcard := (g.positions order).toFinset_card_le
    have hmissing : missing (g.positions order).toFinset (fun _ ↦ (none : Option Coverage)) ≤
        (g.positions order).toFinset.card := Finset.card_filter_le _ _
    omega

/-- The position cannot recur among the positions its coverage is computed from,
nor can any of these recur below itself. -/
def NoRepetitionBelow (boardFen : Text) : Prop :=
  ∀ key, Relation.ReflTransGen (fun a b ↦ b ∈ g.continuations a) boardFen key →
    ¬ Relation.TransGen (fun a b ↦ b ∈ g.continuations a) key key

theorem grounded_of_noRepetition {order : List Text} {boardFen : Text}
    (hmem : boardFen ∈ order) (h : g.NoRepetitionBelow boardFen) :
    Grounded g.coverageBody boardFen := by
  have hedge : (fun a b ↦ b ∈ g.continuations a) = Edge g.coverageBody := by
    funext a b
    exact propext (g.edge_iff a b).symm
  rw [NoRepetitionBelow, hedge] at h
  apply grounded_of_no_cycle (g.edge_positions order) _ h
  rw [List.mem_toFinset, positions, List.mem_append]
  exact Or.inl hmem

/-- The coverage of a position below which no position repeats does not depend
on the order in which the cached positions are evaluated. -/
theorem coverage_order_independent
    (order order' : List Text) (hperm : order.Perm order') (boardFen : Text)
    (hmem : boardFen ∈ order) (hrepeat : g.NoRepetitionBelow boardFen) :
    ∃ memo memo' coverage, g.coverageMemo order = some memo ∧
      g.coverageMemo order' = some memo' ∧ memo boardFen = some coverage ∧
      memo' boardFen = some coverage := by
  obtain ⟨memo, hmemo⟩ := Option.isSome_iff_exists.mp (g.coverageMemo_isSome order)
  obtain ⟨memo', hmemo'⟩ := Option.isSome_iff_exists.mp (g.coverageMemo_isSome order')
  have hgrounded := g.grounded_of_noRepetition hmem hrepeat
  exact ⟨memo, memo', exactValue neutral g.coverageBody boardFen, hmemo, hmemo',
    evalAll_exact hmemo hmem hgrounded,
    evalAll_exact hmemo' (hperm.mem_iff.mp hmem) hgrounded⟩

end Repertoire

namespace KnightRepetition

/-- The positions of `1. Nf3 Nf6 2. Ng1 Ng8`, which comes back to the first. -/
def start : Text := "rnbqkbnr/pppppppp/8/8/8/8/PPPPPPPP/RNBQKBNR w KQkq -".toList

def afterNf3 : Text := "rnbqkbnr/pppppppp/8/8/8/5N2/PPPPPPPP/RNBQKB1R b KQkq -".toList

def afterNf6 : Text := "rnbqkb1r/pppppppp/5n2/8/8/5N2/PPPPPPPP/RNBQKB1R w KQkq -".toList

def afterNg1 : Text := "rnbqkb1r/pppppppp/5n2/8/8/8/PPPPPPPP/RNBQKBNR b KQkq -".toList

def data (moves : List String) : DbData where
  moves := moves.map fun move ↦ ⟨move.toList, 10, 0, 0⟩
  total := 10 * moves.length

/-- White's repertoire has the repetition only, and Black also plays `1... d5`. -/
def repertoire : Repertoire where
  dbCache :=
    [(start, data ["Nf3"]), (afterNf3, data ["Nf6", "d5"]), (afterNf6, data ["Ng1"]),
      (afterNg1, data ["Ng8"])]
  stateMoves :=
    [(start, [("Nf3".toList, afterNf3)]), (afterNf3, [("Nf6".toList, afterNf6)]),
      (afterNf6, [("Ng1".toList, afterNg1)]), (afterNg1, [("Ng8".toList, start)])]
  orientation := .white
  minGames := 1

/-- On a repetition the value of a position depends on which one comes first. -/
theorem exists_order_dependent_coverage :
    ∃ order order' memo memo', order.Perm (repertoire.dbCache.map Prod.fst) ∧
      order'.Perm (repertoire.dbCache.map Prod.fst) ∧
      repertoire.coverageMemo order = some memo ∧
      repertoire.coverageMemo order' = some memo' ∧
      memo afterNf6 = some ⟨1, 0⟩ ∧ memo' afterNf6 = some ⟨1 / 2, 0⟩ := by
  have hfirst : (repertoire.coverageMemo [start, afterNf3, afterNf6, afterNg1]).bind
      (fun memo ↦ memo afterNf6) = some ⟨1, 0⟩ := by decide
  have hsecond : (repertoire.coverageMemo [afterNf6, start, afterNf3, afterNg1]).bind
      (fun memo ↦ memo afterNf6) = some ⟨1 / 2, 0⟩ := by decide +kernel
  obtain ⟨memo, hmemo, hvalue⟩ := Option.bind_eq_some_iff.mp hfirst
  obtain ⟨memo', hmemo', hvalue'⟩ := Option.bind_eq_some_iff.mp hsecond
  have hperm : [afterNf6, start, afterNf3, afterNg1].Perm
      [start, afterNf3, afterNf6, afterNg1] :=
    (List.Perm.swap start afterNf6 _).trans ((List.Perm.swap afterNf3 afterNf6 _).cons start)
  exact ⟨_, _, memo, memo', List.Perm.refl _, hperm, hmemo, hmemo', hvalue, hvalue'⟩

/-- The same repertoire without the way back. -/
def line : Repertoire :=
  { repertoire with
    stateMoves :=
      [(start, [("Nf3".toList, afterNf3)]), (afterNf3, [("Nf6".toList, afterNf6)])] }

def rank (boardFen : Text) : ℕ :=
  if boardFen == start then 2 else if boardFen == afterNf3 then 1 else 0

theorem rank_continuations {a b : Text} (h : b ∈ line.continuations a) : rank b < rank a := by
  have hmem := line.continuations_subset h
  have hlookup : line.stateMoves.lookup a =
      if a == start then some [("Nf3".toList, afterNf3)]
      else if a == afterNf3 then some [("Nf6".toList, afterNf6)] else none := by
    simp only [line, List.lookup]
    cases a == start <;> cases a == afterNf3 <;> rfl
  rw [Repertoire.childFenMap, hlookup] at hmem
  rw [rank, rank]
  by_cases hstart : (a == start) = true
  · rw [if_pos hstart] at hmem
    have hb : b = afterNf3 := by simpa using hmem
    rw [hb, if_pos hstart]
    decide
  · rw [if_neg hstart] at hmem
    by_cases hnf3 : (a == afterNf3) = true
    · rw [if_pos hnf3] at hmem
      have hb : b = afterNf6 := by simpa using hmem
      rw [hb, if_neg hstart, if_pos hnf3]
      decide
    · rw [if_neg hnf3] at hmem
      cases hmem

theorem noRepetitionBelow_line (boardFen : Text) : line.NoRepetitionBelow boardFen := by
  intro key _ hcycle
  have hless : ∀ a b, Relation.TransGen (fun a b ↦ b ∈ line.continuations a) a b →
      rank b < rank a := by
    intro a b h
    induction h with
    | single h => exact rank_continuations h
    | tail _ h ih => exact (rank_continuations h).trans ih
  exact lt_irrefl _ (hless key key hcycle)

theorem coverage_order_independent_line :
    ∃ memo memo' coverage, line.coverageMemo [start, afterNf3] = some memo ∧
      line.coverageMemo [afterNf3, start] = some memo' ∧ memo start = some coverage ∧
      memo' start = some coverage :=
  line.coverage_order_independent [start, afterNf3] [afterNf3, start]
    (List.Perm.swap _ _ _) start List.mem_cons_self (noRepetitionBelow_line start)

end KnightRepetition

end EnCroissant

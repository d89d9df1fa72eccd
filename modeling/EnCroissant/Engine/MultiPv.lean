import Mathlib

/-!
# The lines of a search with several variations

The engine reports its best lines one by one, numbered from one.  They are collected
until the last of them arrives.  A complete set is published if its lines have one
depth and it is not shallower than the set published before it.
-/

namespace EnCroissant.MultiPv

inductive ScoreValue where
  | cp (value : ℤ)
  | mate (value : ℤ)
  deriving DecidableEq, Repr

structure Score where
  value : ScoreValue
  wdl : Option (ℕ × ℕ × ℕ)
  lowerBound : Option Bool
  upperBound : Option Bool
  deriving DecidableEq, Repr

structure BestMoves where
  nodes : ℕ
  depth : ℕ
  score : Score
  uciMoves : List String
  sanMoves : List String
  multipv : ℕ
  nps : ℕ
  deriving DecidableEq, Repr

def scoreIsBound (score : Score) : Bool :=
  score.lowerBound == some true || score.upperBound == some true

/-- A set of lines taken out of the collector. -/
structure CompleteMultiPv where
  depth : ℕ
  nodes : ℕ
  publishable : Bool
  lines : List BestMoves
  deriving DecidableEq, Repr

/-- The collector after a line, and the set that the line completes. -/
def ingestInfoLine (collected : List BestMoves) (lastDepth realMultipv : ℕ) (line : BestMoves) :
    List BestMoves × Option CompleteMultiPv :=
  if scoreIsBound line.score then (collected, none)
  else if line.multipv ≠ collected.length + 1 then (collected, none)
  else
    let collected := collected ++ [line]
    if line.multipv ≠ realMultipv then (collected, none)
    else
      let publishable :=
        collected.all (fun x ↦ x.depth == line.depth) && decide (lastDepth ≤ line.depth)
      ([], some ⟨line.depth, line.nodes, publishable, collected⟩)

/-! ## The search loop -/

/-- What a search knows of its lines, and the sets that were completed and published so far. -/
structure SearchLines where
  bestMoves : List BestMoves
  lastDepth : ℕ
  completed : List CompleteMultiPv
  published : List CompleteMultiPv

/-- The lines at the start of a search.  A warm engine may come with a depth. -/
def SearchLines.start (lastDepth : ℕ) : SearchLines := ⟨[], lastDepth, [], []⟩

/-- A line of the engine, and whether its search may still publish when it is read. -/
structure InfoLine where
  line : BestMoves
  live : Bool

def processLine (realMultipv : ℕ) (s : SearchLines) (info : InfoLine) : SearchLines :=
  match ingestInfoLine s.bestMoves s.lastDepth realMultipv info.line with
  | (collected, none) => { s with bestMoves := collected }
  | (collected, some set) =>
      let s := { s with bestMoves := collected, completed := s.completed ++ [set] }
      if set.publishable && info.live then
        { s with lastDepth := set.depth, published := s.published ++ [set] }
      else s

def processLines (realMultipv : ℕ) (s : SearchLines) (infos : List InfoLine) : SearchLines :=
  infos.foldl (processLine realMultipv) s

/-! ## What is kept line by line -/

/-- Exact lines, numbered in order from one. -/
structure Numbered (lines : List BestMoves) : Prop where
  numbers : lines.map BestMoves.multipv = List.range' 1 lines.length
  exact : ∀ line ∈ lines, scoreIsBound line.score = false

theorem numbered_nil : Numbered [] := ⟨rfl, fun _ h ↦ nomatch h⟩

theorem Numbered.concat {lines : List BestMoves} (h : Numbered lines) {line : BestMoves}
    (hexact : scoreIsBound line.score = false) (hnumber : line.multipv = lines.length + 1) :
    Numbered (lines ++ [line]) where
  numbers := by
    rw [List.map_append, h.numbers, List.length_append, List.length_singleton,
      List.range'_concat, List.map_singleton, hnumber, Nat.one_mul, Nat.add_comm 1]
  exact := by
    intro line' hline'
    rcases List.mem_append.mp hline' with hline' | hline'
    · exact h.exact line' hline'
    · rw [List.mem_singleton.mp hline']
      exact hexact

/-- What a line can do to the collector. -/
inductive Ingests (realMultipv lastDepth : ℕ) (collected : List BestMoves) (line : BestMoves) :
    List BestMoves × Option CompleteMultiPv → Prop
  | dropped (reason : scoreIsBound line.score = true ∨ line.multipv ≠ collected.length + 1) :
      Ingests realMultipv lastDepth collected line (collected, none)
  | collects (exact : scoreIsBound line.score = false)
      (number : line.multipv = collected.length + 1) (more : line.multipv ≠ realMultipv) :
      Ingests realMultipv lastDepth collected line (collected ++ [line], none)
  | completes (exact : scoreIsBound line.score = false)
      (number : line.multipv = collected.length + 1) (last : line.multipv = realMultipv)
      {publishable : Bool}
      (publish : publishable = true ↔
        (∀ other ∈ collected, other.depth = line.depth) ∧ lastDepth ≤ line.depth) :
      Ingests realMultipv lastDepth collected line
        ([], some ⟨line.depth, line.nodes, publishable, collected ++ [line]⟩)

theorem ingests_ingestInfoLine (realMultipv lastDepth : ℕ) (collected : List BestMoves)
    (line : BestMoves) :
    Ingests realMultipv lastDepth collected line
      (ingestInfoLine collected lastDepth realMultipv line) := by
  rw [ingestInfoLine]
  cases hbound : scoreIsBound line.score with
  | true => exact .dropped (.inl hbound)
  | false =>
      rw [if_neg Bool.false_ne_true]
      by_cases hnumber : line.multipv = collected.length + 1
      · rw [if_neg (not_not_intro hnumber)]
        by_cases hlast : line.multipv = realMultipv
        · rw [if_neg (not_not_intro hlast)]
          apply Ingests.completes hbound hnumber hlast
          simp
        · rw [if_pos hlast]
          exact .collects hbound hnumber hlast
      · rw [if_pos hnumber]
        exact .dropped (.inr hnumber)

/-- A complete set: all lines of the search, exact and in order. -/
structure Full (realMultipv : ℕ) (set : CompleteMultiPv) : Prop where
  numbered : Numbered set.lines
  length : set.lines.length = realMultipv

/-- What holds after every line of a search that began at some depth. -/
structure Coherent (realMultipv firstDepth : ℕ) (s : SearchLines) : Prop where
  short : s.bestMoves.length < realMultipv
  numbered : Numbered s.bestMoves
  full : ∀ set ∈ s.completed, Full realMultipv set
  published : s.published.Sublist s.completed
  single : ∀ set ∈ s.published, ∀ line ∈ set.lines, line.depth = set.depth
  rising : (firstDepth :: s.published.map CompleteMultiPv.depth).Pairwise (· ≤ ·)
  reached : ∀ depth ∈ firstDepth :: s.published.map CompleteMultiPv.depth, depth ≤ s.lastDepth

theorem coherent_start {realMultipv : ℕ} (h : 1 ≤ realMultipv) (lastDepth : ℕ) :
    Coherent realMultipv lastDepth (.start lastDepth) where
  short := h
  numbered := numbered_nil
  full := fun _ h ↦ nomatch h
  published := List.Sublist.refl _
  single := fun _ h ↦ nomatch h
  rising := List.pairwise_singleton _ _
  reached := fun _ h ↦ (List.mem_singleton.mp h).le

section

variable {realMultipv firstDepth : ℕ} {s : SearchLines}

theorem Coherent.collected (h : Coherent realMultipv firstDepth s) {collected : List BestMoves}
    (hshort : collected.length < realMultipv) (hnumbered : Numbered collected) :
    Coherent realMultipv firstDepth { s with bestMoves := collected } :=
  { h with short := hshort, numbered := hnumbered }

theorem Coherent.complete (h : Coherent realMultipv firstDepth s) {set : CompleteMultiPv}
    (hset : Full realMultipv set) :
    Coherent realMultipv firstDepth { s with completed := s.completed ++ [set] } where
  short := h.short
  numbered := h.numbered
  full := by
    intro set' hset'
    rcases List.mem_append.mp hset' with hset' | hset'
    · exact h.full set' hset'
    · rw [List.mem_singleton.mp hset']
      exact hset
  published := h.published.trans (List.sublist_append_left _ _)
  single := h.single
  rising := h.rising
  reached := h.reached

theorem Coherent.publish (h : Coherent realMultipv firstDepth s) {set : CompleteMultiPv}
    (hset : Full realMultipv set) (hsingle : ∀ line ∈ set.lines, line.depth = set.depth)
    (hdepth : s.lastDepth ≤ set.depth) :
    Coherent realMultipv firstDepth
      { s with
        completed := s.completed ++ [set]
        lastDepth := set.depth
        published := s.published ++ [set] } where
  short := h.short
  numbered := h.numbered
  full := (h.complete hset).full
  published := h.published.append (List.Sublist.refl _)
  single := by
    intro set' hset'
    rcases List.mem_append.mp hset' with hset' | hset'
    · exact h.single set' hset'
    · rw [List.mem_singleton.mp hset']
      exact hsingle
  rising := by
    rw [List.map_append, List.map_singleton, ← List.cons_append, List.pairwise_append]
    refine ⟨h.rising, List.pairwise_singleton _ _, fun depth hdepth' last hlast ↦ ?_⟩
    rw [List.mem_singleton.mp hlast]
    exact (h.reached depth hdepth').trans hdepth
  reached := by
    rw [List.map_append, List.map_singleton, ← List.cons_append]
    intro depth hdepth'
    rcases List.mem_append.mp hdepth' with hdepth' | hdepth'
    · exact (h.reached depth hdepth').trans hdepth
    · exact (List.mem_singleton.mp hdepth').le

theorem coherent_processLine (h : Coherent realMultipv firstDepth s) (info : InfoLine) :
    Coherent realMultipv firstDepth (processLine realMultipv s info) := by
  have hingests := ingests_ingestInfoLine realMultipv s.lastDepth s.bestMoves info.line
  rw [processLine]
  generalize ingestInfoLine s.bestMoves s.lastDepth realMultipv info.line = ingested at hingests
  cases hingests with
  | dropped reason => exact h
  | collects exact number more =>
      apply h.collected ?_ (h.numbered.concat exact number)
      rw [List.length_append, List.length_singleton, ← number]
      have hshort := h.short
      omega
  | @completes exact number last publishable publish =>
      have hempty : Coherent realMultipv firstDepth { s with bestMoves := [] } :=
        h.collected (Nat.zero_lt_of_lt h.short) numbered_nil
      have hfull : Full realMultipv
          ⟨info.line.depth, info.line.nodes, publishable, s.bestMoves ++ [info.line]⟩ := by
        refine ⟨h.numbered.concat exact number, ?_⟩
        rw [List.length_append, List.length_singleton, ← number, last]
      dsimp only
      split_ifs with hpublished
      · obtain ⟨hsame, hdepth⟩ := publish.mp (Bool.and_eq_true_iff.mp hpublished).1
        apply hempty.publish hfull ?_ hdepth
        intro line hline
        rcases List.mem_append.mp hline with hline | hline
        · exact hsame line hline
        · rw [List.mem_singleton.mp hline]
      · exact hempty.complete hfull

theorem coherent_processLines (h : Coherent realMultipv firstDepth s) (infos : List InfoLine) :
    Coherent realMultipv firstDepth (processLines realMultipv s infos) := by
  induction infos generalizing s with
  | nil => exact h
  | cons info infos ih => exact ih (coherent_processLine h info)

/-! ## A pass over all lines -/

/-- The exact lines of one depth, one after the other, while the search may publish. -/
structure ExactPass (realMultipv depth : ℕ) (pass : List InfoLine) : Prop where
  numbered : Numbered (pass.map InfoLine.line)
  length : pass.length = realMultipv
  depth : ∀ info ∈ pass, info.line.depth = depth
  live : ∀ info ∈ pass, info.live = true

/-- The end of such a pass: the lines that were left over are completed from it, and the
set is published if those had the depth of the pass. -/
structure Completes (depth : ℕ) (rest : List BestMoves) (s s' : SearchLines) : Prop where
  collected : s'.bestMoves = []
  completed : ∃ set : CompleteMultiPv, set.lines = s.bestMoves ++ rest ∧ set.depth = depth ∧
    s'.completed = s.completed ++ [set] ∧
    s'.published =
      if ∀ line ∈ s.bestMoves, line.depth = depth then s.published ++ [set] else s.published

theorem processLine_dropped {info : InfoLine} (h : info.line.multipv ≠ s.bestMoves.length + 1) :
    processLine realMultipv s info = s := by
  have hingests := ingests_ingestInfoLine realMultipv s.lastDepth s.bestMoves info.line
  rw [processLine]
  generalize ingestInfoLine s.bestMoves s.lastDepth realMultipv info.line = ingested at hingests
  cases hingests with
  | dropped reason => rfl
  | collects exact number more => exact absurd number h
  | completes exact number last publish => exact absurd number h

theorem processLine_collects {info : InfoLine} (hexact : scoreIsBound info.line.score = false)
    (hnumber : info.line.multipv = s.bestMoves.length + 1)
    (hmore : info.line.multipv ≠ realMultipv) :
    processLine realMultipv s info = { s with bestMoves := s.bestMoves ++ [info.line] } := by
  rw [processLine, ingestInfoLine, hexact, if_neg Bool.false_ne_true,
    if_neg (not_not_intro hnumber), if_pos hmore]

theorem processLine_completes {info : InfoLine} (hexact : scoreIsBound info.line.score = false)
    (hnumber : info.line.multipv = s.bestMoves.length + 1)
    (hlast : info.line.multipv = realMultipv) (hdepth : s.lastDepth ≤ info.line.depth)
    (hlive : info.live = true) :
    Completes info.line.depth [info.line] s (processLine realMultipv s info) := by
  have hingests := ingests_ingestInfoLine realMultipv s.lastDepth s.bestMoves info.line
  rw [processLine]
  generalize ingestInfoLine s.bestMoves s.lastDepth realMultipv info.line = ingested at hingests
  cases hingests with
  | dropped reason =>
      rcases reason with hbound | hother
      · rw [hexact] at hbound
        cases hbound
      · exact absurd hnumber hother
  | collects exact number more => exact absurd hlast more
  | @completes exact number last publishable publish =>
      have hpublish : publishable = true ↔ ∀ line ∈ s.bestMoves, line.depth = info.line.depth :=
        publish.trans (and_iff_left hdepth)
      dsimp only
      rw [hlive, Bool.and_true]
      split_ifs with hpublished
      · refine ⟨rfl, _, rfl, rfl, rfl, ?_⟩
        rw [if_pos (hpublish.mp hpublished)]
      · refine ⟨rfl, _, rfl, rfl, rfl, ?_⟩
        rw [if_neg (mt hpublish.mpr hpublished)]

/-- The lines of a pass from some number on.  Those up to the last line that was left over
are dropped, the others are collected. -/
theorem completes_tail {number depth : ℕ} {infos : List InfoLine}
    (hnumbers : infos.map (fun info ↦ info.line.multipv) = List.range' number infos.length)
    (hend : number + infos.length = realMultipv + 1)
    (hexact : ∀ info ∈ infos, scoreIsBound info.line.score = false)
    (hdepths : ∀ info ∈ infos, info.line.depth = depth)
    (hlive : ∀ info ∈ infos, info.live = true)
    (hnumber : number ≤ s.bestMoves.length + 1) (hshort : s.bestMoves.length < realMultipv)
    (hdepth : s.lastDepth ≤ depth) :
    Completes depth
      ((infos.map InfoLine.line).drop (s.bestMoves.length + 1 - number)) s
      (processLines realMultipv s infos) := by
  induction infos generalizing number s with
  | nil =>
      rw [List.length_nil] at hend
      omega
  | cons info infos ih =>
      rw [List.map_cons, List.length_cons, List.range'_succ, List.cons.injEq] at hnumbers
      rw [List.length_cons] at hend
      obtain ⟨hfirst, hrest⟩ := hnumbers
      have hexact' := fun info' hinfo ↦ hexact info' (List.mem_cons_of_mem _ hinfo)
      have hdepths' := fun info' hinfo ↦ hdepths info' (List.mem_cons_of_mem _ hinfo)
      have hlive' := fun info' hinfo ↦ hlive info' (List.mem_cons_of_mem _ hinfo)
      rw [processLines, List.foldl_cons, ← processLines]
      rcases Nat.lt_or_eq_of_le hnumber with hdropped | hcollected
      · rw [processLine_dropped (by omega)]
        have hcount : s.bestMoves.length + 1 - number = s.bestMoves.length + 1 - (number + 1) + 1 := by
          omega
        rw [hcount, List.map_cons, List.drop_succ_cons]
        exact ih hrest (by omega) hexact' hdepths' hlive' hdropped hshort hdepth
      · rw [← hcollected, Nat.sub_self, List.drop_zero]
        have hthis := hexact info (List.mem_cons_self ..)
        have hdepth' := hdepths info (List.mem_cons_self ..)
        rw [hcollected] at hfirst
        by_cases hlast : info.line.multipv = realMultipv
        · -- The last line of the pass.
          have hnone : infos = [] := by
            apply List.eq_nil_of_length_eq_zero
            omega
          have hcompletes := processLine_completes hthis hfirst hlast (hdepth' ▸ hdepth)
            (hlive info (List.mem_cons_self ..))
          rw [hdepth'] at hcompletes
          rw [hnone]
          exact hcompletes
        · rw [processLine_collects hthis hfirst hlast]
          have hlength : (s.bestMoves ++ [info.line]).length = s.bestMoves.length + 1 := by
            rw [List.length_append, List.length_singleton]
          have hshort' : (s.bestMoves ++ [info.line]).length < realMultipv := by omega
          have hnumber' : number + 1 ≤ (s.bestMoves ++ [info.line]).length + 1 := by omega
          obtain ⟨hempty, set, hlines, hset, hcomplete, hpublish⟩ :=
            @ih { s with bestMoves := s.bestMoves ++ [info.line] } (number + 1) hrest (by omega)
              hexact' hdepths' hlive' hnumber' hshort' hdepth
          refine ⟨hempty, set, ?_, hset, hcomplete, ?_⟩
          · dsimp only at hlines
            rw [hlines, hlength, hcollected, Nat.sub_self, List.drop_zero, List.append_assoc]
            rfl
          · rw [hpublish]
            simp only [List.forall_mem_append, List.forall_mem_singleton, hdepth', and_true]

theorem Coherent.completes_pass (h : Coherent realMultipv firstDepth s) {depth : ℕ}
    {pass : List InfoLine} (hpass : ExactPass realMultipv depth pass)
    (hdepth : s.lastDepth ≤ depth) :
    Completes depth ((pass.map InfoLine.line).drop s.bestMoves.length) s
      (processLines realMultipv s pass) := by
  have hnumbers : pass.map (fun info ↦ info.line.multipv) = List.range' 1 pass.length := by
    have hnumbers := hpass.numbered.numbers
    rwa [List.map_map, List.length_map] at hnumbers
  apply completes_tail hnumbers (by rw [hpass.length, Nat.add_comm])
  · exact fun info hinfo ↦ hpass.numbered.exact _ (List.mem_map_of_mem hinfo)
  · exact hpass.depth
  · exact hpass.live
  · exact Nat.le_add_left _ _
  · exact h.short
  · exact hdepth

end

/-- What a search collects, completes and publishes is coherent after every line.  A pass
over all lines at a depth that is not below the last one completes the set that was begun
before it; a set that was begun at another depth is not published, and the pass with it. -/
theorem search_publishes_coherent_sets {realMultipv : ℕ} (h : 1 ≤ realMultipv) (lastDepth : ℕ)
    (infos : List InfoLine) :
    let s := processLines realMultipv (.start lastDepth) infos
    (s.bestMoves.length < realMultipv ∧ Numbered s.bestMoves) ∧
      (∀ set ∈ s.completed, Full realMultipv set) ∧
      (∀ set ∈ s.published, set ∈ s.completed ∧ ∀ line ∈ set.lines, line.depth = set.depth) ∧
      (lastDepth :: s.published.map CompleteMultiPv.depth).Pairwise (· ≤ ·) ∧
      ∀ depth pass, ExactPass realMultipv depth pass → s.lastDepth ≤ depth →
        Completes depth ((pass.map InfoLine.line).drop s.bestMoves.length) s
            (processLines realMultipv s pass) ∧
          (s.bestMoves = [] → ∃ set, set.lines = pass.map InfoLine.line ∧
            (processLines realMultipv s pass).published = s.published ++ [set]) := by
  intro s
  have hs : Coherent realMultipv lastDepth s :=
    coherent_processLines (coherent_start h lastDepth) infos
  refine ⟨⟨hs.short, hs.numbered⟩, hs.full, fun set hset ↦ ?_, hs.rising, ?_⟩
  · exact ⟨hs.published.subset hset, hs.single set hset⟩
  · intro depth pass hpass hdepth
    have hcompletes := hs.completes_pass hpass hdepth
    refine ⟨hcompletes, fun hempty ↦ ?_⟩
    obtain ⟨set, hlines, -, -, hpublished⟩ := hcompletes.completed
    rw [hempty, List.length_nil, List.drop_zero, List.nil_append] at hlines
    rw [hempty, if_pos fun line hline ↦ nomatch hline] at hpublished
    exact ⟨set, hlines, hpublished⟩

namespace TwoLines

/-- An exact line of a search. -/
def infoLine (depth multipv : ℕ) : InfoLine where
  line := ⟨100, depth, ⟨.cp 20, none, none, none⟩, ["e2e4"], ["e4"], multipv, 1000⟩
  live := true

/-- Both lines at depth 6. -/
def pass : List InfoLine := [infoLine 6 1, infoLine 6 2]

theorem exactPass : ExactPass 2 6 pass := by
  refine ⟨⟨rfl, ?_⟩, rfl, ?_, ?_⟩ <;> decide

theorem search_publishes_pass :
    1 ≤ 2 ∧ ExactPass 2 6 pass ∧ ∃ set, set.lines = pass.map InfoLine.line ∧
      (processLines 2 (.start 5) pass).published = [set] := by
  have hsets := search_publishes_coherent_sets (show 1 ≤ 2 by decide) 5 []
  obtain ⟨-, -, -, -, hpass⟩ := hsets
  exact ⟨by decide, exactPass, (hpass 6 pass exactPass (by decide)).2 rfl⟩

/-- The first line of depth 5 is still there when both lines of depth 6 arrive. -/
theorem pass_after_left_over_line :
    ¬ ∀ realMultipv : ℕ, 1 ≤ realMultipv → ∀ (lastDepth : ℕ) (infos : List InfoLine) depth pass,
      ExactPass realMultipv depth pass →
      (processLines realMultipv (.start lastDepth) infos).lastDepth ≤ depth →
      ∃ set ∈ (processLines realMultipv (.start lastDepth) (infos ++ pass)).published,
        set.lines = pass.map InfoLine.line := by
  intro h
  obtain ⟨set, hset, -⟩ := h 2 (by decide) 0 [infoLine 5 1] 6 pass exactPass (by decide)
  have hnone : (processLines 2 (.start 0) ([infoLine 5 1] ++ pass)).published = [] := rfl
  rw [hnone] at hset
  cases hset

end TwoLines

end EnCroissant.MultiPv

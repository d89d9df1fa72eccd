import EnCroissant.Tree.CommentRender

/-!
# Cutting marks down

Each mark of emphasis is cut down on its own.  What it reads of the other marks are the
links, which stay; so the runs of one mark are settled once and for all.
-/

namespace EnCroissant.CommentSerializer

open Runs

/-! ## What a run keeps -/

theorem getElem?_of_firstKept {flanking : List Bool} :
    ∀ {first : ℕ}, firstKept flanking = some first → flanking[first]? = some false := by
  induction flanking with
  | nil =>
      intro first h
      cases h
  | cons blank rest ih =>
      intro first h
      cases blank with
      | false =>
          cases h
          rfl
      | true =>
          obtain ⟨later, hlater, rfl⟩ := Option.map_eq_some_iff.mp h
          exact ih hlater

theorem firstKept_le {flanking : List Bool} :
    ∀ {i : ℕ}, flanking[i]? = some false → ∃ first ≤ i, firstKept flanking = some first := by
  induction flanking with
  | nil =>
      intro i h
      cases h
  | cons blank rest ih =>
      intro i h
      cases blank with
      | false => exact ⟨0, Nat.zero_le i, rfl⟩
      | true =>
          cases i with
          | zero => cases h
          | succ i =>
              obtain ⟨first, hle, hfirst⟩ := ih h
              exact ⟨first + 1, Nat.succ_le_succ hle, by rw [firstKept, hfirst]; rfl⟩

theorem getElem?_of_lastKept {flanking : List Bool} :
    ∀ {last : ℕ}, lastKept flanking = some last → flanking[last]? = some false := by
  induction flanking with
  | nil =>
      intro last h
      cases h
  | cons blank rest ih =>
      intro last h
      rw [lastKept] at h
      cases hrest : lastKept rest with
      | some later =>
          rw [hrest] at h
          cases h
          exact ih hrest
      | none =>
          rw [hrest] at h
          cases blank with
          | false =>
              cases h
              rfl
          | true => cases h

theorem le_lastKept {flanking : List Bool} :
    ∀ {i : ℕ}, flanking[i]? = some false → ∃ last, i ≤ last ∧ lastKept flanking = some last := by
  induction flanking with
  | nil =>
      intro i h
      cases h
  | cons blank rest ih =>
      intro i h
      cases i with
      | zero =>
          cases h
          rw [lastKept]
          cases lastKept rest with
          | some later => exact ⟨later + 1, Nat.zero_le _, rfl⟩
          | none => exact ⟨0, le_rfl, rfl⟩
      | succ i =>
          obtain ⟨last, hle, hlast⟩ := ih h
          exact ⟨last + 1, Nat.succ_le_succ hle, by rw [lastKept, hlast]⟩

/-- What a run keeps stands between two characters that are no flanking blanks. -/
theorem isOutside_eq_false_iff {flanking : List Bool} {offset : ℕ} :
    isOutside flanking offset = false ↔ ∃ first last, first ≤ offset ∧ offset ≤ last ∧
      flanking[first]? = some false ∧ flanking[last]? = some false := by
  constructor
  · intro h
    rw [isOutside] at h
    cases hfirst : firstKept flanking with
    | none =>
        rw [hfirst] at h
        cases h
    | some first =>
        cases hlast : lastKept flanking with
        | none =>
            rw [hfirst, hlast] at h
            cases h
        | some last =>
            rw [hfirst, hlast] at h
            simp only [Bool.or_eq_false_iff, decide_eq_false_iff_not, not_lt] at h
            exact ⟨first, last, h.1, h.2, getElem?_of_firstKept hfirst,
              getElem?_of_lastKept hlast⟩
  · rintro ⟨i, j, hi, hj, hkept, hkept'⟩
    obtain ⟨first, hle, hfirst⟩ := firstKept_le hkept
    obtain ⟨last, hle', hlast⟩ := le_lastKept hkept'
    rw [isOutside, hfirst, hlast]
    simp only [Bool.or_eq_false_iff, decide_eq_false_iff_not, not_lt]
    omega

/-- The flanking blanks of a run, by offset. -/
def flankingOf (characters : List Character) (mark : Mark) (run : ℕ × ℕ) : List Bool :=
  (List.range (run.2 - run.1)).map fun offset ↦ isFlanking characters mark (run.1 + offset)

theorem getElem?_flankingOf {characters : List Character} {mark : Mark} {run : ℕ × ℕ}
    {offset : ℕ} : (flankingOf characters mark run)[offset]? = some false ↔
      run.1 + offset < run.2 ∧ isFlanking characters mark (run.1 + offset) = false := by
  rw [flankingOf, List.getElem?_map, Option.map_eq_some_iff]
  constructor
  · rintro ⟨i, hi, hflanking⟩
    obtain ⟨hlt, rfl⟩ := List.getElem?_eq_some_iff.mp hi
    rw [List.length_range] at hlt
    rw [List.getElem_range] at hflanking
    exact ⟨by omega, hflanking⟩
  · rintro ⟨hlt, hflanking⟩
    exact ⟨offset, List.getElem?_range (by omega), hflanking⟩

theorem isOutside_flankingOf {characters : List Character} {mark : Mark} {run : ℕ × ℕ} {i : ℕ}
    (hi : run.1 ≤ i) :
    isOutside (flankingOf characters mark run) (i - run.1) = false ↔
      ∃ first last, run.1 ≤ first ∧ first ≤ i ∧ i ≤ last ∧ last < run.2 ∧
        isFlanking characters mark first = false ∧ isFlanking characters mark last = false := by
  rw [isOutside_eq_false_iff]
  constructor
  · rintro ⟨first, last, hfirst, hlast, hkept, hkept'⟩
    obtain ⟨-, hflanking⟩ := getElem?_flankingOf.mp hkept
    obtain ⟨hlt, hflanking'⟩ := getElem?_flankingOf.mp hkept'
    exact ⟨run.1 + first, run.1 + last, by omega, by omega, by omega, hlt, hflanking, hflanking'⟩
  · rintro ⟨first, last, hrun, hfirst, hlast, hlt, hflanking, hflanking'⟩
    refine ⟨first - run.1, last - run.1, by omega, by omega, getElem?_flankingOf.mpr ?_,
      getElem?_flankingOf.mpr ?_⟩
    · rw [Nat.add_sub_cancel' hrun]
      exact ⟨by omega, hflanking⟩
    · rw [Nat.add_sub_cancel' (by omega)]
      exact ⟨hlt, hflanking'⟩

/-! ## What stays when a mark is cut down -/

theorem forall₂_trans {α : Type*} {R : α → α → Prop} (htrans : ∀ a b c, R a b → R b c → R a c)
    {as bs cs : List α} (h : List.Forall₂ R as bs) (h' : List.Forall₂ R bs cs) :
    List.Forall₂ R as cs := by
  induction h generalizing cs with
  | nil =>
      cases h'
      exact List.Forall₂.nil
  | cons hab _ ih =>
      cases h' with
      | cons hbc hrest => exact List.Forall₂.cons (htrans _ _ _ hab hbc) (ih hrest)

/-- Some characters are without a mark. -/
def Thinned (mark : Mark) (characters thinned : List Character) : Prop :=
  List.Forall₂ (fun c d ↦ d = c ∨ d = c.without mark) characters thinned

theorem Thinned.refl (mark : Mark) (characters : List Character) :
    Thinned mark characters characters :=
  List.forall₂_same.mpr fun _ _ ↦ .inl rfl

theorem without_without (mark : Mark) (c : Character) :
    (c.without mark).without mark = c.without mark := by
  rw [Character.without, Character.without, List.filter_filter]
  simp

theorem Thinned.trans {mark : Mark} {characters thinned later : List Character}
    (h : Thinned mark characters thinned) (h' : Thinned mark thinned later) :
    Thinned mark characters later := by
  refine forall₂_trans ?_ h h'
  rintro c d e hcd (rfl | rfl)
  · exact hcd
  · rcases hcd with rfl | rfl
    · exact .inr rfl
    · exact .inr (without_without _ _)

theorem thinned_mapIdx (mark : Mark) (characters : List Character) (test : ℕ → Character → Bool) :
    Thinned mark characters
      (characters.mapIdx fun index c ↦ if test index c then c.without mark else c) := by
  refine List.forall₂_iff_get.mpr ⟨by simp, fun i hi hi' ↦ ?_⟩
  simp only [List.get_eq_getElem, List.getElem_mapIdx]
  split_ifs
  · exact .inr rfl
  · exact .inl rfl

theorem thinned_breakLines (mark : Mark) (characters : List Character) :
    Thinned mark characters (breakLines mark characters) := by
  rw [breakLines]
  split_ifs
  · rw [Thinned, List.forall₂_map_right_iff]
    refine List.forall₂_same.mpr fun c _ ↦ ?_
    split_ifs
    · exact .inr rfl
    · exact .inl rfl
  · exact Thinned.refl mark characters

theorem thinned_foldl (mark : Mark) (found : List (ℕ × ℕ)) (characters : List Character) :
    Thinned mark characters (found.foldl (trimRun mark) characters) := by
  induction found generalizing characters with
  | nil => exact Thinned.refl mark characters
  | cons run found ih =>
      rw [List.foldl_cons]
      exact (thinned_mapIdx mark characters _).trans (ih _)

theorem thinned_normalizeMark (characters : List Character) (mark : Mark) :
    Thinned mark characters (normalizeMark characters mark) :=
  (thinned_breakLines mark characters).trans (thinned_foldl mark _ _)

/-- What the blanks of a mark depend on: the text and the links. -/
def frame (characters : List Character) : List (Char × List Mark) :=
  characters.map fun c ↦ (c.text, c.marks.filter Mark.isLink)

theorem Thinned.frame_eq {mark : Mark} (hmark : mark.isLink = false)
    {characters thinned : List Character} (h : Thinned mark characters thinned) :
    frame thinned = frame characters := by
  induction h with
  | nil => rfl
  | cons hcd _ ih =>
      rw [frame, frame, List.map_cons, List.map_cons, ← frame, ← frame, ih]
      rcases hcd with rfl | rfl
      · rfl
      · rw [Character.without, List.filter_filter]
        congr 2
        refine List.filter_congr fun other _ ↦ ?_
        cases hlink : other.isLink with
        | false => rfl
        | true =>
            have hne : other ≠ mark := by
              rintro rfl
              rw [hlink] at hmark
              cases hmark
            simp [hne]

theorem has_without_of_ne {mark other : Mark} (hne : other ≠ mark) (c : Character) :
    (c.without mark).has other = c.has other := by
  rw [Character.has, Character.has, Character.without, Bool.eq_iff_iff, List.contains_iff_mem,
    List.contains_iff_mem, List.mem_filter]
  simp [hne]

theorem Thinned.map_has {mark other : Mark} (hne : other ≠ mark)
    {characters thinned : List Character} (h : Thinned mark characters thinned) :
    thinned.map (Character.has other) = characters.map (Character.has other) := by
  induction h with
  | nil => rfl
  | cons hcd _ ih =>
      rw [List.map_cons, List.map_cons, ih]
      rcases hcd with rfl | rfl
      · rfl
      · rw [has_without_of_ne hne]

section Frame

variable {characters characters' : List Character}

theorem markRuns_congr_of_frame (h : frame characters = frame characters') {mark : Mark}
    (hmark : mark.isLink = true) : markRuns characters mark = markRuns characters' mark := by
  have hmap : ∀ cs : List Character,
      cs.map (Character.has mark) = (frame cs).map fun c ↦ c.2.contains mark := by
    intro cs
    rw [frame, List.map_map]
    refine List.map_congr_left fun c _ ↦ ?_
    rw [Function.comp_apply, Character.has, Bool.eq_iff_iff, List.contains_iff_mem,
      List.contains_iff_mem, List.mem_filter]
    simp [hmark]
  apply runs_congr
  rw [hmap, hmap, h]

theorem spansLine_congr_of_frame (h : frame characters = frame characters') (start stop : ℕ) :
    spansLine characters start stop = spansLine characters' start stop := by
  have hslice : ∀ cs : List Character,
      spansLine cs start stop = (slice (frame cs) start stop).any (·.1 = '\n') := by
    intro cs
    rw [spansLine, slice, slice, frame, ← List.map_take, ← List.map_drop, List.any_map]
    rfl
  rw [hslice, hslice, h]

/-- Cutting down a mark does not change which blanks are flanking. -/
theorem isFlanking_congr_of_frame (h : frame characters = frame characters') (mark : Mark)
    (index : ℕ) : isFlanking characters mark index = isFlanking characters' mark index := by
  have hget : ∀ cs : List Character, isFlanking cs mark index =
      ((frame cs)[index]?.any (fun c ↦ Text.isSpace c.1 && c.1 ≠ '\n') &&
        !(mark = .underline && (frame cs)[index]?.any fun c ↦ c.2.any fun candidate ↦
          ((markRuns cs candidate).filter (·.1 ≤ index)).getLast?.any fun run ↦
            !spansLine cs run.1 run.2)) := by
    intro cs
    rw [isFlanking, canKeepSpace, frame, List.getElem?_map]
    cases cs[index]? with
    | none => rfl
    | some c => simp only [Option.map_some, Option.any_some, List.any_filter]
  rw [hget, hget, ← h]
  congr 3
  cases hindex : (frame characters)[index]? with
  | none => rfl
  | some c =>
      simp only [Option.any_some]
      have hlinks : ∀ candidate ∈ c.2, candidate.isLink = true := by
        intro candidate hcandidate
        rw [frame, List.getElem?_map] at hindex
        obtain ⟨d, -, rfl⟩ := Option.map_eq_some_iff.mp hindex
        exact (List.mem_filter.mp hcandidate).2
      rw [Bool.eq_iff_iff, List.any_eq_true, List.any_eq_true]
      refine exists_congr fun candidate ↦ and_congr_right fun hcandidate ↦ ?_
      rw [markRuns_congr_of_frame h (hlinks candidate hcandidate)]
      simp only [spansLine_congr_of_frame h]

end Frame

/-! ## One mark -/

/-- A mark is settled when no run of it begins or ends with a flanking blank, and no underline
goes over a line break. -/
structure Settled (mark : Mark) (characters : List Character) : Prop where
  ends : ∀ run ∈ markRuns characters mark, isFlanking characters mark run.1 = false ∧
    isFlanking characters mark (run.2 - 1) = false
  lines : mark = .underline → ∀ c ∈ characters, c.text = '\n' → c.has mark = false

theorem has_without_self (mark : Mark) (c : Character) : (c.without mark).has mark = false := by
  rw [Character.has, Character.without, Bool.eq_false_iff, ne_eq, List.contains_iff_mem,
    List.mem_filter]
  simp

theorem flankingOf_congr_of_frame {characters characters' : List Character}
    (h : frame characters = frame characters') (mark : Mark) (run : ℕ × ℕ) :
    flankingOf characters mark run = flankingOf characters' mark run := by
  rw [flankingOf, flankingOf]
  exact List.map_congr_left fun offset _ ↦ isFlanking_congr_of_frame h mark _

/-- Whether a run of a list takes its mark from a place. -/
def isTaken (characters : List Character) (mark : Mark) (i : ℕ) (run : ℕ × ℕ) : Bool :=
  run.1 ≤ i && i < run.2 && isOutside (flankingOf characters mark run) (i - run.1)

theorem holdsAt_trimRun (mark : Mark) (characters : List Character) (run : ℕ × ℕ) (i : ℕ) :
    holdsAt (Character.has mark) (trimRun mark characters run) i =
      (holdsAt (Character.has mark) characters i && !isTaken characters mark i run) := by
  rw [holdsAt, holdsAt, trimRun, List.getElem?_mapIdx, Option.any_map]
  cases characters[i]? with
  | none => rfl
  | some c =>
      rw [Option.any_some, Option.any_some, isTaken, ← flankingOf]
      split_ifs with htaken
      · rw [has_without_self, htaken, Bool.not_true, Bool.and_false]
      · rw [Bool.not_eq_true] at htaken
        rw [htaken, Bool.not_false, Bool.and_true]

/-- After all runs are cut down, a mark stays where no run takes it. -/
theorem holdsAt_foldl {mark : Mark} (hmark : mark.isLink = false) (found : List (ℕ × ℕ)) (i : ℕ) :
    ∀ characters : List Character,
      holdsAt (Character.has mark) (found.foldl (trimRun mark) characters) i =
        (holdsAt (Character.has mark) characters i && !found.any (isTaken characters mark i)) := by
  induction found with
  | nil =>
      intro characters
      rw [List.foldl_nil, List.any_nil, Bool.not_false, Bool.and_true]
  | cons run found ih =>
      intro characters
      have hframe := (thinned_foldl mark [run] characters).frame_eq hmark
      rw [List.foldl_cons, List.foldl_nil] at hframe
      have hsame : isTaken (trimRun mark characters run) mark i = isTaken characters mark i := by
        funext other
        rw [isTaken, isTaken, flankingOf_congr_of_frame hframe]
      rw [List.foldl_cons, ih, holdsAt_trimRun, hsame, List.any_cons, Bool.not_or, Bool.and_assoc]

/-- A mark stays exactly between two characters of its run that are no flanking blanks. -/
theorem holdsAt_trimmed {mark : Mark} (hmark : mark.isLink = false) (characters : List Character)
    (i : ℕ) :
    holdsAt (Character.has mark)
        ((markRuns characters mark).foldl (trimRun mark) characters) i = true ↔
      Between (fun j ↦ holdsAt (Character.has mark) characters j = true)
        (fun j ↦ isFlanking characters mark j = false) i := by
  rw [holdsAt_foldl hmark, Bool.and_eq_true, Bool.not_eq_true']
  constructor
  · rintro ⟨hholds, hkept⟩
    obtain ⟨run, hrun, hin, hin'⟩ := exists_run hholds
    have hnot := Bool.eq_false_iff.mp hkept
    rw [ne_eq, List.any_eq_true] at hnot
    have hstays : isOutside (flankingOf characters mark run) (i - run.1) = false := by
      refine Bool.eq_false_iff.mpr fun houtside ↦ hnot ⟨run, hrun, ?_⟩
      rw [isTaken, houtside, decide_eq_true hin, decide_eq_true hin']
      rfl
    obtain ⟨first, last, hle, hfirst, hlast, hlt, hkept, hkept'⟩ :=
      (isOutside_flankingOf hin).mp hstays
    refine ⟨first, last, hfirst, hlast, hkept, hkept', fun j hj hj' ↦ ?_⟩
    exact (isRun_of_mem_markRuns hrun).inside j (hle.trans hj) (hj'.trans_lt hlt)
  · intro h
    refine ⟨h.carried, Bool.eq_false_iff.mpr fun htaken ↦ ?_⟩
    obtain ⟨run, hrun, htaken⟩ := List.any_eq_true.mp htaken
    rw [isTaken, Bool.and_eq_true, Bool.and_eq_true, decide_eq_true_eq, decide_eq_true_eq] at htaken
    obtain ⟨first, last, hfirst, hlast, hkept, hkept', hall⟩ := h
    obtain ⟨hle, hlt⟩ :=
      (isRun_of_mem_markRuns hrun).covers hfirst hlast hall htaken.1.1 htaken.1.2
    have hstays := (isOutside_flankingOf htaken.1.1).mpr
      ⟨first, last, hle, hfirst, hlast, hlt, hkept, hkept'⟩
    rw [hstays] at htaken
    exact absurd htaken.2 (by decide)

theorem Thinned.exists_of_mem {mark : Mark} {characters thinned : List Character}
    (h : Thinned mark characters thinned) {d : Character} (hd : d ∈ thinned) :
    ∃ c ∈ characters, d = c ∨ d = c.without mark := by
  induction h with
  | nil => cases hd
  | cons hcd _ ih =>
      rcases List.mem_cons.mp hd with rfl | hd
      · exact ⟨_, List.mem_cons_self, hcd⟩
      · obtain ⟨c, hc, hsame⟩ := ih hd
        exact ⟨c, List.mem_cons_of_mem _ hc, hsame⟩

theorem text_eq_of_thinned {mark : Mark} {c d : Character} (h : d = c ∨ d = c.without mark) :
    d.text = c.text ∧ d.hardBreak = c.hardBreak ∧ d.marks.Sublist c.marks := by
  rcases h with rfl | rfl
  · exact ⟨rfl, rfl, List.Sublist.refl _⟩
  · exact ⟨rfl, rfl, List.filter_sublist⟩

theorem lines_breakLines {mark : Mark} (hunderline : mark = .underline)
    (characters : List Character) {c : Character} (hc : c ∈ breakLines mark characters)
    (htext : c.text = '\n') : c.has mark = false := by
  rw [breakLines, if_pos hunderline] at hc
  obtain ⟨d, -, rfl⟩ := List.mem_map.mp hc
  split_ifs at htext ⊢ with hbreak
  · exact has_without_self mark d
  · exact absurd htext hbreak

theorem Settled.of_thinned {mark other : Mark} (hlink : mark.isLink = false) (hne : other ≠ mark)
    {characters thinned : List Character} (hthinned : Thinned mark characters thinned)
    (h : Settled other characters) : Settled other thinned := by
  have hframe := hthinned.frame_eq hlink
  have hruns : markRuns thinned other = markRuns characters other :=
    runs_congr (hthinned.map_has hne)
  constructor
  · intro run hrun
    rw [hruns] at hrun
    rw [isFlanking_congr_of_frame hframe, isFlanking_congr_of_frame hframe]
    exact h.ends run hrun
  · intro hunderline d hd htext
    obtain ⟨c, hc, hsame⟩ := hthinned.exists_of_mem hd
    rw [(text_eq_of_thinned hsame).1] at htext
    have hnone := h.lines hunderline c hc htext
    rcases hsame with rfl | rfl
    · exact hnone
    · rwa [has_without_of_ne hne]

/-- Cutting a mark down settles it. -/
theorem settled_normalizeMark {mark : Mark} (hmark : mark.isLink = false)
    (characters : List Character) : Settled mark (normalizeMark characters mark) := by
  have hthinned : Thinned mark (breakLines mark characters) (normalizeMark characters mark) :=
    thinned_foldl mark _ _
  constructor
  · intro run hrun
    have hanchors := (isRun_of_mem_markRuns hrun).anchors
      (holdsAt_trimmed hmark (breakLines mark characters))
    have hframe := hthinned.frame_eq hmark
    rw [isFlanking_congr_of_frame hframe, isFlanking_congr_of_frame hframe]
    exact hanchors
  · intro hunderline d hd htext
    obtain ⟨c, hc, hsame⟩ := hthinned.exists_of_mem hd
    rw [(text_eq_of_thinned hsame).1] at htext
    rcases hsame with rfl | rfl
    · exact lines_breakLines hunderline characters hc htext
    · exact has_without_self mark c

theorem without_of_not_has {mark : Mark} {c : Character} (h : c.has mark = false) :
    c.without mark = c := by
  have hkept : c.marks.filter (· ≠ mark) = c.marks := by
    refine List.filter_eq_self.mpr fun other hother ↦ ?_
    rw [decide_eq_true_eq]
    rintro rfl
    rw [Character.has, List.contains_iff_mem.mpr hother] at h
    cases h
  rw [Character.without, hkept]

/-- A settled mark is not cut down again. -/
theorem normalizeMark_of_settled {mark : Mark} {characters : List Character}
    (h : Settled mark characters) : normalizeMark characters mark = characters := by
  have hlines : breakLines mark characters = characters := by
    rw [breakLines]
    split_ifs with hunderline
    · conv_rhs => rw [← List.map_id characters]
      refine List.map_congr_left fun c hc ↦ ?_
      split_ifs with hbreak
      · exact without_of_not_has (h.lines hunderline c hc hbreak)
      · rfl
    · rfl
  have htrim : ∀ run ∈ markRuns characters mark, trimRun mark characters run = characters := by
    intro run hrun
    have hlt := (isRun_of_mem_markRuns hrun).lt
    obtain ⟨hfirst, hlast⟩ := h.ends run hrun
    rw [trimRun, ← flankingOf]
    refine List.ext_getElem (by simp) fun i hi hi' ↦ ?_
    rw [List.getElem_mapIdx, if_neg]
    rw [Bool.and_eq_true, Bool.and_eq_true, decide_eq_true_eq, decide_eq_true_eq]
    rintro ⟨⟨hle, hlt'⟩, houtside⟩
    have hstays := (isOutside_flankingOf hle).mpr
      ⟨run.1, run.2 - 1, le_rfl, hle, by omega, by omega, hfirst, hlast⟩
    rw [hstays] at houtside
    cases houtside
  have hfold : ∀ found : List (ℕ × ℕ), (∀ run ∈ found, run ∈ markRuns characters mark) →
      found.foldl (trimRun mark) characters = characters := by
    intro found
    induction found with
    | nil => exact fun _ ↦ rfl
    | cons run found ih =>
        intro hfound
        rw [List.foldl_cons, htrim run (hfound run List.mem_cons_self)]
        exact ih fun other hother ↦ hfound other (List.mem_cons_of_mem _ hother)
  rw [normalizeMark, hlines]
  exact hfold _ fun _ hrun ↦ hrun

/-! ## All marks -/

theorem settled_foldl {mark : Mark} {marks : List Mark} {characters : List Character}
    (hlinks : ∀ other ∈ marks, other.isLink = false) (hmem : mark ∉ marks)
    (h : Settled mark characters) : Settled mark (marks.foldl normalizeMark characters) := by
  induction marks generalizing characters with
  | nil => exact h
  | cons other marks ih =>
      rw [List.foldl_cons]
      apply ih (fun link hlink ↦ hlinks link (List.mem_cons_of_mem _ hlink))
        (fun hlater ↦ hmem (List.mem_cons_of_mem _ hlater))
      refine h.of_thinned (hlinks other List.mem_cons_self) ?_
        (thinned_normalizeMark characters other)
      rintro rfl
      exact hmem List.mem_cons_self

theorem settled_of_mem {mark : Mark} {marks : List Mark} (hnodup : marks.Nodup)
    (hlinks : ∀ other ∈ marks, other.isLink = false) (hmem : mark ∈ marks)
    (characters : List Character) : Settled mark (marks.foldl normalizeMark characters) := by
  induction marks generalizing characters with
  | nil => cases hmem
  | cons other marks ih =>
      obtain ⟨hnot, hrest⟩ := List.nodup_cons.mp hnodup
      have hlater : ∀ link ∈ marks, link.isLink = false :=
        fun link hlink ↦ hlinks link (List.mem_cons_of_mem _ hlink)
      rw [List.foldl_cons]
      rcases List.mem_cons.mp hmem with rfl | hmem
      · exact settled_foldl hlater hnot
          (settled_normalizeMark (hlinks mark List.mem_cons_self) characters)
      · exact ih hrest hlater hmem _

theorem settled_normalize {mark : Mark} (hmark : mark ∈ emphasisMarks) (paragraph : List Character) :
    Settled mark (normalize paragraph) :=
  settled_of_mem (by decide) (by decide) hmark paragraph

theorem foldl_of_settled {marks : List Mark} {characters : List Character}
    (h : ∀ mark ∈ marks, Settled mark characters) :
    marks.foldl normalizeMark characters = characters := by
  induction marks with
  | nil => rfl
  | cons mark marks ih =>
      rw [List.foldl_cons, normalizeMark_of_settled (h mark List.mem_cons_self)]
      exact ih fun other hother ↦ h other (List.mem_cons_of_mem _ hother)

theorem normalize_normalize (paragraph : List Character) :
    normalize (normalize paragraph) = normalize paragraph :=
  foldl_of_settled fun _ hmark ↦ settled_normalize hmark paragraph

/-- The same character with some of its marks. -/
def Keeps (c d : Character) : Prop :=
  d.text = c.text ∧ d.hardBreak = c.hardBreak ∧ d.marks.Sublist c.marks

theorem Keeps.trans {c d e : Character} (h : Keeps c d) (h' : Keeps d e) : Keeps c e :=
  ⟨h'.1.trans h.1, h'.2.1.trans h.2.1, h'.2.2.trans h.2.2⟩

theorem keeps_normalize (paragraph : List Character) :
    List.Forall₂ Keeps paragraph (normalize paragraph) := by
  have hfold : ∀ (marks : List Mark) (characters : List Character),
      List.Forall₂ Keeps characters (marks.foldl normalizeMark characters) := by
    intro marks
    induction marks with
    | nil => exact fun characters ↦
        List.forall₂_same.mpr fun c _ ↦ ⟨rfl, rfl, List.Sublist.refl _⟩
    | cons mark marks ih =>
        intro characters
        have hthinned := (thinned_normalizeMark characters mark).imp
          fun c d hsame ↦ (text_eq_of_thinned hsame : Keeps c d)
        exact forall₂_trans (fun _ _ _ h h' ↦ h.trans h') hthinned (ih _)
  exact hfold emphasisMarks paragraph

end EnCroissant.CommentSerializer

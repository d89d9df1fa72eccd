import EnCroissant.Library.Nesting
import EnCroissant.Tree.CommentMarks

/-!
# Rendering a paragraph

One run is wrapped, and what stands before it, in it and behind it is rendered on its own.
The text that results nests, and each character stands in it once, between its marks.
-/

namespace EnCroissant.CommentSerializer

open Runs

/-! ## The run that is wrapped -/

theorem isRun_of_mem_markRuns {characters : List Character} {mark : Mark} {run : ℕ × ℕ}
    (h : run ∈ markRuns characters mark) : IsRun (Character.has mark) characters run :=
  isRun_of_mem h

theorem isRun_of_mem_candidates {characters : List Character} {candidate : Candidate}
    (h : candidate ∈ candidates characters) :
    IsRun (Character.has candidate.mark) characters (candidate.start, candidate.stop) := by
  obtain ⟨mark, -, hmark⟩ := List.mem_flatMap.mp h
  obtain ⟨run, hrun, rfl⟩ := List.mem_map.mp hmark
  exact isRun_of_mem_markRuns hrun

theorem exists_candidate {characters : List Character} {c : Character} (hc : c ∈ characters)
    (hmarks : c.marks ≠ []) : ∃ candidate, candidate ∈ candidates characters := by
  obtain ⟨mark, marks, hcons⟩ := List.exists_cons_of_ne_nil hmarks
  have hmark : mark ∈ characters.flatMap (·.marks) := by
    refine List.mem_flatMap.mpr ⟨c, hc, ?_⟩
    rw [hcons]
    exact List.mem_cons_self
  have hfirst : mark ∈ Firsts.firstsFrom id [] (characters.flatMap (·.marks)) := by
    have hkeys : mark ∈ (Firsts.firstsFrom id [] (characters.flatMap (·.marks))).map id ↔
        mark ∈ (characters.flatMap (·.marks)).map id ∧ mark ∉ [] := Firsts.mem_keys_firstsFrom
    rw [List.map_id, List.map_id] at hkeys
    exact hkeys.mpr ⟨hmark, List.not_mem_nil⟩
  obtain ⟨i, hi, hget⟩ := List.getElem_of_mem hc
  have hholds : holdsAt (Character.has mark) characters i = true := by
    rw [holdsAt, List.getElem?_eq_getElem hi, hget, Option.any_some, Character.has, hcons]
    simp
  obtain ⟨run, hrun, -⟩ := exists_run hholds
  exact ⟨_, List.mem_flatMap.mpr ⟨mark, hfirst, List.mem_map_of_mem hrun⟩⟩

theorem isRun_of_selected {characters : List Character} {candidate : Candidate}
    (h : selected characters = some candidate) :
    IsRun (Character.has candidate.mark) characters (candidate.start, candidate.stop) := by
  have hmem := List.mem_of_find?_eq_some h
  rw [List.mem_insertionSort] at hmem
  obtain ⟨plain, hplain, rfl⟩ := List.mem_map.mp hmem
  -- the biases change nothing but the priority
  exact (isRun_of_mem_candidates hplain :)

/-- A longest run lies inside no longer one. -/
theorem exists_outer {found : List Candidate} (hne : found ≠ [])
    (hlt : ∀ candidate ∈ found, candidate.start < candidate.stop) :
    ∃ candidate ∈ found, isInner found candidate = false := by
  cases hmax : found.argmax (fun candidate ↦ candidate.stop - candidate.start) with
  | none => exact absurd (List.argmax_eq_none.mp hmax) hne
  | some candidate =>
      refine ⟨candidate, List.argmax_mem hmax, Bool.eq_false_iff.mpr fun hinner ↦ ?_⟩
      obtain ⟨other, hother, hover⟩ := List.any_eq_true.mp hinner
      have hle := List.le_of_mem_argmax hother hmax
      have hpos := hlt candidate (List.argmax_mem hmax)
      simp only [Bool.and_eq_true, Bool.or_eq_true, decide_eq_true_eq] at hover
      omega

/-- As long as there are marks a run is selected. -/
theorem marks_of_selected_eq_none {characters : List Character} (h : selected characters = none)
    {c : Character} (hc : c ∈ characters) : c.marks = [] := by
  by_contra hmarks
  obtain ⟨candidate, hmem⟩ := exists_candidate hc hmarks
  have hbiased := List.mem_map_of_mem
    (f := biased characters (candidates characters)) hmem
  have hlt : ∀ found ∈ (candidates characters).map (biased characters (candidates characters)),
      found.start < found.stop := by
    intro found hfound
    obtain ⟨plain, hplain, rfl⟩ := List.mem_map.mp hfound
    exact ((isRun_of_mem_candidates hplain).lt :)
  obtain ⟨outer, houter, hinner⟩ := exists_outer (List.ne_nil_of_mem hbiased) hlt
  have hnone := List.find?_eq_none.mp h outer ((List.mem_insertionSort _).mpr houter)
  rw [hinner] at hnone
  exact hnone rfl

/-! ## Termination -/

/-- Characters and marks. -/
def weight (characters : List Character) : ℕ := (characters.map fun c ↦ c.marks.length + 1).sum

theorem weight_append (before after : List Character) :
    weight (before ++ after) = weight before + weight after := by
  rw [weight, List.map_append, List.sum_append, weight, weight]

theorem length_le_weight (characters : List Character) : characters.length ≤ weight characters := by
  induction characters with
  | nil => exact Nat.zero_le _
  | cons c characters ih =>
      have happend := weight_append [c] characters
      have hone : weight [c] = c.marks.length + 1 := by simp [weight]
      rw [List.singleton_append, hone] at happend
      rw [List.length_cons]
      omega

theorem length_without_lt {mark : Mark} {c : Character} (h : c.has mark = true) :
    (c.without mark).marks.length < c.marks.length := by
  have hmem : mark ∈ c.marks := List.contains_iff_mem.mp h
  exact List.length_filter_lt_length_iff_exists.mpr ⟨mark, hmem, by simp⟩

theorem weight_without_le (mark : Mark) (characters : List Character) :
    weight (characters.map (·.without mark)) ≤ weight characters := by
  rw [weight, weight, List.map_map]
  apply List.sum_le_sum
  intro c _
  exact Nat.succ_le_succ (List.length_filter_le _ _)

theorem weight_without_lt {mark : Mark} {characters : List Character} {c : Character}
    (hc : c ∈ characters) (h : c.has mark = true) :
    weight (characters.map (·.without mark)) < weight characters := by
  obtain ⟨before, after, rfl⟩ := List.append_of_mem hc
  have hbefore := weight_without_le mark before
  have hafter := weight_without_le mark after
  have hlt := length_without_lt h
  rw [List.map_append, List.map_cons, ← List.singleton_append, weight_append, weight_append,
    ← List.singleton_append (l := after), weight_append, weight_append]
  have hone : ∀ d : Character, weight [d] = d.marks.length + 1 := fun d ↦ by simp [weight]
  rw [hone, hone]
  omega

theorem take_slice_drop {α : Type*} {as : List α} {start stop : ℕ} (h : start ≤ stop) :
    as.take start ++ slice as start stop ++ as.drop stop = as := by
  have htake : as.take start ++ slice as start stop = as.take stop := by
    have hsplit := List.take_append_drop start (as.take stop)
    rwa [List.take_take, Nat.min_eq_left h] at hsplit
  rw [htake, List.take_append_drop]

theorem has_of_mem_slice {mark : Mark} {characters : List Character} {start stop : ℕ}
    (h : IsRun (Character.has mark) characters (start, stop)) {c : Character}
    (hc : c ∈ slice characters start stop) : c.has mark = true := by
  obtain ⟨i, hi, rfl⟩ := List.getElem_of_mem hc
  have hlength : (slice characters start stop).length = stop - start := by
    rw [slice, List.length_drop, List.length_take_of_le h.le]
  have hholds := h.inside (start + i) (Nat.le_add_right _ _) (by simp only; omega)
  have hget : characters[start + i]? = some (slice characters start stop)[i] := by
    rw [← List.getElem?_eq_getElem hi, slice, List.getElem?_drop, List.getElem?_take_of_lt (by omega)]
  rw [holdsAt, hget] at hholds
  exact hholds

theorem length_slice_pos {test : Character → Bool} {characters : List Character}
    {start stop : ℕ} (h : IsRun test characters (start, stop)) :
    0 < (slice characters start stop).length := by
  have hlt := h.lt
  rw [slice, List.length_drop, List.length_take_of_le h.le]
  simp only at hlt ⊢
  omega

/-- The three parts weigh less than the paragraph. -/
theorem weight_parts {characters : List Character} {candidate : Candidate}
    (h : selected characters = some candidate) :
    weight (characters.take candidate.start) < weight characters ∧
      weight ((slice characters candidate.start candidate.stop).map
        (·.without candidate.mark)) < weight characters ∧
      weight (characters.drop candidate.stop) < weight characters := by
  have hrun := isRun_of_selected h
  have hsplit : weight (characters.take candidate.start) +
      weight (slice characters candidate.start candidate.stop) +
        weight (characters.drop candidate.stop) = weight characters := by
    rw [← weight_append, ← weight_append, take_slice_drop hrun.lt.le]
  have hpos := length_slice_pos hrun
  have hle := length_le_weight (slice characters candidate.start candidate.stop)
  obtain ⟨c, hc⟩ := List.exists_mem_of_length_pos hpos
  have hlt := weight_without_lt hc (has_of_mem_slice hrun hc)
  omega

def render (characters : List Character) : Text :=
  match _h : selected characters with
  | none => (literals characters).flatten
  | some candidate =>
      render (characters.take candidate.start) ++
        wrap candidate.mark (render ((slice characters candidate.start candidate.stop).map
          (·.without candidate.mark))) ++
        render (characters.drop candidate.stop)
termination_by weight characters
decreasing_by
  · exact (weight_parts _h).1
  · exact (weight_parts _h).2.1
  · exact (weight_parts _h).2.2

def serializeComment (document : DocumentContent) : Except String Text := do
  let normalized ← normalizeCommentDocument document
  let found ← paragraphs normalized
  .ok ("\n\n".toList.intercalate (found.map render))

/-! ## Nesting -/

open Nesting (Token enclosures blocks wrapped)

/-- A character without the marks around it, and how it is written. -/
structure Written where
  character : Character
  text : Text

def tokenText : Token Mark Written → Text
  | .opening mark => opening mark
  | .closing mark => closing mark
  | .leaf written => written.text

def unmarked (c : Character) : Character := { c with marks := [] }

/-- A text that nests, in which the characters stand in order, each escaped as its neighbours ask
for and between its marks. -/
structure Renders (characters : List Character) (text : Text) (tokens : List (Token Mark Written)) :
    Prop where
  text_eq : text = tokens.flatMap tokenText
  nests : ∃ placed, enclosures [] tokens = some placed ∧
    List.Forall₂ (fun c leaf ↦ leaf.1.character = unmarked c ∧ leaf.2.Perm c.marks)
      characters placed
  escaped : ∀ block ∈ blocks tokens,
    block.map Written.text = literals (block.map Written.character)

def writtenOf (characters : List Character) : List Written :=
  characters.mapIdx fun index c ↦ ⟨c, literal characters index c⟩

theorem map_text_writtenOf (characters : List Character) :
    (writtenOf characters).map Written.text = literals characters := by
  apply List.ext_getElem <;> simp [writtenOf, literals]

theorem map_character_writtenOf (characters : List Character) :
    (writtenOf characters).map Written.character = characters := by
  apply List.ext_getElem <;> simp [writtenOf]

/-- Characters without marks are written one by one. -/
theorem Renders.of_unmarked {characters : List Character} (h : ∀ c ∈ characters, c.marks = []) :
    Renders characters (literals characters).flatten
      ((writtenOf characters).map Token.leaf) := by
  refine ⟨?_, ⟨_, Nesting.enclosures_leaves _, ?_⟩, ?_⟩
  · rw [List.flatMap_map, ← map_text_writtenOf, List.flatMap_def]
    rfl
  · rw [List.forall₂_map_right_iff]
    have hself : List.Forall₂
        (fun c (written : Written) ↦ written.character = unmarked c ∧ [].Perm c.marks)
        ((writtenOf characters).map Written.character) (writtenOf characters) := by
      rw [List.forall₂_map_left_iff]
      refine List.forall₂_same.mpr fun written hwritten ↦ ?_
      have hmem := List.mem_map_of_mem (f := Written.character) hwritten
      rw [map_character_writtenOf] at hmem
      have hmarks := h _ hmem
      rw [hmarks]
      refine ⟨?_, List.Perm.refl []⟩
      rw [unmarked, ← hmarks]
    rwa [map_character_writtenOf] at hself
  · intro block hblock
    rw [Nesting.blocks_leaves, List.mem_singleton] at hblock
    rw [hblock, map_text_writtenOf, map_character_writtenOf]

theorem perm_append_of_has {mark : Mark} {c : Character} {around : List Mark}
    (hmark : c.has mark = true) (hnodup : c.marks.Nodup)
    (h : around.Perm (c.without mark).marks) : (around ++ [mark]).Perm c.marks := by
  have hmem : mark ∈ c.marks := List.contains_iff_mem.mp hmark
  have hfilter : (c.without mark).marks = c.marks.erase mark := by
    rw [hnodup.erase_eq_filter, Character.without]
    exact List.filter_congr fun other _ ↦ Bool.eq_iff_iff.mpr (by simp)
  rw [hfilter] at h
  exact (List.perm_append_singleton mark around).trans
    ((h.cons mark).trans (List.perm_cons_erase hmem).symm)

/-- A wrapped run between two rendered parts. -/
theorem Renders.parts {before inside after : List Character} {mark : Mark}
    {text text₁ text₂ : Text} {tokens tokens₁ tokens₂ : List (Token Mark Written)}
    (hmark : ∀ c ∈ inside, c.has mark = true) (hnodup : ∀ c ∈ inside, c.marks.Nodup)
    (hbefore : Renders before text₁ tokens₁)
    (hinside : Renders (inside.map (·.without mark)) text tokens)
    (hafter : Renders after text₂ tokens₂) :
    Renders (before ++ inside ++ after) (text₁ ++ wrap mark text ++ text₂)
      (tokens₁ ++ wrapped mark tokens ++ tokens₂) := by
  obtain ⟨placed₁, hread₁, hplaced₁⟩ := hbefore.nests
  obtain ⟨placed, hread, hplaced⟩ := hinside.nests
  obtain ⟨placed₂, hread₂, hplaced₂⟩ := hafter.nests
  refine ⟨?_, ⟨_, Nesting.enclosures_append_of_nil (Nesting.enclosures_append_of_nil hread₁
    (Nesting.enclosures_wrapped hread)) hread₂, ?_⟩, ?_⟩
  · rw [hbefore.text_eq, hinside.text_eq, hafter.text_eq, wrap, wrapped]
    simp [tokenText]
  · refine List.rel_append (List.rel_append hplaced₁ ?_) hplaced₂
    rw [List.forall₂_map_left_iff] at hplaced
    rw [List.forall₂_map_right_iff]
    have hcarried : ∀ c ∈ inside, c.has mark = true ∧ c.marks.Nodup :=
      fun c hc ↦ ⟨hmark c hc, hnodup c hc⟩
    have hboth := (List.forall₂_and_left _ _).mpr ⟨hcarried, hplaced⟩
    refine hboth.imp ?_
    rintro c leaf ⟨⟨hc, hc'⟩, hsame, haround⟩
    exact ⟨hsame, perm_append_of_has hc hc' haround⟩
  · intro block hblock
    rw [Nesting.blocks_wrapped, List.mem_append, List.mem_append] at hblock
    rcases hblock with (hblock | hblock) | hblock
    · exact hbefore.escaped block hblock
    · exact hinside.escaped block hblock
    · exact hafter.escaped block hblock

/-- Rendering gives a text that nests, in which each character is enclosed by its marks. -/
theorem render_renders (characters : List Character) (h : ∀ c ∈ characters, c.marks.Nodup) :
    ∃ tokens, Renders characters (render characters) tokens := by
  induction characters using render.induct with
  | case1 characters hselected =>
      have hmarks : ∀ c ∈ characters, c.marks = [] :=
        fun c hc ↦ marks_of_selected_eq_none hselected hc
      refine ⟨(writtenOf characters).map Token.leaf, ?_⟩
      rw [render, hselected]
      exact Renders.of_unmarked hmarks
  | case2 characters candidate hselected ihbefore ihinside ihafter =>
      have hrun := isRun_of_selected hselected
      have hsplit : characters.take candidate.start ++
          slice characters candidate.start candidate.stop ++ characters.drop candidate.stop =
            characters := take_slice_drop hrun.lt.le
      have hinside : ∀ c ∈ slice characters candidate.start candidate.stop, c.marks.Nodup :=
        fun c hc ↦ h c (List.mem_of_mem_take (List.mem_of_mem_drop hc))
      obtain ⟨tokens₁, hbefore⟩ := ihbefore fun c hc ↦ h c (List.mem_of_mem_take hc)
      obtain ⟨tokens, hwithin⟩ := ihinside fun c hc ↦ by
        obtain ⟨d, hd, rfl⟩ := List.mem_map.mp hc
        exact (hinside d hd).filter _
      obtain ⟨tokens₂, hafter⟩ := ihafter fun c hc ↦ h c (List.mem_of_mem_drop hc)
      have hparts := Renders.parts (fun c hc ↦ has_of_mem_slice hrun hc) hinside hbefore hwithin
        hafter
      rw [hsplit] at hparts
      refine ⟨tokens₁ ++ wrapped candidate.mark tokens ++ tokens₂, ?_⟩
      rw [render, hselected]
      exact hparts

example :
    render [⟨'a', [.bold], false⟩, ⟨' ', [.bold], false⟩, ⟨'b', [.bold, .underline], false⟩] =
      "**a ++b++**".toList := by
  decide +kernel

end EnCroissant.CommentSerializer

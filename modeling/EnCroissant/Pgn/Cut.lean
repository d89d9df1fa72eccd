import Mathlib
import EnCroissant.Pgn.Edit

/-!
# Cutting a file in front of a game

Where the scanner accepts a file, every game splits it into a front, the game
itself and the games behind it, and an edit of the game works on these parts.
-/

namespace EnCroissant

/-! ## Texts and ranges -/

theorem slice_layout (before : List UInt8) (texts : List (List UInt8)) :
    (layout before.length texts).map (·.slice (before ++ texts.flatten)) = texts := by
  induction texts generalizing before with
  | nil => rfl
  | cons text texts ih =>
      have hrest := ih (before ++ text)
      rw [List.length_append, List.append_assoc] at hrest
      rw [layout, List.map_cons, List.flatten_cons, hrest]
      simp [GameRange.slice, List.take_append]

theorem gameTexts_of_decomposed {bytes : List UInt8} {pre : List (List UInt8)}
    {blocks : List (List (List UInt8))} (h : Decomposed bytes pre blocks) :
    gameTexts bytes = .ok (blocks.map List.flatten) := by
  have hlength : bomLength bytes + pre.flatten.length =
      (bytes.take (bomLength bytes) ++ pre.flatten).length := by
    simp only [List.length_append, List.length_take, min_eq_left (bomLength_le bytes)]
  have hslice := slice_layout (bytes.take (bomLength bytes) ++ pre.flatten)
    (blocks.map List.flatten)
  rw [← h.bytes_eq, ← hlength] at hslice
  rw [gameTexts, scanGames_of_decomposed h]
  exact congrArg Except.ok hslice

theorem gameTexts_eq_ok_iff {bytes : List UInt8} {texts : List (List UInt8)} :
    gameTexts bytes = .ok texts ↔
      ∃ pre blocks, Decomposed bytes pre blocks ∧ texts = blocks.map List.flatten := by
  constructor
  · intro h
    cases hscan : scanGames bytes with
    | error e =>
        rw [gameTexts, hscan] at h
        cases h
    | ok ranges =>
        obtain ⟨pre, blocks, hdecomposed, -⟩ := scanGames_eq_ok_iff.mp hscan
        rw [gameTexts_of_decomposed hdecomposed] at h
        exact ⟨pre, blocks, hdecomposed, (Except.ok.inj h).symm⟩
  · rintro ⟨pre, blocks, hdecomposed, rfl⟩
    exact gameTexts_of_decomposed hdecomposed

theorem getElem?_layout (start : ℕ) (done : List (List UInt8)) (text : List UInt8)
    (rest : List (List UInt8)) :
    (layout start (done ++ text :: rest))[done.length]? =
      some ⟨start + done.flatten.length, start + done.flatten.length + text.length⟩ := by
  induction done generalizing start with
  | nil => rfl
  | cons first done ih =>
      rw [List.cons_append, layout, List.length_cons, List.getElem?_cons_succ, ih,
        List.flatten_cons, List.length_append, ← Nat.add_assoc]

theorem length_layout (start : ℕ) (texts : List (List UInt8)) :
    (layout start texts).length = texts.length := by
  induction texts generalizing start with
  | nil => rfl
  | cons text texts ih => rw [layout, List.length_cons, List.length_cons, ih]

theorem set_map_flatten (done : List (List (List UInt8))) (block : List (List UInt8))
    (rest : List (List (List UInt8))) (text : List UInt8) :
    ((done ++ block :: rest).map List.flatten).set done.length text =
      done.map List.flatten ++ text :: rest.map List.flatten := by
  induction done with
  | nil => rfl
  | cons first done ih => exact congrArg _ ih

theorem eraseIdx_map_flatten (done : List (List (List UInt8))) (block : List (List UInt8))
    (rest : List (List (List UInt8))) :
    ((done ++ block :: rest).map List.flatten).eraseIdx done.length =
      (done ++ rest).map List.flatten := by
  induction done with
  | nil => rfl
  | cons first done ih => exact congrArg _ ih

/-! ## Cutting a file in front of a game -/

/-- A file cut in front of one of its games. -/
structure Cut (bytes mark : List UInt8) (pre : List (List UInt8))
    (done : List (List (List UInt8))) (block : List (List UInt8))
    (rest : List (List (List UInt8))) : Prop where
  bytes_eq : bytes = frontBytes mark pre done ++ block.flatten ++ rest.flatten.flatten
  front : Front mark pre done
  tail : Tail (scanner.run .fresh done.flatten) (block :: rest)
  scan : scanGames bytes = .ok (layout ((mark ++ pre.flatten).length)
    ((done ++ block :: rest).map List.flatten))

theorem take_bomLength (bytes : List UInt8) :
    bytes.take (bomLength bytes) = [] ∧ bomLength bytes = 0 ∨
      bytes.take (bomLength bytes) = utf8Bom := by
  rw [bomLength]
  split_ifs with h
  · exact Or.inr h
  · exact Or.inl ⟨rfl, rfl⟩

theorem bomLength_flatten_left {lines : List (List UInt8)} {rest : List UInt8}
    (h : ∀ line ∈ lines, Lines.Complete newline line)
    (hbom : bomLength (lines.flatten ++ rest) = 0) :
    bomLength lines.flatten = 0 := by
  by_cases hnil : lines = []
  · rw [hnil]
    rfl
  · rwa [bomLength_append (getLast?_flatten_of_complete hnil h)] at hbom

theorem Decomposed.cut {bytes : List UInt8} {pre : List (List UInt8)}
    {done rest : List (List (List UInt8))} {block : List (List UInt8)}
    (h : Decomposed bytes pre (done ++ block :: rest)) :
    Cut bytes (bytes.take (bomLength bytes)) pre done block rest := by
  have hblock : (block :: rest).flatten ≠ [] := by
    have hsegment := (Splitter.segments_append.mp (h.segments)).2.1
    simp [hsegment.ne_nil]
  have hrow := h.row
  have hok := h.ok
  have hbytes := h.bytes_eq
  rw [List.flatten_append, ← List.append_assoc] at hrow hok
  have hcomplete := hrow.complete hblock
  have hsegments := h.segments
  rw [h.run_pre.1, Splitter.segments_append] at hsegments
  have hbytes' : bytes = frontBytes (bytes.take (bomLength bytes)) pre done ++
      block.flatten ++ rest.flatten.flatten := by
    rw [← List.flatten_flatten] at hbytes
    simpa only [frontBytes, List.flatten_append, List.flatten_cons, List.append_assoc] using hbytes
  refine ⟨hbytes', ⟨(take_bomLength bytes).imp_left And.left, ?_, hcomplete,
    fun line hline ↦ hok line (List.mem_append_left _ hline), h.quiet, hsegments.1⟩,
    ⟨hrow.right, fun line hline ↦ hok line (List.mem_append_right _ hline), hsegments.2, ?_⟩, ?_⟩
  · intro hmark
    rw [hmark, frontBytes, List.nil_append, List.append_assoc] at hbytes'
    have hzero : bomLength bytes = 0 :=
      ((take_bomLength bytes).resolve_right fun hbom ↦ absurd (hmark.symm.trans hbom)
        (by decide)).2
    rw [hbytes'] at hzero
    exact bomLength_flatten_left hcomplete hzero
  · have hbrace := h.brace
    rwa [List.flatten_append, ← List.append_assoc, Splitter.run_append, Splitter.run_append,
      h.run_pre.1] at hbrace
  · rw [scanGames_of_decomposed h, List.length_append, List.length_take,
      min_eq_left (bomLength_le bytes)]

namespace Cut

variable {bytes mark : List UInt8} {pre : List (List UInt8)}
  {done rest : List (List (List UInt8))} {block : List (List UInt8)}

theorem ready (h : Cut bytes mark pre done block rest) :
    (scanner.run .fresh done.flatten).Ready :=
  (ready_of_segments h.front.segments h.tail.segments.1).1

/-- The range of the game. -/
theorem range (h : Cut bytes mark pre done block rest) {ranges : List GameRange}
    (hscan : scanGames bytes = .ok ranges) :
    ranges[done.length]? = some ⟨(frontBytes mark pre done).length,
      (frontBytes mark pre done).length + block.flatten.length⟩ := by
  have hranges := Except.ok.inj (hscan.symm.trans h.scan)
  have hlayout := getElem?_layout (mark ++ pre.flatten).length (done.map List.flatten)
    block.flatten (rest.map List.flatten)
  have hfront : (frontBytes mark pre done).length =
      (mark ++ pre.flatten).length + (done.map List.flatten).flatten.length := by
    rw [frontBytes, List.flatten_append, List.flatten_flatten, ← List.append_assoc,
      List.length_append]
  rw [hranges, hfront, List.map_append, List.map_cons]
  rwa [List.length_map] at hlayout

theorem deleteGame_eq (h : Cut bytes mark pre done block rest) :
    deleteGame bytes done.length =
      editExisting (frontBytes mark pre done ++ block.flatten ++ rest.flatten.flatten)
        (frontBytes mark pre done ++ block.flatten ++ rest.flatten.flatten).length
        ⟨(frontBytes mark pre done).length,
          (frontBytes mark pre done).length + block.flatten.length⟩ none := by
  have hrange := h.range h.scan
  rw [← h.bytes_eq]
  simp only [deleteGame, checkedIndex, Int.toNat_natCast, h.scan, bind, Except.bind]
  rw [if_neg (by omega)]
  simp only [hrange]

theorem writeGame_eq (h : Cut bytes mark pre done block rest) {pgn : List UInt8}
    (hlength : pgn.length ≤ maxPgnBytes) :
    writeGame bytes done.length pgn =
      editExisting (frontBytes mark pre done ++ block.flatten ++ rest.flatten.flatten)
        (frontBytes mark pre done ++ block.flatten ++ rest.flatten.flatten).length
        ⟨(frontBytes mark pre done).length,
          (frontBytes mark pre done).length + block.flatten.length⟩ (some pgn) := by
  have hrange := h.range h.scan
  rw [← h.bytes_eq]
  simp only [writeGame, checkedIndex, Int.toNat_natCast, h.scan, bind, Except.bind]
  rw [if_neg (by omega)]
  simp only [hrange]
  rw [if_neg (Nat.not_lt.mpr hlength)]

end Cut

end EnCroissant

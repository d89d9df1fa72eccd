import Mathlib
import EnCroissant.Pgn.Edit
import EnCroissant.Pgn.SingleGame

/-!
# Appending a game

A game written behind the last one is a game of its own only if the header block
of the last one has ended.  The newlines that the edit puts behind the file and
behind the text can make a last line too long.
-/

namespace EnCroissant

/-! ## A file with a newline at its end -/

/-- A game with or without a newline more. -/
def SameUpToNewline (text text' : List UInt8) : Prop :=
  text' = text ∨ text' = text ++ [newline]

theorem sameUpToNewline_ending (text : List UInt8) :
    SameUpToNewline text (text ++ Lines.ending newline text) := by
  rw [Lines.ending]
  split
  · exact Or.inl (List.append_nil _)
  · split_ifs
    · exact Or.inl (List.append_nil _)
    · exact Or.inr rfl

theorem finish_append (lines : List (List UInt8)) {lines' : List (List UInt8)}
    (h : lines' ≠ []) :
    Lines.finish newline (lines ++ lines') = lines ++ Lines.finish newline lines' := by
  induction lines with
  | nil => rfl
  | cons line lines ih =>
      obtain ⟨line', rest, hrest⟩ := List.exists_cons_of_ne_nil
        (List.append_ne_nil_of_right_ne_nil lines h)
      rw [List.cons_append, hrest, Lines.finish, ← hrest, ih, List.cons_append]

/-- The lines of a file with a newline at its end. -/
structure Finished (bytes mark : List UInt8) (blocks : List (List (List UInt8)))
    (pre' : List (List UInt8)) (blocks' : List (List (List UInt8))) : Prop where
  bytes_eq : bytes ++ Lines.ending newline bytes = frontBytes mark pre' blocks'
  isMark : mark = [] ∨ mark = utf8Bom
  bom : mark = [] → bomLength (pre' ++ blocks'.flatten).flatten = 0
  complete : ∀ line ∈ pre' ++ blocks'.flatten, Lines.Complete newline line
  ok : (∀ line ∈ pre' ++ blocks'.flatten, LineOk line) ↔
    ¬FullLastLine (bytes.drop (bomLength bytes))
  quiet : scanner.Quiet .fresh pre'
  segments : scanner.Segments .fresh blocks'
  run : scanner.run .fresh blocks'.flatten = scanner.run .fresh blocks.flatten
  same : List.Forall₂ SameUpToNewline (blocks.map List.flatten) (blocks'.map List.flatten)

namespace Decomposed

variable {bytes : List UInt8} {pre : List (List UInt8)} {blocks : List (List (List UInt8))}

theorem frontBytes_eq (h : Decomposed bytes pre blocks) :
    bytes = frontBytes (bytes.take (bomLength bytes)) pre blocks := by
  have hbytes := h.bytes_eq
  rw [← List.flatten_flatten] at hbytes
  rw [frontBytes, List.flatten_append, ← List.append_assoc]
  exact hbytes

theorem segments_fresh (h : Decomposed bytes pre blocks) : scanner.Segments .fresh blocks :=
  h.run_pre.1 ▸ h.segments

/-- A file that holds no line at all. -/
theorem finished_of_nil (h : Decomposed bytes pre blocks) (hnil : pre ++ blocks.flatten = []) :
    ∃ pre' blocks', Finished bytes (bytes.take (bomLength bytes)) blocks pre' blocks' := by
  have hbytes := h.frontBytes_eq
  have hlines := h.lines
  rw [hnil] at hlines
  have hfront : Front (bytes.take (bomLength bytes)) pre blocks := by
    refine ⟨(take_bomLength bytes).imp_left And.left, ?_, ?_, h.ok, h.quiet, h.segments_fresh⟩
    · rw [hnil]
      exact fun _ ↦ rfl
    · rw [hnil]
      simp
  obtain ⟨pre', hfront', hending⟩ := hfront.exists_ending
  rw [← hbytes] at hending
  refine ⟨pre', blocks, hending, hfront'.isMark, hfront'.bom, hfront'.complete,
    iff_of_true hfront'.ok ?_, hfront'.quiet, hfront'.segments, rfl,
    List.forall₂_same.mpr fun _ _ ↦ Or.inl rfl⟩
  rintro ⟨line, hline, -⟩
  rw [hlines] at hline
  cases hline

theorem finished_of_lines (h : Decomposed bytes pre blocks) {pre' : List (List UInt8)}
    {blocks' : List (List (List UInt8))} (hne : pre ++ blocks.flatten ≠ [])
    (hlines : pre' ++ blocks'.flatten = Lines.finish newline (pre ++ blocks.flatten))
    (hquiet : scanner.Quiet .fresh pre') (hsegments : scanner.Segments .fresh blocks')
    (hrun : scanner.run .fresh blocks'.flatten = scanner.run .fresh blocks.flatten)
    (hsame : List.Forall₂ SameUpToNewline (blocks.map List.flatten)
      (blocks'.map List.flatten)) :
    Finished bytes (bytes.take (bomLength bytes)) blocks pre' blocks' := by
  have hflatten : (pre ++ blocks.flatten).flatten ≠ [] := by
    obtain ⟨line, lines, hcons⟩ := List.exists_cons_of_ne_nil hne
    have := h.row.ne_nil line (by simp [hcons])
    simp [hcons, this]
  refine ⟨?_, (take_bomLength bytes).imp_left And.left, ?_, ?_, ?_, hquiet, hsegments, hrun,
    hsame⟩
  · rw [frontBytes, hlines, Lines.flatten_finish h.row, ← List.append_assoc]
    have hbytes : bytes.take (bomLength bytes) ++ (pre ++ blocks.flatten).flatten = bytes :=
      h.frontBytes_eq.symm
    have hending : Lines.ending newline bytes =
        Lines.ending newline (pre ++ blocks.flatten).flatten := by
      conv_lhs => rw [← hbytes]
      exact Lines.ending_append hflatten
    rw [hbytes, hending]
  · intro hmark
    have hbytes := h.frontBytes_eq
    have hzero : bomLength bytes = 0 :=
      ((take_bomLength bytes).resolve_right fun hbom ↦ absurd (hmark.symm.trans hbom)
        (by decide)).2
    rw [hmark, frontBytes, List.nil_append] at hbytes
    rw [hbytes] at hzero
    rw [hlines, Lines.flatten_finish h.row, Lines.ending]
    split
    · rwa [List.append_nil]
    · split_ifs
      · rwa [List.append_nil]
      · rwa [bomLength_append_newline]
  · rw [hlines]
    exact Lines.complete_finish h.row
  · rw [hlines, lineOk_finish h.row h.ok, FullLastLine, h.lines]

theorem exists_finished (h : Decomposed bytes pre blocks) :
    ∃ pre' blocks', Finished bytes (bytes.take (bomLength bytes)) blocks pre' blocks' := by
  by_cases hnil : pre ++ blocks.flatten = []
  · exact h.finished_of_nil hnil
  · have hrow := h.row
    have hok := h.ok
    rcases List.eq_nil_or_concat' blocks with rfl | ⟨done, block, rfl⟩
    · rw [List.flatten_nil, List.append_nil] at hrow hok
      refine ⟨Lines.finish newline pre, [], h.finished_of_lines hnil ?_ ?_ trivial rfl
        List.Forall₂.nil⟩
      · rw [List.flatten_nil, List.append_nil, List.append_nil]
      · exact (Splitter.quiet_congr (alike_finish hrow hok) _).mpr h.quiet
    · rw [List.flatten_append, List.flatten_singleton, ← List.append_assoc] at hrow hok
      obtain ⟨hdone, hblock, -⟩ := Splitter.segments_append.mp h.segments_fresh
      have halike := alike_finish hrow.right fun line hline ↦
        hok line (List.mem_append_right _ hline)
      refine ⟨pre, done ++ [Lines.finish newline block], h.finished_of_lines hnil ?_ h.quiet
        ?_ ?_ ?_⟩
      · rw [List.flatten_append, List.flatten_append, List.flatten_singleton,
          List.flatten_singleton, ← List.append_assoc, ← List.append_assoc,
          finish_append _ hblock.ne_nil]
      · exact Splitter.segments_append.mpr
          ⟨hdone, (Splitter.segment_congr halike _).mpr hblock, trivial⟩
      · rw [List.flatten_append, List.flatten_append, Splitter.run_append, Splitter.run_append,
          List.flatten_singleton, List.flatten_singleton, Splitter.run_congr halike]
      · have hsame : List.Forall₂ SameUpToNewline (done.map List.flatten)
            (done.map List.flatten) := List.forall₂_same.mpr fun _ _ ↦ Or.inl rfl
        have hlast : SameUpToNewline block.flatten (Lines.finish newline block).flatten := by
          rw [Lines.flatten_finish hrow.right]
          exact sameUpToNewline_ending _
        rw [List.map_append, List.map_append]
        exact List.rel_append hsame (List.Forall₂.cons hlast List.Forall₂.nil)

end Decomposed

namespace Finished

variable {bytes mark text : List UInt8} {pre' : List (List UInt8)}
  {blocks blocks' : List (List (List UInt8))}

theorem front (h : Finished bytes mark blocks pre' blocks')
    (hfull : ¬FullLastLine (bytes.drop (bomLength bytes))) :
    Front mark pre' blocks' :=
  ⟨h.isMark, h.bom, h.complete, h.ok.mpr hfull, h.quiet, h.segments⟩

/-- The lines of the file with the text behind it. -/
theorem split_append (h : Finished bytes mark blocks pre' blocks') (ht : SingleGame text) :
    Lines.split newline
      ((frontBytes mark pre' blocks' ++ (text ++ Lines.ending newline text)).drop
        (bomLength (frontBytes mark pre' blocks' ++ (text ++ Lines.ending newline text)))) =
      pre' ++ blocks'.flatten ++ Lines.finish newline (Lines.split newline text) := by
  have hrow : Lines.Row newline
      (pre' ++ blocks'.flatten ++ Lines.finish newline (Lines.split newline text)) :=
    Lines.row_append h.complete (Lines.row_of_complete (SingleGame.complete_finish text))
  rw [← SingleGame.flatten_finish, frontBytes, List.append_assoc, ← List.flatten_append]
  refine split_drop_bomLength h.isMark (fun hmark ↦ ?_) hrow
  rw [List.flatten_append, SingleGame.flatten_finish]
  by_cases hnil : pre' ++ blocks'.flatten = []
  · rw [hnil, List.flatten_nil, List.nil_append]
    simpa using ht.bomLength_finish []
  · rw [bomLength_append (getLast?_flatten_of_complete hnil h.complete)]
    exact h.bom hmark

/-- Where the scanner accepts the file with the text behind it, there was room
for both newlines. -/
theorem room_of_scan (h : Finished bytes mark blocks pre' blocks') (ht : SingleGame text)
    {texts' : List (List UInt8)}
    (hscan : gameTexts (frontBytes mark pre' blocks' ++ (text ++ Lines.ending newline text)) =
      .ok texts') :
    ¬FullLastLine (bytes.drop (bomLength bytes)) ∧ ¬FullLastLine text := by
  obtain ⟨pre'', blocks'', hdecomposed, -⟩ := gameTexts_eq_ok_iff.mp hscan
  have hok := hdecomposed.ok
  rw [← hdecomposed.lines, h.split_append ht] at hok
  exact ⟨h.ok.mp fun line hline ↦ hok line (List.mem_append_left _ hline),
    ht.ok_finish.mp fun line hline ↦ hok line (List.mem_append_right _ hline)⟩

/-- Behind a boundary, the text is one more game. -/
theorem gameTexts_of_ready (h : Finished bytes mark blocks pre' blocks') (ht : SingleGame text)
    (hready : (scanner.run .fresh blocks.flatten).Ready)
    (hfull : ¬FullLastLine (bytes.drop (bomLength bytes))) (hfull' : ¬FullLastLine text) :
    gameTexts (frontBytes mark pre' blocks' ++ (text ++ Lines.ending newline text)) =
      .ok (blocks'.map List.flatten ++ [text ++ Lines.ending newline text]) := by
  have htail : Tail (scanner.run .fresh blocks'.flatten)
      [Lines.finish newline (Lines.split newline text)] :=
    ht.tail_finish (h.run ▸ hready) hfull' (Tail.nil ht.brace)
  have hdecomposed := (h.front hfull).decomposed htail fun _ _ ↦ by
    rw [List.flatten_singleton, SingleGame.flatten_finish]
    simpa using ht.bomLength_finish []
  rw [List.flatten_singleton, SingleGame.flatten_finish] at hdecomposed
  rw [gameTexts_of_decomposed hdecomposed, List.map_append, List.map_singleton,
    SingleGame.flatten_finish]

/-- Behind an open header block, the text belongs to the last game. -/
theorem gameTexts_of_inHeader {done : List (List (List UInt8))} {block : List (List UInt8)}
    (h : Finished bytes mark blocks pre' (done ++ [block])) (ht : SingleGame text)
    (hstate : scanner.run .fresh blocks.flatten = .inHeader)
    (hfull : ¬FullLastLine (bytes.drop (bomLength bytes))) (hfull' : ¬FullLastLine text) :
    gameTexts (frontBytes mark pre' (done ++ [block]) ++
        (text ++ Lines.ending newline text)) =
      .ok (done.map List.flatten ++ [block.flatten ++ (text ++ Lines.ending newline text)]) := by
  have hrun := h.run.trans hstate
  rw [List.flatten_append, List.flatten_singleton, Splitter.run_append] at hrun
  obtain ⟨hdone, hblock, -⟩ := Splitter.segments_append.mp h.segments
  have hcomplete := h.complete
  have hok := h.ok.mpr hfull
  have hbom := h.bom
  have hlines : pre' ++ (done ++ [block]).flatten = pre' ++ done.flatten ++ block := by
    rw [List.flatten_append, List.flatten_singleton, ← List.append_assoc]
  rw [hlines] at hcomplete hok hbom
  have hblockComplete : ∀ line ∈ block, Lines.Complete newline line :=
    fun line hline ↦ hcomplete line (List.mem_append_right _ hline)
  have hfrontComplete : ∀ line ∈ pre' ++ done.flatten, Lines.Complete newline line :=
    fun line hline ↦ hcomplete line (List.mem_append_left _ hline)
  have hfront : Front mark pre' done := by
    refine ⟨h.isMark, fun hmark ↦ ?_, hfrontComplete,
      fun line hline ↦ hok line (List.mem_append_left _ hline), h.quiet, hdone⟩
    have := hbom hmark
    rw [List.flatten_append] at this
    exact bomLength_flatten_left hfrontComplete this
  have halike := alike_finish (Lines.row_split text) ht.ok
  obtain ⟨hquiet, hrunText⟩ := ht.quiet_inHeader
  have hsegment : scanner.Segment (scanner.run .fresh done.flatten)
      (block ++ Lines.finish newline (Lines.split newline text)) := by
    refine Splitter.segment_append hblock ?_
    rw [hrun]
    exact (Splitter.quiet_congr halike _).mpr hquiet
  have hbrace : (scanner.run (scanner.run .fresh done.flatten)
      (block ++ Lines.finish newline (Lines.split newline text))).brace = false := by
    rw [Splitter.run_append, hrun, Splitter.run_congr halike, hrunText]
    exact ht.brace
  have htail : Tail (scanner.run .fresh done.flatten)
      [block ++ Lines.finish newline (Lines.split newline text)] := by
    refine Tail.cons ?_ ?_ hsegment (Tail.nil hbrace)
    · rw [List.flatten_nil, List.append_nil]
      exact Lines.row_append hblockComplete
        (Lines.row_of_complete (SingleGame.complete_finish text))
    · intro line hline
      exact (List.mem_append.mp hline).elim (fun hline ↦ hok line (List.mem_append_right _ hline))
        (ht.ok_finish.mpr hfull' line)
  have hdecomposed := hfront.decomposed htail fun hmark hnil ↦ by
    have := hbom hmark
    rw [hnil, List.nil_append] at this
    rwa [List.flatten_singleton, List.flatten_append,
      bomLength_append (getLast?_flatten_of_complete hblock.ne_nil hblockComplete)]
  have hbytes : frontBytes mark pre' (done ++ [block]) ++ (text ++ Lines.ending newline text) =
      frontBytes mark pre' done ++
        [block ++ Lines.finish newline (Lines.split newline text)].flatten.flatten := by
    simp only [frontBytes, List.flatten_append, List.flatten_singleton,
      SingleGame.flatten_finish, List.append_assoc]
  rw [hbytes, gameTexts_of_decomposed hdecomposed, List.map_append, List.map_singleton,
    List.flatten_append, SingleGame.flatten_finish]

end Finished

/-! ## Writing behind the last game -/

theorem writeGame_append {bytes text : List UInt8} {texts : List (List UInt8)}
    (hscan : gameTexts bytes = .ok texts) (ht : SingleGame text)
    (hlength : text.length ≤ maxPgnBytes) :
    writeGame bytes texts.length text =
      .ok (bytes ++ Lines.ending newline bytes ++ (text ++ Lines.ending newline text)) := by
  obtain ⟨pre, blocks, hdecomposed, rfl⟩ := gameTexts_eq_ok_iff.mp hscan
  have hranges := scanGames_of_decomposed hdecomposed
  have hedit := editExisting_some bytes [] [] ht.ne_nil ht.startsWithNewline_eq
  simp only [List.append_nil, List.length_nil, Nat.add_zero, ne_eq, not_true_eq_false,
    and_false, if_false] at hedit
  simp only [writeGame, checkedIndex, Int.toNat_natCast, hranges, bind, Except.bind]
  rw [if_neg (by omega)]
  simp only
  rw [if_neg (Nat.not_lt.mpr hlength), List.getElem?_eq_none (by rw [length_layout])]
  simp only [length_layout, if_true]
  rw [hedit, List.append_assoc (bytes ++ Lines.ending newline bytes)]

/-- Appending the text adds one game, and the others keep their bytes up to a
newline at the end. -/
def AddsOneGame (bytes : List UInt8) (texts : List (List UInt8)) (text : List UInt8) : Prop :=
  ∃ bytes' texts' text', writeGame bytes texts.length text = .ok bytes' ∧
    gameTexts bytes' = .ok (texts' ++ [text']) ∧ List.Forall₂ SameUpToNewline texts texts' ∧
      trim (lineText text') = trim (lineText text)

/-- Behind the last game, the scanner is at a boundary exactly if that game has
a body line. -/
theorem run_last {bytes : List UInt8} {pre : List (List UInt8)}
    {done : List (List (List UInt8))} {block : List (List UInt8)}
    (h : Decomposed bytes pre (done ++ [block])) :
    ((∃ line ∈ Lines.split newline block.flatten, IsBodyLine line) ∧
        (scanner.run .fresh (done ++ [block]).flatten).Ready) ∨
      ((¬∃ line ∈ Lines.split newline block.flatten, IsBodyLine line) ∧
        scanner.run .fresh (done ++ [block]).flatten = .inHeader) := by
  have hcut := h.cut
  have hrow := hcut.tail.row
  have hbrace := h.brace
  rw [List.flatten_singleton] at hrow
  rw [Splitter.run_append, h.run_pre.1] at hbrace
  rw [Lines.split_flatten hrow]
  rw [List.flatten_append, List.flatten_singleton, Splitter.run_append] at hbrace ⊢
  rcases run_segment hcut.ready hcut.tail.head_ok hcut.tail.segments.1 with
    ⟨hbody, hended⟩ | ⟨hbody, hstate⟩
  · exact Or.inl ⟨hbody, hbrace, Or.inl hended⟩
  · exact Or.inr ⟨hbody, hstate⟩

/-- An appended text becomes a game of its own exactly if the last game has a
body line and there is room for the newlines behind the file and the text. -/
theorem addsOneGame_iff {bytes text : List UInt8} {texts : List (List UInt8)}
    (hscan : gameTexts bytes = .ok texts) (ht : SingleGame text)
    (hlength : text.length ≤ maxPgnBytes) :
    AddsOneGame bytes texts text ↔
      (∀ last ∈ texts.getLast?, ∃ line ∈ Lines.split newline last, IsBodyLine line) ∧
        ¬FullLastLine (bytes.drop (bomLength bytes)) ∧ ¬FullLastLine text := by
  have hwrite := writeGame_append hscan ht hlength
  obtain ⟨pre, blocks, hdecomposed, rfl⟩ := gameTexts_eq_ok_iff.mp hscan
  obtain ⟨pre', blocks', hfinished⟩ := hdecomposed.exists_finished
  rw [hfinished.bytes_eq] at hwrite
  constructor
  · rintro ⟨bytes', texts', text', hbytes', htexts', hsame, -⟩
    obtain rfl := Except.ok.inj (hwrite.symm.trans hbytes')
    obtain ⟨hfull, hfull'⟩ := hfinished.room_of_scan ht htexts'
    refine ⟨?_, hfull, hfull'⟩
    intro last hlast
    rcases List.eq_nil_or_concat' blocks with rfl | ⟨done, block, rfl⟩
    · cases hlast
    · obtain rfl : block.flatten = last := by simpa using hlast
      rcases run_last hdecomposed with hbody | ⟨-, hstate⟩
      · exact hbody.1
      · exfalso
        have hcount := hfinished.same.length_eq
        obtain ⟨done', block', rfl⟩ : ∃ done' block', blocks' = done' ++ [block'] := by
          refine (List.eq_nil_or_concat' blocks').resolve_left ?_
          rintro rfl
          simp at hcount
        rw [hfinished.gameTexts_of_inHeader ht hstate hfull hfull'] at htexts'
        have hlengths := congrArg List.length (Except.ok.inj htexts')
        have hsameCount := hsame.length_eq
        simp only [List.length_append, List.length_map, List.length_singleton]
          at hlengths hsameCount hcount
        omega
  · rintro ⟨hlast, hfull, hfull'⟩
    have hready : (scanner.run .fresh blocks.flatten).Ready := by
      rcases List.eq_nil_or_concat' blocks with rfl | ⟨done, block, rfl⟩
      · exact Control.ready_fresh
      · rcases run_last hdecomposed with hbody | ⟨hbody, -⟩
        · exact hbody.2
        · exact absurd (hlast block.flatten (by simp)) hbody
    exact ⟨_, _, _, hwrite, hfinished.gameTexts_of_ready ht hready hfull hfull', hfinished.same,
      ht.trim_finish⟩

/-! ## A header block alone -/

def headerOnly : List UInt8 := Utf8.encode "[Event \"A\"]\n".toList

def shortGame : List UInt8 := Utf8.encode "[Event \"B\"]\n\n*\n".toList

theorem not_fullLastLine_of_length {bytes : List UInt8} (h : bytes.length < maxLineLen) :
    ¬FullLastLine bytes := by
  rintro ⟨line, hline, -, hlength⟩
  have hmem := List.mem_of_getLast? hline
  have hsub := (List.sublist_flatten_of_mem hmem).length_le
  rw [Lines.flatten_split] at hsub
  omega

theorem addsOneGame_shortGame : AddsOneGame shortGame [shortGame] shortGame :=
  (@addsOneGame_iff shortGame shortGame [shortGame] (by decide) ⟨by decide, by decide⟩
    (by decide)).mpr
      ⟨by decide, not_fullLastLine_of_length (by decide), not_fullLastLine_of_length (by decide)⟩

/-- The appended game disappears in the one before it. -/
theorem not_addsOneGame_headerOnly :
    gameTexts headerOnly = .ok [headerOnly] ∧ SingleGame shortGame ∧
      writeGame headerOnly 1 shortGame = .ok (headerOnly ++ shortGame) ∧
        gameTexts (headerOnly ++ shortGame) = .ok [headerOnly ++ shortGame] ∧
          ¬AddsOneGame headerOnly [headerOnly] shortGame := by
  have hwrite : writeGame headerOnly 1 shortGame = .ok (headerOnly ++ shortGame) := by decide
  have htexts : gameTexts (headerOnly ++ shortGame) = .ok [headerOnly ++ shortGame] := by decide
  refine ⟨by decide, ⟨by decide, by decide⟩, hwrite, htexts, ?_⟩
  rintro ⟨bytes', texts', text', hbytes', htexts', hsame, -⟩
  obtain rfl := Except.ok.inj (hwrite.symm.trans hbytes')
  have hlengths := congrArg List.length (Except.ok.inj (htexts.symm.trans htexts'))
  have hcount := hsame.length_eq
  simp only [List.length_append, List.length_singleton] at hlengths hcount
  omega

end EnCroissant

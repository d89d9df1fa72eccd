import Mathlib
import EnCroissant.Pgn.SingleGame

/-!
# Editing one game

Deleting or replacing a game leaves the other games alone.  The newline that is
put behind a replacement can make its last line too long; this is the only way
in which an edit fails.
-/

namespace EnCroissant

/-! ## Deleting a game -/

/-- A game keeps its bytes; it loses a byte order mark of its own where it comes
to stand at the start of the file. -/
def SameGame (text text' : List UInt8) : Prop := text' = text ∨ text = utf8Bom ++ text'

theorem bomLength_row {line : List UInt8} {lines : List (List UInt8)}
    (h : Lines.Row newline (line :: lines)) :
    bomLength (line :: lines).flatten = bomLength line := by
  rw [List.flatten_cons]
  rcases h.1 with hline | ⟨-, rfl⟩
  · exact bomLength_append hline.getLast? _
  · simp

/-- A tag line with a byte order mark, and without. -/
theorem exists_of_bomLength_ne {line : List UInt8} (hok : LineOk line) (htag : IsTagLine line)
    (hbom : bomLength line ≠ 0) :
    ∃ line', line = utf8Bom ++ line' ∧ line' ≠ [] ∧ LineOk line' ∧ IsTagLine line' := by
  have htake : line.take 3 = utf8Bom := by
    by_contra hne
    exact hbom (if_neg hne)
  have hline := eq_bom_append htake
  have hthree : bomLength line = 3 := if_pos htake
  have htag' : IsTagLine (line.drop 3) := by
    have := tagValueSpans_drop_bom htag
    rwa [hthree] at this
  refine ⟨line.drop 3, hline, ?_, ⟨?_, ?_⟩, htag'⟩
  · intro hnil
    rw [hnil] at htag'
    exact absurd htag' (by decide)
  · exact (by simp : (line.drop 3).length ≤ line.length).trans hok.1
  · have hencode := Utf8.encode_of_decode (decode_lineText hok)
    rw [hline, ← encodeChar_bom] at hencode
    obtain ⟨text', -, htext'⟩ := Utf8.eq_cons_of_encode_eq hencode.symm
    rw [← htext', Utf8.decode_eq_some_iff.mpr rfl]
    rfl

/-- The lines behind a deleted first game are a file. -/
theorem exists_texts_of_tail {next : List (List UInt8)} {rest : List (List (List UInt8))}
    (h : Tail .fresh (next :: rest)) (htag : TagLed next) :
    ∃ texts', gameTexts (next :: rest).flatten.flatten = .ok texts' ∧
      List.Forall₂ SameGame ((next :: rest).map List.flatten) texts' := by
  obtain ⟨line, lines, rfl, htag⟩ := htag
  have hok := h.head_ok line (List.mem_cons_self ..)
  have hsame : List.Forall₂ SameGame (rest.map List.flatten) (rest.map List.flatten) :=
    List.forall₂_same.mpr fun _ _ ↦ Or.inl rfl
  by_cases hbom : bomLength line = 0
  · have hfront : Front [] [] [] :=
      ⟨Or.inl rfl, fun _ ↦ rfl, by simp, by simp, trivial, trivial⟩
    have hdecomposed := hfront.decomposed h fun _ _ ↦ (bomLength_row h.row).trans hbom
    refine ⟨_, gameTexts_of_decomposed hdecomposed, ?_⟩
    exact List.forall₂_same.mpr fun _ _ ↦ Or.inl rfl
  · obtain ⟨line', rfl, hne, hok', htag'⟩ := exists_of_bomLength_ne hok htag hbom
    have hfront : Front utf8Bom [] [] :=
      ⟨Or.inr rfl, fun hmark ↦ absurd hmark (by decide), by simp, by simp, trivial, trivial⟩
    have hnext := (Control.next_of_ready Control.ready_fresh hok htag).2
    have hnext' := Control.next_of_ready Control.ready_fresh hok' htag'
    have hstep : scanner.step .fresh line' = scanner.step .fresh (utf8Bom ++ line') :=
      hnext'.2.trans hnext.symm
    have htail : Tail .fresh ((line' :: lines) :: rest) := by
      refine Tail.cons (h.row.of_append hne) ?_ ⟨hnext'.1, ?_⟩ ?_
      · intro l hl
        rcases List.mem_cons.mp hl with rfl | hl
        · exact hok'
        · exact h.head_ok l (List.mem_cons_of_mem _ hl)
      · rw [hstep]
        exact h.segments.1.2
      · rw [Splitter.run_cons, hstep]
        exact h.next
    have hdecomposed := hfront.decomposed htail fun hmark ↦ absurd hmark (by decide)
    have hbytes : frontBytes utf8Bom [] [] ++ ((line' :: lines) :: rest).flatten.flatten =
        (((utf8Bom ++ line') :: lines) :: rest).flatten.flatten := by
      simp [frontBytes]
    rw [hbytes] at hdecomposed
    refine ⟨_, gameTexts_of_decomposed hdecomposed, List.Forall₂.cons (Or.inr ?_) hsame⟩
    simp

/-- The other games keep their bytes and their order. -/
theorem deleteGame_of_cut {bytes mark : List UInt8} {pre : List (List UInt8)}
    {done rest : List (List (List UInt8))} {block : List (List UInt8)}
    (h : Cut bytes mark pre done block rest) :
    ∃ bytes' texts', deleteGame bytes done.length = .ok bytes' ∧
      gameTexts bytes' = .ok texts' ∧
        List.Forall₂ SameGame ((done ++ rest).map List.flatten) texts' := by
  have hsame : ∀ texts, List.Forall₂ SameGame texts texts :=
    fun texts ↦ List.forall₂_same.mpr fun _ _ ↦ Or.inl rfl
  rw [h.deleteGame_eq]
  cases rest with
  | nil =>
      refine ⟨_, _, editExisting_none _ _ (by simp), ?_, hsame _⟩
      have hdecomposed := h.front.decomposed (Tail.nil h.ready.1) fun _ _ ↦ rfl
      simpa using gameTexts_of_decomposed hdecomposed
  | cons next rest =>
      have hnext := h.tail.next
      obtain ⟨hstate, htag⟩ := Splitter.Segment.tag
        (started_of_segment h.tail.segments.1) hnext.segments.1
      have hhead : (next :: rest).flatten.flatten.head? ≠ some newline := by
        rw [List.flatten_cons, List.flatten_append]
        exact head?_ne_newline htag hnext.row.left
      have hback : (next :: rest).flatten.flatten ≠ [] := by
        obtain ⟨line, lines, rfl, -⟩ := htag
        have := hnext.row.ne_nil line (List.mem_cons_self ..)
        simp [this]
      have htail : Tail (scanner.run .fresh done.flatten) (next :: rest) :=
        hnext.of_ready (hstate ▸ Control.ready_atBoundary) h.ready htag
      obtain ⟨pre', hfront, hending⟩ := h.front.exists_ending
      rw [editExisting_none _ _ hhead, if_neg hback, hending]
      by_cases hempty : mark = [] ∧ pre' ++ done.flatten = []
      · obtain ⟨rfl, hempty⟩ := hempty
        obtain ⟨rfl, hdone⟩ := List.append_eq_nil_iff.mp hempty
        have hnil : done = [] := by
          cases done with
          | nil => rfl
          | cons first done =>
              have := h.front.segments.1.ne_nil
              simp [this] at hdone
        subst hnil
        obtain ⟨texts', htexts', hsame'⟩ := exists_texts_of_tail htail htag
        exact ⟨_, texts', rfl, htexts', hsame'⟩
      · refine ⟨_, _, rfl, ?_, hsame _⟩
        exact gameTexts_of_decomposed
          (hfront.decomposed htail fun hmark hpre ↦ absurd ⟨hmark, hpre⟩ hempty)

/-! ## Replacing a game -/

theorem writeGame_of_cut {bytes mark text : List UInt8} {pre : List (List UInt8)}
    {done rest : List (List (List UInt8))} {block : List (List UInt8)}
    (h : Cut bytes mark pre done block rest) (ht : SingleGame text)
    (hlength : text.length ≤ maxPgnBytes) :
    ∃ pre', Front mark pre' done ∧
      writeGame bytes done.length text =
        .ok (frontBytes mark pre' done ++ text ++
          (if rest = [] then [] else Lines.ending newline text) ++ rest.flatten.flatten) := by
  obtain ⟨pre', hfront, hending⟩ := h.front.exists_ending
  have hblock : block.flatten ≠ [] := by
    obtain ⟨line, lines, rfl⟩ := List.exists_cons_of_ne_nil h.tail.segments.1.ne_nil
    have := h.tail.row.ne_nil line (List.mem_cons_self ..)
    simp [this]
  have hback : rest.flatten.flatten = [] ∧ block.flatten ≠ [] ↔ rest = [] := by
    refine ⟨fun hnil ↦ ?_, fun hnil ↦ ⟨by simp [hnil], hblock⟩⟩
    cases rest with
    | nil => rfl
    | cons next rest =>
        obtain ⟨line, lines, rfl⟩ :=
          List.exists_cons_of_ne_nil h.tail.next.segments.1.ne_nil
        have := h.tail.next.row.ne_nil line (List.mem_cons_self ..)
        simp [this] at hnil
  refine ⟨pre', hfront, ?_⟩
  rw [h.writeGame_eq hlength, editExisting_some _ _ _ ht.ne_nil ht.startsWithNewline_eq, hending,
    if_congr hback rfl rfl]

/-- The game at this index is deleted, and replaced by the text, without effect
on the other games. -/
structure EditsOneGame (bytes : List UInt8) (texts : List (List UInt8)) (i : ℕ)
    (text : List UInt8) : Prop where
  delete : ∃ bytes' texts', deleteGame bytes i = .ok bytes' ∧ gameTexts bytes' = .ok texts' ∧
    List.Forall₂ SameGame (texts.eraseIdx i) texts'
  replace : ∃ bytes' text', writeGame bytes i text = .ok bytes' ∧
    gameTexts bytes' = .ok (texts.set i text') ∧ trim (lineText text') = trim (lineText text)

/-- A replacement in front of further games leaves no room for a newline. -/
theorem not_fullLastLine_of_scan {mark bytes' text : List UInt8} {pre : List (List UInt8)}
    {done rest : List (List (List UInt8))} {texts' : List (List UInt8)}
    (hfront : Front mark pre done) (ht : SingleGame text)
    (hrow : Lines.Row newline rest.flatten)
    (hbytes' : bytes' = frontBytes mark pre done ++ text ++ Lines.ending newline text ++
      rest.flatten.flatten)
    (hscan : gameTexts bytes' = .ok texts') :
    ¬FullLastLine text := by
  obtain ⟨pre', blocks', hdecomposed, -⟩ := gameTexts_eq_ok_iff.mp hscan
  have hflatten : (Lines.finish newline (Lines.split newline text) ++ rest.flatten).flatten =
      text ++ Lines.ending newline text ++ rest.flatten.flatten := by
    rw [List.flatten_append, SingleGame.flatten_finish]
  have hsplit := @Front.split_eq _ _ _ hfront
    (Lines.finish newline (Lines.split newline text) ++ rest.flatten)
    (Lines.row_append (SingleGame.complete_finish text) hrow)
    (fun _ _ ↦ hflatten ▸ ht.bomLength_finish _)
  rw [hflatten, ← List.append_assoc, ← List.append_assoc, ← hbytes', hdecomposed.lines] at hsplit
  refine ht.ok_finish.mp fun line hline ↦ hdecomposed.ok line ?_
  rw [hsplit]
  exact List.mem_append_right _ (List.mem_append_left _ hline)

theorem exists_cut {bytes : List UInt8} {texts : List (List UInt8)}
    (hscan : gameTexts bytes = .ok texts) {i : ℕ} (hi : i < texts.length) :
    ∃ mark pre done block rest, Cut bytes mark pre done block rest ∧ done.length = i ∧
      texts = (done ++ block :: rest).map List.flatten := by
  obtain ⟨pre, blocks, hdecomposed, rfl⟩ := gameTexts_eq_ok_iff.mp hscan
  rw [List.length_map] at hi
  have hblocks : blocks = blocks.take i ++ blocks[i] :: blocks.drop (i + 1) := by simp
  have hlength : (blocks.take i).length = i := by
    rw [List.length_take]
    omega
  rw [hblocks] at hdecomposed
  exact ⟨_, pre, _, _, _, hdecomposed.cut, hlength, congrArg _ hblocks⟩

theorem EditsOneGame.not_fullLastLine {bytes : List UInt8} {texts : List (List UInt8)}
    {i : ℕ} {text : List UInt8} (h : EditsOneGame bytes texts i text)
    (hscan : gameTexts bytes = .ok texts) (hi : i + 1 < texts.length) (ht : SingleGame text)
    (hlength : text.length ≤ maxPgnBytes) :
    ¬FullLastLine text := by
  obtain ⟨mark, pre, done, block, rest, hcut, rfl, rfl⟩ :=
    exists_cut hscan (Nat.lt_of_succ_lt hi)
  obtain ⟨pre', hfront, hwrite⟩ := writeGame_of_cut hcut ht hlength
  obtain ⟨bytes', text', hbytes', htexts', -⟩ := h.replace
  have hrest : rest ≠ [] := by
    rintro rfl
    simp at hi
  rw [hwrite, if_neg hrest] at hbytes'
  exact not_fullLastLine_of_scan hfront ht hcut.tail.next.row (Except.ok.inj hbytes').symm htexts'

/-- The replaced game, and all others as they were. -/
theorem replaceGame_of_cut {bytes mark text : List UInt8} {pre : List (List UInt8)}
    {done rest : List (List (List UInt8))} {block : List (List UInt8)}
    (h : Cut bytes mark pre done block rest) (ht : SingleGame text)
    (hbody : ∃ line ∈ Lines.split newline text, IsBodyLine line)
    (hlength : text.length ≤ maxPgnBytes) (hroom : rest = [] ∨ ¬FullLastLine text) :
    ∃ bytes' text', writeGame bytes done.length text = .ok bytes' ∧
      gameTexts bytes' = .ok (done.map List.flatten ++ text' :: rest.map List.flatten) ∧
        trim (lineText text') = trim (lineText text) := by
  obtain ⟨pre', hfront, hwrite⟩ := writeGame_of_cut h ht hlength
  by_cases hrest : rest = []
  · subst hrest
    have hdecomposed := hfront.decomposed (ht.tail h.ready) fun _ _ ↦ by
      rw [List.flatten_singleton, Lines.flatten_split]
      exact ht.decomposed.1
    rw [List.flatten_singleton, Lines.flatten_split] at hdecomposed
    refine ⟨_, text, hwrite, ?_, rfl⟩
    rw [if_pos rfl]
    simpa [Lines.flatten_split] using gameTexts_of_decomposed hdecomposed
  · have hfull : ¬FullLastLine text := hroom.resolve_left hrest
    obtain ⟨next, rest, rfl⟩ := List.exists_cons_of_ne_nil hrest
    have hnext := h.tail.next
    have hstate := (Splitter.Segment.tag (started_of_segment h.tail.segments.1)
      hnext.segments.1).1
    rw [hstate, ← ht.run_eq hbody] at hnext
    have hflatten : (Lines.finish newline (Lines.split newline text) ::
        next :: rest).flatten.flatten =
        text ++ Lines.ending newline text ++ (next :: rest).flatten.flatten := by
      rw [List.flatten_cons, List.flatten_append, SingleGame.flatten_finish]
    have hdecomposed := hfront.decomposed (ht.tail_finish h.ready hfull hnext)
      fun _ _ ↦ hflatten ▸ ht.bomLength_finish _
    rw [hflatten, ← List.append_assoc, ← List.append_assoc] at hdecomposed
    refine ⟨_, text ++ Lines.ending newline text, hwrite, ?_, ht.trim_finish⟩
    rw [if_neg hrest, gameTexts_of_decomposed hdecomposed, List.map_append,
      List.map_cons, SingleGame.flatten_finish]

def twoGames : List UInt8 :=
  Utf8.encode "[Event \"A\"]\n\n*\n[Event \"C\"]\n\n*\n".toList

def twoTexts : List (List UInt8) :=
  [Utf8.encode "[Event \"A\"]\n\n*\n".toList, Utf8.encode "[Event \"C\"]\n\n*\n".toList]

def tagLineB : List UInt8 := Utf8.encode "[Event \"B\"]\n".toList

/-- A movetext line of the letter `a` only. -/
def plainLine (n : ℕ) : List UInt8 := List.replicate n 97

theorem decode_plainLine (n : ℕ) :
    Utf8.decode (plainLine n) = some (List.replicate n 'a') := by
  rw [Utf8.decode_eq_some_iff]
  induction n with
  | zero => rfl
  | succ n ih =>
      rw [List.replicate_succ, Utf8.encode_cons, ← ih]
      rfl

theorem isBodyLine_plainLine (n : ℕ) : IsBodyLine (plainLine (n + 1)) := by
  refine ⟨?_, ?_⟩
  · simp [IsTagLine, plainLine, List.replicate_succ, tagValueSpans, tagValueSpansFrom, bomLength,
      utf8Bom, isAsciiWhitespace]
  · simp [IsEscapeLine, lineText, decode_plainLine, List.replicate_succ, trimBlanks]

theorem split_longGame (n : ℕ) :
    Lines.split newline (tagLineB ++ plainLine (n + 1)) = [tagLineB, plainLine (n + 1)] := by
  have htag : Lines.Complete newline tagLineB :=
    ⟨Utf8.encode "[Event \"B\"]".toList, by decide, by decide⟩
  have hplain : Lines.Unfinished newline (plainLine (n + 1)) := by
    refine ⟨by simp [plainLine], ?_⟩
    simp [plainLine, newline]
  rw [Lines.split_complete_append htag, Lines.split_unfinished hplain]

theorem singleGame_longGame {n : ℕ} (h : n + 1 ≤ maxLineLen) :
    SingleGame (tagLineB ++ plainLine (n + 1)) := by
  have hbom : bomLength (tagLineB ++ plainLine (n + 1)) = 0 :=
    (bomLength_append (by decide) _).trans (by decide)
  have hnext : scanner.step .fresh tagLineB = .inHeader := by decide
  have hplain : ∀ c ∈ lineText (plainLine (n + 1)), c ≠ '{' := by
    intro c hc
    rw [lineText, decode_plainLine] at hc
    rw [List.eq_of_mem_replicate hc]
    decide
  have hdecomposed : Decomposed (tagLineB ++ plainLine (n + 1)) []
      [[tagLineB, plainLine (n + 1)]] := by
    refine ⟨?_, ?_, trivial, ⟨⟨by decide, ?_⟩, trivial⟩, ?_⟩
    · rw [hbom, List.drop_zero, split_longGame]
      rfl
    · intro line hline
      rcases List.mem_pair.mp (by simpa using hline) with rfl | rfl
      · decide
      · exact ⟨by simpa [plainLine] using h, by rw [decode_plainLine]; rfl⟩
    · rw [Splitter.run_nil, hnext]
      exact ⟨Control.startsGame_inHeader (plainLine (n + 1)), trivial⟩
    · change (scanner.step (scanner.step .fresh tagLineB) (plainLine (n + 1))).brace = false
      rw [hnext]
      exact Control.brace_next_of_plain rfl hplain
  refine ⟨?_, tagLineB, by rw [split_longGame]; rfl, by decide⟩
  rw [scanGames_of_decomposed hdecomposed, hbom]
  simp [layout]

end EnCroissant

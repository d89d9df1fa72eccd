import Mathlib
import EnCroissant.Pgn.Cut

/-!
# The text of a single game

A text that scans to one game, starting with a tag line, can stand behind every
boundary, also with a newline put behind it.
-/

namespace EnCroissant

/-- The text scans to one game, which starts with a tag line. -/
structure SingleGame (text : List UInt8) : Prop where
  scan : scanGames text = .ok [⟨0, text.length⟩]
  tag : ∃ line ∈ (Lines.split newline text).head?, IsTagLine line

theorem isSome_decode_flatten {lines : List (List UInt8)} (h : ∀ line ∈ lines, LineOk line) :
    (Utf8.decode lines.flatten).isSome := by
  induction lines with
  | nil => decide
  | cons line lines ih =>
      obtain ⟨text, htext⟩ := Option.isSome_iff_exists.mp (h line (List.mem_cons_self ..)).2
      obtain ⟨text', htext'⟩ := Option.isSome_iff_exists.mp
        (ih fun l hl ↦ h l (List.mem_cons_of_mem _ hl))
      have hdecode : Utf8.decode (line ++ lines.flatten) = some (text ++ text') := by
        rw [Utf8.decode_eq_some_iff, Utf8.encode_append, Utf8.encode_of_decode htext,
          Utf8.encode_of_decode htext']
      rw [List.flatten_cons, hdecode]
      rfl

theorem trim_append_newline (text : List Char) : trim (text ++ ['\n']) = trim text := by
  have hnewline : isWhitespace '\n' = true := by decide
  rw [trim, trim]
  by_cases h : ∀ c ∈ text, isWhitespace c = true
  · have hall : ∀ c ∈ text ++ ['\n'], isWhitespace c = true := by
      simpa [or_imp, forall_and, hnewline] using h
    rw [List.dropWhile_eq_nil_iff.mpr h, List.dropWhile_eq_nil_iff.mpr hall]
  · have hne : text.dropWhile isWhitespace ≠ [] := fun hnil ↦
      h (List.dropWhile_eq_nil_iff.mp hnil)
    have hdrop : (text ++ ['\n']).dropWhile isWhitespace =
        text.dropWhile isWhitespace ++ ['\n'] := by
      rw [List.dropWhile_append, if_neg (by simpa using hne)]
    rw [hdrop, List.reverse_append, List.reverse_singleton, List.singleton_append,
      List.dropWhile_cons_of_pos hnewline]

namespace SingleGame

variable {text : List UInt8}

theorem decomposed (h : SingleGame text) :
    bomLength text = 0 ∧ Decomposed text [] [Lines.split newline text] := by
  obtain ⟨pre, blocks, hdecomposed, hranges⟩ := scanGames_eq_ok_iff.mp h.scan
  have hlength := congrArg List.length hranges
  rw [length_layout, List.length_map, List.length_singleton] at hlength
  obtain ⟨block, rfl⟩ := List.length_eq_one_iff.mp hlength.symm
  have hstart : 0 = bomLength text + pre.flatten.length :=
    congrArg GameRange.start (List.singleton_inj.mp hranges)
  have hbom : bomLength text = 0 := by omega
  have hpre : pre = [] := by
    cases pre with
    | nil => rfl
    | cons line pre =>
        have hne := hdecomposed.row.ne_nil line (by simp)
        have hpos := List.length_pos_iff.mpr hne
        simp only [List.flatten_cons, List.length_append] at hstart
        omega
  have hlines := hdecomposed.lines
  rw [hbom, hpre, List.drop_zero, List.nil_append, List.flatten_singleton] at hlines
  refine ⟨hbom, ?_⟩
  rw [hlines]
  rwa [hpre] at hdecomposed

theorem ok (h : SingleGame text) : ∀ line ∈ Lines.split newline text, LineOk line := by
  have := h.decomposed.2.ok
  rwa [List.nil_append, List.flatten_singleton] at this

theorem segment (h : SingleGame text) : scanner.Segment .fresh (Lines.split newline text) :=
  h.decomposed.2.segments.1

theorem brace (h : SingleGame text) :
    (scanner.run .fresh (Lines.split newline text)).brace = false := by
  have := h.decomposed.2.brace
  rwa [List.nil_append, List.flatten_singleton] at this

theorem tagLed (h : SingleGame text) : TagLed (Lines.split newline text) := by
  obtain ⟨line, hline, htag⟩ := h.tag
  obtain ⟨rest, hrest⟩ := List.head?_eq_some_iff.mp hline
  exact ⟨line, rest, hrest, htag⟩

theorem ne_nil (h : SingleGame text) : text ≠ [] := by
  rintro rfl
  obtain ⟨line, hline, -⟩ := h.tag
  cases hline

theorem startsWithNewline_eq (h : SingleGame text) : startsWithNewline text = false := by
  have hhead := @head?_ne_newline _ [] h.tagLed (Lines.row_split text)
  rw [List.append_nil, Lines.flatten_split] at hhead
  simpa [startsWithNewline] using hhead

theorem segment_of_ready (h : SingleGame text) {s : Control} (hs : s.Ready) :
    scanner.Segment s (Lines.split newline text) ∧
      scanner.run s (Lines.split newline text) =
        scanner.run .fresh (Lines.split newline text) :=
  EnCroissant.segment_of_ready Control.ready_fresh hs h.ok h.tagLed h.segment

/-- Behind an open header block, the text starts no game. -/
theorem quiet_inHeader (h : SingleGame text) :
    scanner.Quiet .inHeader (Lines.split newline text) ∧
      scanner.run .inHeader (Lines.split newline text) =
        scanner.run .fresh (Lines.split newline text) := by
  obtain ⟨line, rest, hlines, htag⟩ := h.tagLed
  have hsegment := h.segment
  have hok := h.ok line (by simp [hlines])
  rw [hlines] at hsegment ⊢
  have hstep : scanner.step .inHeader line = .inHeader :=
    Control.next_inHeader fun hbody ↦ hbody.1 htag
  have hfirst : scanner.step .fresh line = .inHeader :=
    (Control.next_of_ready Control.ready_fresh hok htag).2
  refine ⟨⟨Control.startsGame_inHeader line, ?_⟩, ?_⟩
  · rw [hstep, ← hfirst]
    exact hsegment.2
  · rw [Splitter.run_cons, Splitter.run_cons, hstep, hfirst]

/-- With a body line, the text leaves the scanner at a boundary. -/
theorem run_eq (h : SingleGame text)
    (hbody : ∃ line ∈ Lines.split newline text, IsBodyLine line) :
    scanner.run .fresh (Lines.split newline text) = .atBoundary := by
  have hended := ((run_segment Control.ready_fresh h.ok h.segment).resolve_right
    fun hne ↦ hne.1 hbody).2
  have hstarted := started_of_segment h.segment
  have hbrace := h.brace
  cases hrun : scanner.run .fresh (Lines.split newline text) with
  | mk started ended brace =>
      rw [hrun] at hended hstarted hbrace
      simp only at hended hstarted hbrace
      rw [hended, hstarted, hbrace]
      rfl

/-! ### With a newline at the end -/

theorem flatten_finish (text : List UInt8) :
    (Lines.finish newline (Lines.split newline text)).flatten =
      text ++ Lines.ending newline text := by
  rw [Lines.flatten_finish (Lines.row_split text), Lines.flatten_split]

theorem complete_finish (text : List UInt8) :
    ∀ line ∈ Lines.finish newline (Lines.split newline text), Lines.Complete newline line :=
  Lines.complete_finish (Lines.row_split text)

theorem ok_finish (h : SingleGame text) :
    (∀ line ∈ Lines.finish newline (Lines.split newline text), LineOk line) ↔
      ¬FullLastLine text :=
  lineOk_finish (Lines.row_split text) h.ok

theorem segment_finish (h : SingleGame text) {s : Control} (hs : s.Ready) :
    scanner.Segment s (Lines.finish newline (Lines.split newline text)) ∧
      scanner.run s (Lines.finish newline (Lines.split newline text)) =
        scanner.run .fresh (Lines.split newline text) := by
  have halike := alike_finish (Lines.row_split text) h.ok
  obtain ⟨hsegment, hrun⟩ := h.segment_of_ready hs
  exact ⟨(Splitter.segment_congr halike s).mpr hsegment,
    (Splitter.run_congr halike s).trans hrun⟩

theorem bomLength_finish (h : SingleGame text) (rest : List UInt8) :
    bomLength (text ++ Lines.ending newline text ++ rest) = 0 := by
  have hne : Lines.finish newline (Lines.split newline text) ≠ [] := by
    intro hnil
    have := flatten_finish text
    rw [hnil] at this
    exact h.ne_nil (List.append_eq_nil_iff.mp this.symm).1
  rw [bomLength_append
    (flatten_finish text ▸ getLast?_flatten_of_complete hne (complete_finish text))]
  rw [Lines.ending]
  split
  · rw [List.append_nil]
    exact h.decomposed.1
  · split_ifs
    · rw [List.append_nil]
      exact h.decomposed.1
    · rw [bomLength_append_newline]
      exact h.decomposed.1

theorem trim_finish (h : SingleGame text) :
    trim (lineText (text ++ Lines.ending newline text)) = trim (lineText text) := by
  have hdecode := isSome_decode_flatten h.ok
  rw [Lines.flatten_split] at hdecode
  rw [Lines.ending]
  split
  · rw [List.append_nil]
  · split_ifs
    · rw [List.append_nil]
    · rw [lineText_append_newline hdecode, trim_append_newline]

theorem tail_finish (h : SingleGame text) {s : Control} (hs : s.Ready)
    (hfull : ¬FullLastLine text) {rest : List (List (List UInt8))}
    (hrest : Tail (scanner.run .fresh (Lines.split newline text)) rest) :
    Tail s (Lines.finish newline (Lines.split newline text) :: rest) := by
  obtain ⟨hsegment, hrun⟩ := h.segment_finish hs
  exact Tail.cons (Lines.row_append (complete_finish text) hrest.row) (h.ok_finish.mpr hfull)
    hsegment (hrun ▸ hrest)

theorem tail (h : SingleGame text) {s : Control} (hs : s.Ready) :
    Tail s [Lines.split newline text] := by
  obtain ⟨hsegment, hrun⟩ := h.segment_of_ready hs
  refine Tail.cons ?_ h.ok hsegment (Tail.nil ?_)
  · rw [List.flatten_nil, List.append_nil]
    exact Lines.row_split text
  · rw [hrun]
    exact h.brace

end SingleGame

end EnCroissant

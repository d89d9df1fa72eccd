import Mathlib
import EnCroissant.Pgn.Partition

/-!
# Joining the parts of files

The front of a file, cut in front of a game, can be followed by games from
elsewhere: a tag line starts a game behind every front, and a newline at the end
of a line changes nothing for the scanner.
-/

namespace EnCroissant

/-! ## A newline at the end of a line -/

theorem lineText_append_newline {line : List UInt8} (h : (Utf8.decode line).isSome) :
    lineText (line ++ [newline]) = lineText line ++ ['\n'] := by
  obtain ⟨text, htext⟩ := Option.isSome_iff_exists.mp h
  rw [lineText, lineText, decode_append_newline htext, htext]
  rfl

theorem alike_append_newline {line : List UInt8} (h : (Utf8.decode line).isSome) :
    scanner.Alike (line ++ [newline]) line := by
  intro s
  have hclass : s.classOf (line ++ [newline]) = s.classOf line := by
    rw [Control.classOf, Control.classOf, lineText_append_newline h, classify_append_newline]
  have hstarts : s.startsGame (line ++ [newline]) = s.startsGame line := by
    rw [Control.startsGame, Control.startsGame, hclass]
  have hbrace : updateBraceComment (lineText (line ++ [newline])) s.brace =
      updateBraceComment (lineText line) s.brace := by
    rw [lineText_append_newline h]
    exact updateBraceFrom_append_newline _ _ _ _
  refine ⟨?_, hstarts⟩
  change s.next _ = s.next _
  rw [Control.next, Control.next, hclass, hstarts, hbrace]

theorem alike_finish {lines : List (List UInt8)} (hrow : Lines.Row newline lines)
    (hok : ∀ line ∈ lines, LineOk line) :
    List.Forall₂ scanner.Alike (Lines.finish newline lines) lines := by
  induction lines with
  | nil => exact List.Forall₂.nil
  | cons line lines ih =>
      cases lines with
      | nil =>
          refine List.Forall₂.cons ?_ List.Forall₂.nil
          rcases hrow.1 with hline | ⟨hline, -⟩
          · rw [hline.ending_eq, List.append_nil]
            exact Splitter.Alike.refl line
          · rw [hline.ending_eq]
            exact alike_append_newline (hok line (List.mem_cons_self ..)).2
      | cons line' lines =>
          exact List.Forall₂.cons (Splitter.Alike.refl line)
            (ih hrow.2 fun l hl ↦ hok l (List.mem_cons_of_mem _ hl))

/-- A last line without a newline for which there is no room. -/
def FullLastLine (bytes : List UInt8) : Prop :=
  ∃ line ∈ (Lines.split newline bytes).getLast?,
    line.getLast? ≠ some newline ∧ line.length = maxLineLen

theorem lineOk_append_newline {line : List UInt8} (h : LineOk line) :
    LineOk (line ++ [newline]) ↔ line.length ≠ maxLineLen := by
  obtain ⟨text, htext⟩ := Option.isSome_iff_exists.mp h.2
  have hlength := h.1
  simp only [LineOk, decode_append_newline htext, Option.isSome_some, and_true,
    List.length_append, List.length_singleton]
  omega

theorem lineOk_finish {lines : List (List UInt8)} (hrow : Lines.Row newline lines)
    (hok : ∀ line ∈ lines, LineOk line) :
    (∀ line ∈ Lines.finish newline lines, LineOk line) ↔
      ¬∃ line ∈ lines.getLast?, line.getLast? ≠ some newline ∧ line.length = maxLineLen := by
  induction lines with
  | nil => simp [Lines.finish]
  | cons line lines ih =>
      cases lines with
      | nil =>
          have hline := hok line (List.mem_cons_self ..)
          rcases hrow.1 with hcomplete | ⟨hunfinished, -⟩
          · simp [Lines.finish, hcomplete.ending_eq, hcomplete.getLast?, hline]
          · simp [Lines.finish, hunfinished.ending_eq, hunfinished.getLast?_ne,
              lineOk_append_newline hline]
      | cons line' lines =>
          have hline := hok line (List.mem_cons_self ..)
          have ih := ih hrow.2 fun l hl ↦ hok l (List.mem_cons_of_mem _ hl)
          rw [Lines.finish, List.forall_mem_cons, List.getLast?_cons_cons, ← ih]
          exact and_iff_right hline

/-! ## The parts of a file -/

/-- The lines of a file in front of a game. -/
structure Front (mark : List UInt8) (pre : List (List UInt8))
    (done : List (List (List UInt8))) : Prop where
  isMark : mark = [] ∨ mark = utf8Bom
  bom : mark = [] → bomLength (pre ++ done.flatten).flatten = 0
  complete : ∀ line ∈ pre ++ done.flatten, Lines.Complete newline line
  ok : ∀ line ∈ pre ++ done.flatten, LineOk line
  quiet : scanner.Quiet .fresh pre
  segments : scanner.Segments .fresh done

/-- The games of a file behind a front. -/
structure Tail (s : Control) (blocks : List (List (List UInt8))) : Prop where
  row : Lines.Row newline blocks.flatten
  ok : ∀ line ∈ blocks.flatten, LineOk line
  segments : scanner.Segments s blocks
  brace : (scanner.run s blocks.flatten).brace = false

/-- The bytes of a front. -/
def frontBytes (mark : List UInt8) (pre : List (List UInt8))
    (done : List (List (List UInt8))) : List UInt8 :=
  mark ++ (pre ++ done.flatten).flatten

theorem bomLength_append {bytes : List UInt8} (h : bytes.getLast? = some newline)
    (rest : List UInt8) :
    bomLength (bytes ++ rest) = bomLength bytes := by
  match bytes with
  | [] => cases h
  | [a] =>
      obtain rfl : a = newline := by simpa using h
      simp [bomLength, utf8Bom, newline]
  | [a, b] =>
      obtain rfl : b = newline := by simpa using h
      simp [bomLength, utf8Bom, newline]
  | a :: b :: c :: bytes => rfl

theorem getLast?_flatten_of_complete {lines : List (List UInt8)} (hne : lines ≠ [])
    (h : ∀ line ∈ lines, Lines.Complete newline line) :
    lines.flatten.getLast? = some newline := by
  obtain ⟨lines, line, rfl⟩ := List.eq_nil_or_concat' lines |>.resolve_left hne
  have hline := h line (by simp)
  rw [List.flatten_append, List.flatten_singleton, List.getLast?_append_of_ne_nil _ hline.ne_nil, hline.getLast?]

/-- Behind the byte order mark, the lines are cut as they are. -/
theorem split_drop_bomLength {mark : List UInt8} {lines : List (List UInt8)}
    (hmark : mark = [] ∨ mark = utf8Bom) (hbom : mark = [] → bomLength lines.flatten = 0)
    (hrow : Lines.Row newline lines) :
    Lines.split newline
      ((mark ++ lines.flatten).drop (bomLength (mark ++ lines.flatten))) = lines := by
  have hlength : bomLength (mark ++ lines.flatten) = mark.length := by
    rcases hmark with rfl | rfl
    · exact hbom rfl
    · rfl
  rw [hlength, List.drop_left, Lines.split_flatten hrow]

namespace Front

variable {mark : List UInt8} {pre : List (List UInt8)} {done : List (List (List UInt8))}

theorem bom_append (h : Front mark pre done) {rest : List UInt8}
    (hrest : mark = [] → pre ++ done.flatten = [] → bomLength rest = 0) (hmark : mark = []) :
    bomLength ((pre ++ done.flatten).flatten ++ rest) = 0 := by
  by_cases hnil : pre ++ done.flatten = []
  · rw [hnil]
    exact hrest hmark hnil
  · rw [bomLength_append (getLast?_flatten_of_complete hnil h.complete)]
    exact h.bom hmark

/-- Behind a front, the lines are cut as they are. -/
theorem split_eq (h : Front mark pre done) {lines : List (List UInt8)}
    (hrow : Lines.Row newline lines)
    (hrest : mark = [] → pre ++ done.flatten = [] → bomLength lines.flatten = 0) :
    Lines.split newline ((frontBytes mark pre done ++ lines.flatten).drop
      (bomLength (frontBytes mark pre done ++ lines.flatten))) =
        pre ++ done.flatten ++ lines := by
  rw [frontBytes, List.append_assoc, ← List.flatten_append]
  refine split_drop_bomLength h.isMark (fun hmark ↦ ?_) (Lines.row_append h.complete hrow)
  rw [List.flatten_append]
  exact h.bom_append hrest hmark

theorem run_pre (h : Front mark pre done) : scanner.run .fresh pre = .fresh :=
  (run_fresh_of_quiet (fun line hline ↦ h.ok line (List.mem_append_left _ hline)) h.quiet).1

/-- A front and games behind it are a file. -/
theorem decomposed (h : Front mark pre done) {blocks : List (List (List UInt8))}
    (htail : Tail (scanner.run .fresh done.flatten) blocks)
    (hrest : mark = [] → pre ++ done.flatten = [] → bomLength blocks.flatten.flatten = 0) :
    Decomposed (frontBytes mark pre done ++ blocks.flatten.flatten) pre (done ++ blocks) where
  lines := by
    rw [h.split_eq htail.row hrest, List.flatten_append, List.append_assoc]
  ok line hline := by
    rw [List.flatten_append, ← List.append_assoc] at hline
    exact (List.mem_append.mp hline).elim (h.ok line) (htail.ok line)
  quiet := h.quiet
  segments := by
    rw [h.run_pre]
    exact Splitter.segments_append.mpr ⟨h.segments, htail.segments⟩
  brace := by
    rw [List.flatten_append, Splitter.run_append, h.run_pre, Splitter.run_append]
    exact htail.brace

/-- The byte order mark is followed by a line of its own where nothing else
stands in front. -/
theorem exists_ending (h : Front mark pre done) :
    ∃ pre', Front mark pre' done ∧
      frontBytes mark pre done ++ Lines.ending newline (frontBytes mark pre done) =
        frontBytes mark pre' done := by
  by_cases hnil : pre ++ done.flatten = []
  · obtain ⟨rfl, hdone⟩ := List.append_eq_nil_iff.mp hnil
    rcases h.isMark with rfl | rfl
    · exact ⟨[], h, by simp [frontBytes, hdone, Lines.ending]⟩
    · refine ⟨[[newline]], ⟨Or.inr rfl, fun hmark ↦ absurd hmark (by decide), ?_, ?_, ?_,
        h.segments⟩, ?_⟩
      · simp [hdone, Lines.Complete]
      · rw [hdone, List.append_nil, List.forall_mem_singleton]
        decide
      · exact ⟨by decide, trivial⟩
      · rw [frontBytes, frontBytes, hdone]
        decide
  · have hlast := getLast?_flatten_of_complete hnil h.complete
    refine ⟨pre, h, ?_⟩
    have hne : (pre ++ done.flatten).flatten ≠ [] := by
      intro heq
      rw [heq] at hlast
      cases hlast
    rw [frontBytes, Lines.ending_append hne, Lines.ending, hlast]
    simp

end Front

/-! ## Games behind a boundary -/

/-- The first line is a tag line. -/
def TagLed (block : List (List UInt8)) : Prop :=
  ∃ line rest, block = line :: rest ∧ IsTagLine line

theorem head?_ne_newline {block : List (List UInt8)} {rest : List UInt8} (htag : TagLed block)
    (hrow : Lines.Row newline block) :
    (block.flatten ++ rest).head? ≠ some newline := by
  obtain ⟨line, lines, rfl, htag⟩ := htag
  have hne : line ≠ [] := hrow.ne_nil line (List.mem_cons_self ..)
  obtain ⟨b, line, rfl⟩ := List.exists_cons_of_ne_nil hne
  intro hhead
  obtain rfl : b = newline := by simpa using hhead
  rcases hrow.1 with ⟨body, hbody, hline⟩ | ⟨⟨-, hmem⟩, -⟩
  · cases body with
    | nil =>
        rw [hline] at htag
        exact absurd htag (by decide)
    | cons c body =>
        obtain ⟨rfl, -⟩ := List.cons.inj hline
        exact hbody (List.mem_cons_self ..)
  · exact hmem (List.mem_cons_self ..)

theorem segment_of_ready {s s' : Control} (hs : s.Ready) (hs' : s'.Ready)
    {block : List (List UInt8)} (hok : ∀ line ∈ block, LineOk line) (htag : TagLed block)
    (h : scanner.Segment s block) :
    scanner.Segment s' block ∧ scanner.run s' block = scanner.run s block := by
  obtain ⟨line, rest, rfl, htag⟩ := htag
  obtain ⟨-, hnext⟩ := Control.next_of_ready hs (hok line (List.mem_cons_self ..)) htag
  obtain ⟨hstarts', hnext'⟩ := Control.next_of_ready hs' (hok line (List.mem_cons_self ..)) htag
  have hstep : scanner.step s line = scanner.step s' line := hnext.trans hnext'.symm
  refine ⟨⟨hstarts', ?_⟩, ?_⟩
  · rw [← hstep]
    exact h.2
  · rw [Splitter.run_cons, Splitter.run_cons, hstep]

namespace Tail

variable {s s' : Control} {block : List (List UInt8)} {blocks : List (List (List UInt8))}

theorem nil (h : s.brace = false) : Tail s [] := ⟨trivial, by simp, trivial, h⟩

theorem cons (hrow : Lines.Row newline (block ++ blocks.flatten))
    (hok : ∀ line ∈ block, LineOk line) (hsegment : scanner.Segment s block)
    (h : Tail (scanner.run s block) blocks) :
    Tail s (block :: blocks) where
  row := hrow
  ok line hline := (List.mem_append.mp hline).elim (hok line) (h.ok line)
  segments := ⟨hsegment, h.segments⟩
  brace := by
    rw [List.flatten_cons, Splitter.run_append]
    exact h.brace

theorem head_ok (h : Tail s (block :: blocks)) : ∀ line ∈ block, LineOk line :=
  fun line hline ↦ h.ok line (List.mem_append_left _ hline)

theorem next (h : Tail s (block :: blocks)) : Tail (scanner.run s block) blocks where
  row := h.row.right
  ok line hline := h.ok line (List.mem_append_right _ hline)
  segments := h.segments.2
  brace := by
    have := h.brace
    rwa [List.flatten_cons, Splitter.run_append] at this

/-- Games behind a tag line can stand behind every boundary. -/
theorem of_ready (hs : s.Ready) (hs' : s'.Ready) (h : Tail s (block :: blocks))
    (htag : TagLed block) :
    Tail s' (block :: blocks) := by
  obtain ⟨hsegment, hrun⟩ := segment_of_ready hs hs' h.head_ok htag h.segments.1
  exact cons h.row h.head_ok hsegment (hrun ▸ h.next)

end Tail

/-- The state in front of a game. -/
theorem ready_of_segments {done : List (List (List UInt8))} {block : List (List UInt8)}
    (hdone : scanner.Segments .fresh done)
    (h : scanner.Segment (scanner.run .fresh done.flatten) block) :
    (scanner.run .fresh done.flatten).Ready ∧ (done ≠ [] → TagLed block) := by
  cases done with
  | nil => exact ⟨Control.ready_fresh, fun hne ↦ absurd rfl hne⟩
  | cons first done =>
      have hstarted : (scanner.run .fresh (first :: done).flatten).started = true := by
        rw [List.flatten_cons, Splitter.run_append]
        exact run_started (started_of_segment hdone.1) _
      obtain ⟨hstate, htag⟩ := Splitter.Segment.tag hstarted h
      rw [hstate]
      exact ⟨Control.ready_atBoundary, fun _ ↦ htag⟩

/-! ## Movetext -/

/-- A line that is neither a tag line nor an escape. -/
def IsBodyLine (line : List UInt8) : Prop := ¬IsTagLine line ∧ ¬IsEscapeLine line

instance (line : List UInt8) : Decidable (IsBodyLine line) :=
  inferInstanceAs (Decidable (_ ∧ _))

namespace Control

theorem escapedLine_iff {s : Control} {line : List UInt8} :
    (s.classOf line).escapedLine = true ↔ s.brace = false ∧ IsEscapeLine line := by
  simp [classOf, classify, IsEscapeLine]

theorem ended_next_of_body {s : Control} {line : List UInt8}
    (hstarted : (s.started || s.startsGame line) = true) (hbody : IsBodyLine line) :
    (s.next line).ended = true := by
  have hheader : (s.classOf line).header = false :=
    Bool.eq_false_of_not_eq_true fun h ↦ hbody.1 (header_iff.mp h).2
  have hescaped : (s.classOf line).escapedLine = false :=
    Bool.eq_false_of_not_eq_true fun h ↦ hbody.2 (escapedLine_iff.mp h).2
  simp [next, hheader, hescaped, hstarted]

theorem ended_next {s : Control} {line : List UInt8} (hended : s.ended = true)
    (hquiet : s.startsGame line = false) :
    (s.next line).ended = true := by
  have hheader : (s.classOf line).header = false := by
    have := (Bool.or_eq_false_iff.mp hquiet).1
    rwa [hended, Bool.and_true] at this
  simp [next, hheader, hended]

theorem startsGame_inHeader (line : List UInt8) : inHeader.startsGame line = false := by
  simp [startsGame, inHeader]

/-- The header block goes on over tag lines and escapes. -/
theorem next_inHeader {line : List UInt8} (h : ¬IsBodyLine line) :
    inHeader.next line = inHeader := by
  have hquiet := startsGame_inHeader line
  by_cases hheader : (inHeader.classOf line).header = true
  · simp only [next, hquiet, hheader]
    simp [inHeader]
  · have hescaped : (inHeader.classOf line).escapedLine = true := by
      refine escapedLine_iff.mpr ⟨rfl, ?_⟩
      by_contra hne
      exact h ⟨fun htag ↦ hheader (header_iff.mpr ⟨rfl, htag⟩), hne⟩
    have hcomment : (inHeader.classOf line).escapedOrLineComment = true := by
      change ((inHeader.classOf line).escapedLine || _) = true
      rw [hescaped, Bool.true_or]
    simp only [next, hquiet, Bool.eq_false_of_not_eq_true hheader, hescaped, hcomment]
    simp [inHeader]

end Control

theorem ended_run {s : Control} (hended : s.ended = true) {lines : List (List UInt8)}
    (h : scanner.Quiet s lines) :
    (scanner.run s lines).ended = true := by
  induction lines generalizing s with
  | nil => exact hended
  | cons line lines ih => exact ih (Control.ended_next hended h.1) h.2

/-- Behind a tag line, the header block has ended once a body line was read. -/
theorem run_inHeader {lines : List (List UInt8)} (h : scanner.Quiet .inHeader lines) :
    ((∃ line ∈ lines, IsBodyLine line) ∧ (scanner.run .inHeader lines).ended = true) ∨
      ((¬∃ line ∈ lines, IsBodyLine line) ∧ scanner.run .inHeader lines = .inHeader) := by
  induction lines with
  | nil => exact Or.inr ⟨by simp, rfl⟩
  | cons line lines ih =>
      by_cases hbody : IsBodyLine line
      · have hended : (Control.inHeader.next line).ended = true :=
          Control.ended_next_of_body rfl hbody
        exact Or.inl ⟨⟨line, List.mem_cons_self .., hbody⟩, ended_run hended h.2⟩
      · have hstep : scanner.step .inHeader line = .inHeader := Control.next_inHeader hbody
        have hquiet := h.2
        rw [hstep] at hquiet
        simpa [hstep, hbody] using ih hquiet

theorem quiet_inHeader_of_tags {lines : List (List UInt8)}
    (h : ¬∃ line ∈ lines, IsBodyLine line) :
    scanner.Quiet .inHeader lines := by
  induction lines with
  | nil => trivial
  | cons line lines ih =>
      push Not at h
      refine ⟨Control.startsGame_inHeader line, ?_⟩
      rw [show scanner.step .inHeader line = .inHeader from
        Control.next_inHeader (h line (List.mem_cons_self ..))]
      exact ih (by simpa using fun l hl ↦ h l (List.mem_cons_of_mem _ hl))

/-- A game has an open header block behind it exactly when it is all header. -/
theorem run_segment {s : Control} (hs : s.Ready) {block : List (List UInt8)}
    (hok : ∀ line ∈ block, LineOk line) (h : scanner.Segment s block) :
    ((∃ line ∈ block, IsBodyLine line) ∧ (scanner.run s block).ended = true) ∨
      ((¬∃ line ∈ block, IsBodyLine line) ∧ scanner.run s block = .inHeader) := by
  cases block with
  | nil => exact h.elim
  | cons line block =>
      by_cases htag : IsTagLine line
      · have hstep : scanner.step s line = .inHeader :=
          (Control.next_of_ready hs (hok line (List.mem_cons_self ..)) htag).2
        have hquiet := h.2
        rw [hstep] at hquiet
        have hbody : ¬IsBodyLine line := fun hbody ↦ hbody.1 htag
        simpa [hstep, hbody] using run_inHeader hquiet
      · have hstarts : s.startsGame line = true := h.1
        have hheader : (s.classOf line).header = false :=
          Bool.eq_false_of_not_eq_true fun hne ↦ htag (Control.header_iff.mp hne).2
        have hnonWhitespace : (s.classOf line).nonWhitespace = true := by
          rw [Control.startsGame, hheader, Bool.false_and, Bool.false_or] at hstarts
          exact (Bool.and_eq_true_iff.mp hstarts).1
        have hescape : ¬IsEscapeLine line := by
          intro hescape
          have hescaped := Control.escapedLine_iff.mpr ⟨hs.1, hescape⟩
          change (!((s.classOf line).escapedLine || _) && _) = true at hnonWhitespace
          rw [hescaped] at hnonWhitespace
          simp at hnonWhitespace
        have hended : (s.next line).ended = true :=
          Control.ended_next_of_body (by rw [hstarts, Bool.or_true]) ⟨htag, hescape⟩
        exact Or.inl ⟨⟨line, List.mem_cons_self .., htag, hescape⟩, ended_run hended h.2⟩

end EnCroissant

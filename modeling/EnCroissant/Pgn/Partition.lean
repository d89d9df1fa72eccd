import Mathlib
import EnCroissant.Library.Segments
import EnCroissant.Pgn.LineFacts

/-!
# Scanning partitions a file

What the scanner decides about a line depends on three bits: whether a game has
started, whether its header block has ended, and whether a brace comment is
open.  The ranges are where the segments of this automaton lie.
-/

namespace EnCroissant

/-! ## The automaton -/

structure Control where
  started : Bool
  ended : Bool
  brace : Bool
  deriving DecidableEq, Repr

def lineText (line : List UInt8) : List Char := (Utf8.decode line).getD []

namespace Control

/-- Before the first line. -/
def fresh : Control := ⟨false, false, false⟩

/-- Behind the tag line that starts a game. -/
def inHeader : Control := ⟨true, false, false⟩

/-- Where the next tag line starts a game. -/
def atBoundary : Control := ⟨true, true, false⟩

def classOf (s : Control) (line : List UInt8) : LineClass :=
  classify line (lineText line) s.brace

def startsGame (s : Control) (line : List UInt8) : Bool :=
  ((s.classOf line).header && s.ended) || ((s.classOf line).nonWhitespace && !s.started)

def next (s : Control) (line : List UInt8) : Control where
  started := s.started || s.startsGame line
  ended :=
    if !(s.classOf line).header && !(s.classOf line).escapedLine &&
        (s.started || s.startsGame line) then true
    else if (s.classOf line).header && s.ended then false
    else s.ended
  brace :=
    if !(s.classOf line).header && !(s.classOf line).escapedOrLineComment then
      updateBraceComment (lineText line) s.brace
    else s.brace

end Control

def scanner : Splitter Control (List UInt8) := ⟨Control.next, Control.startsGame⟩

def LineOk (line : List UInt8) : Prop :=
  line.length ≤ maxLineLen ∧ (Utf8.decode line).isSome

instance (line : List UInt8) : Decidable (LineOk line) :=
  inferInstanceAs (Decidable (_ ∧ _))

namespace ScanState

def control (st : ScanState) : Control :=
  ⟨st.gameStart.isSome, st.headerBlockEnded, st.inBraceComment⟩

/-- A started game has a range, and only a started game has a header block. -/
structure Valid (st : ScanState) : Prop where
  started : st.gameStart.isSome = !st.games.isEmpty
  ended : st.headerBlockEnded = true → st.games.isEmpty = false

theorem valid_initial (start : ℕ) : (initial start).Valid := ⟨rfl, by simp [initial]⟩

end ScanState

/-! ## One line -/

theorem closeLast_append (games : List GameRange) (r : GameRange) (stop : ℕ) :
    closeLast (games ++ [r]) stop = games ++ [{ r with stop := stop }] := by
  simp [closeLast]

theorem closeLast_of_isEmpty {games : List GameRange} (h : games.isEmpty) (stop : ℕ) :
    closeLast games stop = games := by
  obtain rfl := List.isEmpty_iff.mp h
  rfl

/-- The ranges after a line that starts at `position`. -/
def gamesNext (s : Control) (games : List GameRange) (position : ℕ) (line : List UInt8) :
    List GameRange :=
  if scanner.starts s line then closeLast games position ++ [⟨position, position⟩] else games

/-- What a line does to the scanner. -/
structure Scanned (st st' : ScanState) (line : List UInt8) : Prop where
  valid : st'.Valid
  control : st'.control = scanner.step st.control line
  position : st'.position = st.position + line.length
  games : st'.games = gamesNext st.control st.games st.position line

/-- What the first half of a line does. -/
structure Begun (st st' : ScanState) (line : List UInt8) : Prop where
  valid : st'.Valid
  started : st'.gameStart.isSome = (st.control.started || st.control.startsGame line)
  ended : st'.headerBlockEnded =
    if (st.control.classOf line).header && st.control.ended then false else st.control.ended
  brace : st'.inBraceComment = st.inBraceComment
  position : st'.position = st.position
  games : st'.games = gamesNext st.control st.games st.position line

theorem beginGame_of_valid {st : ScanState} (hvalid : st.Valid) (line : List UInt8) :
    ∃ st', st.beginGame (st.control.classOf line) = .ok st' ∧ Begun st st' line := by
  have hstarts : scanner.starts st.control line = st.control.startsGame line := rfl
  rw [ScanState.beginGame]
  by_cases hheader : ((st.control.classOf line).header && st.headerBlockEnded) = true
  · have hended : st.headerBlockEnded = true := (Bool.and_eq_true_iff.mp hheader).2
    have hgames := hvalid.ended hended
    have hstart : st.control.startsGame line = true := by
      rw [Control.startsGame, Bool.or_eq_true]
      exact Or.inl hheader
    rw [if_pos hheader, if_neg (by simp [hgames])]
    refine ⟨_, rfl, ⟨?_, by simp [ScanState.startGame]⟩,
      by simp [ScanState.startGame, hstart], ?_, rfl, rfl, ?_⟩
    · simp [ScanState.startGame]
    · exact (if_pos hheader).symm
    · rw [gamesNext, hstarts, if_pos hstart]
      rfl
  · rw [if_neg hheader]
    by_cases hfirst :
        ((st.control.classOf line).nonWhitespace && st.gameStart.isNone) = true
    · have hnone : st.gameStart.isNone = true := (Bool.and_eq_true_iff.mp hfirst).2
      have hgames : st.games.isEmpty = true := by
        have := hvalid.started
        rw [Option.isNone_iff_eq_none.mp hnone] at this
        simpa using this
      have hstart : st.control.startsGame line = true := by
        rw [Control.startsGame, Bool.or_eq_true]
        refine Or.inr ?_
        simpa [ScanState.control] using hfirst
      rw [if_pos hfirst]
      refine ⟨_, rfl, ⟨?_, by simp [ScanState.startGame]⟩,
        by simp [ScanState.startGame, hstart], (if_neg hheader).symm, rfl, rfl, ?_⟩
      · simp [ScanState.startGame]
      · rw [gamesNext, hstarts, if_pos hstart, closeLast_of_isEmpty hgames]
        rfl
    · have hstart : st.control.startsGame line = false := by
        rw [Control.startsGame, Bool.or_eq_false_iff]
        refine ⟨Bool.eq_false_of_not_eq_true hheader, ?_⟩
        simpa [ScanState.control, Option.isSome_iff_ne_none] using hfirst
      rw [if_neg hfirst]
      refine ⟨st, rfl, hvalid, by rw [hstart, Bool.or_false]; rfl, (if_neg hheader).symm, rfl,
        rfl, ?_⟩
      rw [gamesNext, hstarts, if_neg (by simp [hstart])]

theorem scanLine_of_ok {st : ScanState} (hvalid : st.Valid) {line : List UInt8}
    (hok : LineOk line) :
    ∃ st', scanLine st line = .ok st' ∧ Scanned st st' line := by
  obtain ⟨text, htext⟩ := Option.isSome_iff_exists.mp hok.2
  have hlineText : lineText line = text := by rw [lineText, htext]; rfl
  have hclass : classify line text st.inBraceComment = st.control.classOf line := by
    rw [Control.classOf, hlineText]
    rfl
  obtain ⟨st', hst', hbegun⟩ := beginGame_of_valid hvalid line
  rw [scanLine, if_neg (Nat.not_lt.mpr hok.1)]
  simp only [htext, hclass, hst']
  refine ⟨_, rfl, ⟨?_, ?_⟩, ?_, ?_, hbegun.games⟩
  · exact hbegun.valid.started
  · intro hended
    simp only [ScanState.finishLine] at hended ⊢
    split_ifs at hended with hbody
    · have hstarted := (Bool.and_eq_true_iff.mp hbody).2
      rw [hbegun.valid.started] at hstarted
      simpa using hstarted
    · exact hbegun.valid.ended hended
  · simp only [ScanState.control, ScanState.finishLine, scanner, Control.next, hbegun.started,
      hbegun.ended, hbegun.brace, hlineText]
    rfl
  · rw [ScanState.finishLine, hbegun.position]

theorem scanLine_of_not_ok (st : ScanState) {line : List UInt8} (h : ¬LineOk line) :
    ∃ message, scanLine st line = .error (invalidData message) := by
  rw [scanLine]
  by_cases hlen : maxLineLen < line.length
  · exact ⟨_, if_pos hlen⟩
  · rw [if_neg hlen]
    cases htext : Utf8.decode line with
    | none => exact ⟨_, rfl⟩
    | some text => exact absurd ⟨Nat.le_of_not_lt hlen, by simp [htext]⟩ h

/-! ## All lines -/

/-- The ranges after a row of lines. -/
def gamesAfter : Control → List GameRange → ℕ → List (List UInt8) → List GameRange
  | _, games, _, [] => games
  | s, games, position, line :: lines =>
      gamesAfter (scanner.step s line) (gamesNext s games position line)
        (position + line.length) lines

/-- What a row of lines does to the scanner. -/
structure ScannedAll (st st' : ScanState) (lines : List (List UInt8)) : Prop where
  control : st'.control = scanner.run st.control lines
  position : st'.position = st.position + lines.flatten.length
  games : st'.games = gamesAfter st.control st.games st.position lines

theorem scanLines_of_ok {st : ScanState} (hvalid : st.Valid) {lines : List (List UInt8)}
    (hok : ∀ line ∈ lines, LineOk line) :
    ∃ st', scanLines st lines = .ok st' ∧ ScannedAll st st' lines := by
  induction lines generalizing st with
  | nil => exact ⟨st, rfl, rfl, rfl, rfl⟩
  | cons line lines ih =>
      obtain ⟨st', hst', hline⟩ := scanLine_of_ok hvalid (hok line (List.mem_cons_self ..))
      obtain ⟨st'', hst'', hlines⟩ :=
        ih hline.valid fun l hl ↦ hok l (List.mem_cons_of_mem _ hl)
      refine ⟨st'', by rw [scanLines, hst']; exact hst'', ?_, ?_, ?_⟩
      · rw [hlines.control, hline.control, Splitter.run_cons]
      · rw [hlines.position, hline.position, List.flatten_cons, List.length_append, Nat.add_assoc]
      · rw [hlines.games, hline.control, hline.games, hline.position]
        rfl

theorem scanLines_of_not_ok {st : ScanState} (hvalid : st.Valid) {lines : List (List UInt8)}
    (h : ∃ line ∈ lines, ¬LineOk line) :
    ∃ message, scanLines st lines = .error (invalidData message) := by
  induction lines generalizing st with
  | nil =>
      obtain ⟨line, hmem, -⟩ := h
      cases hmem
  | cons line lines ih =>
      rw [scanLines]
      by_cases hok : LineOk line
      · obtain ⟨st', hst', hline⟩ := scanLine_of_ok hvalid hok
        rw [hst']
        refine ih hline.valid ?_
        obtain ⟨line', hmem, hbad⟩ := h
        rcases List.mem_cons.mp hmem with rfl | hmem
        · exact absurd hok hbad
        · exact ⟨line', hmem, hbad⟩
      · obtain ⟨message, hmessage⟩ := scanLine_of_not_ok st hok
        exact ⟨message, by rw [hmessage]⟩

/-! ## Where the games lie -/

/-- The ranges that texts occupy one behind the other. -/
def layout (start : ℕ) : List (List UInt8) → List GameRange
  | [] => []
  | text :: texts => ⟨start, start + text.length⟩ :: layout (start + text.length) texts

theorem closeLast_closeLast (games : List GameRange) (stop stop' : ℕ) :
    closeLast (closeLast games stop) stop' = closeLast games stop' := by
  cases hlast : games.getLast? with
  | none => simp [closeLast, hlast]
  | some last =>
      have hclose : closeLast games stop = games.dropLast ++ [{ last with stop := stop }] := by
        simp [closeLast, hlast]
      rw [hclose, closeLast_append]
      simp [closeLast, hlast]

theorem gamesAfter_append (s : Control) (games : List GameRange) (position : ℕ)
    (xs ys : List (List UInt8)) :
    gamesAfter s games position (xs ++ ys) =
      gamesAfter (scanner.run s xs) (gamesAfter s games position xs)
        (position + xs.flatten.length) ys := by
  induction xs generalizing s games position with
  | nil => rfl
  | cons line xs ih =>
      rw [List.cons_append, gamesAfter, ih, gamesAfter, Splitter.run_cons, List.flatten_cons,
        List.length_append, Nat.add_assoc]

theorem gamesAfter_of_quiet {s : Control} {games : List GameRange} {position : ℕ}
    {lines : List (List UInt8)} (h : scanner.Quiet s lines) :
    gamesAfter s games position lines = games := by
  induction lines generalizing s position with
  | nil => rfl
  | cons line lines ih =>
      rw [gamesAfter, gamesNext, if_neg (by simp [h.1])]
      exact ih h.2

/-- A game opens a range where it starts. -/
theorem gamesAfter_of_segment {s : Control} {games : List GameRange} {position : ℕ}
    {block : List (List UInt8)} (h : scanner.Segment s block) :
    gamesAfter s games position block =
      closeLast games position ++ [⟨position, position⟩] := by
  cases block with
  | nil => exact h.elim
  | cons line block =>
      rw [gamesAfter, gamesNext, if_pos h.1]
      exact gamesAfter_of_quiet h.2

theorem closeLast_gamesAfter {s : Control} {games : List GameRange} {position : ℕ}
    {blocks : List (List (List UInt8))} (h : scanner.Segments s blocks) :
    closeLast (gamesAfter s games position blocks.flatten)
        (position + blocks.flatten.flatten.length) =
      closeLast games position ++ layout position (blocks.map List.flatten) := by
  induction blocks generalizing s games position with
  | nil => simp [gamesAfter, layout]
  | cons block blocks ih =>
      have hnext := @ih (scanner.run s block) (closeLast games position ++ [⟨position, position⟩])
        (position + block.flatten.length) h.2
      rw [closeLast_append] at hnext
      rw [List.flatten_cons, gamesAfter_append, gamesAfter_of_segment h.1, List.flatten_append,
        List.length_append, ← Nat.add_assoc, hnext, List.map_cons, layout, List.append_assoc]
      rfl

/-- A file as the scanner takes it apart: the lines before the first game, then
the lines of every game. -/
structure Decomposed (bytes : List UInt8) (pre : List (List UInt8))
    (blocks : List (List (List UInt8))) : Prop where
  lines : Lines.split newline (bytes.drop (bomLength bytes)) = pre ++ blocks.flatten
  ok : ∀ line ∈ pre ++ blocks.flatten, LineOk line
  quiet : scanner.Quiet .fresh pre
  segments : scanner.Segments (scanner.run .fresh pre) blocks
  brace : (scanner.run .fresh (pre ++ blocks.flatten)).brace = false

theorem scanGames_of_decomposed {bytes : List UInt8} {pre : List (List UInt8)}
    {blocks : List (List (List UInt8))} (h : Decomposed bytes pre blocks) :
    scanGames bytes =
      .ok (layout (bomLength bytes + pre.flatten.length) (blocks.map List.flatten)) := by
  obtain ⟨st, hst, hscanned⟩ :=
    scanLines_of_ok (ScanState.valid_initial (bomLength bytes)) h.ok
  have hbrace : st.inBraceComment = false := by
    have := congrArg Control.brace hscanned.control
    exact this.trans h.brace
  have hgames : st.games =
      gamesAfter .fresh [] (bomLength bytes) (pre ++ blocks.flatten) := hscanned.games
  have hposition : st.position =
      bomLength bytes + (pre ++ blocks.flatten).flatten.length := hscanned.position
  simp only [scanGames, h.lines, hst, hbrace]
  rw [if_neg (by simp), hgames, hposition, gamesAfter_append, gamesAfter_of_quiet h.quiet,
    List.flatten_append, List.length_append, ← Nat.add_assoc]
  exact congrArg Except.ok (closeLast_gamesAfter h.segments)

/-- The scanner accepts a file exactly when it takes it apart, and then the
ranges are where the games lie. -/
theorem scanGames_eq_ok_iff {bytes : List UInt8} {ranges : List GameRange} :
    scanGames bytes = .ok ranges ↔
      ∃ pre blocks, Decomposed bytes pre blocks ∧
        ranges = layout (bomLength bytes + pre.flatten.length) (blocks.map List.flatten) := by
  constructor
  · intro h
    obtain ⟨pre, blocks, hlines, hquiet, hsegments⟩ := @Splitter.exists_segments
      _ _ scanner .fresh (Lines.split newline (bytes.drop (bomLength bytes)))
    have hvalid := ScanState.valid_initial (bomLength bytes)
    have hok : ∀ line ∈ pre ++ blocks.flatten, LineOk line := by
      by_contra hbad
      push Not at hbad
      obtain ⟨message, hmessage⟩ := scanLines_of_not_ok hvalid hbad
      simp [scanGames, hlines, hmessage] at h
    obtain ⟨st, hst, hscanned⟩ := scanLines_of_ok hvalid hok
    have hbrace : st.inBraceComment = false := by
      by_contra hopen
      simp [scanGames, hlines, hst, Bool.eq_true_of_not_eq_false hopen] at h
    have hcontrol := congrArg Control.brace hscanned.control
    have hdecomposed : Decomposed bytes pre blocks :=
      ⟨hlines, hok, hquiet, hsegments, hcontrol.symm.trans hbrace⟩
    refine ⟨pre, blocks, hdecomposed, ?_⟩
    rw [scanGames_of_decomposed hdecomposed] at h
    exact (Except.ok.inj h).symm
  · rintro ⟨pre, blocks, hdecomposed, rfl⟩
    exact scanGames_of_decomposed hdecomposed

theorem scanGames_ne_panic (bytes : List UInt8) (message : String) :
    scanGames bytes ≠ .error (.panic message) := by
  have hvalid := ScanState.valid_initial (bomLength bytes)
  intro h
  rw [scanGames] at h
  by_cases hok : ∀ line ∈ Lines.split newline (bytes.drop (bomLength bytes)), LineOk line
  · obtain ⟨st, hst, -⟩ := scanLines_of_ok hvalid hok
    simp only [hst] at h
    split_ifs at h
    cases h
  · push Not at hok
    obtain ⟨message', hmessage⟩ := scanLines_of_not_ok hvalid hok
    simp only [hmessage] at h
    cases h

/-! ## States at the boundaries -/

def IsTagLine (line : List UInt8) : Prop := (tagValueSpans line).isSome = true

def IsBlankLine (line : List UInt8) : Prop := trim (lineText line) = []

def IsEscapeLine (line : List UInt8) : Prop := (trimBlanks (lineText line)).head? = some '%'

def IsCommentLine (line : List UInt8) : Prop := (trimBlanks (lineText line)).head? = some ';'

instance (line : List UInt8) : Decidable (IsTagLine line) :=
  inferInstanceAs (Decidable (_ = true))

instance (line : List UInt8) : Decidable (IsEscapeLine line) :=
  inferInstanceAs (Decidable (_ = _))

theorem decode_lineText {line : List UInt8} (h : LineOk line) :
    Utf8.decode line = some (lineText line) := by
  obtain ⟨text, htext⟩ := Option.isSome_iff_exists.mp h.2
  rw [lineText, htext]
  rfl

namespace Control

theorem header_iff {s : Control} {line : List UInt8} :
    (s.classOf line).header = true ↔ s.brace = false ∧ IsTagLine line := by
  simp [classOf, classify, isTagHeader, IsTagLine]

theorem started_next {s : Control} (h : s.started = true) (line : List UInt8) :
    (s.next line).started = true := by
  simp [next, h]

/-- A started scanner starts the next game at a tag line, in one state only. -/
theorem eq_atBoundary {s : Control} {line : List UInt8} (hs : s.started = true)
    (h : s.startsGame line = true) :
    s = atBoundary ∧ IsTagLine line := by
  have hheader : ((s.classOf line).header && s.ended) = true := by
    simpa [startsGame, hs] using h
  obtain ⟨hheader, hended⟩ := Bool.and_eq_true_iff.mp hheader
  obtain ⟨hbrace, htag⟩ := header_iff.mp hheader
  refine ⟨?_, htag⟩
  obtain ⟨started, ended, brace⟩ := s
  simp only at hs hended hbrace
  subst hs hended hbrace
  rfl

/-- A state in which a tag line starts a game. -/
def Ready (s : Control) : Prop := s.brace = false ∧ (s.ended = true ∨ s.started = false)

theorem ready_fresh : fresh.Ready := ⟨rfl, Or.inr rfl⟩

theorem ready_atBoundary : atBoundary.Ready := ⟨rfl, Or.inl rfl⟩

/-- In every ready state a tag line has the same effect. -/
theorem next_of_ready {s : Control} (hs : s.Ready) {line : List UInt8} (hok : LineOk line)
    (htag : IsTagLine line) :
    s.startsGame line = true ∧ s.next line = inHeader := by
  obtain ⟨hbrace, hready⟩ := hs
  have hheader : (s.classOf line).header = true := header_iff.mpr ⟨hbrace, htag⟩
  obtain ⟨-, -, hnonWhitespace⟩ :=
    @classify_of_tag _ _ s.brace htag (decode_lineText hok)
  have hstart : s.startsGame line = true := by
    rw [startsGame, hheader, show (s.classOf line).nonWhitespace = true from hnonWhitespace]
    rcases hready with hended | hstarted
    · simp [hended]
    · simp [hstarted]
  refine ⟨hstart, ?_⟩
  simp only [next, hstart, hheader, hbrace, inHeader]
  rcases hready with hended | hstarted
  · simp [hended]
  · cases hended : s.ended <;> simp

theorem brace_next_of_plain {s : Control} {line : List UInt8} (hs : s.brace = false)
    (hplain : ∀ c ∈ lineText line, c ≠ '{') :
    (s.next line).brace = false := by
  have hupdate : updateBraceComment (lineText line) s.brace = false := by
    rw [hs]
    exact updateBraceFrom_of_plain hplain _ _
  change (if _ then updateBraceComment (lineText line) s.brace else s.brace) = false
  rw [hupdate, hs, ite_self]

/-- Before the first game, a line is blank, an escape or a line comment, and
leaves the scanner as it was. -/
theorem next_fresh {line : List UInt8} (hok : LineOk line)
    (h : fresh.startsGame line = false) :
    fresh.next line = fresh ∧ (IsBlankLine line ∨ IsEscapeLine line ∨ IsCommentLine line) := by
  have hnonWhitespace : (fresh.classOf line).nonWhitespace = false := by
    simpa [startsGame, fresh] using h
  have hheader : (fresh.classOf line).header = false := by
    by_contra hne
    have htag := (header_iff.mp (Bool.eq_true_of_not_eq_false hne)).2
    have hclass := (@classify_of_tag _ _ false htag (decode_lineText hok)).2.2
    rw [show (classify line (lineText line) false) = fresh.classOf line from rfl,
      hnonWhitespace] at hclass
    cases hclass
  by_cases hcomment : (fresh.classOf line).escapedOrLineComment = true
  · refine ⟨?_, Or.inr ?_⟩
    · simp only [next, h, hheader, hcomment]
      simp [fresh]
    · simpa [classOf, classify, fresh, IsEscapeLine, IsCommentLine] using hcomment
  · have hblank : IsBlankLine line := by
      have hempty := hnonWhitespace
      rw [show (fresh.classOf line).nonWhitespace =
        (!(fresh.classOf line).escapedOrLineComment && !(trim (lineText line)).isEmpty) from rfl,
        Bool.eq_false_of_not_eq_true hcomment] at hempty
      simpa [IsBlankLine] using hempty
    have hplain : ∀ c ∈ lineText line, c ≠ '{' := by
      rintro c hc rfl
      exact absurd (trim_eq_nil_iff.mp hblank '{' hc) (by decide)
    refine ⟨?_, Or.inl hblank⟩
    have hbrace : updateBraceComment (lineText line) fresh.brace = false :=
      updateBraceFrom_of_plain hplain _ _
    simp only [next, h, hheader, Bool.eq_false_of_not_eq_true hcomment, hbrace]
    simp [fresh]

end Control

/-- The lines before the first game. -/
theorem run_fresh_of_quiet {pre : List (List UInt8)} (hok : ∀ line ∈ pre, LineOk line)
    (h : scanner.Quiet .fresh pre) :
    scanner.run .fresh pre = .fresh ∧
      ∀ line ∈ pre, IsBlankLine line ∨ IsEscapeLine line ∨ IsCommentLine line := by
  induction pre with
  | nil => exact ⟨rfl, by simp⟩
  | cons line pre ih =>
      obtain ⟨hnext, hline⟩ := Control.next_fresh (hok line (List.mem_cons_self ..)) h.1
      have hrest : scanner.Quiet .fresh pre := by
        have := h.2
        rwa [show scanner.step .fresh line = .fresh from hnext] at this
      obtain ⟨hrun, hall⟩ := ih (fun l hl ↦ hok l (List.mem_cons_of_mem _ hl)) hrest
      refine ⟨?_, ?_⟩
      · rw [Splitter.run_cons, show scanner.step .fresh line = .fresh from hnext, hrun]
      · intro l hl
        rcases List.mem_cons.mp hl with rfl | hl
        · exact hline
        · exact hall l hl

theorem run_started {s : Control} (h : s.started = true) (lines : List (List UInt8)) :
    (scanner.run s lines).started = true := by
  induction lines generalizing s with
  | nil => exact h
  | cons line lines ih => exact ih (Control.started_next h line)

theorem started_of_segment {s : Control} {block : List (List UInt8)}
    (h : scanner.Segment s block) :
    (scanner.run s block).started = true := by
  cases block with
  | nil => exact h.elim
  | cons line block =>
      refine run_started ?_ block
      have hstart : s.startsGame line = true := h.1
      simp [scanner, Control.next, hstart]

/-- Behind a game, the next one starts at the boundary with a tag line. -/
theorem Splitter.Segment.tag {s : Control} (hs : s.started = true)
    {block : List (List UInt8)} (h : scanner.Segment s block) :
    s = .atBoundary ∧ ∃ line rest, block = line :: rest ∧ IsTagLine line := by
  cases block with
  | nil => exact h.elim
  | cons line rest =>
      obtain ⟨hs, htag⟩ := Control.eq_atBoundary hs h.1
      exact ⟨hs, line, rest, rfl, htag⟩

/-! ## The partition -/

theorem mem_layout {start : ℕ} {texts : List (List UInt8)} {r : GameRange}
    (h : r ∈ layout start texts) :
    ∃ done text rest, texts = done ++ text :: rest ∧
      r = ⟨start + done.flatten.length, start + done.flatten.length + text.length⟩ := by
  induction texts generalizing start with
  | nil => cases h
  | cons text texts ih =>
      rcases List.mem_cons.mp h with rfl | h
      · exact ⟨[], text, texts, rfl, by simp⟩
      · obtain ⟨done, text', rest, rfl, rfl⟩ := ih h
        refine ⟨text :: done, text', rest, rfl, ?_⟩
        simp only [List.flatten_cons, List.length_append, Nat.add_assoc]

theorem isChain_layout (start : ℕ) (texts : List (List UInt8)) :
    (layout start texts).IsChain fun r r' ↦ r.stop = r'.start := by
  induction texts generalizing start with
  | nil => exact List.IsChain.nil
  | cons text texts ih =>
      cases texts with
      | nil => exact List.IsChain.singleton _
      | cons text' texts => exact List.IsChain.cons_cons rfl (ih _)

theorem stop_of_getLast?_layout {start : ℕ} {texts : List (List UInt8)} {r : GameRange}
    (h : (layout start texts).getLast? = some r) :
    r.stop = start + texts.flatten.length := by
  induction texts generalizing start with
  | nil => cases h
  | cons text texts ih =>
      rw [List.flatten_cons, List.length_append, ← Nat.add_assoc]
      cases texts with
      | nil =>
          obtain rfl := Option.some.inj h
          rfl
      | cons text' texts =>
          refine ih ?_
          rw [layout, layout, List.getLast?_cons_cons] at h
          exact h

/-- The line at this position is a tag line outside every brace comment. -/
def StartsAtTagLine (bytes : List UInt8) (position : ℕ) : Prop :=
  ∃ done line rest st,
    Lines.split newline (bytes.drop (bomLength bytes)) = done ++ line :: rest ∧
      IsTagLine line ∧ scanLines (.initial (bomLength bytes)) done = .ok st ∧
        st.position = position ∧ position = bomLength bytes + done.flatten.length ∧
          st.inBraceComment = false

/-- What the ranges of a file are to the file. -/
structure Partition (bytes : List UInt8) (ranges : List GameRange) : Prop where
  nonempty : ∀ r ∈ ranges, r.start < r.stop
  contiguous : ranges.IsChain fun r r' ↦ r.stop = r'.start
  last : ∀ r ∈ ranges.getLast?, r.stop = bytes.length
  before : ∃ pre, pre <+: Lines.split newline (bytes.drop (bomLength bytes)) ∧
    bytes.take (ranges.head?.elim bytes.length GameRange.start) =
      bytes.take (bomLength bytes) ++ pre.flatten ∧
        ∀ line ∈ pre, IsBlankLine line ∨ IsEscapeLine line ∨ IsCommentLine line
  starts : ∀ r ∈ ranges.tail, StartsAtTagLine bytes r.start

namespace Decomposed

variable {bytes : List UInt8} {pre : List (List UInt8)} {blocks : List (List (List UInt8))}

theorem row (h : Decomposed bytes pre blocks) : Lines.Row newline (pre ++ blocks.flatten) :=
  h.lines ▸ Lines.row_split _

theorem bytes_eq (h : Decomposed bytes pre blocks) :
    bytes = bytes.take (bomLength bytes) ++ pre.flatten ++ (blocks.map List.flatten).flatten := by
  have hlines : (pre ++ blocks.flatten).flatten = bytes.drop (bomLength bytes) := by
    rw [← h.lines, Lines.flatten_split]
  rw [← List.flatten_flatten, List.append_assoc, ← List.flatten_append, hlines,
    List.take_append_drop]

theorem length_eq (h : Decomposed bytes pre blocks) :
    bytes.length =
      bomLength bytes + pre.flatten.length + (blocks.map List.flatten).flatten.length := by
  have := congrArg List.length h.bytes_eq
  rwa [List.length_append, List.length_append, List.length_take,
    min_eq_left (bomLength_le bytes)] at this

theorem run_pre (h : Decomposed bytes pre blocks) :
    scanner.run .fresh pre = .fresh ∧
      ∀ line ∈ pre, IsBlankLine line ∨ IsEscapeLine line ∨ IsCommentLine line :=
  run_fresh_of_quiet (fun line hline ↦ h.ok line (List.mem_append_left _ hline)) h.quiet

theorem block_ne_nil (h : Decomposed bytes pre blocks) :
    ∀ block ∈ blocks, block.flatten ≠ [] := by
  intro block hblock hnil
  obtain ⟨done, rest, rfl⟩ := List.append_of_mem hblock
  have hsegment := (Splitter.segments_append.mp h.segments).2.1
  obtain ⟨line, lines, rfl⟩ := List.exists_cons_of_ne_nil hsegment.ne_nil
  have hrow := h.row.ne_nil line (by simp)
  exact hrow (List.flatten_eq_nil_iff.mp hnil line (List.mem_cons_self ..))

/-- Every game but the first starts at a tag line. -/
theorem startsAtTagLine {first block : List (List UInt8)} {done rest : List (List (List UInt8))}
    (h : Decomposed bytes pre (first :: done ++ block :: rest)) :
    StartsAtTagLine bytes
      (bomLength bytes + pre.flatten.length + (first :: done).flatten.flatten.length) := by
  obtain ⟨hdone, hsegment, -⟩ := Splitter.segments_append.mp h.segments
  have hstarted : (scanner.run (scanner.run .fresh pre) (first :: done).flatten).started := by
    rw [List.flatten_cons, Splitter.run_append]
    exact run_started (started_of_segment hdone.1) _
  obtain ⟨hstate, line, lines, rfl, htag⟩ := Splitter.Segment.tag hstarted hsegment
  have hlines : pre ++ (first :: done ++ (line :: lines) :: rest).flatten =
      (pre ++ (first :: done).flatten) ++ line :: (lines ++ rest.flatten) := by
    rw [List.flatten_append, List.append_assoc]
    rfl
  have hok : ∀ l ∈ pre ++ (first :: done).flatten, LineOk l := fun l hl ↦
    h.ok l (hlines ▸ List.mem_append_left _ hl)
  obtain ⟨st, hst, hscanned⟩ :=
    scanLines_of_ok (ScanState.valid_initial (bomLength bytes)) hok
  have hposition : st.position = bomLength bytes + (pre ++ (first :: done).flatten).flatten.length :=
    hscanned.position
  have hbrace : st.inBraceComment = false := by
    have := congrArg Control.brace hscanned.control
    rw [Splitter.run_append] at this
    exact this.trans (congrArg Control.brace hstate)
  have hlength : (pre ++ (first :: done).flatten).flatten.length =
      pre.flatten.length + (first :: done).flatten.flatten.length := by
    rw [List.flatten_append, List.length_append]
  refine ⟨_, line, _, st, h.lines.trans hlines, htag, hst, ?_, ?_, hbrace⟩
  · rw [hposition, hlength, Nat.add_assoc]
  · rw [hlength, Nat.add_assoc]

theorem head_start (h : Decomposed bytes pre blocks) :
    ((layout (bomLength bytes + pre.flatten.length) (blocks.map List.flatten)).head?.elim
      bytes.length GameRange.start) = bomLength bytes + pre.flatten.length := by
  cases blocks with
  | nil =>
      have := h.length_eq
      simpa [layout] using this
  | cons block blocks => rfl

theorem partition (h : Decomposed bytes pre blocks) :
    Partition bytes
      (layout (bomLength bytes + pre.flatten.length) (blocks.map List.flatten)) where
  nonempty r hr := by
    obtain ⟨done, text, rest, htexts, rfl⟩ := mem_layout hr
    have hmem : text ∈ blocks.map List.flatten := by simp [htexts]
    obtain ⟨block, hblock, rfl⟩ := List.mem_map.mp hmem
    have := List.length_pos_iff.mpr (h.block_ne_nil block hblock)
    simp only
    omega
  contiguous := isChain_layout _ _
  last r hr := by
    rw [stop_of_getLast?_layout hr, h.length_eq]
  before := by
    refine ⟨pre, ⟨blocks.flatten, h.lines.symm⟩, ?_, h.run_pre.2⟩
    have hlength : (bytes.take (bomLength bytes) ++ pre.flatten).length =
        bomLength bytes + pre.flatten.length := by
      simp [bomLength_le]
    have htake := congrArg (List.take (bomLength bytes + pre.flatten.length)) h.bytes_eq
    rw [h.head_start, htake, ← hlength, List.take_left]
  starts r hr := by
    cases blocks with
    | nil => cases hr
    | cons first blocks =>
        obtain ⟨done, text, rest, htexts, rfl⟩ := mem_layout hr
        obtain ⟨done, tail, rfl, rfl, htail⟩ := List.map_eq_append_iff.mp htexts
        obtain ⟨block, rest, rfl, rfl, rfl⟩ := List.map_eq_cons_iff.mp htail
        have hstarts := h.startsAtTagLine
        rwa [List.flatten_cons, List.flatten_append, List.length_append, ← Nat.add_assoc,
          List.flatten_flatten] at hstarts

end Decomposed

/-- Scanning partitions the file; in front of the first game stand the byte
order mark, blank lines, escapes and line comments. -/
theorem scanGames_partition (bytes : List UInt8) :
    (∀ message, scanGames bytes ≠ .error (.panic message)) ∧
      ∀ ranges, scanGames bytes = .ok ranges → Partition bytes ranges := by
  refine ⟨scanGames_ne_panic bytes, ?_⟩
  intro ranges h
  obtain ⟨pre, blocks, hdecomposed, rfl⟩ := scanGames_eq_ok_iff.mp h
  exact hdecomposed.partition

/-- A file with a line comment in front of its only game. -/
def commentPreface : List UInt8 :=
  Utf8.encode "; preface\n[Event \"A\"]\n\n*\n".toList

theorem scanGames_partition_commentPreface : Partition commentPreface [⟨10, 25⟩] :=
  (scanGames_partition commentPreface).2 _ (by decide)

/-- The comment is neither blank nor an escape. -/
theorem scanGames_commentPreface :
    scanGames commentPreface = .ok [⟨10, 25⟩] ∧
      ¬∃ pre, pre <+: Lines.split newline (commentPreface.drop (bomLength commentPreface)) ∧
        commentPreface.take 10 =
          commentPreface.take (bomLength commentPreface) ++ pre.flatten ∧
            ∀ line ∈ pre, IsBlankLine line ∨ IsEscapeLine line := by
  refine ⟨by decide, ?_⟩
  rintro ⟨pre, hprefix, htake, hall⟩
  cases pre with
  | nil => exact absurd htake (by decide)
  | cons line pre =>
      have hline : line = commentPreface.take 10 :=
        (List.cons_prefix_cons.mp hprefix).1
      rcases hall line (List.mem_cons_self ..) with h | h
      · rw [IsBlankLine, hline] at h
        exact absurd h (by decide)
      · rw [IsEscapeLine, hline] at h
        exact absurd h (by decide)

end EnCroissant

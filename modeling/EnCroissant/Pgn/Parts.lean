import EnCroissant.Pgn.Lexer
import EnCroissant.Tree.Navigation

/-!
# The parts of written movetext

What a game is written in: moves, numbers, glyphs, comments, brackets and blanks.  The lexer
reads the text of a row of parts as their tokens where no two words touch.
-/

namespace EnCroissant

open PgnHeaders (Token resultText)
open PgnLexer

def numberText (n : ℤ) : Text :=
  if n < 0 then '-' :: Decimal.digits n.natAbs else Decimal.digits n.natAbs

inductive PgnPart where
  | blank
  | number (n : ℤ) (dots : ℕ)
  | move (san : Text)
  | glyph (code : ℕ)
  | nag (code : ℕ)
  | comment (value : Text)
  | parenOpen
  | parenClose
  | result (outcome : Outcome)

namespace PgnPart

def text : PgnPart → Text
  | blank => [' ']
  | number n dots => numberText n ++ List.replicate dots '.'
  | move san => san
  | glyph code => ((nagGlyph code).getD "").toList
  | nag code => '$' :: Decimal.digits code
  | comment value => '\x7b' :: (value ++ ['\x7d'])
  | parenOpen => ['(']
  | parenClose => [')']
  | result outcome => resultText outcome

/-- What the lexer makes of a part. -/
def tokens : PgnPart → List Token
  | blank => []
  | number _ _ => []
  | move san => [.san san]
  | glyph code => [nagToken code]
  | nag code => [nagToken code]
  | comment value => [.comment value]
  | parenOpen => [.parenOpen]
  | parenClose => [.parenClose]
  | result outcome => [.outcome (resultText outcome)]

/-- The part ends a word that stands directly in front of it. -/
def endsWord : PgnPart → Bool
  | number _ _ => false
  | move _ => false
  | result _ => false
  | _ => true

def isGlyph : PgnPart → Bool
  | glyph _ => true
  | _ => false

/-- The second part may stand directly behind the first. -/
def Fits : PgnPart → PgnPart → Prop
  | move _, next => next.endsWord = true
  | nag _, next => next.endsWord = true
  | glyph _, next => next.endsWord = true ∧ next.isGlyph = false
  | _, _ => True

end PgnPart

/-- The lexer takes a move for what it is. -/
structure PgnLexer.SanReader.Reads (S : SanReader) (san : Text) : Prop where
  head : ∀ c ∈ san.head?, '9' < c ∧ c ≠ 'P'
  run : san ≠ [] ∧ ∀ c ∈ san, isTokenEnd c = false ∧ Text.isSpace c = false
  fromAscii : S.fromAscii san = some san

/-- The lexer reads the part as it is meant. -/
def PgnPart.Legible (S : SanReader) : PgnPart → Prop
  | move san => S.Reads san
  | glyph code => 1 ≤ code ∧ code ≤ 6
  | nag code => code ≤ 255
  | comment value => '\x7d' ∉ value
  | number n dots => 0 ≤ n ∧ dots ≠ 0
  | _ => True

def partsText (parts : List PgnPart) : Text := parts.flatMap PgnPart.text

def partsTokens (parts : List PgnPart) : List Token := parts.flatMap PgnPart.tokens

/-- A row of parts that the lexer reads one by one. -/
structure Written (S : SanReader) (parts : List PgnPart) : Prop where
  legible : ∀ part ∈ parts, part.Legible S
  apart : parts.IsChain PgnPart.Fits

namespace PgnLexer

variable {S : SanReader}

/-! ## One step -/

/-- From here on the lexer yields these tokens and goes on with the rest. -/
def Yields (S : SanReader) (text : Text) (tokens : List Token) (rest : Text) : Prop :=
  ∀ depth terminated, ∃ depth' terminated', readMovetext S depth terminated text =
    (readMovetext S depth' terminated' rest).map fun found ↦ (tokens ++ found.1, found.2)

theorem readMovetext_next {depth depth' : ℕ} {terminated terminated' : Bool} {c : Char}
    {text rest : Text} {tokens : List Token}
    (h : readStep S depth terminated c text = .next tokens depth' terminated' rest) :
    readMovetext S depth terminated (c :: text) =
      (readMovetext S depth' terminated' rest).map fun found ↦ (tokens ++ found.1, found.2) := by
  rw [readMovetext]
  split
  · next heq =>
    obtain ⟨rfl, rfl, rfl, rfl⟩ := Step.next.inj (h.symm.trans heq)
    rfl
  · next heq => cases h.symm.trans heq
  · next heq => cases h.symm.trans heq

theorem readMovetext_stop {depth : ℕ} {terminated : Bool} {c : Char} {text : Text}
    (h : readStep S depth terminated c text = .stop) :
    readMovetext S depth terminated (c :: text) = some ([], c :: text) := by
  rw [readMovetext]
  split
  · next heq => cases h.symm.trans heq
  · rfl
  · next heq => cases h.symm.trans heq

theorem Yields.of_step {c : Char} {text : Text} {tokens : List Token} {rest : Text}
    (h : ∀ depth terminated, ∃ depth' terminated',
      readStep S depth terminated c text = .next tokens depth' terminated' rest) :
    Yields S (c :: text) tokens rest := by
  intro depth terminated
  obtain ⟨depth', terminated', hstep⟩ := h depth terminated
  exact ⟨depth', terminated', readMovetext_next hstep⟩

theorem Yields.refl (text : Text) : Yields S text [] text := by
  intro depth terminated
  refine ⟨depth, terminated, ?_⟩
  simp

theorem Yields.trans {text text' rest : Text} {tokens tokens' : List Token}
    (h : Yields S text tokens text') (h' : Yields S text' tokens' rest) :
    Yields S text (tokens ++ tokens') rest := by
  intro depth terminated
  obtain ⟨depth₁, terminated₁, hfirst⟩ := h depth terminated
  obtain ⟨depth₂, terminated₂, hsecond⟩ := h' depth₁ terminated₁
  refine ⟨depth₂, terminated₂, ?_⟩
  rw [hfirst, hsecond, Option.map_map]
  simp [Function.comp_def]

/-! ## One part -/

/-- A run ends here. -/
def RunEnds (rest : Text) : Prop := ∀ c ∈ rest.head?, isTokenEnd c = true

theorem run_eq {c : Char} {word rest : Text} (h : ∀ d ∈ word, isTokenEnd d = false)
    (hrest : RunEnds rest) : run c (word ++ rest) = (c :: word, rest) := by
  have hword : ∀ d ∈ word, (!isTokenEnd d) = true := fun d hd ↦ by rw [h d hd]; rfl
  rw [run, List.takeWhile_append_of_pos hword, List.dropWhile_append_of_pos hword]
  cases rest with
  | nil => rw [List.takeWhile_nil, List.dropWhile_nil, List.append_nil]
  | cons d rest =>
      have hd : isTokenEnd d = true := hrest d rfl
      simp [hd]

/-- What stands in front of a `.` is read without what is behind it. -/
theorem runEnds_dot (rest : Text) : RunEnds ('.' :: rest) := by
  rintro c ⟨⟩
  rfl

theorem yields_blank (rest : Text) : Yields S (' ' :: rest) [] rest :=
  .of_step fun depth terminated ↦ ⟨depth, terminated, rfl⟩

theorem yields_dots (dots : ℕ) (rest : Text) :
    Yields S (List.replicate dots '.' ++ rest) [] rest := by
  induction dots with
  | zero => exact .refl rest
  | succ dots ih =>
      have hdot : Yields S ('.' :: (List.replicate dots '.' ++ rest)) []
          (List.replicate dots '.' ++ rest) :=
        .of_step fun depth terminated ↦ ⟨depth, terminated, rfl⟩
      exact hdot.trans ih

theorem isTokenEnd_of_isDigit {c : Char} (h : c.isDigit = true) : isTokenEnd c = false := by
  rw [isTokenEnd, decide_eq_false_iff_not]
  intro hmem
  simp only [List.mem_cons, List.not_mem_nil, or_false] at hmem
  rcases hmem with rfl | rfl | rfl | rfl | rfl | rfl | rfl | rfl | rfl | rfl | rfl | rfl | rfl <;>
    exact absurd h (by decide)

/-- A result has a dash or a slash behind its first digit. -/
theorem readOutcome_of_head {rest : Text} (c : Char)
    (h : ∀ d ∈ rest.head?, d = '.' ∨ d.isDigit = true) : readOutcome c rest = none := by
  cases rest with
  | nil => simp [readOutcome]
  | cons d rest =>
      have hdash : '-' ≠ d := by
        rintro rfl
        exact absurd (h '-' rfl) (by decide)
      have hslash : '/' ≠ d := by
        rintro rfl
        exact absurd (h '/' rfl) (by decide)
      simp [readOutcome, List.isPrefixOf, hdash, hslash]

/-- A digit with no result and no castling behind it. -/
theorem readStep_digit {depth : ℕ} {terminated : Bool} {c : Char} {rest : Text}
    (hc : c.isDigit = true) (h : ∀ d ∈ rest.head?, d = '.' ∨ d.isDigit = true) :
    readStep S depth terminated c rest =
      .next (readMoveNumber c rest) depth terminated (run c rest).2 := by
  have hne : ∀ d : Char, d.isDigit = false → c ≠ d := by
    rintro d hd rfl
    rw [hc] at hd
    cases hd
  have hzero : ¬(c = '0' ∧ ['-', '0'].isPrefixOf rest = true) := by
    rintro ⟨-, hdash⟩
    cases rest with
    | nil => cases hdash
    | cons d rest =>
        rw [List.isPrefixOf, Bool.and_eq_true, beq_iff_eq] at hdash
        rw [← hdash.1] at h
        exact absurd (h '-' rfl) (by decide)
  rw [readStep, if_neg (hne '\x7b' rfl), if_neg (hne '\n' rfl), if_neg (hne ';' rfl)]
  by_cases hlow : c = '1' ∨ c = '0'
  · rw [if_pos hlow, readDigit, readOutcome_of_head c h]
    dsimp only
    rw [if_neg hzero]
  · have hhigh : '2' ≤ c ∧ c ≤ '9' := by
      obtain ⟨hmin, hmax⟩ := Char.isDigit_iff_toNat.mp hc
      rw [not_or] at hlow
      have h1 : c.toNat ≠ 49 := fun heq ↦ hlow.1 (Char.toNat_inj.mp heq)
      have h0 : c.toNat ≠ 48 := fun heq ↦ hlow.2 (Char.toNat_inj.mp heq)
      rw [Char.le_def, Char.le_def, UInt32.le_iff_toNat_le, UInt32.le_iff_toNat_le]
      change 48 ≤ c.toNat at hmin
      change c.toNat ≤ 57 at hmax
      change 50 ≤ c.toNat ∧ c.toNat ≤ 57
      omega
    rw [if_neg hlow, if_pos hhigh]

/-- A number in front of a dot is no token, and no result either. -/
theorem yields_digits {digits : Text} (hne : digits ≠ []) (hdigits : ∀ c ∈ digits, c.isDigit = true)
    (rest : Text) : Yields S (digits ++ '.' :: rest) [] ('.' :: rest) := by
  cases digits with
  | nil => exact absurd rfl hne
  | cons c word =>
      rw [List.forall_mem_cons] at hdigits
      have hend : ∀ d ∈ word, isTokenEnd d = false :=
        fun d hd ↦ isTokenEnd_of_isDigit (hdigits.2 d hd)
      have hrun : run c (word ++ '.' :: rest) = (c :: word, '.' :: rest) :=
        run_eq hend (runEnds_dot rest)
      have hnumber : readMoveNumber c (word ++ '.' :: rest) = [] := by
        rw [readMoveNumber, hrun, if_pos]
        exact List.all_eq_true.mpr (List.forall_mem_cons.mpr hdigits)
      have hhead : ∀ d ∈ (word ++ '.' :: rest).head?, d = '.' ∨ d.isDigit = true := by
        cases word with
        | nil =>
            rintro d ⟨⟩
            exact .inl rfl
        | cons d word =>
            rintro _ ⟨⟩
            exact .inr (hdigits.2 d List.mem_cons_self)
      apply Yields.of_step
      intro depth terminated
      refine ⟨depth, terminated, ?_⟩
      rw [List.append_eq, readStep_digit hdigits.1 hhead, hnumber, hrun]

theorem readStep_word {depth : ℕ} {terminated : Bool} {c : Char} {rest : Text} (hnine : '9' < c)
    (hP : c ≠ 'P') (hc : isTokenEnd c = false) :
    readStep S depth terminated c rest =
      .next [sanToken S (run c rest).1] depth terminated (run c rest).2 := by
  have hend : ∀ d : Char, isTokenEnd d = true → c ≠ d := by
    rintro d hd rfl
    rw [hc] at hd
    cases hd
  have hlow : ∀ d : Char, d ≤ '9' → c ≠ d := by
    rintro d hd rfl
    exact absurd hnine (not_lt.mpr hd)
  have hlayout : (isLayout c || c == 'P' || c == '.') = false := by
    simp [isLayout, hlow ' ' (by decide), hlow '\t' (by decide), hlow '\r' (by decide), hP,
      hlow '.' (by decide)]
  rw [readStep, if_neg (hend '\x7b' rfl), if_neg (hlow '\n' (by decide)), if_neg (hend ';' rfl),
    if_neg (not_or.mpr ⟨hlow '1' (by decide), hlow '0' (by decide)⟩),
    if_neg (fun h ↦ absurd h.2 (not_le.mpr hnine)), if_neg (hend '(' rfl), if_neg (hend ')' rfl),
    if_neg (hend '$' rfl), if_neg (not_or.mpr ⟨hend '!' rfl, hend '?' rfl⟩),
    if_neg (hlow '*' (by decide)), hlayout]
  rfl

theorem yields_move {san : Text} (h : S.Reads san) {rest : Text} (hrest : RunEnds rest) :
    Yields S (san ++ rest) [.san san] rest := by
  cases hsan : san with
  | nil => exact absurd hsan h.run.1
  | cons c word =>
      rw [hsan] at h
      obtain ⟨hnine, hP⟩ := h.head c rfl
      have hrun : run c (word ++ rest) = (c :: word, rest) :=
        run_eq (fun d hd ↦ (h.run.2 d (List.mem_cons_of_mem c hd)).1) hrest
      have htoken : sanToken S (c :: word) = .san (c :: word) := by
        simp only [sanToken, if_pos (Or.inl hnine), h.fromAscii]
      apply Yields.of_step
      intro depth terminated
      refine ⟨depth, terminated, ?_⟩
      rw [List.append_eq, readStep_word hnine hP (h.run.2 c List.mem_cons_self).1, hrun, htoken]

theorem yields_nag {code : ℕ} (hcode : code ≤ 255) {rest : Text} (hrest : RunEnds rest) :
    Yields S ('$' :: (Decimal.digits code ++ rest)) [nagToken code] rest := by
  have hdigits : ∀ c ∈ Decimal.digits code, c.isDigit = true := Decimal.isDigit_digits
  have hrun : run '$' (Decimal.digits code ++ rest) = ('$' :: Decimal.digits code, rest) :=
    run_eq (fun d hd ↦ isTokenEnd_of_isDigit (hdigits d hd)) hrest
  have hvalue : Text.digitsValue (Decimal.digits code) = code := Decimal.ofDigitChars_digits
  have hnag : readNag (Decimal.digits code) = some code := by
    rw [readNag, hvalue, if_pos ⟨Decimal.digits_ne_nil, List.all_eq_true.mpr hdigits, hcode⟩]
  apply Yields.of_step
  intro depth terminated
  refine ⟨depth, terminated, ?_⟩
  have hstep : ∀ text, readStep S depth terminated '$' text =
      .next [readNagRun '$' text] depth terminated (run '$' text).2 := fun _ ↦ rfl
  rw [hstep, readNagRun, hrun, List.tail_cons, hnag]

theorem yields_comment {value : Text} (h : '\x7d' ∉ value) (rest : Text) :
    Yields S ('\x7b' :: (value ++ '\x7d' :: rest)) [.comment value] rest := by
  have hvalue : ∀ c ∈ value, decide (c ≠ '\x7d') = true := by
    intro c hc
    rw [decide_eq_true_eq]
    rintro rfl
    exact h hc
  have htake : (value ++ '\x7d' :: rest).takeWhile (· ≠ '\x7d') = value := by
    rw [List.takeWhile_append_of_pos hvalue]
    simp
  have hdrop : (value ++ '\x7d' :: rest).dropWhile (· ≠ '\x7d') = '\x7d' :: rest := by
    rw [List.dropWhile_append_of_pos hvalue]
    simp
  apply Yields.of_step
  intro depth terminated
  refine ⟨depth, terminated, ?_⟩
  have hstep : ∀ text, readStep S depth terminated '\x7b' text =
      readComment depth terminated text := fun _ ↦ rfl
  rw [hstep, readComment, hdrop, htake]

theorem yields_result (outcome : Outcome) (rest : Text) :
    Yields S (resultText outcome ++ rest) [.outcome (resultText outcome)] rest := by
  cases outcome <;>
    exact .of_step fun depth terminated ↦ ⟨depth, terminated || depth = 0, rfl⟩

/-- The glyphs are told apart by what is behind them. -/
theorem yields_glyph {code : ℕ} (hcode : 1 ≤ code ∧ code ≤ 6) {rest : Text}
    (hrest : ∀ c ∈ rest.head?, c ≠ '!' ∧ c ≠ '?') :
    Yields S ((PgnPart.glyph code).text ++ rest) [nagToken code] rest := by
  have hone : rest.head? ≠ some '!' := fun h ↦ (hrest '!' h).1 rfl
  have htwo : rest.head? ≠ some '?' := fun h ↦ (hrest '?' h).2 rfl
  have hgood : readGlyph '!' rest = (1, rest) := by
    rw [readGlyph, if_pos rfl, if_neg hone, if_neg htwo]
  have hbad : readGlyph '?' rest = (2, rest) := by
    rw [readGlyph, if_neg (by decide), if_neg hone, if_neg htwo]
  have hstep : ∀ {c : Char} {text after : Text} {code : ℕ}, c = '!' ∨ c = '?' →
      readGlyph c text = (code, after) → Yields S (c :: text) [nagToken code] after := by
    intro c text after code hc hread
    apply Yields.of_step
    intro depth terminated
    refine ⟨depth, terminated, ?_⟩
    have hnext : readStep S depth terminated c text =
        .next [nagToken (readGlyph c text).1] depth terminated (readGlyph c text).2 := by
      rcases hc with rfl | rfl <;> rfl
    rw [hnext, hread]
  obtain ⟨hmin, hmax⟩ := hcode
  interval_cases code
  · exact hstep (.inl rfl) hgood
  · exact hstep (.inr rfl) hbad
  · exact hstep (.inl rfl) rfl
  · exact hstep (.inr rfl) rfl
  · exact hstep (.inl rfl) rfl
  · exact hstep (.inr rfl) rfl

/-! ## A row of parts -/

/-- What a part may stand in front of. -/
def MayFollow (part : PgnPart) (rest : Text) : Prop :=
  match part with
  | .move _ => RunEnds rest
  | .nag _ => RunEnds rest
  | .glyph _ => ∀ c ∈ rest.head?, c ≠ '!' ∧ c ≠ '?'
  | _ => True

theorem yields_part {part : PgnPart} (hpart : part.Legible S) {rest : Text}
    (hrest : MayFollow part rest) : Yields S (part.text ++ rest) part.tokens rest := by
  cases part with
  | blank => exact yields_blank rest
  | number n dots =>
      obtain ⟨hn, hdots⟩ := hpart
      cases dots with
      | zero => exact absurd rfl hdots
      | succ dots =>
          have hdigits : ∀ c ∈ Decimal.digits n.natAbs, c.isDigit = true := Decimal.isDigit_digits
          have hnumber : Yields S
              (Decimal.digits n.natAbs ++ (List.replicate (dots + 1) '.' ++ rest)) []
              (List.replicate (dots + 1) '.' ++ rest) :=
            yields_digits Decimal.digits_ne_nil hdigits _
          rw [PgnPart.text, numberText, if_neg (not_lt.mpr hn), List.append_assoc]
          exact hnumber.trans (yields_dots (dots + 1) rest)
  | move san => exact yields_move hpart hrest
  | glyph code => exact yields_glyph hpart hrest
  | nag code => exact yields_nag hpart hrest
  | comment value =>
      rw [PgnPart.text, List.cons_append, List.append_assoc]
      exact yields_comment hpart rest
  | parenOpen => exact .of_step fun depth terminated ↦ ⟨depth + 1, terminated, rfl⟩
  | parenClose => exact .of_step fun depth terminated ↦ ⟨depth - 1, terminated, rfl⟩
  | result outcome => exact yields_result outcome rest

/-- How the text of a part that ends words begins. -/
theorem head_endsWord {part : PgnPart} (hlegible : part.Legible S) (h : part.endsWord = true) :
    ∃ c text, part.text = c :: text ∧ isTokenEnd c = true ∧
      (part.isGlyph = false → c ≠ '!' ∧ c ≠ '?') := by
  cases part with
  | blank => exact ⟨' ', [], rfl, rfl, fun _ ↦ by decide⟩
  | number => cases h
  | move => cases h
  | glyph code =>
      obtain ⟨hmin, hmax⟩ := hlegible
      interval_cases code <;> exact ⟨_, _, rfl, rfl, nofun⟩
  | nag code => exact ⟨'$', _, rfl, rfl, fun _ ↦ by decide⟩
  | comment value => exact ⟨'\x7b', _, rfl, rfl, fun _ ↦ by decide⟩
  | parenOpen => exact ⟨'(', [], rfl, rfl, fun _ ↦ by decide⟩
  | parenClose => exact ⟨')', [], rfl, rfl, fun _ ↦ by decide⟩
  | result => cases h

theorem mayFollow_part {part next : PgnPart} (hlegible : next.Legible S) (h : part.Fits next)
    (rest : Text) : MayFollow part (next.text ++ rest) := by
  have hword : next.endsWord = true → RunEnds (next.text ++ rest) := by
    intro hends
    obtain ⟨c, text, htext, hc, -⟩ := head_endsWord hlegible hends
    rw [htext]
    rintro _ ⟨⟩
    exact hc
  cases part with
  | move => exact hword h
  | nag => exact hword h
  | glyph =>
      obtain ⟨c, text, htext, -, hc⟩ := head_endsWord hlegible h.1
      rw [MayFollow, htext]
      rintro _ ⟨⟩
      exact hc h.2
  | _ => trivial

/-- A row of parts is read as its tokens, one part after the other. -/
theorem yields_parts {parts : List PgnPart} (h : Written S parts) {rest : Text}
    (hrest : ∀ part ∈ parts.getLast?, MayFollow part rest) :
    Yields S (partsText parts ++ rest) (partsTokens parts) rest := by
  induction parts with
  | nil => exact .refl rest
  | cons part parts ih =>
      obtain ⟨hlegible, hapart⟩ := h
      rw [List.forall_mem_cons] at hlegible
      have hbehind : MayFollow part (partsText parts ++ rest) := by
        cases parts with
        | nil => exact hrest part rfl
        | cons next parts =>
            have hnext := hlegible.2 next List.mem_cons_self
            have hfits := (List.isChain_cons_cons.mp hapart).1
            have hfollow := mayFollow_part hnext hfits (partsText parts ++ rest)
            rw [← List.append_assoc] at hfollow
            exact hfollow
      have hparts : Yields S (partsText parts ++ rest) (partsTokens parts) rest := by
        refine ih ⟨hlegible.2, hapart.of_cons⟩ fun last hlast ↦ hrest last ?_
        rw [List.getLast?_cons, hlast]
        rfl
      have htext : partsText (part :: parts) ++ rest = part.text ++ (partsText parts ++ rest) := by
        rw [partsText, List.flatMap_cons, List.append_assoc]
        rfl
      rw [htext]
      exact (yields_part hlegible.1 hbehind).trans hparts

end PgnLexer

/-! ## Rows -/

/-- Nothing is told apart behind this part. -/
def PgnPart.closed : PgnPart → Bool
  | move _ => false
  | glyph _ => false
  | nag _ => false
  | _ => true

def PgnPart.isBlank : PgnPart → Bool
  | blank => true
  | _ => false

/-- Parts that fit each other, and behind which anything fits. -/
structure Row (parts : List PgnPart) : Prop where
  apart : parts.IsChain PgnPart.Fits
  closed : ∀ part ∈ parts.getLast?, part.closed = true

theorem PgnPart.fits_of_closed {part : PgnPart} (h : part.closed = true) (next : PgnPart) :
    part.Fits next := by
  cases part <;> trivial

theorem Row.append_apart {parts next : List PgnPart} (h : Row parts)
    (hnext : next.IsChain PgnPart.Fits) : (parts ++ next).IsChain PgnPart.Fits :=
  h.apart.append hnext fun part hpart following _ ↦
    PgnPart.fits_of_closed (h.closed part hpart) following

theorem Row.append {parts next : List PgnPart} (h : Row parts) (hnext : Row next) :
    Row (parts ++ next) where
  apart := h.append_apart hnext.apart
  closed := by
    intro part hpart
    rw [List.getLast?_append] at hpart
    rcases Option.or_eq_some_iff.mp hpart with hpart | ⟨-, hpart⟩
    · exact hnext.closed part hpart
    · exact h.closed part hpart

theorem apart_cons {part : PgnPart} (h : part.closed = true) {parts : List PgnPart}
    (hparts : parts.IsChain PgnPart.Fits) : (part :: parts).IsChain PgnPart.Fits :=
  hparts.cons fun next _ ↦ PgnPart.fits_of_closed h next

theorem Row.cons {part : PgnPart} (h : part.closed = true) {parts : List PgnPart}
    (hparts : Row parts) : Row (part :: parts) where
  apart := apart_cons h hparts.apart
  closed := by
    intro last hlast
    rw [List.getLast?_cons] at hlast
    obtain rfl := Option.some.inj hlast
    cases hparts' : parts.getLast? with
    | none => exact h
    | some last => exact hparts.closed last hparts'

/-- A closing bracket ends every word. -/
theorem row_parenClose {parts next : List PgnPart} (h : parts.IsChain PgnPart.Fits)
    (hnext : Row next) : Row (parts ++ .parenClose :: next) where
  apart := by
    have hclose : Row (.parenClose :: next) := hnext.cons rfl
    refine h.append hclose.apart fun part _ following hfollowing ↦ ?_
    obtain rfl := Option.some.inj hfollowing
    cases part <;> trivial
  closed := by
    have hclose : Row (.parenClose :: next) := hnext.cons rfl
    rw [List.getLast?_append_of_ne_nil _ (List.cons_ne_nil _ _)]
    exact hclose.closed

theorem row_nil : Row [] := ⟨List.isChain_nil, nofun⟩

/-- A row behind parts that end in a part behind which anything fits. -/
theorem row_concat {parts : List PgnPart} {part : PgnPart} (hclosed : part.closed = true)
    (h : (parts ++ [part]).IsChain PgnPart.Fits) : Row (parts ++ [part]) where
  apart := h
  closed := by
    rw [List.getLast?_concat]
    rintro _ ⟨⟩
    exact hclosed

variable {S : SanReader}

theorem Written.append {parts next : List PgnPart} (h : Written S parts) (hrow : Row parts)
    (hnext : Written S next) : Written S (parts ++ next) where
  legible := by
    intro part hpart
    rcases List.mem_append.mp hpart with hpart | hpart
    · exact h.legible part hpart
    · exact hnext.legible part hpart
  apart := hrow.append_apart hnext.apart

theorem partsText_append (parts next : List PgnPart) :
    partsText (parts ++ next) = partsText parts ++ partsText next := List.flatMap_append

theorem partsTokens_append (parts next : List PgnPart) :
    partsTokens (parts ++ next) = partsTokens parts ++ partsTokens next := List.flatMap_append

/-! ## Blanks at the end -/

def trimParts (parts : List PgnPart) : List PgnPart := parts.rdropWhile PgnPart.isBlank

theorem isPrefix_trimParts (parts : List PgnPart) : trimParts parts <+: parts :=
  List.rdropWhile_prefix _ _

theorem partsTokens_trimParts (parts : List PgnPart) :
    partsTokens (trimParts parts) = partsTokens parts := by
  have hblank : partsTokens (parts.rtakeWhile PgnPart.isBlank) = [] := by
    rw [partsTokens, List.flatMap_eq_nil_iff]
    intro part hpart
    have hpart : part.isBlank = true := List.mem_rtakeWhile_imp hpart
    cases part with
    | blank => rfl
    | _ => cases hpart
  calc partsTokens (trimParts parts)
      = partsTokens (trimParts parts ++ parts.rtakeWhile PgnPart.isBlank) := by
        rw [partsTokens_append, hblank, List.append_nil]
    _ = partsTokens parts := by rw [trimParts, List.rdropWhile_append_rtakeWhile]

theorem Written.trimParts {parts : List PgnPart} (h : Written S parts) :
    Written S (trimParts parts) where
  legible := fun part hpart ↦ h.legible part ((isPrefix_trimParts parts).subset hpart)
  apart := h.apart.prefix (isPrefix_trimParts parts)

theorem isSpace_of_isDigit {c : Char} (h : c.isDigit = true) : Text.isSpace c = false := by
  obtain ⟨hlow, hhigh⟩ := Char.isDigit_iff_toNat.mp h
  change 48 ≤ c.toNat at hlow
  change c.toNat ≤ 57 at hhigh
  exact Text.isSpace_of_ascii (by omega) (by omega)

/-- What is no blank neither starts nor ends with white space. -/
theorem PgnPart.ends {part : PgnPart} (hlegible : part.Legible S) (h : part.isBlank = false) :
    (∃ c text, part.text = c :: text ∧ Text.isSpace c = false) ∧
      ∃ text c, part.text = text ++ [c] ∧ Text.isSpace c = false := by
  cases part with
  | blank => cases h
  | number n dots =>
      obtain ⟨hn, hdots⟩ := hlegible
      have hnumber : numberText n = Decimal.digits n.natAbs := if_neg (not_lt.mpr hn)
      obtain ⟨c, digits, hdigits⟩ := List.exists_cons_of_ne_nil
        (Decimal.digits_ne_nil (n := n.natAbs))
      obtain ⟨dots, rfl⟩ := Nat.exists_eq_succ_of_ne_zero hdots
      constructor
      · refine ⟨c, digits ++ List.replicate (dots + 1) '.', ?_, ?_⟩
        · rw [text, hnumber, hdigits, List.cons_append]
        · apply isSpace_of_isDigit
          exact Decimal.isDigit_digits c (hdigits ▸ List.mem_cons_self)
      · refine ⟨numberText n ++ List.replicate dots '.', '.', ?_, rfl⟩
        rw [text, List.replicate_succ', List.append_assoc]
  | move san =>
      obtain ⟨hne, hrun⟩ := hlegible.run
      constructor
      · obtain ⟨c, word, hsan⟩ := List.exists_cons_of_ne_nil hne
        exact ⟨c, word, hsan, (hrun c (hsan ▸ List.mem_cons_self)).2⟩
      · exact ⟨san.dropLast, san.getLast hne, (List.dropLast_append_getLast hne).symm,
          (hrun _ (List.getLast_mem hne)).2⟩
  | glyph code =>
      obtain ⟨hmin, hmax⟩ := hlegible
      interval_cases code
      · exact ⟨⟨'!', [], rfl, rfl⟩, [], '!', rfl, rfl⟩
      · exact ⟨⟨'?', [], rfl, rfl⟩, [], '?', rfl, rfl⟩
      · exact ⟨⟨'!', ['!'], rfl, rfl⟩, ['!'], '!', rfl, rfl⟩
      · exact ⟨⟨'?', ['?'], rfl, rfl⟩, ['?'], '?', rfl, rfl⟩
      · exact ⟨⟨'!', ['?'], rfl, rfl⟩, ['!'], '?', rfl, rfl⟩
      · exact ⟨⟨'?', ['!'], rfl, rfl⟩, ['?'], '!', rfl, rfl⟩
  | nag code =>
      have hne : Decimal.digits code ≠ [] := Decimal.digits_ne_nil
      refine ⟨⟨'$', _, rfl, rfl⟩, '$' :: (Decimal.digits code).dropLast,
        (Decimal.digits code).getLast hne, ?_, ?_⟩
      · rw [text, List.cons_append, List.dropLast_append_getLast hne]
      · exact isSpace_of_isDigit (Decimal.isDigit_digits _ (List.getLast_mem hne))
  | comment value => exact ⟨⟨'\x7b', _, rfl, rfl⟩, '\x7b' :: value, '\x7d', rfl, rfl⟩
  | parenOpen => exact ⟨⟨'(', [], rfl, rfl⟩, [], '(', rfl, rfl⟩
  | parenClose => exact ⟨⟨')', [], rfl, rfl⟩, [], ')', rfl, rfl⟩
  | result outcome =>
      cases outcome with
      | whiteWins => exact ⟨⟨'1', _, rfl, rfl⟩, ['1', '-'], '0', rfl, rfl⟩
      | blackWins => exact ⟨⟨'0', _, rfl, rfl⟩, ['0', '-'], '1', rfl, rfl⟩
      | draw => exact ⟨⟨'1', _, rfl, rfl⟩, ['1', '/', '2', '-', '1', '/'], '2', rfl, rfl⟩
      | unknown => exact ⟨⟨'*', _, rfl, rfl⟩, [], '*', rfl, rfl⟩

theorem rdropWhile_partsText {parts : List PgnPart} (h : ∀ part ∈ parts, part.Legible S) :
    (partsText parts).rdropWhile Text.isSpace = partsText (trimParts parts) := by
  induction parts using List.reverseRecOn with
  | nil => rfl
  | append_singleton parts part ih =>
      have hparts : partsText (parts ++ [part]) = partsText parts ++ part.text := by
        rw [partsText_append]
        exact congrArg (partsText parts ++ ·) (List.append_nil _)
      cases hblank : part.isBlank with
      | true =>
          cases part with
          | blank =>
              rw [hparts, trimParts, List.rdropWhile_concat_pos _ _ _ hblank]
              refine (List.rdropWhile_concat_pos _ _ _ (by decide)).trans (ih fun part hpart ↦ ?_)
              exact h part (List.mem_append_left _ hpart)
          | _ => cases hblank
      | false =>
          have hlegible := h part (List.mem_append_right _ (List.mem_singleton_self part))
          obtain ⟨-, text, c, htext, hc⟩ := part.ends hlegible hblank
          rw [trimParts, List.rdropWhile_concat_neg _ _ _ (by simp [hblank]), hparts, htext,
            ← List.append_assoc, List.rdropWhile_concat_neg _ _ _ (by simp [hc])]

/-- A row that starts with no blank is trimmed at its end only. -/
theorem trim_partsText {parts : List PgnPart} (h : ∀ part ∈ parts, part.Legible S)
    (hhead : ∀ part ∈ parts.head?, part.isBlank = false) :
    Text.trim ('\n' :: partsText parts) = partsText (trimParts parts) := by
  have hdrop : ('\n' :: partsText parts).dropWhile Text.isSpace = partsText parts := by
    rw [List.dropWhile_cons_of_pos (by decide)]
    cases parts with
    | nil => rfl
    | cons part parts =>
        obtain ⟨⟨c, text, htext, hc⟩, -⟩ :=
          part.ends (h part List.mem_cons_self) (hhead part rfl)
        have hparts : partsText (part :: parts) = c :: (text ++ partsText parts) := by
          rw [partsText, List.flatMap_cons, htext, List.cons_append]
          rfl
        rw [hparts, List.dropWhile_cons_of_neg (by simp [hc])]
  rw [Text.trim, hdrop, rdropWhile_partsText h]

end EnCroissant

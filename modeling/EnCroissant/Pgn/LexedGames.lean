import EnCroissant.Pgn.HeaderRoundTrip
import EnCroissant.Pgn.Parts

/-!
# Lexing a written game

A game that was written as tag lines and a row of parts is read as the headers of its tags and
the tokens of its parts.
-/

namespace EnCroissant.PgnLexer

open PgnHeaders (Token tagLine tagLines escapeTagValue isEscaped resultText)

variable {S : SanReader}

/-! ## Tags -/

/-- The lexer finds a tag again: its line holds nothing else, and its name ends with itself. -/
structure Lexable (tag : String × Text) : Prop where
  legible : PgnHeaders.Legible tag
  name : ∀ c ∈ tag.1.toList.getLast?, c ≠ ' ' ∧ c ≠ '\t'

def headerToken (tag : String × Text) : Token := .header tag.1 (escapeTagValue tag.2)

theorem quotedValue_escape {value : Text} (h : '\n' ∉ value) (rest : Text) :
    quotedValue (escapeTagValue value ++ '"' :: rest) = some (escapeTagValue value, rest) := by
  induction value with
  | nil => rfl
  | cons c value ih =>
      have hc : c ≠ '\n' := fun heq ↦ h (heq ▸ List.mem_cons_self)
      have hvalue := ih fun hmem ↦ h (List.mem_cons_of_mem c hmem)
      cases hescaped : isEscaped c with
      | true =>
          have hescape : escapeTagValue (c :: value) = '\\' :: c :: escapeTagValue value :=
            Escaping.escape_cons_of_special hescaped
          rw [hescape, List.cons_append, List.cons_append, quotedValue, hvalue]
          rfl
      | false =>
          have hescape : escapeTagValue (c :: value) = c :: escapeTagValue value :=
            Escaping.escape_cons_of_plain hescaped
          have hmark : c ≠ '\\' := by
            rintro rfl
            cases hescaped
          have hquote : c ≠ '"' := by
            rintro rfl
            cases hescaped
          rw [hescape, List.cons_append, quotedValue, hvalue]
          · rfl
          · exact hquote
          · exact hc
          · exact fun d _ hmatch _ ↦ hmark hmatch

theorem readTag_tagLine {tag : String × Text} (h : Lexable tag) (rest : Text) :
    readTag (tag.1.toList ++ ' ' :: '"' :: (escapeTagValue tag.2 ++ '"' :: ']' :: '\n' :: rest)) =
      some ([headerToken tag], rest) := by
  obtain ⟨name, value⟩ := tag
  have hname : ∀ c ∈ name.toList ++ [' '], (c != '"' && c != '\n' && c != ']') = true := by
    intro c hc
    rcases List.mem_append.mp hc with hc | hc
    · obtain ⟨hquote, hbracket, hline⟩ := h.legible.name c hc
      simp [hquote, hbracket, hline]
    · obtain rfl := List.mem_singleton.mp hc
      decide
  have htrim : (name.toList ++ [' ']).rdropWhile (fun c ↦ c == ' ' || c == '\t') = name.toList := by
    rw [List.rdropWhile_concat_pos _ _ _ (by decide), List.rdropWhile_eq_self_iff]
    intro hne
    obtain ⟨hspace, htab⟩ := h.name _ (List.getLast?_eq_some_getLast hne)
    simp [hspace, htab]
  have htext : name.toList ++ ' ' :: '"' :: (escapeTagValue value ++ '"' :: ']' :: '\n' :: rest) =
      (name.toList ++ [' ']) ++ '"' :: (escapeTagValue value ++ '"' :: ']' :: '\n' :: rest) := by
    simp
  have hvalue : quotedValue (escapeTagValue value ++ '"' :: ']' :: '\n' :: rest) =
      some (escapeTagValue value, ']' :: '\n' :: rest) := quotedValue_escape h.legible.value _
  rw [htext, readTag, List.span_eq_takeWhile_dropWhile, List.takeWhile_append_of_pos hname,
    List.dropWhile_append_of_pos hname, List.takeWhile_cons_of_neg (by decide),
    List.dropWhile_cons_of_neg (by decide), List.append_nil]
  refine (congrArg (Option.map _) hvalue).trans ?_
  rw [Option.map_some, htrim, String.ofList_toList]
  rfl

theorem readHeaders_tagLines {tags : List (String × Text)} (h : ∀ tag ∈ tags, Lexable tag)
    (rest : Text) :
    readHeaders (tagLines tags ++ rest) =
      (readHeaders rest).map fun found ↦ (tags.map headerToken ++ found.1, found.2) := by
  induction tags with
  | nil => simp [tagLines]
  | cons tag tags ih =>
      rw [List.forall_mem_cons] at h
      have htext : tagLines (tag :: tags) ++ rest = '[' :: (tag.1.toList ++ ' ' :: '"' ::
          (escapeTagValue tag.2 ++ '"' :: ']' :: '\n' :: (tagLines tags ++ rest))) := by
        simp [tagLines, PgnHeaders.pgnTag, tagLine]
      rw [htext, readHeaders, if_pos rfl]
      split
      · next hread =>
        rw [readTag_tagLine h.1] at hread
        cases hread
      · next found hread =>
        rw [readTag_tagLine h.1] at hread
        obtain rfl := Option.some.inj hread
        rw [ih h.2, Option.map_map]
        rfl

/-! ## Movetext behind a blank line -/

/-- A line is read from the first character on that is no layout, unless it is one that ends
games. -/
theorem yields_newline {blanks : Text} (hblanks : ∀ b ∈ blanks, isLayout b = true) {c : Char}
    (h : isLayout c = false ∧ c ≠ '%' ∧ c ≠ '[' ∧ c ≠ '\n') (text : Text) :
    Yields S ('\n' :: (blanks ++ c :: text)) [] (c :: text) := by
  obtain ⟨hlayout, hpercent, hbracket, hline⟩ := h
  apply Yields.of_step
  intro depth terminated
  refine ⟨depth, terminated, ?_⟩
  have hdrop : (blanks ++ c :: text).dropWhile isLayout = c :: text := by
    rw [List.dropWhile_append_of_pos hblanks]
    exact List.dropWhile_cons_of_neg (by simp [hlayout])
  have hstep : ∀ rest, readStep S depth terminated '\n' rest =
      lineBoundary depth terminated rest := fun _ ↦ rfl
  rw [hstep, lineBoundary, hdrop]
  split
  · next heq => cases heq
  · next heq => exact absurd (List.cons.inj heq).1 hpercent
  · next heq => exact absurd (List.cons.inj heq).1 hbracket
  · next heq => exact absurd (List.cons.inj heq).1 hline
  · rfl

theorem isLayout_of_isDigit {c : Char} (h : c.isDigit = true) :
    isLayout c = false ∧ c ≠ '%' ∧ c ≠ '[' ∧ c ≠ '\n' := by
  have hne : ∀ d : Char, d.isDigit = false → c ≠ d := by
    rintro d hd rfl
    rw [h] at hd
    cases hd
  refine ⟨?_, hne '%' rfl, hne '[' rfl, hne '\n' rfl⟩
  simp [isLayout, hne ' ' rfl, hne '\t' rfl, hne '\r' rfl]

/-- A line can start with this part. -/
def opensLine : PgnPart → Bool
  | .comment _ => true
  | .number _ _ => true
  | .result _ => true
  | _ => false

theorem yields_line {part : PgnPart} (hlegible : part.Legible S) (h : opensLine part = true)
    {blanks : Text} (hblanks : ∀ b ∈ blanks, isLayout b = true) (text : Text) :
    Yields S ('\n' :: (blanks ++ (part.text ++ text))) [] (part.text ++ text) := by
  cases part with
  | comment value =>
      rw [PgnPart.text, List.cons_append]
      exact yields_newline hblanks (by decide) _
  | number n dots =>
      obtain ⟨c, digits, hdigits⟩ := List.exists_cons_of_ne_nil
        (Decimal.digits_ne_nil (n := n.natAbs))
      rw [PgnPart.text, numberText, if_neg (not_lt.mpr hlegible.1), hdigits]
      refine yields_newline hblanks (isLayout_of_isDigit ?_) _
      exact Decimal.isDigit_digits c (hdigits ▸ List.mem_cons_self)
  | result outcome => cases outcome <;> exact yields_newline hblanks (by decide) _
  | _ => cases h

/-- The two line ends behind a game. -/
theorem readMovetext_lineEnds (depth : ℕ) (terminated : Bool) :
    ∃ rest, readMovetext S depth terminated ['\n', '\n'] = some ([], rest) ∧
      (rest = [] ∨ rest = ['\n', '\n']) := by
  have hone : readStep S depth terminated '\n' ['\n'] =
      if terminated && decide (depth = 0) then .stop else .next [] depth terminated ['\n'] := rfl
  cases hend : terminated && decide (depth = 0) with
  | true =>
      rw [hend] at hone
      exact ⟨_, readMovetext_stop hone, .inr rfl⟩
  | false =>
      rw [hend] at hone
      have htwo : readStep S depth terminated '\n' [] = .next [] depth terminated [] := rfl
      refine ⟨[], ?_, .inl rfl⟩
      rw [readMovetext_next hone, readMovetext_next htwo, readMovetext]
      rfl

/-! ## Games -/

theorem skipWhitespace_of_bracket (text : Text) : skipWhitespace ('[' :: text) = '[' :: text := by
  rw [skipWhitespace, if_neg (by decide), if_neg (by decide)]

theorem readHeaders_of_line (text : Text) :
    readHeaders ('\n' :: text) = some ([], '\n' :: text) := by
  rw [readHeaders, if_neg (by decide), if_neg (by decide), if_neg (by decide)]

theorem skipWhitespace_lineEnds {rest : Text} (h : rest = [] ∨ rest = ['\n', '\n']) :
    skipWhitespace (skipBom (skipWhitespace rest)) = [] := by
  have hend : skipWhitespace [] = [] := by rw [skipWhitespace]
  have hrest : skipWhitespace rest = [] := by
    rcases h with rfl | rfl
    · exact hend
    · rw [skipWhitespace, if_pos (by decide), skipWhitespace, if_pos (by decide), hend]
  rw [hrest]
  exact hend

/-- A game in its file is read as its tags and its parts. -/
theorem lexGame_written (blanks : Text) {tags : List (String × Text)}
    (htags : ∀ tag ∈ tags, Lexable tag) (hne : tags ≠ []) {part : PgnPart} {parts : List PgnPart}
    (h : Written S (part :: parts)) (hopens : opensLine part = true)
    (hblanks : ∀ b ∈ blanks, isLayout b = true)
    (hlast : ∃ outcome, (part :: parts).getLast? = some (.result outcome)) :
    lexGame S (tagLines tags ++ '\n' :: (blanks ++ partsText (part :: parts)) ++ ['\n', '\n']) =
      .ok (tags.map headerToken ++ partsTokens (part :: parts)) := by
  obtain ⟨tag, tags, rfl⟩ := List.exists_cons_of_ne_nil hne
  have htext : ∃ text, tagLines (tag :: tags) ++ '\n' :: (blanks ++ partsText (part :: parts)) ++
      ['\n', '\n'] = '[' :: text := ⟨_, rfl⟩
  have hbehind : ∀ last ∈ (part :: parts).getLast?, MayFollow last ['\n', '\n'] := by
    obtain ⟨outcome, hlast⟩ := hlast
    rw [hlast]
    rintro _ ⟨⟩
    trivial
  have hline : Yields S ('\n' :: (blanks ++ (partsText (part :: parts) ++ ['\n', '\n'])))
      (partsTokens (part :: parts)) ['\n', '\n'] := by
    have hpart := h.legible part List.mem_cons_self
    have hopen := yields_line hpart hopens hblanks (partsText parts ++ ['\n', '\n'])
    rw [← List.append_assoc part.text] at hopen
    exact hopen.trans (yields_parts h hbehind)
  obtain ⟨depth, terminated, hread⟩ := hline 0 false
  obtain ⟨rest, hend, hrest⟩ := readMovetext_lineEnds (S := S) depth terminated
  have hheaders : readHeaders (tagLines (tag :: tags) ++
      '\n' :: (blanks ++ partsText (part :: parts)) ++ ['\n', '\n']) =
        some ((tag :: tags).map headerToken,
          '\n' :: (blanks ++ (partsText (part :: parts) ++ ['\n', '\n']))) := by
    rw [List.append_assoc, readHeaders_tagLines htags, List.cons_append, readHeaders_of_line,
      List.append_assoc]
    simp
  obtain ⟨text, htext⟩ := htext
  rw [htext] at hheaders ⊢
  have hstart : skipWhitespace (skipBom ('[' :: text)) = '[' :: text := by
    rw [skipBom, if_neg (by simp), skipWhitespace_of_bracket]
  rw [hend, Option.map_some, List.append_nil] at hread
  simp only [lexGame, hstart, hheaders, hread, skipWhitespace_lineEnds hrest]

end EnCroissant.PgnLexer

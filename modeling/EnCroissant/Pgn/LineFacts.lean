import Mathlib
import EnCroissant.Pgn.Scan

/-!
# Facts about single lines

A tag line shows an opening bracket before anything but whitespace, so it is
neither blank nor an escape nor a line comment.  A newline at the end of a line
changes nothing that the scanner sees in it.
-/

namespace EnCroissant

/-! ## Tag lines -/

/-- In front of its first bracket, a tag line holds only whitespace. -/
theorem exists_bracket_of_spansFrom {start : ℕ} {bytes : List UInt8} {span : TagValueSpan}
    {spans : List TagValueSpan}
    (h : tagValueSpansFrom 0 start bytes = some (span :: spans)) :
    ∃ ws rest, (∀ b ∈ ws, isAsciiWhitespace b = true) ∧ bytes = ws ++ 91 :: rest := by
  induction bytes generalizing start with
  | nil => simp [tagValueSpansFrom] at h
  | cons b bytes ih =>
      rw [tagValueSpansFrom] at h
      split_ifs at h with hws hbracket
      · obtain ⟨ws, rest, hall, rfl⟩ := ih h
        exact ⟨b :: ws, rest, by simpa [hws] using hall, rfl⟩
      · exact ⟨[], bytes, by simp, by rw [hbracket]; rfl⟩

theorem isAsciiWhitespace_cases {b : UInt8} (h : isAsciiWhitespace b = true) :
    b = 32 ∨ b = 9 ∨ b = 10 ∨ b = 12 ∨ b = 13 := by
  simpa [isAsciiWhitespace, or_assoc] using h

theorem encodeChar_bom : String.utf8EncodeChar '\uFEFF' = utf8Bom := by
  decide

theorem eq_bom_append {bytes : List UInt8} (h : bytes.take 3 = utf8Bom) :
    bytes = utf8Bom ++ bytes.drop 3 := by
  rw [← h, List.take_append_drop]

theorem drop_bomLength {bytes : List UInt8} :
    bytes = bytes.take (bomLength bytes) ++ bytes.drop (bomLength bytes) :=
  (List.take_append_drop _ _).symm

/-- The characters that may stand in front of the first bracket of a tag line. -/
def IsLead (c : Char) : Prop :=
  c = '\uFEFF' ∨ c = ' ' ∨ c = '\t' ∨ c = '\n' ∨ c = '\x0c' ∨ c = '\r'

theorem exists_lead_of_whitespace {ws rest : List UInt8} {text : List Char}
    (hws : ∀ b ∈ ws, isAsciiWhitespace b = true)
    (h : Utf8.encode text = ws ++ 91 :: rest) :
    ∃ lead text', (∀ c ∈ lead, IsLead c) ∧ text = lead ++ '[' :: text' := by
  induction ws generalizing text with
  | nil =>
      obtain ⟨text', rfl, -⟩ := Utf8.eq_cons_of_encode_eq_ascii (by decide) h
      exact ⟨[], text', by simp, rfl⟩
  | cons b ws ih =>
      have hb := isAsciiWhitespace_cases (hws b (List.mem_cons_self ..))
      have hlt : b < 128 := by
        rcases hb with rfl | rfl | rfl | rfl | rfl <;> decide
      have hlead : IsLead (Char.ofNat b.toNat) := by
        rcases hb with rfl | rfl | rfl | rfl | rfl <;> simp [IsLead]
      obtain ⟨text', rfl, htext'⟩ := Utf8.eq_cons_of_encode_eq_ascii hlt h
      obtain ⟨lead, text'', hall, rfl⟩ :=
        ih (fun b' hb' ↦ hws b' (List.mem_cons_of_mem _ hb')) htext'
      refine ⟨_ :: lead, text'', ?_, rfl⟩
      intro c hc
      rcases List.mem_cons.mp hc with rfl | hc
      · exact hlead
      · exact hall c hc

/-- The text of a tag line. -/
theorem exists_lead_of_tag {line : List UInt8} {text : List Char}
    (htag : (tagValueSpans line).isSome) (htext : Utf8.decode line = some text) :
    ∃ lead text', (∀ c ∈ lead, IsLead c) ∧ text = lead ++ '[' :: text' := by
  obtain ⟨spans, hspans⟩ := Option.isSome_iff_exists.mp htag
  simp only [tagValueSpans] at hspans
  split at hspans
  case h_2 => cases hspans
  case h_1 span spans' hfrom =>
    obtain ⟨ws, rest, hws, hline⟩ := exists_bracket_of_spansFrom hfrom
    have hencode := Utf8.encode_of_decode htext
    by_cases hbom : line.take 3 = utf8Bom
    · rw [bomLength, if_pos hbom] at hline
      rw [eq_bom_append hbom, hline, ← encodeChar_bom] at hencode
      obtain ⟨text', rfl, htext'⟩ := Utf8.eq_cons_of_encode_eq hencode.symm
      obtain ⟨lead, text'', hall, rfl⟩ := exists_lead_of_whitespace hws htext'
      refine ⟨'\uFEFF' :: lead, text'', ?_, rfl⟩
      intro c hc
      rcases List.mem_cons.mp hc with rfl | hc
      · exact Or.inl rfl
      · exact hall c hc
    · rw [bomLength, if_neg hbom, List.drop_zero] at hline
      exact exists_lead_of_whitespace hws (hencode.symm.trans hline)

theorem head?_dropWhile_append {α : Type*} {p : α → Bool} {xs ys : List α} {y a : α}
    (hy : p y = false) (h : ((xs ++ y :: ys).dropWhile p).head? = some a) :
    a ∈ xs ∨ a = y := by
  induction xs with
  | nil =>
      rw [List.nil_append, List.dropWhile_cons_of_neg (by simp [hy])] at h
      exact Or.inr (by simpa using h.symm)
  | cons x xs ih =>
      rw [List.cons_append] at h
      by_cases hx : p x = true
      · rw [List.dropWhile_cons_of_pos hx] at h
        exact (ih h).imp_left (List.mem_cons_of_mem _)
      · rw [List.dropWhile_cons_of_neg hx] at h
        exact Or.inl (by simp [Option.some.inj h.symm])

theorem trim_eq_nil_iff {cs : List Char} :
    trim cs = [] ↔ ∀ c ∈ cs, isWhitespace c = true := by
  rw [trim, List.reverse_eq_nil_iff, List.dropWhile_eq_nil_iff]
  constructor
  · intro h c hc
    by_contra hne
    have hmem : c ∈ cs.dropWhile isWhitespace := by
      have hsplit : cs.takeWhile isWhitespace ++ cs.dropWhile isWhitespace = cs :=
        List.takeWhile_append_dropWhile
      rw [← hsplit] at hc
      rcases List.mem_append.mp hc with hc | hc
      · exact absurd (List.mem_takeWhile_imp hc) hne
      · exact hc
    exact hne (h c (List.mem_reverse.mpr hmem))
  · intro h c hc
    exact h c ((List.dropWhile_suffix _).subset (List.mem_reverse.mp hc))

/-- A tag line is neither an escape nor a line comment, and not blank. -/
theorem classify_of_tag {line : List UInt8} {text : List Char} {brace : Bool}
    (htag : (tagValueSpans line).isSome) (htext : Utf8.decode line = some text) :
    (classify line text brace).escapedLine = false ∧
      (classify line text brace).escapedOrLineComment = false ∧
        (classify line text brace).nonWhitespace = true := by
  obtain ⟨lead, text', hlead, rfl⟩ := exists_lead_of_tag htag htext
  have hhead : ∀ c, c = '%' ∨ c = ';' →
      (trimBlanks (lead ++ '[' :: text')).head? ≠ some c := by
    intro c hc heq
    rcases head?_dropWhile_append (by decide) heq with hmem | rfl
    · have := hlead c hmem
      rcases hc with rfl | rfl <;> revert this <;> simp [IsLead]
    · rcases hc with hc | hc <;> exact absurd hc (by decide)
  have htrim : (trim (lead ++ '[' :: text')).isEmpty = false := by
    rw [List.isEmpty_eq_false_iff, Ne, trim_eq_nil_iff]
    intro hall
    exact absurd (hall '[' (by simp)) (by decide)
  simp [classify, hhead '%' (Or.inl rfl), hhead ';' (Or.inr rfl), htrim]

/-! ## Lines without a brace -/

theorem updateBraceFrom_of_plain {text : List Char} (h : ∀ c ∈ text, c ≠ '{')
    (quoted escaped : Bool) :
    updateBraceFrom false quoted escaped text = false := by
  induction text generalizing quoted escaped with
  | nil => rfl
  | cons c text ih =>
      have hc : c ≠ '{' := h c (List.mem_cons_self ..)
      have ih := ih fun c' hc' ↦ h c' (List.mem_cons_of_mem _ hc')
      cases escaped with
      | true => exact ih _ _
      | false => simp [updateBraceFrom, hc, ih]

/-! ## A newline at the end -/

theorem valueLength_cons {b : UInt8} (bytes : List UInt8) (hquote : b ≠ 34) (hcr : b ≠ 13)
    (hlf : b ≠ 10) (hescape : b ≠ 92) :
    valueLength (b :: bytes) = (· + 1) <$> valueLength bytes := by
  rw [valueLength.eq_def]
  split <;> simp_all

theorem valueLength_append_newline (bytes : List UInt8) :
    valueLength (bytes ++ [newline]) = valueLength bytes := by
  fun_induction valueLength bytes with
  | case1 => rfl
  | case2 => rfl
  | case3 => rfl
  | case4 => rfl
  | case5 => rfl
  | case6 c rest hc => simp [valueLength, hc]
  | case7 c rest hc ih => simp [valueLength, hc, ih]
  | case8 b rest hquote hcr hlf hend hescape ih =>
      have hb : b ≠ 92 := by
        rintro rfl
        cases rest with
        | nil => exact hend rfl rfl
        | cons c rest => exact hescape c rest rfl rfl
      rw [List.cons_append, valueLength_cons _ hquote hcr hlf hb, ih]

theorem valueLength_lt {bytes : List UInt8} {n : ℕ} (h : valueLength bytes = some n) :
    n < bytes.length := by
  fun_induction valueLength bytes generalizing n with
  | case1 => cases h
  | case2 rest =>
      obtain rfl := Option.some.inj h
      simp
  | case3 => cases h
  | case4 => cases h
  | case5 => cases h
  | case6 => cases h
  | case7 c rest hc ih =>
      obtain ⟨k, hk, rfl⟩ := Option.map_eq_some_iff.mp h
      have := ih hk
      simp only [List.length_cons]
      omega
  | case8 b rest hquote hcr hlf hend hescape ih =>
      obtain ⟨k, hk, rfl⟩ := Option.map_eq_some_iff.mp h
      have := ih hk
      simp only [List.length_cons]
      omega

theorem takeWhile_append_newline {p : UInt8 → Bool} (hp : p newline = false)
    (bytes : List UInt8) :
    (bytes ++ [newline]).takeWhile p = bytes.takeWhile p := by
  induction bytes with
  | nil => simp [hp]
  | cons b bytes ih => simp only [List.cons_append, List.takeWhile_cons, ih]

theorem drop_takeWhile_append_newline {p : UInt8 → Bool} (bytes : List UInt8) :
    (bytes ++ [newline]).drop (bytes.takeWhile p).length =
      bytes.drop (bytes.takeWhile p).length ++ [newline] :=
  List.drop_append_of_le_length (List.takeWhile_prefix p).length_le

theorem head?_append_newline_eq_iff {bytes : List UInt8} {b : UInt8} (hb : b ≠ newline) :
    (bytes ++ [newline]).head? = some b ↔ bytes.head? = some b := by
  cases bytes with
  | nil => simp [Ne.symm hb]
  | cons c bytes => simp

theorem tagPair_append_newline (start : ℕ) (bytes : List UInt8) :
    tagPair start (bytes ++ [newline]) = tagPair start bytes := by
  have hname : isNameByte newline = false := by decide
  have hblank : isBlank newline = false := by decide
  simp only [tagPair, takeWhile_append_newline hname, drop_takeWhile_append_newline,
    takeWhile_append_newline hblank]
  split_ifs with hempty
  · rfl
  · generalize (bytes.drop (bytes.takeWhile isNameByte).length) = afterName
    cases hvalue : afterName.drop (afterName.takeWhile isBlank).length with
    | nil => simp [newline]
    | cons b value =>
        by_cases hb : b = 34
        · subst hb
          simp only [List.cons_append, valueLength_append_newline]
          cases hlength : valueLength value with
          | none => rfl
          | some length =>
              have hlt := valueLength_lt hlength
              have hdrop : (value ++ [newline]).drop (length + 1) =
                  value.drop (length + 1) ++ [newline] :=
                List.drop_append_of_le_length hlt
              simp only [hdrop, takeWhile_append_newline hblank,
                drop_takeWhile_append_newline,
                head?_append_newline_eq_iff (show (93 : UInt8) ≠ newline by decide)]
        · simp [hb]

theorem tagValueSpansFrom_append_newline (skip start : ℕ) (bytes : List UInt8) :
    tagValueSpansFrom skip start (bytes ++ [newline]) = tagValueSpansFrom skip start bytes := by
  induction bytes generalizing skip start with
  | nil => cases skip <;> rfl
  | cons b bytes ih =>
      cases skip with
      | succ skip => exact ih skip (start + 1)
      | zero =>
          simp only [List.cons_append, tagValueSpansFrom, ih, tagPair_append_newline]

theorem bomLength_append_newline (bytes : List UInt8) :
    bomLength (bytes ++ [newline]) = bomLength bytes := by
  match bytes with
  | [] => rfl
  | [a] => simp [bomLength, utf8Bom]
  | [a, b] => simp [bomLength, utf8Bom, newline]
  | a :: b :: c :: bytes => rfl

theorem bomLength_le (bytes : List UInt8) : bomLength bytes ≤ bytes.length := by
  rw [bomLength]
  split
  case isTrue h =>
    have := congrArg List.length h
    simp only [List.length_take, utf8Bom, List.length_cons, List.length_nil] at this
    omega
  case isFalse => exact Nat.zero_le _

theorem tagValueSpans_append_newline (bytes : List UInt8) :
    tagValueSpans (bytes ++ [newline]) = tagValueSpans bytes := by
  rw [tagValueSpans, tagValueSpans, bomLength_append_newline,
    List.drop_append_of_le_length (bomLength_le bytes), tagValueSpansFrom_append_newline]

theorem trimBlanks_append_newline_head? (text : List Char) {c : Char} (hc : c ≠ '
') :
    (trimBlanks (text ++ ['
'])).head? = some c ↔ (trimBlanks text).head? = some c := by
  induction text with
  | nil => simp [trimBlanks, Ne.symm hc]
  | cons d text ih =>
      simp only [trimBlanks, List.cons_append, List.dropWhile_cons] at ih ⊢
      split_ifs
      · exact ih
      · rfl

theorem trim_append_newline_isEmpty (text : List Char) :
    (trim (text ++ ['
'])).isEmpty = (trim text).isEmpty := by
  rw [Bool.eq_iff_iff, List.isEmpty_iff, List.isEmpty_iff, trim_eq_nil_iff, trim_eq_nil_iff]
  have hnewline : isWhitespace '
' = true := by decide
  simp [or_imp, forall_and, hnewline]

theorem updateBraceFrom_append_newline (brace quoted escaped : Bool) (text : List Char) :
    updateBraceFrom brace quoted escaped (text ++ ['
']) =
      updateBraceFrom brace quoted escaped text := by
  induction text generalizing brace quoted escaped with
  | nil => revert brace quoted escaped; decide
  | cons c text ih =>
      cases brace with
      | true => exact ih _ _ _
      | false =>
          cases escaped with
          | true => exact ih _ _ _
          | false => simp only [List.cons_append, updateBraceFrom, ih]

theorem decode_append_newline {line : List UInt8} {text : List Char}
    (h : Utf8.decode line = some text) :
    Utf8.decode (line ++ [newline]) = some (text ++ ['
']) := by
  have hnewline : Utf8.encode ['
'] = [newline] := by decide
  rw [Utf8.decode_eq_some_iff, Utf8.encode_append, ← Utf8.encode_of_decode h, hnewline]

theorem classify_append_newline (line : List UInt8) (text : List Char) (brace : Bool) :
    classify (line ++ [newline]) (text ++ ['
']) brace = classify line text brace := by
  simp only [classify, isTagHeader, tagValueSpans_append_newline,
    trimBlanks_append_newline_head? text (show '%' ≠ '
' by decide),
    trimBlanks_append_newline_head? text (show ';' ≠ '
' by decide),
    trim_append_newline_isEmpty]

/-! ## A byte order mark in front of a tag line -/

theorem tagPair_length (start start' : ℕ) (bytes : List UInt8) :
    (tagPair start bytes).map Prod.snd = (tagPair start' bytes).map Prod.snd := by
  simp only [tagPair]
  split_ifs
  · rfl
  · split
    · split
      · rfl
      · split_ifs <;> rfl
    · rfl

/-- The offset does not decide how many tag pairs a line holds. -/
theorem tagValueSpansFrom_length (skip start start' : ℕ) (bytes : List UInt8) :
    (tagValueSpansFrom skip start bytes).map List.length =
      (tagValueSpansFrom skip start' bytes).map List.length := by
  induction bytes generalizing skip start start' with
  | nil => simp [tagValueSpansFrom]
  | cons b bytes ih =>
      cases skip with
      | succ skip => exact ih skip _ _
      | zero =>
          simp only [tagValueSpansFrom]
          split_ifs
          · exact ih 0 _ _
          · have hpair := tagPair_length (start + 1) (start' + 1) bytes
            cases h : tagPair (start + 1) bytes with
            | none =>
                rw [h] at hpair
                rw [Option.map_eq_none_iff.mp hpair.symm]
            | some pair =>
                rw [h] at hpair
                obtain ⟨pair', h', hlength⟩ := Option.map_eq_some_iff.mp hpair.symm
                have hrest := congrArg (Option.map (· + 1)) (ih pair.2 (start + 1) (start' + 1))
                simp only [Option.map_map] at hrest
                simpa [h', hlength, Function.comp_def] using hrest
          · rfl

theorem tagValueSpans_isSome_iff (line : List UInt8) (start : ℕ) :
    (tagValueSpans line).isSome ↔
      ∃ n, (tagValueSpansFrom 0 start (line.drop (bomLength line))).map List.length =
        some (n + 1) := by
  rw [tagValueSpansFrom_length 0 start (bomLength line), tagValueSpans]
  cases tagValueSpansFrom 0 (bomLength line) (line.drop (bomLength line)) with
  | none => simp
  | some spans => cases spans <;> simp

/-- A tag line stays one without the byte order mark in front of it. -/
theorem tagValueSpans_drop_bom {line : List UInt8} (h : (tagValueSpans line).isSome) :
    (tagValueSpans (line.drop (bomLength line))).isSome := by
  have hspans := (tagValueSpans_isSome_iff line 0).mp h
  obtain ⟨n, hn⟩ := hspans
  have hbom : bomLength (line.drop (bomLength line)) = 0 := by
    obtain ⟨spans, hfrom, hlength⟩ := Option.map_eq_some_iff.mp hn
    cases spans with
    | nil => cases hlength
    | cons span spans =>
        obtain ⟨ws, rest, hws, hline⟩ := exists_bracket_of_spansFrom hfrom
        rw [hline, bomLength, if_neg]
        intro htake
        cases ws with
        | nil => simp [utf8Bom] at htake
        | cons b ws =>
            have hb := isAsciiWhitespace_cases (hws b (List.mem_cons_self ..))
            obtain rfl : b = 0xEF := by
              simp only [utf8Bom, List.cons_append, List.take_succ_cons] at htake
              exact (List.cons.inj htake).1
            revert hb
            decide
  rw [tagValueSpans_isSome_iff _ 0, hbom, List.drop_zero]
  exact ⟨n, hn⟩

end EnCroissant

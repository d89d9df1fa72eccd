import EnCroissant.Engine.TerminalCredentials

/-!
# Two scans of one diagnostic

The scans of two texts that differ only in the value of their last credential take the
same tokens until they reach the key, or until one token takes all that is left.  Only a
path without quotes that begins before the key and runs into it keeps the key from being
seen.
-/

namespace EnCroissant.Engine

open Utf8 (isBoundary charLen isContinuation)

/-! ## Tokens before a key -/

/-- What stands at the front of a text that is no credential. -/
def literalToken (previous : Option UInt8) (rest : List UInt8) : Option TerminalToken :=
  let boundary := previous.all (!isAsciiAlphanumeric ·)
  match (terminalQuotedToken rest 0).filter (·.quote = 34) with
  | some opening => some (.opening opening.start)
  | none =>
      if boundary && startsPath rest then
        some (.path (skipWhile (continuesPath (quoteBefore previous)) rest 0))
      else if boundary && rest.head?.any (· ∈ chessBytes) then
        match slice rest 0 (skipWhile (· ≠ 32) rest 0) with
        | none => none
        | some token =>
            if isChessToken token then some (.chess token.length) else some (.char (charLen rest))
      else some (.char (charLen rest))

theorem terminalToken_eq (previous : Option UInt8) (rest : List UInt8) :
    terminalToken previous rest =
      if !isBoundary rest 0 then none
      else match if previous.all (!isAsciiAlphanumeric ·) then
          secretPlace rest (terminalQuotedToken rest 0) else some none with
        | none => none
        | some none => literalToken previous rest
        | some (some place) =>
            some (.secret (secretValue rest place).1 (secretValue rest place).2.1
              (secretValue rest place).2.2) := by
  have hsecret : (if previous.all (!isAsciiAlphanumeric ·) then
      terminalSecret rest (terminalQuotedToken rest 0) else some none) =
        (if previous.all (!isAsciiAlphanumeric ·) then
          secretPlace rest (terminalQuotedToken rest 0) else some none).map
            (·.map (secretValue rest)) := by
    rw [terminalSecret_eq]
    split_ifs <;> rfl
  rw [terminalToken]
  simp only [hsecret]
  generalize (if previous.all (!isAsciiAlphanumeric ·) then
    secretPlace rest (terminalQuotedToken rest 0) else some none) = found
  rcases found with _ | _ | place <;> rfl

/-- What a scan does before the last credential of a text, whatever its value. -/
inductive Progress (said : Announcement) (before : List UInt8) (previous : Option UInt8)
    (next : UnquotedValue → Option TerminalToken) : Prop
  | fails (h : ∀ value, next value = none)
  | within (token : TerminalToken) (hle : token.next ≤ before.length)
      (h : ∀ value, next value = some token ∧
        token.output (before ++ said.bytes ++ value.bytes) =
          token.output (before ++ said.bytes))
  | redacts (start : ℕ) (hle : start ≤ (before ++ said.bytes).length)
      (h : ∀ value : UnquotedValue, next value =
        some (.secret start (before ++ said.bytes ++ value.bytes).length
          (before ++ said.bytes ++ value.bytes).length))
  | hides (h : ∀ value : UnquotedValue, next value =
      some (.path (before ++ said.bytes ++ value.bytes).length))
  | runs (hquote : quoteBefore previous = none)
      (h : ∀ value : UnquotedValue, ∃ n, next value = some (.path n) ∧ before.length < n)

theorem startsDrive_append {text : List UInt8} (h : 3 ≤ text.length) (more : List UInt8) :
    startsDrive (text ++ more) = startsDrive text := by
  match text, h with
  | _ :: _ :: _ :: _, _ => rfl

theorem startsPath_append {text : List UInt8} (h : 3 ≤ text.length) (more : List UInt8) :
    startsPath (text ++ more) = startsPath text := by
  have hshort : ∀ start ∈ pathStarts, start.length ≤ 3 := by
    rw [pathStarts_eq]
    decide
  have hstarts : pathStarts.any (·.isPrefixOf (text ++ more)) =
      pathStarts.any (·.isPrefixOf text) := by
    rw [Bool.eq_iff_iff, List.any_eq_true, List.any_eq_true]
    constructor
    · rintro ⟨start, hstart, hbegins⟩
      rw [List.isPrefixOf_iff_prefix] at hbegins
      refine ⟨start, hstart, List.isPrefixOf_iff_prefix.mpr ?_⟩
      apply List.prefix_of_prefix_length_le hbegins (List.prefix_append _ _)
      exact (hshort start hstart).trans h
    · rintro ⟨start, hstart, hbegins⟩
      rw [List.isPrefixOf_iff_prefix] at hbegins
      exact ⟨start, hstart, List.isPrefixOf_iff_prefix.mpr
        (hbegins.trans (List.prefix_append _ _))⟩
  rw [startsPath, startsPath, hstarts, startsDrive_append h]

section Announced

variable (said : Announcement) (value : UnquotedValue) {before : List UInt8}

/-- A run that a text before a key stops, stops there. -/
theorem skipWhile_announced_of_stop {test : UInt8 → Bool} {b : UInt8} (hb : b ∈ before)
    (hstop : test b = false) :
    skipWhile test (before ++ said.bytes ++ value.bytes) 0 = skipWhile test before 0 := by
  obtain ⟨n, hn⟩ := List.getElem?_of_mem hb
  rw [List.append_assoc]
  exact skipWhile_append_of_stop _ (Nat.zero_le _) hn hstop

/-- A run over the text before a key goes on with the key. -/
theorem skipWhile_announced {test : UInt8 → Bool} (h : ∀ b ∈ before, test b = true) :
    skipWhile test (before ++ said.bytes ++ value.bytes) 0 =
      before.length + ((said.bytes ++ value.bytes).takeWhile test).length := by
  rw [skipWhile, List.drop_zero, List.append_assoc, List.takeWhile_append_of_pos h,
    List.length_append, Nat.zero_add]

theorem Announcement.exists_first (said : Announcement) :
    ∃ b later, said.bytes = b :: later ∧ isKeyByte b = true := by
  obtain ⟨b, later, hkey⟩ := List.exists_cons_of_ne_nil said.key_ne
  refine ⟨b, later ++ (said.before ++ said.separator :: said.after), ?_, ?_⟩
  · rw [Announcement.bytes, hkey, List.cons_append]
  · apply said.isKey
    rw [hkey]
    exact List.mem_cons_self

theorem announced_ne_nil (before : List UInt8) : before ++ said.bytes ++ value.bytes ≠ [] := by
  obtain ⟨b, later, hkey, -⟩ := said.exists_first
  rw [hkey]
  simp

theorem charLen_announced (hne : before ≠ []) :
    charLen (before ++ said.bytes ++ value.bytes) = charLen before ∧
      charLen before ≤ before.length := by
  obtain ⟨b, later, hkey, hb⟩ := said.exists_first
  have hfirst := Utf8.isContinuation_of_ascii (ascii_of_isKeyByte b hb)
  obtain ⟨lead, rest, rfl⟩ := List.exists_cons_of_ne_nil hne
  have hrun : (rest ++ (said.bytes ++ value.bytes)).takeWhile isContinuation =
      rest.takeWhile isContinuation := by
    rw [List.takeWhile_append, hkey, List.cons_append,
      List.takeWhile_cons_of_neg (by rw [hfirst]; decide), List.append_nil]
    split_ifs with hall
    · exact ((List.takeWhile_prefix _).eq_of_length hall).symm
    · rfl
  have hle := (List.takeWhile_prefix isContinuation (l := rest)).length_le
  constructor
  · rw [List.append_assoc, List.cons_append, charLen, charLen, hrun]
  · rw [charLen, List.length_cons]
    omega

theorem startsPath_announced (hne : before ≠ []) :
    startsPath (before ++ said.bytes ++ value.bytes) = startsPath (before ++ said.bytes) := by
  apply startsPath_append
  have hpos := List.length_pos_of_ne_nil hne
  have hkey := List.length_pos_of_ne_nil said.key_ne
  have hlt := said.separator_lt before
  omega

/-! ### No chess token runs over a key -/

/-- A key has a letter that no board and no draw has. -/
theorem Announcement.exists_foreign (said : Announcement) :
    ∃ b ∈ said.key, b ≠ 47 ∧ b ∉ chessBytes ∧ b ∉ bytesOf "1/2-1/2" := by
  have hletter : ∃ b ∈ said.key.map toAsciiLower, b = 97 ∨ b = 116 := by
    have hsecret := said.secret
    rw [isSecretKey, Bool.or_eq_true, decide_eq_true_eq, List.any_eq_true] at hsecret
    rcases hsecret with hkey | ⟨suffix, hsuffix, hkey⟩
    · rw [hkey]
      exact ⟨97, by decide, .inl rfl⟩
    · have hsome : ∀ suffix ∈ secretSuffixes, (97 ∈ suffix ∨ 116 ∈ suffix) := by decide
      have hsubset := (List.isSuffixOf_iff_suffix.mp hkey).subset
      rcases hsome suffix hsuffix with h | h
      · exact ⟨97, hsubset h, .inl rfl⟩
      · exact ⟨116, hsubset h, .inr rfl⟩
  obtain ⟨lower, hlower, hcase⟩ := hletter
  obtain ⟨b, hb, rfl⟩ := List.mem_map.mp hlower
  refine ⟨b, hb, ?_⟩
  have hall : ∀ n : Fin 256, (toAsciiLower (UInt8.ofNat n) = 97 ∨
      toAsciiLower (UInt8.ofNat n) = 116) → UInt8.ofNat n ≠ 47 ∧ UInt8.ofNat n ∉ chessBytes ∧
        UInt8.ofNat n ∉ bytesOf "1/2-1/2" := by
    decide +kernel
  have hb' := hall ⟨b.toNat, b.toNat_lt⟩
  rw [UInt8.ofNat_toNat] at hb'
  exact hb' hcase

theorem Announcement.not_isChessToken (said : Announcement) {token : List UInt8}
    (h : ∀ b ∈ said.key, b ∈ token) : isChessToken token = false := by
  obtain ⟨b, hb, hslash, hchess, hdraw⟩ := said.exists_foreign
  have hmem := h b hb
  rw [isChessToken, Bool.or_eq_false_iff, decide_eq_false_iff_not, Bool.and_eq_false_iff]
  constructor
  · rintro rfl
    exact hdraw hmem
  · refine .inr (Bool.eq_false_iff.mpr fun hall ↦ ?_)
    have hcopied := List.all_eq_true.mp hall b hmem
    simp only [Bool.or_eq_true, decide_eq_true_eq] at hcopied
    exact hcopied.elim hslash hchess

/-! ### One token -/

/-- The text before the key is copied alike, up to a token's end in it. -/
theorem output_of_slice {token : TerminalToken} (hle : token.next ≤ before.length)
    (h : ∀ text, token.output text = slice text 0 token.next) :
    token.output (before ++ said.bytes ++ value.bytes) = token.output (before ++ said.bytes) := by
  rw [h, h, slice_append value]
  rw [List.length_append]
  omega

theorem Progress.char {previous : Option UInt8} {next : UnquotedValue → Option TerminalToken}
    (hne : before ≠ []) (h : ∀ value : UnquotedValue,
      next value = some (.char (charLen (before ++ said.bytes ++ value.bytes)))) :
    Progress said before previous next := by
  have hlength := fun value ↦ charLen_announced said value hne
  have hle : charLen before ≤ before.length := by
    rcases before with _ | ⟨b, rest⟩
    · exact absurd rfl hne
    · rw [charLen, List.length_cons]
      have hle := (List.takeWhile_prefix isContinuation (l := rest)).length_le
      omega
  refine .within (.char (charLen before)) hle fun value ↦ ⟨?_, ?_⟩
  · rw [h value, (hlength value).1]
  · exact output_of_slice said value hle fun _ ↦ rfl

theorem Progress.path {previous : Option UInt8} {next : UnquotedValue → Option TerminalToken}
    (h : ∀ value : UnquotedValue, next value = some (.path
      (skipWhile (continuesPath (quoteBefore previous))
        (before ++ said.bytes ++ value.bytes) 0))) :
    Progress said before previous next := by
  by_cases hall : ∀ b ∈ before, continuesPath (quoteBefore previous) b = true
  · cases hquote : quoteBefore previous with
    | some quote =>
        -- no later byte is the quote that would end the path
        refine .hides fun value ↦ ?_
        have hrest : ∀ b ∈ said.bytes ++ value.bytes,
            continuesPath (quoteBefore previous) b = true := by
          intro b hb
          obtain ⟨hsingle, hdouble, -⟩ := (said.plain.append value.plain) b hb
          obtain ⟨-, hisQuote⟩ := Option.filter_eq_some_iff.mp hquote
          rw [Bool.or_eq_true, decide_eq_true_eq, decide_eq_true_eq] at hisQuote
          rw [hquote, continuesPath, decide_eq_true_eq]
          rcases hisQuote with rfl | rfl
          · exact hsingle
          · exact hdouble
        rw [h value, skipWhile_announced said value hall, List.takeWhile_eq_self_iff.mpr hrest]
        simp only [List.append_assoc, List.length_append]
    | none =>
        refine .runs hquote fun value ↦ ⟨_, h value, ?_⟩
        obtain ⟨b, later, hkey, hb⟩ := said.exists_first
        have hgoes : continuesPath (quoteBefore previous) b = true := by
          rw [hquote, continuesPath, Bool.not_eq_true']
          refine Bool.eq_false_iff.mpr fun hstop ↦ ?_
          simp only [Bool.or_eq_true, decide_eq_true_eq] at hstop
          rcases hstop with ((((rfl | rfl) | rfl) | rfl) | rfl) | rfl <;> exact absurd hb (by decide)
        rw [skipWhile_announced said value hall, hkey, List.cons_append,
          List.takeWhile_cons_of_pos hgoes, List.length_cons]
        omega
  · push Not at hall
    obtain ⟨b, hb, hstop⟩ := hall
    rw [ne_eq, Bool.not_eq_true] at hstop
    refine .within (.path (skipWhile (continuesPath (quoteBefore previous)) before 0))
      (skipWhile_le (Nat.zero_le _)) fun value ↦ ⟨?_, rfl⟩
    rw [h value, skipWhile_announced_of_stop said value hb hstop]

theorem Progress.board {previous : Option UInt8} {next : UnquotedValue → Option TerminalToken}
    (hne : before ≠ []) (hzero : isBoundary (before ++ said.bytes) 0 = true)
    (h : ∀ value : UnquotedValue, next value =
      match slice (before ++ said.bytes ++ value.bytes) 0
        (skipWhile (· ≠ 32) (before ++ said.bytes ++ value.bytes) 0) with
      | none => none
      | some token =>
          if isChessToken token then some (.chess token.length)
          else some (.char (charLen (before ++ said.bytes ++ value.bytes)))) :
    Progress said before previous next := by
  have hstop : ∀ b : UInt8, decide (b ≠ 32) = false → b < 128 := by
    intro b hb
    rw [decide_eq_false_iff_not, not_not] at hb
    exact hb ▸ by decide
  have hslice : ∀ value : UnquotedValue,
      slice (before ++ said.bytes ++ value.bytes) 0
          (skipWhile (· ≠ 32) (before ++ said.bytes ++ value.bytes) 0) =
        some ((before ++ said.bytes ++ value.bytes).take
          (skipWhile (· ≠ 32) (before ++ said.bytes ++ value.bytes) 0)) := by
    intro value
    apply slice_eq_some (Nat.zero_le _) ⟨Nat.zero_le _, ?_⟩ (cut_of_stops hstop _)
    rw [isBoundary_append value (Nat.zero_le _)]
    exact hzero
  simp only [hslice] at h
  by_cases hall : ∀ b ∈ before, decide (b ≠ 32) = true
  · refine .char said hne fun value ↦ ?_
    have hkey : ∀ b ∈ said.key, b ∈ (before ++ said.bytes ++ value.bytes).take
        (skipWhile (· ≠ 32) (before ++ said.bytes ++ value.bytes) 0) := by
      have hrun : ∀ b ∈ said.key, decide (b ≠ 32) = true := by
        intro b hb
        rw [decide_eq_true_eq]
        rintro rfl
        exact absurd (said.isKey 32 hb) (by decide)
      intro b hb
      rw [skipWhile_announced said value hall, List.append_assoc, List.take_length_add_append,
        Announcement.bytes, List.append_assoc, List.takeWhile_append_of_pos hrun,
        List.length_append, List.take_length_add_append]
      exact List.mem_append_right _ (List.mem_append_left _ hb)
    rw [h value, said.not_isChessToken hkey, if_neg (by decide)]
  · push Not at hall
    obtain ⟨b, hb, hends⟩ := hall
    rw [ne_eq, Bool.not_eq_true] at hends
    have hle : skipWhile (· ≠ 32) before 0 ≤ before.length := skipWhile_le (Nat.zero_le _)
    have htake : ∀ value : UnquotedValue, (before ++ said.bytes ++ value.bytes).take
        (skipWhile (· ≠ 32) before 0) = before.take (skipWhile (· ≠ 32) before 0) := by
      intro value
      rw [List.append_assoc, List.take_append_of_le_length hle]
    have hrun : ∀ value : UnquotedValue,
        skipWhile (· ≠ 32) (before ++ said.bytes ++ value.bytes) 0 =
          skipWhile (· ≠ 32) before 0 :=
      fun value ↦ skipWhile_announced_of_stop said value hb hends
    simp only [hrun, htake] at h
    cases hchess : isChessToken (before.take (skipWhile (· ≠ 32) before 0)) with
    | false => exact .char said hne fun value ↦ by rw [h value, hchess, if_neg (by decide)]
    | true =>
        simp only [hchess, if_true, List.length_take_of_le hle] at h
        refine .within (.chess (skipWhile (· ≠ 32) before 0)) hle fun value ↦ ⟨h value, ?_⟩
        exact output_of_slice said value hle fun _ ↦ rfl

theorem Progress.literal (previous : Option UInt8) (hne : before ≠ [])
    (hzero : isBoundary (before ++ said.bytes) 0 = true) :
    Progress said before previous fun value ↦
      literalToken previous (before ++ said.bytes ++ value.bytes) := by
  have hquoted : ∀ value : UnquotedValue,
      (terminalQuotedToken (before ++ said.bytes ++ value.bytes) 0).filter (·.quote = 34) =
        ((terminalQuotedToken before 0).filter (·.quote = 34)).map
          (·.lengthen (said.bytes ++ value.bytes).length) := by
    intro value
    rw [terminalQuotedToken_announced said before (Nat.zero_le _) value.plain,
      Option.filter_map]
    cases terminalQuotedToken before 0 with
    | none => rfl
    | some token =>
        rw [Option.filter_some, Option.filter_some, Function.comp_apply, lengthen_quote]
  cases hopening : (terminalQuotedToken before 0).filter (·.quote = 34) with
  | some opening =>
      have hle := (stop_le_of_close (Option.filter_eq_some_iff.mp hopening).1).1
      refine .within (.opening opening.start) hle fun value ↦ ⟨?_, ?_⟩
      · rw [literalToken, hquoted value, hopening]
        simp
      · exact output_of_slice said value hle fun _ ↦ rfl
  | none =>
      have hfirst : ∀ value : UnquotedValue,
          (before ++ said.bytes ++ value.bytes).head? = before.head? := by
        intro value
        obtain ⟨b, rest, rfl⟩ := List.exists_cons_of_ne_nil hne
        rfl
      have hliteral : ∀ value : UnquotedValue,
          literalToken previous (before ++ said.bytes ++ value.bytes) =
            if previous.all (!isAsciiAlphanumeric ·) && startsPath (before ++ said.bytes) then
              some (.path (skipWhile (continuesPath (quoteBefore previous))
                (before ++ said.bytes ++ value.bytes) 0))
            else if previous.all (!isAsciiAlphanumeric ·) &&
                before.head?.any (· ∈ chessBytes) then
              match slice (before ++ said.bytes ++ value.bytes) 0
                (skipWhile (· ≠ 32) (before ++ said.bytes ++ value.bytes) 0) with
              | none => none
              | some token =>
                  if isChessToken token then some (.chess token.length)
                  else some (.char (charLen (before ++ said.bytes ++ value.bytes)))
            else some (.char (charLen (before ++ said.bytes ++ value.bytes))) := by
        intro value
        rw [literalToken, hquoted value, hopening]
        simp only [Option.map_none, startsPath_announced said value hne, hfirst value]
      by_cases hpath : (previous.all (!isAsciiAlphanumeric ·) &&
          startsPath (before ++ said.bytes)) = true
      · exact .path said fun value ↦ by rw [hliteral value, if_pos hpath]
      · by_cases hchess : (previous.all (!isAsciiAlphanumeric ·) &&
            before.head?.any (· ∈ chessBytes)) = true
        · exact .board said hne hzero fun value ↦ by
            rw [hliteral value, if_neg hpath, if_pos hchess]
        · exact .char said hne fun value ↦ by rw [hliteral value, if_neg hpath, if_neg hchess]

/-- Before the key one token of the scan depends on the value only in where the text ends. -/
theorem progress (previous : Option UInt8) (hne : before ≠ []) :
    Progress said before previous fun value ↦
      terminalToken previous (before ++ said.bytes ++ value.bytes) := by
  have htoken : ∀ value : UnquotedValue,
      terminalToken previous (before ++ said.bytes ++ value.bytes) =
        if !isBoundary (before ++ said.bytes) 0 then none
        else match if previous.all (!isAsciiAlphanumeric ·) then
            secretPlace (before ++ said.bytes) (terminalQuotedToken (before ++ said.bytes) 0)
            else some none with
          | none => none
          | some none => literalToken previous (before ++ said.bytes ++ value.bytes)
          | some (some place) =>
              some (.secret (secretValue (before ++ said.bytes ++ value.bytes) place).1
                (secretValue (before ++ said.bytes ++ value.bytes) place).2.1
                (secretValue (before ++ said.bytes ++ value.bytes) place).2.2) := by
    intro value
    rw [terminalToken_eq, isBoundary_append value (Nat.zero_le _), secretPlace_announced]
  cases hzero : isBoundary (before ++ said.bytes) 0 with
  | false => exact .fails fun value ↦ by rw [htoken value, hzero]; rfl
  | true =>
      cases hplace : (if previous.all (!isAsciiAlphanumeric ·) then
          secretPlace (before ++ said.bytes) (terminalQuotedToken (before ++ said.bytes) 0)
          else some none) with
      | none => exact .fails fun value ↦ by rw [htoken value, hzero, hplace]; rfl
      | some place =>
          cases place with
          | none =>
              have hliteral := Progress.literal said previous hne hzero
              have hsame : (fun value : UnquotedValue ↦
                  terminalToken previous (before ++ said.bytes ++ value.bytes)) =
                    fun value ↦ literalToken previous (before ++ said.bytes ++ value.bytes) := by
                funext value
                rw [htoken value, hzero, hplace]
                rfl
              rw [hsame]
              exact hliteral
          | some place =>
              have hle : place ≤ (before ++ said.bytes).length := by
                split_ifs at hplace
                · exact secretPlace_le said before hplace
                · cases hplace
              simp only [hzero, hplace] at htoken
              rcases secretValue_announced said before hle with
                ⟨secret, hstart, hstop, hnext, hvalue⟩ | ⟨start, hstart, hvalue⟩
              · refine .within (.secret secret.1 secret.2.1 secret.2.2) hnext fun value ↦ ⟨?_, ?_⟩
                · rw [htoken value, hvalue value]
                  rfl
                · have hlength : secret.2.2 ≤ (before ++ said.bytes).length := by
                    rw [List.length_append]
                    omega
                  rw [TerminalToken.output, TerminalToken.output,
                    slice_append value (hstart.trans (hstop.trans hlength)),
                    slice_append value hlength]
              · refine .redacts start hstart fun value ↦ ?_
                rw [htoken value, hvalue value]
                rfl

/-- At the key the rest of the text is redacted, from a place before the value. -/
theorem redacts_at_key {previous : Option UInt8}
    (hprevious : previous.all (!isAsciiAlphanumeric ·) = true) :
    ∃ start ≤ said.bytes.length, ∀ value : UnquotedValue,
      terminalToken previous (said.bytes ++ value.bytes) =
        some (.secret start (said.bytes ++ value.bytes).length
          (said.bytes ++ value.bytes).length) := by
  obtain ⟨place, hplace⟩ := said.secretPlace_eq
  obtain ⟨b, later, hkey, hb⟩ := said.exists_first
  have hzero : isBoundary said.bytes 0 = true :=
    Utf8.isBoundary_of_ascii (by rw [hkey]; rfl) (ascii_of_isKeyByte b hb)
  refine ⟨place, secretPlace_le said [] hplace, fun value ↦ ?_⟩
  have hsame := secretPlace_announced said value []
  rw [List.nil_append] at hsame
  have hvalue : terminalQuotedToken (said.bytes ++ value.bytes) place = none :=
    terminalQuotedToken_of_plain fun c hc ↦
      (said.plain.append value.plain) c (List.mem_of_mem_drop hc)
  rw [terminalToken_eq, isBoundary_append value (Nat.zero_le _), hzero, if_neg (by decide),
    if_pos hprevious, hsame, hplace]
  simp only [secretValue, hvalue]

end Announced

/-! ## Two scans -/

/-- Whether an unquoted path that the scan meets takes some of the last `kept` bytes. -/
def pathRunsPast (kept : ℕ) : ℕ → Option UInt8 → List UInt8 → Bool
  | 0, _, _ => false
  | fuel + 1, previous, rest =>
      if rest.length ≤ kept then false
      else
        match terminalToken previous rest with
        | none => false
        | some token =>
            (token = .path token.next && quoteBefore previous = none &&
                rest.length < token.next + kept) ||
              pathRunsPast kept fuel (previousAfter previous rest token.next)
                (rest.drop token.next)

theorem scanTerminal_inv {fuel : ℕ} {previous : Option UInt8} {rest written : List UInt8}
    (hne : rest ≠ []) (h : scanTerminal fuel previous rest = some written) :
    ∃ steps token front later, fuel = steps + 1 ∧ terminalToken previous rest = some token ∧
      token.output rest = some front ∧ scanTerminal steps (previousAfter previous rest token.next)
        (rest.drop token.next) = some later ∧ written = front ++ later := by
  obtain ⟨b, bytes, rfl⟩ := List.exists_cons_of_ne_nil hne
  cases fuel with
  | zero => cases h
  | succ steps =>
      simp only [scanTerminal] at h
      obtain ⟨token, htoken, h⟩ := Option.bind_eq_some_iff.mp h
      obtain ⟨front, hfront, h⟩ := Option.bind_eq_some_iff.mp h
      obtain ⟨later, hlater, h⟩ := Option.bind_eq_some_iff.mp h
      exact ⟨steps, token, front, later, rfl, htoken, hfront, hlater, (Option.some.inj h).symm⟩

theorem scanTerminal_nil (fuel : ℕ) (previous : Option UInt8) :
    scanTerminal fuel previous [] = some [] := by
  cases fuel <;> rfl

/-- After a token that takes all that is left nothing more is written. -/
theorem scanTerminal_last {fuel : ℕ} {previous : Option UInt8} {rest written : List UInt8}
    {token : TerminalToken} (hne : rest ≠ []) (htoken : terminalToken previous rest = some token)
    (hnext : token.next = rest.length) (h : scanTerminal fuel previous rest = some written) :
    token.output rest = some written := by
  obtain ⟨steps, found, front, later, -, hfound, hfront, hlater, rfl⟩ := scanTerminal_inv hne h
  rw [htoken] at hfound
  cases hfound
  rw [hnext, List.drop_length, scanTerminal_nil] at hlater
  cases hlater
  rw [hfront, List.append_nil]

/-- What is written where the rest of a text is redacted does not show the value. -/
theorem output_redacted {text : List UInt8} (value : UnquotedValue) {start : ℕ}
    (h : start ≤ text.length) :
    (TerminalToken.secret start (text ++ value.bytes).length (text ++ value.bytes).length).output
        (text ++ value.bytes) = (slice text 0 start).map (· ++ bytesOf "[redacted]") := by
  have hend : slice (text ++ value.bytes) (text ++ value.bytes).length
      (text ++ value.bytes).length = some [] := by
    rw [slice_eq_some le_rfl (cut_length _) (cut_length _), List.take_length, List.drop_length]
  rw [TerminalToken.output, slice_append value h, hend]
  cases slice text 0 start with
  | none => rfl
  | some front => simp

theorem getLast?_previousAfter (previous : Option UInt8) (before more : List UInt8) {n : ℕ}
    (h : n ≤ before.length) :
    (before.drop n).getLast?.or (previousAfter previous (before ++ more) n) =
      before.getLast?.or previous := by
  have hsplit : before.getLast? = (before.drop n).getLast?.or (before.take n).getLast? := by
    rw [← List.getLast?_append, List.take_append_drop]
  rw [previousAfter, List.take_append_of_le_length h, hsplit, Option.or_assoc]

/-- Two scans that differ only in the value of the last credential write the same, unless a path
runs into its key. -/
theorem scanTerminal_alike (said : Announcement) (value₁ value₂ : UnquotedValue) {fuel₁ : ℕ} :
    ∀ {fuel₂ : ℕ} {previous : Option UInt8} {before written₁ written₂ : List UInt8},
      (before.getLast?.or previous).all (!isAsciiAlphanumeric ·) = true →
      pathRunsPast (said.bytes ++ value₁.bytes).length fuel₁ previous
        (before ++ said.bytes ++ value₁.bytes) = false →
      scanTerminal fuel₁ previous (before ++ said.bytes ++ value₁.bytes) = some written₁ →
      scanTerminal fuel₂ previous (before ++ said.bytes ++ value₂.bytes) = some written₂ →
        written₁ = written₂ := by
  induction fuel₁ with
  | zero =>
      intro fuel₂ previous before written₁ written₂ _ _ h₁ _
      obtain ⟨steps, -, -, -, hsteps, -⟩ :=
        scanTerminal_inv (announced_ne_nil said value₁ before) h₁
      cases hsteps
  | succ fuel ih =>
      intro fuel₂ previous before written₁ written₂ hlast hruns h₁ h₂
      have hne : ∀ value : UnquotedValue, before ++ said.bytes ++ value.bytes ≠ [] :=
        fun value ↦ announced_ne_nil said value before
      have hredacts : ∀ {start : ℕ}, start ≤ (before ++ said.bytes).length →
          (∀ value : UnquotedValue, terminalToken previous (before ++ said.bytes ++ value.bytes) =
            some (.secret start (before ++ said.bytes ++ value.bytes).length
              (before ++ said.bytes ++ value.bytes).length)) → written₁ = written₂ := by
        intro start hle htoken
        have hout₁ := scanTerminal_last (hne value₁) (htoken value₁) rfl h₁
        have hout₂ := scanTerminal_last (hne value₂) (htoken value₂) rfl h₂
        rw [output_redacted _ hle] at hout₁ hout₂
        exact Option.some.inj (hout₁.symm.trans hout₂)
      rcases eq_or_ne before [] with rfl | hbefore
      · obtain ⟨start, hle, htoken⟩ := redacts_at_key said hlast
        exact hredacts hle htoken
      · cases progress said previous hbefore with
        | fails h =>
            obtain ⟨steps, token, -, -, -, htoken, -⟩ := scanTerminal_inv (hne value₁) h₁
            rw [h value₁] at htoken
            cases htoken
        | within token hle h =>
            obtain ⟨steps₁, token₁, front₁, later₁, hsteps, htoken₁, hfront₁, hlater₁, rfl⟩ :=
              scanTerminal_inv (hne value₁) h₁
            obtain ⟨steps₂, token₂, front₂, later₂, -, htoken₂, hfront₂, hlater₂, rfl⟩ :=
              scanTerminal_inv (hne value₂) h₂
            cases hsteps
            obtain ⟨hnext₁, hout₁⟩ := h value₁
            obtain ⟨hnext₂, hout₂⟩ := h value₂
            rw [hnext₁] at htoken₁
            rw [hnext₂] at htoken₂
            cases htoken₁
            cases htoken₂
            rw [hout₁] at hfront₁
            rw [hout₂, hfront₁] at hfront₂
            cases hfront₂
            have hdrop : ∀ value : UnquotedValue,
                (before ++ said.bytes ++ value.bytes).drop token.next =
                  before.drop token.next ++ said.bytes ++ value.bytes := by
              intro value
              rw [List.append_assoc, List.drop_append_of_le_length hle, List.append_assoc]
            have hprevious : ∀ value : UnquotedValue,
                previousAfter previous (before ++ said.bytes ++ value.bytes) token.next =
                  previousAfter previous (before ++ said.bytes) token.next := by
              intro value
              rw [previousAfter, previousAfter, List.append_assoc,
                List.take_append_of_le_length hle, List.take_append_of_le_length hle]
            rw [hdrop, hprevious] at hlater₁ hlater₂
            have hlonger : ¬(before ++ said.bytes ++ value₁.bytes).length ≤
                (said.bytes ++ value₁.bytes).length := by
              have hpos := List.length_pos_of_ne_nil hbefore
              rw [List.append_assoc, List.length_append]
              omega
            rw [pathRunsPast, if_neg hlonger] at hruns
            simp only [hnext₁, hdrop, hprevious] at hruns
            have hstill := (Bool.or_eq_false_iff.mp hruns).2
            rw [ih (by rw [getLast?_previousAfter previous before said.bytes hle]; exact hlast)
              hstill hlater₁ hlater₂]
        | redacts start hle h => exact hredacts hle h
        | hides h =>
            have hout₁ := scanTerminal_last (hne value₁) (h value₁) rfl h₁
            have hout₂ := scanTerminal_last (hne value₂) (h value₂) rfl h₂
            exact Option.some.inj (hout₁.symm.trans hout₂)
        | runs hquote h =>
            obtain ⟨n, hnext, hn⟩ := h value₁
            have hlonger : ¬(before ++ said.bytes ++ value₁.bytes).length ≤
                (said.bytes ++ value₁.bytes).length := by
              have hpos := List.length_pos_of_ne_nil hbefore
              rw [List.append_assoc, List.length_append]
              omega
            rw [pathRunsPast, if_neg hlonger] at hruns
            simp only [hnext] at hruns
            have hnot := (Bool.or_eq_false_iff.mp hruns).1
            simp only [TerminalToken.next, hquote, decide_true, Bool.true_and,
              decide_eq_false_iff_not, List.length_append] at hnot
            omega

end EnCroissant.Engine

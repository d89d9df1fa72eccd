import EnCroissant.Engine.TerminalText

/-!
# Credentials in the diagnostics of an engine

Two texts that differ only in the unquoted value behind a credential key are shown
alike: the scans of both do the same up to the key, or end earlier.
-/

namespace EnCroissant.Engine

open Utf8 (isBoundary charLen isContinuation)

/-! ## Bytes that neither quote nor escape -/

/-- Neither a quote nor a backslash. -/
def Plain (bytes : List UInt8) : Prop := ∀ b ∈ bytes, b ≠ 39 ∧ b ≠ 34 ∧ b ≠ 92

theorem Plain.of_cons {b : UInt8} {rest : List UInt8} (h : Plain (b :: rest)) : Plain rest :=
  fun c hc ↦ h c (List.mem_cons_of_mem _ hc)

theorem Plain.append {bytes more : List UInt8} (h : Plain bytes) (hmore : Plain more) :
    Plain (bytes ++ more) :=
  fun b hb ↦ (List.mem_append.mp hb).elim (h b) (hmore b)

theorem delimiter_nil : delimiter [] = none := rfl

theorem delimiter_escape (rest : List UInt8) :
    delimiter (92 :: rest) = (delimiter rest).map fun found ↦
      (found.1, found.2.1 + 1, found.2.2 + 1) := by
  rw [delimiter, delimiter, List.takeWhile_cons_of_pos (by decide), List.length_cons,
    List.getElem?_cons_succ]
  cases rest[(rest.takeWhile (· = 92)).length]? with
  | none => rfl
  | some quote =>
      simp only
      split_ifs <;> rfl

theorem delimiter_cons {b : UInt8} (h : b ≠ 92) (rest : List UInt8) :
    delimiter (b :: rest) = if b = 39 || b = 34 then some (b, 0, 1) else none := by
  rw [delimiter, List.takeWhile_cons_of_neg (by simpa using h)]
  rfl

theorem delimiter_of_plain {bytes : List UInt8} (h : Plain bytes) : delimiter bytes = none := by
  cases bytes with
  | nil => rfl
  | cons b rest =>
      obtain ⟨hsingle, hdouble, hescape⟩ := h b List.mem_cons_self
      rw [delimiter_cons hescape, if_neg (by simp [hsingle, hdouble])]

/-- A delimiter does not depend on plain bytes behind it. -/
theorem delimiter_append {more : List UInt8} (h : Plain more) (bytes : List UInt8) :
    delimiter (bytes ++ more) = delimiter bytes := by
  induction bytes with
  | nil => rw [List.nil_append, delimiter_of_plain h, delimiter_nil]
  | cons b rest ih =>
      rw [List.cons_append]
      by_cases hb : b = 92
      · rw [hb, delimiter_escape, delimiter_escape, ih]
      · rw [delimiter_cons hb, delimiter_cons hb]

theorem closingDelimiter_of_plain {quote : UInt8} {depth : ℕ} {bytes : List UInt8} :
    ∀ {skip cursor : ℕ}, Plain bytes → closingDelimiter quote depth skip cursor bytes = none := by
  induction bytes with
  | nil =>
      intro skip cursor _
      cases skip <;> rfl
  | cons b rest ih =>
      intro skip cursor h
      cases skip with
      | succ skip =>
          rw [closingDelimiter]
          exact ih h.of_cons
      | zero =>
          rw [closingDelimiter, delimiter_of_plain h]
          exact ih h.of_cons

theorem closingDelimiter_append {quote : UInt8} {depth : ℕ} {more bytes : List UInt8}
    (h : Plain more) :
    ∀ {skip cursor : ℕ}, closingDelimiter quote depth skip cursor (bytes ++ more) =
      closingDelimiter quote depth skip cursor bytes := by
  induction bytes with
  | nil =>
      intro skip cursor
      rw [List.nil_append, closingDelimiter_of_plain h]
      cases skip <;> rfl
  | cons b rest ih =>
      intro skip cursor
      cases skip with
      | succ skip =>
          rw [List.cons_append, closingDelimiter, closingDelimiter]
          exact ih
      | zero =>
          rw [List.cons_append, closingDelimiter, closingDelimiter, ← List.cons_append,
            delimiter_append h]
          cases delimiter (b :: rest) with
          | none => exact ih
          | some found =>
              simp only
              split_ifs
              · rfl
              · exact ih

/-- A token in a longer text, whose end an unclosed one reaches. -/
def TerminalQuotedToken.lengthen (token : TerminalQuotedToken) (n : ℕ) : TerminalQuotedToken :=
  if token.close = none then { token with stop := token.stop + n } else token

@[simp] theorem lengthen_quote (token : TerminalQuotedToken) (n : ℕ) :
    (token.lengthen n).quote = token.quote := by
  rw [TerminalQuotedToken.lengthen]
  split_ifs <;> rfl

@[simp] theorem lengthen_start (token : TerminalQuotedToken) (n : ℕ) :
    (token.lengthen n).start = token.start := by
  rw [TerminalQuotedToken.lengthen]
  split_ifs <;> rfl

@[simp] theorem lengthen_close (token : TerminalQuotedToken) (n : ℕ) :
    (token.lengthen n).close = token.close := by
  rw [TerminalQuotedToken.lengthen]
  split_ifs <;> rfl

theorem lengthen_of_close {token : TerminalQuotedToken} {close : ℕ}
    (h : token.close = some close) (n : ℕ) : token.lengthen n = token := by
  rw [TerminalQuotedToken.lengthen, if_neg (by rw [h]; exact Option.some_ne_none close)]

/-- The quoted tokens of a text are those of its part before plain bytes. -/
theorem terminalQuotedToken_append {more : List UInt8} (h : Plain more) {text : List UInt8}
    {index : ℕ} (hindex : index ≤ text.length) :
    terminalQuotedToken (text ++ more) index =
      (terminalQuotedToken text index).map (·.lengthen more.length) := by
  rw [terminalQuotedToken, terminalQuotedToken, List.drop_append_of_le_length hindex,
    delimiter_append h]
  cases hdelimiter : delimiter (text.drop index) with
  | none => rfl
  | some found =>
      obtain ⟨quote, depth, length⟩ := found
      obtain ⟨rfl, hopen⟩ := isDelimiter_of_delimiter hdelimiter
      have hlast := (List.getElem?_eq_some_iff.mp hopen.quoteAt).1
      rw [List.length_drop] at hlast
      have hstart : index + (depth + 1) ≤ text.length := by omega
      simp only
      rw [List.drop_append_of_le_length hstart, closingDelimiter_append h]
      cases closingDelimiter quote depth 0 (index + (depth + 1))
          (text.drop (index + (depth + 1))) with
      | none => simp [TerminalQuotedToken.lengthen]
      | some found => rfl

theorem terminalQuotedToken_of_plain {text : List UInt8} {index : ℕ}
    (h : Plain (text.drop index)) : terminalQuotedToken text index = none := by
  rw [terminalQuotedToken, delimiter_of_plain h]

/-- A closed token ends inside the text. -/
theorem stop_le_of_close {text : List UInt8} {index : ℕ} {token : TerminalQuotedToken}
    (h : terminalQuotedToken text index = some token) :
    token.start ≤ text.length ∧ (∀ close, token.close = some close →
      token.start ≤ close ∧ close ≤ token.stop ∧ token.stop ≤ text.length) ∧
        (token.close = none → token.stop = text.length) := by
  rw [terminalQuotedToken] at h
  cases hdelimiter : delimiter (text.drop index) with
  | none =>
      rw [hdelimiter] at h
      cases h
  | some found =>
      obtain ⟨quote, depth, length⟩ := found
      obtain ⟨rfl, hopen⟩ := isDelimiter_of_delimiter hdelimiter
      have hfirst := (List.getElem?_eq_some_iff.mp hopen.quoteAt).1
      rw [List.length_drop] at hfirst
      rw [hdelimiter] at h
      simp only at h
      cases hclosing : closingDelimiter quote depth 0 (index + (depth + 1))
          (text.drop (index + (depth + 1))) with
      | none =>
          rw [hclosing] at h
          cases h
          exact ⟨by simp only; omega, fun close hclose ↦ (Option.some_ne_none _ hclose.symm).elim,
            fun _ ↦ rfl⟩
      | some found =>
          obtain ⟨close, stop⟩ := found
          rw [hclosing] at h
          cases h
          obtain ⟨i, rfl, rfl, hfound⟩ := closingDelimiter_spec hclosing
          have hlast := (List.getElem?_eq_some_iff.mp hfound.quoteAt).1
          rw [List.drop_drop, List.length_drop] at hlast
          refine ⟨by simp only; omega, fun close hclose ↦ ?_,
            fun hnone ↦ (Option.some_ne_none _ hnone).elim⟩
          cases hclose
          simp only
          omega

/-! ## An announced value -/

/-- A value without quotes, whose blanks at the front count as its separator's. -/
structure UnquotedValue where
  bytes : List UInt8
  plain : Plain bytes
  first : ∀ b, bytes.head? = some b → isContinuation b = false ∧ isAsciiWhitespace b = false

/-- A key of a credential and the separator behind it. -/
structure Announcement where
  key : List UInt8
  before : List UInt8
  separator : UInt8
  after : List UInt8
  key_ne : key ≠ []
  isKey : ∀ b ∈ key, isKeyByte b = true
  secret : isSecretKey (key.map toAsciiLower) = true
  before_blank : ∀ b ∈ before, b = 32
  isSeparator : separator = 61 ∨ separator = 58
  after_blank : ∀ b ∈ after, b = 32

def Announcement.bytes (said : Announcement) : List UInt8 :=
  said.key ++ (said.before ++ said.separator :: said.after)

theorem plain_of_isKeyByte {b : UInt8} (h : isKeyByte b = true) : b ≠ 39 ∧ b ≠ 34 ∧ b ≠ 92 := by
  refine ⟨?_, ?_, ?_⟩ <;> rintro rfl <;> exact absurd h (by decide)

theorem Announcement.plain (said : Announcement) : Plain said.bytes := by
  intro b hb
  have hblank : ∀ {c : UInt8}, c = 32 → c ≠ 39 ∧ c ≠ 34 ∧ c ≠ 92 := by
    rintro _ rfl
    decide
  rcases List.mem_append.mp hb with hkey | hb
  · exact plain_of_isKeyByte (said.isKey b hkey)
  · rcases List.mem_append.mp hb with hbefore | hb
    · exact hblank (said.before_blank b hbefore)
    · rcases List.mem_cons.mp hb with rfl | hafter
      · rcases said.isSeparator with h | h <;> rw [h] <;> decide
      · exact hblank (said.after_blank b hafter)

theorem Announcement.separator_getElem? (said : Announcement) (before : List UInt8) :
    (before ++ said.bytes)[before.length + said.key.length + said.before.length]? =
      some said.separator := by
  rw [Announcement.bytes, List.getElem?_append_right (by omega),
    List.getElem?_append_right (by omega), List.getElem?_append_right (by omega),
    show before.length + said.key.length + said.before.length - before.length -
      said.key.length - said.before.length = 0 by omega]
  rfl

theorem Announcement.separator_lt (said : Announcement) (before : List UInt8) :
    before.length + said.key.length + said.before.length < (before ++ said.bytes).length :=
  (List.getElem?_eq_some_iff.mp (said.separator_getElem? before)).1

theorem Announcement.separator_tests (said : Announcement) :
    isKeyByte said.separator = false ∧ isAsciiWhitespace said.separator = false := by
  rcases said.isSeparator with h | h <;> rw [h] <;> decide

/-! ### What is read of a text before the value -/

section Value

variable (value : UnquotedValue) {text : List UInt8}

theorem isBoundary_append {n : ℕ} (h : n ≤ text.length) :
    isBoundary (text ++ value.bytes) n = isBoundary text n := by
  rcases h.lt_or_eq with hlt | rfl
  · rw [isBoundary, isBoundary, List.getElem?_append_left hlt, List.getElem?_eq_getElem hlt]
  · cases hbytes : value.bytes with
    | nil => rw [List.append_nil]
    | cons b later =>
        have hfirst := (value.first b (by rw [hbytes]; rfl)).1
        rw [Utf8.isBoundary_length, isBoundary, List.getElem?_append_right le_rfl, Nat.sub_self]
        simp [hfirst]

theorem slice_append {start stop : ℕ} (h : stop ≤ text.length) :
    slice (text ++ value.bytes) start stop = slice text start stop := by
  have hlength : stop ≤ (text ++ value.bytes).length := by
    rw [List.length_append]
    omega
  by_cases hle : start ≤ stop
  · simp only [slice, hle, h, hlength, isBoundary_append value h,
      isBoundary_append value (hle.trans h), List.take_append_of_le_length h]
  · simp [slice, hle]

theorem skipBlanks_append {index : ℕ} (h : index ≤ text.length) :
    skipWhile isAsciiWhitespace (text ++ value.bytes) index =
      skipWhile isAsciiWhitespace text index := by
  have hvalue : value.bytes.takeWhile isAsciiWhitespace = [] := by
    cases hbytes : value.bytes with
    | nil => rfl
    | cons b later =>
        have hfirst := (value.first b (by rw [hbytes]; rfl)).2
        rw [List.takeWhile_cons_of_neg (by rw [hfirst]; decide)]
  rw [skipWhile, skipWhile, List.drop_append_of_le_length h, List.takeWhile_append, hvalue,
    List.append_nil]
  split_ifs with hall
  · rw [hall]
  · rfl

/-- A run does not pass over a byte that fails its test. -/
theorem skipWhile_le_of_getElem? {test : UInt8 → Bool} {index n : ℕ} {b : UInt8}
    (h : index ≤ n) (hb : text[n]? = some b) (hstop : test b = false) :
    skipWhile test text index ≤ n := by
  by_contra hlt
  rw [skipWhile] at hlt
  obtain ⟨b', hb', hholds⟩ := getElem?_of_takeWhile_length
    (show n - index < ((text.drop index).takeWhile test).length by omega)
  rw [List.getElem?_drop, Nat.add_sub_cancel' h, hb] at hb'
  cases hb'
  rw [hstop] at hholds
  cases hholds

/-- A run that stops in a text stops there in a longer one. -/
theorem skipWhile_append_of_stop {test : UInt8 → Bool} {index n : ℕ} {b : UInt8}
    (more : List UInt8) (h : index ≤ n) (hb : text[n]? = some b) (hstop : test b = false) :
    skipWhile test (text ++ more) index = skipWhile test text index := by
  have hn := (List.getElem?_eq_some_iff.mp hb).1
  have hle := skipWhile_le_of_getElem? h hb hstop
  rw [skipWhile] at hle
  rw [skipWhile, skipWhile, List.drop_append_of_le_length (by omega), List.takeWhile_append,
    if_neg (by rw [List.length_drop]; omega)]

theorem secretStart_append {keyEnd index n : ℕ} {bearer : Bool} {b : UInt8} (h : index ≤ n)
    (hb : text[n]? = some b) (hstop : isAsciiWhitespace b = false) :
    secretStart (text ++ value.bytes) keyEnd index bearer =
      secretStart text keyEnd index bearer := by
  have hn := (List.getElem?_eq_some_iff.mp hb).1
  have hle := skipWhile_le_of_getElem? h hb hstop
  rw [secretStart, secretStart, skipWhile_append_of_stop _ h hb hstop,
    List.getElem?_append_left (by omega), skipBlanks_append value (by omega)]

theorem secretStart_le {keyEnd index n place : ℕ} {bearer : Bool} {b : UInt8} (h : index ≤ n)
    (hb : text[n]? = some b) (hstop : isAsciiWhitespace b = false)
    (hplace : secretStart text keyEnd index bearer = some place) : place ≤ text.length := by
  have hn := (List.getElem?_eq_some_iff.mp hb).1
  have hle := skipWhile_le_of_getElem? h hb hstop
  rw [secretStart] at hplace
  split_ifs at hplace
  · cases hplace
    omega
  · split at hplace
    · split_ifs at hplace
      cases hplace
      exact skipWhile_le (by omega)
    · cases hplace

end Value

/-! ### A credential found before the value -/

/-- Where the value of a credential at the front begins. -/
def secretPlace (text : List UInt8) (quoted : Option TerminalQuotedToken) :
    Option (Option ℕ) :=
  match secretKey text quoted with
  | none => some none
  | some (keyStart, keyEnd, index) =>
      match slice text keyStart keyEnd with
      | none => none
      | some key =>
          let key := key.map toAsciiLower
          let bearer := key = bytesOf "bearer"
          if !key.all isKeyByte then some none
          else if !bearer && !isSecretKey key then some none
          else some (secretStart text keyEnd index bearer)

theorem terminalSecret_eq (text : List UInt8) (quoted : Option TerminalQuotedToken) :
    terminalSecret text quoted = (secretPlace text quoted).map (·.map (secretValue text)) := by
  rw [terminalSecret, secretPlace]
  cases secretKey text quoted with
  | none => rfl
  | some ends =>
      simp only
      cases slice text ends.1 ends.2.1 with
      | none => rfl
      | some key =>
          simp only
          split_ifs <;> rfl

section Announced

variable (said : Announcement) (value : UnquotedValue) (before : List UInt8)

/-- The quoted tokens of a text are those before its last credential. -/
theorem terminalQuotedToken_announced {index : ℕ} (h : index ≤ before.length)
    {more : List UInt8} (hmore : Plain more) :
    terminalQuotedToken (before ++ said.bytes ++ more) index =
      (terminalQuotedToken before index).map (·.lengthen (said.bytes ++ more).length) := by
  rw [List.append_assoc, terminalQuotedToken_append (said.plain.append hmore) h]

/-- The key read at the front of a text lies before its last separator. -/
theorem secretKey_announced :
    secretKey (before ++ said.bytes ++ value.bytes)
        (terminalQuotedToken (before ++ said.bytes ++ value.bytes) 0) =
      secretKey (before ++ said.bytes) (terminalQuotedToken (before ++ said.bytes) 0) := by
  have hshort := terminalQuotedToken_announced said before (Nat.zero_le _)
    (show Plain [] from fun _ hb ↦ (List.not_mem_nil hb).elim)
  rw [List.append_nil, List.append_nil] at hshort
  rw [hshort, terminalQuotedToken_announced said before (Nat.zero_le _) value.plain]
  cases terminalQuotedToken before 0 with
  | none =>
      have hrun := skipWhile_append_of_stop value.bytes (Nat.zero_le _)
        (said.separator_getElem? before) said.separator_tests.1
      simp only [Option.map_none, secretKey, hrun]
  | some token =>
      simp only [Option.map_some, secretKey, lengthen_start, lengthen_close]
      cases hclose : token.close with
      | none => rfl
      | some close => rw [lengthen_of_close hclose, lengthen_of_close hclose]

theorem secretKey_le {keyStart keyEnd index : ℕ}
    (h : secretKey (before ++ said.bytes) (terminalQuotedToken (before ++ said.bytes) 0) =
      some (keyStart, keyEnd, index)) :
    keyEnd ≤ index ∧ index ≤ before.length + said.key.length + said.before.length := by
  cases hquoted : terminalQuotedToken (before ++ said.bytes) 0 with
  | none =>
      rw [hquoted] at h
      cases h
      exact ⟨le_rfl, skipWhile_le_of_getElem? (Nat.zero_le _) (said.separator_getElem? before)
        said.separator_tests.1⟩
  | some token =>
      have hshort := terminalQuotedToken_append said.plain (Nat.zero_le before.length)
      rw [hquoted] at h hshort
      obtain ⟨short, htoken, hlengthened⟩ := Option.map_eq_some_iff.mp hshort.symm
      obtain ⟨close, hclose, hends⟩ := Option.map_eq_some_iff.mp h
      cases hends
      rw [← hlengthened, lengthen_close] at hclose
      obtain ⟨-, hstop, hle⟩ := (stop_le_of_close htoken).2.1 _ hclose
      rw [← hlengthened, lengthen_of_close hclose]
      omega

theorem secretPlace_announced :
    secretPlace (before ++ said.bytes ++ value.bytes)
        (terminalQuotedToken (before ++ said.bytes ++ value.bytes) 0) =
      secretPlace (before ++ said.bytes) (terminalQuotedToken (before ++ said.bytes) 0) := by
  rw [secretPlace, secretPlace, secretKey_announced]
  cases hkey : secretKey (before ++ said.bytes)
      (terminalQuotedToken (before ++ said.bytes) 0) with
  | none => rfl
  | some ends =>
      obtain ⟨keyStart, keyEnd, index⟩ := ends
      obtain ⟨hend, hindex⟩ := secretKey_le said before hkey
      have hlt := said.separator_lt before
      simp only
      rw [slice_append value (by omega)]
      cases slice (before ++ said.bytes) keyStart keyEnd with
      | none => rfl
      | some key =>
          simp only [secretStart_append value hindex (said.separator_getElem? before)
            said.separator_tests.2]

theorem secretPlace_le {place : ℕ}
    (h : secretPlace (before ++ said.bytes) (terminalQuotedToken (before ++ said.bytes) 0) =
      some (some place)) : place ≤ (before ++ said.bytes).length := by
  rw [secretPlace] at h
  cases hkey : secretKey (before ++ said.bytes)
      (terminalQuotedToken (before ++ said.bytes) 0) with
  | none =>
      rw [hkey] at h
      cases h
  | some ends =>
      obtain ⟨keyStart, keyEnd, index⟩ := ends
      obtain ⟨-, hindex⟩ := secretKey_le said before hkey
      rw [hkey] at h
      simp only at h
      split at h
      · cases h
      · split_ifs at h
        · cases h
        · cases h
        · apply secretStart_le hindex (said.separator_getElem? before) said.separator_tests.2
          exact Option.some.inj h

/-- The value of a credential found before the last one is either quoted there or the rest of
the text. -/
theorem secretValue_announced {place : ℕ} (h : place ≤ (before ++ said.bytes).length) :
    (∃ secret, secret.1 ≤ secret.2.1 ∧ secret.2.1 ≤ secret.2.2 ∧
        secret.2.2 ≤ before.length ∧ ∀ value : UnquotedValue,
          secretValue (before ++ said.bytes ++ value.bytes) place = secret) ∨
      ∃ start ≤ (before ++ said.bytes).length, ∀ value : UnquotedValue,
        secretValue (before ++ said.bytes ++ value.bytes) place =
          (start, (before ++ said.bytes ++ value.bytes).length,
            (before ++ said.bytes ++ value.bytes).length) := by
  rcases le_or_gt place before.length with hplace | hplace
  · cases htoken : terminalQuotedToken before place with
    | none =>
        refine .inr ⟨place, h, fun value ↦ ?_⟩
        rw [secretValue, terminalQuotedToken_announced said before hplace value.plain, htoken]
        rfl
    | some token =>
        obtain ⟨hstart, hclosed, hunclosed⟩ := stop_le_of_close htoken
        cases hclose : token.close with
        | none =>
            refine .inr ⟨token.start, by rw [List.length_append]; omega, fun value ↦ ?_⟩
            rw [secretValue, terminalQuotedToken_announced said before hplace value.plain, htoken]
            simp only [Option.map_some, TerminalQuotedToken.lengthen, hclose, if_true,
              Option.getD_none, hunclosed hclose, List.append_assoc, List.length_append]
        | some close =>
            obtain ⟨hle, hlast, hstop⟩ := hclosed close hclose
            refine .inl ⟨(token.start, close, token.stop), hle, hlast, hstop, fun value ↦ ?_⟩
            rw [secretValue, terminalQuotedToken_announced said before hplace value.plain, htoken]
            simp only [Option.map_some, lengthen_of_close hclose, hclose, Option.getD_some]
  · refine .inr ⟨place, h, fun value ↦ ?_⟩
    have hplain : Plain ((before ++ said.bytes ++ value.bytes).drop place) := by
      intro b hb
      rw [List.append_assoc, List.drop_append, List.drop_of_length_le hplace.le,
        List.nil_append] at hb
      exact (said.plain.append value.plain) b (List.mem_of_mem_drop hb)
    rw [secretValue, terminalQuotedToken_of_plain hplain]

end Announced

/-! ### At the key itself -/

theorem isKeyByte_toAsciiLower {b : UInt8} (h : isKeyByte b = true) :
    isKeyByte (toAsciiLower b) = true := by
  rw [toAsciiLower]
  split_ifs with hupper
  · rw [Bool.and_eq_true, decide_eq_true_eq, decide_eq_true_eq, UInt8.le_iff_toNat_le,
      UInt8.le_iff_toNat_le] at hupper
    simp only [UInt8.reduceToNat] at hupper
    have hlower : (b + 32).toNat = b.toNat + 32 := by
      rw [UInt8.toNat_add]
      simp only [UInt8.reduceToNat]
      omega
    have hletter : 97 ≤ b + 32 ∧ b + 32 ≤ 122 := by
      rw [UInt8.le_iff_toNat_le, UInt8.le_iff_toNat_le, hlower]
      simp only [UInt8.reduceToNat]
      omega
    simp [isKeyByte, isAsciiAlphanumeric, hletter]
  · exact h

theorem Announcement.skipWhile_key (said : Announcement) :
    skipWhile isKeyByte said.bytes 0 = said.key.length := by
  have hrest : (said.before ++ said.separator :: said.after).takeWhile isKeyByte = [] := by
    cases hbefore : said.before with
    | nil => rw [List.nil_append, List.takeWhile_cons_of_neg (by rw [said.separator_tests.1]; decide)]
    | cons b blanks =>
        have hb : b = 32 := said.before_blank b (by rw [hbefore]; exact List.mem_cons_self)
        rw [hb, List.cons_append, List.takeWhile_cons_of_neg (by decide)]
  rw [skipWhile, List.drop_zero, Announcement.bytes, List.takeWhile_append_of_pos said.isKey, hrest,
    List.append_nil, Nat.zero_add]

theorem Announcement.skipWhile_before (said : Announcement) :
    skipWhile isAsciiWhitespace said.bytes said.key.length =
      said.key.length + said.before.length := by
  have hblank : ∀ b ∈ said.before, isAsciiWhitespace b = true := by
    intro b hb
    rw [said.before_blank b hb]
    decide
  rw [skipWhile, Announcement.bytes, List.drop_left, List.takeWhile_append_of_pos hblank,
    List.takeWhile_cons_of_neg (by rw [said.separator_tests.2]; decide), List.append_nil]

/-- At its key a credential is found. -/
theorem Announcement.secretPlace_eq (said : Announcement) :
    ∃ place, secretPlace said.bytes (terminalQuotedToken said.bytes 0) = some (some place) := by
  obtain ⟨b, later, hkey⟩ := List.exists_cons_of_ne_nil said.key_ne
  have hb : isKeyByte b = true := said.isKey b (by rw [hkey]; exact List.mem_cons_self)
  have hfirst : Cut said.bytes 0 :=
    cut_of_ascii (by rw [Announcement.bytes, hkey]; rfl) (ascii_of_isKeyByte b hb)
  have hlast : Cut said.bytes said.key.length := by
    have hnext : said.bytes[said.key.length]? =
        (said.before ++ said.separator :: said.after)[0]? := by
      rw [Announcement.bytes, List.getElem?_append_right le_rfl, Nat.sub_self]
    cases hbefore : said.before with
    | nil =>
        rw [hbefore] at hnext
        apply cut_of_ascii hnext
        rcases said.isSeparator with h | h <;> rw [h] <;> decide
    | cons c blanks =>
        rw [hbefore] at hnext
        apply cut_of_ascii hnext
        rw [said.before_blank c (by rw [hbefore]; exact List.mem_cons_self)]
        decide
  have hslice : slice said.bytes 0 said.key.length = some said.key := by
    rw [slice_eq_some (Nat.zero_le _) hfirst hlast, List.drop_zero, Announcement.bytes,
      List.take_left]
  have hall : (said.key.map toAsciiLower).all isKeyByte = true := by
    rw [List.all_map, List.all_eq_true]
    exact fun c hc ↦ isKeyByte_toAsciiLower (said.isKey c hc)
  have hbearer : ¬said.key.map toAsciiLower = bytesOf "bearer" := by
    intro h
    have hsecret := said.secret
    rw [h] at hsecret
    exact absurd hsecret (by decide)
  have hseparator := said.separator_getElem? []
  rw [List.length_nil, Nat.zero_add, List.nil_append] at hseparator
  have hsaid : (said.separator = 61 || said.separator = 58) = true := by
    rw [Bool.or_eq_true, decide_eq_true_eq, decide_eq_true_eq]
    exact said.isSeparator
  rw [secretPlace, terminalQuotedToken_of_plain (show Plain (said.bytes.drop 0) from said.plain)]
  simp only [secretKey, said.skipWhile_key, hslice, hall, hbearer, said.secret, secretStart,
    said.skipWhile_before, hseparator, hsaid, Bool.not_true, Bool.and_false, Bool.false_eq_true,
    decide_false, if_false, if_true]
  exact ⟨_, rfl⟩

end EnCroissant.Engine

import EnCroissant.Engine.TerminalSecrecy

/-!
# A credential at the end of a diagnostic

What an engine shows of a text that ends in an announced value does not depend on the
value.  The keys, the separators and the values are those of texts; the scanner sees
their bytes.
-/

namespace EnCroissant.Engine

open Utf8 (isBoundary isContinuation)

/-! ## Keys, separators and values -/

def credentialNames : List String :=
  ["token", "secret", "password", "passwd", "apikey", "api_key", "api-key"]

def isKeyChar (c : Char) : Bool := c.isAlphanum || c = '_' || c = '-'

/-- A name behind letters, digits and the two other characters of a key, or `authorization`. -/
def isCredentialKey (key : List Char) : Bool :=
  key.all isKeyChar &&
    (key.map Char.toLower = "authorization".toList ||
      credentialNames.any (·.toList.isSuffixOf (key.map Char.toLower)))

/-- A separator with optional spaces. -/
def separatorText (before after : ℕ) (separator : Char) : List Char :=
  List.replicate before ' ' ++ separator :: List.replicate after ' '

def isPlainChar (c : Char) : Bool := !(c.toNat = 39 || c.toNat = 34 || c.toNat = 92)

/-- A value that is not empty and has no quote and no backslash. -/
def isPlainValue (value : List Char) : Bool := !value.isEmpty && value.all isPlainChar

def isBlank (c : Char) : Bool := isControl c || isWhitespace c

def leadingBlanks (value : List Char) : ℕ := (value.takeWhile isBlank).length

/-- A key, its separator and a value. -/
def credentialText (key : List Char) (before after : ℕ) (separator : Char)
    (value : List Char) : List Char :=
  key ++ separatorText before after separator ++ value

/-- Whether the scan of a text meets an unquoted path that begins before the credential and runs
into it. -/
def pathRunsInto (before credential : List Char) : Bool :=
  let bytes := Utf8.encode (levelled (before ++ credential))
  pathRunsPast (Utf8.encode (levelled credential)).length bytes.length none bytes

theorem levelled_append (text more : List Char) :
    levelled (text ++ more) = levelled text ++ levelled more :=
  List.map_append

theorem levelled_eq_self {text : List Char} (h : ∀ c ∈ text, c = ' ' ∨ isBlank c = false) :
    levelled text = text := by
  rw [levelled]
  conv_rhs => rw [← List.map_id text]
  refine List.map_congr_left fun c hc ↦ ?_
  rcases h c hc with rfl | hblank
  · rfl
  · rw [isBlank] at hblank
    rw [hblank, if_neg (by decide), id]

theorem mem_of_mem_levelled {text : List Char} {c : Char} (h : c ∈ levelled text) :
    c = ' ' ∨ (c ∈ text ∧ isBlank c = false) := by
  obtain ⟨d, hd, rfl⟩ := List.mem_map.mp h
  cases hblank : isBlank d with
  | true =>
      rw [isBlank] at hblank
      rw [hblank, if_pos rfl]
      exact .inl rfl
  | false =>
      have hsame : (if isControl d || isWhitespace d then ' ' else d) = d := by
        rw [isBlank] at hblank
        rw [hblank, if_neg (by decide)]
      rw [hsame]
      exact .inr ⟨hd, hblank⟩

/-! ### Their bytes -/

theorem ascii_of_isAlphanum {c : Char} (h : c.isAlphanum = true) : c.toNat < 128 := by
  simp only [Char.isAlphanum, Char.isAlpha, Char.isUpper, Char.isLower, Char.isDigit,
    Bool.or_eq_true, Bool.and_eq_true, decide_eq_true_eq, ge_iff_le, UInt32.le_iff_toNat_le] at h
  have hupper : 'Z'.val.toNat = 90 := rfl
  have hlower : 'z'.val.toNat = 122 := rfl
  have hdigit : '9'.val.toNat = 57 := rfl
  rw [Char.toNat]
  omega

theorem ascii_of_isKeyChar {c : Char} (h : isKeyChar c = true) : c.toNat < 128 := by
  rw [isKeyChar, Bool.or_eq_true, Bool.or_eq_true, decide_eq_true_eq, decide_eq_true_eq] at h
  rcases h with (halphanum | rfl) | rfl
  · exact ascii_of_isAlphanum halphanum
  · decide
  · decide

theorem encode_eq_map {text : List Char} (h : ∀ c ∈ text, c.toNat < 128) :
    Utf8.encode text = text.map fun c ↦ UInt8.ofNat c.toNat := by
  induction text with
  | nil => rfl
  | cons c text ih =>
      rw [Utf8.encode_cons, Utf8.encodeChar_of_lt (h c List.mem_cons_self),
        ih fun d hd ↦ h d (List.mem_cons_of_mem _ hd)]
      rfl

/-- A character of a key is a byte of it, also in lower case. -/
theorem isKeyByte_of_isKeyChar {c : Char} (h : isKeyChar c = true) :
    isKeyByte (UInt8.ofNat c.toNat) = true ∧ isBlank c = false ∧
      toAsciiLower (UInt8.ofNat c.toNat) = UInt8.ofNat c.toLower.toNat ∧
        isKeyChar c.toLower = true := by
  have hall : ∀ n : Fin 128, isKeyChar (Char.ofNat n) = true →
      isKeyByte (UInt8.ofNat (Char.ofNat n).toNat) = true ∧ isBlank (Char.ofNat n) = false ∧
        toAsciiLower (UInt8.ofNat (Char.ofNat n).toNat) =
          UInt8.ofNat (Char.ofNat n).toLower.toNat ∧ isKeyChar (Char.ofNat n).toLower = true := by
    decide +kernel
  have hc := hall ⟨c.toNat, ascii_of_isKeyChar h⟩
  simp only [Char.ofNat_toNat] at hc
  exact hc h

/-- The letters and digits of a text are those of its bytes. -/
theorem isAlphanum_of_mem_encodeChar {c : Char} {b : UInt8} (h : b ∈ String.utf8EncodeChar c)
    (hb : isAsciiAlphanumeric b = true) : c.isAlphanum = true := by
  have hascii : b < 128 := by
    apply ascii_of_isKeyByte
    rw [isKeyByte, hb]
    rfl
  have hall : ∀ n : Fin 128, isAsciiAlphanumeric (UInt8.ofNat n) = true →
      (Char.ofNat n).isAlphanum = true := by
    decide +kernel
  have hn := hall ⟨b.toNat, UInt8.lt_iff_toNat_lt.mp hascii⟩
  simp only [UInt8.ofNat_toNat] at hn
  rw [Utf8.eq_of_mem_encodeChar h hascii]
  exact hn hb

theorem isBlank_of_mem_encodeChar {c : Char} {b : UInt8} (h : b ∈ String.utf8EncodeChar c)
    (hb : isAsciiWhitespace b = true) : isBlank c = true := by
  have hascii := ascii_of_isAsciiWhitespace b hb
  have hall : ∀ n : Fin 128, isAsciiWhitespace (UInt8.ofNat n) = true →
      isBlank (Char.ofNat n) = true := by
    decide +kernel
  have hn := hall ⟨b.toNat, UInt8.lt_iff_toNat_lt.mp hascii⟩
  simp only [UInt8.ofNat_toNat] at hn
  rw [Utf8.eq_of_mem_encodeChar h hascii]
  exact hn hb

/-! ### What the scanner sees -/

/-- Levelling keeps a text that ends in no letter or digit one. -/
theorem last_of_levelled {text : List Char} (h : text.getLast?.all (!·.isAlphanum) = true) :
    ((Utf8.encode (levelled text)).getLast?.or none).all (!isAsciiAlphanumeric ·) = true := by
  rw [Option.or_none]
  cases hlast : (Utf8.encode (levelled text)).getLast? with
  | none => rfl
  | some b =>
      rcases List.eq_nil_or_concat text with rfl | ⟨front, c, rfl⟩
      · cases hlast
      · rw [List.concat_eq_append, List.getLast?_append, List.getLast?_singleton] at h
        rw [List.concat_eq_append, levelled_append, Utf8.encode_append, List.getLast?_append] at hlast
        have hchar : b ∈ Utf8.encode (levelled [c]) := by
          cases hend : (Utf8.encode (levelled [c])).getLast? with
          | none =>
              have hempty := List.getLast?_eq_none_iff.mp hend
              have hc : levelled [c] = [] := Utf8.encode_injective hempty
              cases hc
          | some d =>
              rw [hend] at hlast
              cases hlast
              exact List.mem_of_getLast? hend
        obtain ⟨d, hd, hb⟩ := Utf8.exists_mem_of_mem_encode hchar
        rw [Option.all_some, Bool.not_eq_true']
        refine Bool.eq_false_iff.mpr fun halphanum ↦ ?_
        have hletter := isAlphanum_of_mem_encodeChar hb halphanum
        rcases mem_of_mem_levelled hd with rfl | ⟨hmem, -⟩
        · exact absurd hletter (by decide)
        · rw [List.mem_singleton.mp hmem] at hletter
          simp only [Option.some_or, Option.all_some, hletter] at h
          cases h

theorem plain_of_all {text : List Char} (h : text.all isPlainChar = true) :
    Plain (Utf8.encode (levelled text)) := by
  intro b hb
  obtain ⟨c, hc, hbyte⟩ := Utf8.exists_mem_of_mem_encode hb
  have hquote : ∀ n : ℕ, n < 128 → (n = 39 ∨ n = 34 ∨ n = 92) → b ≠ UInt8.ofNat n := by
    rintro n hn hcase rfl
    have hchar := Utf8.eq_of_mem_encodeChar hbyte (by rcases hcase with rfl | rfl | rfl <;> decide)
    rcases mem_of_mem_levelled hc with rfl | ⟨hmem, -⟩
    · rcases hcase with rfl | rfl | rfl <;> exact absurd hchar (by decide)
    · have hnot := List.all_eq_true.mp h c hmem
      rw [hchar] at hnot
      rcases hcase with rfl | rfl | rfl <;> exact absurd hnot (by decide)
  exact ⟨hquote 39 (by decide) (by decide), hquote 34 (by decide) (by decide),
    hquote 92 (by decide) (by decide)⟩

theorem levelled_blanks (value : List Char) :
    levelled value =
      List.replicate (leadingBlanks value) ' ' ++ levelled (value.dropWhile isBlank) := by
  have hblanks : levelled (value.takeWhile isBlank) = List.replicate (leadingBlanks value) ' ' := by
    rw [leadingBlanks, ← List.map_const', levelled]
    refine List.map_congr_left fun c hc ↦ ?_
    have hblank := List.mem_takeWhile_imp hc
    rw [isBlank] at hblank
    rw [hblank, if_pos rfl]
  rw [← hblanks, ← levelled_append, List.takeWhile_append_dropWhile]

/-- A value of a text behind its blanks, for the scanner. -/
theorem exists_unquotedValue {value : List Char} (h : value.all isPlainChar = true) :
    ∃ unquoted : UnquotedValue,
      unquoted.bytes = Utf8.encode (levelled (value.dropWhile isBlank)) := by
  have hplain : Plain (Utf8.encode (levelled (value.dropWhile isBlank))) := by
    apply plain_of_all
    rw [List.all_eq_true] at h ⊢
    exact fun c hc ↦ h c ((List.dropWhile_suffix _).subset hc)
  refine ⟨⟨_, hplain, fun b hb ↦ ?_⟩, rfl⟩
  cases hrest : value.dropWhile isBlank with
  | nil =>
      rw [hrest] at hb
      cases hb
  | cons c later =>
      have hc : isBlank c = false := by
        have hhead := List.head?_dropWhile_not isBlank value
        rw [hrest] at hhead
        exact hhead
      have hsame : levelled (c :: later) = c :: levelled later := by
        have hone : levelled [c] = [c] :=
          levelled_eq_self fun d hd ↦ .inr (List.mem_singleton.mp hd ▸ hc)
        exact (levelled_append [c] later).trans (by rw [hone]; rfl)
      obtain ⟨lead, rest, hchar, hlead, -⟩ := Utf8.encodeChar_shape c
      rw [hrest, hsame, Utf8.encode_cons, hchar, List.cons_append, List.head?_cons] at hb
      cases hb
      refine ⟨hlead, Bool.eq_false_iff.mpr fun hspace ↦ ?_⟩
      have hmem : b ∈ String.utf8EncodeChar c := by
        rw [hchar]
        exact List.mem_cons_self
      rw [isBlank_of_mem_encodeChar hmem hspace] at hc
      cases hc

theorem encode_replicate_space (n : ℕ) :
    Utf8.encode (List.replicate n ' ') = List.replicate n 32 := by
  induction n with
  | zero => rfl
  | succ n ih =>
      rw [List.replicate_succ, Utf8.encode_cons, ih]
      rfl

theorem isSecretKey_of_isCredentialKey {key : List Char} (h : isCredentialKey key = true) :
    isSecretKey ((Utf8.encode key).map toAsciiLower) = true := by
  rw [isCredentialKey, Bool.and_eq_true, Bool.or_eq_true, decide_eq_true_eq] at h
  obtain ⟨hchars, hname⟩ := h
  have hkey : ∀ c ∈ key, isKeyChar c = true := List.all_eq_true.mp hchars
  have hlower : (Utf8.encode key).map toAsciiLower = Utf8.encode (key.map Char.toLower) := by
    rw [encode_eq_map fun c hc ↦ ascii_of_isKeyChar (hkey c hc), encode_eq_map, List.map_map,
      List.map_map]
    · exact List.map_congr_left fun c hc ↦ (isKeyByte_of_isKeyChar (hkey c hc)).2.2.1
    · intro c hc
      obtain ⟨d, hd, rfl⟩ := List.mem_map.mp hc
      exact ascii_of_isKeyChar (isKeyByte_of_isKeyChar (hkey d hd)).2.2.2
  rw [hlower, isSecretKey, Bool.or_eq_true, decide_eq_true_eq]
  rcases hname with hname | hname
  · rw [hname]
    exact .inl rfl
  · obtain ⟨name, hmem, hsuffix⟩ := List.any_eq_true.mp hname
    obtain ⟨front, hfront⟩ := List.isSuffixOf_iff_suffix.mp hsuffix
    refine .inr (List.any_eq_true.mpr ⟨bytesOf name, List.mem_map_of_mem hmem, ?_⟩)
    apply List.isSuffixOf_iff_suffix.mpr
    exact ⟨Utf8.encode front, by rw [bytesOf, ← Utf8.encode_append, hfront]⟩

/-- A key and its separator, for the scanner. -/
theorem exists_announcement {key : List Char} (before after : ℕ) {separator : Char}
    (hkey : isCredentialKey key = true) (hseparator : separator = ':' ∨ separator = '=') :
    ∃ said : Announcement, said.bytes =
      Utf8.encode (levelled (key ++ separatorText before after separator)) := by
  have hsecret := isSecretKey_of_isCredentialKey hkey
  rw [isCredentialKey, Bool.and_eq_true] at hkey
  have hchars : ∀ c ∈ key, isKeyChar c = true := List.all_eq_true.mp hkey.1
  have hspaces : ∀ n, ∀ b ∈ List.replicate n (32 : UInt8), b = 32 :=
    fun n b hb ↦ List.eq_of_mem_replicate hb
  have hlevel : levelled (key ++ separatorText before after separator) =
      key ++ separatorText before after separator := by
    apply levelled_eq_self
    intro c hc
    rcases List.mem_append.mp hc with hc | hc
    · exact .inr (isKeyByte_of_isKeyChar (hchars c hc)).2.1
    · rcases List.mem_append.mp hc with hc | hc
      · exact .inl (List.eq_of_mem_replicate hc)
      · rcases List.mem_cons.mp hc with rfl | hc
        · rcases hseparator with rfl | rfl
          · exact .inr (by decide)
          · exact .inr (by decide)
        · exact .inl (List.eq_of_mem_replicate hc)
  have hbyte : ∃ b : UInt8, String.utf8EncodeChar separator = [b] ∧ (b = 61 ∨ b = 58) := by
    rcases hseparator with rfl | rfl
    · exact ⟨58, by decide, .inr rfl⟩
    · exact ⟨61, by decide, .inl rfl⟩
  obtain ⟨b, hb, hcase⟩ := hbyte
  refine ⟨⟨Utf8.encode key, List.replicate before 32, b, List.replicate after 32, ?_, ?_, hsecret,
    hspaces before, hcase, hspaces after⟩, ?_⟩
  · intro hnil
    rw [hnil] at hsecret
    exact absurd hsecret (by decide)
  · intro c hc
    rw [encode_eq_map fun d hd ↦ ascii_of_isKeyChar (hchars d hd)] at hc
    obtain ⟨d, hd, rfl⟩ := List.mem_map.mp hc
    exact (isKeyByte_of_isKeyChar (hchars d hd)).1
  · rw [hlevel, separatorText, Utf8.encode_append, Utf8.encode_append, Utf8.encode_cons,
      encode_replicate_space, encode_replicate_space, hb, Announcement.bytes]
    rfl

/-- The bytes of a text that ends in a credential. -/
theorem exists_credential {key : List Char} (before after : ℕ) {separator : Char}
    (hkey : isCredentialKey key = true) (hseparator : separator = ':' ∨ separator = '=')
    (blanks : ℕ) :
    ∃ said : Announcement, ∀ value, value.all isPlainChar = true → leadingBlanks value = blanks →
      ∃ unquoted : UnquotedValue,
        Utf8.encode (levelled (credentialText key before after separator value)) =
          said.bytes ++ unquoted.bytes := by
  obtain ⟨said, hsaid⟩ := exists_announcement before (after + blanks) hkey hseparator
  refine ⟨said, fun value hvalue hblanks ↦ ?_⟩
  obtain ⟨unquoted, hunquoted⟩ := exists_unquotedValue hvalue
  have hspaces : levelled (List.replicate blanks ' ') = List.replicate blanks ' ' :=
    levelled_eq_self fun c hc ↦ .inl (List.eq_of_mem_replicate hc)
  have hsplit : levelled (credentialText key before after separator value) =
      levelled (key ++ separatorText before (after + blanks) separator) ++
        levelled (value.dropWhile isBlank) := by
    rw [credentialText, levelled_append, levelled_blanks value, hblanks, ← hspaces,
      ← List.append_assoc, ← levelled_append, List.append_assoc key, separatorText, separatorText,
      List.append_assoc (List.replicate before ' '), List.cons_append, List.replicate_append_replicate]
  exact ⟨unquoted, by rw [hsplit, Utf8.encode_append, hsaid, hunquoted]⟩

/-- A text that ends in an unquoted credential is shown the same for all values with as many
blanks at the front, unless an unquoted path runs into its key; and the scan of every text ends,
with slices only between characters. -/
theorem sanitizeTerminalText_conceals :
    (∀ (p key : List Char) (before after : ℕ) (separator : Char) (v₁ v₂ : List Char),
      p.getLast?.all (!·.isAlphanum) = true → isCredentialKey key = true →
      (separator = ':' ∨ separator = '=') → isPlainValue v₁ = true → isPlainValue v₂ = true →
      leadingBlanks v₁ = leadingBlanks v₂ →
      pathRunsInto p (credentialText key before after separator v₁) = false →
        sanitizeTerminalText (p ++ credentialText key before after separator v₁) =
          sanitizeTerminalText (p ++ credentialText key before after separator v₂)) ∧
    ∀ text, (sanitizeTerminalText text).isSome = true := by
  refine ⟨?_, sanitizeTerminalText_isSome⟩
  intro p key before after separator v₁ v₂ hp hkey hseparator hv₁ hv₂ hblanks hpath
  obtain ⟨written₁, h₁⟩ := Option.isSome_iff_exists.mp
    (sanitizeTerminalText_isSome (p ++ credentialText key before after separator v₁))
  obtain ⟨written₂, h₂⟩ := Option.isSome_iff_exists.mp
    (sanitizeTerminalText_isSome (p ++ credentialText key before after separator v₂))
  rw [isPlainValue, Bool.and_eq_true] at hv₁ hv₂
  obtain ⟨said, hsaid⟩ := exists_credential before after hkey hseparator (leadingBlanks v₂)
  obtain ⟨value₁, hvalue₁⟩ := hsaid v₁ hv₁.2 hblanks
  obtain ⟨value₂, hvalue₂⟩ := hsaid v₂ hv₂.2 rfl
  rw [h₁, h₂]
  simp only [sanitizeTerminalText, pathRunsInto, levelled_append, Utf8.encode_append, hvalue₁,
    hvalue₂, ← List.append_assoc] at h₁ h₂ hpath
  exact congrArg some
    (scanTerminal_alike said value₁ value₂ (last_of_levelled hp) hpath h₁ h₂)

/-- A board before the key, and a value of two words. -/
theorem sanitize_board_conceals :
    isCredentialKey "api-Token".toList = true ∧
      sanitizeTerminalText ("8/8 ".toList ++ credentialText "api-Token".toList 1 1 ':'
          "a b".toList) =
        sanitizeTerminalText ("8/8 ".toList ++ credentialText "api-Token".toList 1 1 ':'
          "/c".toList) :=
  ⟨by decide +kernel, sanitizeTerminalText_conceals.1 _ _ 1 1 ':' _ _ (by decide +kernel)
    (by decide +kernel) (.inl rfl) (by decide +kernel) (by decide +kernel) (by decide +kernel)
    (by decide +kernel)⟩

/-- A path that runs into the key keeps it from being seen, and blanks at the front of a value
are shown. -/
theorem sanitizeTerminalText_shows :
    isCredentialKey "token".toList = true ∧
      (isPlainValue "a b".toList = true ∧ isPlainValue "a c".toList = true ∧
        sanitizeTerminalText ("/".toList ++ credentialText "token".toList 0 0 ':'
            "a b".toList) ≠
          sanitizeTerminalText ("/".toList ++ credentialText "token".toList 0 0 ':'
            "a c".toList)) ∧
      (isPlainValue "a".toList = true ∧ isPlainValue " a".toList = true ∧
        sanitizeTerminalText (credentialText "token".toList 0 0 ':' "a".toList) ≠
          sanitizeTerminalText (credentialText "token".toList 0 0 ':' " a".toList)) := by
  decide +kernel

end EnCroissant.Engine

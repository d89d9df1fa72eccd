import EnCroissant.Library.Utf8

/-!
# Character boundaries

The places of an encoded text at which it may be cut: its end and the places of the
first bytes of characters.  A cut before or after an ASCII byte is one of them.
-/

namespace Utf8

/-- `is_char_boundary`, by the byte that follows. -/
def isBoundary (bs : List UInt8) (n : ℕ) : Bool :=
  match bs[n]? with
  | some b => !isContinuation b
  | none => n = bs.length

/-- The number of bytes of the first character. -/
def charLen : List UInt8 → ℕ
  | [] => 0
  | _ :: rest => 1 + (rest.takeWhile isContinuation).length

theorem isContinuation_of_ascii {b : UInt8} (h : b < 128) : isContinuation b = false := by
  rw [isContinuation, Bool.and_eq_false_iff, decide_eq_false_iff_not]
  exact .inl (UInt8.not_le.mpr h)

/-- The bytes of a character: a first one, and continuations where it is not ASCII. -/
theorem encodeChar_shape (c : Char) :
    ∃ lead rest, String.utf8EncodeChar c = lead :: rest ∧ isContinuation lead = false ∧
      (∀ b ∈ rest, isContinuation b = true) ∧ (lead < 128 → rest = []) := by
  have hc : c.val.toNat < 0x110000 := by
    have hvalid := c.valid
    rcases hvalid with h | ⟨-, h⟩
    · exact h.trans (by decide)
    · exact h
  have hcontinuation : ∀ n, isContinuation (UInt8.ofNat (n % 0x40 + 0x80)) = true := by
    intro n
    have hn : n % 0x40 < 0x40 := Nat.mod_lt _ (by decide)
    rw [isContinuation, Bool.and_eq_true, decide_eq_true_eq, decide_eq_true_eq,
      UInt8.le_iff_toNat_le, UInt8.le_iff_toNat_le, UInt8.toNat_ofNat']
    constructor <;> simp <;> omega
  have hlead : ∀ n, 0xC0 ≤ n → n < 0x100 →
      isContinuation (UInt8.ofNat n) = false ∧ ¬UInt8.ofNat n < 128 := by
    intro n hlow hhigh
    have hn : (UInt8.ofNat n).toNat = n := by
      rw [UInt8.toNat_ofNat', Nat.mod_eq_of_lt hhigh]
    rw [isContinuation, Bool.and_eq_false_iff, decide_eq_false_iff_not, decide_eq_false_iff_not,
      UInt8.le_iff_toNat_le, UInt8.le_iff_toNat_le, UInt8.lt_iff_toNat_lt, hn]
    simp
    omega
  rw [String.utf8EncodeChar]
  split_ifs with h1 h2 h3
  · have hascii : UInt8.ofNat c.val.toNat < 128 := by
      rw [UInt8.lt_iff_toNat_lt, UInt8.toNat_ofNat', Nat.mod_eq_of_lt (by omega)]
      exact Nat.lt_succ_of_le h1
    exact ⟨_, [], rfl, isContinuation_of_ascii hascii, fun b hb ↦ (List.not_mem_nil hb).elim,
      fun _ ↦ rfl⟩
  · have hfirst := hlead (c.val.toNat / 64 % 0x20 + 0xc0) (by omega) (by omega)
    refine ⟨_, _, rfl, hfirst.1, fun b hb ↦ ?_, fun h ↦ absurd h hfirst.2⟩
    cases List.mem_singleton.mp hb
    exact hcontinuation _
  · have hfirst := hlead (c.val.toNat / 4096 % 0x10 + 0xe0) (by omega) (by omega)
    refine ⟨_, _, rfl, hfirst.1, fun b hb ↦ ?_, fun h ↦ absurd h hfirst.2⟩
    simp only [List.mem_cons, List.not_mem_nil, or_false] at hb
    rcases hb with rfl | rfl <;> exact hcontinuation _
  · have hfirst := hlead (c.val.toNat / 262144 % 0x08 + 0xf0) (by omega) (by omega)
    refine ⟨_, _, rfl, hfirst.1, fun b hb ↦ ?_, fun h ↦ absurd h hfirst.2⟩
    simp only [List.mem_cons, List.not_mem_nil, or_false] at hb
    rcases hb with rfl | rfl | rfl <;> exact hcontinuation _

theorem encodeChar_of_lt {c : Char} (h : c.toNat < 128) :
    String.utf8EncodeChar c = [UInt8.ofNat c.toNat] := by
  have hval : c.val.toNat ≤ 0x7f := Nat.le_of_lt_succ h
  rw [String.utf8EncodeChar, if_pos hval]
  rfl

/-- An ASCII byte of a text is a character of its own. -/
theorem eq_of_mem_encodeChar {c : Char} {b : UInt8} (h : b ∈ String.utf8EncodeChar c)
    (hb : b < 128) : c = Char.ofNat b.toNat := by
  obtain ⟨lead, rest, hchar, -, hrest, hascii⟩ := encodeChar_shape c
  have hlead : b = lead := by
    rw [hchar] at h
    rcases List.mem_cons.mp h with hlead | hmem
    · exact hlead
    · have hcontinuation := hrest b hmem
      rw [isContinuation_of_ascii hb] at hcontinuation
      cases hcontinuation
  subst hlead
  have hsingle : String.utf8EncodeChar c = String.utf8EncodeChar (Char.ofNat b.toNat) := by
    rw [hchar, hascii hb, encodeChar_ascii hb]
  apply List.singleton_injective
  apply encode_injective
  rw [encode, encode, List.flatMap_singleton, List.flatMap_singleton, hsingle]

theorem exists_mem_of_mem_encode {cs : List Char} {b : UInt8} (h : b ∈ encode cs) :
    ∃ c ∈ cs, b ∈ String.utf8EncodeChar c :=
  List.mem_flatMap.mp h

theorem isBoundary_length (bs : List UInt8) : isBoundary bs bs.length = true := by
  simp [isBoundary]

theorem isBoundary_of_ascii {bs : List UInt8} {n : ℕ} {b : UInt8} (h : bs[n]? = some b)
    (hb : b < 128) : isBoundary bs n = true := by
  simp [isBoundary, h, isContinuation_of_ascii hb]

/-- A text may be cut between two of its characters. -/
theorem isBoundary_encode_append (before after : List Char) :
    isBoundary (encode before ++ encode after) (encode before).length = true := by
  cases after with
  | nil => rw [encode_nil, List.append_nil, isBoundary_length]
  | cons c after =>
      obtain ⟨lead, rest, hchar, hlead, -⟩ := encodeChar_shape c
      simp [isBoundary, hchar, hlead]

/-- It may be cut nowhere else. -/
theorem exists_split_of_isBoundary {cs : List Char} :
    ∀ {n : ℕ}, isBoundary (encode cs) n = true →
      ∃ before after, cs = before ++ after ∧ (encode before).length = n := by
  induction cs with
  | nil =>
      intro n h
      have hn : n = 0 := of_decide_eq_true h
      exact ⟨[], [], rfl, hn.symm⟩
  | cons c cs ih =>
      intro n h
      obtain ⟨lead, rest, hchar, -, hrest, -⟩ := encodeChar_shape c
      rcases Nat.eq_zero_or_pos n with rfl | hpos
      · exact ⟨[], c :: cs, rfl, rfl⟩
      · rcases Nat.lt_or_ge n (String.utf8EncodeChar c).length with hn | hn
        · have hbyte : (encode (c :: cs))[n]? = (lead :: rest)[n]? := by
            rw [encode_cons, List.getElem?_append_left hn, hchar]
          obtain ⟨m, rfl⟩ := Nat.exists_eq_succ_of_ne_zero hpos.ne'
          rw [hchar, List.length_cons] at hn
          have hm : m < rest.length := Nat.lt_of_succ_lt_succ hn
          rw [isBoundary, hbyte, List.getElem?_cons_succ, List.getElem?_eq_getElem hm] at h
          simp only [hrest _ (List.getElem_mem hm), Bool.not_true] at h
          cases h
        · have hlater : isBoundary (encode cs) (n - (String.utf8EncodeChar c).length) = true := by
            rw [isBoundary, encode_cons, List.getElem?_append_right hn, List.length_append] at h
            rw [isBoundary]
            cases hbyte : (encode cs)[n - (String.utf8EncodeChar c).length]? with
            | some b =>
                rw [hbyte] at h
                exact h
            | none =>
                rw [hbyte] at h
                simp only [decide_eq_true_eq] at h ⊢
                omega
          obtain ⟨before, after, rfl, hlength⟩ := ih hlater
          refine ⟨c :: before, after, rfl, ?_⟩
          rw [encode_cons, List.length_append, hlength]
          omega

/-- A text may be cut after an ASCII byte. -/
theorem isBoundary_succ_of_ascii {cs : List Char} {n : ℕ} {b : UInt8}
    (h : (encode cs)[n]? = some b) (hb : b < 128) : isBoundary (encode cs) (n + 1) = true := by
  obtain ⟨before, after, rfl, rfl⟩ := exists_split_of_isBoundary (isBoundary_of_ascii h hb)
  rw [encode_append, List.getElem?_append_right le_rfl, Nat.sub_self] at h
  cases after with
  | nil => cases h
  | cons c after =>
      obtain ⟨lead, rest, hchar, -, -, hascii⟩ := encodeChar_shape c
      rw [encode_cons, hchar, List.cons_append, List.getElem?_cons_zero] at h
      cases h
      have hlength : (encode (before ++ [c])).length = (encode before).length + 1 := by
        simp [hchar, hascii hb]
      rw [← hlength, ← List.singleton_append, ← List.append_assoc, encode_append]
      exact isBoundary_encode_append _ _

theorem isBoundary_zero (cs : List Char) : isBoundary (encode cs) 0 = true :=
  isBoundary_encode_append [] cs

/-- What is left behind a cut is a text again. -/
theorem exists_encode_drop {cs : List Char} {n : ℕ} (h : isBoundary (encode cs) n = true) :
    ∃ after, (encode cs).drop n = encode after := by
  obtain ⟨before, after, rfl, rfl⟩ := exists_split_of_isBoundary h
  exact ⟨after, by rw [encode_append, List.drop_left]⟩

theorem charLen_encode (c : Char) (cs : List Char) :
    charLen (encode (c :: cs)) = (String.utf8EncodeChar c).length := by
  obtain ⟨lead, rest, hchar, -, hrest, -⟩ := encodeChar_shape c
  have hstop : (encode cs).takeWhile isContinuation = [] := by
    cases cs with
    | nil => rfl
    | cons d cs =>
        obtain ⟨lead', rest', hchar', hlead', -⟩ := encodeChar_shape d
        rw [encode_cons, hchar', List.cons_append, List.takeWhile_cons_of_neg (by simp [hlead'])]
  rw [encode_cons, hchar, List.cons_append, charLen, List.takeWhile_append_of_pos hrest, hstop,
    List.append_nil, List.length_cons, Nat.add_comm]

theorem isBoundary_charLen {cs : List Char} (h : cs ≠ []) :
    isBoundary (encode cs) (charLen (encode cs)) = true := by
  cases cs with
  | nil => exact absurd rfl h
  | cons c cs =>
      rw [charLen_encode, encode_cons]
      have hcut := isBoundary_encode_append [c] cs
      simpa using hcut

end Utf8

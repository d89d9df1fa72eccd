import Mathlib

/-!
# UTF-8 text as byte lists

Strict and lossy decoding of a byte list, and the two facts the rest of the
development uses: decoding inverts encoding, and a byte list decodes exactly
when it is the encoding of the characters it decodes to.  Both decoders walk
the list once; `skip` counts the bytes of the current character that are still
to be passed over.
-/

namespace Utf8

/-- The UTF-8 encoding of a list of characters. -/
def encode (cs : List Char) : List UInt8 :=
  cs.flatMap String.utf8EncodeChar

/-- The character at the front of a byte list, if a well-formed one stands there. -/
def decodeChar? (bs : List UInt8) : Option Char :=
  (bs.take 4).toByteArray.utf8DecodeChar? 0

/-- Strict decoding: fails at the first ill-formed character. -/
def decodeFrom : ℕ → List UInt8 → Option (List Char)
  | _, [] => some []
  | skip + 1, _ :: bs => decodeFrom skip bs
  | 0, b :: bs =>
      match decodeChar? (b :: bs) with
      | some c => (c :: ·) <$> decodeFrom (c.utf8Size - 1) bs
      | none => none

def decode (bs : List UInt8) : Option (List Char) := decodeFrom 0 bs

/-- A continuation byte `10xxxxxx`. -/
def isContinuation (b : UInt8) : Bool := 0x80 ≤ b && b ≤ 0xBF

/-- The second bytes that may follow a lead byte of a three- or four-byte
character. -/
def secondByteOk (lead b : UInt8) : Bool :=
  if lead = 0xE0 then 0xA0 ≤ b && b ≤ 0xBF
  else if lead = 0xED then 0x80 ≤ b && b ≤ 0x9F
  else if lead = 0xF0 then 0x90 ≤ b && b ≤ 0xBF
  else if lead = 0xF4 then 0x80 ≤ b && b ≤ 0x8F
  else isContinuation b

/-- The length of the ill-formed prefix that one replacement character stands
for: the longest prefix of a well-formed character, and at least one byte. -/
def invalidLength : List UInt8 → ℕ
  | lead :: b :: rest =>
      if 0xE0 ≤ lead && lead ≤ 0xF4 && secondByteOk lead b then
        match rest with
        | c :: _ => if 0xF0 ≤ lead && isContinuation c then 3 else 2
        | [] => 2
      else 1
  | _ => 1

/-- Lossy decoding: each maximal ill-formed prefix becomes `U+FFFD`. -/
def lossyFrom : ℕ → List UInt8 → List Char
  | _, [] => []
  | skip + 1, _ :: bs => lossyFrom skip bs
  | 0, b :: bs =>
      match decodeChar? (b :: bs) with
      | some c => c :: lossyFrom (c.utf8Size - 1) bs
      | none => '\uFFFD' :: lossyFrom (invalidLength (b :: bs) - 1) bs

def lossy (bs : List UInt8) : List Char := lossyFrom 0 bs

@[simp] theorem encode_nil : encode [] = [] := rfl

@[simp] theorem encode_cons (c : Char) (cs : List Char) :
    encode (c :: cs) = String.utf8EncodeChar c ++ encode cs := rfl

@[simp] theorem encode_append (cs ds : List Char) :
    encode (cs ++ ds) = encode cs ++ encode ds := by
  simp [encode]

theorem decodeChar?_encodeChar_append (c : Char) (bs : List UInt8) :
    decodeChar? (String.utf8EncodeChar c ++ bs) = some c := by
  have hlen : (String.utf8EncodeChar c).length ≤ 4 := by
    rw [String.length_utf8EncodeChar]
    exact Char.utf8Size_le_four c
  have htake : (String.utf8EncodeChar c ++ bs).take 4 =
      String.utf8EncodeChar c ++ bs.take (4 - (String.utf8EncodeChar c).length) := by
    rw [List.take_append, List.take_of_length_le hlen]
  rw [decodeChar?, htake, List.toByteArray_append]
  exact ByteArray.utf8DecodeChar?_utf8EncodeChar_append

theorem eq_encodeChar_append_of_decodeChar? {bs : List UInt8} {c : Char}
    (h : decodeChar? bs = some c) :
    ∃ rest, bs = String.utf8EncodeChar c ++ rest := by
  obtain ⟨tail, htail⟩ := ByteArray.exists_of_utf8DecodeChar?_eq_some h
  have hlist : bs.take 4 = String.utf8EncodeChar c ++ tail.data.toList := by
    have := congrArg (fun b : ByteArray ↦ b.data.toList) htail
    simpa using this
  refine ⟨tail.data.toList ++ bs.drop 4, ?_⟩
  rw [← List.append_assoc, ← hlist, List.take_append_drop]

theorem decodeFrom_skip (xs bs : List UInt8) :
    decodeFrom xs.length (xs ++ bs) = decodeFrom 0 bs := by
  induction xs with
  | nil => rfl
  | cons x xs ih => simpa [decodeFrom] using ih

theorem lossyFrom_skip (xs bs : List UInt8) :
    lossyFrom xs.length (xs ++ bs) = lossyFrom 0 bs := by
  induction xs with
  | nil => rfl
  | cons x xs ih => simpa [lossyFrom] using ih

/-- The bytes of a character, split at the first. -/
theorem encodeChar_eq_cons (c : Char) :
    ∃ b xs, String.utf8EncodeChar c = b :: xs ∧ xs.length = c.utf8Size - 1 := by
  have hlen := String.length_utf8EncodeChar c
  have hpos := Char.utf8Size_pos c
  cases h : String.utf8EncodeChar c with
  | nil => simp [h] at hlen; omega
  | cons b xs =>
      refine ⟨b, xs, rfl, ?_⟩
      rw [h, List.length_cons] at hlen
      omega

@[simp] theorem decode_nil : decode [] = some [] := rfl

theorem decode_encodeChar_append (c : Char) (bs : List UInt8) :
    decode (String.utf8EncodeChar c ++ bs) = (c :: ·) <$> decode bs := by
  obtain ⟨b, xs, hc, hxs⟩ := encodeChar_eq_cons c
  have hchar := decodeChar?_encodeChar_append c bs
  rw [hc, List.cons_append] at hchar ⊢
  simp only [decode, decodeFrom, hchar]
  rw [← hxs, decodeFrom_skip]

theorem lossy_encodeChar_append (c : Char) (bs : List UInt8) :
    lossy (String.utf8EncodeChar c ++ bs) = c :: lossy bs := by
  obtain ⟨b, xs, hc, hxs⟩ := encodeChar_eq_cons c
  have hchar := decodeChar?_encodeChar_append c bs
  rw [hc, List.cons_append] at hchar ⊢
  simp only [lossy, lossyFrom, hchar]
  rw [← hxs, lossyFrom_skip]

@[simp] theorem decode_encode (cs : List Char) : decode (encode cs) = some cs := by
  induction cs with
  | nil => rfl
  | cons c cs ih =>
      rw [encode_cons, decode_encodeChar_append, ih]
      rfl

/-- Lossy decoding changes nothing in well-formed text. -/
@[simp] theorem lossy_encode (cs : List Char) : lossy (encode cs) = cs := by
  induction cs with
  | nil => rfl
  | cons c cs ih => rw [encode_cons, lossy_encodeChar_append, ih]

theorem encode_of_decode {bs : List UInt8} {cs : List Char}
    (h : decode bs = some cs) : bs = encode cs := by
  induction cs generalizing bs with
  | nil =>
      cases bs with
      | nil => rfl
      | cons b bs =>
          simp only [decode, decodeFrom] at h
          cases hc : decodeChar? (b :: bs) <;> simp [hc] at h
  | cons c cs ih =>
      cases bs with
      | nil => simp [decode, decodeFrom] at h
      | cons b bs =>
          cases hc : decodeChar? (b :: bs) with
          | none => simp [decode, decodeFrom, hc] at h
          | some d =>
              obtain ⟨rest, hrest⟩ := eq_encodeChar_append_of_decodeChar? hc
              rw [hrest, decode_encodeChar_append] at h
              obtain ⟨ds, hds, heq⟩ := Option.map_eq_some_iff.mp h
              obtain ⟨rfl, rfl⟩ := List.cons.inj heq
              rw [hrest, encode_cons, ← ih hds]

/-- A byte list decodes to `cs` exactly when it is the encoding of `cs`. -/
theorem decode_eq_some_iff {bs : List UInt8} {cs : List Char} :
    decode bs = some cs ↔ bs = encode cs :=
  ⟨encode_of_decode, fun h ↦ h ▸ decode_encode cs⟩

theorem encodeChar_ascii {b : UInt8} (h : b < 128) :
    String.utf8EncodeChar (Char.ofNat b.toNat) = [b] := by
  have hall : ∀ n : Fin 128, String.utf8EncodeChar (Char.ofNat n) = [UInt8.ofNat n] := by
    decide
  simpa using hall ⟨b.toNat, UInt8.lt_iff_toNat_lt.mp h⟩

/-- Lossy decoding changes nothing in ASCII text. -/
theorem encode_lossy_of_ascii {bs : List UInt8} (h : ∀ b ∈ bs, b < 128) :
    encode (lossy bs) = bs := by
  have hencode : ∃ cs, encode cs = bs := by
    induction bs with
    | nil => exact ⟨[], rfl⟩
    | cons b bs ih =>
        obtain ⟨cs, hcs⟩ := ih fun b hb ↦ h b (List.mem_cons_of_mem _ hb)
        refine ⟨Char.ofNat b.toNat :: cs, ?_⟩
        rw [encode_cons, encodeChar_ascii (h b (List.mem_cons_self ..)), hcs]
        rfl
  obtain ⟨cs, rfl⟩ := hencode
  rw [lossy_encode]

/-- A text whose encoding starts with a character starts with it. -/
theorem eq_cons_of_encode_eq {cs : List Char} {c : Char} {rest : List UInt8}
    (h : encode cs = String.utf8EncodeChar c ++ rest) :
    ∃ cs', cs = c :: cs' ∧ encode cs' = rest := by
  have hdecode := decode_encode cs
  rw [h, decode_encodeChar_append] at hdecode
  obtain ⟨cs', hcs', hcons⟩ := Option.map_eq_some_iff.mp hdecode
  exact ⟨cs', hcons.symm, (encode_of_decode hcs').symm⟩

theorem eq_cons_of_encode_eq_ascii {cs : List Char} {b : UInt8} {rest : List UInt8}
    (hb : b < 128) (h : encode cs = b :: rest) :
    ∃ cs', cs = Char.ofNat b.toNat :: cs' ∧ encode cs' = rest := by
  refine eq_cons_of_encode_eq ?_
  rw [h, encodeChar_ascii hb, List.cons_append, List.nil_append]

theorem encode_injective : Function.Injective encode := by
  intro cs ds h
  have := decode_encode cs
  rw [h, decode_encode] at this
  exact (Option.some.inj this).symm

end Utf8

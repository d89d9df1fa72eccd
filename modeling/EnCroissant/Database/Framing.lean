import Mathlib
import EnCroissant.Library.Bracketed
import EnCroissant.Database.Encoding

/-!
# The framing of a stored game

The byte strings that the validator accepts are the serializations of forests
of chunks, and the mainline iterator yields the move bytes outside every
variation of the forest.
-/

namespace EnCroissant

open Bracketed

/-- The byte of a move, below every marker. -/
abbrev MoveByte := {b : UInt8 // b < nagMarker}

/-- A payload whose length fits its two-byte prefix. -/
abbrev Payload := {bs : List UInt8 // bs.length ≤ maxChunk}

inductive Chunk where
  | move (byte : MoveByte)
  | comment (payload : Payload)
  | nag (payload : Payload)

namespace Chunk

def bytes : Chunk → List UInt8
  | move byte => [byte.1]
  | comment payload => annotationChunk commentMarker payload.1
  | nag payload => annotationChunk nagMarker payload.1

def moveByte? : Chunk → Option UInt8
  | move byte => some byte.1
  | _ => none

end Chunk

def tokenBytes : Token Chunk → List UInt8
  | .leaf chunk => chunk.bytes
  | .enter => [variationStartMarker]
  | .leave => [variationEndMarker]

def storedBytes (f : Forest Chunk) : List UInt8 :=
  f.tokens.flatMap tokenBytes

/-- The move bytes outside every variation. -/
def mainlineBytes {α : Type*} (byteOf : α → Option UInt8) (f : Forest α) : List UInt8 :=
  f.topLeaves.filterMap byteOf

theorem mainlineBytes_leaf {α : Type*} (byteOf : α → Option UInt8) (a : α)
    (next : Forest α) :
    mainlineBytes byteOf (.leaf a next) = (byteOf a).toList ++ mainlineBytes byteOf next := by
  simp only [mainlineBytes, Forest.topLeaves, List.filterMap_cons]
  cases byteOf a <;> rfl

@[simp] theorem storedBytes_nil : storedBytes .nil = [] := rfl

@[simp] theorem storedBytes_leaf (c : Chunk) (next : Forest Chunk) :
    storedBytes (.leaf c next) = c.bytes ++ storedBytes next := rfl

@[simp] theorem storedBytes_branch (inner next : Forest Chunk) :
    storedBytes (.branch inner next) =
      variationStartMarker ::
        (storedBytes inner ++ variationEndMarker :: storedBytes next) := by
  simp [storedBytes, Forest.tokens, tokenBytes]

/-! ## Markers and lengths -/

theorem MoveByte.ne_markers (byte : MoveByte) :
    byte.1 ≠ variationStartMarker ∧ byte.1 ≠ variationEndMarker ∧
      byte.1 ≠ commentMarker ∧ byte.1 ≠ nagMarker := by
  have h := byte.2
  refine ⟨?_, ?_, ?_, ?_⟩ <;> rintro heq <;> rw [heq] at h <;> revert h <;> decide

/-- A byte that is no marker is a move byte. -/
theorem lt_nagMarker_of_ne {b : UInt8} (hstart : b ≠ variationStartMarker)
    (hend : b ≠ variationEndMarker) (hcomment : b ≠ commentMarker) (hnag : b ≠ nagMarker) :
    b < nagMarker := by
  simp only [variationStartMarker, variationEndMarker, commentMarker, nagMarker, ne_eq,
    ← UInt8.toNat_inj, UInt8.lt_iff_toNat_lt, UInt8.reduceToNat] at *
  have := b.toNat_lt
  omega

theorem fromLeBytes_toLeBytes {n : ℕ} (h : n ≤ maxChunk) :
    fromLeBytes (UInt8.ofNat n) (UInt8.ofNat (n / 256)) = n := by
  simp only [fromLeBytes, maxChunk, UInt8.toNat_ofNat'] at *
  omega

theorem toLeBytes_fromLeBytes (lo hi : UInt8) :
    toLeBytes (fromLeBytes lo hi) = [lo, hi] := by
  have hlo := lo.toNat_lt
  have hhi := hi.toNat_lt
  simp only [toLeBytes, fromLeBytes, List.cons.injEq, and_true, ← UInt8.toNat_inj,
    UInt8.toNat_ofNat']
  omega

theorem fromLeBytes_le (lo hi : UInt8) : fromLeBytes lo hi ≤ maxChunk := by
  have hlo := lo.toNat_lt
  have hhi := hi.toNat_lt
  simp only [fromLeBytes, maxChunk]
  omega

theorem payloadLength_append {n : ℕ} (h : n ≤ maxChunk) (bs : List UInt8) :
    payloadLength (toLeBytes n ++ bs) = some n := by
  simp only [toLeBytes, List.cons_append, List.nil_append, payloadLength,
    fromLeBytes_toLeBytes h]

theorem length_prefixed (payload : List UInt8) :
    (toLeBytes payload.length ++ payload).length = 2 + payload.length := by
  simp only [toLeBytes, List.length_append, List.length_cons, List.length_nil]

theorem annotation_ne_variation {marker : UInt8}
    (h : marker = commentMarker ∨ marker = nagMarker) :
    marker ≠ variationStartMarker ∧ marker ≠ variationEndMarker := by
  rcases h with rfl | rfl <;> decide

/-- A length prefix with its whole payload behind it is a chunk. -/
theorem exists_payload {bs : List UInt8} {n : ℕ} (hn : payloadLength bs = some n)
    (hlen : 2 + n ≤ bs.length) :
    ∃ (payload : Payload) (rest : List UInt8),
      payload.1.length = n ∧ bs = toLeBytes n ++ (payload.1 ++ rest) := by
  match bs with
  | lo :: hi :: tail =>
      obtain rfl := Option.some.inj hn
      simp only [List.length_cons] at hlen
      have hpayload : (tail.take (fromLeBytes lo hi)).length = fromLeBytes lo hi := by
        rw [List.length_take]
        omega
      refine ⟨⟨tail.take (fromLeBytes lo hi), ?_⟩, tail.drop (fromLeBytes lo hi),
        hpayload, ?_⟩
      · rw [hpayload]
        exact fromLeBytes_le lo hi
      · rw [toLeBytes_fromLeBytes, List.take_append_drop]
        rfl
  | [_] => simp [payloadLength] at hn
  | [] => simp [payloadLength] at hn

/-! ## The validator -/

section

attribute [local simp] validateFrom

theorem validateFrom_skip (xs rest : List UInt8) (d : ℕ) :
    validateFrom xs.length d (xs ++ rest) = validateFrom 0 d rest := by
  induction xs with
  | nil => rfl
  | cons x xs ih => simpa using ih

theorem validateFrom_annotation {marker : UInt8}
    (hmarker : marker = commentMarker ∨ marker = nagMarker)
    (payload : Payload) (rest : List UInt8) (d : ℕ) :
    validateFrom 0 d (annotationChunk marker payload.1 ++ rest) = validateFrom 0 d rest := by
  obtain ⟨hstart, hend⟩ := annotation_ne_variation hmarker
  have hle : 2 + payload.1.length ≤
      (toLeBytes payload.1.length ++ (payload.1 ++ rest)).length := by
    have := length_prefixed payload.1
    simp only [List.length_append] at this ⊢
    omega
  simp only [annotationChunk, List.cons_append, List.append_assoc, validateFrom, hstart, hend,
    hmarker, if_false, if_true, payloadLength_append payload.2, hle]
  rw [← length_prefixed, ← List.append_assoc, validateFrom_skip]

theorem validateFrom_leaf (c : Chunk) (rest : List UInt8) (d : ℕ) :
    validateFrom 0 d (c.bytes ++ rest) = validateFrom 0 d rest := by
  cases c with
  | move byte =>
      obtain ⟨hstart, hend, hcomment, hnag⟩ := byte.ne_markers
      simp [Chunk.bytes, hstart, hend, hcomment, hnag]
  | comment payload => exact validateFrom_annotation (Or.inl rfl) payload rest d
  | nag payload => exact validateFrom_annotation (Or.inr rfl) payload rest d

theorem validateFrom_start (rest : List UInt8) (d : ℕ) :
    validateFrom 0 d (variationStartMarker :: rest) = validateFrom 0 (d + 1) rest := by
  simp

theorem validateFrom_end (rest : List UInt8) (d : ℕ) :
    validateFrom 0 (d + 1) (variationEndMarker :: rest) = validateFrom 0 d rest := by
  have hne : variationEndMarker ≠ variationStartMarker := by decide
  simp [hne]

theorem validateFrom_end_zero (rest : List UInt8) :
    validateFrom 0 0 (variationEndMarker :: rest) =
      .error (invalidData "variation ended without a matching start") := by
  have hne : variationEndMarker ≠ variationStartMarker := by decide
  simp [hne]

end

/-- On tokens, the validator is the depth count. -/
theorem validateFrom_tokens_iff (ts : List (Token Chunk)) (d : ℕ) :
    validateFrom 0 d (ts.flatMap tokenBytes) = .ok () ↔ depthFrom d ts = some 0 := by
  induction ts generalizing d with
  | nil =>
      by_cases hd : d = 0
      · simp [validateFrom, depthFrom, hd]
      · simp [validateFrom, depthFrom, hd]
  | cons t ts ih =>
      rw [List.flatMap_cons]
      cases t with
      | leaf c =>
          rw [tokenBytes, validateFrom_leaf, ih]
          rfl
      | enter =>
          rw [tokenBytes, List.cons_append, List.nil_append, validateFrom_start, ih]
          rfl
      | leave =>
          rw [tokenBytes, List.cons_append, List.nil_append]
          cases d with
          | zero => simp [validateFrom_end_zero, depthFrom]
          | succ d =>
              rw [validateFrom_end, ih]
              rfl

/-- Accepted bytes split into tokens. -/
theorem exists_tokens_of_validateFrom {bs : List UInt8} {d : ℕ}
    (h : validateFrom 0 d bs = .ok ()) :
    ∃ ts : List (Token Chunk), ts.flatMap tokenBytes = bs := by
  induction hn : bs.length using Nat.strong_induction_on generalizing bs d with
  | _ n ih =>
    subst hn
    cases bs with
    | nil => exact ⟨[], rfl⟩
    | cons b bs =>
        have hrest : ∀ (rest : List UInt8) (e : ℕ) (t : Token Chunk),
            b :: bs = tokenBytes t ++ rest → tokenBytes t ≠ [] →
              validateFrom 0 e rest = .ok () →
                ∃ ts : List (Token Chunk), ts.flatMap tokenBytes = b :: bs := by
          intro rest e t heq hne hvalid
          have hlt : rest.length < (b :: bs).length := by
            have hpos := List.length_pos_of_ne_nil hne
            rw [heq, List.length_append]
            omega
          obtain ⟨ts, hts⟩ := ih rest.length hlt hvalid rfl
          exact ⟨t :: ts, by rw [List.flatMap_cons, hts, heq]⟩
        simp only [validateFrom] at h
        split_ifs at h with hstart hend hd hmarker
        · exact hrest bs (d + 1) .enter (by rw [hstart]; rfl) (by simp [tokenBytes]) h
        · exact hrest bs (d - 1) .leave (by rw [hend]; rfl) (by simp [tokenBytes]) h
        · cases hlen : payloadLength bs with
          | none => simp [hlen] at h
          | some n =>
              simp only [hlen] at h
              split_ifs at h with hle
              obtain ⟨payload, rest, rfl, rfl⟩ := exists_payload hlen hle
              rw [← List.append_assoc, ← length_prefixed, validateFrom_skip] at h
              rcases hmarker with rfl | rfl
              · exact hrest rest d (.leaf (.comment payload))
                  (by simp [tokenBytes, Chunk.bytes, annotationChunk])
                  (by simp [tokenBytes, Chunk.bytes, annotationChunk]) h
              · exact hrest rest d (.leaf (.nag payload))
                  (by simp [tokenBytes, Chunk.bytes, annotationChunk])
                  (by simp [tokenBytes, Chunk.bytes, annotationChunk]) h
        · have hlt : b < nagMarker :=
            lt_nagMarker_of_ne hstart hend (fun h ↦ hmarker (Or.inl h))
              (fun h ↦ hmarker (Or.inr h))
          exact hrest bs d (.leaf (.move ⟨b, hlt⟩)) rfl (by simp [tokenBytes, Chunk.bytes]) h

/-- The validator accepts the serializations of forests and nothing else. -/
theorem validateMainlineMoveBytes_iff {bs : List UInt8} :
    validateMainlineMoveBytes bs = .ok () ↔ ∃ f : Forest Chunk, storedBytes f = bs := by
  constructor
  · intro h
    obtain ⟨ts, rfl⟩ := exists_tokens_of_validateFrom h
    have hbalanced := (validateFrom_tokens_iff ts 0).mp h
    obtain ⟨f, rfl⟩ := balanced_iff_exists_forest.mp hbalanced
    exact ⟨f, rfl⟩
  · rintro ⟨f, rfl⟩
    exact (validateFrom_tokens_iff f.tokens 0).mpr (balanced_tokens f)

/-! ## The mainline iterator -/

section

attribute [local simp] mainlineMoveBytesFrom

theorem mainlineMoveBytesFrom_skip (xs rest : List UInt8) (d : ℕ) :
    mainlineMoveBytesFrom xs.length d (xs ++ rest) = mainlineMoveBytesFrom 0 d rest := by
  induction xs with
  | nil => rfl
  | cons x xs ih => simpa using ih

theorem mainlineMoveBytesFrom_annotation {marker : UInt8}
    (hmarker : marker = commentMarker ∨ marker = nagMarker)
    (payload : Payload) (rest : List UInt8) (d : ℕ) :
    mainlineMoveBytesFrom 0 d (annotationChunk marker payload.1 ++ rest) =
      mainlineMoveBytesFrom 0 d rest := by
  obtain ⟨hstart, hend⟩ := annotation_ne_variation hmarker
  simp only [annotationChunk, List.cons_append, List.append_assoc, mainlineMoveBytesFrom,
    hstart, hend, hmarker, if_false, if_true, payloadLength_append payload.2]
  rw [← length_prefixed, ← List.append_assoc, mainlineMoveBytesFrom_skip]

theorem mainlineMoveBytesFrom_leaf (c : Chunk) (rest : List UInt8) (d : ℕ) :
    mainlineMoveBytesFrom 0 d (c.bytes ++ rest) =
      (if d = 0 then c.moveByte?.toList else []) ++ mainlineMoveBytesFrom 0 d rest := by
  cases c with
  | move byte =>
      obtain ⟨hstart, hend, hcomment, hnag⟩ := byte.ne_markers
      by_cases hd : d = 0 <;>
        simp [Chunk.bytes, Chunk.moveByte?, hstart, hend, hcomment, hnag, hd]
  | comment payload =>
      rw [Chunk.bytes, mainlineMoveBytesFrom_annotation (Or.inl rfl)]
      simp [Chunk.moveByte?]
  | nag payload =>
      rw [Chunk.bytes, mainlineMoveBytesFrom_annotation (Or.inr rfl)]
      simp [Chunk.moveByte?]

end

theorem mainlineMoveBytesFrom_storedBytes (f : Forest Chunk) (rest : List UInt8) (d : ℕ) :
    mainlineMoveBytesFrom 0 d (storedBytes f ++ rest) =
      (if d = 0 then mainlineBytes Chunk.moveByte? f else []) ++ mainlineMoveBytesFrom 0 d rest := by
  induction f generalizing d rest with
  | nil => simp [mainlineBytes, Forest.topLeaves]
  | leaf c next ih =>
      rw [storedBytes_leaf, List.append_assoc, mainlineMoveBytesFrom_leaf, ih,
        mainlineBytes_leaf]
      split_ifs <;> simp
  | branch inner next ihInner ihNext =>
      have hne : variationEndMarker ≠ variationStartMarker := by decide
      simp only [storedBytes_branch, List.cons_append, List.append_assoc,
        mainlineMoveBytesFrom, if_true]
      rw [ihInner]
      simp only [Nat.succ_ne_zero, if_false, List.nil_append, mainlineMoveBytesFrom, hne,
        if_true, Nat.add_sub_cancel]
      rw [ihNext]
      rfl

/-- The iterator yields the move bytes outside every variation. -/
theorem iterMainlineMoveBytes_storedBytes (f : Forest Chunk) :
    iterMainlineMoveBytes (storedBytes f) = mainlineBytes Chunk.moveByte? f := by
  have h := mainlineMoveBytesFrom_storedBytes f [] 0
  simpa [iterMainlineMoveBytes, mainlineMoveBytesFrom] using h

end EnCroissant

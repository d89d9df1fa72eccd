import Mathlib.Data.List.Basic

/-!
# Uniquely parsable encodings

An encoding is uniquely parsable when what follows it cannot be mistaken for a part
of it.  Sequences of such encodings are known by their concatenation, and so is a
payload behind its length.
-/

variable {α β γ : Type*}

def UniquelyParsable (encode : α → List β) : Prop :=
  ∀ ⦃a b : α⦄ ⦃r s : List β⦄, encode a ++ r = encode b ++ s → a = b ∧ r = s

namespace UniquelyParsable

variable {encode : α → List β}

theorem injective (h : UniquelyParsable encode) : Function.Injective encode := by
  intro a b heq
  exact (h (r := []) (s := []) (by rw [heq])).1

/-- Injective encodings of one length are uniquely parsable. -/
theorem of_length {n : ℕ} (hlength : ∀ a, (encode a).length = n)
    (hinj : Function.Injective encode) : UniquelyParsable encode := by
  intro a b r s heq
  obtain ⟨hencoded, hrest⟩ := List.append_inj heq (by rw [hlength, hlength])
  exact ⟨hinj hencoded, hrest⟩

theorem comp (h : UniquelyParsable encode) {f : γ → α} (hf : Function.Injective f) :
    UniquelyParsable fun c ↦ encode (f c) := by
  intro a b r s heq
  obtain ⟨hencoded, hrest⟩ := h heq
  exact ⟨hf hencoded, hrest⟩

/-- A sequence of nonempty encodings is known by their concatenation. -/
theorem flatMap_injective (h : UniquelyParsable encode) (hne : ∀ a, encode a ≠ []) :
    Function.Injective fun l : List α ↦ l.flatMap encode := by
  intro l
  induction l with
  | nil =>
      intro l' heq
      cases l' with
      | nil => rfl
      | cons b l' =>
          simp only [List.flatMap_nil, List.flatMap_cons] at heq
          exact absurd (List.append_eq_nil_iff.mp heq.symm).1 (hne b)
  | cons a l ih =>
      intro l' heq
      cases l' with
      | nil =>
          simp only [List.flatMap_nil, List.flatMap_cons] at heq
          exact absurd (List.append_eq_nil_iff.mp heq).1 (hne a)
      | cons b l' =>
          simp only [List.flatMap_cons] at heq
          obtain ⟨rfl, hrest⟩ := h heq
          rw [ih hrest]

/-- A payload behind its length. -/
theorem lengthPrefixed {lengthCode : ℕ → List β} {width bound : ℕ}
    (hwidth : ∀ n, (lengthCode n).length = width)
    (hcode : ∀ m n, m < bound → n < bound → lengthCode m = lengthCode n → m = n) :
    UniquelyParsable fun payload : {bs : List β // bs.length < bound} ↦
      lengthCode payload.1.length ++ payload.1 := by
  rintro ⟨bs, hbs⟩ ⟨bs', hbs'⟩ r s heq
  simp only [List.append_assoc] at heq
  obtain ⟨hlength, hrest⟩ := List.append_inj heq (by rw [hwidth, hwidth])
  obtain ⟨rfl, rfl⟩ := List.append_inj hrest (hcode _ _ hbs hbs' hlength)
  exact ⟨rfl, rfl⟩

/-- A presence tag before what is there. -/
theorem option {present absent : β} (h : UniquelyParsable encode) (hne : present ≠ absent) :
    UniquelyParsable fun o : Option α ↦ o.elim [absent] fun a ↦ present :: encode a := by
  intro o o' r s heq
  cases o with
  | none =>
      cases o' with
      | none => exact ⟨rfl, by simpa using heq⟩
      | some b => exact absurd (List.cons.inj heq).1.symm hne
  | some a =>
      cases o' with
      | none => exact absurd (List.cons.inj heq).1 hne
      | some b =>
          obtain ⟨rfl, hrest⟩ := h (List.cons.inj heq).2
          exact ⟨rfl, hrest⟩

end UniquelyParsable

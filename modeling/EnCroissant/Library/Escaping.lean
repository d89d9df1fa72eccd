import Mathlib

/-!
# Escaped texts

A mark goes in front of every special item, and reading a text drops the marks
again.  The mark is special itself.
-/

namespace Escaping

variable {α : Type*} (mark : α) (special : α → Bool)

def escape (text : List α) : List α :=
  text.flatMap fun c ↦ if special c then [mark, c] else [c]

variable {mark special} {c d : α} {text : List α}

@[simp] theorem escape_nil : escape mark special [] = [] := rfl

theorem escape_cons_of_special (hc : special c = true) :
    escape mark special (c :: text) = mark :: c :: escape mark special text := by
  rw [escape, List.flatMap_cons, if_pos hc]
  rfl

theorem escape_cons_of_plain (hc : special c = false) :
    escape mark special (c :: text) = c :: escape mark special text := by
  rw [escape, List.flatMap_cons, if_neg (by simp [hc])]
  rfl

theorem escape_of_plain (h : ∀ c ∈ text, special c = false) : escape mark special text = text := by
  induction text with
  | nil => rfl
  | cons c text ih =>
      have htext := ih fun d hd ↦ h d (List.mem_cons_of_mem c hd)
      rw [escape_cons_of_plain (h c List.mem_cons_self), htext]

/-! ## Reading -/

variable [DecidableEq α]

def unescape (mark : α) (special : α → Bool) : List α → List α
  | [] => []
  | [c] => [c]
  | c :: d :: text =>
      if c = mark ∧ special d then d :: unescape mark special text
      else c :: unescape mark special (d :: text)

theorem unescape_mark_cons (hd : special d = true) :
    unescape mark special (mark :: d :: text) = d :: unescape mark special text := by
  rw [unescape, if_pos ⟨rfl, hd⟩]

theorem unescape_cons_of_ne (hc : c ≠ mark) :
    unescape mark special (c :: text) = c :: unescape mark special text := by
  cases text with
  | nil => rfl
  | cons d text => rw [unescape, if_neg fun h ↦ hc h.1]

/-- Reading an escaped text gives the text. -/
theorem unescape_escape (hmark : special mark = true) (text : List α) :
    unescape mark special (escape mark special text) = text := by
  induction text with
  | nil => rfl
  | cons c text ih =>
      cases hc : special c with
      | true => rw [escape_cons_of_special hc, unescape_mark_cons hc, ih]
      | false =>
          have hne : c ≠ mark := by
            rintro rfl
            rw [hc] at hmark
            cases hmark
          rw [escape_cons_of_plain hc, unescape_cons_of_ne hne, ih]

end Escaping

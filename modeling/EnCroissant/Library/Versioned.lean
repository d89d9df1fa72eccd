import Mathlib

/-!
# Values with a version

A value that is replaced only together with a greater version.  Whoever read it
once knows it still, as long as the version is the one that was read.
-/

structure Versioned (V α : Type*) where
  version : V
  value : α

namespace Versioned

variable {V α : Type*} [Preorder V] {seen now next : Versioned V α}

/-- What was seen was replaced since, or is what there is now. -/
def SeenBefore (seen now : Versioned V α) : Prop :=
  seen.version < now.version ∨ seen = now

theorem SeenBefore.refl (now : Versioned V α) : SeenBefore now now := Or.inr rfl

theorem SeenBefore.replace (h : SeenBefore seen now) (hlt : now.version < next.version) :
    SeenBefore seen next := by
  rcases h with h | rfl
  · exact Or.inl (h.trans hlt)
  · exact Or.inl hlt

/-- A version that was seen stands for the value that was seen. -/
theorem SeenBefore.value_eq (h : SeenBefore seen now) (hversion : seen.version = now.version) :
    seen.value = now.value := by
  rcases h with h | rfl
  · exact absurd hversion h.ne
  · rfl

end Versioned

import Mathlib

/-!
# Labelled transition systems

Runs whose steps all meet a condition, and what holds along them: an invariant
holds in every state reached, and what an invariant helps a step to keep, a
whole run keeps.
-/

structure Machine (σ ι : Type*) where
  init : σ → Prop
  step : σ → ι → σ → Prop

namespace Machine

variable {σ ι : Type*} (M : Machine σ ι)

/-- A run all of whose steps meet the condition. -/
def RunOf (C : σ → ι → Prop) : σ → σ → Prop :=
  Relation.ReflTransGen fun s s' ↦ ∃ a, C s a ∧ M.step s a s'

def ReachableBy (C : σ → ι → Prop) (s : σ) : Prop :=
  ∃ s₀, M.init s₀ ∧ M.RunOf C s₀ s

def Run : σ → σ → Prop := M.RunOf fun _ _ ↦ True

def Reachable : σ → Prop := M.ReachableBy fun _ _ ↦ True

/-- What holds at the start and is kept by every step that meets the
condition. -/
structure Invariant (C : σ → ι → Prop) (P : σ → Prop) : Prop where
  init : ∀ {s}, M.init s → P s
  step : ∀ {s a s'}, P s → C s a → M.step s a s' → P s'

variable {M} {C : σ → ι → Prop} {P Q : σ → Prop} {s s' : σ}

theorem Run.refl : M.Run s s := Relation.ReflTransGen.refl

theorem RunOf.trans {s'' : σ} (h : M.RunOf C s s') (h' : M.RunOf C s' s'') : M.RunOf C s s'' :=
  Relation.ReflTransGen.trans h h'

theorem Run.step {a : ι} {s'' : σ} (h : M.Run s s') (h' : M.step s' a s'') : M.Run s s'' :=
  Relation.ReflTransGen.tail h ⟨a, trivial, h'⟩

theorem ReachableBy.run (h : M.ReachableBy C s) (h' : M.RunOf C s s') : M.ReachableBy C s' := by
  obtain ⟨s₀, hinit, hrun⟩ := h
  exact ⟨s₀, hinit, hrun.trans h'⟩

theorem Invariant.run (h : M.Invariant C P) (hs : P s) (hrun : M.RunOf C s s') : P s' := by
  induction hrun with
  | refl => exact hs
  | tail _ hstep ih =>
      obtain ⟨a, hcondition, hstep⟩ := hstep
      exact h.step ih hcondition hstep

theorem Invariant.reachable (h : M.Invariant C P) (hs : M.ReachableBy C s) : P s := by
  obtain ⟨s₀, hinit, hrun⟩ := hs
  exact h.run (h.init hinit) hrun

/-- What steps keep as long as an invariant holds, runs keep. -/
theorem Invariant.stable (h : M.Invariant C P)
    (hstep : ∀ {s a s'}, P s → Q s → C s a → M.step s a s' → Q s')
    (hs : P s) (hQ : Q s) (hrun : M.RunOf C s s') :
    Q s' := by
  induction hrun with
  | refl => exact hQ
  | @tail s' s'' hrun' hlast ih =>
      obtain ⟨a, hcondition, hlast⟩ := hlast
      exact hstep (h.run hs hrun') ih hcondition hlast

/-- A run by its inputs, when the next state can be computed. -/
theorem RunOf.of_foldlM [∀ s a, Decidable (C s a)] {next : σ → ι → Option σ}
    (hnext : ∀ {s a s'}, next s a = some s' → M.step s a s') {inputs : List ι}
    (h : inputs.foldlM (fun s a ↦ if C s a then next s a else none) s = some s') :
    M.RunOf C s s' := by
  induction inputs generalizing s with
  | nil =>
      obtain rfl : s = s' := Option.some.inj h
      exact Relation.ReflTransGen.refl
  | cons a inputs ih =>
      rw [List.foldlM_cons] at h
      obtain ⟨t, hstep, hrest⟩ := Option.bind_eq_some_iff.mp h
      split_ifs at hstep with hcondition
      exact Relation.ReflTransGen.head ⟨a, hcondition, hnext hstep⟩ (ih hrest)

end Machine

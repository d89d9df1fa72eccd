import Mathlib

/-!
# Computations that may fail

A computation over a state that fails with an error and keeps what it did before.
The rules give what holds of the state after a success and after a failure.
-/

universe u v

/-- A computation over `σ` that returns a value or fails, and leaves a state either way. -/
def Faulty (σ : Type u) (ε : Type v) (α : Type u) : Type (max u v) := σ → Except ε α × σ

namespace Faulty

variable {σ : Type u} {ε : Type v} {α β : Type u}

instance : Monad (Faulty σ ε) where
  pure a := fun s ↦ (.ok a, s)
  bind m f := fun s ↦
    match m s with
    | (.ok a, s') => f a s'
    | (.error e, s') => (.error e, s')

def fail (e : ε) : Faulty σ ε α := fun s ↦ (.error e, s)

def get : Faulty σ ε σ := fun s ↦ (.ok s, s)

def modify (f : σ → σ) : Faulty σ ε PUnit := fun s ↦ (.ok .unit, f s)

def ofExcept (x : Except ε α) : Faulty σ ε α := fun s ↦ (x, s)

/-- Goes on with the error of a failure. -/
def catching (m : Faulty σ ε α) (handler : ε → Faulty σ ε α) : Faulty σ ε α := fun s ↦
  match m s with
  | (.ok a, s') => (.ok a, s')
  | (.error e, s') => handler e s'

def onlyIf (c : Prop) [Decidable c] (m : Faulty σ ε PUnit) : Faulty σ ε PUnit :=
  if c then m else pure .unit

/-- The loop over a list. -/
def each (f : β → Faulty σ ε PUnit) : List β → Faulty σ ε PUnit
  | [] => pure .unit
  | b :: l => do
      f b
      each f l

/-- From every state with `P`, a success leads to `Q` and a failure to `F`. -/
def Spec (P : σ → Prop) (m : Faulty σ ε α) (Q : α → σ → Prop) (F : σ → Prop) : Prop :=
  ∀ s, P s → (∀ a s', m s = (.ok a, s') → Q a s') ∧ ∀ e s', m s = (.error e, s') → F s'

variable {P P' : σ → Prop} {Q Q' : α → σ → Prop} {F F' : σ → Prop} {m : Faulty σ ε α}

theorem Spec.weaken (h : Spec P m Q F) (hP : ∀ s, P' s → P s) (hQ : ∀ a s, Q a s → Q' a s)
    (hF : ∀ s, F s → F' s) :
    Spec P' m Q' F' := by
  intro s hs
  obtain ⟨hok, herror⟩ := h s (hP s hs)
  exact ⟨fun a s' hm ↦ hQ a s' (hok a s' hm), fun e s' hm ↦ hF s' (herror e s' hm)⟩

theorem Spec.pure {a : α} (h : ∀ s, P s → Q a s) :
    Spec P (Pure.pure a : Faulty σ ε α) Q F := by
  intro s hs
  refine ⟨fun b s' hm ↦ ?_, fun e s' hm ↦ ?_⟩
  · cases hm
    exact h s hs
  · cases (Prod.mk.inj hm).1

theorem Spec.fail {e : ε} (h : ∀ s, P s → F s) : Spec P (fail e : Faulty σ ε α) Q F := by
  intro s hs
  refine ⟨fun b s' hm ↦ ?_, fun e s' hm ↦ ?_⟩
  · cases (Prod.mk.inj hm).1
  · cases hm
    exact h s hs

theorem Spec.get {Q : σ → σ → Prop} (h : ∀ s, P s → Q s s) :
    Spec P (get : Faulty σ ε σ) Q F := by
  intro s hs
  refine ⟨fun b s' hm ↦ ?_, fun e s' hm ↦ ?_⟩
  · cases hm
    exact h s hs
  · cases (Prod.mk.inj hm).1

theorem Spec.modify {f : σ → σ} {Q : PUnit → σ → Prop} (h : ∀ s, P s → Q .unit (f s)) :
    Spec P (modify f : Faulty σ ε PUnit) Q F := by
  intro s hs
  refine ⟨fun b s' hm ↦ ?_, fun e s' hm ↦ ?_⟩
  · cases hm
    exact h s hs
  · cases (Prod.mk.inj hm).1

theorem Spec.ofExcept {x : Except ε α} (hok : ∀ a s, x = .ok a → P s → Q a s)
    (herror : ∀ s, P s → F s) :
    Spec P (ofExcept x : Faulty σ ε α) Q F := by
  intro s hs
  refine ⟨fun a s' hm ↦ ?_, fun e s' hm ↦ ?_⟩
  · obtain ⟨rfl, rfl⟩ := Prod.mk.inj hm
    exact hok a s rfl hs
  · obtain ⟨-, rfl⟩ := Prod.mk.inj hm
    exact herror s hs

theorem Spec.bind {f : α → Faulty σ ε β} {R : β → σ → Prop} (hm : Spec P m Q F)
    (hf : ∀ a, Spec (Q a) (f a) R F) :
    Spec P (m >>= f) R F := by
  intro s hs
  obtain ⟨hok, herror⟩ := hm s hs
  have hbind : (m >>= f) s = match m s with
      | (.ok a, s') => f a s'
      | (.error e, s') => (.error e, s') := rfl
  rw [hbind]
  cases hrun : m s with
  | mk result s' =>
      cases result with
      | ok a => exact hf a s' (hok a s' hrun)
      | error e =>
          refine ⟨fun b s'' hb ↦ ?_, fun e' s'' he ↦ ?_⟩
          · cases (Prod.mk.inj hb).1
          · obtain ⟨-, rfl⟩ := Prod.mk.inj he
            exact herror e s' hrun

theorem Spec.catching {E : σ → Prop} {handler : ε → Faulty σ ε α} (hm : Spec P m Q E)
    (hhandler : ∀ e, Spec E (handler e) Q F) :
    Spec P (Faulty.catching m handler) Q F := by
  intro s hs
  obtain ⟨hok, herror⟩ := hm s hs
  have hcatch : Faulty.catching m handler s = match m s with
      | (.ok a, s') => (.ok a, s')
      | (.error e, s') => handler e s' := rfl
  rw [hcatch]
  cases hrun : m s with
  | mk result s' =>
      cases result with
      | ok a =>
          refine ⟨fun b s'' hb ↦ ?_, fun e s'' he ↦ ?_⟩
          · cases hb
            exact hok a s' hrun
          · cases (Prod.mk.inj he).1
      | error e => exact hhandler e s' (herror e s' hrun)

theorem Spec.ite {c : Prop} [Decidable c] {m' : Faulty σ ε α}
    (hpos : c → Spec P m Q F) (hneg : ¬c → Spec P m' Q F) :
    Spec P (if c then m else m') Q F := by
  split_ifs with h
  · exact hpos h
  · exact hneg h

theorem Spec.onlyIf {c : Prop} [Decidable c] {m : Faulty σ ε PUnit} {Q : PUnit → σ → Prop}
    (hpos : c → Spec P m Q F) (hneg : ¬c → ∀ s, P s → Q .unit s) :
    Spec P (onlyIf c m) Q F :=
  Spec.ite hpos fun hc ↦ Spec.pure (hneg hc)

/-- A loop whose invariant knows which part of the list is done. -/
theorem Spec.each {f : β → Faulty σ ε PUnit} {l : List β} {I : List β → σ → Prop}
    (h : ∀ done b rest, l = done ++ b :: rest →
      Spec (I done) (f b) (fun _ ↦ I (done ++ [b])) F) :
    Spec (I []) (each f l) (fun _ ↦ I l) F := by
  have hrest : ∀ rest done, l = done ++ rest → Spec (I done) (Faulty.each f rest) (fun _ ↦ I l) F := by
    intro rest
    induction rest with
    | nil =>
        intro done hl
        rw [List.append_nil] at hl
        subst hl
        exact Spec.pure fun _ hs ↦ hs
    | cons b rest ih =>
        intro done hl
        refine Spec.bind (h done b rest hl) fun _ ↦ ih (done ++ [b]) ?_
        rw [hl, List.append_assoc]
        rfl
  exact hrest l [] rfl

end Faulty

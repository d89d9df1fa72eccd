import Mathlib

/-!
# Bracketed token lists

A forest whose branches carry no label, its token list with one `enter` and one
`leave` token around every branch, and the depth count that recognizes exactly
the token lists of forests.
-/

namespace Bracketed

variable {α : Type*}

/-- An ordered forest.  `next` holds the siblings to the right. -/
inductive Forest (α : Type*) where
  | nil : Forest α
  | leaf (a : α) (next : Forest α) : Forest α
  | branch (inner next : Forest α) : Forest α
  deriving DecidableEq, Repr

inductive Token (α : Type*) where
  | leaf (a : α) : Token α
  | enter : Token α
  | leave : Token α
  deriving DecidableEq, Repr

namespace Forest

def tokens : Forest α → List (Token α)
  | nil => []
  | leaf a next => .leaf a :: next.tokens
  | branch inner next => .enter :: (inner.tokens ++ .leave :: next.tokens)

/-- The leaves outside every branch, in order. -/
def topLeaves : Forest α → List α
  | nil => []
  | leaf a next => a :: next.topLeaves
  | branch _ next => next.topLeaves

end Forest

/-- The depth reached from `d`, or `none` where a `leave` has no open branch. -/
def depthFrom : ℕ → List (Token α) → Option ℕ
  | d, [] => some d
  | d, .leaf _ :: ts => depthFrom d ts
  | d, .enter :: ts => depthFrom (d + 1) ts
  | 0, .leave :: _ => none
  | d + 1, .leave :: ts => depthFrom d ts

def Balanced (ts : List (Token α)) : Prop :=
  depthFrom 0 ts = some 0

instance (ts : List (Token α)) : Decidable (Balanced ts) :=
  inferInstanceAs (Decidable (depthFrom 0 ts = some 0))

theorem depthFrom_tokens_append (f : Forest α) (d : ℕ) (ts : List (Token α)) :
    depthFrom d (f.tokens ++ ts) = depthFrom d ts := by
  induction f generalizing d ts with
  | nil => rfl
  | leaf a next ih => simpa [Forest.tokens, depthFrom] using ih d ts
  | branch inner next ihInner ihNext =>
      simp only [Forest.tokens, List.cons_append, List.append_assoc, depthFrom]
      rw [ihInner, depthFrom, ihNext]

theorem balanced_tokens (f : Forest α) : Balanced f.tokens := by
  have h := depthFrom_tokens_append f 0 []
  rwa [List.append_nil] at h

/-- A list that closes `d` open branches splits at the `leave` of the
innermost one, and for `d = 0` it is a token list. -/
theorem exists_forest_of_depthFrom {ts : List (Token α)} {d : ℕ}
    (h : depthFrom d ts = some 0) :
    (d = 0 ∧ ∃ f : Forest α, f.tokens = ts) ∨
      ∃ e rest, d = e + 1 ∧ depthFrom e rest = some 0 ∧
        ∃ f : Forest α, f.tokens ++ .leave :: rest = ts := by
  induction hn : ts.length using Nat.strong_induction_on generalizing ts d with
  | _ n ih =>
    subst hn
    match ts, d with
    | [], d =>
        simp only [depthFrom, Option.some.injEq] at h
        exact Or.inl ⟨h, .nil, rfl⟩
    | .leaf a :: ts, d =>
        have hts : depthFrom d ts = some 0 := by simpa [depthFrom] using h
        rcases ih ts.length (by simp) hts rfl with
          ⟨hd, f, hf⟩ | ⟨e, rest, hd, hrest, f, hf⟩
        · exact Or.inl ⟨hd, .leaf a f, by simp [Forest.tokens, hf]⟩
        · exact Or.inr ⟨e, rest, hd, hrest, .leaf a f, by simp [Forest.tokens, hf]⟩
    | .leave :: ts, 0 => simp [depthFrom] at h
    | .leave :: ts, d + 1 => exact Or.inr ⟨d, ts, rfl, h, .nil, rfl⟩
    | .enter :: ts, d =>
        have hts : depthFrom (d + 1) ts = some 0 := by simpa [depthFrom] using h
        rcases ih ts.length (by simp) hts rfl with
          ⟨hd, _⟩ | ⟨e, rest, hd, hrest, inner, hinner⟩
        · omega
        · obtain rfl : d = e := by omega
          have hlt : rest.length < (Token.enter :: ts).length := by
            simp [← hinner]
            omega
          rcases ih rest.length hlt hrest rfl with
            ⟨hd, f, hf⟩ | ⟨e, rest', hd, hrest', f, hf⟩
          · exact Or.inl ⟨hd, .branch inner f, by simp [Forest.tokens, hf, hinner]⟩
          · refine Or.inr ⟨e, rest', hd, hrest', .branch inner f, ?_⟩
            simp [Forest.tokens, hf, hinner]

/-- The balanced lists are the token lists of forests. -/
theorem balanced_iff_exists_forest {ts : List (Token α)} :
    Balanced ts ↔ ∃ f : Forest α, f.tokens = ts := by
  constructor
  · intro h
    rcases exists_forest_of_depthFrom h with ⟨_, hf⟩ | ⟨_, _, hd, _⟩
    · exact hf
    · omega
  · rintro ⟨f, rfl⟩
    exact balanced_tokens f

end Bracketed

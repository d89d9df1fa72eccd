import Mathlib

/-!
# Reading a sequence page by page

A reader asks for one page after the other, from where the last one ended, until
no next page is named.  What the pages are cut from may change between two
requests.
-/

namespace Paging

variable {α γ ε : Type*}

/-- Follows the cursors with at most `fuel` requests; `read n` answers the `n`-th. -/
def follow (read : ℕ → γ → Except ε (List α × Option γ)) :
    ℕ → ℕ → γ → Except ε (Option (List (List α)))
  | 0, _, _ => .ok none
  | fuel + 1, n, cursor =>
      match read n cursor with
      | .error error => .error error
      | .ok (page, none) => .ok (some [page])
      | .ok (page, some cursor') => do
          let pages ← follow read fuel (n + 1) cursor'
          .ok (pages.map (page :: ·))

/-- `Left n cursor rest`: at the `n`-th request `rest` is left behind the cursor. -/
structure Advances (read : ℕ → γ → Except ε (List α × Option γ))
    (Left : ℕ → γ → List α → Prop) : Prop where
  step : ∀ {n cursor rest}, Left n cursor rest →
    read n cursor = .ok (rest, none) ∨
      ∃ page rest' cursor', page ≠ [] ∧ rest = page ++ rest' ∧
        read n cursor = .ok (page, some cursor') ∧ Left (n + 1) cursor' rest'

variable {read : ℕ → γ → Except ε (List α × Option γ)} {Left : ℕ → γ → List α → Prop}

theorem follow_of_last {n : ℕ} {cursor : γ} {page : List α} (fuel : ℕ)
    (h : read n cursor = .ok (page, none)) :
    follow read (fuel + 1) n cursor = .ok (some [page]) := by
  rw [follow, h]

theorem follow_of_next {n : ℕ} {cursor cursor' : γ} {page : List α} {pages : List (List α)}
    {fuel : ℕ} (h : read n cursor = .ok (page, some cursor'))
    (hpages : follow read fuel (n + 1) cursor' = .ok (some pages)) :
    follow read (fuel + 1) n cursor = .ok (some (page :: pages)) := by
  rw [follow, h]
  simp only [hpages]
  rfl

/-- The pages are what was left, in order, and each is one that was read. -/
theorem follow_eq (h : Advances read Left) (rest : List α) {n : ℕ} {cursor : γ}
    (hleft : Left n cursor rest) :
    ∃ pages, (∀ fuel, rest.length < fuel → follow read fuel n cursor = .ok (some pages)) ∧
      pages.flatten = rest ∧
        ∀ page ∈ pages, ∃ n cursor rest next,
          Left n cursor rest ∧ read n cursor = .ok (page, next) := by
  induction hlength : rest.length using Nat.strong_induction_on generalizing n cursor rest with
  | _ length ih =>
      subst hlength
      rcases h.step hleft with hlast | ⟨page, rest', cursor', hne, rfl, hread, hleft'⟩
      · refine ⟨[rest], ?_, by simp, ?_⟩
        · rintro (_ | fuel) hfuel
          · omega
          · exact follow_of_last fuel hlast
        · intro page hpage
          obtain rfl := List.mem_singleton.mp hpage
          exact ⟨n, cursor, page, none, hleft, hlast⟩
      · have hshorter : rest'.length < (page ++ rest').length := by
          have hpos := List.length_pos_of_ne_nil hne
          rw [List.length_append]
          omega
        obtain ⟨pages, hpages, hflatten, heach⟩ := ih _ hshorter rest' hleft' rfl
        refine ⟨page :: pages, ?_, by rw [List.flatten_cons, hflatten], ?_⟩
        · rintro (_ | fuel) hfuel
          · omega
          · exact follow_of_next hread (hpages fuel (by omega))
        · rintro page' (_ | ⟨_, hpage⟩)
          · exact ⟨n, cursor, _, _, hleft, hread⟩
          · exact heach page' hpage

end Paging

import Mathlib

/-!
# Searching a quiet game inside a window

Two sides move in turn and a position is worth the opposite to the other side.  A
position may be left as it stands; otherwise the best of the offered moves is played.
The search looks at the moves one by one and stops as soon as the value leaves its
window; what it returns and the value agree once both are cut to the window.
-/

/-- A game whose positions may be left as they stand. -/
structure QuietGame (P S : Type*) where
  ended : P → Bool
  stand : P → S
  next : P → List P

namespace QuietGame

variable {P S C : Type*}

/-- Every move leads to a smaller position. -/
def Shrinks (G : QuietGame P S) (size : P → ℕ) : Prop :=
  ∀ p, G.ended p = false → ∀ q ∈ G.next p, size q < size p

theorem next_eq_nil {G : QuietGame P S} {size : P → ℕ} (hshrinks : G.Shrinks size) {p : P}
    (hended : G.ended p = false) (hsize : size p ≤ 0) : G.next p = [] := by
  refine List.eq_nil_iff_forall_not_mem.mpr fun q hq ↦ ?_
  have hsmaller := hshrinks p hended q hq
  omega

section Order

variable [LinearOrder S]

/-! ## Windows -/

/-- The point of the window from `a` to `b` that is closest to `x`. -/
def clip (a b x : S) : S := max a (min b x)

theorem clip_of_le {a b x : S} (hab : a ≤ b) (h : b ≤ x) : clip a b x = b := by
  rw [clip, min_eq_left h, max_eq_right hab]

theorem clip_of_lt {a b x : S} (h : x < b) : clip a b x = max a x := by
  rw [clip, min_eq_right h.le]

theorem clip_of_mem {a b x : S} (ha : a ≤ x) (hb : x ≤ b) : clip a b x = x := by
  rw [clip, min_eq_right hb, max_eq_right ha]

theorem clip_clip {a b x : S} (hab : a ≤ b) : clip a b (clip a b x) = clip a b x :=
  clip_of_mem (le_max_left _ _) (max_le hab (min_le_left _ _))

/-- Cutting a value does not change whether it reaches the upper end. -/
theorem le_clip_iff {a b x : S} (hab : a < b) : b ≤ clip a b x ↔ b ≤ x := by
  rw [clip, le_max_iff, le_min_iff]
  constructor
  · rintro (h | h)
    · exact absurd h hab.not_ge
    · exact h.2
  · exact fun h ↦ .inr ⟨le_rfl, h⟩

/-! ## The best of several values -/

/-- The largest value of the elements, but at least `a`. -/
def best (v : C → S) (a : S) (cs : List C) : S := cs.foldl (fun a c ↦ max a (v c)) a

@[simp] theorem best_nil (v : C → S) (a : S) : best v a [] = a := rfl

@[simp] theorem best_cons (v : C → S) (a : S) (c : C) (cs : List C) :
    best v a (c :: cs) = best v (max a (v c)) cs := rfl

theorem max_best (v : C → S) (cs : List C) :
    ∀ a x : S, best v (max a x) cs = max a (best v x cs) := by
  induction cs with
  | nil => exact fun a x ↦ rfl
  | cons c cs ih =>
      intro a x
      rw [best_cons, best_cons, max_assoc, ih]

theorem le_best (v : C → S) (a : S) (cs : List C) : a ≤ best v a cs := by
  have h := max_best v cs a a
  rw [max_self] at h
  rw [h]
  exact le_max_left _ _

theorem best_congr {v w : C → S} {a : S} {cs : List C} (h : ∀ c ∈ cs, v c = w c) :
    best v a cs = best w a cs := by
  induction cs generalizing a with
  | nil => rfl
  | cons c cs ih =>
      rw [best_cons, best_cons, h c List.mem_cons_self]
      exact ih fun c' hc' ↦ h c' (List.mem_cons_of_mem _ hc')

theorem isGreatest_best (v : C → S) (cs : List C) :
    ∀ a : S, IsGreatest (insert a {s | ∃ c ∈ cs, s = v c}) (best v a cs) := by
  induction cs with
  | nil =>
      intro a
      refine ⟨Set.mem_insert _ _, ?_⟩
      rintro s (rfl | ⟨c, hc, -⟩)
      · exact le_rfl
      · cases hc
  | cons c cs ih =>
      intro a
      obtain ⟨hmem, hle⟩ := ih (max a (v c))
      rw [best_cons]
      refine ⟨?_, ?_⟩
      · rcases hmem with hfirst | ⟨c', hc', hvalue⟩
        · rcases max_choice a (v c) with ha | hc
          · exact .inl (hfirst.trans ha)
          · exact .inr ⟨c, List.mem_cons_self, hfirst.trans hc⟩
        · exact .inr ⟨c', List.mem_cons_of_mem _ hc', hvalue⟩
      · have hstart : max a (v c) ≤ best v (max a (v c)) cs := le_best _ _ _
        rintro s (rfl | ⟨c', hc', rfl⟩)
        · exact (le_max_left _ _).trans hstart
        · rcases List.mem_cons.mp hc' with rfl | hc'
          · exact (le_max_right _ _).trans hstart
          · exact hle (.inr ⟨c', hc', rfl⟩)

/-! ## The loop over the moves -/

/-- One move: the search ends when it reaches the upper end of the window, and goes on
with the lower end raised to what the move is worth otherwise. -/
def attempt (b a found : S) : Except S S :=
  if b ≤ found then .error b else .ok (max a found)

/-- The moves one after the other. -/
def tryAll (score : C → S → S) (b : S) : List C → S → S
  | [], a => a
  | c :: cs, a =>
      match attempt b a (score c a) with
      | .error result => result
      | .ok a => tryAll score b cs a

/-- Only the part of a value inside the window matters to a move. -/
theorem attempt_clip {a b x : S} (hab : a < b) : attempt b a (clip a b x) = attempt b a x := by
  rw [attempt, attempt]
  by_cases h : b ≤ x
  · rw [if_pos ((le_clip_iff hab).mpr h), if_pos h]
  · rw [if_neg fun hclip ↦ h ((le_clip_iff hab).mp hclip), if_neg h,
      clip_of_lt (not_le.mp h), ← max_assoc, max_self]

theorem attempt_congr {a b x y : S} (hab : a < b) (h : clip a b x = clip a b y) :
    attempt b a x = attempt b a y := by
  rw [← attempt_clip hab, h, attempt_clip hab]

/-- When each score agrees with a value inside every window that is left, the loop finds
the best of the values, up to the upper end. -/
theorem tryAll_eq {score : C → S → S} {v : C → S} {b : S} {cs : List C} :
    ∀ {a : S}, a < b →
      (∀ c ∈ cs, ∀ a', a ≤ a' → a' < b → clip a' b (score c a') = clip a' b (v c)) →
        tryAll score b cs a = min b (best v a cs) := by
  induction cs with
  | nil =>
      intro a hab _
      exact (min_eq_right hab.le).symm
  | cons c cs ih =>
      intro a hab hscore
      have hfirst := attempt_congr hab (hscore c List.mem_cons_self a le_rfl hab)
      rw [tryAll, hfirst, best_cons, attempt]
      split_ifs with hreached
      · refine (min_eq_left ?_).symm
        exact (hreached.trans (le_max_right _ _)).trans (le_best _ _ _)
      · refine ih (max_lt hab (not_le.mp hreached)) fun c' hc' a' ha' ↦ ?_
        exact hscore c' (List.mem_cons_of_mem _ hc') a' ((le_max_left _ _).trans ha')

/-- The loop with scores that may fail. -/
def tryAllChecked (score : C → S → Option S) (b : S) : List C → S → Option S
  | [], a => some a
  | c :: cs, a =>
      match score c a with
      | none => none
      | some found =>
          match attempt b a found with
          | .error result => some result
          | .ok a => tryAllChecked score b cs a

theorem le_tryAll {score : C → S → S} {b : S} {cs : List C} :
    ∀ {a : S}, a ≤ b → a ≤ tryAll score b cs a := by
  induction cs with
  | nil => exact fun _ ↦ le_rfl
  | cons c cs ih =>
      intro a hab
      rw [tryAll, attempt]
      split_ifs with hreached
      · exact hab
      · have hle : a ≤ max a (score c a) := le_max_left _ _
        exact hle.trans (ih (max_le hab (not_le.mp hreached).le))

theorem tryAllChecked_eq {scoreChecked : C → S → Option S} {score : C → S → S} {b : S}
    {cs : List C} :
    ∀ {a : S}, a < b →
      (∀ c ∈ cs, ∀ a', a ≤ a' → a' < b → scoreChecked c a' = some (score c a')) →
        tryAllChecked scoreChecked b cs a = some (tryAll score b cs a) := by
  induction cs with
  | nil => exact fun _ _ ↦ rfl
  | cons c cs ih =>
      intro a hab hscore
      have hfirst := hscore c List.mem_cons_self a le_rfl hab
      by_cases hreached : b ≤ score c a
      · simp only [tryAllChecked, hfirst, tryAll, attempt, if_pos hreached]
      · simp only [tryAllChecked, hfirst, tryAll, attempt, if_neg hreached]
        refine ih (max_lt hab (not_le.mp hreached)) fun c' hc' a' ha' ↦ ?_
        exact hscore c' (List.mem_cons_of_mem _ hc') a' ((le_max_left _ _).trans ha')

end Order

variable [AddCommGroup S] [LinearOrder S] (G : QuietGame P S)

/-! ## The value and the search -/

/-- What a position is worth: what it stands at once the game is over, and otherwise the
largest of that and of what the moves are worth. -/
structure IsValue (v : P → S) : Prop where
  ended : ∀ p, G.ended p = true → v p = G.stand p
  quiet : ∀ p, G.ended p = false →
    IsGreatest (insert (G.stand p) {s | ∃ q ∈ G.next p, s = -v q}) (v p)

/-- The value by recursion, with fuel for the longest line. -/
def value : ℕ → P → S
  | fuel, p =>
      if G.ended p then G.stand p
      else
        match fuel with
        | 0 => G.stand p
        | fuel + 1 => best (fun q ↦ -value fuel q) (G.stand p) (G.next p)

/-- The search inside the window from `a` to `b`. -/
def search : ℕ → P → S → S → S
  | fuel, p, a, b =>
      if G.ended p then G.stand p
      else if b ≤ G.stand p then b
      else
        match fuel with
        | 0 => max a (G.stand p)
        | fuel + 1 =>
            tryAll (fun q a ↦ -search fuel q (-b) (-a)) b (G.next p) (max a (G.stand p))

variable {G} {size : P → ℕ} {v : P → S}

theorem value_of_ended {p : P} (h : G.ended p = true) (fuel : ℕ) : G.value fuel p = G.stand p := by
  cases fuel <;> rw [value, if_pos h]

theorem value_zero (p : P) : G.value 0 p = G.stand p := by
  rw [value, ite_self]

theorem value_succ {p : P} (h : G.ended p = false) (fuel : ℕ) :
    G.value (fuel + 1) p = best (fun q ↦ -G.value fuel q) (G.stand p) (G.next p) := by
  rw [value, if_neg (by rw [h]; exact Bool.false_ne_true)]

/-- More fuel than the size of a position does not change its value. -/
theorem value_congr (hshrinks : G.Shrinks size) {n : ℕ} :
    ∀ {m : ℕ} {p : P}, size p ≤ n → size p ≤ m → G.value n p = G.value m p := by
  induction n with
  | zero =>
      intro m p hn hm
      cases hended : G.ended p with
      | true => rw [value_of_ended hended, value_of_ended hended]
      | false =>
          cases m with
          | zero => rfl
          | succ m =>
              rw [value_succ hended, next_eq_nil hshrinks hended hn, best_nil, value_zero]
  | succ n ih =>
      intro m p hn hm
      cases hended : G.ended p with
      | true => rw [value_of_ended hended, value_of_ended hended]
      | false =>
          cases m with
          | zero =>
              rw [value_succ hended, next_eq_nil hshrinks hended hm, best_nil, value_zero]
          | succ m =>
              rw [value_succ hended, value_succ hended]
              refine best_congr fun q hq ↦ ?_
              have hsmaller := hshrinks p hended q hq
              rw [ih (by omega) (by omega : size q ≤ m)]

/-- With fuel for the largest position the recursion computes the value. -/
theorem isValue_value (hshrinks : G.Shrinks size) {fuel : ℕ} (hfuel : ∀ p, size p ≤ fuel) :
    G.IsValue (G.value fuel) where
  ended := fun p hended ↦ value_of_ended hended fuel
  quiet := fun p hended ↦ by
    have hunfold : G.value fuel p = G.value (fuel + 1) p :=
      value_congr hshrinks (hfuel p) (Nat.le_succ_of_le (hfuel p))
    rw [hunfold, value_succ hended]
    exact isGreatest_best _ _ _

theorem IsValue.eq_best (hv : G.IsValue v) {p : P} (hended : G.ended p = false) :
    v p = best (fun q ↦ -v q) (G.stand p) (G.next p) :=
  (hv.quiet p hended).unique (isGreatest_best _ _ _)

theorem IsValue.stand_le (hv : G.IsValue v) (p : P) : G.stand p ≤ v p := by
  cases hended : G.ended p with
  | true => exact (hv.ended p hended).ge
  | false => exact (hv.quiet p hended).2 (Set.mem_insert _ _)

/-- A position has one value only. -/
theorem IsValue.unique (hshrinks : G.Shrinks size) {w : P → S} (hv : G.IsValue v)
    (hw : G.IsValue w) : ∀ {n : ℕ} {p : P}, size p ≤ n → v p = w p := by
  intro n
  induction n with
  | zero =>
      intro p hsize
      cases hended : G.ended p with
      | true => rw [hv.ended p hended, hw.ended p hended]
      | false =>
          rw [hv.eq_best hended, hw.eq_best hended, next_eq_nil hshrinks hended hsize]
          rfl
  | succ n ih =>
      intro p hsize
      cases hended : G.ended p with
      | true => rw [hv.ended p hended, hw.ended p hended]
      | false =>
          rw [hv.eq_best hended, hw.eq_best hended]
          refine best_congr fun q hq ↦ ?_
          have hsmaller := hshrinks p hended q hq
          rw [ih (by omega : size q ≤ n)]

/-- The order of the moves does not matter to the value. -/
theorem IsValue.of_next {H : QuietGame P S} (hended : H.ended = G.ended) (hstand : H.stand = G.stand)
    (hnext : ∀ p q, q ∈ H.next p ↔ q ∈ G.next p) (hv : G.IsValue v) : H.IsValue v where
  ended := fun p h ↦ by
    rw [hstand]
    exact hv.ended p (hended ▸ h)
  quiet := fun p h ↦ by
    simp only [hstand, hnext]
    exact hv.quiet p (hended ▸ h)

/-- A bound of what positions stand at bounds their values. -/
theorem IsValue.abs_le (hshrinks : G.Shrinks size) (hv : G.IsValue v) {bound : S}
    (hstand : ∀ p, |G.stand p| ≤ bound) : ∀ {n : ℕ} {p : P}, size p ≤ n → |v p| ≤ bound := by
  intro n
  induction n with
  | zero =>
      intro p hsize
      cases hended : G.ended p with
      | true =>
          rw [hv.ended p hended]
          exact hstand p
      | false =>
          rw [hv.eq_best hended, next_eq_nil hshrinks hended hsize]
          exact hstand p
  | succ n ih =>
      intro p hsize
      cases hended : G.ended p with
      | true =>
          rw [hv.ended p hended]
          exact hstand p
      | false =>
          rcases (hv.quiet p hended).1 with hvalue | ⟨q, hq, hvalue⟩
          · rw [hvalue]
            exact hstand p
          · have hsmaller := hshrinks p hended q hq
            rw [hvalue, abs_neg]
            exact ih (by omega)

section Ordered

variable [IsOrderedAddMonoid S]

/-- Seen from the other side a value is cut to the opposite window. -/
theorem clip_neg {a b x : S} (hab : a ≤ b) : clip a b (-x) = -clip (-b) (-a) x := by
  have hother : -clip (-b) (-a) x = min b (max a (-x)) := by
    rw [clip, ← min_neg_neg, ← max_neg_neg, neg_neg, neg_neg]
  rw [hother, clip, max_min_distrib_left, max_eq_right hab]

/-- The search returns the value of a game that is over, and otherwise the value cut to the
window. -/
theorem search_eq (hshrinks : G.Shrinks size) (hv : G.IsValue v) {fuel : ℕ} :
    ∀ {p : P} {a b : S}, size p ≤ fuel → a < b →
      G.search fuel p a b = if G.ended p then v p else clip a b (v p) := by
  induction fuel with
  | zero =>
      intro p a b hsize hab
      cases hended : G.ended p with
      | true => rw [search, if_pos hended, if_pos rfl, hv.ended p hended]
      | false =>
          have hvalue : v p = G.stand p := by
            rw [hv.eq_best hended, next_eq_nil hshrinks hended hsize, best_nil]
          rw [search, if_neg (by rw [hended]; exact Bool.false_ne_true), if_neg Bool.false_ne_true,
            hvalue]
          split_ifs with hreached
          · exact (clip_of_le hab.le hreached).symm
          · exact (clip_of_lt (not_le.mp hreached)).symm
  | succ fuel ih =>
      intro p a b hsize hab
      cases hended : G.ended p with
      | true => rw [search, if_pos hended, if_pos rfl, hv.ended p hended]
      | false =>
          rw [search, if_neg (by rw [hended]; exact Bool.false_ne_true), if_neg Bool.false_ne_true]
          split_ifs with hreached
          · exact (clip_of_le hab.le (hreached.trans (hv.stand_le p))).symm
          · have hstart : max a (G.stand p) < b := max_lt hab (not_le.mp hreached)
            have hscore : ∀ q ∈ G.next p, ∀ a', max a (G.stand p) ≤ a' → a' < b →
                clip a' b (-G.search fuel q (-b) (-a')) = clip a' b (-v q) := by
              intro q hq a' _ hab'
              have hsmaller := hshrinks p hended q hq
              rw [ih (by omega) (neg_lt_neg hab'), clip_neg hab'.le, clip_neg hab'.le]
              split_ifs
              · rfl
              · rw [clip_clip (neg_le_neg hab'.le)]
            rw [tryAll_eq hstart hscore, max_best, ← hv.eq_best hended, clip,
              max_min_distrib_left, max_eq_right hab.le]

/-- Inside the window the search and the value agree. -/
theorem clip_search (hshrinks : G.Shrinks size) (hv : G.IsValue v) {fuel : ℕ} {p : P} {a b : S}
    (hsize : size p ≤ fuel) (hab : a < b) :
    clip a b (G.search fuel p a b) = clip a b (v p) := by
  rw [search_eq hshrinks hv hsize hab]
  split_ifs
  · rfl
  · exact clip_clip hab.le

/-- A caller decides the same on the result of the search and on the value cut to the window. -/
theorem attempt_search (hshrinks : G.Shrinks size) (hv : G.IsValue v) {fuel : ℕ} {p : P} {a b : S}
    (hsize : size p ≤ fuel) (hab : a < b) :
    attempt (-a) (-b) (-G.search fuel p a b) = attempt (-a) (-b) (-clip a b (v p)) := by
  refine attempt_congr (neg_lt_neg hab) ?_
  rw [clip_neg (neg_le_neg hab.le), clip_neg (neg_le_neg hab.le)]
  simp only [neg_neg]
  rw [clip_search hshrinks hv hsize hab, clip_clip hab.le]

end Ordered

/-! ## Negation that may overflow -/

variable (G) in
/-- The search with a negation that may overflow; it fails as well where the fuel does not
suffice for a move. -/
def searchChecked (neg? : S → Option S) : ℕ → P → S → S → Option S
  | fuel, p, a, b =>
      if G.ended p then some (G.stand p)
      else if b ≤ G.stand p then some b
      else
        match fuel with
        | 0 => if (G.next p).isEmpty then some (max a (G.stand p)) else none
        | fuel + 1 =>
            tryAllChecked
              (fun q a ↦ do
                let low ← neg? b
                let high ← neg? a
                let found ← searchChecked neg? fuel q low high
                neg? found)
              b (G.next p) (max a (G.stand p))

variable (G) in
/-- The numbers from `lo` to `hi` of which only `lo` has no opposite, and positions that
stand strictly between the two. -/
structure FitsIn (neg? : S → Option S) (lo hi : S) : Prop where
  neg : ∀ x, lo < x → neg? x = some (-x)
  opposite : lo ≤ -hi
  above : ∀ p, lo < G.stand p
  below : ∀ p, -hi ≤ G.stand p

/-- What the search returns has an opposite. -/
theorem FitsIn.lt_search {neg? : S → Option S} {lo hi : S} (hfits : G.FitsIn neg? lo hi)
    (fuel : ℕ) (p : P) {a b : S} (ha : lo ≤ a) (hab : a < b) : lo < G.search fuel p a b := by
  have hstart : lo < max a (G.stand p) := (hfits.above p).trans_le (le_max_right _ _)
  cases fuel with
  | zero =>
      rw [search]
      split_ifs
      · exact hfits.above p
      · exact ha.trans_lt hab
      · exact hstart
  | succ fuel =>
      rw [search]
      split_ifs with hended hreached
      · exact hfits.above p
      · exact ha.trans_lt hab
      · exact hstart.trans_le (le_tryAll (max_le hab.le (not_le.mp hreached).le))

variable [IsOrderedAddMonoid S]

/-- Inside the numbers no negation overflows, and the fuel suffices. -/
theorem FitsIn.searchChecked_eq {neg? : S → Option S} {lo hi : S} (hfits : G.FitsIn neg? lo hi)
    (hshrinks : G.Shrinks size) {fuel : ℕ} :
    ∀ {p : P} {a b : S}, size p ≤ fuel → lo ≤ a → a < b → b ≤ hi →
      G.searchChecked neg? fuel p a b = some (G.search fuel p a b) := by
  induction fuel with
  | zero =>
      intro p a b hsize ha hab hb
      rw [searchChecked, search]
      split_ifs with hended hreached hnext
      · rfl
      · rfl
      · rfl
      · rw [next_eq_nil hshrinks (by simpa using hended) hsize] at hnext
        exact absurd List.isEmpty_nil hnext
  | succ fuel ih =>
      intro p a b hsize ha hab hb
      rw [searchChecked, search]
      split_ifs with hended hreached
      · rfl
      · rfl
      · refine tryAllChecked_eq (max_lt hab (not_le.mp hreached)) fun q hq a' ha' hab' ↦ ?_
        have hsmaller := hshrinks p (by simpa using hended) q hq
        have hstand : G.stand p ≤ a' := (le_max_right _ _).trans ha'
        have hlow : lo ≤ -b := hfits.opposite.trans (neg_le_neg hb)
        have hhigh : -a' ≤ hi := neg_le.mp ((hfits.below p).trans hstand)
        have hb' : neg? b = some (-b) := hfits.neg b (ha.trans_lt hab)
        have ha'' : neg? a' = some (-a') := hfits.neg a' ((hfits.above p).trans_le hstand)
        have hfound := @ih q _ _ (by omega) hlow (neg_lt_neg hab') hhigh
        have hneg := hfits.neg _ (hfits.lt_search fuel q hlow (neg_lt_neg hab'))
        simp only [hb', ha'', bind, Option.bind, hfound, hneg]

end QuietGame

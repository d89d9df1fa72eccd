import Mathlib.Data.List.Induction
import Mathlib.Data.List.Sort
import Mathlib.Data.List.Perm.Lattice

/-!
# Bounded samples of the best items

A heap of bounded size is offered items one by one.  A full heap gives up its least
item for one with a greater key, so of items with equal keys the earlier ones stay.
The keys that are kept do not depend on the order of the offers; the items do, unless
those tied at the cut all fit.
-/

namespace TopSample

variable {α κ : Type*} [LinearOrder κ] (key : α → κ) (limit : ℕ)

/-- `kept` are `limit` of the items, or all of them, with the greatest keys. -/
structure IsTop (items kept : List α) : Prop where
  length : kept.length = min limit items.length
  split : ∃ left, (kept ++ left).Perm items ∧ ∀ a ∈ left, ∀ b ∈ kept, key a ≤ key b

section Offers

variable [LinearOrder α]

/-- A heap, kept in increasing order, after one more offer. -/
def offer (heap : List α) (a : α) : List α :=
  if heap.length < limit then heap.orderedInsert (· ≤ ·) a
  else
    match heap with
    | [] => []
    | least :: rest => if key least < key a then rest.orderedInsert (· ≤ ·) a else least :: rest

/-- The heap after the items were offered in the order of the list. -/
def sample (items : List α) : List α := items.foldl (offer key limit) []

variable {key limit} {items heap : List α}

theorem offer_of_lt (h : heap.length < limit) (a : α) :
    offer key limit heap a = heap.orderedInsert (· ≤ ·) a := by
  rw [offer.eq_def, if_pos h]

theorem sorted_offer (h : heap.Pairwise (· ≤ ·)) (a : α) :
    (offer key limit heap a).Pairwise (· ≤ ·) := by
  rw [offer.eq_def]
  split_ifs with hlt
  · exact List.Pairwise.orderedInsert a heap h
  · cases heap with
    | nil => exact h
    | cons least rest =>
        simp only
        split_ifs with hkey
        · exact List.Pairwise.orderedInsert a rest h.of_cons
        · exact h

/-- An offer keeps the best of the items offered so far. -/
theorem isTop_offer (hkey : Monotone key) (hsorted : heap.Pairwise (· ≤ ·))
    (h : IsTop key limit items heap) (a : α) :
    IsTop key limit (items ++ [a]) (offer key limit heap a) := by
  obtain ⟨hlength, left, hperm, hbest⟩ := h
  have hcount : heap.length + left.length = items.length := by
    rw [← List.length_append, hperm.length_eq]
  have hgrown : (items ++ [a]).length = items.length + 1 := by simp
  by_cases hlt : heap.length < limit
  · rw [offer_of_lt hlt]
    have hnil : left = [] := by
      rw [← List.length_eq_zero_iff]
      omega
    subst hnil
    rw [List.append_nil] at hperm
    refine ⟨?_, [], ?_, by simp⟩
    · rw [List.orderedInsert_length]
      omega
    · rw [List.append_nil]
      exact (List.perm_orderedInsert _ a heap).trans
        ((hperm.cons a).trans (List.perm_append_singleton a items).symm)
  · rw [offer.eq_def, if_neg hlt]
    cases heap with
    | nil =>
        refine ⟨?_, items ++ [a], by simp, by simp⟩
        simp only [List.length_nil] at hlength hlt ⊢
        omega
    | cons least rest =>
        have hleast : ∀ b ∈ least :: rest, key least ≤ key b := by
          intro b hb
          rcases List.mem_cons.mp hb with rfl | hb
          · exact le_rfl
          · exact hkey ((List.pairwise_cons.mp hsorted).1 b hb)
        simp only
        split_ifs with hbetter
        · refine ⟨?_, least :: left, ?_, ?_⟩
          · rw [List.orderedInsert_length]
            simp only [List.length_cons] at hlength hlt
            omega
          · calc rest.orderedInsert (· ≤ ·) a ++ least :: left
                |>.Perm (a :: rest ++ least :: left) :=
                  (List.perm_orderedInsert _ a rest).append_right _
              _ |>.Perm (a :: (least :: rest ++ left)) := by
                  simp
              _ |>.Perm (items ++ [a]) :=
                  (hperm.cons a).trans (List.perm_append_singleton a items).symm
          · intro x hx b hb
            have hx' : key x ≤ key least := by
              rcases List.mem_cons.mp hx with rfl | hx
              · exact le_rfl
              · exact hbest x hx least List.mem_cons_self
            rcases List.mem_orderedInsert _ |>.mp hb with rfl | hb
            · exact hx'.trans hbetter.le
            · exact hx'.trans (hleast b (List.mem_cons_of_mem _ hb))
        · refine ⟨?_, left ++ [a], ?_, ?_⟩
          · omega
          · rw [← List.append_assoc]
            exact hperm.append_right _
          · intro x hx b hb
            rcases List.mem_append.mp hx with hx | hx
            · exact hbest x hx b hb
            · rw [List.mem_singleton] at hx
              rw [hx]
              exact (not_lt.mp hbetter).trans (hleast b hb)

/-- The sample keeps the best items. -/
theorem isTop_sample (hkey : Monotone key) (items : List α) :
    IsTop key limit items (sample key limit items) ∧
      (sample key limit items).Pairwise (· ≤ ·) := by
  induction items using List.reverseRecOn with
  | nil => exact ⟨⟨by simp [sample], [], by simp [sample], by simp⟩, List.Pairwise.nil⟩
  | append_singleton items a ih =>
      rw [sample, List.foldl_append]
      exact ⟨isTop_offer hkey ih.2 ih.1 a, sorted_offer ih.2 a⟩

end Offers

variable {key limit} {items items' kept kept' : List α}

theorem IsTop.perm (h : IsTop key limit items kept) (hperm : items.Perm items') :
    IsTop key limit items' kept := by
  obtain ⟨hlength, left, hsplit, hbest⟩ := h
  exact ⟨by rw [hlength, hperm.length_eq], left, hsplit.trans hperm, hbest⟩

theorem pairwise_keys {left : List α} (h : ∀ a ∈ left, ∀ b ∈ kept, key a ≤ key b) :
    ((kept.map key).insertionSort (· ≥ ·) ++
      (left.map key).insertionSort (· ≥ ·)).Pairwise (· ≥ ·) := by
  refine List.pairwise_append.mpr
    ⟨List.pairwise_insertionSort _ _, List.pairwise_insertionSort _ _, ?_⟩
  intro x hx y hy
  rw [List.mem_insertionSort, List.mem_map] at hx hy
  obtain ⟨b, hb, rfl⟩ := hx
  obtain ⟨a, ha, rfl⟩ := hy
  exact h a ha b hb

/-- Every choice of the best items has the same keys. -/
theorem IsTop.keys_perm (h : IsTop key limit items kept) (h' : IsTop key limit items kept') :
    (kept.map key).Perm (kept'.map key) := by
  obtain ⟨hlength, left, hperm, hbest⟩ := h
  obtain ⟨hlength', left', hperm', hbest'⟩ := h'
  have hsorted := pairwise_keys hbest
  have hsorted' := pairwise_keys hbest'
  have hsame : ((kept.map key).insertionSort (· ≥ ·) ++ (left.map key).insertionSort (· ≥ ·)).Perm
      ((kept'.map key).insertionSort (· ≥ ·) ++ (left'.map key).insertionSort (· ≥ ·)) := by
    refine ((List.perm_insertionSort _ _).append (List.perm_insertionSort _ _)).trans ?_
    refine List.Perm.trans ?_ ((List.perm_insertionSort _ _).append (List.perm_insertionSort _ _)).symm
    rw [← List.map_append, ← List.map_append]
    exact (hperm.trans hperm'.symm).map key
  have heq := hsame.eq_of_pairwise (fun a b _ _ hab hba ↦ le_antisymm hba hab) hsorted hsorted'
  have hkept := (List.append_inj heq (by simp [hlength, hlength'])).1
  calc (kept.map key).Perm ((kept.map key).insertionSort (· ≥ ·)) :=
        (List.perm_insertionSort _ _).symm
    _ = (kept'.map key).insertionSort (· ≥ ·) := hkept
    _ |>.Perm (kept'.map key) := List.perm_insertionSort _ _

/-- An item is kept when the items that are no worse all fit. -/
theorem IsTop.mem_of_count_le (h : IsTop key limit items kept) {a : α} (ha : a ∈ items)
    (hfits : (items.filter (key a ≤ key ·)).length ≤ limit) :
    a ∈ kept := by
  obtain ⟨hlength, left, hperm, hbest⟩ := h
  by_contra hkept
  have hleft : a ∈ left := by
    rcases List.mem_append.mp (hperm.mem_iff.mpr ha) with hmem | hmem
    · exact absurd hmem hkept
    · exact hmem
  have hall : kept.filter (key a ≤ key ·) = kept := by
    rw [List.filter_eq_self]
    intro b hb
    simpa using hbest a hleft b hb
  have hpos : 0 < (left.filter (key a ≤ key ·)).length := by
    refine List.length_pos_of_mem (a := a) ?_
    simp [hleft]
  have hcount : (items.filter (key a ≤ key ·)).length =
      kept.length + (left.filter (key a ≤ key ·)).length := by
    rw [← (hperm.filter _).length_eq, List.filter_append, hall, List.length_append]
  have hsum : kept.length + left.length = items.length := by
    rw [← List.length_append, hperm.length_eq]
  have hleftPos : 0 < left.length := List.length_pos_of_mem hleft
  omega

/-! ## Ties at the cut -/

/-- All the items fit, or those that reach some key are just as many as fit. -/
def TiesFit (key : α → κ) (limit : ℕ) (items : List α) : Prop :=
  items.length ≤ limit ∨ ∃ cut, (items.filter (cut ≤ key ·)).length = limit

/-- When the ties fit, there is only one choice of the best items. -/
theorem IsTop.perm_of_tiesFit (h : IsTop key limit items kept)
    (h' : IsTop key limit items kept') (hnodup : items.Nodup)
    (hfit : TiesFit key limit items) :
    kept.Perm kept' := by
  rcases hfit with hall | ⟨cut, hcut⟩
  · have hwhole : ∀ {chosen}, IsTop key limit items chosen → chosen.Perm items := by
      rintro chosen ⟨hlength, left, hperm, -⟩
      have hsum := hperm.length_eq
      rw [List.length_append] at hsum
      have hnil : left = [] := by
        rw [← List.length_eq_zero_iff]
        omega
      rwa [hnil, List.append_nil] at hperm
    exact (hwhole h).trans (hwhole h').symm
  · have habove : ∀ {chosen}, IsTop key limit items chosen →
        (items.filter (cut ≤ key ·)).Perm chosen := by
      intro chosen hchosen
      refine List.Subperm.perm_of_length_le ?_ ?_
      · refine List.subperm_of_subset (hnodup.filter _) ?_
        intro a ha
        obtain ⟨hmem, hkey⟩ := List.mem_filter.mp ha
        refine hchosen.mem_of_count_le hmem (le_trans ?_ hcut.le)
        refine (List.monotone_filter_right items ?_).length_le
        intro b hb
        simp only [decide_eq_true_eq] at hb hkey ⊢
        exact hkey.trans hb
      · rw [hcut, hchosen.length]
        exact min_le_left _ _
    exact (habove h).symm.trans (habove h')

theorem exists_split_at {n : ℕ} {l : List α} (h : n + 1 < l.length) :
    ∃ front a b back, l = front ++ a :: b :: back ∧ front.length = n := by
  refine ⟨l.take n, l[n], l[n + 1], l.drop (n + 2), ?_, by simp; omega⟩
  rw [List.getElem_cons_drop, List.getElem_cons_drop, List.take_append_drop]

section Offers

variable [LinearOrder α] {items : List α}

/-- Of items offered from the best to the worst, the first ones stay. -/
theorem sample_of_descending (hkey : Monotone key)
    (h : items.Pairwise fun a b ↦ key b ≤ key a) :
    (sample key limit items).Perm (items.take limit) := by
  induction items using List.reverseRecOn with
  | nil => simp [sample]
  | append_singleton items a ih =>
      obtain ⟨hitems, -, hlast⟩ := List.pairwise_append.mp h
      have hsample := ih hitems
      have hlength : (sample key limit items).length = _ := (isTop_sample hkey items).1.length
      rw [sample, List.foldl_append]
      change (offer key limit (sample key limit items) a).Perm _
      by_cases hlt : (sample key limit items).length < limit
      · rw [offer_of_lt hlt, List.take_of_length_le (by simp; omega)]
        rw [List.take_of_length_le (by omega)] at hsample
        exact (List.perm_orderedInsert _ a _).trans
          ((hsample.cons a).trans (List.perm_append_singleton a items).symm)
      · rw [List.take_append_of_le_length (by omega)]
        refine List.Perm.trans ?_ hsample
        rw [offer.eq_def, if_neg hlt]
        cases hheap : sample key limit items with
        | nil => exact List.Perm.refl _
        | cons least rest =>
            have hmem : least ∈ items :=
              List.mem_of_mem_take (hsample.subset (by rw [hheap]; exact List.mem_cons_self))
            simp only [if_neg (not_lt.mpr (hlast least hmem a (List.mem_singleton_self a)))]
            exact List.Perm.refl _

/-- The order of the offers does not matter exactly if the ties at the cut fit. -/
theorem sample_perm_iff (hkey : Monotone key) (hlimit : 0 < limit) (hnodup : items.Nodup) :
    (∀ l₁ l₂, l₁.Perm items → l₂.Perm items →
      (sample key limit l₁).Perm (sample key limit l₂)) ↔ TiesFit key limit items := by
  constructor
  · intro hsame
    by_contra hfit
    rw [TiesFit, not_or, not_le, not_exists] at hfit
    obtain ⟨hover, hcut⟩ := hfit
    obtain ⟨n, rfl⟩ := Nat.exists_eq_succ_of_ne_zero hlimit.ne'
    have hperm := List.perm_insertionSort (fun a b ↦ key b ≤ key a) items
    have hdescending : (items.insertionSort fun a b ↦ key b ≤ key a).Pairwise
        fun a b ↦ key b ≤ key a := by
      have := List.pairwise_insertionSort (fun a b ↦ key b ≤ key a) items
      exact this
    generalize items.insertionSort (fun a b ↦ key b ≤ key a) = sorted at hperm hdescending
    obtain ⟨front, a, b, back, rfl, hfront⟩ :=
      exists_split_at (n := n) (l := sorted) (by rw [hperm.length_eq]; omega)
    obtain ⟨hfrontSorted, hrest, hcross⟩ := List.pairwise_append.mp hdescending
    obtain ⟨ha, hbrest⟩ := List.pairwise_cons.mp hrest
    obtain ⟨hb, hback⟩ := List.pairwise_cons.mp hbrest
    have hab : key a = key b := by
      refine le_antisymm (not_lt.mp fun hlt ↦ hcut (key a) ?_) (ha b List.mem_cons_self)
      have hfrontAll : front.filter (key a ≤ key ·) = front := by
        rw [List.filter_eq_self]
        intro c hc
        simpa using hcross c hc a List.mem_cons_self
      have hbackNone : back.filter (key a ≤ key ·) = [] := by
        rw [List.filter_eq_nil_iff]
        intro c hc
        simpa using (hb c hc).trans_lt hlt
      rw [← (hperm.filter _).length_eq, List.filter_append, hfrontAll]
      simp [hbackNone, hlt, hfront]
    have hswapped : (front ++ b :: a :: back).Pairwise fun a b ↦ key b ≤ key a := by
      refine List.pairwise_append.mpr ⟨hfrontSorted, ?_, ?_⟩
      · refine List.pairwise_cons.mpr ⟨?_, List.pairwise_cons.mpr ⟨?_, hback⟩⟩
        · rintro c (_ | ⟨_, hc⟩)
          · exact hab.le
          · exact hb c hc
        · intro c hc
          rw [hab]
          exact hb c hc
      · intro c hc d hd
        refine hcross c hc d ?_
        simpa only [List.mem_cons, or_left_comm] using hd
    have hfirst : (sample key (n + 1) (front ++ a :: b :: back)).Perm _ :=
      sample_of_descending hkey hdescending
    have hsecond : (sample key (n + 1) (front ++ b :: a :: back)).Perm _ :=
      sample_of_descending hkey hswapped
    have hswap : (front ++ b :: a :: back).Perm items :=
      ((List.Perm.swap a b back).append_left front).trans hperm
    have htakes := hfirst.symm.trans ((hsame _ _ hperm hswap).trans hsecond)
    have hmem : a ∈ (front ++ b :: a :: back).take (n + 1) := by
      refine htakes.subset ?_
      rw [List.take_append, hfront]
      simp
    rw [List.take_append, hfront, List.take_of_length_le (by omega)] at hmem
    have hdistinct := hperm.nodup_iff.mpr hnodup
    simp only [List.nodup_append, List.nodup_cons, List.mem_cons] at hdistinct
    have hmem' : a ∈ front ∨ a = b := by simpa using hmem
    rcases hmem' with hfrontMem | heq
    · exact hdistinct.2.2 a hfrontMem a (Or.inl rfl) rfl
    · exact hdistinct.2.1.1 (Or.inl heq)
  · intro hfit l₁ l₂ h₁ h₂
    have htop₁ : IsTop key limit items (sample key limit l₁) := (isTop_sample hkey l₁).1.perm h₁
    have htop₂ : IsTop key limit items (sample key limit l₂) := (isTop_sample hkey l₂).1.perm h₂
    exact htop₁.perm_of_tiesFit htop₂ hnodup hfit

end Offers

end TopSample

import Mathlib

/-!
# Sorting by a key and finding a key

A bottom-up merge sort that keeps records with equal keys in their order, and a
binary search whose hit is widened to all the records of the key.
-/

namespace KeyedSort

universe u v

variable {α : Type u} {κ : Type v} [LinearOrder κ] (key : α → κ)

def keyLe (a b : α) : Bool := decide (key a ≤ key b)

def Sorted (l : List α) : Prop := l.Pairwise fun a b ↦ key a ≤ key b

def withKey (target : κ) (l : List α) : List α := l.filter fun a ↦ decide (key a = target)

/-! ## The sort -/

/-- One pass: the runs of `width` records are merged two by two. -/
def mergePass (width : ℕ) : ℕ → List α → List α
  | 0, l => l
  | fuel + 1, l =>
      let right := l.drop width
      (l.take width).merge (right.take width) (keyLe key) ++
        mergePass width fuel (right.drop width)

/-- Passes over runs of doubling width, until one run is left. -/
def sortFrom : ℕ → ℕ → List α → List α
  | 0, _, l => l
  | fuel + 1, width, l =>
      if width < l.length then sortFrom fuel (width * 2) (mergePass key width l.length l) else l

def sort (l : List α) : List α :=
  if l.length < 2 then l else sortFrom key l.length 1 l

/-- Every run of `width` records is sorted. -/
def RunsSorted (width : ℕ) (l : List α) : Prop :=
  ∀ i, Sorted key ((l.drop (i * width)).take width)

variable {key} {width fuel : ℕ} {l left right : List α} {target : κ}

theorem Sorted.nil : Sorted key [] := List.Pairwise.nil

theorem keyLe_iff (a b : α) : keyLe key a b = true ↔ key a ≤ key b := decide_eq_true_iff

theorem keyLe_trans (a b c : α) (hab : keyLe key a b) (hbc : keyLe key b c) : keyLe key a c :=
  (keyLe_iff a c).mpr (((keyLe_iff a b).mp hab).trans ((keyLe_iff b c).mp hbc))

theorem keyLe_total (a b : α) : keyLe key a b || keyLe key b a := by
  rw [Bool.or_eq_true, keyLe_iff, keyLe_iff]
  exact le_total _ _

theorem Sorted.merge (hleft : Sorted key left) (hright : Sorted key right) :
    Sorted key (left.merge right (keyLe key)) := by
  have hmerged := List.pairwise_merge keyLe_trans keyLe_total left right
    (hleft.imp fun h ↦ (keyLe_iff _ _).mpr h) (hright.imp fun h ↦ (keyLe_iff _ _).mpr h)
  exact hmerged.imp fun h ↦ (keyLe_iff _ _).mp h

theorem withKey_eq_nil (h : ∀ a ∈ l, key a ≠ target) : withKey key target l = [] :=
  List.filter_eq_nil_iff.mpr fun a ha ↦ by simpa only [decide_eq_true_eq] using h a ha

theorem withKey_append (l l' : List α) :
    withKey key target (l ++ l') = withKey key target l ++ withKey key target l' :=
  List.filter_append ..

theorem withKey_cons_of_ne {a : α} (h : key a ≠ target) (l : List α) :
    withKey key target (a :: l) = withKey key target l :=
  List.filter_cons_of_neg (by simpa only [decide_eq_true_eq] using h)

theorem withKey_cons_of_eq {a : α} (h : key a = target) (l : List α) :
    withKey key target (a :: l) = a :: withKey key target l :=
  List.filter_cons_of_pos (by simpa only [decide_eq_true_eq] using h)

/-- A merge takes the records of one key from the left run first. -/
theorem withKey_merge (hleft : Sorted key left) :
    withKey key target (left.merge right (keyLe key)) =
      withKey key target left ++ withKey key target right := by
  induction left generalizing right with
  | nil => rw [List.nil_merge]; rfl
  | cons a left ih =>
      obtain ⟨hhead, htail⟩ := List.pairwise_cons.mp hleft
      induction right with
      | nil => rw [List.merge_right]; exact (List.append_nil _).symm
      | cons b right ihright =>
          rw [List.cons_merge_cons]
          split_ifs with hle
          · by_cases ha : key a = target
            · rw [withKey_cons_of_eq ha, withKey_cons_of_eq ha, ih htail, List.cons_append]
            · rw [withKey_cons_of_ne ha, withKey_cons_of_ne ha, ih htail]
          · have hlt : key b < key a := not_le.mp fun h ↦ hle (decide_eq_true h)
            by_cases hb : key b = target
            · have hnone : withKey key target (a :: left) = [] := by
                refine withKey_eq_nil fun c hc ↦ ?_
                rcases List.mem_cons.mp hc with rfl | hc
                · exact fun heq ↦ hlt.ne (hb.trans heq.symm)
                · exact fun heq ↦ (hlt.trans_le (hhead c hc)).ne (hb.trans heq.symm)
              rw [withKey_cons_of_eq hb, ihright, hnone, withKey_cons_of_eq hb]
              rfl
            · rw [withKey_cons_of_ne hb, ihright, withKey_cons_of_ne hb]

/-! ## A pass -/

theorem RunsSorted.drop (h : RunsSorted key width l) (n : ℕ) :
    RunsSorted key width (l.drop (n * width)) := by
  intro i
  rw [List.drop_drop, ← add_mul]
  exact h (n + i)

theorem RunsSorted.first (h : RunsSorted key width l) : Sorted key (l.take width) := by
  simpa only [zero_mul, List.drop_zero] using h 0

theorem length_mergePass (width fuel : ℕ) (l : List α) :
    (mergePass key width fuel l).length = l.length := by
  induction fuel generalizing l with
  | zero => rfl
  | succ fuel ih =>
      simp only [mergePass, List.length_append, List.length_merge, List.length_take,
        List.length_drop, ih]
      omega

theorem withKey_mergePass (h : RunsSorted key width l) :
    withKey key target (mergePass key width fuel l) = withKey key target l := by
  induction fuel generalizing l with
  | zero => rfl
  | succ fuel ih =>
      have hright : RunsSorted key width (l.drop width) := by
        simpa only [one_mul] using h.drop 1
      have hrest : RunsSorted key width ((l.drop width).drop width) := by
        simpa only [one_mul] using hright.drop 1
      rw [mergePass, withKey_append, withKey_merge h.first, ih hrest, List.append_assoc,
        ← withKey_append, List.take_append_drop, ← withKey_append, List.take_append_drop]

theorem RunsSorted.mergePass (hwidth : 0 < width) (hfuel : l.length ≤ fuel)
    (h : RunsSorted key width l) :
    RunsSorted key (width * 2) (mergePass key width fuel l) := by
  induction fuel generalizing l with
  | zero =>
      intro i
      rw [KeyedSort.mergePass, List.length_eq_zero_iff.mp (Nat.le_zero.mp hfuel), List.drop_nil,
        List.take_nil]
      exact Sorted.nil
  | succ fuel ih =>
      have hright : RunsSorted key width (l.drop width) := by
        simpa only [one_mul] using h.drop 1
      have hrest : RunsSorted key width ((l.drop width).drop width) := by
        simpa only [one_mul] using hright.drop 1
      have hlength : ((l.drop width).drop width).length ≤ fuel := by
        simp only [List.length_drop]
        omega
      have hmerged : Sorted key ((l.take width).merge ((l.drop width).take width) (keyLe key)) :=
        h.first.merge hright.first
      have hruns := ih hlength hrest
      set merged := (l.take width).merge ((l.drop width).take width) (keyLe key) with hdef
      have hle : merged.length ≤ width * 2 := by
        simp only [hdef, List.length_merge, List.length_take, List.length_drop]
        omega
      rw [KeyedSort.mergePass, ← hdef]
      by_cases hfull : merged.length = width * 2
      · intro i
        cases i with
        | zero =>
            rw [zero_mul, List.drop_zero, List.take_left' hfull]
            exact hmerged
        | succ i =>
            rw [add_mul, one_mul, add_comm, ← List.drop_drop, List.drop_left' hfull]
            exact hruns i
      · have hnil : (l.drop width).drop width = [] := by
          apply List.eq_nil_of_length_eq_zero
          simp only [hdef, List.length_merge, List.length_take, List.length_drop] at hfull ⊢
          omega
        have hempty : KeyedSort.mergePass key width fuel ((l.drop width).drop width) = [] := by
          apply List.eq_nil_of_length_eq_zero
          rw [length_mergePass, hnil, List.length_nil]
        rw [hempty, List.append_nil]
        intro i
        exact (hmerged.sublist (List.drop_sublist _ _)).sublist (List.take_sublist _ _)

/-! ## The whole sort -/

theorem sortFrom_spec (hwidth : 0 < width) (hfuel : l.length ≤ fuel + width)
    (h : RunsSorted key width l) :
    Sorted key (sortFrom key fuel width l) ∧
      ∀ target, withKey key target (sortFrom key fuel width l) = withKey key target l := by
  induction fuel generalizing width l with
  | zero =>
      rw [Nat.zero_add] at hfuel
      have hsorted := h.first
      rw [List.take_of_length_le hfuel] at hsorted
      exact ⟨hsorted, fun _ ↦ rfl⟩
  | succ fuel ih =>
      rw [sortFrom]
      split_ifs with hlt
      · have hpass := h.mergePass hwidth (le_refl l.length)
        have hlength : (mergePass key width l.length l).length ≤ fuel + width * 2 := by
          rw [length_mergePass]
          omega
        obtain ⟨hsorted, hkeys⟩ := ih (Nat.mul_pos hwidth two_pos) hlength hpass
        exact ⟨hsorted, fun target ↦ (hkeys target).trans (withKey_mergePass h)⟩
      · have hsorted := h.first
        rw [List.take_of_length_le (not_lt.mp hlt)] at hsorted
        exact ⟨hsorted, fun _ ↦ rfl⟩

theorem sorted_of_length_le_one (h : l.length ≤ 1) : Sorted key l := by
  cases l with
  | nil => exact Sorted.nil
  | cons a l =>
      have hnil : l = [] := List.eq_nil_of_length_eq_zero (by simpa using h)
      rw [hnil]
      exact List.pairwise_singleton _ a

theorem sort_spec (l : List α) :
    Sorted key (sort key l) ∧ ∀ target, withKey key target (sort key l) = withKey key target l := by
  rw [sort]
  split_ifs with hshort
  · exact ⟨sorted_of_length_le_one (Nat.lt_succ_iff.mp hshort), fun _ ↦ rfl⟩
  · refine sortFrom_spec Nat.one_pos (Nat.le_succ _) fun i ↦ ?_
    exact sorted_of_length_le_one (List.length_take_le _ _)

theorem sorted_sort (key : α → κ) (l : List α) : Sorted key (sort key l) := (sort_spec l).1

theorem withKey_sort (key : α → κ) (target : κ) (l : List α) :
    withKey key target (sort key l) = withKey key target l :=
  (sort_spec l).2 target

/-! ## The stable sort of the standard library -/

def sortByKey (key : α → κ) (l : List α) : List α := l.mergeSort (keyLe key)

theorem sorted_sortByKey (key : α → κ) (l : List α) : Sorted key (sortByKey key l) :=
  (List.pairwise_mergeSort keyLe_trans keyLe_total l).imp fun h ↦ (keyLe_iff _ _).mp h

theorem withKey_sortByKey (key : α → κ) (target : κ) (l : List α) :
    withKey key target (sortByKey key l) = withKey key target l := by
  have hkey : ∀ a ∈ withKey key target l, key a = target :=
    fun a ha ↦ of_decide_eq_true (List.mem_filter.mp ha).2
  have hequal : (withKey key target l).Pairwise fun a b ↦ keyLe key a b :=
    List.pairwise_of_forall_mem_list fun a ha b hb ↦
      (keyLe_iff a b).mpr ((hkey a ha).trans (hkey b hb).symm).le
  have hsublist : (withKey key target l).Sublist (sortByKey key l) :=
    List.sublist_mergeSort keyLe_trans keyLe_total hequal List.filter_sublist
  have hself : withKey key target (withKey key target l) = withKey key target l :=
    List.filter_eq_self.mpr fun a ha ↦ decide_eq_true (hkey a ha)
  have hfiltered : (withKey key target l).Sublist (withKey key target (sortByKey key l)) := by
    have h := hsublist.filter fun a ↦ decide (key a = target)
    exact hself ▸ h
  have hlength : (withKey key target l).length = (withKey key target (sortByKey key l)).length :=
    ((List.mergeSort_perm l (keyLe key)).filter _).length_eq.symm
  exact (hfiltered.eq_of_length hlength).symm

/-! ## The records of a key -/

variable (key)

/-- The binary search between `base` and `base + size`. -/
def searchFrom (l : List α) (target : κ) : ℕ → ℕ → ℕ → ℕ
  | 0, base, _ => base
  | fuel + 1, base, size =>
      if 1 < size then
        let half := size / 2
        let greater := (l[base + half]?).any fun a ↦ decide (target < key a)
        searchFrom l target fuel (if greater then base else base + half) (size - half)
      else base

def binarySearchByKey (l : List α) (target : κ) : Option ℕ :=
  let base := searchFrom key l target l.length 0 l.length
  if (l[base]?).map key = some target then some base else none

/-- The first index of the run of equal keys that ends before `index`. -/
def runStart (l : List α) (target : κ) : ℕ → ℕ
  | 0 => 0
  | index + 1 =>
      if (l[index]?).map key = some target then runStart l target index else index + 1

def equalRun (l : List α) (target : κ) : List α :=
  match binarySearchByKey key l target with
  | none => []
  | some index =>
      (l.drop (runStart key l target index)).takeWhile fun a ↦ decide (key a = target)

variable {key} {index base size : ℕ}

theorem Sorted.le_of_le (h : Sorted key l) {i j : ℕ} {a b : α} (hij : i ≤ j)
    (ha : l[i]? = some a) (hb : l[j]? = some b) :
    key a ≤ key b := by
  obtain ⟨hi, rfl⟩ := List.getElem?_eq_some_iff.mp ha
  obtain ⟨hj, rfl⟩ := List.getElem?_eq_some_iff.mp hb
  rcases hij.eq_or_lt with rfl | hlt
  · exact le_rfl
  · exact List.pairwise_iff_getElem.mp h i j hi hj hlt

/-- The index found is the last one whose key is at most the target, or the first. -/
theorem searchFrom_spec (hl : Sorted key l) (hfuel : size ≤ fuel + 1) (hsize : 0 < size)
    (hbase : base + size ≤ l.length)
    (hlow : base = 0 ∨ ∀ a, l[base]? = some a → key a ≤ target)
    (hhigh : ∀ j a, base + size ≤ j → l[j]? = some a → target < key a) :
    searchFrom key l target fuel base size < l.length ∧
      (searchFrom key l target fuel base size = 0 ∨
        ∀ a, l[searchFrom key l target fuel base size]? = some a → key a ≤ target) ∧
      ∀ j a, searchFrom key l target fuel base size < j → l[j]? = some a → target < key a := by
  induction fuel generalizing base size with
  | zero =>
      have hone : size = 1 := by omega
      subst hone
      exact ⟨hbase, hlow, fun j a hj ha ↦ hhigh j a hj ha⟩
  | succ fuel ih =>
      rw [searchFrom]
      split_ifs with hlarge
      · dsimp only
        by_cases hgreater : ∃ a, l[base + size / 2]? = some a ∧ target < key a
        · obtain ⟨a, ha, hlt⟩ := hgreater
          rw [ha, Option.any_some, decide_eq_true hlt, if_pos rfl]
          refine ih (by omega) (by omega) (by omega) hlow fun j b hj hb ↦ ?_
          exact hlt.trans_le (hl.le_of_le (by omega) ha hb)
        · have hle : ∀ a, l[base + size / 2]? = some a → key a ≤ target :=
            fun a ha ↦ not_lt.mp fun hlt ↦ hgreater ⟨a, ha, hlt⟩
          have hnot : ¬((l[base + size / 2]?).any fun a ↦ decide (target < key a)) = true := by
            intro hany
            obtain ⟨a, ha, hlt⟩ := (Option.any_eq_true _ _).mp hany
            exact hgreater ⟨a, ha, of_decide_eq_true hlt⟩
          rw [if_neg hnot]
          refine ih (by omega) (by omega) (by omega) (.inr hle) fun j b hj hb ↦ ?_
          exact hhigh j b (by omega) hb
      · have hone : size = 1 := by omega
        subst hone
        exact ⟨hbase, hlow, fun j a hj ha ↦ hhigh j a hj ha⟩

theorem key_of_binarySearchByKey (h : binarySearchByKey key l target = some index) :
    (l[index]?).map key = some target := by
  rw [binarySearchByKey] at h
  split_ifs at h with hfound
  cases h
  exact hfound

theorem exists_binarySearchByKey (hl : Sorted key l) {a : α} (ha : a ∈ l) :
    ∃ index, binarySearchByKey key l (key a) = some index := by
  obtain ⟨i, hi, hget⟩ := List.mem_iff_getElem.mp ha
  have ha : l[i]? = some a := List.getElem?_eq_some_iff.mpr ⟨hi, hget⟩
  have hpos : 0 < l.length := Nat.zero_lt_of_lt hi
  have hnone : ∀ j b, 0 + l.length ≤ j → l[j]? = some b → key a < key b := by
    intro j b hj hb
    obtain ⟨hlt, -⟩ := List.getElem?_eq_some_iff.mp hb
    omega
  obtain ⟨hbound, hlow, hhigh⟩ := searchFrom_spec hl (Nat.le_succ _) hpos
    (Nat.zero_add _).le (.inl rfl) hnone
  set base := searchFrom key l (key a) l.length 0 l.length with hbase
  have hle : i ≤ base := by
    by_contra hlt
    exact lt_irrefl _ (hhigh i a (not_le.mp hlt) ha)
  have hb : l[base]? = some l[base] := List.getElem?_eq_getElem hbound
  have hfound : (l[base]?).map key = some (key a) := by
    rcases hlow with hzero | hlow
    · have hi0 : i = base := by omega
      rw [← hi0, ha, Option.map_some]
    · rw [hb, Option.map_some]
      exact congrArg some (le_antisymm (hlow _ hb) (hl.le_of_le hle ha hb))
  refine ⟨base, ?_⟩
  rw [binarySearchByKey, ← hbase]
  exact if_pos hfound

theorem runStart_spec (h : (l[index]?).map key = some target) :
    runStart key l target index ≤ index ∧
      (l[runStart key l target index]?).map key = some target ∧
      (runStart key l target index = 0 ∨
        (l[runStart key l target index - 1]?).map key ≠ some target) := by
  induction index with
  | zero => exact ⟨le_rfl, h, .inl rfl⟩
  | succ index ih =>
      rw [runStart]
      split_ifs with hprev
      · obtain ⟨hle, hkey, hfirst⟩ := ih hprev
        exact ⟨hle.trans (Nat.le_succ _), hkey, hfirst⟩
      · exact ⟨le_rfl, h, .inr hprev⟩

/-- In a sorted list that starts at a key, the records of the key come first. -/
theorem takeWhile_eq_withKey (hl : Sorted key l) (h : ∀ a ∈ l, target ≤ key a) :
    l.takeWhile (fun a ↦ decide (key a = target)) = withKey key target l := by
  induction l with
  | nil => rfl
  | cons a l ih =>
      obtain ⟨hhead, htail⟩ := List.pairwise_cons.mp hl
      by_cases ha : key a = target
      · have htake := ih htail fun b hb ↦ h b (List.mem_cons_of_mem a hb)
        rw [withKey_cons_of_eq ha, ← htake]
        exact List.takeWhile_cons_of_pos (by simpa using ha)
      · have hlt : target < key a := lt_of_le_of_ne (h a List.mem_cons_self) (Ne.symm ha)
        rw [withKey_cons_of_ne ha, List.takeWhile_cons_of_neg (by simpa using ha)]
        exact (withKey_eq_nil fun b hb ↦ (hlt.trans_le (hhead b hb)).ne').symm

theorem equalRun_eq_withKey (hl : Sorted key l) (target : κ) :
    equalRun key l target = withKey key target l := by
  rw [equalRun]
  cases hsearch : binarySearchByKey key l target with
  | none =>
      refine (withKey_eq_nil fun a ha hkey ↦ ?_).symm
      obtain ⟨index, hindex⟩ := exists_binarySearchByKey hl ha
      rw [hkey, hsearch] at hindex
      cases hindex
  | some index =>
      obtain ⟨-, hstart, hfirst⟩ := runStart_spec (key_of_binarySearchByKey hsearch)
      set start := runStart key l target index
      obtain ⟨a, ha, hkey⟩ := Option.map_eq_some_iff.mp hstart
      have hbefore : withKey key target (l.take start) = [] := by
        refine withKey_eq_nil fun b hmem ↦ ?_
        obtain ⟨j, hj⟩ := List.mem_iff_getElem?.mp hmem
        rw [List.getElem?_take] at hj
        split_ifs at hj with hlt
        rcases hfirst with hzero | hfirst
        · omega
        · have hprev : start - 1 < l.length := by
            obtain ⟨hstart', -⟩ := List.getElem?_eq_some_iff.mp ha
            omega
          have hc : l[start - 1]? = some l[start - 1] := List.getElem?_eq_getElem hprev
          have hne : key l[start - 1] ≠ target := by
            intro heq
            rw [hc, Option.map_some, heq] at hfirst
            exact hfirst rfl
          have hle : key l[start - 1] ≤ target := hkey ▸ hl.le_of_le (Nat.sub_le _ _) hc ha
          have hb : key b ≤ key l[start - 1] := hl.le_of_le (by omega) hj hc
          exact (hb.trans_lt (lt_of_le_of_ne hle hne)).ne
      have hafter : ∀ b ∈ l.drop start, target ≤ key b := by
        intro b hb
        obtain ⟨j, hj⟩ := List.mem_iff_getElem?.mp hb
        rw [List.getElem?_drop] at hj
        exact hkey ▸ hl.le_of_le (Nat.le_add_right _ _) ha hj
      dsimp only
      rw [takeWhile_eq_withKey (hl.sublist (List.drop_sublist _ _)) hafter]
      calc withKey key target (l.drop start)
          = withKey key target (l.take start) ++ withKey key target (l.drop start) := by
            rw [hbefore, List.nil_append]
        _ = withKey key target l := by rw [← withKey_append, List.take_append_drop]

end KeyedSort

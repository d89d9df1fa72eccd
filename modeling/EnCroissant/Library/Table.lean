import Mathlib

/-!
# Tables with a capacity

Association lists as tables: the entries that fail a test go, and the entries of
least rank go until there is room for one more.
-/

namespace AList

universe u v w

variable {α : Type u} {β : α → Type v}

def size (table : AList β) : ℕ := table.entries.length

def retain (keep : ∀ a, β a → Bool) (table : AList β) : AList β :=
  ⟨table.entries.filter fun entry ↦ keep entry.1 entry.2,
    table.nodupKeys.sublist List.filter_sublist⟩

def mapValues (f : ∀ a, β a → β a) (table : AList β) : AList β :=
  ⟨table.entries.map (Sigma.map id f), List.NodupKeys.map₂ f _ table.nodupKeys⟩

def filterMapValues {γ : α → Type w} (f : ∀ a, β a → Option (γ a)) (table : AList β) : AList γ :=
  ⟨table.entries.filterMap fun entry ↦ (f entry.1 entry.2).map (Sigma.mk entry.1), by
    have hkeys : ((table.entries.filterMap fun entry ↦
        (f entry.1 entry.2).map (Sigma.mk entry.1)).map Sigma.fst).Sublist
          (table.entries.map Sigma.fst) := by
      induction table.entries with
      | nil => exact List.Sublist.refl _
      | cons entry entries ih =>
          rw [List.filterMap_cons]
          cases f entry.1 entry.2 with
          | none => exact ih.cons _
          | some c => exact ih.cons_cons _
    exact List.Nodup.sublist hkeys table.nodupKeys⟩

theorem size_mapValues (f : ∀ a, β a → β a) (table : AList β) :
    (table.mapValues f).size = table.size :=
  List.length_map ..

theorem size_retain_le (keep : ∀ a, β a → Bool) (table : AList β) :
    (table.retain keep).size ≤ table.size :=
  List.length_filter_le _ _

section

variable {ρ : Type w} [LinearOrder ρ]

def leastKey (rank : ∀ a, β a → ρ) (table : AList β) : Option α :=
  (table.entries.argmin fun entry ↦ rank entry.1 entry.2).map Sigma.fst

variable {rank : ∀ a, β a → ρ} {table : AList β} {a : α}

theorem leastKey_mem (h : table.leastKey rank = some a) : a ∈ table := by
  obtain ⟨entry, hentry, rfl⟩ := Option.map_eq_some_iff.mp h
  exact List.mem_keys_of_mem (List.argmin_mem hentry)

theorem leastKey_eq_none (h : table.leastKey rank = none) : table.size = 0 := by
  have hentries : table.entries = [] := List.argmin_eq_none.mp (Option.map_eq_none_iff.mp h)
  rw [size, hentries, List.length_nil]

end

variable [DecidableEq α] {table : AList β} {a a' : α} {b : β a}

/-! ## Entries that fail a test -/

theorem lookup_retain {keep : ∀ a, β a → Bool} :
    (table.retain keep).lookup a = some b ↔ table.lookup a = some b ∧ keep a b := by
  rw [← Option.mem_def, ← Option.mem_def, mem_lookup_iff, mem_lookup_iff]
  exact List.mem_filter

theorem lookup_mapValues {f : ∀ a, β a → β a} {c : β a} :
    (table.mapValues f).lookup a = some c ↔ ∃ b, table.lookup a = some b ∧ f a b = c := by
  rw [← Option.mem_def, mem_lookup_iff]
  constructor
  · intro h
    obtain ⟨⟨key, value⟩, hmem, heq⟩ := List.mem_map.mp h
    obtain ⟨rfl, hvalue⟩ := Sigma.mk.inj heq
    exact ⟨value, mem_lookup_iff.mpr hmem, eq_of_heq hvalue⟩
  · rintro ⟨b, hb, rfl⟩
    exact List.mem_map.mpr ⟨⟨a, b⟩, mem_lookup_iff.mp hb, rfl⟩

theorem lookup_filterMapValues {γ : α → Type w} {f : ∀ a, β a → Option (γ a)} :
    (table.filterMapValues f).lookup a = (table.lookup a).bind (f a) := by
  ext c
  rw [← Option.mem_def, mem_lookup_iff, Option.bind_eq_some_iff]
  constructor
  · intro h
    obtain ⟨⟨key, value⟩, hmem, heq⟩ := List.mem_filterMap.mp h
    obtain ⟨c', hc', heq⟩ := Option.map_eq_some_iff.mp heq
    obtain ⟨rfl, hvalue⟩ := Sigma.mk.inj heq
    obtain rfl := eq_of_heq hvalue
    exact ⟨value, mem_lookup_iff.mpr hmem, hc'⟩
  · rintro ⟨b, hb, hc⟩
    exact List.mem_filterMap.mpr ⟨⟨a, b⟩, mem_lookup_iff.mp hb, by rw [hc]; rfl⟩

/-! ## Sizes -/

theorem size_erase (h : a ∈ table) : (table.erase a).size + 1 = table.size := by
  have hkeys : ∀ t : AList β, t.size = t.keys.length := fun t ↦ (List.length_map ..).symm
  rw [hkeys, hkeys, keys_erase, List.length_erase_of_mem h]
  exact Nat.sub_add_cancel (List.length_pos_of_mem h)

theorem erase_of_notMem (h : a ∉ table) : table.erase a = table :=
  ext (List.kerase_of_notMem_keys h)

theorem size_erase_le (a : α) (table : AList β) : (table.erase a).size ≤ table.size := by
  by_cases h : a ∈ table
  · exact (size_erase h).le.trans' (Nat.le_succ _)
  · rw [erase_of_notMem h]

theorem size_insert (a : α) (b : β a) (table : AList β) :
    (table.insert a b).size = (table.erase a).size + 1 := by
  rw [size, entries_insert, List.length_cons]
  rfl

theorem size_insert_of_mem (h : a ∈ table) (b : β a) : (table.insert a b).size = table.size :=
  (size_insert a b table).trans (size_erase h)

theorem size_insert_of_notMem (h : a ∉ table) (b : β a) :
    (table.insert a b).size = table.size + 1 := by
  rw [size_insert, erase_of_notMem h]

theorem mem_of_lookup (h : table.lookup a = some b) : a ∈ table :=
  lookup_isSome.mp (Option.isSome_iff_exists.mpr ⟨b, h⟩)

theorem lookup_of_erase (h : (table.erase a').lookup a = some b) :
    a ≠ a' ∧ table.lookup a = some b := by
  have hne : a ≠ a' := by
    rintro rfl
    rw [lookup_erase] at h
    cases h
  exact ⟨hne, (lookup_erase_ne hne).symm.trans h⟩

/-! ## The keys whose entries pass a test -/

def keysWith (p : (Σ a, β a) → Bool) (table : AList β) : Finset α :=
  ((table.entries.filter p).map Sigma.fst).toFinset

theorem mem_keysWith {p : (Σ a, β a) → Bool} :
    a ∈ table.keysWith p ↔ ∃ b, table.lookup a = some b ∧ p ⟨a, b⟩ := by
  rw [keysWith, List.mem_toFinset, List.mem_map]
  constructor
  · rintro ⟨⟨key, value⟩, hmem, rfl⟩
    obtain ⟨hentry, hp⟩ := List.mem_filter.mp hmem
    exact ⟨value, mem_lookup_iff.mpr hentry, hp⟩
  · rintro ⟨b, hb, hp⟩
    exact ⟨⟨a, b⟩, List.mem_filter.mpr ⟨mem_lookup_iff.mp hb, hp⟩, rfl⟩

theorem card_keysWith (p : (Σ a, β a) → Bool) (table : AList β) :
    (table.keysWith p).card = (table.entries.filter p).length := by
  have hnodup : ((table.entries.filter p).map Sigma.fst).Nodup :=
    table.nodupKeys.sublist List.filter_sublist
  rw [keysWith, List.toFinset_card_of_nodup hnodup, List.length_map]

/-! ## Eviction -/

section

variable {ρ : Type w} [LinearOrder ρ]

/-- While the table is full, the entry of least rank goes. -/
def evictTo (capacity : ℕ) (rank : ∀ a, β a → ρ) : ℕ → AList β → AList β
  | 0, table => table
  | fuel + 1, table =>
      if capacity ≤ table.size then
        match table.leastKey rank with
        | some a => evictTo capacity rank fuel (table.erase a)
        | none => table
      else table

def evict (capacity : ℕ) (rank : ∀ a, β a → ρ) (table : AList β) : AList β :=
  evictTo capacity rank table.size table

variable {rank : ∀ a, β a → ρ} {capacity fuel : ℕ}

theorem lookup_of_evictTo (h : (evictTo capacity rank fuel table).lookup a = some b) :
    table.lookup a = some b := by
  induction fuel generalizing table with
  | zero => exact h
  | succ fuel ih =>
      rw [evictTo] at h
      split_ifs at h with hfull
      · cases hleast : table.leastKey rank with
        | none => rwa [hleast] at h
        | some least =>
            rw [hleast] at h
            exact (lookup_of_erase (ih h)).2
      · exact h

theorem lookup_of_evict (h : (table.evict capacity rank).lookup a = some b) :
    table.lookup a = some b :=
  lookup_of_evictTo h

theorem size_evictTo_le : (evictTo capacity rank fuel table).size ≤ table.size := by
  induction fuel generalizing table with
  | zero => exact le_rfl
  | succ fuel ih =>
      rw [evictTo]
      split_ifs
      · cases table.leastKey rank with
        | none => exact le_rfl
        | some least => exact ih.trans (size_erase_le least table)
      · exact le_rfl

theorem size_evict_le : (table.evict capacity rank).size ≤ table.size := size_evictTo_le

theorem size_evictTo_lt (hcapacity : 0 < capacity) (hfuel : table.size ≤ fuel) :
    (evictTo capacity rank fuel table).size < capacity := by
  induction fuel generalizing table with
  | zero => exact hfuel.trans_lt hcapacity
  | succ fuel ih =>
      rw [evictTo]
      split_ifs with hfull
      · cases hleast : table.leastKey rank with
        | none => exact (leastKey_eq_none hleast).trans_lt hcapacity
        | some least =>
            have hsize := size_erase (leastKey_mem hleast)
            exact ih (by omega)
      · exact not_le.mp hfull

theorem size_evict_lt (hcapacity : 0 < capacity) : (table.evict capacity rank).size < capacity :=
  size_evictTo_lt hcapacity le_rfl

end

end AList

import Mathlib

/-!
# A bounded cache

A table of values and the order in which its keys were last used.  An insert
evicts the oldest keys until the table fits its capacity.
-/

structure BoundedCache (K V : Type*) where
  values : List (K × V)
  newestLast : List K

namespace BoundedCache

variable {K V : Type*} [DecidableEq K]

def empty : BoundedCache K V := ⟨[], []⟩

def find (cache : BoundedCache K V) (key : K) : Option V :=
  (cache.values.find? fun entry ↦ entry.1 = key).map Prod.snd

def touch (key : K) (order : List K) : List K := order.erase key ++ [key]

def get (cache : BoundedCache K V) (key : K) : Option (V × BoundedCache K V) :=
  (cache.find key).map fun value ↦ (value, { cache with newestLast := touch key cache.newestLast })

def removeKey (key : K) (values : List (K × V)) : List (K × V) :=
  values.filter fun entry ↦ entry.1 ≠ key

/-- The oldest keys go until the table fits; there is no way on when no key is left. -/
def evictOver (capacity : ℕ) (values : List (K × V)) : List K → Option (BoundedCache K V)
  | [] => if values.length ≤ capacity then some ⟨values, []⟩ else none
  | oldest :: order =>
      if values.length ≤ capacity then some ⟨values, oldest :: order⟩
      else evictOver capacity (removeKey oldest values) order

def insert (cache : BoundedCache K V) (key : K) (value : V) (capacity : ℕ) :
    Option (BoundedCache K V) :=
  evictOver capacity ((key, value) :: removeKey key cache.values) (touch key cache.newestLast)

def retain (cache : BoundedCache K V) (predicate : K → V → Bool) : BoundedCache K V :=
  let values := cache.values.filter fun entry ↦ predicate entry.1 entry.2
  ⟨values, cache.newestLast.filter fun key ↦ key ∈ values.map Prod.fst⟩

/-- Every key of the table is in the order, and once in the table. -/
structure Tracked (cache : BoundedCache K V) : Prop where
  nodup : (cache.values.map Prod.fst).Nodup
  order : ∀ entry ∈ cache.values, entry.1 ∈ cache.newestLast

variable {cache next : BoundedCache K V} {key : K} {value : V} {capacity : ℕ}

omit [DecidableEq K] in
theorem tracked_empty : (empty : BoundedCache K V).Tracked :=
  ⟨List.nodup_nil, fun _ h ↦ absurd h List.not_mem_nil⟩

theorem mem_touch {other : K} {order : List K} :
    other ∈ touch key order ↔ other = key ∨ other ∈ order := by
  rw [touch, List.mem_append, List.mem_singleton]
  by_cases hsame : other = key
  · simp [hsame]
  · simp [hsame, List.mem_erase_of_ne hsame]

theorem mem_of_find (h : cache.find key = some value) : (key, value) ∈ cache.values := by
  obtain ⟨⟨found, _⟩, hfind, rfl⟩ := Option.map_eq_some_iff.mp h
  have hkey : found = key := by simpa using List.find?_some hfind
  rw [← hkey]
  exact List.mem_of_find?_eq_some hfind

theorem Tracked.find_eq (h : cache.Tracked) (hmem : (key, value) ∈ cache.values) :
    cache.find key = some value := by
  cases hfind : cache.values.find? fun entry ↦ entry.1 = key with
  | none =>
      have hnone := List.find?_eq_none.mp hfind _ hmem
      simp at hnone
  | some found =>
      have hfound : found.1 = key := by simpa using List.find?_some hfind
      have hsame := List.inj_on_of_nodup_map h.nodup (List.mem_of_find?_eq_some hfind) hmem hfound
      rw [find, hfind, hsame]
      rfl

theorem Tracked.get (h : cache.Tracked) (hget : cache.get key = some (value, next)) :
    next.Tracked ∧ next.values = cache.values := by
  obtain ⟨found, -, heq⟩ := Option.map_eq_some_iff.mp hget
  obtain ⟨-, rfl⟩ := Prod.mk.inj heq
  exact ⟨⟨h.nodup, fun entry hentry ↦ mem_touch.mpr (Or.inr (h.order entry hentry))⟩, rfl⟩

theorem Tracked.retain (h : cache.Tracked) (predicate : K → V → Bool) :
    (cache.retain predicate).Tracked := by
  refine ⟨h.nodup.sublist (List.filter_sublist.map _), ?_⟩
  intro entry hentry
  refine List.mem_filter.mpr ⟨h.order entry (List.mem_of_mem_filter hentry), ?_⟩
  exact decide_eq_true (List.mem_map_of_mem hentry)

theorem tracked_removeKey {values : List (K × V)} {order : List K}
    (h : Tracked ⟨values, key :: order⟩) :
    Tracked ⟨removeKey key values, order⟩ := by
  refine ⟨h.nodup.sublist (List.filter_sublist.map _), ?_⟩
  intro entry hentry
  obtain ⟨hmem, hne⟩ := List.mem_filter.mp hentry
  exact List.mem_of_ne_of_mem (of_decide_eq_true hne) (h.order entry hmem)

/-- An eviction ends, fits, and keeps only what was there. -/
theorem evictOver_spec {values : List (K × V)} {order : List K} (h : Tracked ⟨values, order⟩)
    (capacity : ℕ) :
    ∃ next, evictOver capacity values order = some next ∧ next.Tracked ∧
      next.values.length ≤ capacity ∧ ∀ entry ∈ next.values, entry ∈ values := by
  induction order generalizing values with
  | nil =>
      have hnil : values = [] :=
        List.eq_nil_iff_forall_not_mem.mpr fun entry hentry ↦
          absurd (h.order entry hentry) List.not_mem_nil
      subst hnil
      exact ⟨⟨[], []⟩, if_pos (Nat.zero_le _), h, Nat.zero_le _, fun _ hentry ↦ hentry⟩
  | cons oldest order ih =>
      rw [evictOver]
      split_ifs with hfits
      · exact ⟨_, rfl, h, hfits, fun _ hentry ↦ hentry⟩
      · obtain ⟨next, hnext, htracked, hlength, hsub⟩ := ih (tracked_removeKey h)
        exact ⟨next, hnext, htracked, hlength,
          fun entry hentry ↦ List.mem_of_mem_filter (hsub entry hentry)⟩

theorem Tracked.insert (h : cache.Tracked) (key : K) (value : V) (capacity : ℕ) :
    ∃ next, cache.insert key value capacity = some next ∧ next.Tracked ∧
      next.values.length ≤ capacity ∧
        ∀ entry ∈ next.values, entry = (key, value) ∨ entry ∈ cache.values := by
  have htracked : Tracked
      ⟨(key, value) :: removeKey key cache.values, touch key cache.newestLast⟩ := by
    refine ⟨?_, ?_⟩
    · rw [List.map_cons]
      refine List.nodup_cons.mpr ⟨?_, h.nodup.sublist (List.filter_sublist.map _)⟩
      intro hmem
      obtain ⟨entry, hentry, hkey⟩ := List.mem_map.mp hmem
      exact of_decide_eq_true (List.mem_filter.mp hentry).2 hkey
    · intro entry hentry
      rcases List.mem_cons.mp hentry with rfl | hentry
      · exact mem_touch.mpr (Or.inl rfl)
      · exact mem_touch.mpr (Or.inr (h.order entry (List.mem_of_mem_filter hentry)))
  obtain ⟨next, hnext, hnextTracked, hlength, hsub⟩ := evictOver_spec htracked capacity
  refine ⟨next, hnext, hnextTracked, hlength, fun entry hentry ↦ ?_⟩
  rcases List.mem_cons.mp (hsub entry hentry) with hnew | hold
  · exact Or.inl hnew
  · exact Or.inr (List.mem_of_mem_filter hold)

end BoundedCache

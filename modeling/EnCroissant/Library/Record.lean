import Mathlib

/-!
# Records

Finite maps that keep the order in which their keys came.  Setting a key that is
there changes its value in place; a new key comes last.
-/

universe u v

/-- The entries of a record, in order, each key once. -/
structure Record (α : Type u) (β : Type v) where
  entries : List (α × β)
  nodup : (entries.map Prod.fst).Nodup

namespace Record

variable {α : Type u} {β : Type v}

def empty : Record α β := ⟨[], List.nodup_nil⟩

def without (drop : α → Bool) (r : Record α β) : Record α β :=
  ⟨r.entries.filter fun entry ↦ !drop entry.1, r.nodup.sublist (List.filter_sublist.map _)⟩

variable [DecidableEq α]

def get? (r : Record α β) (a : α) : Option β := r.entries.lookup a

/-- An entry with its value replaced when its key is the given one. -/
def replace (a : α) (b : β) (entry : α × β) : α × β :=
  (entry.1, if entry.1 = a then b else entry.2)

theorem map_fst_replace (a : α) (b : β) (entries : List (α × β)) :
    (entries.map (replace a b)).map Prod.fst = entries.map Prod.fst := by
  rw [List.map_map]
  rfl

def set (r : Record α β) (a : α) (b : β) : Record α β :=
  if h : a ∈ r.entries.map Prod.fst then
    ⟨r.entries.map (replace a b), (map_fst_replace a b r.entries).symm ▸ r.nodup⟩
  else
    ⟨r.entries ++ [(a, b)], by
      rw [List.map_append, List.nodup_append]
      refine ⟨r.nodup, List.nodup_singleton _, ?_⟩
      rintro c hc d hd rfl
      have hkey : c = a := List.mem_singleton.mp hd
      exact h (hkey ▸ hc)⟩

/-- The record of a list of entries, of which the last with a key counts. -/
def ofList (entries : List (α × β)) : Record α β :=
  entries.foldl (fun r entry ↦ r.set entry.1 entry.2) empty

variable {r : Record α β} {a a' : α} {b b' : β} {entries entries' : List (α × β)}

/-! ## Looking up -/

theorem lookup_cons (a' : α) :
    ((a, b) :: entries).lookup a' = if a' = a then some b else entries.lookup a' := by
  rw [List.lookup_cons]
  by_cases h : a' = a
  · rw [if_pos h, h, beq_self_eq_true]
  · rw [if_neg h, beq_false_of_ne h]

theorem lookup_eq_none (h : a ∉ entries.map Prod.fst) : entries.lookup a = none := by
  induction entries with
  | nil => rfl
  | cons entry entries ih =>
      rw [List.map_cons, List.mem_cons, not_or] at h
      rw [lookup_cons, if_neg h.1, ih h.2]

theorem mem_keys_of_lookup (h : entries.lookup a = some b) : a ∈ entries.map Prod.fst := by
  by_contra hmem
  rw [lookup_eq_none hmem] at h
  cases h

theorem exists_lookup (h : a ∈ entries.map Prod.fst) : ∃ b, entries.lookup a = some b := by
  induction entries with
  | nil => cases h
  | cons entry entries ih =>
      obtain ⟨key, value⟩ := entry
      rw [lookup_cons]
      by_cases ha : a = key
      · exact ⟨value, if_pos ha⟩
      · obtain ⟨b, hb⟩ := ih ((List.mem_cons.mp h).resolve_left ha)
        exact ⟨b, by rw [if_neg ha, hb]⟩

theorem lookup_eq_some (hnodup : (entries.map Prod.fst).Nodup) :
    entries.lookup a = some b ↔ (a, b) ∈ entries := by
  induction entries with
  | nil => simp
  | cons entry entries ih =>
      obtain ⟨key, value⟩ := entry
      rw [List.map_cons, List.nodup_cons] at hnodup
      rw [lookup_cons, List.mem_cons, Prod.mk.injEq]
      by_cases h : a = key
      · have hmem : (a, b) ∉ entries := fun hmem ↦
          hnodup.1 (List.mem_map.mpr ⟨(a, b), hmem, h⟩)
        rw [if_pos h, Option.some.injEq]
        constructor
        · rintro rfl
          exact .inl ⟨h, rfl⟩
        · rintro (⟨-, rfl⟩ | hentry)
          · rfl
          · exact absurd hentry hmem
      · rw [if_neg h, ih hnodup.2]
        constructor
        · exact .inr
        · rintro (⟨hkey, -⟩ | hentry)
          · exact absurd hkey h
          · exact hentry

theorem lookup_perm (hperm : entries.Perm entries') (hnodup : (entries.map Prod.fst).Nodup) :
    entries.lookup a = entries'.lookup a := by
  have hnodup' : (entries'.map Prod.fst).Nodup := (hperm.map Prod.fst).nodup_iff.mp hnodup
  refine Option.ext fun b ↦ ?_
  rw [lookup_eq_some hnodup, lookup_eq_some hnodup', hperm.mem_iff]

theorem lookup_filter (keep : α → Bool) :
    (entries.filter fun entry ↦ keep entry.1).lookup a =
      if keep a then entries.lookup a else none := by
  induction entries with
  | nil => rw [List.filter_nil, List.lookup_nil, ite_self]
  | cons entry entries ih =>
      obtain ⟨key, value⟩ := entry
      rw [lookup_cons]
      by_cases hkey : a = key
      · subst hkey
        cases hkeep : keep a with
        | true =>
            rw [List.filter_cons, if_pos hkeep, lookup_cons, if_pos rfl, if_pos rfl, if_pos rfl]
        | false =>
            rw [List.filter_cons, if_neg (by rw [hkeep]; decide), ih, hkeep]
            rfl
      · rw [if_neg hkey, ← ih]
        cases hkeep : keep key with
        | true => rw [List.filter_cons, if_pos hkeep, lookup_cons, if_neg hkey]
        | false => rw [List.filter_cons, if_neg (by rw [hkeep]; decide)]

theorem lookup_map_replace :
    (entries.map (replace a b)).lookup a' =
      if a' = a then (entries.lookup a').map fun _ ↦ b else entries.lookup a' := by
  induction entries with
  | nil => rw [List.map_nil, List.lookup_nil, Option.map_none, ite_self]
  | cons entry entries ih =>
      obtain ⟨key, value⟩ := entry
      rw [List.map_cons, replace, lookup_cons, lookup_cons, ih]
      by_cases hkey : a' = key
      · subst hkey
        by_cases ha : a' = a
        · rw [if_pos rfl, if_pos rfl, if_pos ha, if_pos ha, Option.map_some]
        · rw [if_pos rfl, if_pos rfl, if_neg ha, if_neg ha]
      · rw [if_neg hkey, if_neg hkey]

/-! ## Setting and leaving out -/

@[simp] theorem get?_empty : (empty : Record α β).get? a = none := rfl

theorem get?_set : (r.set a b).get? a' = if a' = a then some b else r.get? a' := by
  rw [set]
  by_cases hmem : a ∈ r.entries.map Prod.fst
  · rw [dif_pos hmem, get?, lookup_map_replace]
    by_cases ha : a' = a
    · subst ha
      obtain ⟨⟨key, value⟩, hentry, rfl⟩ := List.mem_map.mp hmem
      rw [if_pos rfl, if_pos rfl, (lookup_eq_some r.nodup).mpr hentry, Option.map_some]
    · rw [if_neg ha, if_neg ha, get?]
  · rw [dif_neg hmem, get?, List.lookup_append, lookup_cons]
    by_cases ha : a' = a
    · subst ha
      rw [lookup_eq_none hmem, if_pos rfl, if_pos rfl, Option.none_or]
    · rw [if_neg ha, if_neg ha, List.lookup_nil, Option.or_none, get?]

theorem get?_without {drop : α → Bool} :
    (r.without drop).get? a = if drop a then none else r.get? a := by
  rw [get?, without, lookup_filter fun key ↦ !drop key]
  cases drop a with
  | true => rfl
  | false => rfl

theorem get?_foldl_set :
    (entries.foldl (fun r entry ↦ r.set entry.1 entry.2) r).get? a =
      (entries.reverse.lookup a).or (r.get? a) := by
  induction entries generalizing r with
  | nil => rfl
  | cons entry entries ih =>
      obtain ⟨key, value⟩ := entry
      rw [List.foldl_cons, ih, get?_set, List.reverse_cons, List.lookup_append, lookup_cons,
        List.lookup_nil, Option.or_assoc]
      by_cases hkey : a = key
      · rw [if_pos hkey, if_pos hkey, Option.some_or]
      · rw [if_neg hkey, if_neg hkey, Option.none_or]

theorem get?_ofList : (ofList entries).get? a = entries.reverse.lookup a := by
  rw [ofList, get?_foldl_set, get?_empty, Option.or_none]

theorem lookup_reverse (hnodup : (entries.map Prod.fst).Nodup) :
    entries.reverse.lookup a = entries.lookup a :=
  (lookup_perm entries.reverse_perm.symm hnodup).symm

end Record

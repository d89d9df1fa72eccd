import EnCroissant.Library.Table

/-!
# Tables of numbered rows

Rows under integer ids, as a relational engine keeps them.  A new row gets an id
above every id of the table and, where the table keeps a sequence, above every id
it has given out; statements delete, change and count the rows that pass a test.
-/

universe u v

structure RowTable (ρ : Type u) where
  rows : AList fun _ : ℤ ↦ ρ
  sequence : Option ℤ

namespace RowTable

variable {ρ : Type u}

def find (table : RowTable ρ) (id : ℤ) : Option ρ := table.rows.lookup id

def count (table : RowTable ρ) : ℕ := table.rows.size

def lastId (table : RowTable ρ) : ℤ := table.rows.keys.max?.getD 0

def nextId (table : RowTable ρ) : ℤ :=
  match table.sequence with
  | none => table.lastId + 1
  | some given => max table.lastId given + 1

def insert (table : RowTable ρ) (row : ρ) : RowTable ρ where
  rows := table.rows.insert table.nextId row
  sequence := table.sequence.map fun _ ↦ table.nextId

def deleteWhere (table : RowTable ρ) (p : ℤ → ρ → Bool) : RowTable ρ :=
  { table with rows := table.rows.retain fun id row ↦ !p id row }

def updateWhere (table : RowTable ρ) (p : ℤ → ρ → Bool) (f : ρ → ρ) : RowTable ρ :=
  { table with rows := table.rows.mapValues fun id row ↦ if p id row then f row else row }

def countWhere (table : RowTable ρ) (p : ℤ → ρ → Bool) : ℕ :=
  (table.rows.entries.filter fun entry ↦ p entry.1 entry.2).length

def first (table : RowTable ρ) (p : ℤ → ρ → Bool) : Option (ℤ × ρ) :=
  (table.rows.entries.find? fun entry ↦ p entry.1 entry.2).map fun entry ↦ (entry.1, entry.2)

def column {α : Type v} (table : RowTable ρ) (f : ρ → α) : List α :=
  table.rows.entries.map fun entry ↦ f entry.2

variable {table : RowTable ρ} {id id' : ℤ} {row row' : ρ} {p : ℤ → ρ → Bool} {f : ρ → ρ}

/-! ## New rows -/

theorem le_lastId (h : table.find id = some row) : id ≤ table.lastId := by
  have hmem : id ∈ table.rows.keys := AList.mem_of_lookup h
  obtain ⟨last, hlast⟩ := Option.isSome_iff_exists.mp (List.isSome_max?_of_mem hmem)
  rw [lastId, hlast]
  exact (List.max?_eq_some_iff.mp hlast).2 id hmem

theorem lt_nextId (h : table.find id = some row) : id < table.nextId := by
  have hlast := le_lastId h
  rw [nextId]
  cases table.sequence with
  | none => exact Int.lt_add_one_of_le hlast
  | some given => exact Int.lt_add_one_of_le (hlast.trans (le_max_left _ _))

theorem lt_nextId_of_forall {n : ℤ} (hn : n ≤ 0) (h : ∀ id row, table.find id = some row → n < id) :
    n < table.nextId := by
  have hlast : n ≤ table.lastId := by
    rw [lastId]
    cases hmax : table.rows.keys.max? with
    | none => exact hn
    | some last =>
        obtain ⟨row, hrow⟩ : ∃ row, table.find last = some row :=
          Option.isSome_iff_exists.mp
            (AList.lookup_isSome.mpr (List.max?_eq_some_iff.mp hmax).1)
        exact (h last row hrow).le
  rw [nextId]
  cases table.sequence with
  | none => exact Int.lt_add_one_of_le hlast
  | some given => exact Int.lt_add_one_of_le (hlast.trans (le_max_left _ _))

theorem find_nextId : table.find table.nextId = none := by
  cases h : table.find table.nextId with
  | none => rfl
  | some row => exact absurd (lt_nextId h) (lt_irrefl _)

theorem find_insert_nextId : (table.insert row).find table.nextId = some row :=
  AList.lookup_insert _

theorem count_insert (row : ρ) : (table.insert row).count = table.count + 1 := by
  have hfresh : table.nextId ∉ table.rows := AList.lookup_eq_none.mp find_nextId
  exact AList.size_insert_of_notMem hfresh row

theorem find_insert_of_ne (h : id ≠ table.nextId) : (table.insert row).find id = table.find id :=
  AList.lookup_insert_ne h

theorem find_insert_of_find (h : table.find id = some row') :
    (table.insert row).find id = some row' :=
  (find_insert_of_ne (lt_nextId h).ne).trans h

theorem find_of_insert (h : (table.insert row).find id = some row') :
    id = table.nextId ∧ row' = row ∨ table.find id = some row' := by
  by_cases hid : id = table.nextId
  · subst hid
    exact .inl ⟨rfl, Option.some.inj (h.symm.trans find_insert_nextId)⟩
  · exact .inr ((find_insert_of_ne hid).symm.trans h)

/-- The rows of a table are all still there. -/
def Keeps (table table' : RowTable ρ) : Prop :=
  ∀ id row, table.find id = some row → table'.find id = some row

theorem Keeps.refl (table : RowTable ρ) : table.Keeps table := fun _ _ h ↦ h

theorem Keeps.trans {table' table'' : RowTable ρ} (h : table.Keeps table')
    (h' : table'.Keeps table'') :
    table.Keeps table'' :=
  fun id row hfind ↦ h' id row (h id row hfind)

theorem keeps_insert : table.Keeps (table.insert row) := fun _ _ ↦ find_insert_of_find

/-! ## Statements over the rows that pass a test -/

theorem find_deleteWhere :
    (table.deleteWhere p).find id = some row ↔ table.find id = some row ∧ p id row = false := by
  rw [find, deleteWhere, AList.lookup_retain, Bool.not_eq_true']
  rfl

theorem find_updateWhere :
    (table.updateWhere p f).find id = some row' ↔
      ∃ row, table.find id = some row ∧ (if p id row then f row else row) = row' :=
  AList.lookup_mapValues

theorem mem_column {α : Type v} {g : ρ → α} {a : α} :
    a ∈ table.column g ↔ ∃ id row, table.find id = some row ∧ g row = a := by
  rw [column, List.mem_map]
  constructor
  · rintro ⟨⟨id, row⟩, hmem, hg⟩
    exact ⟨id, row, AList.mem_lookup_iff.mpr hmem, hg⟩
  · rintro ⟨id, row, hfind, hg⟩
    exact ⟨⟨id, row⟩, AList.mem_lookup_iff.mp hfind, hg⟩

/-- One row is replaced. -/
theorem find_updateWhere_id (h : table.find id = some row) (new : ρ) (id' : ℤ) :
    (table.updateWhere (fun id' _ ↦ decide (id' = id)) fun _ ↦ new).find id' =
      if id' = id then some new else table.find id' := by
  ext found
  rw [find_updateWhere]
  by_cases hid : id' = id
  · subst hid
    simp [h]
  · simp [hid]

theorem find_of_first (h : table.first p = some (id, row)) :
    table.find id = some row ∧ p id row := by
  obtain ⟨⟨key, value⟩, hfind, heq⟩ := Option.map_eq_some_iff.mp h
  obtain ⟨rfl, rfl⟩ := Prod.mk.inj heq
  exact ⟨AList.mem_lookup_iff.mpr (List.mem_of_find?_eq_some hfind),
    List.find?_some (p := fun entry : Σ _ : ℤ, ρ ↦ p entry.1 entry.2) hfind⟩

theorem exists_first (h : table.find id = some row) (hp : p id row) :
    ∃ found, table.first p = some found := by
  have hmem : (⟨id, row⟩ : Σ _ : ℤ, ρ) ∈ table.rows.entries := AList.mem_lookup_iff.mp h
  have hsome : (table.rows.entries.find? fun entry ↦ p entry.1 entry.2).isSome :=
    List.find?_isSome.mpr ⟨_, hmem, hp⟩
  obtain ⟨entry, hentry⟩ := Option.isSome_iff_exists.mp hsome
  exact ⟨_, Option.map_eq_some_iff.mpr ⟨entry, hentry, rfl⟩⟩

def idsWhere (table : RowTable ρ) (p : ℤ → ρ → Bool) : Finset ℤ :=
  table.rows.keysWith fun entry ↦ p entry.1 entry.2

theorem mem_idsWhere : id ∈ table.idsWhere p ↔ ∃ row, table.find id = some row ∧ p id row :=
  AList.mem_keysWith

theorem countWhere_eq_card (table : RowTable ρ) (p : ℤ → ρ → Bool) :
    table.countWhere p = (table.idsWhere p).card :=
  (AList.card_keysWith _ _).symm

theorem countWhere_pos :
    0 < table.countWhere p ↔ ∃ id row, table.find id = some row ∧ p id row := by
  rw [countWhere_eq_card, Finset.card_pos]
  exact exists_congr fun id ↦ mem_idsWhere

theorem countWhere_le_one {a : ℤ} (h : ∀ id row, p id row → id = a) : table.countWhere p ≤ 1 := by
  rw [countWhere_eq_card]
  apply Finset.card_le_one_iff.mpr
  intro b c hb hc
  obtain ⟨rowB, -, hpB⟩ := mem_idsWhere.mp hb
  obtain ⟨rowC, -, hpC⟩ := mem_idsWhere.mp hc
  exact (h b rowB hpB).trans (h c rowC hpC).symm

/-! ## One row of each class -/

section

variable {κ : Type v} [DecidableEq κ]

/-- `ROW_NUMBER() OVER (PARTITION BY key ORDER BY id)`. -/
def rowNumber (table : RowTable ρ) (key : ρ → κ) (id : ℤ) (row : ρ) : ℕ :=
  table.countWhere fun id' row' ↦ decide (key row' = key row ∧ id' ≤ id)

def deleteDuplicates (table : RowTable ρ) (key : ρ → κ) : RowTable ρ :=
  table.deleteWhere fun id row ↦ decide (1 < table.rowNumber key id row)

variable {key : ρ → κ}

theorem one_lt_rowNumber (h : table.find id = some row) :
    1 < table.rowNumber key id row ↔
      ∃ id' row', table.find id' = some row' ∧ key row' = key row ∧ id' < id := by
  rw [rowNumber, countWhere_eq_card, Finset.one_lt_card_iff]
  constructor
  · rintro ⟨a, b, ha, hb, hne⟩
    obtain ⟨rowA, hfindA, hpA⟩ := mem_idsWhere.mp ha
    obtain ⟨rowB, hfindB, hpB⟩ := mem_idsWhere.mp hb
    obtain ⟨hkeyA, hleA⟩ := of_decide_eq_true hpA
    obtain ⟨hkeyB, hleB⟩ := of_decide_eq_true hpB
    rcases hleA.lt_or_eq with hlt | rfl
    · exact ⟨a, rowA, hfindA, hkeyA, hlt⟩
    · exact ⟨b, rowB, hfindB, hkeyB, lt_of_le_of_ne hleB hne.symm⟩
  · rintro ⟨id', row', hfind, hkey, hlt⟩
    refine ⟨id', id, mem_idsWhere.mpr ⟨row', hfind, ?_⟩, mem_idsWhere.mpr ⟨row, h, ?_⟩, hlt.ne⟩
    · exact decide_eq_true ⟨hkey, hlt.le⟩
    · exact decide_eq_true ⟨rfl, le_rfl⟩

theorem find_deleteDuplicates :
    (table.deleteDuplicates key).find id = some row ↔
      table.find id = some row ∧
        ∀ id' row', table.find id' = some row' → key row' = key row → id ≤ id' := by
  rw [deleteDuplicates, find_deleteWhere]
  refine and_congr_right fun h ↦ ?_
  rw [decide_eq_false_iff_not, one_lt_rowNumber h]
  push Not
  rfl

/-- The row of least id of a class. -/
theorem exists_least (key : ρ → κ) (h : table.find id = some row) :
    ∃ least row', table.find least = some row' ∧ key row' = key row ∧
      ∀ id'' row'', table.find id'' = some row'' → key row'' = key row → least ≤ id'' := by
  set members := table.idsWhere fun _ row' ↦ decide (key row' = key row)
  have hnonempty : members.Nonempty := ⟨id, mem_idsWhere.mpr ⟨row, h, decide_eq_true rfl⟩⟩
  obtain ⟨row', hfind, hkey⟩ := mem_idsWhere.mp (members.min'_mem hnonempty)
  refine ⟨members.min' hnonempty, row', hfind, of_decide_eq_true hkey, ?_⟩
  intro id'' row'' hfind' hkey'
  exact members.min'_le id'' (mem_idsWhere.mpr ⟨row'', hfind', decide_eq_true hkey'⟩)

end

end RowTable

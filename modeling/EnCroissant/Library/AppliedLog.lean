import Mathlib

/-!
# Logs with a mark

Entries are appended to a log first and committed later.  A mark says how many
entries of the log the last commit stands for; an entry that another commit goes
past before its own is overtaken, and is counted as an orphan from then on.
-/

structure AppliedLog (α : Type*) where
  entries : List α
  applied : ℕ
  orphans : ℕ
  /-- The entries that were committed. -/
  committed : List α
  /-- The entries that another commit went past before their own. -/
  overtaken : List α

namespace AppliedLog

variable {α : Type*}

def settled (l : AppliedLog α) : List α := l.entries.take l.applied

/-- The entries after the mark. -/
def tail (l : AppliedLog α) : List α := l.entries.drop l.applied

theorem settled_append_tail (l : AppliedLog α) : l.settled ++ l.tail = l.entries :=
  List.take_append_drop _ _

theorem length_tail (l : AppliedLog α) : l.tail.length = l.entries.length - l.applied :=
  List.length_drop

variable [DecidableEq α]

def waiting (l : AppliedLog α) : List α := l.entries.filter fun a ↦ a ∉ l.committed

/-- The entries that are not committed or were overtaken. -/
def missed (l : AppliedLog α) : List α :=
  l.entries.filter fun a ↦ a ∉ l.committed ∨ a ∈ l.overtaken

structure Ok (l : AppliedLog α) : Prop where
  nodup : l.entries.Nodup
  applied_le : l.applied ≤ l.entries.length
  committed : l.committed ⊆ l.entries
  overtaken : l.overtaken ⊆ l.entries
  settled : ∀ a ∈ l.settled, a ∈ l.committed ∨ a ∈ l.overtaken
  tail : ∀ a ∈ l.tail, a ∉ l.committed ∧ a ∉ l.overtaken
  orphans : l.orphans = l.settled.countP fun a ↦ a ∈ l.overtaken

variable {l : AppliedLog α}

namespace Ok

theorem nodup_tail (h : l.Ok) : l.tail.Nodup := h.nodup.sublist (List.drop_sublist _ _)

theorem mem_tail_iff (h : l.Ok) {a : α} {position : ℕ} (ha : l.entries[position]? = some a) :
    a ∈ l.tail ↔ l.applied ≤ position := by
  rw [AppliedLog.tail, List.mem_drop_iff_getElem]
  obtain ⟨hlt, hget⟩ := List.getElem?_eq_some_iff.mp ha
  constructor
  · rintro ⟨i, hi, heq⟩
    have := (h.nodup.getElem_inj_iff).mp (heq.trans hget.symm)
    omega
  · intro hle
    exact ⟨position - l.applied, by omega, by simpa [Nat.add_sub_cancel' hle] using hget⟩

/-- All entries after the mark but one. -/
theorem countP_tail (h : l.Ok) (a : α) :
    (l.tail.countP fun b ↦ b ∉ [a]) = l.tail.length - if a ∈ l.tail then 1 else 0 := by
  have hcount : (l.tail.countP fun b ↦ b ∉ [a]) + l.tail.count a = l.tail.length := by
    rw [List.length_eq_countP_add_countP (fun b ↦ b ∉ [a])]
    congr 1
    refine List.countP_congr fun b _ ↦ ?_
    simp
  split_ifs with ha
  · rw [List.count_eq_one_of_mem h.nodup_tail ha] at hcount
    omega
  · rw [List.count_eq_zero_of_not_mem ha] at hcount
    omega

/-- The orphans and the entries after the mark are the entries that were missed. -/
theorem length_missed (h : l.Ok) :
    l.missed.length = l.orphans + (l.entries.length - l.applied) := by
  have hsettled : l.settled.countP (fun a ↦ a ∉ l.committed ∨ a ∈ l.overtaken) =
      l.settled.countP fun a ↦ a ∈ l.overtaken := by
    refine List.countP_congr fun a ha ↦ ?_
    have := h.settled a ha
    simp only [decide_eq_true_eq]
    tauto
  have htail : l.tail.countP (fun a ↦ a ∉ l.committed ∨ a ∈ l.overtaken) = l.tail.length :=
    List.countP_eq_length.mpr fun a ha ↦ by simp [(h.tail a ha).1]
  rw [missed, ← List.countP_eq_length_filter, ← settled_append_tail, List.countP_append, hsettled,
    htail, ← h.orphans, settled_append_tail, length_tail]

theorem orphans_le (h : l.Ok) :
    l.orphans + (l.entries.length - l.applied) ≤ l.entries.length := by
  rw [← h.length_missed]
  exact List.length_filter_le _ _

theorem nil : (⟨[], 0, 0, [], []⟩ : AppliedLog α).Ok where
  nodup := List.nodup_nil
  applied_le := le_rfl
  committed := List.Subset.refl _
  overtaken := List.Subset.refl _
  settled a ha := by cases ha
  tail a ha := by cases ha
  orphans := rfl

/-- An entry is appended, and not yet committed. -/
theorem append (h : l.Ok) {a : α} (ha : a ∉ l.entries) :
    Ok { l with entries := l.entries ++ [a] } where
  nodup := by
    refine List.nodup_append.mpr ⟨h.nodup, List.nodup_singleton a, ?_⟩
    rintro b hb c hc rfl
    exact ha (List.mem_singleton.mp hc ▸ hb)
  applied_le := h.applied_le.trans (by simp)
  committed := List.subset_append_of_subset_left _ h.committed
  overtaken := List.subset_append_of_subset_left _ h.overtaken
  settled := by
    rw [AppliedLog.settled, List.take_append_of_le_length h.applied_le]
    exact h.settled
  tail b hb := by
    rw [AppliedLog.tail, List.drop_append_of_le_length h.applied_le] at hb
    rcases List.mem_append.mp hb with hb | hb
    · exact h.tail b hb
    · obtain rfl := List.mem_singleton.mp hb
      exact ⟨fun hmem ↦ ha (h.committed hmem), fun hmem ↦ ha (h.overtaken hmem)⟩
  orphans := by
    rw [AppliedLog.settled, List.take_append_of_le_length h.applied_le]
    exact h.orphans

/-- All entries after the mark but the one that was just appended. -/
theorem countP_tail_append (h : l.Ok) {a : α} (ha : a ∉ l.entries) :
    ((AppliedLog.tail { l with entries := l.entries ++ [a] }).countP fun b ↦ b ∉ [a]) =
      l.entries.length - l.applied := by
  have hmem : a ∈ AppliedLog.tail { l with entries := l.entries ++ [a] } := by
    rw [AppliedLog.tail, List.drop_append_of_le_length h.applied_le]
    exact List.mem_append_right _ (List.mem_singleton_self a)
  rw [(h.append ha).countP_tail, if_pos hmem, length_tail, List.length_append,
    List.length_singleton]
  have := h.applied_le
  dsimp only
  omega

/-- A commit moves the mark to the end.  It commits the entries of `own`, which
do not become orphans, and overtakes those that wait. -/
theorem advance (h : l.Ok) {own : List α} (hown : own ⊆ l.entries) :
    Ok { l with
      applied := l.entries.length
      orphans := l.orphans + l.tail.countP fun a ↦ a ∉ own
      committed := own ++ l.committed
      overtaken := l.overtaken ++ l.waiting.filter fun a ↦ a ∉ own } where
  nodup := h.nodup
  applied_le := le_rfl
  committed := List.append_subset.mpr ⟨hown, h.committed⟩
  overtaken := by
    refine List.append_subset.mpr ⟨h.overtaken, fun a ha ↦ ?_⟩
    exact List.mem_of_mem_filter (List.mem_of_mem_filter ha)
  settled a ha := by
    have hentry : a ∈ l.entries := List.mem_of_mem_take ha
    simp only [waiting, List.mem_append, List.mem_filter, decide_eq_true_eq]
    tauto
  tail a ha := by simp [AppliedLog.tail] at ha
  orphans := by
    have hold : l.settled.countP (fun a ↦
          a ∈ l.overtaken ++ l.waiting.filter fun a ↦ a ∉ own) =
        l.settled.countP fun a ↦ a ∈ l.overtaken := by
      refine List.countP_congr fun a ha ↦ ?_
      have := h.settled a ha
      simp only [waiting, List.mem_append, List.mem_filter, decide_eq_true_eq]
      tauto
    have hnew : l.tail.countP (fun a ↦
          a ∈ l.overtaken ++ l.waiting.filter fun a ↦ a ∉ own) =
        l.tail.countP fun a ↦ a ∉ own := by
      refine List.countP_congr fun a ha ↦ ?_
      have htail := h.tail a ha
      have hentry : a ∈ l.entries := List.mem_of_mem_drop ha
      simp only [waiting, List.mem_append, List.mem_filter, decide_eq_true_eq]
      tauto
    change l.orphans + _ = List.countP _ (l.entries.take l.entries.length)
    rw [List.take_length, ← settled_append_tail, List.countP_append, hold, hnew, h.orphans]

end Ok

end AppliedLog

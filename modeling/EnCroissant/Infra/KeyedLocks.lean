import Mathlib
import EnCroissant.Library.Machine

/-!
# Locks by key

A registry maps keys to mutexes.  Clients take leases of a key, lock and unlock
the mutex they lease, and drop the lease; the last one takes the entry out.
Mutexes are told apart by numbers, as their addresses do.
-/

namespace EnCroissant.Infra

variable {K : Type}

/-- A claim on the mutex of a key, the calls that wait for the mutex through it,
and whether a guard is out. -/
structure KeyedLockLease (K : Type) where
  key : K
  lock : ℕ
  waiting : ℕ
  held : Bool
  deriving DecidableEq

structure KeyedLocks (K : Type) where
  keys : Finset K
  /-- The mutex of each key of the registry. -/
  locks : K → ℕ
  /-- The leases that are outstanding. -/
  leases : Finset ℕ
  leaseOf : ℕ → KeyedLockLease K
  locked : ℕ → Bool
  nextMutex : ℕ
  nextLease : ℕ

namespace KeyedLocks

section

variable [DecidableEq K]

/-- Nothing was leased yet. -/
def Empty (s : KeyedLocks K) : Prop := s.keys = ∅ ∧ s.leases = ∅

/-- The entry of a key, made when there is none. -/
def entry (s : KeyedLocks K) (key : K) : KeyedLocks K :=
  if key ∈ s.keys then s
  else
    { s with
      keys := insert key s.keys
      locks := Function.update s.locks key s.nextMutex
      locked := Function.update s.locked s.nextMutex false
      nextMutex := s.nextMutex + 1 }

def addLease (s : KeyedLocks K) (key : K) : KeyedLocks K :=
  { s with
    leases := insert s.nextLease s.leases
    leaseOf := Function.update s.leaseOf s.nextLease ⟨key, s.locks key, 0, false⟩
    nextLease := s.nextLease + 1 }

def lease (s : KeyedLocks K) (key : K) : KeyedLocks K := (s.entry key).addLease key

/-- `Arc::strong_count`: the entries and the leases that share a mutex. -/
def strongCount (s : KeyedLocks K) (lock : ℕ) : ℕ :=
  (s.keys.filter fun key ↦ s.locks key = lock).card +
    (s.leases.filter fun i ↦ (s.leaseOf i).lock = lock).card

def setLease (s : KeyedLocks K) (i : ℕ) (lease : KeyedLockLease K) : KeyedLocks K :=
  { s with leaseOf := Function.update s.leaseOf i lease }

def setLocked (s : KeyedLocks K) (lock : ℕ) (locked : Bool) : KeyedLocks K :=
  { s with locked := Function.update s.locked lock locked }

/-- A call of `lock` starts to wait. -/
def request (s : KeyedLocks K) (i : ℕ) : Option (KeyedLocks K) :=
  if i ∈ s.leases then
    some (s.setLease i { s.leaseOf i with waiting := (s.leaseOf i).waiting + 1 })
  else none

/-- A call that waits gets the mutex. -/
def acquire (s : KeyedLocks K) (i : ℕ) : Option (KeyedLocks K) :=
  let lease := s.leaseOf i
  if i ∈ s.leases ∧ 0 < lease.waiting ∧ s.locked lease.lock = false then
    some ((s.setLocked lease.lock true).setLease i
      { lease with waiting := lease.waiting - 1, held := true })
  else none

/-- A call that waits is cancelled. -/
def cancel (s : KeyedLocks K) (i : ℕ) : Option (KeyedLocks K) :=
  let lease := s.leaseOf i
  if i ∈ s.leases ∧ 0 < lease.waiting then
    some (s.setLease i { lease with waiting := lease.waiting - 1 })
  else none

def tryLock (s : KeyedLocks K) (i : ℕ) : Option (KeyedLocks K) :=
  let lease := s.leaseOf i
  if i ∈ s.leases ∧ s.locked lease.lock = false then
    some ((s.setLocked lease.lock true).setLease i { lease with held := true })
  else none

def unlock (s : KeyedLocks K) (i : ℕ) : Option (KeyedLocks K) :=
  let lease := s.leaseOf i
  if i ∈ s.leases ∧ lease.held then
    some ((s.setLocked lease.lock false).setLease i { lease with held := false })
  else none

def release (s : KeyedLocks K) (i : ℕ) : KeyedLocks K :=
  { s with leases := s.leases.erase i }

/-- Guards and waiting calls borrow the lease, so it has none when it is dropped. -/
def drop (s : KeyedLocks K) (i : ℕ) : Option (KeyedLocks K) :=
  let lease := s.leaseOf i
  if i ∈ s.leases ∧ lease.waiting = 0 ∧ lease.held = false then
    if lease.key ∈ s.keys ∧ s.locks lease.key = lease.lock then
      if (s.release i).strongCount (s.locks lease.key) = 1 then
        some { s.release i with keys := s.keys.erase lease.key }
      else some (s.release i)
    else some (s.release i)
  else none

end

end KeyedLocks

inductive LockAction (K : Type) where
  | lease (key : K)
  | request (i : ℕ)
  | acquire (i : ℕ)
  | cancel (i : ℕ)
  | tryLock (i : ℕ)
  | unlock (i : ℕ)
  | drop (i : ℕ)

def KeyedLocks.step [DecidableEq K] (s : KeyedLocks K) : LockAction K → Option (KeyedLocks K)
  | .lease key => some (s.lease key)
  | .request i => s.request i
  | .acquire i => s.acquire i
  | .cancel i => s.cancel i
  | .tryLock i => s.tryLock i
  | .unlock i => s.unlock i
  | .drop i => s.drop i

def keyedLocksMachine [DecidableEq K] : Machine (KeyedLocks K) (LockAction K) where
  init := KeyedLocks.Empty
  step s a s' := s.step a = some s'

/-! ## The invariant -/

namespace KeyedLocks

/-- All leases of a key share the mutex of its entry, which nothing else has. -/
structure Linked (s : KeyedLocks K) : Prop where
  lock_lt : ∀ key ∈ s.keys, s.locks key < s.nextMutex
  lock_inj : ∀ key ∈ s.keys, ∀ key' ∈ s.keys, s.locks key = s.locks key' → key = key'
  lease_lt : ∀ i ∈ s.leases, i < s.nextLease
  entry : ∀ i ∈ s.leases, (s.leaseOf i).key ∈ s.keys ∧
    s.locks (s.leaseOf i).key = (s.leaseOf i).lock
  locked : ∀ i ∈ s.leases, (s.leaseOf i).held → s.locked (s.leaseOf i).lock
  exclusive : ∀ i ∈ s.leases, ∀ j ∈ s.leases, (s.leaseOf i).held → (s.leaseOf j).held →
    (s.leaseOf i).lock = (s.leaseOf j).lock → i = j

/-- Every entry has a lease. -/
def Used (s : KeyedLocks K) : Prop := ∀ key ∈ s.keys, ∃ i ∈ s.leases, (s.leaseOf i).key = key

variable {s : KeyedLocks K} {i : ℕ}

/-! ### Locking -/

/-- What holds of a lease whose mutex is free, or held by it. -/
theorem Linked.others_free (h : s.Linked) (hi : i ∈ s.leases)
    (hfree : (s.leaseOf i).held = true ∨ s.locked (s.leaseOf i).lock = false) {j : ℕ}
    (hj : j ∈ s.leases) (hne : j ≠ i) (hheld : (s.leaseOf j).held) :
    (s.leaseOf j).lock ≠ (s.leaseOf i).lock := by
  intro hsame
  rcases hfree with hfree | hfree
  · exact hne (h.exclusive j hj i hi hheld hfree hsame)
  · have hlocked := h.locked j hj hheld
    rw [hsame, hfree] at hlocked
    cases hlocked

/-- A step that leaves the registry alone, and changes one lease and its mutex. -/
theorem Linked.setLease (h : s.Linked) {lease : KeyedLockLease K} {locked : Bool}
    (hi : i ∈ s.leases) (hkey : lease.key = (s.leaseOf i).key)
    (hlock : lease.lock = (s.leaseOf i).lock) (hheld : lease.held → locked)
    (hothers : ∀ j ∈ s.leases, j ≠ i → (s.leaseOf j).held →
      (s.leaseOf j).lock = (s.leaseOf i).lock → locked ∧ ¬lease.held) :
    ((s.setLocked (s.leaseOf i).lock locked).setLease i lease).Linked := by
  have hself : ((s.setLocked (s.leaseOf i).lock locked).setLease i lease).leaseOf i = lease :=
    Function.update_self ..
  have hother : ∀ {j}, j ≠ i →
      ((s.setLocked (s.leaseOf i).lock locked).setLease i lease).leaseOf j = s.leaseOf j :=
    fun hne ↦ Function.update_of_ne hne ..
  refine ⟨h.lock_lt, h.lock_inj, h.lease_lt, ?_, ?_, ?_⟩
  · intro j hj
    by_cases hne : j = i
    · subst hne
      rw [hself, hkey, hlock]
      exact h.entry j hj
    · rw [hother hne]
      exact h.entry j hj
  · intro j hj hjheld
    by_cases hne : j = i
    · subst hne
      rw [hself] at hjheld ⊢
      rw [hlock]
      exact (Function.update_self ..).trans (hheld hjheld)
    · rw [hother hne] at hjheld ⊢
      by_cases hsame : (s.leaseOf j).lock = (s.leaseOf i).lock
      · rw [hsame]
        exact (Function.update_self ..).trans (hothers j hj hne hjheld hsame).1
      · exact (Function.update_of_ne hsame ..).trans (h.locked j hj hjheld)
  · intro j hj k hk hjheld hkheld hsame
    by_cases hji : j = i <;> by_cases hki : k = i
    · rw [hji, hki]
    · subst hji
      rw [hself] at hjheld hsame
      rw [hother hki] at hkheld hsame
      exact absurd hjheld (hothers k hk hki hkheld (hsame.symm.trans hlock)).2
    · subst hki
      rw [hself] at hkheld hsame
      rw [hother hji] at hjheld hsame
      exact absurd hkheld (hothers j hj hji hjheld (hsame.trans hlock)).2
    · rw [hother hji] at hjheld hsame
      rw [hother hki] at hkheld hsame
      exact h.exclusive j hj k hk hjheld hkheld hsame

/-- The lease gets the mutex, or gives it back. -/
theorem Linked.setHeld (h : s.Linked) {waiting : ℕ} {locked : Bool} (hi : i ∈ s.leases)
    (hfree : (s.leaseOf i).held = true ∨ s.locked (s.leaseOf i).lock = false) :
    ((s.setLocked (s.leaseOf i).lock locked).setLease i
      { s.leaseOf i with waiting := waiting, held := locked }).Linked :=
  h.setLease hi rfl rfl (fun hheld ↦ hheld) fun _ hj hne hheld hsame ↦
    absurd hsame (h.others_free hi hfree hj hne hheld)

theorem Linked.setWaiting (h : s.Linked) {waiting : ℕ} (hi : i ∈ s.leases) :
    (s.setLease i { s.leaseOf i with waiting := waiting }).Linked := by
  have hsame : s.setLocked (s.leaseOf i).lock (s.locked (s.leaseOf i).lock) = s := by
    rw [setLocked, Function.update_eq_self]
  have hlinked : ((s.setLocked (s.leaseOf i).lock (s.locked (s.leaseOf i).lock)).setLease i
      { s.leaseOf i with waiting := waiting }).Linked :=
    h.setLease hi rfl rfl (h.locked i hi) fun j hj hne hheld hlock ↦
      ⟨hlock ▸ h.locked j hj hheld, fun hself ↦ hne (h.exclusive j hj i hi hheld hself hlock)⟩
  rwa [hsame] at hlinked

/-- A step that changes one lease but not its key keeps the entries used. -/
theorem Used.setLease (h : s.Used) {lease : KeyedLockLease K}
    (hkey : lease.key = (s.leaseOf i).key) :
    (s.setLease i lease).Used := by
  intro key hmem
  obtain ⟨j, hj, rfl⟩ := h key hmem
  refine ⟨j, hj, ?_⟩
  by_cases hne : j = i
  · subst hne
    have hself : (s.setLease j lease).leaseOf j = lease := Function.update_self ..
    rw [hself, hkey]
  · have hother : (s.setLease i lease).leaseOf j = s.leaseOf j := Function.update_of_ne hne ..
    rw [hother]

theorem Used.setHeld (h : s.Used) {lease : KeyedLockLease K} {lock : ℕ} {locked : Bool}
    (hkey : lease.key = (s.leaseOf i).key) :
    ((s.setLocked lock locked).setLease i lease).Used :=
  Used.setLease (s := s.setLocked lock locked) h hkey

/-! ### Leasing -/

theorem leaseOf_addLease_old (h : s.Linked) (key : K) {j : ℕ} (hj : j ∈ s.leases) :
    (s.addLease key).leaseOf j = s.leaseOf j :=
  Function.update_of_ne (h.lease_lt j hj).ne ..

theorem leaseOf_addLease_new (s : KeyedLocks K) (key : K) :
    (s.addLease key).leaseOf s.nextLease = ⟨key, s.locks key, 0, false⟩ :=
  Function.update_self ..

theorem Linked.addLease (h : s.Linked) {key : K} (hkey : key ∈ s.keys) :
    (s.addLease key).Linked := by
  have hnew := leaseOf_addLease_new s key
  have hold : ∀ j ∈ s.leases, (s.addLease key).leaseOf j = s.leaseOf j :=
    fun j ↦ leaseOf_addLease_old h key
  have hcases : ∀ j ∈ (s.addLease key).leases, j = s.nextLease ∨ j ∈ s.leases :=
    fun j ↦ Finset.mem_insert.mp
  refine ⟨h.lock_lt, h.lock_inj, ?_, ?_, ?_, ?_⟩
  · intro j hj
    rcases hcases j hj with rfl | hj
    · exact Nat.lt_succ_self _
    · exact (h.lease_lt j hj).trans (Nat.lt_succ_self _)
  · intro j hj
    rcases hcases j hj with rfl | hj
    · rw [hnew]
      exact ⟨hkey, rfl⟩
    · rw [hold j hj]
      exact h.entry j hj
  · intro j hj
    rcases hcases j hj with rfl | hj
    · rw [hnew]
      exact fun hheld ↦ by cases hheld
    · rw [hold j hj]
      exact h.locked j hj
  · intro j hj k hk
    rcases hcases j hj with rfl | hj
    · rw [hnew]
      exact fun hheld ↦ by cases hheld
    · rcases hcases k hk with rfl | hk
      · rw [hnew]
        exact fun _ hheld ↦ by cases hheld
      · rw [hold j hj, hold k hk]
        exact h.exclusive j hj k hk

theorem Linked.release (h : s.Linked) (i : ℕ) : (s.release i).Linked :=
  ⟨h.lock_lt, h.lock_inj, fun j hj ↦ h.lease_lt j (Finset.mem_of_mem_erase hj),
    fun j hj ↦ h.entry j (Finset.mem_of_mem_erase hj),
    fun j hj ↦ h.locked j (Finset.mem_of_mem_erase hj),
    fun j hj k hk ↦ h.exclusive j (Finset.mem_of_mem_erase hj) k (Finset.mem_of_mem_erase hk)⟩

/-- The registry refers to the mutex of a key once. -/
theorem Linked.card_entries (h : s.Linked) {key : K} (hkey : key ∈ s.keys) :
    (s.keys.filter fun other ↦ s.locks other = s.locks key).card = 1 := by
  rw [Finset.card_eq_one]
  refine ⟨key, Finset.ext fun other ↦ ?_⟩
  rw [Finset.mem_filter, Finset.mem_singleton]
  constructor
  · rintro ⟨hother, hsame⟩
    exact h.lock_inj other hother key hkey hsame
  · rintro rfl
    exact ⟨hkey, rfl⟩

/-- The count of a mutex is one when no lease has its key. -/
theorem Linked.strongCount_eq_one (h : s.Linked) {key : K} (hkey : key ∈ s.keys) :
    s.strongCount (s.locks key) = 1 ↔ ∀ i ∈ s.leases, (s.leaseOf i).key ≠ key := by
  rw [strongCount, h.card_entries hkey]
  constructor
  · intro hcount i hi hsame
    have hempty : (s.leases.filter fun i ↦ (s.leaseOf i).lock = s.locks key) = ∅ := by
      rw [← Finset.card_eq_zero]
      omega
    have hmem : i ∈ s.leases.filter fun i ↦ (s.leaseOf i).lock = s.locks key := by
      refine Finset.mem_filter.mpr ⟨hi, ?_⟩
      rw [← (h.entry i hi).2, hsame]
    rw [hempty] at hmem
    exact absurd hmem (Finset.notMem_empty i)
  · intro hnone
    have hempty : (s.leases.filter fun i ↦ (s.leaseOf i).lock = s.locks key) = ∅ := by
      refine Finset.filter_eq_empty_iff.mpr fun i hi hlock ↦ hnone i hi ?_
      obtain ⟨hmem, hentry⟩ := h.entry i hi
      exact h.lock_inj _ hmem key hkey (hentry.trans hlock)
    rw [hempty, Finset.card_empty]

variable [DecidableEq K]

theorem mem_keys_entry (s : KeyedLocks K) (key : K) : key ∈ (s.entry key).keys := by
  rw [entry]
  split_ifs with hkey
  · exact hkey
  · exact Finset.mem_insert_self key s.keys

theorem Linked.entry_key (h : s.Linked) (key : K) : (s.entry key).Linked := by
  rw [KeyedLocks.entry]
  split_ifs with hkey
  · exact h
  have hold : ∀ key' ∈ s.keys, Function.update s.locks key s.nextMutex key' = s.locks key' :=
    fun key' hkey' ↦ Function.update_of_ne (ne_of_mem_of_not_mem hkey' hkey) ..
  constructor <;> simp only
  · intro key' hkey'
    rcases Finset.mem_insert.mp hkey' with rfl | hkey'
    · rw [Function.update_self]
      exact Nat.lt_succ_self _
    · rw [hold key' hkey']
      exact (h.lock_lt key' hkey').trans (Nat.lt_succ_self _)
  · intro key₁ hkey₁ key₂ hkey₂ hsame
    rcases Finset.mem_insert.mp hkey₁ with rfl | hkey₁ <;>
      rcases Finset.mem_insert.mp hkey₂ with rfl | hkey₂
    · rfl
    · rw [Function.update_self, hold key₂ hkey₂] at hsame
      exact absurd hsame (h.lock_lt key₂ hkey₂).ne'
    · rename_i hmem
      rw [Function.update_self, hold key₁ hmem] at hsame
      exact absurd hsame (h.lock_lt key₁ hmem).ne
    · rw [hold key₁ hkey₁, hold key₂ hkey₂] at hsame
      exact h.lock_inj key₁ hkey₁ key₂ hkey₂ hsame
  · exact h.lease_lt
  · intro j hj
    obtain ⟨hmem, hlock⟩ := h.entry j hj
    exact ⟨Finset.mem_insert_of_mem hmem, (hold _ hmem).trans hlock⟩
  · intro j hj hheld
    obtain ⟨hmem, hlock⟩ := h.entry j hj
    have hne : (s.leaseOf j).lock ≠ s.nextMutex := hlock ▸ (h.lock_lt _ hmem).ne
    rw [Function.update_of_ne hne]
    exact h.locked j hj hheld
  · exact h.exclusive

theorem Linked.lease (h : s.Linked) (key : K) : (s.lease key).Linked :=
  (h.entry_key key).addLease (mem_keys_entry s key)

theorem Used.lease (h : s.Used) (hlinked : s.Linked) (key : K) : (s.lease key).Used := by
  intro key' hkey'
  have hkey' : key' ∈ (s.entry key).keys := hkey'
  have hlinked' := hlinked.entry_key key
  by_cases hsame : key' = key
  · refine ⟨(s.entry key).nextLease, Finset.mem_insert_self .., ?_⟩
    rw [KeyedLocks.lease, leaseOf_addLease_new, hsame]
  · have hmem : key' ∈ s.keys ∧ (s.entry key).leases = s.leases ∧
        (s.entry key).leaseOf = s.leaseOf := by
      rw [KeyedLocks.entry] at hkey' ⊢
      split_ifs at hkey' ⊢
      · exact ⟨hkey', rfl, rfl⟩
      · exact ⟨Finset.mem_of_mem_insert_of_ne hkey' hsame, rfl, rfl⟩
    obtain ⟨hmem, hleases, hleaseOf⟩ := hmem
    obtain ⟨j, hj, rfl⟩ := h key' hmem
    rw [← hleases] at hj
    refine ⟨j, Finset.mem_insert_of_mem hj, ?_⟩
    rw [KeyedLocks.lease, leaseOf_addLease_old hlinked' key hj, hleaseOf]

/-! ### Dropping -/

theorem Linked.eraseKey (h : s.Linked) {key : K}
    (hnone : ∀ i ∈ s.leases, (s.leaseOf i).key ≠ key) :
    Linked { s with keys := s.keys.erase key } :=
  ⟨fun other hother ↦ h.lock_lt other (Finset.mem_of_mem_erase hother),
    fun key₁ h₁ key₂ h₂ ↦ h.lock_inj key₁ (Finset.mem_of_mem_erase h₁) key₂
      (Finset.mem_of_mem_erase h₂),
    h.lease_lt,
    fun i hi ↦ ⟨Finset.mem_erase_of_ne_of_mem (hnone i hi) (h.entry i hi).1, (h.entry i hi).2⟩,
    h.locked, h.exclusive⟩

theorem drop_keeps (hlinked : s.Linked) (hused : s.Used) {s' : KeyedLocks K}
    (hstep : s.drop i = some s') :
    s'.Linked ∧ s'.Used := by
  rw [drop] at hstep
  dsimp only at hstep
  split_ifs at hstep with hguard hentry hlast
  · obtain rfl := Option.some.inj hstep
    have hreleased := hlinked.release i
    have hnone := (hreleased.strongCount_eq_one hentry.1).mp hlast
    refine ⟨hreleased.eraseKey hnone, ?_⟩
    intro key hkey
    obtain ⟨hne, hmem⟩ := Finset.mem_erase.mp hkey
    obtain ⟨j, hj, rfl⟩ := hused key hmem
    refine ⟨j, Finset.mem_erase_of_ne_of_mem ?_ hj, rfl⟩
    rintro rfl
    exact hne rfl
  · obtain rfl := Option.some.inj hstep
    have hreleased := hlinked.release i
    refine ⟨hreleased, ?_⟩
    intro key hkey
    obtain ⟨j, hj, rfl⟩ := hused key hkey
    by_cases hji : j = i
    · subst hji
      have hsome := mt (hreleased.strongCount_eq_one hentry.1).mpr hlast
      push Not at hsome
      exact hsome
    · exact ⟨j, Finset.mem_erase_of_ne_of_mem hji hj, rfl⟩
  · exact absurd (hlinked.entry i hguard.1) hentry

/-! ## Runs -/

theorem step_keeps {a : LockAction K} (hlinked : s.Linked) (hused : s.Used) {s' : KeyedLocks K}
    (hstep : s.step a = some s') :
    s'.Linked ∧ s'.Used := by
  cases a with
  | lease key =>
      obtain rfl := Option.some.inj hstep
      exact ⟨hlinked.lease key, hused.lease hlinked key⟩
  | request i =>
      simp only [step, request] at hstep
      split_ifs at hstep with hi
      obtain rfl := Option.some.inj hstep
      exact ⟨hlinked.setWaiting hi, hused.setLease rfl⟩
  | acquire i =>
      simp only [step, acquire] at hstep
      split_ifs at hstep with hi
      obtain rfl := Option.some.inj hstep
      exact ⟨hlinked.setHeld hi.1 (Or.inr hi.2.2), hused.setHeld rfl⟩
  | cancel i =>
      simp only [step, cancel] at hstep
      split_ifs at hstep with hi
      obtain rfl := Option.some.inj hstep
      exact ⟨hlinked.setWaiting hi.1, hused.setLease rfl⟩
  | tryLock i =>
      simp only [step, tryLock] at hstep
      split_ifs at hstep with hi
      obtain rfl := Option.some.inj hstep
      exact ⟨hlinked.setHeld hi.1 (Or.inr hi.2), hused.setHeld rfl⟩
  | unlock i =>
      simp only [step, unlock] at hstep
      split_ifs at hstep with hi
      obtain rfl := Option.some.inj hstep
      exact ⟨hlinked.setHeld hi.1 (Or.inl hi.2), hused.setHeld rfl⟩
  | drop i => exact drop_keeps hlinked hused hstep

end KeyedLocks

variable [DecidableEq K]

theorem keyedLocks_invariant :
    (keyedLocksMachine (K := K)).Invariant (fun _ _ ↦ True) fun s ↦ s.Linked ∧ s.Used where
  init := by
    rintro s ⟨hkeys, hleases⟩
    constructor
    · constructor <;> simp [hkeys, hleases]
    · intro key hkey
      rw [hkeys] at hkey
      exact absurd hkey (Finset.notMem_empty key)
  step hs _ hstep := KeyedLocks.step_keeps hs.1 hs.2 hstep

/-- A lock has one holder, and the registry has the keys that are leased. -/
theorem keyedLocks_exclusive_and_tight {s : KeyedLocks K} (h : keyedLocksMachine.Reachable s) :
    (∀ i ∈ s.leases, ∀ j ∈ s.leases, (s.leaseOf i).key = (s.leaseOf j).key →
        (s.leaseOf i).held → (s.leaseOf j).held → i = j) ∧
      ∀ key, key ∈ s.keys ↔ ∃ i ∈ s.leases, (s.leaseOf i).key = key := by
  obtain ⟨hlinked, hused⟩ := keyedLocks_invariant.reachable h
  refine ⟨?_, fun key ↦ ⟨hused key, ?_⟩⟩
  · intro i hi j hj hkey hiheld hjheld
    refine hlinked.exclusive i hi j hj hiheld hjheld ?_
    rw [← (hlinked.entry i hi).2, ← (hlinked.entry j hj).2, hkey]
  · rintro ⟨i, hi, rfl⟩
    exact (hlinked.entry i hi).1

/-- Two leases of one key, of which the first has the lock. -/
theorem keyedLocks_exclusive_and_tight_pair :
    ∃ s : KeyedLocks ℕ, (0 ∈ s.leases ∧ 1 ∈ s.leases ∧ (s.leaseOf 0).held = true) ∧
      (∀ i ∈ s.leases, ∀ j ∈ s.leases, (s.leaseOf i).key = (s.leaseOf j).key →
          (s.leaseOf i).held → (s.leaseOf j).held → i = j) ∧
        ∀ key, key ∈ s.keys ↔ ∃ i ∈ s.leases, (s.leaseOf i).key = key := by
  let start : KeyedLocks ℕ := ⟨∅, fun _ ↦ 0, ∅, fun _ ↦ ⟨0, 0, 0, false⟩, fun _ ↦ false, 0, 0⟩
  have hrun : (([.lease 7, .lease 7, .tryLock 0, .request 1] : List (LockAction ℕ)).foldlM
      (fun s a ↦ if True then s.step a else none) start).any
        (fun s ↦ 0 ∈ s.leases ∧ 1 ∈ s.leases ∧ (s.leaseOf 0).held = true) = true := by
    decide
  obtain ⟨s, hs, hleases⟩ := (Option.any_eq_true _ _).mp hrun
  have hreachable : keyedLocksMachine.Reachable s :=
    ⟨start, ⟨rfl, rfl⟩, Machine.RunOf.of_foldlM (fun h ↦ h) hs⟩
  exact ⟨s, of_decide_eq_true hleases, keyedLocks_exclusive_and_tight hreachable⟩

end EnCroissant.Infra

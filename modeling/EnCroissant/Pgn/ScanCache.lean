import EnCroissant.Library.WeighedTable
import EnCroissant.Pgn.Scan

/-!
# The cache of PGN scans

Scans are cached by file and revision.  The cache counts the bytes it retains and
evicts the least recently used scans to stay within its limits.
-/

namespace EnCroissant

structure FileRevision where
  size : ℕ
  mtimeNanos : ℤ
  ctimeNanos : ℤ
  deriving DecidableEq, Repr

/-- A revision of a file, which is named by its device and inode. -/
structure CacheKey where
  identity : ℕ × ℕ
  revision : FileRevision
  deriving DecidableEq, Repr

structure CachedScan where
  games : List GameRange
  lastUsed : UInt64
  deriving DecidableEq

def maxCacheEntries : ℕ := 128

def maxCacheBytes : ℕ := 4 * 1024 * 1024

/-- `size_of_val` of a slice of ranges, each of two words. -/
def sizeOfVal (games : List GameRange) : ℕ := 16 * games.length

abbrev ScanTable := AList fun _ : CacheKey ↦ CachedScan

namespace ScanTable

def lastUsed (_ : CacheKey) (scan : CachedScan) : ℕ := scan.lastUsed.toNat

def bytes (_ : CacheKey) (scan : CachedScan) : ℕ := sizeOfVal scan.games

end ScanTable

structure PgnRepositoryInner where
  cache : ScanTable
  clock : UInt64
  retainedBytes : ℕ

namespace PgnRepositoryInner

def default : PgnRepositoryInner := ⟨∅, 0, 0⟩

/-- `clock.wrapping_add(1)`. -/
def tick (s : PgnRepositoryInner) : PgnRepositoryInner := { s with clock := s.clock + 1 }

def get (s : PgnRepositoryInner) (key : CacheKey) :
    Option (List GameRange) × PgnRepositoryInner :=
  let s := s.tick
  match s.cache.lookup key with
  | none => (none, s)
  | some scan =>
      (some scan.games, { s with cache := s.cache.insert key { scan with lastUsed := s.clock } })

/-- Removes an entry and subtracts its bytes. -/
def remove (s : PgnRepositoryInner) (key : CacheKey) : PgnRepositoryInner :=
  match s.cache.lookup key with
  | none => s
  | some scan =>
      { s with
        cache := s.cache.erase key
        retainedBytes := s.retainedBytes - sizeOfVal scan.games }

theorem size_remove {oldest : AList.Oldest ScanTable.lastUsed} {s : PgnRepositoryInner}
    {key : CacheKey} (h : oldest.pick s.cache = some key) :
    (s.remove key).cache.size < s.cache.size := by
  obtain ⟨scan, hscan, -⟩ := oldest.least h
  rw [remove, hscan]
  exact oldest.size_erase h

/-- The loop that evicts until the new entry fits, where `room` is what the limit
leaves besides it. -/
def evictFor (oldest : AList.Oldest ScanTable.lastUsed) (room : ℕ) (s : PgnRepositoryInner) :
    PgnRepositoryInner :=
  if maxCacheEntries ≤ s.cache.size ∨ room < s.retainedBytes then
    match _h : oldest.pick s.cache with
    | some key => evictFor oldest room (s.remove key)
    | none => s
  else s
termination_by s.cache.size
decreasing_by exact size_remove ‹_›

/-- Subtraction of machine words, which panics below zero. -/
def checkedSub (a b : ℕ) : Except Error ℕ :=
  if b ≤ a then .ok (a - b) else .error (.panic "attempt to subtract with overflow")

/-- Addition of machine words, which panics above the greatest one. -/
def checkedAdd (a b : ℕ) : Except Error ℕ :=
  if a + b < 2 ^ 64 then .ok (a + b) else .error (.panic "attempt to add with overflow")

def retainIfWithinBudget (oldest : AList.Oldest ScanTable.lastUsed) (cacheByteLimit : ℕ)
    (s : PgnRepositoryInner) (key : CacheKey) (games : List GameRange) :
    Except Error PgnRepositoryInner := do
  let s := s.tick.remove key
  if cacheByteLimit < sizeOfVal games then return s
  let room ← checkedSub cacheByteLimit (sizeOfVal games)
  let evicted := s.evictFor oldest room
  let retainedBytes ← checkedAdd evicted.retainedBytes (sizeOfVal games)
  return { evicted with
    cache := evicted.cache.insert key ⟨games, s.clock⟩
    retainedBytes := retainedBytes }

def invalidate (s : PgnRepositoryInner) (identity : ℕ × ℕ) : PgnRepositoryInner :=
  let removedBytes :=
    (s.cache.retain fun key _ ↦ decide (key.identity = identity)).weight ScanTable.bytes
  { s with
    cache := s.cache.retain fun key _ ↦ decide (key.identity ≠ identity)
    retainedBytes := s.retainedBytes - removedBytes }

/-! ## Runs -/

inductive CacheOp where
  | get (key : CacheKey)
  | retain (key : CacheKey) (games : List GameRange)
  | invalidate (identity : ℕ × ℕ)

/-- The key that an operation looks up or stores. -/
def CacheOp.uses : CacheOp → Option CacheKey
  | get key => some key
  | retain key _ => some key
  | invalidate _ => none

section

variable (oldest : AList.Oldest ScanTable.lastUsed) (cacheByteLimit : ℕ)

def act (s : PgnRepositoryInner) : CacheOp → Except Error PgnRepositoryInner
  | .get key => .ok (s.get key).2
  | .retain key games => s.retainIfWithinBudget oldest cacheByteLimit key games
  | .invalidate identity => .ok (s.invalidate identity)

/-- The cache after the operations, the first one first. -/
def run (ops : List CacheOp) : Except Error PgnRepositoryInner :=
  ops.foldlM (act oldest cacheByteLimit) default

end

/-- The keys that were used, the latest first. -/
def usesOf (ops : List CacheOp) : List CacheKey := (ops.filterMap CacheOp.uses).reverse

/-- The number of the last use of a key, zero if there was none. -/
def lastUse : List CacheKey → CacheKey → ℕ
  | [], _ => 0
  | used :: earlier, key => if used = key then (used :: earlier).length else lastUse earlier key

/-! ## Accounting -/

/-- The counter is the weight of the table, and both limits hold. -/
structure Accounted (cacheByteLimit : ℕ) (s : PgnRepositoryInner) : Prop where
  retained : s.retainedBytes = s.cache.weight ScanTable.bytes
  bytes : s.retainedBytes ≤ cacheByteLimit
  entries : s.cache.size ≤ maxCacheEntries

variable {oldest : AList.Oldest ScanTable.lastUsed} {cacheByteLimit room : ℕ}
  {s s' : PgnRepositoryInner} {key : CacheKey} {games : List GameRange}

@[simp] theorem remove_cache : (s.remove key).cache = s.cache.erase key := by
  rw [remove]
  cases h : s.cache.lookup key with
  | none => exact (AList.erase_of_notMem (AList.lookup_eq_none.mp h)).symm
  | some scan => rfl

@[simp] theorem remove_clock : (s.remove key).clock = s.clock := by
  rw [remove]
  cases s.cache.lookup key <;> rfl

/-- What a removal subtracts was counted. -/
theorem remove_retained (h : s.retainedBytes = s.cache.weight ScanTable.bytes) :
    (s.remove key).retainedBytes = (s.remove key).cache.weight ScanTable.bytes := by
  rw [remove_cache, remove]
  cases hlookup : s.cache.lookup key with
  | none => rw [AList.erase_of_notMem (AList.lookup_eq_none.mp hlookup), ← h]
  | some scan =>
      have hweight := AList.weight_erase (w := ScanTable.bytes) hlookup
      have hscan : ScanTable.bytes key scan = sizeOfVal scan.games := rfl
      change s.retainedBytes - sizeOfVal scan.games = _
      omega

/-- The condition of the eviction loop, on the table alone. -/
def overfull (room : ℕ) (cache : ScanTable) : Bool :=
  maxCacheEntries ≤ cache.size || room < cache.weight ScanTable.bytes

/-- The loop with the counter evicts as the table alone calls for. -/
theorem evictFor_eq (h : s.retainedBytes = s.cache.weight ScanTable.bytes) :
    s.evictFor oldest room =
      { cache := AList.evictWhile oldest (overfull room) s.cache
        clock := s.clock
        retainedBytes :=
          (AList.evictWhile oldest (overfull room) s.cache).weight ScanTable.bytes } := by
  fun_induction evictFor oldest room s with
  | case1 s hfull key hpick ih =>
      have hover : overfull room s.cache = true := by
        rw [h] at hfull
        simpa [overfull] using hfull
      rw [ih (remove_retained h), AList.evictWhile_of_pick oldest _ hover hpick, remove_cache,
        remove_clock]
  | case2 s _ hnone =>
      rw [AList.evictWhile_of_none oldest _ hnone, ← h]
  | case3 s hroom =>
      have hover : overfull room s.cache = false := by
        rw [h] at hroom
        simpa [overfull] using hroom
      rw [AList.evictWhile_of_not oldest _ hover, ← h]

/-- After the eviction there is room for the new entry. -/
theorem evictWhile_room (cache : ScanTable) :
    let kept := AList.evictWhile oldest (overfull room) cache
    kept.size < maxCacheEntries ∧ kept.weight ScanTable.bytes ≤ room := by
  rcases AList.evictWhile_not_full oldest (overfull room) cache with hfull | hempty
  · simpa [overfull] using hfull
  · exact ⟨by rw [hempty]; decide, (AList.weight_of_size hempty).le.trans (Nat.zero_le _)⟩

/-- What is left for a new entry: the table without its key, cut down to make room. -/
def keptFor (oldest : AList.Oldest ScanTable.lastUsed) (cacheByteLimit : ℕ)
    (cache : ScanTable) (key : CacheKey) (games : List GameRange) : ScanTable :=
  AList.evictWhile oldest (overfull (cacheByteLimit - sizeOfVal games)) (cache.erase key)

theorem lookup_keptFor {a : CacheKey} {scan : CachedScan}
    (h : (keptFor oldest cacheByteLimit s.cache key games).lookup a = some scan) :
    a ≠ key ∧ s.cache.lookup a = some scan :=
  AList.lookup_of_erase (AList.lookup_of_evictWhile oldest _ h)

/-- An insertion never fails: it drops its key, and stores the entry if it can fit. -/
theorem retainIfWithinBudget_eq (h : Accounted cacheByteLimit s)
    (hlimit : cacheByteLimit < 2 ^ 64) :
    s.retainIfWithinBudget oldest cacheByteLimit key games = .ok
      (if cacheByteLimit < sizeOfVal games then s.tick.remove key
      else
        let kept := keptFor oldest cacheByteLimit s.cache key games
        { cache := kept.insert key ⟨games, s.clock + 1⟩
          clock := s.clock + 1
          retainedBytes := kept.weight ScanTable.bytes + sizeOfVal games }) := by
  have hretained : (s.tick.remove key).retainedBytes =
      (s.tick.remove key).cache.weight ScanTable.bytes := remove_retained h.retained
  rw [retainIfWithinBudget]
  by_cases hlarge : cacheByteLimit < sizeOfVal games
  · simp [hlarge, pure, Except.pure]
  · obtain ⟨-, hroom⟩ :=
      @evictWhile_room oldest (cacheByteLimit - sizeOfVal games) (s.cache.erase key)
    have hfits : (keptFor oldest cacheByteLimit s.cache key games).weight ScanTable.bytes +
        sizeOfVal games < 2 ^ 64 := by
      rw [keptFor]
      omega
    have hadd : checkedAdd ((keptFor oldest cacheByteLimit s.cache key games).weight
        ScanTable.bytes) (sizeOfVal games) = .ok _ := if_pos hfits
    simp only [if_neg hlarge, checkedSub, if_pos (not_lt.mp hlarge), bind, Except.bind,
      evictFor_eq hretained, remove_cache, remove_clock]
    rw [keptFor] at hadd
    simp only [tick, hadd]
    rfl

theorem Accounted.retain (h : Accounted cacheByteLimit s) (hlimit : cacheByteLimit < 2 ^ 64) :
    ∃ s', s.retainIfWithinBudget oldest cacheByteLimit key games = .ok s' ∧
      Accounted cacheByteLimit s' := by
  refine ⟨_, retainIfWithinBudget_eq h hlimit, ?_⟩
  split_ifs with hlarge
  · refine ⟨remove_retained h.retained, ?_, ?_⟩
    · rw [remove_retained (s := s.tick) h.retained, remove_cache]
      refine (AList.weight_erase_le key s.cache).trans ?_
      rw [← h.retained]
      exact h.bytes
    · rw [remove_cache]
      exact (AList.size_erase_le key s.cache).trans h.entries
  · obtain ⟨hsize, hroom⟩ :=
      @evictWhile_room oldest (cacheByteLimit - sizeOfVal games) (s.cache.erase key)
    have habsent : key ∉ keptFor oldest cacheByteLimit s.cache key games := by
      intro hmem
      obtain ⟨scan, hscan⟩ := Option.isSome_iff_exists.mp (AList.lookup_isSome.mpr hmem)
      exact (lookup_keptFor hscan).1 rfl
    refine ⟨?_, ?_, ?_⟩
    · rw [AList.weight_insert, AList.erase_of_notMem habsent, Nat.add_comm]
      rfl
    · change (keptFor oldest cacheByteLimit s.cache key games).weight ScanTable.bytes +
        sizeOfVal games ≤ cacheByteLimit
      rw [keptFor]
      omega
    · rw [AList.size_insert_of_notMem habsent]
      exact hsize

theorem Accounted.get (h : Accounted cacheByteLimit s) : Accounted cacheByteLimit (s.get key).2 := by
  rw [PgnRepositoryInner.get]
  cases hlookup : s.tick.cache.lookup key with
  | none => exact ⟨h.retained, h.bytes, h.entries⟩
  | some scan =>
      have hweight := AList.weight_erase (w := ScanTable.bytes) hlookup
      refine ⟨?_, h.bytes, ?_⟩
      · rw [AList.weight_insert]
        have hsame : ScanTable.bytes key { scan with lastUsed := s.tick.clock } =
            ScanTable.bytes key scan := rfl
        rw [hsame, Nat.add_comm, hweight]
        exact h.retained
      · rw [AList.size_insert_of_mem (AList.mem_of_lookup hlookup)]
        exact h.entries

theorem Accounted.invalidate (h : Accounted cacheByteLimit s) (identity : ℕ × ℕ) :
    Accounted cacheByteLimit (s.invalidate identity) := by
  have hweight := AList.weight_retain ScanTable.bytes
    (fun key _ ↦ decide (key.identity = identity)) s.cache
  have hretained := h.retained
  simp only [← decide_not] at hweight
  refine ⟨?_, (Nat.sub_le _ _).trans h.bytes, (AList.size_retain_le _ _).trans h.entries⟩
  simp only [PgnRepositoryInner.invalidate, ne_eq]
  omega

/-! ## The order of use -/

/-- The stamps of the entries are the numbers of their last uses. -/
structure Dated (uses : List CacheKey) (s : PgnRepositoryInner) : Prop where
  clock : s.clock = UInt64.ofNat uses.length
  used : ∀ {key scan}, s.cache.lookup key = some scan →
    key ∈ uses ∧ scan.lastUsed = UInt64.ofNat (lastUse uses key)

theorem lastUse_self (key : CacheKey) (earlier : List CacheKey) :
    lastUse (key :: earlier) key = earlier.length + 1 := by
  simp [lastUse]

theorem lastUse_of_ne {used : CacheKey} (h : used ≠ key) (earlier : List CacheKey) :
    lastUse (used :: earlier) key = lastUse earlier key := by
  rw [lastUse, if_neg h]

theorem lastUse_le (uses : List CacheKey) (key : CacheKey) : lastUse uses key ≤ uses.length := by
  induction uses with
  | nil => exact le_rfl
  | cons used earlier ih =>
      by_cases h : used = key
      · rw [h, lastUse_self, List.length_cons]
      · rw [lastUse_of_ne h, List.length_cons]
        exact ih.trans (Nat.le_succ _)

/-- Keys with one last use are one key. -/
theorem lastUse_inj {uses : List CacheKey} {key' : CacheKey} (hkey : key ∈ uses)
    (hkey' : key' ∈ uses) (h : lastUse uses key = lastUse uses key') :
    key = key' := by
  induction uses with
  | nil => cases hkey
  | cons used earlier ih =>
      have hle := lastUse_le earlier key
      have hle' := lastUse_le earlier key'
      by_cases heq : used = key
      · by_cases heq' : used = key'
        · exact heq.symm.trans heq'
        · rw [heq, lastUse_self, ← heq, lastUse_of_ne heq'] at h
          omega
      · by_cases heq' : used = key'
        · rw [heq', lastUse_self, ← heq', lastUse_of_ne heq] at h
          omega
        · rw [lastUse_of_ne heq, lastUse_of_ne heq'] at h
          refine ih ?_ ?_ h
          · exact (List.mem_cons.mp hkey).resolve_left (Ne.symm heq)
          · exact (List.mem_cons.mp hkey').resolve_left (Ne.symm heq')

variable {uses : List CacheKey}

/-- A use stamps its key, if it is still cached, and leaves the others as they were. -/
theorem Dated.use (h : Dated uses s) (hclock : s'.clock = s.clock + 1)
    (hentries : ∀ a scan, s'.cache.lookup a = some scan →
      a = key ∧ scan.lastUsed = s.clock + 1 ∨ a ≠ key ∧ s.cache.lookup a = some scan) :
    Dated (key :: uses) s' := by
  have hnext : s.clock + 1 = UInt64.ofNat (key :: uses).length := by
    rw [h.clock, List.length_cons, UInt64.ofNat_add]
    rfl
  refine ⟨hclock.trans hnext, fun {a scan} hscan ↦ ?_⟩
  rcases hentries a scan hscan with ⟨rfl, hlast⟩ | ⟨hne, hold⟩
  · refine ⟨List.mem_cons_self, ?_⟩
    rw [lastUse_self, hlast, hnext, List.length_cons]
  · obtain ⟨hmem, hlast⟩ := h.used hold
    refine ⟨List.mem_cons_of_mem _ hmem, ?_⟩
    rw [lastUse_of_ne hne.symm, hlast]

theorem Dated.get (h : Dated uses s) (key : CacheKey) : Dated (key :: uses) (s.get key).2 := by
  rw [PgnRepositoryInner.get]
  cases hlookup : s.tick.cache.lookup key with
  | none =>
      refine h.use rfl fun a scan hscan ↦ Or.inr ⟨?_, hscan⟩
      rintro rfl
      rw [hlookup] at hscan
      cases hscan
  | some found =>
      refine h.use rfl fun a scan hscan ↦ ?_
      by_cases heq : a = key
      · subst heq
        rw [AList.lookup_insert, Option.some.injEq] at hscan
        exact Or.inl ⟨rfl, by rw [← hscan]; rfl⟩
      · rw [AList.lookup_insert_ne heq] at hscan
        exact Or.inr ⟨heq, hscan⟩

theorem Dated.retain (h : Dated uses s) (haccounted : Accounted cacheByteLimit s)
    (hlimit : cacheByteLimit < 2 ^ 64)
    (hretain : s.retainIfWithinBudget oldest cacheByteLimit key games = .ok s') :
    Dated (key :: uses) s' := by
  rw [retainIfWithinBudget_eq haccounted hlimit, Except.ok.injEq] at hretain
  subst hretain
  split_ifs with hlarge
  · refine h.use remove_clock fun a scan hscan ↦ Or.inr ?_
    rw [remove_cache] at hscan
    exact AList.lookup_of_erase hscan
  · refine h.use rfl fun a scan hscan ↦ ?_
    by_cases heq : a = key
    · subst heq
      rw [AList.lookup_insert, Option.some.injEq] at hscan
      exact Or.inl ⟨rfl, by rw [← hscan]⟩
    · rw [AList.lookup_insert_ne heq] at hscan
      exact Or.inr (lookup_keptFor hscan)

theorem Dated.invalidate (h : Dated uses s) (identity : ℕ × ℕ) :
    Dated uses (s.invalidate identity) :=
  ⟨h.clock, fun hscan ↦ h.used (AList.lookup_retain.mp hscan).1⟩

theorem usesOf_append (ops : List CacheOp) (op : CacheOp) :
    usesOf (ops ++ [op]) = op.uses.toList ++ usesOf ops := by
  rw [usesOf, usesOf, List.filterMap_append, List.reverse_append]
  cases op <;> rfl

theorem run_append {ops : List CacheOp} (h : run oldest cacheByteLimit ops = .ok s)
    (op : CacheOp) :
    run oldest cacheByteLimit (ops ++ [op]) = s.act oldest cacheByteLimit op := by
  rw [run] at h
  rw [run, List.foldlM_append, h]
  simp only [List.foldlM_cons, List.foldlM_nil, bind_pure]
  rfl

theorem run_append_retain {ops : List CacheOp} (h : run oldest cacheByteLimit ops = .ok s)
    (hretain : s.retainIfWithinBudget oldest cacheByteLimit key games = .ok s') :
    run oldest cacheByteLimit (ops ++ [.retain key games]) = .ok s' :=
  (run_append h _).trans hretain

/-- No run fails, and in every state the bytes are accounted for and the stamps are
the numbers of the last uses. -/
theorem run_ok (oldest : AList.Oldest ScanTable.lastUsed) (hlimit : cacheByteLimit < 2 ^ 64)
    (ops : List CacheOp) :
    ∃ s, run oldest cacheByteLimit ops = .ok s ∧ Accounted cacheByteLimit s ∧
      Dated (usesOf ops) s := by
  induction ops using List.reverseRecOn with
  | nil =>
      refine ⟨default, rfl, ⟨rfl, Nat.zero_le _, Nat.zero_le _⟩, rfl, fun hscan ↦ ?_⟩
      simp [default] at hscan
  | append_singleton ops op ih =>
      obtain ⟨s, hrun, haccounted, hdated⟩ := ih
      rw [run_append hrun, usesOf_append]
      cases op with
      | get key => exact ⟨_, rfl, haccounted.get, hdated.get key⟩
      | retain key games =>
          obtain ⟨s', hretain, haccounted'⟩ := haccounted.retain hlimit
          exact ⟨s', hretain, haccounted', hdated.retain haccounted hlimit hretain⟩
      | invalidate identity =>
          exact ⟨_, rfl, haccounted.invalidate identity, hdated.invalidate identity⟩

/-- An insertion after these operations evicts entries that were last used before
all that it keeps. -/
def EvictsLeastRecent (oldest : AList.Oldest ScanTable.lastUsed) (cacheByteLimit : ℕ)
    (ops : List CacheOp) : Prop :=
  ∀ s key games s', run oldest cacheByteLimit ops = .ok s →
    s.retainIfWithinBudget oldest cacheByteLimit key games = .ok s' →
      ∀ evicted kept, evicted ≠ key → kept ≠ key → evicted ∈ s.cache → evicted ∉ s'.cache →
        kept ∈ s'.cache → lastUse (usesOf ops) evicted < lastUse (usesOf ops) kept

/-- Every run of the cache keeps its counter and its limits.  While the clock has
not wrapped, the least recently used entries are evicted. -/
theorem cache_run (oldest : AList.Oldest ScanTable.lastUsed) (hlimit : cacheByteLimit < 2 ^ 64)
    (ops : List CacheOp) :
    (∃ s, run oldest cacheByteLimit ops = .ok s ∧
      s.retainedBytes = s.cache.weight ScanTable.bytes ∧ s.retainedBytes ≤ cacheByteLimit ∧
        s.cache.size ≤ maxCacheEntries) ∧
      ((usesOf ops).length < 2 ^ 64 → EvictsLeastRecent oldest cacheByteLimit ops) := by
  obtain ⟨s, hrun, haccounted, hdated⟩ := run_ok oldest hlimit ops
  refine ⟨⟨s, hrun, haccounted.retained, haccounted.bytes, haccounted.entries⟩, ?_⟩
  intro hwrap s₁ key games s' hrun₁ hretain evicted kept hevictedKey hkeptKey hcached hgone hkept
  obtain rfl : s = s₁ := Except.ok.inj (hrun.symm.trans hrun₁)
  obtain ⟨old, hold⟩ := Option.isSome_iff_exists.mp (AList.lookup_isSome.mpr hcached)
  obtain ⟨new, hnew⟩ := Option.isSome_iff_exists.mp (AList.lookup_isSome.mpr hkept)
  have hnone := AList.lookup_eq_none.mpr hgone
  rw [retainIfWithinBudget_eq haccounted hlimit, Except.ok.injEq] at hretain
  subst hretain
  split_ifs at hnew hnone with hlarge
  · rw [remove_cache, AList.lookup_erase_ne hevictedKey] at hnone
    rw [show s.tick.cache = s.cache from rfl, hold] at hnone
    cases hnone
  · rw [AList.lookup_insert_ne hevictedKey] at hnone
    rw [AList.lookup_insert_ne hkeptKey] at hnew
    have hrank := AList.rank_le_of_evictWhile oldest _
      ((AList.lookup_erase_ne hevictedKey).trans hold) hnone hnew
    obtain ⟨hmemOld, hlastOld⟩ := hdated.used hold
    obtain ⟨hmemNew, hlastNew⟩ := hdated.used (lookup_keptFor hnew).2
    have hleOld := lastUse_le (usesOf ops) evicted
    have hleNew := lastUse_le (usesOf ops) kept
    simp only [ScanTable.lastUsed, hlastOld, hlastNew, UInt64.toNat_ofNat'] at hrank
    rw [Nat.mod_eq_of_lt (by omega), Nat.mod_eq_of_lt (by omega)] at hrank
    refine hrank.lt_of_ne fun heq ↦ ?_
    have hsame := lastUse_inj hmemOld hmemNew heq
    rw [hsame] at hnone
    rw [hnone] at hnew
    cases hnew

/-! ## A clock that wraps -/

section Wrap

/-- A key for each inode. -/
def inodeKey (inode : ℕ) : CacheKey := ⟨(0, inode), ⟨0, 0, 0⟩⟩

/-- Ranges of half the cache. -/
def halfCache : List GameRange := List.replicate 131072 ⟨0, 1⟩

theorem sizeOfVal_halfCache : sizeOfVal halfCache = 2097152 := by
  rw [sizeOfVal, halfCache, List.length_replicate]

theorem cache_run_halfCache :
    (∃ s, run (.first ScanTable.lastUsed) maxCacheBytes [.retain (inodeKey 1) halfCache] = .ok s ∧
      s.retainedBytes = s.cache.weight ScanTable.bytes ∧ s.retainedBytes ≤ maxCacheBytes ∧
        s.cache.size ≤ maxCacheEntries) ∧
      EvictsLeastRecent (.first ScanTable.lastUsed) maxCacheBytes
        [.retain (inodeKey 1) halfCache] := by
  obtain ⟨hcounted, hrecent⟩ := @cache_run maxCacheBytes (.first ScanTable.lastUsed) (by decide)
    [.retain (inodeKey 1) halfCache]
  exact ⟨hcounted, hrecent (by decide)⟩

/-- Lookups of a file that is not cached, until two ticks before the clock wraps, and
then two insertions that fill the cache. -/
def opsToWrap : List CacheOp :=
  List.replicate (2 ^ 64 - 2) (.get (inodeKey 0)) ++
    [.retain (inodeKey 1) halfCache] ++ [.retain (inodeKey 2) halfCache]

theorem run_misses (oldest : AList.Oldest ScanTable.lastUsed) (limit n : ℕ) :
    run oldest limit (List.replicate n (.get (inodeKey 0))) = .ok ⟨∅, UInt64.ofNat n, 0⟩ := by
  induction n with
  | zero => rfl
  | succ n ih =>
      rw [List.replicate_succ', run_append ih, UInt64.ofNat_add]
      rfl

theorem keptFor_of_room {cache : ScanTable}
    (h : overfull (cacheByteLimit - sizeOfVal games) (cache.erase key) = false) :
    keptFor oldest cacheByteLimit cache key games = cache.erase key := by
  rw [keptFor, AList.evictWhile_of_not oldest _ h]

/-- The scan of the first insertion, stamped by the last tick before the wrap. -/
def oneScan : ScanTable :=
  (∅ : ScanTable).insert (inodeKey 1) ⟨halfCache, UInt64.ofNat (2 ^ 64 - 1)⟩

/-- The second one is stamped zero. -/
def twoScans : ScanTable := oneScan.insert (inodeKey 2) ⟨halfCache, 0⟩

theorem inodeKey_two_notMem : inodeKey 2 ∉ oneScan := by
  rw [oneScan, AList.mem_insert]
  simp [inodeKey]

theorem bytes_halfCache (key : CacheKey) (lastUsed : UInt64) :
    ScanTable.bytes key ⟨halfCache, lastUsed⟩ = 2097152 :=
  sizeOfVal_halfCache

theorem weight_oneScan : oneScan.weight ScanTable.bytes = 2097152 := by
  rw [oneScan, AList.weight_insert, bytes_halfCache,
    AList.erase_of_notMem (AList.notMem_empty _), AList.weight_empty]

theorem size_oneScan : oneScan.size = 1 := by
  rw [oneScan, AList.size_insert]
  rfl

theorem weight_twoScans : twoScans.weight ScanTable.bytes = 4194304 := by
  rw [twoScans, AList.weight_insert, AList.erase_of_notMem inodeKey_two_notMem, weight_oneScan,
    bytes_halfCache]

theorem maxCacheBytes_eq : maxCacheBytes = 4194304 := rfl

/-- An insertion of half the cache into a table that leaves room for it. -/
theorem retain_halfCache (h : Accounted maxCacheBytes s) (habsent : key ∉ s.cache)
    (hsize : s.cache.size < maxCacheEntries)
    (hbytes : s.cache.weight ScanTable.bytes ≤ 2097152) :
    s.retainIfWithinBudget oldest maxCacheBytes key halfCache = .ok
      { cache := s.cache.insert key ⟨halfCache, s.clock + 1⟩
        clock := s.clock + 1
        retainedBytes := s.cache.weight ScanTable.bytes + 2097152 } := by
  have herase := AList.erase_of_notMem habsent
  have hroom : overfull (maxCacheBytes - sizeOfVal halfCache) (s.cache.erase key) = false := by
    rw [herase, sizeOfVal_halfCache, maxCacheBytes_eq]
    simpa [overfull] using ⟨hsize, hbytes⟩
  have hfits : ¬ maxCacheBytes < sizeOfVal halfCache := by
    rw [sizeOfVal_halfCache, maxCacheBytes_eq]
    decide
  rw [retainIfWithinBudget_eq h (by decide), if_neg hfits, keptFor_of_room hroom, herase,
    sizeOfVal_halfCache]

theorem run_opsToWrap (oldest : AList.Oldest ScanTable.lastUsed) :
    run oldest maxCacheBytes opsToWrap = .ok ⟨twoScans, 0, 4194304⟩ := by
  have hfirst : (⟨∅, UInt64.ofNat (2 ^ 64 - 2), 0⟩ : PgnRepositoryInner).retainIfWithinBudget
      oldest maxCacheBytes (inodeKey 1) halfCache =
        .ok ⟨oneScan, UInt64.ofNat (2 ^ 64 - 1), 2097152⟩ :=
    retain_halfCache ⟨rfl, Nat.zero_le _, Nat.zero_le _⟩ (AList.notMem_empty _) (by decide)
      (Nat.zero_le _)
  have hsecond : (⟨oneScan, UInt64.ofNat (2 ^ 64 - 1), 2097152⟩ :
      PgnRepositoryInner).retainIfWithinBudget oldest maxCacheBytes (inodeKey 2) halfCache =
        .ok ⟨twoScans, 0, 4194304⟩ := by
    have haccounted : Accounted maxCacheBytes ⟨oneScan, UInt64.ofNat (2 ^ 64 - 1), 2097152⟩ :=
      ⟨weight_oneScan.symm, by decide, by rw [size_oneScan]; decide⟩
    have hstored := @retain_halfCache oldest _ _ haccounted inodeKey_two_notMem
      (by rw [size_oneScan]; decide) weight_oneScan.le
    rw [weight_oneScan] at hstored
    exact hstored
  rw [opsToWrap]
  exact run_append_retain (run_append_retain (run_misses oldest maxCacheBytes _) hfirst) hsecond

/-- The third insertion evicts the entry stamped zero. -/
theorem keptFor_twoScans (oldest : AList.Oldest ScanTable.lastUsed) :
    keptFor oldest maxCacheBytes twoScans (inodeKey 3) halfCache = oneScan := by
  have hthree : inodeKey 3 ∉ twoScans := by
    rw [twoScans, AList.mem_insert, oneScan, AList.mem_insert]
    simp [inodeKey]
  have hfull : overfull (maxCacheBytes - sizeOfVal halfCache) twoScans = true := by
    rw [sizeOfVal_halfCache, maxCacheBytes_eq]
    simp [overfull, weight_twoScans]
  have hone : overfull (maxCacheBytes - sizeOfVal halfCache) oneScan = false := by
    rw [sizeOfVal_halfCache, maxCacheBytes_eq]
    simp [overfull, weight_oneScan, size_oneScan, maxCacheEntries]
  have hpick : oldest.pick twoScans = some (inodeKey 2) := by
    cases hchoice : oldest.pick twoScans with
    | none =>
        have hsize := oldest.size_of_none hchoice
        rw [twoScans, AList.size_insert] at hsize
        cases hsize
    | some key =>
        obtain ⟨scan, hscan, hleast⟩ := oldest.least hchoice
        have hzero := hleast (inodeKey 2) ⟨halfCache, 0⟩ (AList.lookup_insert oneScan)
        by_cases heq : key = inodeKey 2
        · rw [heq]
        · rw [twoScans, AList.lookup_insert_ne heq, oneScan] at hscan
          by_cases heq' : key = inodeKey 1
          · subst heq'
            rw [AList.lookup_insert, Option.some.injEq] at hscan
            subst hscan
            exact absurd hzero (by decide)
          · rw [AList.lookup_insert_ne heq', AList.lookup_empty] at hscan
            cases hscan
  rw [keptFor, AList.erase_of_notMem hthree, AList.evictWhile_of_pick oldest _ hfull hpick]
  have herase : twoScans.erase (inodeKey 2) = oneScan := by
    rw [twoScans, AList.erase_insert, AList.erase_of_notMem inodeKey_two_notMem]
  rw [herase, AList.evictWhile_of_not oldest _ hone]

/-- After 2^64 ticks the newest entry is the oldest by its stamp, and is evicted. -/
theorem not_evictsLeastRecent_opsToWrap :
    ¬ EvictsLeastRecent (.first ScanTable.lastUsed) maxCacheBytes opsToWrap := by
  intro h
  have haccounted : Accounted maxCacheBytes ⟨twoScans, 0, 4194304⟩ := by
    refine ⟨weight_twoScans.symm, by decide, ?_⟩
    rw [twoScans, AList.size_insert, AList.erase_of_notMem inodeKey_two_notMem, size_oneScan]
    decide
  have hretain := @retainIfWithinBudget_eq (.first ScanTable.lastUsed) maxCacheBytes _
    (inodeKey 3) halfCache haccounted (by decide)
  rw [if_neg (by rw [sizeOfVal_halfCache, maxCacheBytes_eq]; decide)] at hretain
  simp only [keptFor_twoScans] at hretain
  have hlast := h _ _ _ _ (run_opsToWrap _) hretain (inodeKey 2) (inodeKey 1) (by decide) (by decide)
    ?_ ?_ ?_
  · have huses : usesOf opsToWrap = inodeKey 2 :: inodeKey 1 ::
        usesOf (List.replicate (2 ^ 64 - 2) (.get (inodeKey 0))) := by
      rw [opsToWrap, usesOf_append, usesOf_append]
      simp only [CacheOp.uses, Option.toList_some, List.singleton_append]
    rw [huses, lastUse_self, lastUse_of_ne (by decide), lastUse_self, List.length_cons] at hlast
    exact absurd hlast (by omega)
  · exact (AList.mem_insert oneScan).mpr (Or.inl rfl)
  · intro hmem
    rcases (AList.mem_insert oneScan).mp hmem with heq | hmem
    · exact absurd heq (by decide)
    · exact inodeKey_two_notMem hmem
  · rw [AList.mem_insert, oneScan, AList.mem_insert]
    exact Or.inr (Or.inl rfl)

end Wrap

end PgnRepositoryInner

end EnCroissant

import Mathlib
import EnCroissant.Library.BoundedCache
import EnCroissant.Library.Machine

/-!
# The cache of search indexes

Loaders read the invalidation counter, load an index and insert it; mutators
count up and then evict.  Every call that takes the mutex of the indexes is one
step, and the counter is read and changed outside of it.
-/

namespace EnCroissant.Infra

def searchIndexCacheCapacity : ℕ := 8

structure IndexSource where
  object : ℕ × ℕ
  revision : ℕ
  databaseLength : ℕ
  databaseModifiedNanos : ℕ
  deriving DecidableEq

structure SearchIndexIdentity where
  parentObject : ℕ × ℕ
  sidecarObject : ℕ × ℕ
  source : IndexSource
  length : ℕ
  modified : ℕ
  deriving DecidableEq

/-- The database of an invalidation: its directory, where it could be read, and its file. -/
structure InvalidationScope where
  parent : Option (ℕ × ℕ)
  object : ℕ × ℕ
  deriving DecidableEq

def SearchIndexIdentity.matchesInvalidationScope (identity : SearchIndexIdentity)
    (scope : InvalidationScope) : Bool :=
  scope.parent.all fun parent ↦
    identity.parentObject = parent || identity.source.object = scope.object

/-- A mapped index, with the time its loader took its snapshot at. -/
structure LoadedIndex (Index : Type) where
  index : Index
  snapshotAt : ℕ

/-- An invalidation that is over, with the times it began and ended at. -/
structure Invalidation where
  scope : InvalidationScope
  began : ℕ
  ended : ℕ

/-- Where a client is in a load or an invalidation. -/
inductive ClientState (Index : Type) where
  | idle
  | snapped (invalidationSnapshot : UInt64) (snapshotAt bumps : ℕ)
  | loaded (invalidationSnapshot : UInt64) (snapshotAt bumps : ℕ)
      (identity : SearchIndexIdentity) (index : Index)
  | got (identity : SearchIndexIdentity) (index : Index)
  | evicting (scope : InvalidationScope) (began : ℕ)

/-- The client has nothing in hand. -/
def ClientState.free {Index : Type} : ClientState Index → Bool
  | .idle => true
  | .got _ _ => true
  | _ => false

/-- The cache and its clients.  Time, the number of invalidations that began and the
ones that ended are kept for the record only. -/
structure SearchCache (Index ι : Type) where
  indexes : BoundedCache SearchIndexIdentity (LoadedIndex Index)
  invalidationCounter : UInt64
  clients : ι → ClientState Index
  now : ℕ
  bumps : ℕ
  lastBump : ℕ
  ended : List Invalidation

inductive CacheAction (Index : Type) where
  | invalidationSnapshot
  | load (identity : SearchIndexIdentity) (index : Index)
  | insertIndex
  | getIndex (identity : SearchIndexIdentity)
  | bump (scope : InvalidationScope)
  | evict
  | clear

namespace SearchCache

variable {Index ι : Type} [DecidableEq ι]

def Empty (s : SearchCache Index ι) : Prop :=
  s.indexes = .empty ∧ s.invalidationCounter = 0 ∧ (∀ i, s.clients i = .idle) ∧
    s.now = 0 ∧ s.bumps = 0 ∧ s.lastBump = 0 ∧ s.ended = []

/-- The client goes on, and time with it. -/
def advance (s : SearchCache Index ι) (i : ι) (client : ClientState Index) : SearchCache Index ι :=
  { s with clients := Function.update s.clients i client, now := s.now + 1 }

/-- The cached index of the identity, or the loaded one, which is cached unless an
invalidation began since the snapshot. -/
def insertIndex (s : SearchCache Index ι) (identity : SearchIndexIdentity)
    (loaded : LoadedIndex Index) (invalidationSnapshot : UInt64) :
    Option (Index × BoundedCache SearchIndexIdentity (LoadedIndex Index)) :=
  match s.indexes.get identity with
  | some (existing, indexes) => some (existing.index, indexes)
  | none =>
      if s.invalidationCounter ≠ invalidationSnapshot then some (loaded.index, s.indexes)
      else
        (s.indexes.insert identity loaded searchIndexCacheCapacity).map fun indexes ↦
          (loaded.index, indexes)

/-- The indexes that an invalidation leaves. -/
def evictScope (s : SearchCache Index ι) (scope : InvalidationScope) :
    BoundedCache SearchIndexIdentity (LoadedIndex Index) :=
  s.indexes.retain fun identity _ ↦ !identity.matchesInvalidationScope scope

def step (s : SearchCache Index ι) (i : ι) : CacheAction Index → Option (SearchCache Index ι)
  | .invalidationSnapshot =>
      if (s.clients i).free then
        some (s.advance i (.snapped s.invalidationCounter s.now s.bumps))
      else none
  | .load identity index =>
      match s.clients i with
      | .snapped invalidationSnapshot snapshotAt bumps =>
          some (s.advance i (.loaded invalidationSnapshot snapshotAt bumps identity index))
      | _ => none
  | .insertIndex =>
      match s.clients i with
      | .loaded invalidationSnapshot snapshotAt _ identity index =>
          (s.insertIndex identity ⟨index, snapshotAt⟩ invalidationSnapshot).map fun inserted ↦
            { s.advance i (.got identity inserted.1) with indexes := inserted.2 }
      | _ => none
  | .getIndex identity =>
      if (s.clients i).free then
        (s.indexes.get identity).map fun found ↦
          { s.advance i (.got identity found.1.index) with indexes := found.2 }
      else none
  | .bump scope =>
      if (s.clients i).free then
        some { s.advance i (.evicting scope s.now) with
          invalidationCounter := s.invalidationCounter + 1
          bumps := s.bumps + 1
          lastBump := s.now }
      else none
  | .evict =>
      match s.clients i with
      | .evicting scope began =>
          some { s.advance i .idle with
            indexes := s.evictScope scope
            ended := ⟨scope, began, s.now⟩ :: s.ended }
      | _ => none
  | .clear => some { s.advance i (s.clients i) with indexes := .empty }

end SearchCache

def searchCacheMachine {Index ι : Type} [DecidableEq ι] :
    Machine (SearchCache Index ι) (ι × CacheAction Index) where
  init := SearchCache.Empty
  step s a s' := s.step a.1 a.2 = some s'

namespace SearchCache

variable {Index ι : Type} [DecidableEq ι] {s s' : SearchCache Index ι} {i : ι}

/-! ## The invariant -/

/-- A snapshot stands for the number of invalidations that had begun. -/
structure SnapshotOk (s : SearchCache Index ι) (invalidationSnapshot : UInt64)
    (snapshotAt bumps : ℕ) : Prop where
  counter : invalidationSnapshot = UInt64.ofNat bumps
  before : snapshotAt < s.now
  bumps_le : bumps ≤ s.bumps
  last : bumps = s.bumps → 0 < s.bumps → s.lastBump < snapshotAt

def ClientOk (s : SearchCache Index ι) : ClientState Index → Prop
  | .snapped invalidationSnapshot snapshotAt bumps =>
      s.SnapshotOk invalidationSnapshot snapshotAt bumps
  | .loaded invalidationSnapshot snapshotAt bumps _ _ =>
      s.SnapshotOk invalidationSnapshot snapshotAt bumps
  | .evicting _ began => 0 < s.bumps ∧ began ≤ s.lastBump
  | _ => True

structure Inv (s : SearchCache Index ι) : Prop where
  tracked : s.indexes.Tracked
  capacity : s.indexes.values.length ≤ searchIndexCacheCapacity
  counter : s.invalidationCounter = UInt64.ofNat s.bumps
  lastBump : 0 < s.bumps → s.lastBump < s.now
  clients : ∀ i, s.ClientOk (s.clients i)
  ended : ∀ invalidation ∈ s.ended, 0 < s.bumps ∧ invalidation.began ≤ s.lastBump

/-- Time and the number of invalidations went on from one state to another. -/
structure Later (s s' : SearchCache Index ι) : Prop where
  now : s.now < s'.now
  bumps : s.bumps ≤ s'.bumps
  lastBump : s'.bumps = s.bumps ∧ s'.lastBump = s.lastBump ∨
    s.bumps < s'.bumps ∧ s.lastBump ≤ s'.lastBump

omit [DecidableEq ι] in
theorem SnapshotOk.later {invalidationSnapshot : UInt64} {snapshotAt bumps : ℕ}
    (h : s.SnapshotOk invalidationSnapshot snapshotAt bumps) (hlater : Later s s') :
    s'.SnapshotOk invalidationSnapshot snapshotAt bumps where
  counter := h.counter
  before := h.before.trans hlater.now
  bumps_le := h.bumps_le.trans hlater.bumps
  last hsame hpos := by
    rcases hlater.lastBump with ⟨hbumps, hlast⟩ | ⟨hbumps, -⟩
    · rw [hlast]
      exact h.last (hsame.trans hbumps) (hbumps ▸ hpos)
    · have := h.bumps_le
      omega

omit [DecidableEq ι] in
theorem ClientOk.later {client : ClientState Index} (h : s.ClientOk client)
    (hlater : Later s s') :
    s'.ClientOk client := by
  cases client with
  | idle => trivial
  | snapped => exact SnapshotOk.later h hlater
  | loaded => exact SnapshotOk.later h hlater
  | got => trivial
  | evicting scope began =>
      obtain ⟨hpos, hbegan⟩ := h
      rcases hlater.lastBump with ⟨hbumps, hlast⟩ | ⟨hbumps, hlast⟩
      · exact ⟨hbumps ▸ hpos, hlast ▸ hbegan⟩
      · exact ⟨by omega, hbegan.trans hlast⟩

/-- A step of one client that leaves the counter alone. -/
theorem Inv.quiet (h : s.Inv) {client : ClientState Index}
    {indexes : BoundedCache SearchIndexIdentity (LoadedIndex Index)}
    (hclient : ClientOk { s.advance i client with indexes := indexes } client)
    (htracked : indexes.Tracked)
    (hcapacity : indexes.values.length ≤ searchIndexCacheCapacity) :
    Inv { s.advance i client with indexes := indexes } := by
  have hlater : Later s { s.advance i client with indexes := indexes } :=
    ⟨Nat.lt_succ_self _, le_rfl, Or.inl ⟨rfl, rfl⟩⟩
  refine ⟨htracked, hcapacity, h.counter, fun hpos ↦ (h.lastBump hpos).trans hlater.now, ?_,
    h.ended⟩
  intro j
  by_cases hj : j = i
  · subst hj
    have hself : (s.advance j client).clients j = client := Function.update_self ..
    rw [hself]
    exact hclient
  · have hother : (s.advance i client).clients j = s.clients j := Function.update_of_ne hj ..
    rw [hother]
    exact (h.clients j).later hlater

theorem later_advance (s : SearchCache Index ι) (i : ι) (client : ClientState Index)
    (indexes : BoundedCache SearchIndexIdentity (LoadedIndex Index)) :
    Later s { s.advance i client with indexes := indexes } :=
  ⟨Nat.lt_succ_self _, le_rfl, Or.inl ⟨rfl, rfl⟩⟩

omit [DecidableEq ι] in
/-- What an insert can do: the identity is cached already, or its index stays out
because an invalidation began, or it is cached now. -/
theorem Inv.insertIndex (h : s.Inv) (identity : SearchIndexIdentity) (loaded : LoadedIndex Index)
    (invalidationSnapshot : UInt64) :
    (∃ existing indexes, s.indexes.find identity = some existing ∧
        indexes.values = s.indexes.values ∧ indexes.Tracked ∧
          s.insertIndex identity loaded invalidationSnapshot = some (existing.index, indexes)) ∨
      s.indexes.find identity = none ∧
        (s.insertIndex identity loaded invalidationSnapshot = some (loaded.index, s.indexes) ∨
          s.invalidationCounter = invalidationSnapshot ∧
            ∃ indexes, s.insertIndex identity loaded invalidationSnapshot =
                some (loaded.index, indexes) ∧
              indexes.Tracked ∧ indexes.values.length ≤ searchIndexCacheCapacity ∧
                ∀ entry ∈ indexes.values,
                  entry = (identity, loaded) ∨ entry ∈ s.indexes.values) := by
  unfold SearchCache.insertIndex
  cases hfind : s.indexes.find identity with
  | some existing =>
      have hget : s.indexes.get identity = some (existing,
          { s.indexes with newestLast := BoundedCache.touch identity s.indexes.newestLast }) := by
        rw [BoundedCache.get, hfind]
        rfl
      obtain ⟨htracked, hvalues⟩ := h.tracked.get hget
      rw [hget]
      exact Or.inl ⟨existing, _, rfl, hvalues, htracked, rfl⟩
  | none =>
      have hget : s.indexes.get identity = none := by
        rw [BoundedCache.get, hfind]
        rfl
      rw [hget]
      refine Or.inr ⟨rfl, ?_⟩
      by_cases hcounter : s.invalidationCounter = invalidationSnapshot
      · obtain ⟨indexes, hinsert, htracked, hlength, hsub⟩ :=
          h.tracked.insert identity loaded searchIndexCacheCapacity
        refine Or.inr ⟨hcounter, indexes, ?_, htracked, hlength, hsub⟩
        simp only [hcounter, ne_eq, not_true_eq_false, if_false, hinsert, Option.map_some]
      · refine Or.inl ?_
        simp only [ne_eq, hcounter, not_false_eq_true, if_true]

theorem Inv.advance (h : s.Inv) {client : ClientState Index}
    (hclient : ClientOk { s.advance i client with indexes := s.indexes } client) :
    (s.advance i client).Inv :=
  h.quiet hclient h.tracked h.capacity

theorem Inv.bump (h : s.Inv) (scope : InvalidationScope) :
    Inv { s.advance i (.evicting scope s.now) with
      invalidationCounter := s.invalidationCounter + 1
      bumps := s.bumps + 1
      lastBump := s.now } := by
  have hle : s.lastBump ≤ s.now ∨ s.bumps = 0 := by
    rcases Nat.eq_zero_or_pos s.bumps with hzero | hpos
    · exact Or.inr hzero
    · exact Or.inl (h.lastBump hpos).le
  refine ⟨h.tracked, h.capacity, ?_, fun _ ↦ Nat.lt_succ_self _, ?_, ?_⟩
  · simp only [h.counter, UInt64.ofNat_add]
    rfl
  · intro j
    by_cases hj : j = i
    · subst hj
      have hself : (s.advance j (.evicting scope s.now)).clients j = .evicting scope s.now :=
        Function.update_self ..
      rw [hself]
      exact ⟨Nat.succ_pos _, le_rfl⟩
    · have hother : (s.advance i (.evicting scope s.now)).clients j = s.clients j :=
        Function.update_of_ne hj ..
      rw [hother]
      have hclient := h.clients j
      cases hstate : s.clients j with
      | idle => trivial
      | got => trivial
      | snapped invalidationSnapshot snapshotAt bumps =>
          rw [hstate] at hclient
          exact ⟨hclient.counter, hclient.before.trans (Nat.lt_succ_self _),
            hclient.bumps_le.trans (Nat.le_succ _), fun hsame ↦ by
              have := hclient.bumps_le
              simp only at hsame
              omega⟩
      | loaded invalidationSnapshot snapshotAt bumps identity index =>
          rw [hstate] at hclient
          exact ⟨hclient.counter, hclient.before.trans (Nat.lt_succ_self _),
            hclient.bumps_le.trans (Nat.le_succ _), fun hsame ↦ by
              have := hclient.bumps_le
              simp only at hsame
              omega⟩
      | evicting other began =>
          rw [hstate] at hclient
          exact ⟨Nat.succ_pos _, hclient.2.trans (h.lastBump hclient.1).le⟩
  · intro invalidation hmem
    obtain ⟨hpos, hbegan⟩ := h.ended invalidation hmem
    exact ⟨Nat.succ_pos _, hbegan.trans (h.lastBump hpos).le⟩

theorem Inv.step {a : CacheAction Index} (h : s.Inv) (hstep : s.step i a = some s') :
    s'.Inv := by
  have hclient := h.clients i
  cases a with
  | invalidationSnapshot =>
      simp only [SearchCache.step] at hstep
      split_ifs at hstep
      obtain rfl := Option.some.inj hstep
      exact h.advance ⟨h.counter, Nat.lt_succ_self _, le_rfl, fun _ hpos ↦ h.lastBump hpos⟩
  | load identity index =>
      simp only [SearchCache.step] at hstep
      cases hstate : s.clients i with
      | snapped invalidationSnapshot snapshotAt bumps =>
          rw [hstate] at hstep hclient
          obtain rfl := Option.some.inj hstep
          exact h.advance (SnapshotOk.later hclient (later_advance ..))
      | _ => rw [hstate] at hstep; cases hstep
  | insertIndex =>
      simp only [SearchCache.step] at hstep
      cases hstate : s.clients i with
      | loaded invalidationSnapshot snapshotAt bumps identity index =>
          rw [hstate] at hstep hclient
          obtain ⟨inserted, hinserted, rfl⟩ := Option.map_eq_some_iff.mp hstep
          rcases h.insertIndex identity ⟨index, snapshotAt⟩ invalidationSnapshot with
            ⟨existing, indexes, -, hvalues, htracked, hsome⟩ |
              ⟨-, hsome | ⟨-, indexes, hsome, htracked, hlength, -⟩⟩
          · obtain rfl := Option.some.inj (hsome.symm.trans hinserted)
            exact h.quiet trivial htracked (hvalues ▸ h.capacity)
          · obtain rfl := Option.some.inj (hsome.symm.trans hinserted)
            exact h.quiet trivial h.tracked h.capacity
          · obtain rfl := Option.some.inj (hsome.symm.trans hinserted)
            exact h.quiet trivial htracked hlength
      | _ => rw [hstate] at hstep; cases hstep
  | getIndex identity =>
      simp only [SearchCache.step] at hstep
      split_ifs at hstep
      obtain ⟨⟨found, indexes⟩, hget, rfl⟩ := Option.map_eq_some_iff.mp hstep
      obtain ⟨htracked, hvalues⟩ := h.tracked.get hget
      exact h.quiet trivial htracked (hvalues ▸ h.capacity)
  | bump scope =>
      simp only [SearchCache.step] at hstep
      split_ifs at hstep
      obtain rfl := Option.some.inj hstep
      exact h.bump scope
  | evict =>
      simp only [SearchCache.step] at hstep
      cases hstate : s.clients i with
      | evicting scope began =>
          rw [hstate] at hstep hclient
          obtain rfl := Option.some.inj hstep
          have hquiet : Inv { s.advance i .idle with indexes := s.evictScope scope } :=
            h.quiet trivial (h.tracked.retain _) ((List.length_filter_le _ _).trans h.capacity)
          refine ⟨hquiet.tracked, hquiet.capacity, hquiet.counter, hquiet.lastBump, ?_, ?_⟩
          · intro j
            have hj := hquiet.clients j
            cases hother : (s.advance i .idle).clients j with
            | idle => trivial
            | got => trivial
            | snapped =>
                simp only [hother] at hj ⊢
                exact ⟨hj.counter, hj.before, hj.bumps_le, hj.last⟩
            | loaded =>
                simp only [hother] at hj ⊢
                exact ⟨hj.counter, hj.before, hj.bumps_le, hj.last⟩
            | evicting =>
                simp only [hother] at hj ⊢
                exact hj
          · intro invalidation hmem
            rcases List.mem_cons.mp hmem with rfl | hmem
            · exact hclient
            · exact h.ended invalidation hmem
      | _ => rw [hstate] at hstep; cases hstep
  | clear =>
      obtain rfl := Option.some.inj hstep
      exact h.quiet (hclient.later (later_advance ..)) BoundedCache.tracked_empty (Nat.zero_le _)

/-! ## What the cache holds -/

/-- Every cached index was loaded after the invalidations of its database began. -/
def Fresh (s : SearchCache Index ι) : Prop :=
  ∀ entry ∈ s.indexes.values, ∀ invalidation ∈ s.ended,
    entry.1.matchesInvalidationScope invalidation.scope →
      invalidation.began < entry.2.snapshotAt

/-- The claim with the end of the invalidation in place of its beginning. -/
def FreshSinceEnd (s : SearchCache Index ι) : Prop :=
  ∀ entry ∈ s.indexes.values, ∀ invalidation ∈ s.ended,
    entry.1.matchesInvalidationScope invalidation.scope →
      invalidation.ended < entry.2.snapshotAt

omit [DecidableEq ι] in
theorem SnapshotOk.began_lt {invalidationSnapshot : UInt64} {snapshotAt bumps began : ℕ}
    (h : s.SnapshotOk invalidationSnapshot snapshotAt bumps) (hinv : s.Inv)
    (hbound : s.bumps < 2 ^ 64) (hcounter : s.invalidationCounter = invalidationSnapshot)
    (hbegan : 0 < s.bumps ∧ began ≤ s.lastBump) :
    began < snapshotAt := by
  have hsame : UInt64.ofNat bumps = UInt64.ofNat s.bumps := by
    rw [← h.counter, ← hinv.counter, hcounter]
  have hbumps : bumps = s.bumps := by
    have hnat := congrArg UInt64.toNat hsame
    have hle := h.bumps_le
    rwa [UInt64.toNat_ofNat', UInt64.toNat_ofNat', Nat.mod_eq_of_lt (by omega),
      Nat.mod_eq_of_lt (by omega)] at hnat
  exact hbegan.2.trans_lt (h.last hbumps hbegan.1)

theorem Fresh.step {a : CacheAction Index} (h : s.Fresh) (hinv : s.Inv)
    (hbound : s'.bumps < 2 ^ 64) (hstep : s.step i a = some s') :
    s'.Fresh := by
  have hclient := hinv.clients i
  cases a with
  | invalidationSnapshot =>
      simp only [SearchCache.step] at hstep
      split_ifs at hstep
      obtain rfl := Option.some.inj hstep
      exact h
  | load identity index =>
      simp only [SearchCache.step] at hstep
      cases hstate : s.clients i with
      | snapped invalidationSnapshot snapshotAt bumps =>
          rw [hstate] at hstep
          obtain rfl := Option.some.inj hstep
          exact h
      | _ => rw [hstate] at hstep; cases hstep
  | insertIndex =>
      simp only [SearchCache.step] at hstep
      cases hstate : s.clients i with
      | loaded invalidationSnapshot snapshotAt bumps identity index =>
          rw [hstate] at hstep hclient
          obtain ⟨inserted, hinserted, rfl⟩ := Option.map_eq_some_iff.mp hstep
          rcases hinv.insertIndex identity ⟨index, snapshotAt⟩ invalidationSnapshot with
            ⟨existing, indexes, -, hvalues, -, hsome⟩ |
              ⟨-, hsome | ⟨hcounter, indexes, hsome, -, -, hsub⟩⟩
          · obtain rfl := Option.some.inj (hsome.symm.trans hinserted)
            intro entry hentry
            exact h entry (hvalues ▸ hentry)
          · obtain rfl := Option.some.inj (hsome.symm.trans hinserted)
            exact h
          · obtain rfl := Option.some.inj (hsome.symm.trans hinserted)
            intro entry hentry invalidation hmem hmatches
            rcases hsub entry hentry with rfl | hold
            · exact SnapshotOk.began_lt hclient hinv hbound hcounter
                (hinv.ended invalidation hmem)
            · exact h entry hold invalidation hmem hmatches
      | _ => rw [hstate] at hstep; cases hstep
  | getIndex identity =>
      simp only [SearchCache.step] at hstep
      split_ifs at hstep
      obtain ⟨⟨found, indexes⟩, hget, rfl⟩ := Option.map_eq_some_iff.mp hstep
      obtain ⟨-, hvalues⟩ := hinv.tracked.get hget
      intro entry hentry
      exact h entry (hvalues ▸ hentry)
  | bump scope =>
      simp only [SearchCache.step] at hstep
      split_ifs at hstep
      obtain rfl := Option.some.inj hstep
      exact h
  | evict =>
      simp only [SearchCache.step] at hstep
      cases hstate : s.clients i with
      | evicting scope began =>
          rw [hstate] at hstep
          obtain rfl := Option.some.inj hstep
          intro entry hentry invalidation hmem hmatches
          obtain ⟨hold, hother⟩ := List.mem_filter.mp hentry
          rcases List.mem_cons.mp hmem with rfl | hmem
          · have hmatches : entry.1.matchesInvalidationScope scope = true := hmatches
            simp only [hmatches, Bool.not_true] at hother
            cases hother
          · exact h entry hold invalidation hmem hmatches
      | _ => rw [hstate] at hstep; cases hstep
  | clear =>
      obtain rfl := Option.some.inj hstep
      exact fun entry hentry ↦ absurd hentry List.not_mem_nil

theorem bumps_le_of_step {a : CacheAction Index} (hstep : s.step i a = some s') :
    s.bumps ≤ s'.bumps := by
  cases a <;> simp only [SearchCache.step] at hstep
  case invalidationSnapshot =>
    split_ifs at hstep
    obtain rfl := Option.some.inj hstep
    exact le_rfl
  case load =>
    split at hstep
    · obtain rfl := Option.some.inj hstep
      exact le_rfl
    · cases hstep
  case insertIndex =>
    split at hstep
    · obtain ⟨_, -, rfl⟩ := Option.map_eq_some_iff.mp hstep
      exact le_rfl
    · cases hstep
  case getIndex =>
    split_ifs at hstep
    obtain ⟨_, -, rfl⟩ := Option.map_eq_some_iff.mp hstep
    exact le_rfl
  case bump =>
    split_ifs at hstep
    obtain rfl := Option.some.inj hstep
    exact Nat.le_succ _
  case evict =>
    split at hstep
    · obtain rfl := Option.some.inj hstep
      exact le_rfl
    · cases hstep
  case clear =>
    obtain rfl := Option.some.inj hstep
    exact le_rfl

end SearchCache

variable {Index ι : Type} [DecidableEq ι]

theorem searchCache_invariant :
    (searchCacheMachine : Machine (SearchCache Index ι) (ι × CacheAction Index)).Invariant
      (fun _ _ ↦ True) fun s ↦ s.Inv ∧ (s.bumps < 2 ^ 64 → s.Fresh) where
  init := by
    rintro s ⟨hindexes, hcounter, hclients, -, hbumps, -, hended⟩
    refine ⟨⟨?_, ?_, ?_, ?_, ?_, ?_⟩, ?_⟩
    · rw [hindexes]
      exact BoundedCache.tracked_empty
    · rw [hindexes]
      exact Nat.zero_le _
    · rw [hcounter, hbumps]
      rfl
    · intro hpos
      omega
    · intro i
      rw [hclients i]
      trivial
    · intro invalidation hmem
      rw [hended] at hmem
      exact absurd hmem List.not_mem_nil
    · intro _ entry _ invalidation hmem
      rw [hended] at hmem
      exact absurd hmem List.not_mem_nil
  step hs _ hstep := by
    refine ⟨hs.1.step hstep, fun hbound ↦ ?_⟩
    exact (hs.2 ((SearchCache.bumps_le_of_step hstep).trans_lt hbound)).step hs.1 hbound hstep

/-- While fewer than `2 ^ 64` invalidations began, a cached index is newer than the
beginning of every invalidation of its database that ended; the loaders of an
identity share the index that is cached for it; the cache keeps its bound. -/
theorem searchCache_keeps_fresh {s : SearchCache Index ι} (h : searchCacheMachine.Reachable s) :
    (s.bumps < 2 ^ 64 → s.Fresh) ∧
      (∀ i identity invalidationSnapshot snapshotAt bumps index,
        s.clients i = .loaded invalidationSnapshot snapshotAt bumps identity index →
          ∃ s', s.step i .insertIndex = some s' ∧
            ∀ cached, s.indexes.find identity = some cached →
              s'.clients i = .got identity cached.index ∧
                s'.indexes.find identity = some cached) ∧
        s.indexes.values.length ≤ searchIndexCacheCapacity := by
  obtain ⟨hinv, hfresh⟩ := searchCache_invariant.reachable h
  refine ⟨hfresh, ?_, hinv.capacity⟩
  intro i identity invalidationSnapshot snapshotAt bumps index hstate
  simp only [SearchCache.step, hstate]
  rcases hinv.insertIndex identity ⟨index, snapshotAt⟩ invalidationSnapshot with
    ⟨existing, indexes, hfind, hvalues, -, hsome⟩ |
      ⟨hnone, hsome | ⟨-, indexes, hsome, -, -, -⟩⟩
  · rw [hsome]
    refine ⟨_, rfl, fun cached hcached ↦ ?_⟩
    obtain rfl := Option.some.inj (hfind.symm.trans hcached)
    refine ⟨Function.update_self .., ?_⟩
    rw [BoundedCache.find, hvalues]
    exact hcached
  · rw [hsome]
    refine ⟨_, rfl, fun cached hcached ↦ ?_⟩
    rw [hnone] at hcached
    cases hcached
  · rw [hsome]
    refine ⟨_, rfl, fun cached hcached ↦ ?_⟩
    rw [hnone] at hcached
    cases hcached

/-! ## A loader and a mutator of one database -/

namespace LoaderAndMutator

def scope : InvalidationScope := ⟨some (1, 1), (1, 2)⟩

def identity : SearchIndexIdentity := ⟨(1, 1), (1, 3), ⟨(1, 2), 0, 0, 0⟩, 0, 0⟩

/-- The loader is `false` and the mutator `true`. -/
def start : SearchCache ℕ Bool := ⟨.empty, 0, fun _ ↦ .idle, 0, 0, 0, []⟩

theorem start_empty : start.Empty := ⟨rfl, rfl, fun _ ↦ rfl, rfl, rfl, rfl, rfl⟩

/-- Invalidations while the loader waits and nothing is cached. -/
theorem run_invalidations {s : SearchCache ℕ Bool} (hfree : (s.clients true).free)
    (hindexes : s.indexes = .empty) (n : ℕ) :
    ∃ s', searchCacheMachine.Run s s' ∧
      s'.invalidationCounter = s.invalidationCounter + UInt64.ofNat n ∧
        s'.clients false = s.clients false ∧ (s'.clients true).free ∧ s'.indexes = .empty ∧
          s.now ≤ s'.now ∧
            (0 < n → ∃ invalidation ∈ s'.ended,
              invalidation.scope = scope ∧ s.now ≤ invalidation.began) := by
  induction n with
  | zero =>
      refine ⟨s, Machine.Run.refl, ?_, rfl, hfree, hindexes, le_rfl, fun hpos ↦ by omega⟩
      exact (UInt64.add_zero _).symm
  | succ n ih =>
      obtain ⟨t, hrun, hcounter, hloader, htfree, htindexes, hnow, -⟩ := ih
      let bumped : SearchCache ℕ Bool :=
        { t.advance true (.evicting scope t.now) with
          invalidationCounter := t.invalidationCounter + 1
          bumps := t.bumps + 1
          lastBump := t.now }
      let evicted : SearchCache ℕ Bool :=
        { bumped.advance true .idle with
          indexes := bumped.evictScope scope
          ended := ⟨scope, t.now, bumped.now⟩ :: bumped.ended }
      have hbump : searchCacheMachine.step t (true, .bump scope) bumped := if_pos htfree
      have hevict : searchCacheMachine.step bumped (true, .evict) evicted := by
        have hstate : bumped.clients true = .evicting scope t.now := rfl
        simp only [searchCacheMachine, SearchCache.step, hstate]
        rfl
      refine ⟨evicted, (hrun.step hbump).step hevict, ?_, ?_, ?_, ?_, ?_, ?_⟩
      · have hsum : evicted.invalidationCounter = t.invalidationCounter + 1 := rfl
        rw [hsum, hcounter, UInt64.ofNat_add, UInt64.add_assoc]
        rfl
      · exact hloader
      · rfl
      · have hindexes' : evicted.indexes = t.indexes.retain fun identity _ ↦
            !identity.matchesInvalidationScope scope := rfl
        rw [hindexes', htindexes]
        rfl
      · exact hnow.trans ((Nat.le_succ _).trans (Nat.le_succ _))
      · exact fun _ ↦ ⟨_, List.mem_cons_self, rfl, hnow⟩

/-- An index that is loaded after an invalidation began and inserted after it ended
stays cached, and so does one that is inserted when the counter came round. -/
theorem stale_index_stays_cached :
    (¬∀ s : SearchCache ℕ Bool, searchCacheMachine.Reachable s → s.FreshSinceEnd) ∧
      ¬∀ s : SearchCache ℕ Bool, searchCacheMachine.Reachable s → s.Fresh := by
  constructor
  · intro hall
    have hrun : (([(true, .bump scope), (false, .invalidationSnapshot),
        (false, .load identity 7), (true, .evict), (false, .insertIndex)] :
          List (Bool × CacheAction ℕ)).foldlM
            (fun s a ↦ if True then s.step a.1 a.2 else none) start).any
              (fun s ↦ s.indexes.values.any fun entry ↦ s.ended.any fun invalidation ↦
                entry.1.matchesInvalidationScope invalidation.scope &&
                  !decide (invalidation.ended < entry.2.snapshotAt)) = true := by
      decide
    obtain ⟨s, hs, hstale⟩ := (Option.any_eq_true _ _).mp hrun
    obtain ⟨entry, hentry, hstale⟩ := List.any_eq_true.mp hstale
    obtain ⟨invalidation, hmem, hstale⟩ := List.any_eq_true.mp hstale
    obtain ⟨hmatches, hended⟩ := Bool.and_eq_true_iff.mp hstale
    have hfresh := hall s ⟨start, start_empty, Machine.RunOf.of_foldlM (fun h ↦ h) hs⟩ entry
      hentry invalidation hmem hmatches
    simp [hfresh] at hended
  · intro hall
    let snapped : SearchCache ℕ Bool := start.advance false (.snapped 0 0 0)
    let loaded : SearchCache ℕ Bool := snapped.advance false (.loaded 0 0 0 identity 7)
    have hsnapped : searchCacheMachine.step start (false, .invalidationSnapshot) snapped := rfl
    have hload : searchCacheMachine.step snapped (false, .load identity 7) loaded := rfl
    have hloaded : searchCacheMachine.Run start loaded :=
      (Machine.Run.refl.step hsnapped).step hload
    obtain ⟨s, hrun, hcounter, hclient, -, hindexes, -, hended⟩ :=
      run_invalidations (s := loaded) rfl rfl (2 ^ 64)
    have hcounter : s.invalidationCounter = 0 := by
      rw [hcounter]
      decide
    have hstate : s.clients false = .loaded 0 0 0 identity 7 := hclient
    let inserted : SearchCache ℕ Bool :=
      { s.advance false (.got identity 7) with
        indexes := ⟨[(identity, ⟨7, 0⟩)], [identity]⟩ }
    have hinsert : searchCacheMachine.step s (false, .insertIndex) inserted := by
      simp only [searchCacheMachine, SearchCache.step, hstate, SearchCache.insertIndex, hcounter, hindexes]
      rfl
    obtain ⟨invalidation, hmem, hscope, hbegan⟩ := hended (by norm_num)
    have hreachable : searchCacheMachine.Reachable inserted :=
      ⟨start, start_empty, (hloaded.trans hrun).trans
        (Machine.Run.refl.step hinsert)⟩
    have hfresh := hall inserted hreachable (identity, ⟨7, 0⟩) List.mem_cons_self invalidation hmem
      (by rw [hscope]; decide)
    exact absurd hfresh (Nat.not_lt_zero _)

theorem searchCache_keeps_fresh_loader :
    ∃ s : SearchCache ℕ Bool, s.indexes.values.length = 1 ∧ s.ended.length = 1 ∧
      s.Fresh ∧ s.indexes.values.length ≤ searchIndexCacheCapacity := by
  have hrun : (([(true, .bump scope), (false, .invalidationSnapshot),
      (false, .load identity 7), (true, .evict), (false, .insertIndex)] :
        List (Bool × CacheAction ℕ)).foldlM
          (fun s a ↦ if True then s.step a.1 a.2 else none) start).any
            (fun s ↦ s.indexes.values.length = 1 ∧ s.ended.length = 1 ∧ s.bumps = 1) = true := by
    decide
  obtain ⟨s, hs, hcached⟩ := (Option.any_eq_true _ _).mp hrun
  obtain ⟨hvalues, hended, hbumps⟩ := of_decide_eq_true hcached
  obtain ⟨hfresh, -, hcapacity⟩ := searchCache_keeps_fresh
    (s := s) ⟨start, start_empty, Machine.RunOf.of_foldlM (fun h ↦ h) hs⟩
  exact ⟨s, hvalues, hended, hfresh (by rw [hbumps]; norm_num), hcapacity⟩

end LoaderAndMutator

end EnCroissant.Infra

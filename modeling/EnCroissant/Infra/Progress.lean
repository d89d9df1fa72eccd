import Mathlib
import EnCroissant.Error
import EnCroissant.Library.Table
import EnCroissant.Library.Trace

/-!
# The progress store

Jobs report their progress under an id.  A start hands out a lease with a new
generation, and only the holder of that lease moves the entry on.
-/

namespace EnCroissant.Infra

def progressCapacity : ℕ := 1000

/-- A span of time, in nanoseconds. -/
def seconds (n : ℕ) : ℕ := n * 1000000000

def runningTtl : ℕ := seconds (60 * 60)

def terminalTtl : ℕ := seconds (5 * 60)

/-- The greatest `u64`. -/
def maxCounter : ℕ := 2 ^ 64 - 1

inductive ProgressState where
  | running
  | succeeded
  | failed
  | cancelled
  deriving DecidableEq, Repr

def ProgressState.isTerminal : ProgressState → Bool
  | .running => false
  | _ => true

@[ext]
structure ProgressLease where
  id : String
  generation : ℕ
  deriving DecidableEq, Repr

/-- A reported number: a finite `f32`, or an infinity or no number at all. -/
inductive Reading where
  | finite (value : ℚ)
  | notFinite
  deriving DecidableEq, Repr

/-- The type parameter is the payload of a failure. -/
structure ProgressItem (P : Type) where
  id : String
  generation : ℕ
  progress : ℚ
  finished : Bool
  state : ProgressState
  failure : Option P
  deriving DecidableEq

structure StoredProgress (P : Type) where
  item : ProgressItem P
  updatedAt : ℕ
  lastAccess : ℕ

structure ProgressStore (P : Type) where
  entries : AList fun _ : String ↦ StoredProgress P
  accessClock : ℕ
  generationClock : ℕ

variable {P : Type}

namespace ProgressStore

def empty : ProgressStore P := ⟨∅, 0, 0⟩

def ttl (item : ProgressItem P) : ℕ := if item.state.isTerminal then terminalTtl else runningTtl

def tickAccess (s : ProgressStore P) : ProgressStore P :=
  { s with accessClock := min (s.accessClock + 1) maxCounter }

def nextGeneration (s : ProgressStore P) : Except Error (ℕ × ProgressStore P) :=
  if s.generationClock < maxCounter then
    .ok (s.generationClock + 1, { s with generationClock := s.generationClock + 1 })
  else .error (.conflict "progress generation exhausted")

def live (now : ℕ) (stored : StoredProgress P) : Bool := now - stored.updatedAt < ttl stored.item

def purgeExpiredAt (s : ProgressStore P) (now : ℕ) : ProgressStore P :=
  { s with entries := s.entries.retain fun _ stored ↦ live now stored }

/-- The order in which entries are given up: by last access, then by id. -/
def evictionRank (id : String) (stored : StoredProgress P) : ℕ ×ₗ String :=
  toLex (stored.lastAccess, id)

def evictToCapacity (s : ProgressStore P) : ProgressStore P :=
  { s with entries := s.entries.evict progressCapacity evictionRank }

def sanitize : Reading → ℚ
  | .finite value => if value < 0 then 0 else if 100 < value then 100 else value
  | .notFinite => 0

def startWithSnapshotAt (s : ProgressStore P) (id : String) (now : ℕ) :
    Except Error (ProgressLease × ProgressItem P) × ProgressStore P :=
  match s.nextGeneration with
  | .error e => (.error e, s)
  | .ok (generation, s) =>
      let s := s.purgeExpiredAt now
      let s := { s with entries := s.entries.erase id }
      let s := s.evictToCapacity.tickAccess
      let item : ProgressItem P := ⟨id, generation, 0, false, .running, none⟩
      (.ok (⟨id, generation⟩, item),
        { s with entries := s.entries.insert id ⟨item, now, s.accessClock⟩ })

/-- What the holder of a lease makes of its entry. -/
def advance (existing : ProgressItem P) (lease : ProgressLease) (progress : ℚ)
    (requestedState : ProgressState) (failure : Option P) : ProgressItem P :=
  if existing.state.isTerminal then existing
  else
    let state := if requestedState.isTerminal then requestedState else .running
    ⟨lease.id, lease.generation, max progress existing.progress, state.isTerminal, state, failure⟩

def transitionWithFailureAt (s : ProgressStore P) (lease : ProgressLease) (progress : Reading)
    (requestedState : ProgressState) (failure : Option P) (now : ℕ) :
    Except Error (ProgressItem P × Bool) × ProgressStore P :=
  let s := (s.purgeExpiredAt now).tickAccess
  match s.entries.lookup lease.id with
  | none => (.error .staleProgressLease, s)
  | some stored =>
      if stored.item.generation ≠ lease.generation then (.error .staleProgressLease, s)
      else
        let item := advance stored.item lease (sanitize progress) requestedState failure
        let changed := item.progress ≠ stored.item.progress ∨ item.state ≠ stored.item.state
        let stored := if changed then { stored with item := item, updatedAt := now } else stored
        (.ok (item, changed),
          { s with
            entries := s.entries.insert lease.id { stored with lastAccess := s.accessClock } })

def getAt (s : ProgressStore P) (id : String) (now : ℕ) :
    Option (ProgressItem P) × ProgressStore P :=
  let s := (s.purgeExpiredAt now).tickAccess
  match s.entries.lookup id with
  | none => (none, s)
  | some stored =>
      (some stored.item,
        { s with entries := s.entries.insert id { stored with lastAccess := s.accessClock } })

def failedSnapshot (s : ProgressStore P) (now : ℕ) : List (ProgressItem P) × ProgressStore P :=
  let s := s.purgeExpiredAt now
  ((s.entries.entries.filter fun entry ↦ entry.2.item.failure.isSome).map fun entry ↦ entry.2.item,
    s)

def remove (s : ProgressStore P) (id : String) :
    Except Error (ℕ × Bool) × ProgressStore P :=
  match s.nextGeneration with
  | .error e => (.error e, s)
  | .ok (generation, s) => (.ok (generation, true), { s with entries := s.entries.erase id })

def clearUnlessLiveRunning (s : ProgressStore P) (id : String) (liveDownload : Bool) :
    Except Error (ℕ × Bool) × ProgressStore P :=
  match s.entries.lookup id with
  | some stored =>
      if liveDownload ∧ stored.item.state = .running then
        (.ok (stored.item.generation, false), s)
      else s.remove id
  | none => s.remove id

end ProgressStore

/-- A call, and the time at which it is made. -/
inductive ProgressCall (P : Type) where
  | start (id : String) (now : ℕ)
  | transition (lease : ProgressLease) (progress : Reading) (state : ProgressState)
      (failure : Option P) (now : ℕ)
  | get (id : String) (now : ℕ)
  | failures (now : ℕ)
  | clear (id : String) (liveDownload : Bool)

inductive ProgressReply (P : Type) where
  | started (lease : ProgressLease) (item : ProgressItem P)
  | transitioned (item : ProgressItem P) (changed : Bool)
  | found (item : Option (ProgressItem P))
  | failures (items : List (ProgressItem P))
  | cleared (generation : ℕ) (removed : Bool)
  | refused (e : Error)

namespace ProgressStore

/-- The lock of the store is held for the whole of a call. -/
def serve (s : ProgressStore P) : ProgressCall P → ProgressReply P × ProgressStore P
  | .start id now =>
      match s.startWithSnapshotAt id now with
      | (.ok (lease, item), s) => (.started lease item, s)
      | (.error e, s) => (.refused e, s)
  | .transition lease progress state failure now =>
      match s.transitionWithFailureAt lease progress state failure now with
      | (.ok (item, changed), s) => (.transitioned item changed, s)
      | (.error e, s) => (.refused e, s)
  | .get id now => ((.found (s.getAt id now).1), (s.getAt id now).2)
  | .failures now => (.failures (s.failedSnapshot now).1, (s.failedSnapshot now).2)
  | .clear id liveDownload =>
      match s.clearUnlessLiveRunning id liveDownload with
      | (.ok (generation, removed), s) => (.cleared generation removed, s)
      | (.error e, s) => (.refused e, s)

/-! ## What a call does to the entries -/

/-- The same job, at least as far on; a job that has ended stays as it is. -/
structure Advances (old new : ProgressItem P) : Prop where
  id : new.id = old.id
  generation : new.generation = old.generation
  progress : old.progress ≤ new.progress
  ended : old.state.isTerminal → new = old

theorem Advances.refl (item : ProgressItem P) : Advances item item :=
  ⟨rfl, rfl, le_rfl, fun _ ↦ rfl⟩

theorem Advances.trans {a b c : ProgressItem P} (h : Advances a b) (h' : Advances b c) :
    Advances a c := by
  refine ⟨h'.id.trans h.id, h'.generation.trans h.generation, h.progress.trans h'.progress, ?_⟩
  intro hended
  have hb := h.ended hended
  rw [hb] at h'
  exact h'.ended hended

theorem Advances.progress_and_state {old new : ProgressItem P} (h : Advances old new) :
    old.progress ≤ new.progress ∧
      (old.state.isTerminal → new.progress = old.progress ∧ new.state = old.state) := by
  refine ⟨h.progress, fun hended ↦ ?_⟩
  rw [h.ended hended]
  exact ⟨rfl, rfl⟩

theorem advance_advances {existing : ProgressItem P} {lease : ProgressLease} {progress : ℚ}
    {requestedState : ProgressState} {failure : Option P} (hid : existing.id = lease.id)
    (hgeneration : existing.generation = lease.generation) :
    Advances existing (advance existing lease progress requestedState failure) := by
  by_cases hended : existing.state.isTerminal
  · rw [advance, if_pos hended]
    exact Advances.refl existing
  · rw [advance, if_neg hended]
    exact ⟨hid.symm, hgeneration.symm, le_max_right _ _, fun h ↦ absurd h hended⟩

/-- Every entry is under the id of its item, and its generation was handed out. -/
structure Valid (s : ProgressStore P) : Prop where
  keyed : ∀ {id stored}, s.entries.lookup id = some stored → stored.item.id = id
  issued : ∀ {id stored}, s.entries.lookup id = some stored →
    stored.item.generation ≤ s.generationClock
  room : s.entries.size ≤ progressCapacity

theorem valid_empty : (empty : ProgressStore P).Valid :=
  ⟨fun h ↦ absurd h (by simp [empty]), fun h ↦ absurd h (by simp [empty]), Nat.zero_le _⟩

/-- Every entry of the second store comes from one of the first. -/
structure Carries (s s' : ProgressStore P) : Prop where
  clock : s.generationClock ≤ s'.generationClock
  size : s'.entries.size ≤ s.entries.size
  entry : ∀ {id new}, s'.entries.lookup id = some new →
    ∃ old, s.entries.lookup id = some old ∧ Advances old.item new.item

variable {s s' s'' : ProgressStore P} {id : String} {now : ℕ}

theorem Carries.refl (s : ProgressStore P) : Carries s s :=
  ⟨le_rfl, le_rfl, fun h ↦ ⟨_, h, Advances.refl _⟩⟩

theorem Carries.trans (h : Carries s s') (h' : Carries s' s'') : Carries s s'' := by
  refine ⟨h.clock.trans h'.clock, h'.size.trans h.size, fun hnew ↦ ?_⟩
  obtain ⟨middle, hmiddle, hlast⟩ := h'.entry hnew
  obtain ⟨old, hold, hfirst⟩ := h.entry hmiddle
  exact ⟨old, hold, hfirst.trans hlast⟩

theorem Carries.valid (h : Carries s s') (hs : s.Valid) : s'.Valid := by
  refine ⟨fun hnew ↦ ?_, fun hnew ↦ ?_, h.size.trans hs.room⟩
  · obtain ⟨old, hold, hadvances⟩ := h.entry hnew
    exact hadvances.id.trans (hs.keyed hold)
  · obtain ⟨old, hold, hadvances⟩ := h.entry hnew
    rw [hadvances.generation]
    exact (hs.issued hold).trans h.clock

theorem lookup_purgeExpiredAt {stored : StoredProgress P} :
    (s.purgeExpiredAt now).entries.lookup id = some stored ↔
      s.entries.lookup id = some stored ∧ live now stored :=
  AList.lookup_retain

theorem purgeExpiredAt_carries (s : ProgressStore P) (now : ℕ) :
    Carries s (s.purgeExpiredAt now) :=
  ⟨le_rfl, AList.size_retain_le _ _,
    fun h ↦ ⟨_, (lookup_purgeExpiredAt.mp h).1, Advances.refl _⟩⟩

theorem tickAccess_carries (s : ProgressStore P) : Carries s s.tickAccess :=
  ⟨le_rfl, le_rfl, fun h ↦ ⟨_, h, Advances.refl _⟩⟩

theorem erase_carries (s : ProgressStore P) (id : String) :
    Carries s { s with entries := s.entries.erase id } :=
  ⟨le_rfl, AList.size_erase_le _ _,
    fun h ↦ ⟨_, (AList.lookup_of_erase h).2, Advances.refl _⟩⟩

theorem evictToCapacity_carries (s : ProgressStore P) : Carries s s.evictToCapacity :=
  ⟨le_rfl, AList.size_evict_le, fun h ↦ ⟨_, AList.lookup_of_evict h, Advances.refl _⟩⟩

/-- An entry is replaced by one that is further on. -/
theorem insert_carries {old new : StoredProgress P} (hold : s.entries.lookup id = some old)
    (hadvances : Advances old.item new.item) :
    Carries s { s with entries := s.entries.insert id new } := by
  refine ⟨le_rfl, (AList.size_insert_of_mem (AList.mem_of_lookup hold) _).le, ?_⟩
  intro id' stored hstored
  by_cases hsame : id' = id
  · subst hsame
    obtain rfl : new = stored := by
      rw [AList.lookup_insert] at hstored
      exact Option.some.inj hstored
    exact ⟨old, hold, hadvances⟩
  · rw [AList.lookup_insert_ne hsame] at hstored
    exact ⟨stored, hstored, Advances.refl _⟩

/-! ## The calls -/

/-- A new job: its generation is greater than all earlier ones, and its entry takes
the place of the one that was there. -/
structure Starts (s : ProgressStore P) (lease : ProgressLease) (item : ProgressItem P)
    (s' : ProgressStore P) : Prop where
  id : item.id = lease.id
  generation : item.generation = lease.generation
  next : lease.generation = s.generationClock + 1
  clock : s'.generationClock = lease.generation
  size : s'.entries.size ≤ progressCapacity
  own : ∃ stored, s'.entries.lookup lease.id = some stored ∧ stored.item = item
  others : ∀ {id stored}, id ≠ lease.id → s'.entries.lookup id = some stored →
    s.entries.lookup id = some stored

theorem nextGeneration_ok {generation : ℕ} (h : s.nextGeneration = .ok (generation, s')) :
    generation = s.generationClock + 1 ∧ s' = { s with generationClock := generation } := by
  rw [nextGeneration] at h
  split_ifs at h
  obtain ⟨rfl, rfl⟩ := Prod.mk.inj (Except.ok.inj h)
  exact ⟨rfl, rfl⟩

theorem startWithSnapshotAt_ok {lease : ProgressLease} {item : ProgressItem P}
    (h : s.startWithSnapshotAt id now = (.ok (lease, item), s')) :
    lease.id = id ∧ Starts s lease item s' := by
  rw [startWithSnapshotAt] at h
  cases hnext : s.nextGeneration with
  | error e =>
      rw [hnext] at h
      exact absurd (Prod.mk.inj h).1 (fun h ↦ by cases h)
  | ok next =>
      obtain ⟨generation, started⟩ := next
      obtain ⟨hgeneration, hstarted⟩ := nextGeneration_ok hnext
      rw [hnext] at h
      obtain ⟨hresult, rfl⟩ := Prod.mk.inj h
      obtain ⟨rfl, rfl⟩ := Prod.mk.inj (Except.ok.inj hresult)
      set purged := started.purgeExpiredAt now
      set evicted := evictToCapacity { purged with entries := purged.entries.erase id }
      have hlookup : ∀ {other stored}, evicted.entries.lookup other = some stored →
          s.entries.lookup other = some stored := by
        intro other stored hother
        have herased := (AList.lookup_of_erase (AList.lookup_of_evict hother)).2
        have hstored := (lookup_purgeExpiredAt.mp herased).1
        rwa [hstarted] at hstored
      have hroom : evicted.entries.size < progressCapacity := AList.size_evict_lt (by decide)
      have hfresh : id ∉ evicted.entries := by
        intro hmem
        obtain ⟨stored, hstored⟩ := Option.isSome_iff_exists.mp (AList.lookup_isSome.mpr hmem)
        exact (AList.lookup_of_erase (AList.lookup_of_evict hstored)).1 rfl
      refine ⟨rfl, rfl, rfl, hgeneration, ?_, ?_, ⟨_, AList.lookup_insert _, rfl⟩, ?_⟩
      · exact congrArg generationClock hstarted
      · exact (AList.size_insert_of_notMem hfresh _).trans_le hroom
      · intro other stored hne hstored
        exact hlookup ((AList.lookup_insert_ne hne).symm.trans hstored)

theorem startWithSnapshotAt_error {e : Error}
    (h : s.startWithSnapshotAt id now = (.error e, s')) :
    s' = s := by
  rw [startWithSnapshotAt] at h
  cases hnext : s.nextGeneration with
  | error e =>
      rw [hnext] at h
      exact (Prod.mk.inj h).2.symm
  | ok next =>
      rw [hnext] at h
      exact absurd (Prod.mk.inj h).1 (fun h ↦ by cases h)

/-- A transition that succeeds has the generation of an entry that has not expired,
and reports what is stored then. -/
structure Moves (s : ProgressStore P) (lease : ProgressLease) (now : ℕ) (item : ProgressItem P)
    (s' : ProgressStore P) : Prop where
  before : ∃ stored, s.entries.lookup lease.id = some stored ∧
    stored.item.generation = lease.generation ∧ live now stored
  after : ∃ stored, s'.entries.lookup lease.id = some stored ∧
    stored.item.generation = item.generation ∧ stored.item.progress = item.progress ∧
      stored.item.state = item.state

theorem transitionWithFailureAt_spec (hs : s.Valid) {lease : ProgressLease} {progress : Reading}
    {requestedState : ProgressState} {failure : Option P}
    {reply : Except Error (ProgressItem P × Bool)}
    (h : s.transitionWithFailureAt lease progress requestedState failure now = (reply, s')) :
    Carries s s' ∧ ∀ item changed, reply = .ok (item, changed) →
      item.id = lease.id ∧ Moves s lease now item s' := by
  have hcarries := (purgeExpiredAt_carries s now).trans (tickAccess_carries _)
  rw [transitionWithFailureAt] at h
  set purged := (s.purgeExpiredAt now).tickAccess
  dsimp only at h
  cases hlookup : purged.entries.lookup lease.id with
  | none =>
      rw [hlookup] at h
      obtain ⟨rfl, rfl⟩ := Prod.mk.inj h
      exact ⟨hcarries, fun _ _ h ↦ by cases h⟩
  | some stored =>
      rw [hlookup] at h
      dsimp only at h
      by_cases hgeneration : stored.item.generation = lease.generation
      · rw [if_neg (not_not.mpr hgeneration)] at h
        obtain ⟨rfl, rfl⟩ := Prod.mk.inj h
        have hstored := lookup_purgeExpiredAt.mp hlookup
        have hid := hs.keyed hstored.1
        set item := advance stored.item lease (sanitize progress) requestedState failure
        have hadvances : Advances stored.item item := advance_advances hid hgeneration
        refine ⟨hcarries.trans (insert_carries hlookup ?_), ?_⟩
        · split_ifs
          · exact hadvances
          · exact Advances.refl _
        · rintro _ _ ⟨⟩
          refine ⟨hadvances.id.trans hid, ⟨stored, hstored.1, hgeneration, hstored.2⟩,
            _, AList.lookup_insert _, ?_⟩
          split_ifs with hchanged
          · exact ⟨rfl, rfl, rfl⟩
          · push Not at hchanged
            exact ⟨hadvances.generation.symm, hchanged.1.symm, hchanged.2.symm⟩
      · rw [if_pos hgeneration] at h
        obtain ⟨rfl, rfl⟩ := Prod.mk.inj h
        exact ⟨hcarries, fun _ _ h ↦ by cases h⟩

theorem getAt_carries (s : ProgressStore P) (id : String) (now : ℕ) :
    Carries s (s.getAt id now).2 ∧ ∀ item, (s.getAt id now).1 = some item →
      ∃ stored, (s.getAt id now).2.entries.lookup id = some stored ∧ stored.item = item := by
  have hcarries := (purgeExpiredAt_carries s now).trans (tickAccess_carries _)
  rw [getAt]
  set purged := (s.purgeExpiredAt now).tickAccess
  cases hlookup : purged.entries.lookup id with
  | none => exact ⟨hcarries, fun _ h ↦ by cases h⟩
  | some stored =>
      refine ⟨hcarries.trans (insert_carries hlookup (Advances.refl _)), ?_⟩
      rintro _ ⟨⟩
      exact ⟨_, AList.lookup_insert _, rfl⟩

theorem remove_spec {reply : Except Error (ℕ × Bool)} (h : s.remove id = (reply, s')) :
    Carries s s' ∧ ∀ generation removed, reply = .ok (generation, removed) →
      removed = true ∧ generation = s.generationClock + 1 ∧ s'.generationClock = generation ∧
        id ∉ s'.entries := by
  rw [remove] at h
  cases hnext : s.nextGeneration with
  | error e =>
      rw [hnext] at h
      obtain ⟨rfl, rfl⟩ := Prod.mk.inj h
      exact ⟨Carries.refl s, fun _ _ h ↦ by cases h⟩
  | ok next =>
      obtain ⟨generation, cleared⟩ := next
      obtain ⟨hgeneration, rfl⟩ := nextGeneration_ok hnext
      rw [hnext] at h
      obtain ⟨rfl, rfl⟩ := Prod.mk.inj h
      refine ⟨⟨?_, AList.size_erase_le _ _, (erase_carries s id).entry⟩, ?_⟩
      · exact (Nat.le_succ _).trans hgeneration.ge
      · rintro _ _ ⟨⟩
        exact ⟨rfl, hgeneration, rfl, fun hmem ↦ (AList.mem_erase.mp hmem).1 rfl⟩

/-- A clear leaves a live running entry alone, or removes the entry. -/
theorem clearUnlessLiveRunning_cases (s : ProgressStore P) (id : String) (liveDownload : Bool) :
    (∃ stored, s.entries.lookup id = some stored ∧ liveDownload ∧
      stored.item.state = .running ∧
        s.clearUnlessLiveRunning id liveDownload = (.ok (stored.item.generation, false), s)) ∨
      s.clearUnlessLiveRunning id liveDownload = s.remove id := by
  rw [clearUnlessLiveRunning]
  cases hlookup : s.entries.lookup id with
  | none => exact Or.inr rfl
  | some stored =>
      by_cases hrefused : liveDownload ∧ stored.item.state = .running
      · exact Or.inl ⟨stored, rfl, hrefused.1, hrefused.2, if_pos hrefused⟩
      · exact Or.inr (if_neg hrefused)

/-- What each call does, and what it answers. -/
inductive Served (s : ProgressStore P) :
    ProgressCall P → ProgressReply P → ProgressStore P → Prop where
  | started {lease : ProgressLease} {item : ProgressItem P} {now : ℕ} {s' : ProgressStore P} :
      Starts s lease item s' → Served s (.start lease.id now) (.started lease item) s'
  | unstarted {id : String} {now : ℕ} {e : Error} : Served s (.start id now) (.refused e) s
  | moved {lease : ProgressLease} {progress : Reading} {state : ProgressState}
      {failure : Option P} {now : ℕ} {item : ProgressItem P} {changed : Bool}
      {s' : ProgressStore P} :
      Carries s s' → item.id = lease.id → Moves s lease now item s' →
        Served s (.transition lease progress state failure now) (.transitioned item changed) s'
  | stale {lease : ProgressLease} {progress : Reading} {state : ProgressState}
      {failure : Option P} {now : ℕ} {e : Error} {s' : ProgressStore P} :
      Carries s s' → Served s (.transition lease progress state failure now) (.refused e) s'
  | found {id : String} {now : ℕ} {item : Option (ProgressItem P)} {s' : ProgressStore P} :
      Carries s s' →
        (∀ shown, item = some shown →
          ∃ stored, s'.entries.lookup shown.id = some stored ∧ stored.item = shown) →
        Served s (.get id now) (.found item) s'
  | failures {now : ℕ} {items : List (ProgressItem P)} {s' : ProgressStore P} :
      Carries s s' → Served s (.failures now) (.failures items) s'
  | kept {id : String} {stored : StoredProgress P} :
      s.entries.lookup id = some stored → stored.item.state = .running →
        Served s (.clear id true) (.cleared stored.item.generation false) s
  | removed {id : String} {liveDownload : Bool} {s' : ProgressStore P} :
      Carries s s' → s'.generationClock = s.generationClock + 1 → id ∉ s'.entries →
        Served s (.clear id liveDownload) (.cleared (s.generationClock + 1) true) s'
  | unremoved {id : String} {liveDownload : Bool} {e : Error} {s' : ProgressStore P} :
      Carries s s' → Served s (.clear id liveDownload) (.refused e) s'

theorem serve_served (hs : s.Valid) (call : ProgressCall P) :
    Served s call (s.serve call).1 (s.serve call).2 := by
  cases call with
  | start id now =>
      cases hstart : s.startWithSnapshotAt id now with
      | mk result s' =>
          rw [serve, hstart]
          cases result with
          | error e =>
              obtain rfl := startWithSnapshotAt_error hstart
              exact Served.unstarted
          | ok result =>
              obtain ⟨rfl, hstarts⟩ := startWithSnapshotAt_ok hstart
              exact Served.started hstarts
  | transition lease progress state failure now =>
      cases hmove : s.transitionWithFailureAt lease progress state failure now with
      | mk result s' =>
          obtain ⟨hcarries, hok⟩ := transitionWithFailureAt_spec hs hmove
          rw [serve, hmove]
          cases result with
          | error e => exact Served.stale hcarries
          | ok result =>
              obtain ⟨hid, hmoves⟩ := hok _ _ rfl
              exact Served.moved hcarries hid hmoves
  | get id now =>
      obtain ⟨hcarries, hfound⟩ := getAt_carries s id now
      refine Served.found hcarries fun shown hshown ↦ ?_
      obtain ⟨stored, hstored, rfl⟩ := hfound shown hshown
      rw [(hcarries.valid hs).keyed hstored]
      exact ⟨stored, hstored, rfl⟩
  | failures now => exact Served.failures (purgeExpiredAt_carries s now)
  | clear id liveDownload =>
      rcases clearUnlessLiveRunning_cases s id liveDownload with
        ⟨stored, hstored, hlive, hrunning, heq⟩ | heq
      · rw [serve, heq, hlive]
        exact Served.kept hstored hrunning
      · cases hremove : s.remove id with
        | mk result s' =>
            obtain ⟨hcarries, hok⟩ := remove_spec hremove
            rw [serve, heq, hremove]
            cases result with
            | error e => exact Served.unremoved hcarries
            | ok result =>
                obtain ⟨hremoved, hgeneration, hclock, hgone⟩ := hok _ _ rfl
                dsimp only
                rw [hremoved, hgeneration]
                exact Served.removed hcarries (hclock.trans hgeneration) hgone

theorem Starts.valid {lease : ProgressLease} {item : ProgressItem P} (h : Starts s lease item s')
    (hs : s.Valid) :
    s'.Valid := by
  obtain ⟨own, hown, hitem⟩ := h.own
  refine ⟨fun {id stored} hstored ↦ ?_, fun {id stored} hstored ↦ ?_, h.size⟩
  · by_cases hid : id = lease.id
    · subst hid
      obtain rfl := Option.some.inj (hown.symm.trans hstored)
      rw [hitem]
      exact h.id
    · exact hs.keyed (h.others hid hstored)
  · by_cases hid : id = lease.id
    · subst hid
      obtain rfl := Option.some.inj (hown.symm.trans hstored)
      rw [hitem, h.generation, h.clock]
    · rw [h.clock, h.next]
      exact (hs.issued (h.others hid hstored)).trans (Nat.le_succ _)

variable {call : ProgressCall P} {reply : ProgressReply P}

theorem Served.started_or_carries (h : Served s call reply s') :
    (∃ lease item now, call = .start lease.id now ∧ reply = .started lease item ∧
      Starts s lease item s') ∨
      Carries s s' ∧ ∀ lease item, reply ≠ .started lease item := by
  cases h with
  | started hstarts => exact Or.inl ⟨_, _, _, rfl, rfl, hstarts⟩
  | unstarted => exact Or.inr ⟨Carries.refl s, fun _ _ h ↦ by cases h⟩
  | kept => exact Or.inr ⟨Carries.refl s, fun _ _ h ↦ by cases h⟩
  | moved hcarries => exact Or.inr ⟨hcarries, fun _ _ h ↦ by cases h⟩
  | stale hcarries => exact Or.inr ⟨hcarries, fun _ _ h ↦ by cases h⟩
  | found hcarries => exact Or.inr ⟨hcarries, fun _ _ h ↦ by cases h⟩
  | failures hcarries => exact Or.inr ⟨hcarries, fun _ _ h ↦ by cases h⟩
  | removed hcarries => exact Or.inr ⟨hcarries, fun _ _ h ↦ by cases h⟩
  | unremoved hcarries => exact Or.inr ⟨hcarries, fun _ _ h ↦ by cases h⟩

theorem Served.valid (h : Served s call reply s') (hs : s.Valid) : s'.Valid := by
  rcases h.started_or_carries with ⟨_, _, _, _, _, hstarts⟩ | ⟨hcarries, _⟩
  · exact hstarts.valid hs
  · exact hcarries.valid hs

theorem Served.clock_le (h : Served s call reply s') : s.generationClock ≤ s'.generationClock := by
  rcases h.started_or_carries with ⟨_, _, _, _, _, hstarts⟩ | ⟨hcarries, _⟩
  · rw [hstarts.clock, hstarts.next]
    exact Nat.le_succ _
  · exact hcarries.clock

/-- An entry was started by the call, or is one that was there, at least as far on. -/
theorem Served.entry (h : Served s call reply s') {new : StoredProgress P}
    (hnew : s'.entries.lookup id = some new) :
    (∃ lease now, call = .start id now ∧ reply = .started lease new.item ∧ lease.id = id ∧
      Starts s lease new.item s') ∨
      ∃ old, s.entries.lookup id = some old ∧ Advances old.item new.item ∧
        ∀ lease item, reply = .started lease item → lease.id ≠ id := by
  rcases h.started_or_carries with ⟨lease, item, now, hcall, hreply, hstarts⟩ | ⟨hcarries, hnot⟩
  · by_cases hid : id = lease.id
    · subst hid
      obtain ⟨own, hown, rfl⟩ := hstarts.own
      obtain rfl := Option.some.inj (hown.symm.trans hnew)
      exact Or.inl ⟨lease, now, hcall, hreply, rfl, hstarts⟩
    · refine Or.inr ⟨new, hstarts.others hid hnew, Advances.refl _, fun other _ hother ↦ ?_⟩
      rw [hreply] at hother
      obtain ⟨rfl, -⟩ := ProgressReply.started.inj hother
      exact Ne.symm hid
  · obtain ⟨old, hold, hadvances⟩ := hcarries.entry hnew
    exact Or.inr ⟨old, hold, hadvances, fun lease item h ↦ absurd h (hnot lease item)⟩

end ProgressStore

namespace ProgressReply

/-- The generation that a reply newly hands out. -/
def handedOut : ProgressReply P → Option ℕ
  | .started lease _ => some lease.generation
  | .cleared generation true => some generation
  | _ => none

/-- The item that a reply reports. -/
def reported : ProgressReply P → Option (ProgressItem P)
  | .started _ item => some item
  | .transitioned item _ => some item
  | .found item => item
  | _ => none

end ProgressReply

namespace ProgressStore

variable {s s' : ProgressStore P} {call : ProgressCall P} {reply : ProgressReply P}

theorem Served.handedOut (h : Served s call reply s') {generation : ℕ}
    (hhanded : reply.handedOut = some generation) :
    generation = s.generationClock + 1 ∧ s'.generationClock = generation := by
  cases h with
  | started hstarts =>
      obtain rfl := Option.some.inj hhanded
      exact ⟨hstarts.next, hstarts.clock⟩
  | removed _ hclock _ =>
      obtain rfl := Option.some.inj hhanded
      exact ⟨rfl, hclock⟩
  | unstarted | moved | stale | found | failures | kept | unremoved => cases hhanded

theorem Served.reported (h : Served s call reply s') {item : ProgressItem P}
    (hreported : reply.reported = some item) :
    ∃ stored, s'.entries.lookup item.id = some stored ∧
      stored.item.generation = item.generation ∧ stored.item.progress = item.progress ∧
        stored.item.state = item.state := by
  cases h with
  | started hstarts =>
      obtain rfl := Option.some.inj hreported
      obtain ⟨stored, hstored, rfl⟩ := hstarts.own
      exact ⟨stored, hstarts.id ▸ hstored, rfl, rfl, rfl⟩
  | moved _ hid hmoves =>
      obtain rfl := Option.some.inj hreported
      obtain ⟨stored, hstored, hsame⟩ := hmoves.after
      exact ⟨stored, hid ▸ hstored, hsame⟩
  | found _ hfound =>
      obtain ⟨stored, hstored, rfl⟩ := hfound item hreported
      exact ⟨stored, hstored, rfl, rfl, rfl⟩
  | unstarted | stale | failures | kept | removed | unremoved => cases hreported

end ProgressStore

end EnCroissant.Infra

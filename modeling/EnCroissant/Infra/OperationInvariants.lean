import Mathlib
import EnCroissant.Infra.OperationEffects

/-!
# What the registry keeps

Tickets are never reissued, work under way has its entry, and the slots in use are
bounded.  Each of these is kept by every effect, and so by every call.
-/

namespace EnCroissant.Infra

namespace Registry

variable {R : Type} {runtime : Runtime} {terms : Terms} {s s' : Registry R}
  {ticket id : String} {lease : OperationLease}

/-- The uuid was drawn before. -/
def Drawn (runtime : Runtime) (s : Registry R) (ticket : String) : Prop :=
  ∃ i < s.drawn, runtime.uuid i = ticket

/-- The entry that a lease stands for is there. -/
def Held (s : Registry R) (lease : OperationLease) : Prop :=
  if lease.kind = .accepted then lease.id ∈ s.accepted
  else ∃ entry, s.reads.lookup lease.id = some entry ∧ isActive entry.state ∧
    entry.kind.leaseKind = lease.kind

structure Inv (runtime : Runtime) (s : Registry R) : Prop where
  room : s.reads.size ≤ maxNativeReads
  drawn : ∀ {ticket}, ticket ∈ s.reads → s.Drawn runtime ticket
  activeKind : ∀ {ticket entry}, s.reads.lookup ticket = some entry → isActive entry.state →
    entry.kind.leaseKind ≠ .accepted
  spent : ∀ {ticket entry}, s.accepted.lookup ticket = some entry → entry.kind ≠ none →
    s.Drawn runtime ticket ∧ ticket ∉ s.reads
  operation : ∀ {id entry}, s.completions.lookup id = some entry →
    s.Drawn runtime entry.operationId ∧ entry.operationId ∉ s.reads
  operations : ∀ {id id' entry entry'}, s.completions.lookup id = some entry →
    s.completions.lookup id' = some entry' → entry.operationId = entry'.operationId → id = id'
  held : ∀ {lease}, lease ∈ s.leases → s.Held lease
  once : s.leases.Nodup

theorem inv_empty (runtime : Runtime) : (empty : Registry R).Inv runtime where
  room := Nat.zero_le _
  drawn h := absurd h (AList.notMem_empty _)
  activeKind h := absurd h (by simp [empty])
  spent h := absurd h (by simp [empty])
  operation h := absurd h (by simp [empty])
  operations h := absurd h (by simp [empty])
  held h := absurd h List.not_mem_nil
  once := List.nodup_nil

theorem Drawn.mono (h : s.Drawn runtime ticket) (hdrawn : s.drawn ≤ s'.drawn) :
    s'.Drawn runtime ticket := by
  obtain ⟨i, hi, huuid⟩ := h
  exact ⟨i, hi.trans_le hdrawn, huuid⟩

/-- The next uuid was not drawn before. -/
theorem fresh (h : s.Drawn runtime ticket) : ticket ≠ runtime.uuid s.drawn := by
  rintro rfl
  obtain ⟨i, hi, huuid⟩ := h
  exact hi.ne (runtime.uuid_injective huuid)

theorem ReadState.Follows.isActive {old new : ReadState} (h : old.Follows new) :
    Registry.isActive new = Registry.isActive old := by
  cases h <;> rfl

theorem Settles.mem_reads {hard : Prop} (h : Settles hard s s') (hmem : ticket ∈ s'.reads) :
    ticket ∈ s.reads := by
  obtain ⟨new, hnew⟩ := Option.isSome_iff_exists.mp (AList.lookup_isSome.mpr hmem)
  obtain ⟨old, hold, -⟩ := h.read hnew
  exact AList.mem_of_lookup hold

theorem Settles.held {hard : Prop} (h : Settles hard s s') (hheld : s.Held lease) :
    s'.Held lease := by
  rw [Held] at hheld ⊢
  split_ifs at hheld ⊢ with hkind
  · exact h.mem_accepted.mpr hheld
  · obtain ⟨old, hold, hactive, hlease⟩ := hheld
    obtain ⟨new, hnew⟩ :=
      Option.isSome_iff_exists.mp (AList.lookup_isSome.mpr (h.active hold hactive))
    obtain ⟨old', hold', hfollows⟩ := h.read hnew
    obtain rfl := Option.some.inj (hold.symm.trans hold')
    refine ⟨new, hnew, ?_, ?_⟩
    · rw [ReadState.Follows.isActive hfollows.state]
      exact hactive
    · rw [hfollows.kind]
      exact hlease

theorem Settles.inv {hard : Prop} (h : Settles hard s s') (hs : s.Inv runtime) :
    s'.Inv runtime where
  room := h.readsSize.trans hs.room
  drawn hmem := (hs.drawn (h.mem_reads hmem)).mono h.drawn
  activeKind hnew hactive := by
    obtain ⟨old, hold, hfollows⟩ := h.read hnew
    rw [hfollows.kind]
    rw [ReadState.Follows.isActive hfollows.state] at hactive
    exact hs.activeKind hold hactive
  spent hnew hkind := by
    obtain ⟨old, hold, hfollows⟩ := h.entry hnew
    rw [hfollows.kind] at hkind
    obtain ⟨hdrawn, hnot⟩ := hs.spent hold hkind
    exact ⟨hdrawn.mono h.drawn, fun hmem ↦ hnot (h.mem_reads hmem)⟩
  operation hnew := by
    obtain ⟨old, hold, hsame⟩ := h.completion hnew
    obtain ⟨hdrawn, hnot⟩ := hs.operation hold
    rw [hsame]
    exact ⟨hdrawn.mono h.drawn, fun hmem ↦ hnot (h.mem_reads hmem)⟩
  operations hnew hnew' heq := by
    obtain ⟨old, hold, hsame⟩ := h.completion hnew
    obtain ⟨old', hold', hsame'⟩ := h.completion hnew'
    exact hs.operations hold hold' (hsame.symm.trans (heq.trans hsame'))
  held hmem := by
    rw [h.leases] at hmem
    exact h.held (hs.held hmem)
  once := by
    rw [h.leases]
    exact hs.once

/-! ## Adding an accepted operation -/

theorem mem_of_lookup_insert {entry new : AcceptedEntry} {other : String}
    (h : (s.accepted.insert id entry).lookup other = some new) :
    other = id ∧ new = entry ∨ other ≠ id ∧ s.accepted.lookup other = some new := by
  by_cases hsame : other = id
  · subst hsame
    rw [AList.lookup_insert] at h
    exact Or.inl ⟨rfl, (Option.some.inj h).symm⟩
  · rw [AList.lookup_insert_ne hsame] at h
    exact Or.inr ⟨hsame, h⟩

/-- A new slot: its id was not accepted, so that no lease stands for it. -/
theorem Inv.addAccepted (hs : s.Inv runtime) {entry : AcceptedEntry} (hid : id ∉ s.accepted)
    (hspent : entry.kind ≠ none → s.Drawn runtime id ∧ id ∉ s.reads) :
    (s.addAccepted id entry).Inv runtime where
  room := hs.room
  drawn := hs.drawn
  activeKind := hs.activeKind
  spent hnew hkind := by
    rcases mem_of_lookup_insert hnew with ⟨rfl, rfl⟩ | ⟨-, hnew⟩
    · exact hspent hkind
    · exact hs.spent hnew hkind
  operation := hs.operation
  operations := hs.operations
  held {lease} hmem := by
    rcases List.mem_cons.mp hmem with rfl | hmem
    · rw [Held, if_pos rfl]
      exact (AList.mem_insert _).mpr (Or.inl rfl)
    · have hheld := hs.held hmem
      rw [Held] at hheld ⊢
      split_ifs at hheld ⊢ with hkind
      · exact (AList.mem_insert _).mpr (Or.inr hheld)
      · exact hheld
  once := by
    refine List.nodup_cons.mpr ⟨fun hmem ↦ ?_, hs.once⟩
    have hheld := hs.held hmem
    rw [Held, if_pos rfl] at hheld
    exact hid hheld

/-! ## Reservations -/

theorem Inv.prepare (hs : s.Inv runtime) {entry : ReadEntry} {createdAt : ℕ}
    (hroom : s.reads.size < maxNativeReads) (hstate : entry.state = .reserved createdAt) :
    Inv runtime { s with
      reads := s.reads.insert (runtime.uuid s.drawn) entry
      drawn := s.drawn + 1 } := by
  have hfresh : runtime.uuid s.drawn ∉ s.reads := fun hmem ↦ fresh (hs.drawn hmem) rfl
  have hold : ∀ {other new}, isActive new.state →
      (s.reads.insert (runtime.uuid s.drawn) entry).lookup other = some new →
        s.reads.lookup other = some new := by
    intro other new hactive hnew
    by_cases hsame : other = runtime.uuid s.drawn
    · subst hsame
      rw [AList.lookup_insert] at hnew
      obtain rfl := Option.some.inj hnew
      rw [hstate] at hactive
      cases hactive
    · rwa [AList.lookup_insert_ne hsame] at hnew
  have hspent : ∀ {other}, s.Drawn runtime other ∧ other ∉ s.reads →
      Drawn runtime { s with drawn := s.drawn + 1 } other ∧
        other ∉ s.reads.insert (runtime.uuid s.drawn) entry := by
    rintro other ⟨hdrawn, hnot⟩
    refine ⟨hdrawn.mono (Nat.le_succ _), fun hmem ↦ ?_⟩
    rcases (AList.mem_insert _).mp hmem with rfl | hmem
    · exact fresh hdrawn rfl
    · exact hnot hmem
  refine ⟨?_, ?_, ?_, ?_, ?_, hs.operations, ?_, hs.once⟩
  · exact (AList.size_insert_of_notMem hfresh entry).trans_le hroom
  · intro other hmem
    rcases (AList.mem_insert _).mp hmem with rfl | hmem
    · exact ⟨s.drawn, Nat.lt_succ_self _, rfl⟩
    · exact (hs.drawn hmem).mono (Nat.le_succ _)
  · intro other new hnew hactive
    exact hs.activeKind (hold hactive hnew) hactive
  · intro other new hnew hkind
    exact hspent (hs.spent hnew hkind)
  · intro other new hnew
    exact hspent (hs.operation hnew)
  · intro lease hmem
    have hheld := hs.held hmem
    rw [Held] at hheld ⊢
    split_ifs at hheld ⊢ with hkind
    · exact hheld
    · obtain ⟨old, hlookup, hactive, hlease⟩ := hheld
      refine ⟨old, ?_, hactive, hlease⟩
      rw [AList.lookup_insert_ne, hlookup]
      rintro heq
      exact hfresh (heq ▸ AList.mem_of_lookup hlookup)

theorem Inv.activate (hs : s.Inv runtime) {label : String} {entry : ReadEntry} {createdAt : ℕ}
    (hlookup : s.reads.lookup ticket = some entry) (hstate : entry.state = .reserved createdAt)
    (hkind : entry.kind.leaseKind ≠ .accepted) :
    Inv runtime { s with
      reads := s.reads.insert ticket { entry with state := .active false label }
      leases := ⟨ticket, entry.kind.leaseKind⟩ :: s.leases } := by
  have hmem := AList.mem_of_lookup hlookup
  have hmemInsert : ∀ {other}, other ∈ s.reads.insert ticket
      { entry with state := .active false label } → other ∈ s.reads := by
    intro other hother
    rcases (AList.mem_insert _).mp hother with rfl | hother
    · exact hmem
    · exact hother
  refine ⟨?_, ?_, ?_, ?_, ?_, hs.operations, ?_, ?_⟩
  · exact (AList.size_insert_of_mem hmem _).trans_le hs.room
  · exact fun hother ↦ hs.drawn (hmemInsert hother)
  · intro other new hnew hactive
    by_cases hsame : other = ticket
    · subst hsame
      rw [AList.lookup_insert] at hnew
      obtain rfl := Option.some.inj hnew
      exact hkind
    · rw [AList.lookup_insert_ne hsame] at hnew
      exact hs.activeKind hnew hactive
  · intro other new hnew hkind
    obtain ⟨hdrawn, hnot⟩ := hs.spent hnew hkind
    exact ⟨hdrawn, fun hother ↦ hnot (hmemInsert hother)⟩
  · intro other new hnew
    obtain ⟨hdrawn, hnot⟩ := hs.operation hnew
    exact ⟨hdrawn, fun hother ↦ hnot (hmemInsert hother)⟩
  · intro lease hlease
    rcases List.mem_cons.mp hlease with rfl | hlease
    · rw [Held, if_neg hkind]
      exact ⟨_, AList.lookup_insert _, rfl, rfl⟩
    · have hheld := hs.held hlease
      rw [Held] at hheld ⊢
      split_ifs at hheld ⊢ with haccepted
      · exact hheld
      · obtain ⟨old, hold, hactive, hsame⟩ := hheld
        refine ⟨old, ?_, hactive, hsame⟩
        rw [AList.lookup_insert_ne, hold]
        rintro heq
        rw [heq, hlookup] at hold
        obtain rfl := Option.some.inj hold
        rw [hstate] at hactive
        cases hactive
  · refine List.nodup_cons.mpr ⟨fun hlease ↦ ?_, hs.once⟩
    have hheld := hs.held hlease
    rw [Held, if_neg hkind] at hheld
    obtain ⟨old, hold, hactive, -⟩ := hheld
    obtain rfl := Option.some.inj (hlookup.symm.trans hold)
    rw [hstate] at hactive
    cases hactive

theorem Inv.eraseReservation (hs : s.Inv runtime) {entry : ReadEntry} {createdAt : ℕ}
    (hlookup : s.reads.lookup ticket = some entry) (hstate : entry.state = .reserved createdAt) :
    Inv runtime { s with reads := s.reads.erase ticket } := by
  have hsettles : Settles False s { s with reads := s.reads.erase ticket } := by
    refine eraseRead_settles fun other hother ↦ ?_
    obtain rfl := Option.some.inj (hlookup.symm.trans hother)
    rw [hstate]
    exact Bool.false_ne_true
  exact hsettles.inv hs

/-! ## Dropping leases -/

/-- Two leases that stand for one entry are the same. -/
theorem Held.eq {lease' : OperationLease} (h : s.Held lease) (h' : s.Held lease')
    (hid : lease.id = lease'.id)
    (hkind : lease.kind = .accepted ↔ lease'.kind = .accepted) : lease = lease' := by
  have hsame : lease.kind = lease'.kind := by
    rw [Held] at h h'
    by_cases haccepted : lease.kind = .accepted
    · rw [haccepted, hkind.mp haccepted]
    · rw [if_neg haccepted] at h
      rw [if_neg (mt hkind.mpr haccepted)] at h'
      obtain ⟨entry, hentry, -, hlease⟩ := h
      obtain ⟨entry', hentry', -, hlease'⟩ := h'
      rw [hid] at hentry
      obtain rfl := Option.some.inj (hentry.symm.trans hentry')
      exact hlease.symm.trans hlease'
  cases lease
  cases lease'
  cases hid
  cases hsame
  rfl

theorem Inv.dropRead (hs : s.Inv runtime) (hlease : lease ∈ s.leases)
    (hkind : lease.kind ≠ .accepted) :
    Inv runtime { s with reads := s.reads.erase lease.id, leases := s.leases.erase lease } := by
  refine ⟨(AList.size_erase_le _ _).trans hs.room, ?_, ?_, ?_, ?_, hs.operations, ?_,
    hs.once.erase lease⟩
  · exact fun hmem ↦ hs.drawn (AList.mem_erase.mp hmem).2
  · exact fun hnew hactive ↦ hs.activeKind (AList.lookup_of_erase hnew).2 hactive
  · intro other new hnew hkind
    obtain ⟨hdrawn, hnot⟩ := hs.spent hnew hkind
    exact ⟨hdrawn, fun hmem ↦ hnot (AList.mem_erase.mp hmem).2⟩
  · intro other new hnew
    obtain ⟨hdrawn, hnot⟩ := hs.operation hnew
    exact ⟨hdrawn, fun hmem ↦ hnot (AList.mem_erase.mp hmem).2⟩
  · intro other hother
    obtain ⟨hne, hother⟩ := hs.once.mem_erase_iff.mp hother
    have hheld := hs.held hother
    have hown := hs.held hlease
    by_cases haccepted : other.kind = .accepted
    · rw [Held, if_pos haccepted] at hheld ⊢
      exact hheld
    · have hid : other.id ≠ lease.id := fun hid ↦
        hne (hheld.eq hown hid (iff_of_false haccepted hkind))
      rw [Held, if_neg haccepted] at hheld ⊢
      obtain ⟨entry, hentry, hactive, hsame⟩ := hheld
      exact ⟨entry, (AList.lookup_erase_ne hid).trans hentry, hactive, hsame⟩

theorem Inv.dropAccepted (hs : s.Inv runtime) (hlease : lease ∈ s.leases)
    (hkind : lease.kind = .accepted) :
    Inv runtime
      { s with accepted := s.accepted.erase lease.id, leases := s.leases.erase lease } := by
  refine ⟨hs.room, hs.drawn, hs.activeKind, ?_, hs.operation, hs.operations, ?_,
    hs.once.erase lease⟩
  · exact fun hnew hkind ↦ hs.spent (AList.lookup_of_erase hnew).2 hkind
  · intro other hother
    obtain ⟨hne, hother⟩ := hs.once.mem_erase_iff.mp hother
    have hheld := hs.held hother
    have hown := hs.held hlease
    by_cases haccepted : other.kind = .accepted
    · have hid : other.id ≠ lease.id := fun hid ↦
        hne (hheld.eq hown hid (iff_of_true haccepted hkind))
      rw [Held, if_pos haccepted] at hheld ⊢
      exact AList.mem_erase.mpr ⟨hid, hheld⟩
    · rw [Held, if_neg haccepted] at hheld ⊢
      exact hheld

theorem Effect.inv (h : Effect runtime terms s s') (hs : s.Inv runtime) : s'.Inv runtime := by
  cases h with
  | settle hsettles => exact hsettles.inv hs
  | prepare hroom hstate => exact hs.prepare hroom hstate
  | activate hlookup hstate hkind hlease =>
      subst hlease
      exact hs.activate hlookup hstate hkind
  | @admitted ticket old createdAt entry hlookup hstate hfree _ _ _ =>
      refine (hs.eraseReservation hlookup hstate).addAccepted hfree fun _ ↦ ⟨?_, ?_⟩
      · exact hs.drawn (AList.mem_of_lookup hlookup)
      · exact fun hmem ↦ (AList.mem_erase.mp hmem).1 rfl
  | accept hfree _ hkind => exact hs.addAccepted hfree fun h ↦ absurd hkind h
  | tail hfree hkind _ _ => exact hs.addAccepted hfree fun h ↦ absurd hkind h
  | @complete id completion entry hfree hoperation hkind hother =>
      have hspent := hs.spent hoperation hkind
      refine ⟨hs.room, hs.drawn, hs.activeKind, hs.spent, ?_, ?_, hs.held, hs.once⟩
      · intro other new hnew
        by_cases hsame : other = id
        · subst hsame
          rw [setCompletion, AList.lookup_insert] at hnew
          obtain rfl := Option.some.inj hnew
          exact hspent
        · rw [setCompletion, AList.lookup_insert_ne hsame] at hnew
          exact hs.operation hnew
      · intro first last new new' hnew hnew' heq
        by_cases hfirst : first = id <;> by_cases hlast : last = id
        · rw [hfirst, hlast]
        · subst hfirst
          rw [setCompletion, AList.lookup_insert] at hnew
          rw [setCompletion, AList.lookup_insert_ne hlast] at hnew'
          obtain rfl := Option.some.inj hnew
          exact absurd heq.symm (hother last new' hnew')
        · subst hlast
          rw [setCompletion, AList.lookup_insert] at hnew'
          rw [setCompletion, AList.lookup_insert_ne hfirst] at hnew
          obtain rfl := Option.some.inj hnew'
          exact absurd heq (hother first new hnew)
        · rw [setCompletion, AList.lookup_insert_ne hfirst] at hnew
          rw [setCompletion, AList.lookup_insert_ne hlast] at hnew'
          exact hs.operations hnew hnew' heq
  | dropRead hlease _ hkind => exact hs.dropRead hlease hkind
  | dropAccepted hlease _ hkind _ => exact hs.dropAccepted hlease hkind

/-! ## Occupied slots -/

theorem waitingIds_addAccepted (s : Registry R) (id : String) (entry : AcceptedEntry) :
    (s.addAccepted id entry).waitingIds ⊆ s.waitingIds := by
  intro other hother
  obtain ⟨completion, hlookup, hid, hoperation⟩ := mem_waitingIds.mp hother
  refine mem_waitingIds.mpr ⟨completion, hlookup, ?_, ?_⟩
  · exact fun hmem ↦ hid ((AList.mem_insert _).mpr (Or.inr hmem))
  · exact fun hmem ↦ hoperation ((AList.mem_insert _).mpr (Or.inr hmem))

theorem occupied_addAccepted_le {entry : AcceptedEntry} (hid : id ∉ s.accepted) :
    (s.addAccepted id entry).occupied ≤ s.occupied + 1 := by
  have hcard := Finset.card_le_card (waitingIds_addAccepted s id entry)
  have hsize : (s.addAccepted id entry).accepted.size = s.accepted.size + 1 :=
    AList.size_insert_of_notMem hid entry
  rw [occupied_eq, occupied_eq]
  omega

/-- A tail takes the slot of the completion that waited for it. -/
theorem occupied_addAccepted_waiting {entry : AcceptedEntry} (hid : id ∈ s.waitingIds) :
    (s.addAccepted id entry).occupied ≤ s.occupied := by
  obtain ⟨completion, hlookup, hfree, hoperation⟩ := mem_waitingIds.mp hid
  have hwaiting : (s.addAccepted id entry).waitingIds ⊆ s.waitingIds.erase id := by
    intro other hother
    refine Finset.mem_erase.mpr ⟨?_, waitingIds_addAccepted s id entry hother⟩
    rintro rfl
    obtain ⟨-, -, hother, -⟩ := mem_waitingIds.mp hother
    exact hother ((AList.mem_insert _).mpr (Or.inl rfl))
  have hcard := Finset.card_le_card hwaiting
  rw [Finset.card_erase_of_mem hid] at hcard
  have hpos : 0 < s.waitingIds.card := Finset.card_pos.mpr ⟨id, hid⟩
  have hsize : (s.addAccepted id entry).accepted.size = s.accepted.size + 1 :=
    AList.size_insert_of_notMem hfree entry
  rw [occupied_eq, occupied_eq]
  omega

/-- The completions that wait once a lease is dropped: those that waited before, the one of
its id, and the one whose operation it was. -/
theorem waitingIds_drop (s s' : Registry R) (haccepted : s'.accepted = s.accepted.erase id)
    (hcompletions : s'.completions = s.completions) {other : String}
    (h : other ∈ s'.waitingIds) :
    other ∈ s.waitingIds ∨ other = id ∨
      ∃ completion, s.completions.lookup other = some completion ∧
        completion.operationId = id := by
  obtain ⟨completion, hlookup, hother, hoperation⟩ := mem_waitingIds.mp h
  rw [hcompletions] at hlookup
  rw [haccepted] at hother hoperation
  by_cases hsame : other = id
  · exact Or.inr (Or.inl hsame)
  · by_cases hown : completion.operationId = id
    · exact Or.inr (Or.inr ⟨completion, hlookup, hown⟩)
    · refine Or.inl (mem_waitingIds.mpr ⟨completion, hlookup, ?_, ?_⟩)
      · exact fun hmem ↦ hother (AList.mem_erase.mpr ⟨hsame, hmem⟩)
      · exact fun hmem ↦ hoperation (AList.mem_erase.mpr ⟨hown, hmem⟩)

theorem Inv.occupied_drop_le (hs : s.Inv runtime) (hlease : lease ∈ s.leases)
    (hkind : lease.kind = .accepted)
    (hroom : s.occupied < maxAcceptedOperations ∨
      ∀ entry other entry', s.completions.lookup lease.id = some entry →
        s.completions.lookup other = some entry' → entry'.operationId = lease.id →
          other = lease.id)
    (hoccupied : s.occupied ≤ maxAcceptedOperations) :
    occupied { s with accepted := s.accepted.erase lease.id, leases := s.leases.erase lease } ≤
      maxAcceptedOperations := by
  set s' : Registry R :=
    { s with accepted := s.accepted.erase lease.id, leases := s.leases.erase lease }
  have hmem : lease.id ∈ s.accepted := by
    have hheld := hs.held hlease
    rwa [Held, if_pos hkind] at hheld
  have hsize : s'.accepted.size + 1 = s.accepted.size := AList.size_erase hmem
  have hdrop : ∀ {other}, other ∈ s'.waitingIds → other ∈ s.waitingIds ∨ other = lease.id ∨
      ∃ completion, s.completions.lookup other = some completion ∧
        completion.operationId = lease.id :=
    fun h ↦ waitingIds_drop s s' rfl rfl h
  have hwaiting : ∃ first last, s'.waitingIds ⊆ insert first (insert last s.waitingIds) ∧
      (s.occupied < maxAcceptedOperations ∨ first = last) := by
    by_cases hown : ∃ other completion, s.completions.lookup other = some completion ∧
        completion.operationId = lease.id
    · obtain ⟨other, completion, hlookup, hoperation⟩ := hown
      have hsub : s'.waitingIds ⊆ insert other (insert lease.id s.waitingIds) := by
        intro waiting hmem
        rcases hdrop hmem with hold | rfl | ⟨entry, hentry, hsame⟩
        · exact Finset.mem_insert_of_mem (Finset.mem_insert_of_mem hold)
        · exact Finset.mem_insert_of_mem (Finset.mem_insert_self _ _)
        · rw [hs.operations hentry hlookup (hsame.trans hoperation.symm)]
          exact Finset.mem_insert_self _ _
      by_cases hid : lease.id ∈ s.completions
      · obtain ⟨entry, hentry⟩ := Option.isSome_iff_exists.mp (AList.lookup_isSome.mpr hid)
        exact ⟨other, lease.id, hsub,
          hroom.imp_right fun h ↦ h entry other completion hentry hlookup hoperation⟩
      · refine ⟨other, other, fun waiting hmem ↦ ?_, Or.inr rfl⟩
        rcases Finset.mem_insert.mp (hsub hmem) with rfl | hmem'
        · exact Finset.mem_insert_self _ _
        · rcases Finset.mem_insert.mp hmem' with rfl | hold
          · obtain ⟨entry, hentry, -⟩ := mem_waitingIds.mp hmem
            exact absurd (AList.mem_of_lookup hentry) hid
          · exact Finset.mem_insert_of_mem (Finset.mem_insert_of_mem hold)
    · refine ⟨lease.id, lease.id, fun waiting hmem ↦ ?_, Or.inr rfl⟩
      rcases hdrop hmem with hold | rfl | ⟨entry, hentry, hsame⟩
      · exact Finset.mem_insert_of_mem (Finset.mem_insert_of_mem hold)
      · exact Finset.mem_insert_self _ _
      · exact absurd ⟨waiting, entry, hentry, hsame⟩ hown
  obtain ⟨first, last, hsub, hfull⟩ := hwaiting
  have hcard := Finset.card_le_card hsub
  have hlast := Finset.card_insert_le last s.waitingIds
  have hfirst := Finset.card_insert_le first (insert last s.waitingIds)
  rw [occupied_eq] at hoccupied ⊢
  rcases hfull with hfull | rfl
  · rw [occupied_eq] at hfull
    omega
  · rw [Finset.insert_idem] at hcard
    omega

/-- A call that leaves room keeps the registry within its slots. -/
theorem Effect.occupied_le (h : Effect runtime terms s s') (hs : s.Inv runtime)
    (hroomy : terms.roomy) (hoccupied : s.occupied ≤ maxAcceptedOperations) :
    s'.occupied ≤ maxAcceptedOperations := by
  cases h with
  | settle hsettles => exact hsettles.occupied_le.trans hoccupied
  | prepare _ _ => exact hoccupied
  | activate _ _ _ _ => exact hoccupied
  | @admitted ticket _ _ entry _ _ hfree hroom _ _ =>
      have hadd : occupied ({ s with reads := s.reads.erase ticket }.addAccepted ticket entry) ≤
          s.occupied + 1 :=
        occupied_addAccepted_le hfree
      exact hadd.trans hroom
  | accept hfree hroom _ => exact (occupied_addAccepted_le hfree).trans hroom
  | @tail id entry completion hfree _ hlookup hroom =>
      rcases hroom hroomy with hroom | hoperation
      · exact (occupied_addAccepted_le hfree).trans hroom
      · have hid : id ∈ s.waitingIds := mem_waitingIds.mpr ⟨completion, hlookup, hfree, hoperation⟩
        exact (occupied_addAccepted_waiting hid).trans hoccupied
  | @complete id completion entry hfree hoperation _ _ =>
      have hwaiting : (s.setCompletion id completion).waitingIds ⊆ s.waitingIds := by
        intro other hother
        obtain ⟨new, hnew, hid, hnot⟩ := mem_waitingIds.mp hother
        by_cases hsame : other = id
        · subst hsame
          rw [setCompletion, AList.lookup_insert] at hnew
          obtain rfl := Option.some.inj hnew
          exact absurd (AList.mem_of_lookup hoperation) hnot
        · rw [setCompletion, AList.lookup_insert_ne hsame] at hnew
          exact mem_waitingIds.mpr ⟨new, hnew, hid, hnot⟩
      have hcard := Finset.card_le_card hwaiting
      rw [occupied_eq] at hoccupied ⊢
      exact (Nat.add_le_add_left hcard _).trans hoccupied
  | dropRead _ _ _ => exact hoccupied
  | dropAccepted hlease _ hkind hroom =>
      exact hs.occupied_drop_le hlease hkind (hroom hroomy) hoccupied

/-! ## Admission keys -/

/-- Downloads under way that share a key have different owners, and no exclusive key. -/
def KeysApart (keys : Set String) (s : Registry R) : Prop :=
  ∀ id id' entry entry' key, id ≠ id' → s.accepted.lookup id = some entry →
    s.accepted.lookup id' = some entry' → entry.isDownload → entry'.isDownload →
    entry.cancelled = false → entry'.cancelled = false → entry.admissionKey = some key →
    entry'.admissionKey = some key → key ∉ keys ∧ entry.owner ≠ entry'.owner

theorem keysApart_empty (keys : Set String) : (empty : Registry R).KeysApart keys := by
  intro id id' entry entry' key _ hlookup
  simp [empty] at hlookup

theorem KeysApart.sub {keys : Set String} {hard : Prop} (hs : s.KeysApart keys)
    (hsub : ∀ {id new}, s'.accepted.lookup id = some new →
      ∃ old, s.accepted.lookup id = some old ∧ old.Follows hard new) :
    s'.KeysApart keys := by
  intro id id' entry entry' key hne hentry hentry' hdownload hdownload' hlive hlive' hkey hkey'
  obtain ⟨old, hold, hfollows⟩ := hsub hentry
  obtain ⟨old', hold', hfollows'⟩ := hsub hentry'
  have hlive : ∀ {old new : AcceptedEntry}, old.Follows hard new → new.cancelled = false →
      old.cancelled = false := by
    intro old new hfollows hnew
    cases hcancelled : old.cancelled with
    | false => rfl
    | true =>
        rw [hfollows.cancelled hcancelled] at hnew
        cases hnew
  have happart := hs _ _ _ _ _ hne hold hold' (hfollows.isDownload ▸ hdownload)
    (hfollows'.isDownload ▸ hdownload') (hlive hfollows ‹_›) (hlive hfollows' hlive')
    (hfollows.admissionKey.symm.trans hkey) (hfollows'.admissionKey.symm.trans hkey')
  rw [hfollows.owner, hfollows'.owner]
  exact happart

theorem KeysApart.add {keys : Set String} (hs : s.KeysApart keys) {entry : AcceptedEntry}
    (hfree : entry.isDownload → ∀ key, entry.admissionKey = some key →
      ¬s.KeyTaken key fun other ↦ key ∈ keys ∨ other.owner = entry.owner) :
    (s.addAccepted id entry).KeysApart keys := by
  intro first last new new' key hne hnew hnew' hdownload hdownload' hlive hlive' hkey hkey'
  rcases mem_of_lookup_insert hnew with ⟨rfl, rfl⟩ | ⟨-, hold⟩
  · rcases mem_of_lookup_insert hnew' with ⟨rfl, rfl⟩ | ⟨-, hold'⟩
    · exact absurd rfl hne
    · have hnot : ∀ {P : AcceptedEntry → Prop}, P new' → s.KeyTaken key P := fun hP ↦
        ⟨last, new', hold', hdownload', hkey', hlive', hP⟩
      exact ⟨fun h ↦ hfree hdownload key hkey (hnot (Or.inl h)),
        fun h ↦ hfree hdownload key hkey (hnot (Or.inr h.symm))⟩
  · rcases mem_of_lookup_insert hnew' with ⟨rfl, rfl⟩ | ⟨-, hold'⟩
    · have hnot : ∀ {P : AcceptedEntry → Prop}, P new → s.KeyTaken key P := fun hP ↦
        ⟨first, new, hold, hdownload, hkey, hlive, hP⟩
      exact ⟨fun h ↦ hfree hdownload' key hkey' (hnot (Or.inl h)),
        fun h ↦ hfree hdownload' key hkey' (hnot (Or.inr h))⟩
    · exact hs _ _ _ _ _ hne hold hold' hdownload hdownload' hlive hlive' hkey hkey'

theorem not_isDownload {entry : AcceptedEntry} (h : entry.kind = none) : ¬entry.isDownload := by
  rw [AcceptedEntry.isDownload, h]
  exact Bool.false_ne_true

theorem Effect.keysApart (h : Effect runtime terms s s') (hs : s.KeysApart terms.keys) :
    s'.KeysApart terms.keys := by
  cases h with
  | settle hsettles => exact hs.sub hsettles.entry
  | prepare _ _ => exact hs
  | activate _ _ _ _ => exact hs
  | @admitted ticket old createdAt entry _ _ _ _ _ hfree =>
      refine KeysApart.add (s := { s with reads := s.reads.erase ticket }) hs fun _ key hkey ↦ ?_
      exact hfree key hkey
  | accept _ _ hkind => exact hs.add fun h ↦ absurd h (not_isDownload hkind)
  | tail _ hkind _ _ => exact hs.add fun h ↦ absurd h (not_isDownload hkind)
  | complete _ _ _ _ => exact hs
  | dropRead _ _ _ => exact hs
  | dropAccepted _ _ _ _ =>
      exact hs.sub fun h ↦
        ⟨_, (AList.lookup_of_erase h).2, (AcceptedEntry.Follows.refl _ : AcceptedEntry.Follows False _ _)⟩

end Registry

end EnCroissant.Infra

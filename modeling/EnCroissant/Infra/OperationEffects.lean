import Mathlib
import EnCroissant.Infra.Operations

/-!
# What a call does to the registry

Every call is a sequence of a few kinds of effects.  Most only settle what is there:
reservations go, tokens are cancelled, completions move on.  The others add a
reservation, turn one into work under way, or end that work.
-/

namespace EnCroissant.Infra

/-! ## Entries that move on -/

namespace ReadState

/-- A reservation is cancelled before its claim, or by its token after it. -/
inductive Follows : ReadState → ReadState → Prop where
  | same (state : ReadState) : Follows state state
  | cancelled (createdAt now : ℕ) : Follows (.reserved createdAt) (.cancelledReserved now)
  | token (cancelled : Bool) (label : String) :
      Follows (.active cancelled label) (.active true label)

theorem Follows.trans {a b c : ReadState} (h : Follows a b) (h' : Follows b c) :
    Follows a c := by
  cases h with
  | same => exact h'
  | cancelled createdAt now =>
      cases h'
      exact Follows.cancelled createdAt now
  | token cancelled label =>
      cases h' with
      | same => exact Follows.token cancelled label
      | token => exact Follows.token cancelled label

end ReadState

structure ReadEntry.Follows (old new : ReadEntry) : Prop where
  owner : new.owner = old.owner
  kind : new.kind = old.kind
  state : old.state.Follows new.state

/-- Flags are only raised; a token of a download that commits is cancelled by a hard call. -/
structure AcceptedEntry.Follows (hard : Prop) (old new : AcceptedEntry) : Prop where
  owner : new.owner = old.owner
  kind : new.kind = old.kind
  progressId : new.progressId = old.progressId
  admissionKey : new.admissionKey = old.admissionKey
  cancelled : old.cancelled → new.cancelled
  committing : old.committing → new.committing
  spared : old.isDownload → old.committing → new.cancelled → old.cancelled ∨ hard

theorem ReadEntry.Follows.refl (entry : ReadEntry) : entry.Follows entry :=
  ⟨rfl, rfl, ReadState.Follows.same _⟩

theorem ReadEntry.Follows.trans {a b c : ReadEntry} (h : a.Follows b) (h' : b.Follows c) :
    a.Follows c :=
  ⟨h'.owner.trans h.owner, h'.kind.trans h.kind, h.state.trans h'.state⟩

variable {hard : Prop}

theorem AcceptedEntry.Follows.refl (entry : AcceptedEntry) : entry.Follows hard entry :=
  ⟨rfl, rfl, rfl, rfl, id, id, fun _ _ h ↦ Or.inl h⟩

theorem AcceptedEntry.Follows.isDownload {a b : AcceptedEntry} (h : a.Follows hard b) :
    b.isDownload = a.isDownload := by
  rw [AcceptedEntry.isDownload, AcceptedEntry.isDownload, h.kind]

theorem AcceptedEntry.Follows.trans {a b c : AcceptedEntry} (h : a.Follows hard b)
    (h' : b.Follows hard c) :
    a.Follows hard c := by
  refine ⟨h'.owner.trans h.owner, h'.kind.trans h.kind, h'.progressId.trans h.progressId,
    h'.admissionKey.trans h.admissionKey, h'.cancelled ∘ h.cancelled,
    h'.committing ∘ h.committing, ?_⟩
  intro hdownload hcommitting hcancelled
  have hb := h'.spared (h.isDownload.trans hdownload) (h.committing hcommitting) hcancelled
  rcases hb with hb | hb
  · exact h.spared hdownload hcommitting hb
  · exact Or.inr hb

namespace Registry

variable {R : Type} {s s' s'' : Registry R}

/-! ## Occupied slots -/

def waitingIds (s : Registry R) : Finset String := s.completions.keysWith s.waiting

theorem mem_waitingIds {id : String} :
    id ∈ s.waitingIds ↔ ∃ entry, s.completions.lookup id = some entry ∧ id ∉ s.accepted ∧
      entry.operationId ∉ s.accepted := by
  rw [waitingIds, AList.mem_keysWith]
  simp only [waiting, decide_eq_true_eq]

theorem occupied_eq (s : Registry R) : s.occupied = s.accepted.size + s.waitingIds.card := by
  rw [occupied, waitingIds, AList.card_keysWith]

/-! ## Settling -/

/-- What is there afterwards was there before, and work under way stays. -/
structure Settles (hard : Prop) (s s' : Registry R) : Prop where
  read : ∀ {ticket new}, s'.reads.lookup ticket = some new →
    ∃ old, s.reads.lookup ticket = some old ∧ old.Follows new
  active : ∀ {ticket old}, s.reads.lookup ticket = some old → isActive old.state →
    ticket ∈ s'.reads
  readsSize : s'.reads.size ≤ s.reads.size
  entry : ∀ {id new}, s'.accepted.lookup id = some new →
    ∃ old, s.accepted.lookup id = some old ∧ old.Follows hard new
  mem_accepted : ∀ {id}, id ∈ s'.accepted ↔ id ∈ s.accepted
  acceptedSize : s'.accepted.size = s.accepted.size
  completion : ∀ {id new}, s'.completions.lookup id = some new →
    ∃ old, s.completions.lookup id = some old ∧ new.operationId = old.operationId
  isSealed : s.sealed → s'.sealed
  leases : s'.leases = s.leases
  drawn : s.drawn ≤ s'.drawn

theorem Settles.refl (hard : Prop) (s : Registry R) : Settles hard s s where
  read h := ⟨_, h, ReadEntry.Follows.refl _⟩
  active h _ := AList.mem_of_lookup h
  readsSize := le_rfl
  entry h := ⟨_, h, AcceptedEntry.Follows.refl _⟩
  mem_accepted := Iff.rfl
  acceptedSize := rfl
  completion h := ⟨_, h, rfl⟩
  isSealed := id
  leases := rfl
  drawn := le_rfl

theorem Settles.occupied_le (h : Settles hard s s') : s'.occupied ≤ s.occupied := by
  have hwaiting : s'.waitingIds ⊆ s.waitingIds := by
    intro id hid
    obtain ⟨new, hnew, hid, hoperation⟩ := mem_waitingIds.mp hid
    obtain ⟨old, hold, hsame⟩ := h.completion hnew
    rw [hsame] at hoperation
    exact mem_waitingIds.mpr
      ⟨old, hold, fun hmem ↦ hid (h.mem_accepted.mpr hmem),
        fun hmem ↦ hoperation (h.mem_accepted.mpr hmem)⟩
  have hcard := Finset.card_le_card hwaiting
  have hsize := h.acceptedSize
  rw [occupied_eq, occupied_eq]
  omega

/-! ### Of reservations -/

/-- The reservations go, or move on; the rest stays. -/
theorem settles_reads {reads : AList fun _ : String ↦ ReadEntry}
    (hread : ∀ {ticket new}, reads.lookup ticket = some new →
      ∃ old, s.reads.lookup ticket = some old ∧ old.Follows new)
    (hactive : ∀ {ticket old}, s.reads.lookup ticket = some old → isActive old.state →
      ticket ∈ reads)
    (hsize : reads.size ≤ s.reads.size) :
    Settles hard s { s with reads := reads } :=
  { Settles.refl _ s with read := hread, active := hactive, readsSize := hsize }

theorem purgeExpired_settles (s : Registry R) (now : ℕ) : Settles hard s (s.purgeExpired now) := by
  refine settles_reads ?_ ?_ (AList.size_retain_le _ _)
  · intro ticket new hnew
    exact ⟨new, (AList.lookup_retain.mp hnew).1, ReadEntry.Follows.refl new⟩
  · intro ticket old hold hactive
    refine AList.mem_of_lookup (AList.lookup_retain.mpr ⟨hold, ?_⟩)
    cases hstate : old.state with
    | reserved | cancelledReserved =>
        rw [hstate] at hactive
        cases hactive
    | active => simp [expired, hstate]

theorem eraseRead_settles {ticket : String}
    (hidle : ∀ entry, s.reads.lookup ticket = some entry → ¬isActive entry.state) :
    Settles hard s { s with reads := s.reads.erase ticket } := by
  refine settles_reads ?_ ?_ (AList.size_erase_le _ _)
  · intro other new hnew
    exact ⟨new, (AList.lookup_of_erase hnew).2, ReadEntry.Follows.refl new⟩
  · intro other old hold hactive
    refine AList.mem_erase.mpr ⟨?_, AList.mem_of_lookup hold⟩
    rintro rfl
    exact hidle old hold hactive

theorem setRead_settles {ticket : String} {old new : ReadEntry}
    (hold : s.reads.lookup ticket = some old) (hfollows : old.Follows new) :
    Settles hard s { s with reads := s.reads.insert ticket new } := by
  have hmem := AList.mem_of_lookup hold
  refine settles_reads ?_ ?_ (AList.size_insert_of_mem hmem new).le
  · intro other entry hentry
    by_cases hsame : other = ticket
    · subst hsame
      rw [AList.lookup_insert] at hentry
      obtain rfl := Option.some.inj hentry
      exact ⟨old, hold, hfollows⟩
    · rw [AList.lookup_insert_ne hsame] at hentry
      exact ⟨entry, hentry, ReadEntry.Follows.refl entry⟩
  · intro other entry hentry _
    exact (AList.mem_insert _).mpr (Or.inr (AList.mem_of_lookup hentry))

theorem cancelEntry_settles (s : Registry R) (ticket : String) :
    Settles hard s (s.cancelEntry ticket) := by
  rw [cancelEntry]
  cases hlookup : s.reads.lookup ticket with
  | none => exact Settles.refl _ s
  | some entry =>
      dsimp only
      cases hstate : entry.state with
      | active cancelled label =>
          refine setRead_settles hlookup ⟨rfl, rfl, ?_⟩
          rw [hstate]
          exact ReadState.Follows.token cancelled label
      | reserved | cancelledReserved =>
          refine eraseRead_settles fun other hother ↦ ?_
          obtain rfl := Option.some.inj (hlookup.symm.trans hother)
          rw [hstate]
          exact Bool.false_ne_true

/-! ### Of accepted operations -/

theorem setAccepted_settles {id : String} {old new : AcceptedEntry}
    (hold : s.accepted.lookup id = some old) (hfollows : old.Follows hard new) :
    Settles hard s (s.setAccepted id new) := by
  have hmem := AList.mem_of_lookup hold
  refine { Settles.refl hard s with entry := ?_, mem_accepted := ?_, acceptedSize := ?_ }
  · intro other entry hentry
    by_cases hsame : other = id
    · subst hsame
      rw [setAccepted, AList.lookup_insert] at hentry
      obtain rfl := Option.some.inj hentry
      exact ⟨old, hold, hfollows⟩
    · rw [setAccepted, AList.lookup_insert_ne hsame] at hentry
      exact ⟨entry, hentry, AcceptedEntry.Follows.refl entry⟩
  · intro other
    refine (AList.mem_insert _).trans ⟨?_, Or.inr⟩
    rintro (rfl | hother)
    · exact hmem
    · exact hother
  · exact AList.size_insert_of_mem hmem new

theorem mapAccepted_settles {f : String → AcceptedEntry → AcceptedEntry}
    (hfollows : ∀ id (entry : AcceptedEntry), entry.Follows hard (f id entry)) :
    Settles hard s { s with accepted := s.accepted.mapValues f } := by
  refine { Settles.refl hard s with
    entry := ?_, mem_accepted := ?_, acceptedSize := AList.size_mapValues _ _ }
  · intro id new hnew
    obtain ⟨old, hold, rfl⟩ := AList.lookup_mapValues.mp hnew
    exact ⟨old, hold, hfollows id old⟩
  · intro id
    rw [← AList.lookup_isSome, ← AList.lookup_isSome, Option.isSome_iff_exists,
      Option.isSome_iff_exists]
    constructor
    · rintro ⟨new, hnew⟩
      obtain ⟨old, hold, -⟩ := AList.lookup_mapValues.mp hnew
      exact ⟨old, hold⟩
    · rintro ⟨old, hold⟩
      exact ⟨f id old, AList.lookup_mapValues.mpr ⟨old, hold, rfl⟩⟩

/-- The token of a download that does not commit is cancelled. -/
theorem cancel_follows {entry : AcceptedEntry}
    (hspared : entry.isDownload → entry.committing → hard) :
    entry.Follows hard { entry with cancelled := true } :=
  ⟨rfl, rfl, rfl, rfl, fun _ ↦ rfl, id, fun hdownload hcommitting _ ↦
    Or.inr (hspared hdownload hcommitting)⟩

theorem cancelAcceptedDownload_settles {id : String} {entry : AcceptedEntry}
    (hlookup : s.accepted.lookup id = some entry) :
    Settles hard s (s.cancelAcceptedDownload id entry).2 := by
  rw [cancelAcceptedDownload]
  split_ifs with hcommitting
  · exact Settles.refl _ s
  · exact setAccepted_settles hlookup (cancel_follows fun _ h ↦ absurd h hcommitting)

/-! ### Of completions -/

theorem setCompletion_settles {id : String} {old new : EngineCompletionEntry R}
    (hold : s.completions.lookup id = some old) (hsame : new.operationId = old.operationId) :
    Settles hard s (s.setCompletion id new) := by
  refine { Settles.refl hard s with completion := ?_ }
  intro other entry hentry
  by_cases hid : other = id
  · subst hid
    rw [setCompletion, AList.lookup_insert] at hentry
    obtain rfl := Option.some.inj hentry
    exact ⟨old, hold, hsame⟩
  · rw [setCompletion, AList.lookup_insert_ne hid] at hentry
    exact ⟨entry, hentry, rfl⟩

theorem eraseCompletion_settles (s : Registry R) (id : String) :
    Settles hard s { s with completions := s.completions.erase id } :=
  { Settles.refl _ s with
    completion := fun h ↦ ⟨_, (AList.lookup_of_erase h).2, rfl⟩ }

/-! ## Effects -/

/-- What is assumed of a call: whether it may cancel a download that commits, whether it
leaves room for its slot, which lease it drops, and which admission keys are claimed
exclusively only. -/
structure Terms where
  hard : Prop
  roomy : Prop
  drops : Option OperationLease
  keys : Set String

/-- A download under way that is not cancelled has the key. -/
def KeyTaken (s : Registry R) (key : String) (owns : AcceptedEntry → Prop) : Prop :=
  ∃ id entry, s.accepted.lookup id = some entry ∧ entry.isDownload ∧
    entry.admissionKey = some key ∧ entry.cancelled = false ∧ owns entry

inductive Effect (runtime : Runtime) (terms : Terms) (s : Registry R) : Registry R → Prop where
  | settle {s' : Registry R} : Settles terms.hard s s' → Effect runtime terms s s'
  | prepare {entry : ReadEntry} {createdAt : ℕ} :
      s.reads.size < maxNativeReads → entry.state = .reserved createdAt →
        Effect runtime terms s { s with
          reads := s.reads.insert (runtime.uuid s.drawn) entry
          drawn := s.drawn + 1 }
  | activate {ticket label : String} {entry : ReadEntry} {createdAt : ℕ} {lease : OperationLease} :
      s.reads.lookup ticket = some entry → entry.state = .reserved createdAt →
        entry.kind.leaseKind ≠ .accepted → lease = ⟨ticket, entry.kind.leaseKind⟩ →
          Effect runtime terms s { s with
            reads := s.reads.insert ticket { entry with state := .active false label }
            leases := lease :: s.leases }
  | admitted {ticket : String} {old : ReadEntry} {createdAt : ℕ} {entry : AcceptedEntry} :
      s.reads.lookup ticket = some old → old.state = .reserved createdAt →
        ticket ∉ s.accepted → s.occupied < maxAcceptedOperations → entry.kind ≠ none →
          (∀ key, entry.admissionKey = some key →
            ¬s.KeyTaken key fun other ↦ key ∈ terms.keys ∨ other.owner = entry.owner) →
          Effect runtime terms s
            ({ s with reads := s.reads.erase ticket }.addAccepted ticket entry)
  | accept {id : String} {entry : AcceptedEntry} :
      id ∉ s.accepted → s.occupied < maxAcceptedOperations → entry.kind = none →
        Effect runtime terms s (s.addAccepted id entry)
  | tail {id : String} {entry : AcceptedEntry} {completion : EngineCompletionEntry R} :
      id ∉ s.accepted → entry.kind = none → s.completions.lookup id = some completion →
        (terms.roomy →
          s.occupied < maxAcceptedOperations ∨ completion.operationId ∉ s.accepted) →
        Effect runtime terms s (s.addAccepted id entry)
  | complete {id : String} {completion : EngineCompletionEntry R} {entry : AcceptedEntry} :
      id ∉ s.completions → s.accepted.lookup completion.operationId = some entry →
        entry.kind ≠ none →
        (∀ other old, s.completions.lookup other = some old →
          old.operationId ≠ completion.operationId) →
        Effect runtime terms s (s.setCompletion id completion)
  | dropRead {lease : OperationLease} :
      lease ∈ s.leases → terms.drops = some lease → lease.kind ≠ .accepted →
        Effect runtime terms s
          { s with reads := s.reads.erase lease.id, leases := s.leases.erase lease }
  | dropAccepted {lease : OperationLease} :
      lease ∈ s.leases → terms.drops = some lease → lease.kind = .accepted →
        (terms.roomy → s.occupied < maxAcceptedOperations ∨
          ∀ entry other entry', s.completions.lookup lease.id = some entry →
            s.completions.lookup other = some entry' → entry'.operationId = lease.id →
              other = lease.id) →
        Effect runtime terms s
          { s with accepted := s.accepted.erase lease.id, leases := s.leases.erase lease }

end Registry

end EnCroissant.Infra

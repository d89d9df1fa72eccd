import Mathlib
import EnCroissant.Infra.OperationInvariants

/-!
# Every call is a sequence of effects

One lemma for each function of the registry, and from them one for a call.
-/

namespace EnCroissant.Infra

/-- The calls that may cancel a download that commits. -/
def RegistryCall.Hard {R : Type} : RegistryCall R → Prop
  | .sealAndRequestCancellation | .cancelToken _ => True
  | _ => False

def RegistryCall.dropped {R : Type} : RegistryCall R → Option OperationLease
  | .drop lease => some lease
  | _ => none

/-- Every download with one of these admission keys is claimed exclusively. -/
def RegistryCall.Respects {R : Type} (keys : Set String) : RegistryCall R → Prop
  | .claimDownload _ _ _ policy _ => policy.admissionKey ∈ keys → policy.exclusive
  | .admitEngineCompletion _ _ _ request _ _ => request.progressId ∉ keys
  | _ => True

namespace Registry

variable {R : Type} {runtime : Runtime} {terms : Terms} {keys : Set String} {s s' : Registry R}
  {ticket id owner label : String} {kind : ReservationKind} {now : ℕ}

/-- The guards of an application are passed: its owner asks for a step that is due, is not
under way and is not done. -/
def StartsTail (s : Registry R) (id owner : String) (step : EngineApplicationStep)
    (entry : EngineCompletionEntry R) : Prop :=
  s.completions.lookup id = some entry ∧ entry.owner = owner ∧ s.sealed = false ∧
    id ∉ s.accepted ∧ entry.job step ≠ some true ∧
    (step = .retirement → entry.snapshot.outcome.hasSucceeded ∧ entry.snapshot.retired = false) ∧
    (step = .acknowledgement → entry.unfinished = false)

/-- The call leaves room: an application that starts has the slot of its completion to
itself, and a lease that drops stands for no two completions; or a slot is free. -/
def RoomFor (s : Registry R) : RegistryCall R → Prop
  | .beginEngineApplication id owner step =>
      ∀ entry, s.StartsTail id owner step entry →
        s.occupied < maxAcceptedOperations ∨ entry.operationId ∉ s.accepted
  | .drop lease =>
      s.occupied < maxAcceptedOperations ∨
        ∀ entry other entry', s.completions.lookup lease.id = some entry →
          s.completions.lookup other = some entry' → entry'.operationId = lease.id →
            other = lease.id
  | _ => True

/-- What a call of the registry is a sequence of. -/
abbrev Steps (runtime : Runtime) (terms : Terms) : Registry R → Registry R → Prop :=
  Relation.ReflTransGen (Effect runtime terms)

theorem Steps.of (h : Effect runtime terms s s') : Steps runtime terms s s' :=
  Relation.ReflTransGen.single h

theorem Steps.settle (h : Settles terms.hard s s') : Steps runtime terms s s' :=
  Steps.of (Effect.settle h)

theorem purgeExpired_steps (s : Registry R) (now : ℕ) :
    Steps runtime terms s (s.purgeExpired now) :=
  Steps.settle (purgeExpired_settles s now)

/-- What is reserved after the expired went was reserved before. -/
theorem lookup_purgeExpired {entry : ReadEntry}
    (h : (s.purgeExpired now).reads.lookup ticket = some entry) :
    s.reads.lookup ticket = some entry :=
  (AList.lookup_retain.mp h).1

theorem eraseRead_steps {entry : ReadEntry} (hlookup : s.reads.lookup ticket = some entry)
    (hidle : ¬isActive entry.state) :
    Steps runtime terms s { s with reads := s.reads.erase ticket } := by
  refine Steps.settle (eraseRead_settles fun other hother ↦ ?_)
  obtain rfl := Option.some.inj (hlookup.symm.trans hother)
  exact hidle

theorem cancelEntries_steps (s : Registry R) (tickets : List String) :
    Steps runtime terms s (s.cancelEntries tickets) := by
  induction tickets generalizing s with
  | nil => exact Relation.ReflTransGen.refl
  | cons ticket tickets ih =>
      exact (Steps.settle (cancelEntry_settles s ticket)).trans (ih (s.cancelEntry ticket))

/-! ## Reservations -/

theorem prepareReservation_steps (s : Registry R) (owner : String) (kind : ReservationKind)
    (now : ℕ) :
    Steps runtime terms s (s.prepareReservation runtime owner kind now).2 := by
  refine (purgeExpired_steps s now).trans ?_
  rw [prepareReservation]
  set purged := s.purgeExpired now
  dsimp only
  split_ifs with hsealed hfull
  · exact Relation.ReflTransGen.refl
  · exact Relation.ReflTransGen.refl
  · exact Steps.of (Effect.prepare (not_le.mp hfull) rfl)

/-- A claim that succeeds: its ticket was reserved, and is not afterwards. -/
structure Claims (s : Registry R) (ticket : String) (lease : OperationLease) (s' : Registry R) :
    Prop where
  unsealed : s.sealed = false
  reserved : ∃ entry createdAt, s.reads.lookup ticket = some entry ∧
    entry.state = .reserved createdAt
  after : ∀ {entry}, s'.reads.lookup ticket = some entry → isActive entry.state
  lease_id : lease.id = ticket
  out : lease ∈ s'.leases

theorem claimRefusal_eq_none {entry : ReadEntry} (hkind : kind.leaseKind ≠ .accepted)
    (h : claimRefusal entry owner kind = none) :
    entry.kind = kind := by
  cases kind with
  | read =>
      rw [claimRefusal] at h
      split_ifs at h with _ hsame
      exact not_not.mp hsame
  | analysis tab =>
      rw [claimRefusal] at h
      split_ifs at h with hsame
      push Not at hsame
      exact hsame.2
  | download | conversion => exact absurd rfl hkind

theorem claimReservation_spec (hkind : kind.leaseKind ≠ .accepted)
    {reply : Except Error OperationLease}
    (h : s.claimReservation ticket owner kind label now = (reply, s')) :
    Steps runtime terms s s' ∧ ∀ lease, reply = .ok lease → Claims s ticket lease s' := by
  have hpurge : Steps runtime terms s (s.purgeExpired now) := purgeExpired_steps s now
  rw [claimReservation] at h
  set purged := s.purgeExpired now with hpurged
  dsimp only at h
  by_cases hsealed : purged.sealed
  · rw [if_pos hsealed] at h
    obtain ⟨rfl, rfl⟩ := Prod.mk.inj h
    exact ⟨hpurge, fun _ h ↦ by cases h⟩
  · rw [if_neg hsealed] at h
    cases hlookup : purged.reads.lookup ticket with
    | none =>
        rw [hlookup] at h
        obtain ⟨rfl, rfl⟩ := Prod.mk.inj h
        exact ⟨hpurge, fun _ h ↦ by cases h⟩
    | some entry =>
        rw [hlookup] at h
        dsimp only at h
        cases hrefusal : claimRefusal entry owner kind with
        | some message =>
            rw [hrefusal] at h
            obtain ⟨rfl, rfl⟩ := Prod.mk.inj h
            exact ⟨hpurge, fun _ h ↦ by cases h⟩
        | none =>
            rw [hrefusal] at h
            have hsame := claimRefusal_eq_none hkind hrefusal
            cases hstate : entry.state with
            | reserved createdAt =>
                rw [hstate] at h
                obtain ⟨rfl, rfl⟩ := Prod.mk.inj h
                refine ⟨hpurge.trans (Steps.of (Effect.activate hlookup hstate ?_ ?_)), ?_⟩
                · rw [hsame]
                  exact hkind
                · rw [hsame]
                · rintro _ ⟨⟩
                  refine ⟨Bool.eq_false_of_not_eq_true hsealed,
                    ⟨entry, createdAt, lookup_purgeExpired hlookup, hstate⟩, ?_, rfl,
                    List.mem_cons_self⟩
                  intro new hnew
                  obtain rfl := Option.some.inj ((AList.lookup_insert _).symm.trans hnew)
                  rfl
            | cancelledReserved | active =>
                rw [hstate] at h
                obtain ⟨rfl, rfl⟩ := Prod.mk.inj h
                exact ⟨hpurge, fun _ h ↦ by cases h⟩

theorem cancelReservation_steps (s : Registry R) (ticket owner : String)
    (requestedAnalysis : Bool) (now : ℕ) :
    Steps runtime terms s (s.cancelReservation ticket owner requestedAnalysis now).2 := by
  refine (purgeExpired_steps s now).trans ?_
  rw [cancelReservation]
  set purged := s.purgeExpired now
  have hcancel : Steps runtime terms purged (purged.cancelEntry ticket) :=
    Steps.settle (cancelEntry_settles purged ticket)
  cases purged.reads.lookup ticket with
  | none => exact Relation.ReflTransGen.refl
  | some entry =>
      dsimp only
      split_ifs <;> first | exact Relation.ReflTransGen.refl | exact hcancel

/-! ## Accepted operations -/

theorem acceptInState_spec {reply : Except Error OperationLease}
    (h : s.acceptInState id label = (reply, s')) :
    Steps runtime terms s s' ∧ ∀ lease, reply = .ok lease →
      s.sealed = false ∧ lease ∈ s'.leases := by
  rw [acceptInState] at h
  split_ifs at h with hsealed hfull hmem
  · obtain ⟨rfl, rfl⟩ := Prod.mk.inj h
    exact ⟨Relation.ReflTransGen.refl, fun _ h ↦ by cases h⟩
  · obtain ⟨rfl, rfl⟩ := Prod.mk.inj h
    exact ⟨Relation.ReflTransGen.refl, fun _ h ↦ by cases h⟩
  · obtain ⟨rfl, rfl⟩ := Prod.mk.inj h
    exact ⟨Relation.ReflTransGen.refl, fun _ h ↦ by cases h⟩
  · obtain ⟨rfl, rfl⟩ := Prod.mk.inj h
    refine ⟨Steps.of (Effect.accept hmem (not_le.mp hfull) rfl), ?_⟩
    rintro _ ⟨⟩
    exact ⟨Bool.eq_false_of_not_eq_true hsealed, List.mem_cons_self⟩

theorem accept_spec {reply : Except Error OperationLease}
    (h : s.accept runtime label = (reply, s')) :
    Steps runtime terms s s' ∧ ∀ lease, reply = .ok lease →
      s.sealed = false ∧ lease ∈ s'.leases := by
  have hdraw : Settles terms.hard s { s with drawn := s.drawn + 1 } :=
    { Settles.refl _ s with drawn := Nat.le_succ _ }
  obtain ⟨hsteps, hunsealed⟩ := acceptInState_spec (R := R) h
  exact ⟨(Steps.settle hdraw).trans hsteps, hunsealed⟩

/-- A policy is passed when no download under way has the key, as far as it looks. -/
theorem policyRefusal_eq_none {policy : DownloadPolicy} (h : s.policyRefusal owner policy = none) :
    ¬s.KeyTaken policy.admissionKey fun other ↦ policy.exclusive ∨ other.owner = owner := by
  rintro ⟨id, entry, hentry, hdownload, hkey, hlive, howns⟩
  rw [policyRefusal, if_pos] at h
  · cases h
  · refine List.any_eq_true.mpr ⟨⟨id, entry⟩, AList.mem_lookup_iff.mp hentry, ?_⟩
    simpa [hdownload, hkey, hlive] using howns

theorem claimPreparedInState_spec {claim : PreparedReservationClaim}
    (hkeys : ∀ policy, claim.downloadPolicy = some policy → policy.admissionKey ∈ terms.keys →
      policy.exclusive)
    {reply : Except Error OperationLease}
    (h : s.claimPreparedInState claim now = (reply, s')) :
    Steps runtime terms s s' ∧ ∀ lease, reply = .ok lease →
      Claims s claim.ticket lease s' ∧ claim.ticket ∉ s'.reads ∧
        s'.completions = s.completions ∧
          ∃ entry, s'.accepted.lookup claim.ticket = some entry ∧ entry.kind ≠ none := by
  have hpurge : Steps runtime terms s (s.purgeExpired now) := purgeExpired_steps s now
  rw [claimPreparedInState] at h
  set purged := s.purgeExpired now with hpurged
  have hrefused : ∀ e : Error, (.error e, purged) = (reply, s') →
      Steps runtime terms s s' ∧ ∀ lease, reply = .ok lease →
        Claims s claim.ticket lease s' ∧ claim.ticket ∉ s'.reads ∧
          s'.completions = s.completions ∧
            ∃ entry, s'.accepted.lookup claim.ticket = some entry ∧ entry.kind ≠ none := by
    intro e heq
    obtain ⟨rfl, rfl⟩ := Prod.mk.inj heq
    exact ⟨hpurge, fun _ h ↦ by cases h⟩
  by_cases hsealed : purged.sealed
  · rw [if_pos hsealed] at h
    exact hrefused _ h
  rw [if_neg hsealed] at h
  cases hlookup : purged.reads.lookup claim.ticket with
  | none =>
      rw [hlookup] at h
      exact hrefused _ h
  | some old =>
      rw [hlookup] at h
      dsimp only at h
      by_cases howner : old.owner ≠ claim.owner
      · rw [if_pos howner] at h
        exact hrefused _ h
      rw [if_neg howner] at h
      by_cases hkind : old.kind ≠ claim.kind
      · rw [if_pos hkind] at h
        exact hrefused _ h
      rw [if_neg hkind] at h
      cases hstate : old.state with
      | active cancelled label =>
          rw [hstate] at h
          exact hrefused _ h
      | cancelledReserved createdAt =>
          rw [hstate] at h
          obtain ⟨rfl, rfl⟩ := Prod.mk.inj h
          refine ⟨hpurge.trans (eraseRead_steps hlookup ?_), fun _ h ↦ by cases h⟩
          rw [hstate]
          exact Bool.false_ne_true
      | reserved createdAt =>
          rw [hstate] at h
          dsimp only at h
          cases hpolicy : claim.downloadPolicy.bind (purged.policyRefusal claim.owner) with
          | some e =>
              rw [hpolicy] at h
              exact hrefused _ h
          | none =>
              rw [hpolicy] at h
              dsimp only at h
              split_ifs at h with hfull hmem
              · exact hrefused _ h
              · exact hrefused _ h
              · obtain ⟨rfl, rfl⟩ := Prod.mk.inj h
                refine ⟨hpurge.trans (Steps.of (Effect.admitted hlookup hstate hmem
                  (not_le.mp hfull) (by simp) ?_)), ?_⟩
                · intro key hkey htaken
                  obtain ⟨policy, hclaim, rfl⟩ := Option.map_eq_some_iff.mp hkey
                  rw [hclaim] at hpolicy
                  obtain ⟨other, entry, hentry, hdownload, hsame, hlive, howns⟩ := htaken
                  refine policyRefusal_eq_none hpolicy
                    ⟨other, entry, hentry, hdownload, hsame, hlive, ?_⟩
                  exact howns.imp_left (hkeys policy hclaim)
                · rintro _ ⟨⟩
                  have hgone : claim.ticket ∉ purged.reads.erase claim.ticket :=
                    fun hmem ↦ (AList.mem_erase.mp hmem).1 rfl
                  refine ⟨⟨Bool.eq_false_of_not_eq_true hsealed,
                    ⟨old, createdAt, lookup_purgeExpired hlookup, hstate⟩, ?_, rfl,
                    List.mem_cons_self⟩, hgone, rfl, _, AList.lookup_insert _, by simp⟩
                  exact fun hnew ↦ absurd (AList.mem_of_lookup hnew) hgone

/-! ## Cancelling and releasing -/

theorem cancelPrepared_steps (s : Registry R) (ticket owner : String) (kind : ReservationKind)
    (now : ℕ) :
    Steps runtime terms s (s.cancelPrepared ticket owner kind now).2 := by
  refine (purgeExpired_steps s now).trans ?_
  rw [cancelPrepared]
  set purged := s.purgeExpired now
  cases hlookup : purged.reads.lookup ticket with
  | some entry =>
      dsimp only
      split_ifs
      · exact Relation.ReflTransGen.refl
      · exact Relation.ReflTransGen.refl
      · cases hstate : entry.state with
        | reserved createdAt =>
            refine Steps.settle (setRead_settles hlookup ⟨rfl, rfl, ?_⟩)
            rw [hstate]
            exact ReadState.Follows.cancelled createdAt now
        | cancelledReserved | active => exact Relation.ReflTransGen.refl
  | none =>
      dsimp only
      cases haccepted : purged.accepted.lookup ticket with
      | none => exact Relation.ReflTransGen.refl
      | some entry =>
          dsimp only
          split_ifs with hmatches howner hdownload
          · exact Relation.ReflTransGen.refl
          · exact Relation.ReflTransGen.refl
          · exact Steps.settle (cancelAcceptedDownload_settles haccepted)
          · exact Steps.settle
              (setAccepted_settles haccepted (cancel_follows fun h ↦ absurd h hdownload))

theorem cancelFirst_steps {entries : List (Σ _ : String, AcceptedEntry)}
    (hentries : ∀ entry ∈ entries, s.accepted.lookup entry.1 = some entry.2)
    (alreadyCancelled : Bool) :
    Steps runtime terms s (s.cancelFirst entries alreadyCancelled).2 := by
  induction entries generalizing alreadyCancelled with
  | nil => exact Relation.ReflTransGen.refl
  | cons entry entries ih =>
      rw [cancelFirst]
      split_ifs
      · exact ih (fun other hother ↦ hentries other (List.mem_cons_of_mem _ hother)) true
      · exact Steps.settle (cancelAcceptedDownload_settles (hentries entry List.mem_cons_self))

/-- The downloads that report under a progress id, in the order they are gone through. -/
def reporting (runtime : Runtime) (s : Registry R) (progressId owner : String) :
    List (Σ _ : String, AcceptedEntry) :=
  (runtime.order s.accepted.entries).filter fun entry ↦ reportsTo progressId owner entry.2

theorem mem_reporting {progressId : String} {entry : Σ _ : String, AcceptedEntry} :
    entry ∈ s.reporting runtime progressId owner ↔
      s.accepted.lookup entry.1 = some entry.2 ∧ reportsTo progressId owner entry.2 := by
  rw [reporting, List.mem_filter, (runtime.order_perm _).mem_iff]
  exact and_congr_left fun _ ↦ AList.mem_lookup_iff.symm

theorem cancelDownloadForProgress_steps (s : Registry R) (progressId owner : String) :
    Steps runtime terms s (s.cancelDownloadForProgress runtime progressId owner).2 :=
  cancelFirst_steps (fun _ h ↦ (mem_reporting.mp h).1) false

theorem releasePrepared_steps (hs : s.Inv runtime) (hkind : kind.leaseKind = .accepted)
    (ticket owner : String) (now : ℕ) :
    Steps runtime terms s (s.releasePrepared ticket owner kind now).2 := by
  have hpurged : (s.purgeExpired now).Inv runtime :=
    (purgeExpired_settles s now : Settles False _ _).inv hs
  refine (purgeExpired_steps s now).trans ?_
  rw [releasePrepared]
  set purged := s.purgeExpired now
  cases hlookup : purged.reads.lookup ticket with
  | some entry =>
      dsimp only
      split_ifs with howner hsame
      · exact Relation.ReflTransGen.refl
      · exact Relation.ReflTransGen.refl
      · refine eraseRead_steps hlookup fun hactive ↦ hpurged.activeKind hlookup hactive ?_
        rw [not_not.mp hsame]
        exact hkind
  | none =>
      dsimp only
      cases purged.accepted.lookup ticket with
      | none => exact Relation.ReflTransGen.refl
      | some entry =>
          dsimp only
          split_ifs <;> exact Relation.ReflTransGen.refl

theorem cancelAnalysesForTab_steps (s : Registry R) (owner tab : String) :
    Steps runtime terms s (s.cancelAnalysesForTab owner tab).2 :=
  cancelEntries_steps s _

theorem cancelOwnerReservations_steps (s : Registry R) (owner : String) :
    Steps runtime terms s (s.cancelOwnerReservations owner).2 :=
  cancelEntries_steps s _

theorem cancelOwner_steps (s : Registry R) (owner : String) :
    Steps runtime terms s (s.cancelOwner owner).2 := by
  refine (cancelOwnerReservations_steps s owner).trans (Steps.settle (mapAccepted_settles ?_))
  intro id entry
  split_ifs with howned
  · refine cancel_follows fun _ hcommitting ↦ ?_
    rw [ownedDownload, hcommitting, Bool.not_true, Bool.and_false] at howned
    cases howned
  · exact AcceptedEntry.Follows.refl entry

theorem cancelState_follows (state : ReadState) : state.Follows (cancelState state) := by
  cases state with
  | reserved createdAt => exact ReadState.Follows.same _
  | cancelledReserved createdAt => exact ReadState.Follows.same _
  | active cancelled label => exact ReadState.Follows.token cancelled label

theorem sealAndRequestCancellation_steps (hhard : terms.hard) (s : Registry R) :
    Steps runtime terms s s.sealAndRequestCancellation := by
  have hreads : Settles terms.hard s { s with
      reads := (s.reads.retain fun _ entry ↦ isActive entry.state).mapValues fun _ entry ↦
        { entry with state := cancelState entry.state } } := by
    refine settles_reads ?_ ?_ ?_
    · intro ticket new hnew
      obtain ⟨old, hold, rfl⟩ := AList.lookup_mapValues.mp hnew
      exact ⟨old, (AList.lookup_retain.mp hold).1, rfl, rfl, cancelState_follows old.state⟩
    · intro ticket old hold hactive
      exact AList.mem_of_lookup (AList.lookup_mapValues.mpr
        ⟨old, AList.lookup_retain.mpr ⟨hold, hactive⟩, rfl⟩)
    · rw [AList.size_mapValues]
      exact AList.size_retain_le _ _
  have haccepted := mapAccepted_settles
    (s := { s with
      reads := (s.reads.retain fun _ entry ↦ isActive entry.state).mapValues fun _ entry ↦
        { entry with state := cancelState entry.state } })
    (f := fun _ entry ↦ { entry with cancelled := true })
    fun _ _ ↦ cancel_follows fun _ _ ↦ hhard
  exact (Steps.settle hreads).trans ((Steps.settle haccepted).trans
    (Steps.settle { Settles.refl _ _ with isSealed := fun _ ↦ rfl }))

theorem beginCommit_steps (s : Registry R) (id : String) :
    Steps runtime terms s (s.beginCommit id).2 := by
  rw [beginCommit]
  cases hlookup : s.accepted.lookup id with
  | none => exact Relation.ReflTransGen.refl
  | some entry =>
      dsimp only
      split_ifs
      · exact Relation.ReflTransGen.refl
      · exact Relation.ReflTransGen.refl
      · refine Steps.settle (setAccepted_settles hlookup ?_)
        exact ⟨rfl, rfl, rfl, rfl, fun h ↦ h, fun _ ↦ rfl, fun _ _ h ↦ Or.inl h⟩

/-! ## Leases -/

theorem drop_steps {lease : OperationLease} (hdrops : terms.drops = some lease)
    (hroom : terms.roomy → s.RoomFor (.drop lease)) :
    Steps runtime terms s (s.drop lease) := by
  rw [drop]
  split_ifs with hmem
  · cases hkind : lease.kind with
    | read =>
        refine Steps.of (Effect.dropRead hmem hdrops ?_)
        rw [hkind]
        decide
    | analysis =>
        refine Steps.of (Effect.dropRead hmem hdrops ?_)
        rw [hkind]
        decide
    | accepted => exact Steps.of (Effect.dropAccepted hmem hdrops hkind hroom)
  · exact Relation.ReflTransGen.refl

theorem cancelToken_steps (hhard : terms.hard) (s : Registry R) (lease : OperationLease) :
    Steps runtime terms s (s.cancelToken lease) := by
  rw [cancelToken]
  split_ifs
  · cases lease.kind with
    | read | analysis =>
        dsimp only
        cases hlookup : s.reads.lookup lease.id with
        | none => exact Relation.ReflTransGen.refl
        | some entry =>
            exact Steps.settle
              (setRead_settles hlookup ⟨rfl, rfl, cancelState_follows entry.state⟩)
    | accepted =>
        dsimp only
        cases hlookup : s.accepted.lookup lease.id with
        | none => exact Relation.ReflTransGen.refl
        | some entry =>
            exact Steps.settle (setAccepted_settles hlookup (cancel_follows fun _ _ ↦ hhard))
  · exact Relation.ReflTransGen.refl

/-! ## Completions -/

theorem setCompletion_steps {old new : EngineCompletionEntry R}
    (hold : s.completions.lookup id = some old) (hsame : new.operationId = old.operationId) :
    Steps runtime terms s (s.setCompletion id new) :=
  Steps.settle (setCompletion_settles hold hsame)

theorem setJob_operationId (entry : EngineCompletionEntry R) (step : EngineApplicationStep)
    (pending : Bool) :
    (entry.setJob step pending).operationId = entry.operationId := by
  cases step <;> rfl

theorem setEngineCompletionProgress_steps (s : Registry R) (id : String)
    (progress : ProgressLease) :
    Steps runtime terms s (s.setEngineCompletionProgress id progress).2 := by
  rw [setEngineCompletionProgress]
  cases hlookup : s.completions.lookup id with
  | none => exact Relation.ReflTransGen.refl
  | some entry => exact setCompletion_steps hlookup rfl

theorem finishEngineCompletion_steps (s : Registry R) (id : String) (result : Except Error R) :
    Steps runtime terms s (s.finishEngineCompletion id result).2 := by
  unfold finishEngineCompletion
  cases hlookup : s.completions.lookup id with
  | none => exact Relation.ReflTransGen.refl
  | some entry => exact setCompletion_steps hlookup rfl

theorem finishEngineRetirement_steps (s : Registry R) (id owner : String) :
    Steps runtime terms s (s.finishEngineRetirement id owner).2 := by
  rw [finishEngineRetirement]
  cases hlookup : s.completions.lookup id with
  | none => exact Relation.ReflTransGen.refl
  | some entry =>
      dsimp only
      split_ifs
      · exact Relation.ReflTransGen.refl
      · exact setCompletion_steps hlookup rfl

theorem settleJob_steps (s : Registry R) (id : String) (step : EngineApplicationStep) :
    Steps runtime terms s (s.settleJob id step) := by
  rw [settleJob]
  cases hlookup : s.completions.lookup id with
  | none => exact Relation.ReflTransGen.refl
  | some entry =>
      dsimp only
      split_ifs
      · exact setCompletion_steps hlookup (setJob_operationId entry step false)
      · exact Relation.ReflTransGen.refl

theorem acknowledgeEngineCompletion_steps (s : Registry R) (id owner : String) :
    Steps runtime terms s (s.acknowledgeEngineCompletion id owner).2 := by
  rw [acknowledgeEngineCompletion]
  cases s.completions.lookup id with
  | none => exact Relation.ReflTransGen.refl
  | some entry =>
      dsimp only
      split_ifs
      · exact Relation.ReflTransGen.refl
      · exact Relation.ReflTransGen.refl
      · exact Steps.settle (eraseCompletion_settles s id)

theorem acceptCompletionTailInState_ok {lease : OperationLease}
    (h : s.acceptCompletionTailInState id owner = (.ok lease, s')) :
    s.sealed = false ∧ id ∉ s.accepted ∧ lease = ⟨id, .accepted⟩ ∧
      ∃ entry, entry.kind = none ∧ s' = s.addAccepted id entry := by
  rw [acceptCompletionTailInState] at h
  split_ifs at h with hrefused
  · cases (Prod.mk.inj h).1
  obtain ⟨hlease, rfl⟩ := Prod.mk.inj h
  rw [not_or, not_or] at hrefused
  exact ⟨Bool.eq_false_of_not_eq_true hrefused.1, hrefused.2.1,
    (Except.ok.inj hlease).symm, _, rfl, rfl⟩

theorem beginEngineApplication_spec {step : EngineApplicationStep}
    (hroom : terms.roomy → s.RoomFor (.beginEngineApplication id owner step))
    {reply : Except Error (Option OperationLease)}
    (h : s.beginEngineApplication id owner step = (reply, s')) :
    Steps runtime terms s s' ∧ ∀ lease, reply = .ok (some lease) →
      s.sealed = false ∧ lease ∈ s'.leases := by
  have hsame : ∀ {reply' : Except Error (Option OperationLease)},
      (∀ lease, reply' ≠ .ok (some lease)) → (reply', s) = (reply, s') →
        Steps runtime terms s s' ∧ ∀ lease, reply = .ok (some lease) →
          s.sealed = false ∧ lease ∈ s'.leases := by
    rintro _ hnone heq
    obtain ⟨rfl, rfl⟩ := Prod.mk.inj heq
    exact ⟨Relation.ReflTransGen.refl, fun lease h ↦ absurd h (hnone lease)⟩
  rw [beginEngineApplication] at h
  cases hlookup : s.completions.lookup id with
  | none =>
      rw [hlookup] at h
      exact hsame (fun _ h ↦ by cases h) h
  | some entry =>
      rw [hlookup] at h
      dsimp only at h
      split_ifs at h with howner hretire hacknowledge hjob hdone
      · exact hsame (fun _ h ↦ by cases h) h
      · exact hsame (fun _ h ↦ by cases h) h
      · exact hsame (fun _ h ↦ by cases h) h
      · exact hsame (fun _ h ↦ by cases h) h
      · exact hsame (fun _ h ↦ by cases h) h
      · cases htail : s.acceptCompletionTailInState id owner with
        | mk result tail =>
            rw [htail] at h
            cases result with
            | error e =>
                have hstay : tail = s := by
                  rw [acceptCompletionTailInState] at htail
                  split_ifs at htail
                  · exact (Prod.mk.inj htail).2.symm
                  · cases (Prod.mk.inj htail).1
                subst hstay
                exact hsame (fun _ h ↦ by cases h) h
            | ok lease =>
                obtain ⟨rfl, rfl⟩ := Prod.mk.inj h
                obtain ⟨hunsealed, hfree, rfl, accepted, hkind, rfl⟩ :=
                  acceptCompletionTailInState_ok htail
                have hstarts : s.StartsTail id owner step entry := by
                  refine ⟨hlookup, not_not.mp howner, hunsealed, hfree, ?_, ?_, ?_⟩
                  · intro hpending
                    rw [hpending] at hjob
                    exact hjob rfl
                  · rintro rfl
                    exact ⟨by simpa using hretire, by simpa using hdone⟩
                  · rintro rfl
                    simpa using hacknowledge
                have hadd : Effect runtime terms s (s.addAccepted id accepted) :=
                  Effect.tail hfree hkind hlookup fun hroomy ↦ hroom hroomy entry hstarts
                refine ⟨(Steps.of hadd).trans
                  (setCompletion_steps hlookup (setJob_operationId entry step true)), ?_⟩
                rintro _ ⟨⟩
                exact ⟨hunsealed, List.mem_cons_self⟩

theorem admitEngineCompletion_spec (hs : s.Inv runtime) {request : EngineInstallRequest}
    {downloadCap : ℕ} (hkeys : request.progressId ∉ terms.keys)
    {reply : Except Error (EngineCompletion R × Option OperationLease)}
    (h : s.admitEngineCompletion runtime id owner ticket request downloadCap now = (reply, s')) :
    Steps runtime terms s s' ∧ ∀ snapshot lease, reply = .ok (snapshot, some lease) →
      Claims s ticket lease s' := by
  have hsame : ∀ {reply' : Except Error (EngineCompletion R × Option OperationLease)},
      (∀ snapshot lease, reply' ≠ .ok (snapshot, some lease)) → (reply', s) = (reply, s') →
        Steps runtime terms s s' ∧ ∀ snapshot lease, reply = .ok (snapshot, some lease) →
          Claims s ticket lease s' := by
    rintro _ hnone heq
    obtain ⟨rfl, rfl⟩ := Prod.mk.inj heq
    exact ⟨Relation.ReflTransGen.refl, fun snapshot lease h ↦ absurd h (hnone snapshot lease)⟩
  rw [admitEngineCompletion] at h
  by_cases hinvalid : request.invalid runtime id
  · rw [if_pos hinvalid] at h
    exact hsame (fun _ _ h ↦ by cases h) h
  rw [if_neg hinvalid] at h
  cases hlookup : s.completions.lookup id with
  | some existing =>
      rw [hlookup] at h
      dsimp only at h
      split_ifs at h
      · exact hsame (fun _ _ h ↦ by cases h) h
      · exact hsame (fun _ _ h ↦ by cases h) h
  | none =>
      rw [hlookup] at h
      dsimp only at h
      split_ifs at h
      · exact hsame (fun _ _ h ↦ by cases h) h
      · exact hsame (fun _ _ h ↦ by cases h) h
      · cases hclaim : s.claimPreparedInState ⟨ticket, owner, "install_engine_workflow", .download,
            some ⟨request.progressId, request.progressId, false, downloadCap⟩⟩ now with
        | mk result claimed =>
            rw [hclaim] at h
            have hpolicy : ∀ policy : DownloadPolicy,
                some ⟨request.progressId, request.progressId, false, downloadCap⟩ = some policy →
                  policy.admissionKey ∈ terms.keys → policy.exclusive := by
              rintro policy ⟨⟩ hkey
              exact absurd hkey hkeys
            obtain ⟨hsteps, hok⟩ : Steps runtime terms s claimed ∧ _ :=
              claimPreparedInState_spec hpolicy hclaim
            cases result with
            | error e =>
                obtain ⟨rfl, rfl⟩ := Prod.mk.inj h
                exact ⟨hsteps, fun _ _ h ↦ by cases h⟩
            | ok lease =>
                obtain ⟨rfl, rfl⟩ := Prod.mk.inj h
                obtain ⟨hclaims, hgone, hcompletions, entry, hentry, hkind⟩ := hok lease rfl
                have hfree : id ∉ claimed.completions := by
                  rw [hcompletions]
                  exact AList.lookup_eq_none.mp hlookup
                refine ⟨hsteps.trans (Steps.of (Effect.complete hfree hentry hkind ?_)), ?_⟩
                · intro other old hold heq
                  rw [hcompletions] at hold
                  obtain ⟨reserved, createdAt, hreserved, -⟩ := hclaims.reserved
                  exact (hs.operation hold).2 (heq ▸ AList.mem_of_lookup hreserved)
                · rintro _ _ ⟨⟩
                  exact ⟨hclaims.unsealed, hclaims.reserved, hclaims.after, hclaims.lease_id,
                    hclaims.out⟩

/-! ## Calls -/

/-- What is assumed of a call, from the registry it is made to. -/
def termsOf (s : Registry R) (call : RegistryCall R) (keys : Set String) : Terms :=
  ⟨call.Hard, s.RoomFor call, call.dropped, keys⟩

theorem answer_snd {α : Type} (reply : α → RegistryReply R)
    (result : Except Error α × Registry R) :
    (answer reply result).2 = result.2 := by
  rcases result with ⟨_ | _, _⟩ <;> rfl

/-- A call is a sequence of effects that the call allows. -/
theorem serve_steps (hs : s.Inv runtime) (call : RegistryCall R) (hkeys : call.Respects keys) :
    Steps runtime (s.termsOf call keys) s (s.serve runtime call).2 := by
  cases call with
  | prepare owner kind now =>
      rw [serve, answer_snd]
      exact prepareReservation_steps s owner kind now
  | claimRead ticket owner label now =>
      rw [serve, answer_snd]
      exact (claimReservation_spec (by decide) rfl).1
  | claimAnalysis ticket owner tab label now =>
      rw [serve, answer_snd]
      exact (claimReservation_spec (by simp [ReservationKind.leaseKind]) rfl).1
  | claimDownload ticket owner label policy now =>
      rw [serve, answer_snd]
      exact (claimPreparedInState_spec (by rintro _ ⟨⟩; exact hkeys) rfl).1
  | claimConversion ticket owner now =>
      rw [serve, answer_snd]
      exact (claimPreparedInState_spec (by rintro _ ⟨⟩) rfl).1
  | cancelRead ticket owner now =>
      rw [serve, answer_snd]
      exact cancelReservation_steps s ticket owner false now
  | cancelAnalysis ticket owner now =>
      rw [serve, answer_snd]
      exact cancelReservation_steps s ticket owner true now
  | cancelAnalysesForTab owner tab => exact cancelAnalysesForTab_steps s owner tab
  | cancelDownload ticket owner now =>
      rw [serve, answer_snd]
      exact cancelPrepared_steps s ticket owner .download now
  | cancelConversion ticket owner now =>
      rw [serve, answer_snd]
      exact cancelPrepared_steps s ticket owner .conversion now
  | cancelDownloadForProgress progressId owner =>
      exact cancelDownloadForProgress_steps s progressId owner
  | cancelOwnerReservations owner => exact cancelOwnerReservations_steps s owner
  | cancelOwner owner => exact cancelOwner_steps s owner
  | releaseDownload ticket owner now =>
      rw [serve, answer_snd]
      exact releasePrepared_steps hs rfl ticket owner now
  | releaseConversion ticket owner now =>
      rw [serve, answer_snd]
      exact releasePrepared_steps hs rfl ticket owner now
  | accept label =>
      rw [serve, answer_snd]
      exact (accept_spec rfl).1
  | admitEngineCompletion id owner ticket request downloadCap now =>
      have hfree : request.progressId ∉ (s.termsOf (.admitEngineCompletion id owner ticket request
        downloadCap now) keys).keys := hkeys
      rw [serve, answer_snd]
      exact (admitEngineCompletion_spec hs hfree rfl).1
  | engineCompletions owner => exact Relation.ReflTransGen.refl
  | setEngineCompletionProgress id progress =>
      rw [serve, answer_snd]
      exact setEngineCompletionProgress_steps s id progress
  | finishEngineCompletion id result =>
      rw [serve, answer_snd]
      exact finishEngineCompletion_steps s id result
  | beginEngineApplication id owner step =>
      rw [serve, answer_snd]
      exact (beginEngineApplication_spec (fun h ↦ h) rfl).1
  | finishEngineRetirement id owner =>
      rw [serve, answer_snd]
      exact finishEngineRetirement_steps s id owner
  | acknowledgeEngineCompletion id owner =>
      rw [serve, answer_snd]
      exact acknowledgeEngineCompletion_steps s id owner
  | beginCommit id =>
      rw [serve, answer_snd]
      exact beginCommit_steps s id
  | sealAndRequestCancellation => exact sealAndRequestCancellation_steps trivial s
  | drop lease => exact drop_steps rfl fun h ↦ h
  | cancelToken lease => exact cancelToken_steps trivial s lease
  | settleJob id step => exact settleJob_steps s id step

end Registry

end EnCroissant.Infra

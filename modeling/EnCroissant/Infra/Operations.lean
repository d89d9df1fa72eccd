import Mathlib
import EnCroissant.Infra.Progress

/-!
# The operation registry

Transient requests hold reservations, accepted operations hold slots, and finished
engine installations keep theirs until their completion is acknowledged.  A lease
stands for work under way; it is dropped once.
-/

namespace EnCroissant.Infra

def readReservationTtl : ℕ := seconds 60

def maxNativeReads : ℕ := 128

def maxAcceptedOperations : ℕ := 128

/-! ## Reservations and accepted operations -/

inductive LeaseKind where
  | read
  | accepted
  | analysis
  deriving DecidableEq, Repr

inductive ReservationKind where
  | read
  | analysis (tab : String)
  | download
  | conversion
  deriving DecidableEq, Repr

namespace ReservationKind

def leaseKind : ReservationKind → LeaseKind
  | .read => .read
  | .analysis _ => .analysis
  | .download | .conversion => .accepted

def capacityError : ReservationKind → String
  | .read => "too many native read operations"
  | .analysis _ => "too many prepared analysis operations"
  | .download => "too many download reservations"
  | .conversion => "too many conversion reservations"

def unknownError : ReservationKind → String
  | .read => "native read reservation is unknown or expired"
  | .analysis _ => "analysis reservation is unknown or expired"
  | .download => "download reservation is unknown or expired"
  | .conversion => "conversion reservation is unknown or expired"

def ownerError : ReservationKind → String
  | .read => "native read reservation belongs to another webview"
  | .analysis _ => "analysis reservation belongs to another webview or tab"
  | .download => "download reservation belongs to another webview"
  | .conversion => "conversion reservation belongs to another webview"

def wrongKindError : ReservationKind → Bool → String
  | .conversion, false => "reservation cannot be claimed as a conversion"
  | .conversion, true => "reservation cannot be cancelled as a conversion"
  | .read, false => "analysis reservation cannot be claimed as a native read"
  | .read, true => "analysis reservation cannot be cancelled as a native read"
  | .analysis _, false => "native read reservation cannot be claimed as an analysis"
  | .analysis _, true => "native read reservation cannot be cancelled as an analysis"
  | .download, false => "native read or analysis reservation cannot be claimed as a download"
  | .download, true => "native read or analysis reservation cannot be cancelled as a download"

def claimedError : ReservationKind → String
  | .read => "native read reservation was already claimed"
  | .analysis _ => "analysis reservation was already claimed"
  | .download => "download reservation was already claimed"
  | .conversion => "conversion reservation was already claimed"

end ReservationKind

/-- An active reservation shares the cancellation token of its lease. -/
inductive ReadState where
  | reserved (createdAt : ℕ)
  | cancelledReserved (createdAt : ℕ)
  | active (cancelled : Bool) (label : String)
  deriving DecidableEq, Repr

structure ReadEntry where
  owner : String
  kind : ReservationKind
  state : ReadState
  deriving DecidableEq, Repr

structure AcceptedEntry where
  owner : String
  label : String
  cancelled : Bool
  kind : Option ReservationKind
  progressId : Option String
  admissionKey : Option String
  committing : Bool
  deriving DecidableEq, Repr

def AcceptedEntry.isDownload (entry : AcceptedEntry) : Bool := entry.kind = some .download

structure OperationLease where
  id : String
  kind : LeaseKind
  deriving DecidableEq, Repr

/-! ## Engine completions -/

inductive EngineInstallIntent where
  | add (engineId : String)
  | upgrade (engineId expected : String)
  deriving DecidableEq, Repr

def EngineInstallIntent.engineId : EngineInstallIntent → String
  | .add engineId => engineId
  | .upgrade engineId _ => engineId

def EngineInstallIntent.isUpgrade : EngineInstallIntent → Bool
  | .add _ => false
  | .upgrade _ _ => true

structure EngineInstallRequest where
  intent : EngineInstallIntent
  root : String
  progressId : String
  url : String
  sha256 : String
  signature : String
  relativePath : String
  name : String
  version : String
  elo : Option Reading
  downloadSize : Option Reading
  deriving DecidableEq, Repr

def maxCompletionIdentityBytes : ℕ := 256

def maxCompletionTextBytes : ℕ := 4096

def maxCompletionNameBytes : ℕ := 1024

/-- What the registry takes from its libraries: fresh uuids, which texts are uuids, and the
order in which a table of operations is gone through. -/
structure Runtime where
  uuid : ℕ → String
  uuid_injective : Function.Injective uuid
  parsesUuid : String → Bool
  order : List (Σ _ : String, AcceptedEntry) → List (Σ _ : String, AcceptedEntry)
  order_perm : ∀ entries, (order entries).Perm entries

def EngineInstallRequest.invalid (runtime : Runtime) (request : EngineInstallRequest)
    (id : String) : Bool :=
  !runtime.parsesUuid id ||
    (!request.intent.isUpgrade && !runtime.parsesUuid request.intent.engineId) ||
    request.intent.engineId.isEmpty ||
    maxCompletionIdentityBytes < request.intent.engineId.utf8ByteSize ||
    request.progressId.isEmpty ||
    maxCompletionTextBytes < request.progressId.utf8ByteSize ||
    maxCompletionTextBytes < request.url.utf8ByteSize ||
    maxCompletionTextBytes < request.signature.utf8ByteSize ||
    request.sha256.utf8ByteSize ≠ 64 ||
    request.relativePath.isEmpty ||
    maxCompletionTextBytes < request.relativePath.utf8ByteSize ||
    maxCompletionNameBytes < request.name.utf8ByteSize ||
    maxCompletionIdentityBytes < request.version.utf8ByteSize ||
    maxCompletionIdentityBytes < request.root.utf8ByteSize ||
    (match request.intent with
      | .add _ => false
      | .upgrade _ expected => maxCompletionIdentityBytes < expected.utf8ByteSize) ||
    request.elo = some .notFinite ||
    request.downloadSize = some .notFinite

/-- The type parameter is the result of an installation. -/
inductive CompletionOutcome (R : Type) where
  | running
  | succeeded (result : R)
  | failed (payload : Error)

def CompletionOutcome.isRunning {R : Type} : CompletionOutcome R → Bool
  | .running => true
  | _ => false

def CompletionOutcome.hasSucceeded {R : Type} : CompletionOutcome R → Bool
  | .succeeded _ => true
  | _ => false

structure EngineCompletion (R : Type) where
  id : String
  request : EngineInstallRequest
  outcome : CompletionOutcome R
  retired : Bool

inductive EngineApplicationStep where
  | retirement
  | acknowledgement
  deriving DecidableEq, Repr

/-- An application job is there once it was started, and pending until its result is out. -/
structure EngineCompletionEntry (R : Type) where
  owner : String
  operationId : String
  snapshot : EngineCompletion R
  progress : Option ProgressLease
  retirementJob : Option Bool
  acknowledgementJob : Option Bool

namespace EngineCompletionEntry

variable {R : Type}

def job (entry : EngineCompletionEntry R) : EngineApplicationStep → Option Bool
  | .retirement => entry.retirementJob
  | .acknowledgement => entry.acknowledgementJob

def setJob (entry : EngineCompletionEntry R) (step : EngineApplicationStep) (pending : Bool) :
    EngineCompletionEntry R :=
  match step with
  | .retirement => { entry with retirementJob := some pending }
  | .acknowledgement => { entry with acknowledgementJob := some pending }

/-- The installation has not ended, or its upgrade is not applied. -/
def unfinished (entry : EngineCompletionEntry R) : Bool :=
  entry.snapshot.outcome.isRunning ||
    (entry.snapshot.outcome.hasSucceeded && entry.snapshot.request.intent.isUpgrade &&
      !entry.snapshot.retired)

end EngineCompletionEntry

/-! ## The registry -/

/-- The source has the first four fields; the leases that are out and the number of uuids
drawn so far are only observed. -/
structure Registry (R : Type) where
  reads : AList fun _ : String ↦ ReadEntry
  accepted : AList fun _ : String ↦ AcceptedEntry
  completions : AList fun _ : String ↦ EngineCompletionEntry R
  sealed : Bool
  leases : List OperationLease
  drawn : ℕ

structure DownloadPolicy where
  progressId : String
  admissionKey : String
  exclusive : Bool
  downloadCap : ℕ

structure PreparedReservationClaim where
  ticket : String
  owner : String
  label : String
  kind : ReservationKind
  downloadPolicy : Option DownloadPolicy

inductive CancelledOperationKind where
  | read
  | analysis
  | download
  | conversion
  deriving DecidableEq, Repr

structure CancelledOperation where
  id : String
  kind : CancelledOperationKind
  deriving DecidableEq, Repr

def sealedError : Error := .conflict "native operation admission is sealed"

namespace Registry

variable {R : Type}

def empty : Registry R := ⟨∅, ∅, ∅, false, [], 0⟩

/-- The completions that no accepted operation stands for. -/
def waiting (s : Registry R) (entry : Σ _ : String, EngineCompletionEntry R) : Bool :=
  entry.1 ∉ s.accepted ∧ entry.2.operationId ∉ s.accepted

def occupied (s : Registry R) : ℕ :=
  s.accepted.size + (s.completions.entries.filter s.waiting).length

def expired (now : ℕ) (entry : ReadEntry) : Bool :=
  match entry.state with
  | .reserved createdAt | .cancelledReserved createdAt => readReservationTtl ≤ now - createdAt
  | .active _ _ => false

def purgeExpired (s : Registry R) (now : ℕ) : Registry R :=
  { s with reads := s.reads.retain fun _ entry ↦ !expired now entry }

def prepareReservation (runtime : Runtime) (s : Registry R) (owner : String)
    (kind : ReservationKind) (now : ℕ) : Except Error String × Registry R :=
  let s := s.purgeExpired now
  if s.sealed then (.error sealedError, s)
  else if maxNativeReads ≤ s.reads.size then (.error (.resourceLimit kind.capacityError), s)
  else
    let ticket := runtime.uuid s.drawn
    (.ok ticket,
      { s with
        reads := s.reads.insert ticket ⟨owner, kind, .reserved now⟩
        drawn := s.drawn + 1 })

/-- Why a request that stays under its ticket may not be claimed. -/
def claimRefusal (entry : ReadEntry) (owner : String) (kind : ReservationKind) : Option String :=
  match kind with
  | .read =>
      if entry.owner ≠ owner then some kind.ownerError
      else if entry.kind ≠ .read then some (kind.wrongKindError false)
      else none
  | .analysis tab =>
      if entry.owner ≠ owner ∨ entry.kind ≠ .analysis tab then some kind.ownerError else none
  | _ => none

def claimReservation (s : Registry R) (ticket owner : String) (kind : ReservationKind)
    (label : String) (now : ℕ) : Except Error OperationLease × Registry R :=
  let s := s.purgeExpired now
  if s.sealed then (.error sealedError, s)
  else
    match s.reads.lookup ticket with
    | none => (.error (.conflict kind.unknownError), s)
    | some entry =>
        match claimRefusal entry owner kind, entry.state with
        | some message, _ => (.error (.conflict message), s)
        | none, .reserved _ =>
            let lease : OperationLease := ⟨ticket, kind.leaseKind⟩
            (.ok lease,
              { s with
                reads := s.reads.insert ticket { entry with state := .active false label }
                leases := lease :: s.leases })
        | none, _ => (.error (.conflict kind.claimedError), s)

def cancelEntry (s : Registry R) (ticket : String) : Registry R :=
  match s.reads.lookup ticket with
  | none => s
  | some entry =>
      match entry.state with
      | .active _ label =>
          { s with reads := s.reads.insert ticket { entry with state := .active true label } }
      | _ => { s with reads := s.reads.erase ticket }

def isAnalysis : ReservationKind → Bool
  | .analysis _ => true
  | _ => false

def cancelReservation (s : Registry R) (ticket owner : String) (requestedAnalysis : Bool)
    (now : ℕ) : Except Error Unit × Registry R :=
  let s := s.purgeExpired now
  match s.reads.lookup ticket with
  | none => (.ok (), s)
  | some entry =>
      if entry.owner ≠ owner then
        (.error (.conflict (if requestedAnalysis then
            "analysis reservation belongs to another webview"
          else "native read reservation belongs to another webview")), s)
      else if requestedAnalysis ∧ !isAnalysis entry.kind then
        (.error (.conflict ((ReservationKind.analysis "").wrongKindError true)), s)
      else if !requestedAnalysis ∧ entry.kind ≠ .read then
        (.error (.conflict "download reservation cannot be cancelled as a native read"), s)
      else (.ok (), s.cancelEntry ticket)

def addAccepted (s : Registry R) (id : String) (entry : AcceptedEntry) : Registry R :=
  { s with
    accepted := s.accepted.insert id entry
    leases := ⟨id, .accepted⟩ :: s.leases }

def acceptInState (s : Registry R) (id label : String) :
    Except Error OperationLease × Registry R :=
  if s.sealed then (.error sealedError, s)
  else if maxAcceptedOperations ≤ s.occupied then
    (.error (.resourceLimit "too many accepted native operations"), s)
  else if id ∈ s.accepted then (.error (.conflict "native operation is already active"), s)
  else (.ok ⟨id, .accepted⟩, s.addAccepted id ⟨"", label, false, none, none, none, false⟩)

def accept (runtime : Runtime) (s : Registry R) (label : String) :
    Except Error OperationLease × Registry R :=
  { s with drawn := s.drawn + 1 }.acceptInState (runtime.uuid s.drawn) label

/-- Why a download may not start beside the ones that are under way. -/
def policyRefusal (s : Registry R) (owner : String) (policy : DownloadPolicy) : Option Error :=
  if s.accepted.entries.any fun entry ↦
      entry.2.isDownload && (policy.exclusive || entry.2.owner = owner) &&
        entry.2.admissionKey = some policy.admissionKey && !entry.2.cancelled then
    some (.conflict "download progress is already active")
  else if policy.downloadCap ≤ (s.accepted.entries.filter fun entry ↦ entry.2.isDownload).length then
    some (.resourceLimit "too many active downloads")
  else none

def claimPreparedInState (s : Registry R) (claim : PreparedReservationClaim) (now : ℕ) :
    Except Error OperationLease × Registry R :=
  let s := s.purgeExpired now
  if s.sealed then (.error sealedError, s)
  else
    match s.reads.lookup claim.ticket with
    | none => (.error (.conflict claim.kind.unknownError), s)
    | some entry =>
        if entry.owner ≠ claim.owner then (.error (.conflict claim.kind.ownerError), s)
        else if entry.kind ≠ claim.kind then
          (.error (.conflict (claim.kind.wrongKindError false)), s)
        else
          match entry.state with
          | .cancelledReserved _ =>
              (.error .cancellation, { s with reads := s.reads.erase claim.ticket })
          | .active _ _ => (.error (.conflict claim.kind.claimedError), s)
          | .reserved _ =>
              match claim.downloadPolicy.bind (s.policyRefusal claim.owner) with
              | some e => (.error e, s)
              | none =>
                  if maxAcceptedOperations ≤ s.occupied then
                    (.error (.resourceLimit "too many accepted native operations"), s)
                  else if claim.ticket ∈ s.accepted then
                    (.error (.conflict "native operation is already active"), s)
                  else
                    (.ok ⟨claim.ticket, .accepted⟩,
                      { s with reads := s.reads.erase claim.ticket }.addAccepted claim.ticket
                        ⟨claim.owner, claim.label, false, some claim.kind,
                          claim.downloadPolicy.map DownloadPolicy.progressId,
                          claim.downloadPolicy.map DownloadPolicy.admissionKey, false⟩)

/-! ### Cancelling and releasing -/

def acceptedMatches (entry : AcceptedEntry) (kind : ReservationKind) : Bool :=
  match kind with
  | .download => entry.isDownload
  | .conversion => entry.kind = some .conversion
  | _ => false

def setAccepted (s : Registry R) (id : String) (entry : AcceptedEntry) : Registry R :=
  { s with accepted := s.accepted.insert id entry }

def cancelAcceptedDownload (s : Registry R) (id : String) (entry : AcceptedEntry) :
    Bool × Registry R :=
  if entry.committing then (false, s)
  else (true, s.setAccepted id { entry with cancelled := true })

def cancelPrepared (s : Registry R) (ticket owner : String) (kind : ReservationKind) (now : ℕ) :
    Except Error Bool × Registry R :=
  let s := s.purgeExpired now
  match s.reads.lookup ticket with
  | some entry =>
      if entry.owner ≠ owner then (.error (.conflict kind.ownerError), s)
      else if entry.kind ≠ kind then (.error (.conflict (kind.wrongKindError true)), s)
      else
        match entry.state with
        | .reserved _ =>
            (.ok true,
              { s with
                reads := s.reads.insert ticket { entry with state := .cancelledReserved now } })
        | .cancelledReserved _ => (.ok true, s)
        | .active _ _ => (.error (.conflict kind.claimedError), s)
  | none =>
      match s.accepted.lookup ticket with
      | none => (.ok false, s)
      | some entry =>
          if !acceptedMatches entry kind then
            (.error (.conflict (kind.wrongKindError true)), s)
          else if entry.owner ≠ owner then (.error (.conflict kind.ownerError), s)
          else if entry.isDownload then
            let result := s.cancelAcceptedDownload ticket entry
            (.ok result.1, result.2)
          else (.ok true, s.setAccepted ticket { entry with cancelled := true })

/-- The first of the downloads that is not cancelled yet is cancelled. -/
def cancelFirst (s : Registry R) :
    List (Σ _ : String, AcceptedEntry) → Bool → Bool × Registry R
  | [], alreadyCancelled => (alreadyCancelled, s)
  | entry :: entries, _ =>
      if entry.2.cancelled then cancelFirst s entries true
      else s.cancelAcceptedDownload entry.1 entry.2

/-- The download reports under this progress id, and is the owner's. -/
def reportsTo (progressId owner : String) (entry : AcceptedEntry) : Bool :=
  entry.isDownload && entry.owner = owner && entry.progressId = some progressId

def cancelDownloadForProgress (runtime : Runtime) (s : Registry R) (progressId owner : String) :
    Bool × Registry R :=
  s.cancelFirst
    ((runtime.order s.accepted.entries).filter fun entry ↦ reportsTo progressId owner entry.2) false

def releasePrepared (s : Registry R) (ticket owner : String) (kind : ReservationKind) (now : ℕ) :
    Except Error Unit × Registry R :=
  let s := s.purgeExpired now
  match s.reads.lookup ticket with
  | some entry =>
      if entry.owner ≠ owner then (.error (.conflict kind.ownerError), s)
      else if entry.kind ≠ kind then (.error (.conflict (kind.wrongKindError true)), s)
      else (.ok (), { s with reads := s.reads.erase ticket })
  | none =>
      match s.accepted.lookup ticket with
      | none => (.ok (), s)
      | some entry =>
          if !acceptedMatches entry kind ∨ entry.owner ≠ owner then
            (.error (.conflict kind.ownerError), s)
          else (.ok (), s)

def cancelEntries (s : Registry R) (tickets : List String) : Registry R :=
  tickets.foldl cancelEntry s

def cancelAnalysesForTab (s : Registry R) (owner tab : String) : List String × Registry R :=
  let tickets := (s.reads.entries.filter fun entry ↦
    entry.2.owner = owner ∧ entry.2.kind = .analysis tab).map Sigma.fst
  (tickets, s.cancelEntries tickets)

def cancelledKind : ReservationKind → CancelledOperationKind
  | .read => .read
  | .analysis _ => .analysis
  | .download => .download
  | .conversion => .conversion

def cancelOwnerReservations (s : Registry R) (owner : String) :
    List CancelledOperation × Registry R :=
  let cancelled := (s.reads.entries.filter fun entry ↦ entry.2.owner = owner).map fun entry ↦
    CancelledOperation.mk entry.1 (cancelledKind entry.2.kind)
  (cancelled, s.cancelEntries (cancelled.map CancelledOperation.id))

/-- The owner's downloads that have not begun to commit. -/
def ownedDownload (owner : String) (entry : AcceptedEntry) : Bool :=
  entry.isDownload && entry.owner = owner && !entry.committing

def cancelOwner (s : Registry R) (owner : String) : List CancelledOperation × Registry R :=
  let (cancelled, s) := s.cancelOwnerReservations owner
  let accepted := (s.accepted.entries.filter fun entry ↦ ownedDownload owner entry.2).map fun entry ↦
    CancelledOperation.mk entry.1 .download
  (cancelled ++ accepted,
    { s with
      accepted := s.accepted.mapValues fun _ entry ↦
        if ownedDownload owner entry then { entry with cancelled := true } else entry })

def isActive : ReadState → Bool
  | .active _ _ => true
  | _ => false

def cancelState : ReadState → ReadState
  | .active _ label => .active true label
  | state => state

def sealAndRequestCancellation (s : Registry R) : Registry R :=
  { s with
    sealed := true
    reads := (s.reads.retain fun _ entry ↦ isActive entry.state).mapValues fun _ entry ↦
      { entry with state := cancelState entry.state }
    accepted := s.accepted.mapValues fun _ entry ↦ { entry with cancelled := true } }

def beginCommit (s : Registry R) (id : String) : Except Error Unit × Registry R :=
  match s.accepted.lookup id with
  | none => (.error (.conflict "download operation is no longer active"), s)
  | some entry =>
      if !entry.isDownload then (.error (.conflict "native operation is not a download"), s)
      else if entry.cancelled then (.error .cancellation, s)
      else (.ok (), s.setAccepted id { entry with committing := true })

/-! ### Leases -/

/-- A lease is dropped once: it is a value that its owner gives up. -/
def drop (s : Registry R) (lease : OperationLease) : Registry R :=
  if lease ∈ s.leases then
    match lease.kind with
    | .read | .analysis =>
        { s with reads := s.reads.erase lease.id, leases := s.leases.erase lease }
    | .accepted =>
        { s with accepted := s.accepted.erase lease.id, leases := s.leases.erase lease }
  else s

/-- Whoever holds the lease, or a clone of its token, may cancel the token. -/
def cancelToken (s : Registry R) (lease : OperationLease) : Registry R :=
  if lease ∈ s.leases then
    match lease.kind with
    | .read | .analysis =>
        match s.reads.lookup lease.id with
        | none => s
        | some entry =>
            { s with
              reads := s.reads.insert lease.id { entry with state := cancelState entry.state } }
    | .accepted =>
        match s.accepted.lookup lease.id with
        | none => s
        | some entry => s.setAccepted lease.id { entry with cancelled := true }
  else s

/-! ### Completions -/

def setCompletion (s : Registry R) (id : String) (entry : EngineCompletionEntry R) : Registry R :=
  { s with completions := s.completions.insert id entry }

def acceptCompletionTailInState (s : Registry R) (id owner : String) :
    Except Error OperationLease × Registry R :=
  if s.sealed ∨ id ∈ s.accepted ∨ ((s.completions.lookup id).all fun entry ↦ entry.owner ≠ owner) then
    (.error (.conflict "completion tail is unavailable"), s)
  else
    (.ok ⟨id, .accepted⟩,
      s.addAccepted id ⟨owner, "engine completion application", false, none, none, none, true⟩)

def admitEngineCompletion (runtime : Runtime) (s : Registry R) (id owner ticket : String)
    (request : EngineInstallRequest) (downloadCap now : ℕ) :
    Except Error (EngineCompletion R × Option OperationLease) × Registry R :=
  if request.invalid runtime id then
    (.error (.invalidInput "invalid engine completion request"), s)
  else
    match s.completions.lookup id with
    | some existing =>
        if existing.owner ≠ owner ∨ existing.snapshot.request ≠ request then
          (.error (.conflict "completion identity belongs to another request"), s)
        else (.ok (existing.snapshot, none), s)
    | none =>
        if maxAcceptedOperations ≤ s.completions.size then
          (.error (.resourceLimit "too many unacknowledged completions"), s)
        else if s.completions.entries.any fun entry ↦
            entry.2.snapshot.request.intent.isUpgrade &&
              entry.2.snapshot.request.intent.engineId = request.intent.engineId then
          (.error (.conflict "engine upgrade application is pending"), s)
        else
          match s.claimPreparedInState ⟨ticket, owner, "install_engine_workflow", .download,
              some ⟨request.progressId, request.progressId, false, downloadCap⟩⟩ now with
          | (.error e, s) => (.error e, s)
          | (.ok lease, s) =>
              let snapshot : EngineCompletion R := ⟨id, request, .running, false⟩
              (.ok (snapshot, some lease),
                s.setCompletion id ⟨owner, ticket, snapshot, none, none, none⟩)

def engineCompletions (s : Registry R) (owner : String) : List (EngineCompletion R) :=
  (s.completions.entries.filter fun entry ↦ entry.2.owner = owner).map fun entry ↦ entry.2.snapshot

def setEngineCompletionProgress (s : Registry R) (id : String) (progress : ProgressLease) :
    Except Error Unit × Registry R :=
  match s.completions.lookup id with
  | none => (.error (.conflict "completion is unavailable"), s)
  | some entry => (.ok (), s.setCompletion id { entry with progress := some progress })

def finishEngineCompletion (s : Registry R) (id : String) (result : Except Error R) :
    Except Error (EngineCompletion R) × Registry R :=
  match s.completions.lookup id with
  | none => (.error (.conflict "completion is unavailable"), s)
  | some entry =>
      let outcome : CompletionOutcome R :=
        match result with
        | .ok result => .succeeded result
        | .error e => .failed e
      let snapshot := { entry.snapshot with outcome := outcome }
      (.ok snapshot, s.setCompletion id { entry with snapshot := snapshot })

def finishEngineRetirement (s : Registry R) (id owner : String) :
    Except Error Unit × Registry R :=
  match s.completions.lookup id with
  | none => (.error (.conflict "completion is unavailable"), s)
  | some entry =>
      if entry.owner ≠ owner then (.error (.conflict "completion is unavailable"), s)
      else
        (.ok (),
          s.setCompletion id { entry with snapshot := { entry.snapshot with retired := true } })

/-- The lease of the application that is started; there is none when it runs already, or there
is nothing to apply. -/
def beginEngineApplication (s : Registry R) (id owner : String) (step : EngineApplicationStep) :
    Except Error (Option OperationLease) × Registry R :=
  match s.completions.lookup id with
  | none => (.ok none, s)
  | some entry =>
      if entry.owner ≠ owner then
        (.error (.conflict "completion belongs to another webview"), s)
      else if step = .retirement ∧ !entry.snapshot.outcome.hasSucceeded then
        (.error (.conflict "completion is not ready for application"), s)
      else if step = .acknowledgement ∧ entry.unfinished then
        (.error (.conflict "completion application is unfinished"), s)
      else if (entry.job step).any fun pending ↦ pending || id ∈ s.accepted then (.ok none, s)
      else if step = .retirement ∧ entry.snapshot.retired then (.ok none, s)
      else
        match s.acceptCompletionTailInState id owner with
        | (.error e, s) => (.error e, s)
        | (.ok lease, s) => (.ok (some lease), s.setCompletion id (entry.setJob step true))

/-- The result of an application job is out. -/
def settleJob (s : Registry R) (id : String) (step : EngineApplicationStep) : Registry R :=
  match s.completions.lookup id with
  | none => s
  | some entry =>
      if entry.job step = some true then s.setCompletion id (entry.setJob step false) else s

def acknowledgeEngineCompletion (s : Registry R) (id owner : String) :
    Except Error (Option ProgressLease) × Registry R :=
  match s.completions.lookup id with
  | none => (.ok none, s)
  | some entry =>
      if entry.owner ≠ owner then
        (.error (.conflict "completion belongs to another webview"), s)
      else if entry.unfinished then
        (.error (.conflict "completion application is unfinished"), s)
      else (.ok entry.progress, { s with completions := s.completions.erase id })

end Registry

/-! ## Calls -/

/-- The calls of the registry, and what its clients do with what they hold: they drop leases,
cancel tokens and publish the results of applications. -/
inductive RegistryCall (R : Type) where
  | prepare (owner : String) (kind : ReservationKind) (now : ℕ)
  | claimRead (ticket owner label : String) (now : ℕ)
  | claimAnalysis (ticket owner tab label : String) (now : ℕ)
  | claimDownload (ticket owner label : String) (policy : DownloadPolicy) (now : ℕ)
  | claimConversion (ticket owner : String) (now : ℕ)
  | cancelRead (ticket owner : String) (now : ℕ)
  | cancelAnalysis (ticket owner : String) (now : ℕ)
  | cancelAnalysesForTab (owner tab : String)
  | cancelDownload (ticket owner : String) (now : ℕ)
  | cancelConversion (ticket owner : String) (now : ℕ)
  | cancelDownloadForProgress (progressId owner : String)
  | cancelOwnerReservations (owner : String)
  | cancelOwner (owner : String)
  | releaseDownload (ticket owner : String) (now : ℕ)
  | releaseConversion (ticket owner : String) (now : ℕ)
  | accept (label : String)
  | admitEngineCompletion (id owner ticket : String) (request : EngineInstallRequest)
      (downloadCap now : ℕ)
  | engineCompletions (owner : String)
  | setEngineCompletionProgress (id : String) (progress : ProgressLease)
  | finishEngineCompletion (id : String) (result : Except Error R)
  | beginEngineApplication (id owner : String) (step : EngineApplicationStep)
  | finishEngineRetirement (id owner : String)
  | acknowledgeEngineCompletion (id owner : String)
  | beginCommit (id : String)
  | sealAndRequestCancellation
  | drop (lease : OperationLease)
  | cancelToken (lease : OperationLease)
  | settleJob (id : String) (step : EngineApplicationStep)

inductive RegistryReply (R : Type) where
  | refused (e : Error)
  | done
  | ticket (ticket : String)
  | lease (lease : OperationLease)
  | cancelled (cancelled : Bool)
  | tickets (tickets : List String)
  | operations (operations : List CancelledOperation)
  | admitted (snapshot : EngineCompletion R) (lease : Option OperationLease)
  | completions (completions : List (EngineCompletion R))
  | completion (snapshot : EngineCompletion R)
  | application (lease : Option OperationLease)
  | progress (progress : Option ProgressLease)

def answer {R α : Type} (reply : α → RegistryReply R) :
    Except Error α × Registry R → RegistryReply R × Registry R
  | (.ok a, s) => (reply a, s)
  | (.error e, s) => (.refused e, s)

namespace Registry

variable {R : Type}

/-- The lock of the registry is held for the whole of a call. -/
def serve (runtime : Runtime) (s : Registry R) :
    RegistryCall R → RegistryReply R × Registry R
  | .prepare owner kind now =>
      answer .ticket (s.prepareReservation runtime owner kind now)
  | .claimRead ticket owner label now =>
      answer .lease (s.claimReservation ticket owner .read label now)
  | .claimAnalysis ticket owner tab label now =>
      answer .lease (s.claimReservation ticket owner (.analysis tab) label now)
  | .claimDownload ticket owner label policy now =>
      answer .lease (s.claimPreparedInState ⟨ticket, owner, label, .download, some policy⟩ now)
  | .claimConversion ticket owner now =>
      answer .lease (s.claimPreparedInState ⟨ticket, owner, "convert_pgn", .conversion, none⟩ now)
  | .cancelRead ticket owner now => answer (fun _ ↦ .done) (s.cancelReservation ticket owner false now)
  | .cancelAnalysis ticket owner now =>
      answer (fun _ ↦ .done) (s.cancelReservation ticket owner true now)
  | .cancelAnalysesForTab owner tab =>
      (.tickets (s.cancelAnalysesForTab owner tab).1, (s.cancelAnalysesForTab owner tab).2)
  | .cancelDownload ticket owner now => answer .cancelled (s.cancelPrepared ticket owner .download now)
  | .cancelConversion ticket owner now =>
      answer .cancelled (s.cancelPrepared ticket owner .conversion now)
  | .cancelDownloadForProgress progressId owner =>
      (.cancelled (s.cancelDownloadForProgress runtime progressId owner).1,
        (s.cancelDownloadForProgress runtime progressId owner).2)
  | .cancelOwnerReservations owner =>
      (.operations (s.cancelOwnerReservations owner).1, (s.cancelOwnerReservations owner).2)
  | .cancelOwner owner => (.operations (s.cancelOwner owner).1, (s.cancelOwner owner).2)
  | .releaseDownload ticket owner now =>
      answer (fun _ ↦ .done) (s.releasePrepared ticket owner .download now)
  | .releaseConversion ticket owner now =>
      answer (fun _ ↦ .done) (s.releasePrepared ticket owner .conversion now)
  | .accept label => answer .lease (s.accept runtime label)
  | .admitEngineCompletion id owner ticket request downloadCap now =>
      answer (fun admission ↦ .admitted admission.1 admission.2)
        (s.admitEngineCompletion runtime id owner ticket request downloadCap now)
  | .engineCompletions owner => (.completions (s.engineCompletions owner), s)
  | .setEngineCompletionProgress id progress =>
      answer (fun _ ↦ .done) (s.setEngineCompletionProgress id progress)
  | .finishEngineCompletion id result => answer .completion (s.finishEngineCompletion id result)
  | .beginEngineApplication id owner step =>
      answer .application (s.beginEngineApplication id owner step)
  | .finishEngineRetirement id owner => answer (fun _ ↦ .done) (s.finishEngineRetirement id owner)
  | .acknowledgeEngineCompletion id owner => answer .progress (s.acknowledgeEngineCompletion id owner)
  | .beginCommit id => answer (fun _ ↦ .done) (s.beginCommit id)
  | .sealAndRequestCancellation => (.done, s.sealAndRequestCancellation)
  | .drop lease => (.done, s.drop lease)
  | .cancelToken lease => (.done, s.cancelToken lease)
  | .settleJob id step => (.done, s.settleJob id step)

end Registry

end EnCroissant.Infra

import Mathlib
import EnCroissant.Infra.OperationRuns

/-!
# Cancelling and committing downloads

A download that a call reported as cancelled is never claimed or committed later, and one
that began to commit is not cancelled any more.
-/

namespace EnCroissant.Infra

namespace Registry

variable {R : Type} {runtime : Runtime} {terms : Terms} {s s' : Registry R}
  {ticket owner : String} {kind : ReservationKind} {now : ℕ}

/-! ## Tickets that are barred, and operations that commit -/

/-- The ticket is not reserved any more, and a download under it is cancelled. -/
structure Barred (runtime : Runtime) (s : Registry R) (ticket : String) : Prop where
  spent : s.Spent runtime ticket
  cancelled : ∀ {entry}, s.accepted.lookup ticket = some entry → entry.isDownload →
    entry.cancelled

/-- The ticket was claimed for a download, which commits as long as it is there. -/
structure Committed (runtime : Runtime) (s : Registry R) (ticket : String) : Prop where
  drawn : s.Drawn runtime ticket
  gone : ticket ∉ s.reads
  committing : ∀ {entry}, s.accepted.lookup ticket = some entry → entry.kind ≠ none →
    entry.isDownload ∧ entry.committing

/-- The token of a download under the ticket is not cancelled. -/
def Unharmed (s : Registry R) (ticket : String) : Prop :=
  ∀ entry, s.accepted.lookup ticket = some entry → entry.isDownload → entry.cancelled = false

theorem Committed.spent (h : s.Committed runtime ticket) : s.Spent runtime ticket :=
  ⟨h.drawn, fun hlookup ↦ absurd (AList.mem_of_lookup hlookup) h.gone⟩

/-- What holds of the operation under a ticket that is spent holds after an effect, if it
holds of what the effect makes of it. -/
theorem Effect.claimed_entry (h : Effect runtime terms s s') (hspent : s.Spent runtime ticket)
    {P Q : AcceptedEntry → Prop}
    (hP : ∀ entry, s.accepted.lookup ticket = some entry → entry.kind ≠ none → P entry)
    (hkeep : ∀ old new : AcceptedEntry, old.Follows terms.hard new → P old → Q new)
    {entry : AcceptedEntry} (hentry : s'.accepted.lookup ticket = some entry)
    (hkind : entry.kind ≠ none) :
    Q entry := by
  have hsame : s.accepted.lookup ticket = some entry → Q entry := fun hold ↦
    hkeep entry entry (AcceptedEntry.Follows.refl entry) (hP entry hold hkind)
  cases h with
  | settle hsettles =>
      obtain ⟨old, hold, hfollows⟩ := hsettles.entry hentry
      rw [hfollows.kind] at hkind
      exact hkeep old entry hfollows (hP old hold hkind)
  | prepare | activate | complete | dropRead => exact hsame hentry
  | admitted hlookup hstate _ _ _ _ =>
      rcases mem_of_lookup_insert hentry with ⟨rfl, -⟩ | ⟨-, hold⟩
      · exact absurd hstate (hspent.unreserved hlookup _)
      · exact hsame hold
  | accept _ _ hnone =>
      rcases mem_of_lookup_insert hentry with ⟨-, rfl⟩ | ⟨-, hold⟩
      · exact absurd hnone hkind
      · exact hsame hold
  | tail _ hnone _ _ =>
      rcases mem_of_lookup_insert hentry with ⟨-, rfl⟩ | ⟨-, hold⟩
      · exact absurd hnone hkind
      · exact hsame hold
  | dropAccepted _ _ _ _ => exact hsame (AList.lookup_of_erase hentry).2

theorem kind_ne_none {entry : AcceptedEntry} (h : entry.isDownload) : entry.kind ≠ none :=
  fun hnone ↦ not_isDownload hnone h

theorem Effect.barred (h : Effect runtime terms s s') (hs : s.Barred runtime ticket) :
    s'.Barred runtime ticket := by
  refine ⟨h.spent hs.spent, fun hentry hdownload ↦ ?_⟩
  refine h.claimed_entry (P := fun entry ↦ entry.isDownload → entry.cancelled)
    (Q := fun entry ↦ entry.isDownload → entry.cancelled) hs.spent
    (fun _ hold _ ↦ hs.cancelled hold) ?_ hentry (kind_ne_none hdownload) hdownload
  intro old new hfollows hcancelled hdownload
  rw [hfollows.isDownload] at hdownload
  exact hfollows.cancelled (hcancelled hdownload)

theorem Effect.gone (h : Effect runtime terms s s') (hs : s.Spent runtime ticket)
    (hgone : ticket ∉ s.reads) :
    ticket ∉ s'.reads := by
  intro hmem
  cases h with
  | settle hsettles => exact hgone (hsettles.mem_reads hmem)
  | prepare _ _ =>
      rcases (AList.mem_insert _).mp hmem with heq | hmem
      · exact fresh hs.drawn heq
      · exact hgone hmem
  | activate hlookup _ _ _ =>
      rcases (AList.mem_insert _).mp hmem with rfl | hmem
      · exact hgone (AList.mem_of_lookup hlookup)
      · exact hgone hmem
  | admitted _ _ _ _ _ _ => exact hgone (AList.mem_erase.mp hmem).2
  | dropRead _ _ _ => exact hgone (AList.mem_erase.mp hmem).2
  | accept | tail | complete | dropAccepted => exact hgone hmem

theorem Effect.committed (h : Effect runtime terms s s') (hs : s.Committed runtime ticket) :
    s'.Committed runtime ticket := by
  refine ⟨hs.drawn.mono h.drawn_le, h.gone hs.spent hs.gone, fun hentry hkind ↦ ?_⟩
  refine h.claimed_entry (P := fun entry ↦ entry.isDownload ∧ entry.committing)
    (Q := fun entry ↦ entry.isDownload ∧ entry.committing) hs.spent
    (fun _ ↦ hs.committing) ?_ hentry hkind
  rintro old new hfollows ⟨hdownload, hcommitting⟩
  exact ⟨hfollows.isDownload.trans hdownload, hfollows.committing hcommitting⟩

theorem Effect.unharmed (h : Effect runtime terms s s') (hhard : ¬terms.hard)
    (hs : s.Committed runtime ticket) (hunharmed : s.Unharmed ticket) :
    s'.Unharmed ticket := by
  intro entry hentry hdownload
  refine h.claimed_entry
    (P := fun entry ↦ entry.isDownload ∧ entry.committing ∧ entry.cancelled = false)
    (Q := fun entry ↦ entry.cancelled = false) hs.spent ?_ ?_ hentry (kind_ne_none hdownload)
  · intro old hold hkind
    obtain ⟨hdownload, hcommitting⟩ := hs.committing hold hkind
    exact ⟨hdownload, hcommitting, hunharmed old hold hdownload⟩
  · rintro old new hfollows ⟨hdownload, hcommitting, hlive⟩
    by_contra hcancelled
    rcases hfollows.spared hdownload hcommitting (Bool.eq_true_of_not_eq_false hcancelled) with
      h | h
    · rw [hlive] at h
      cases h
    · exact hhard h

theorem Steps.barred (h : Steps runtime terms s s') (hs : s.Barred runtime ticket) :
    s'.Barred runtime ticket := by
  induction h with
  | refl => exact hs
  | tail _ heffect ih => exact heffect.barred ih

theorem Steps.committed (h : Steps runtime terms s s') (hs : s.Committed runtime ticket) :
    s'.Committed runtime ticket := by
  induction h with
  | refl => exact hs
  | tail _ heffect ih => exact heffect.committed ih

theorem Steps.unharmed (h : Steps runtime terms s s') (hhard : ¬terms.hard)
    (hs : s.Committed runtime ticket) (hunharmed : s.Unharmed ticket) :
    s'.Unharmed ticket := by
  induction h with
  | refl => exact hunharmed
  | tail hsteps heffect ih => exact heffect.unharmed hhard (Steps.committed hsteps hs) ih

/-! ## The calls that cancel -/

/-- What a reply says about a ticket: the call cancelled it. -/
def Cancels (s : Registry R) (ticket : String) : RegistryCall R → RegistryReply R → Prop
  | .cancelDownload other _ _, .cancelled true => ticket = other
  | .cancelConversion other _ _, .cancelled true => ticket = other
  | .cancelDownloadForProgress progressId owner, .cancelled true =>
      ∃ entry, s.accepted.lookup ticket = some entry ∧ reportsTo progressId owner entry
  | .cancelRead other _ now, .done => ticket = other ∧ ticket ∈ (s.purgeExpired now).reads
  | .cancelAnalysis other _ now, .done => ticket = other ∧ ticket ∈ (s.purgeExpired now).reads
  | .cancelAnalysesForTab _ _, .tickets tickets => ticket ∈ tickets
  | .cancelOwnerReservations _, .operations operations =>
      ∃ operation ∈ operations, operation.id = ticket
  | .cancelOwner _, .operations operations => ∃ operation ∈ operations, operation.id = ticket
  | _, _ => False

/-- A cancel by progress id finds one download to cancel at most, and none that commits
although it is cancelled. -/
def Unambiguous (s : Registry R) : RegistryCall R → Prop
  | .cancelDownloadForProgress progressId owner =>
      (∀ id entry, s.accepted.lookup id = some entry → reportsTo progressId owner entry →
        entry.committing → entry.cancelled = false) ∧
      ∀ id id' entry entry', s.accepted.lookup id = some entry →
        s.accepted.lookup id' = some entry' → reportsTo progressId owner entry →
        reportsTo progressId owner entry' → entry.cancelled = false →
        entry'.cancelled = false → id = id'
  | _ => True

/-- A reservation has no download under its ticket. -/
theorem Inv.not_download (hs : s.Inv runtime) (hmem : ticket ∈ s.reads) {entry : AcceptedEntry}
    (hentry : s.accepted.lookup ticket = some entry) : ¬entry.isDownload := by
  intro hdownload
  exact (hs.spent hentry (kind_ne_none hdownload)).2 hmem

theorem Inv.barred (hs : s.Inv runtime) (hmem : ticket ∈ s.reads)
    (hdrawn : s.drawn ≤ s'.drawn) (haccepted : s'.accepted = s.accepted)
    (hunreserved : ∀ {entry}, s'.reads.lookup ticket = some entry →
      ∀ createdAt, entry.state ≠ .reserved createdAt) :
    s'.Barred runtime ticket := by
  refine ⟨⟨(hs.drawn hmem).mono hdrawn, hunreserved⟩, fun hentry hdownload ↦ ?_⟩
  rw [haccepted] at hentry
  exact absurd hdownload (hs.not_download hmem hentry)

/-- A download under way has its ticket spent. -/
theorem Inv.spent_download (hs : s.Inv runtime) {entry : AcceptedEntry}
    (hentry : s.accepted.lookup ticket = some entry) (hkind : entry.kind ≠ none) :
    s.Spent runtime ticket := by
  obtain ⟨hdrawn, hgone⟩ := hs.spent hentry hkind
  exact ⟨hdrawn, fun hlookup ↦ absurd (AList.mem_of_lookup hlookup) hgone⟩

theorem cancelEntry_unreserved (s : Registry R) (ticket : String) {entry : ReadEntry}
    (h : (s.cancelEntry ticket).reads.lookup ticket = some entry) (createdAt : ℕ) :
    entry.state ≠ .reserved createdAt := by
  rw [cancelEntry] at h
  cases hlookup : s.reads.lookup ticket with
  | none =>
      rw [hlookup] at h
      cases hlookup.symm.trans h
  | some old =>
      rw [hlookup] at h
      dsimp only at h
      cases hstate : old.state with
      | active cancelled label =>
          rw [hstate] at h
          obtain rfl := Option.some.inj ((AList.lookup_insert _).symm.trans h)
          exact fun h ↦ by cases h
      | reserved | cancelledReserved =>
          rw [hstate] at h
          exact absurd rfl (AList.lookup_of_erase h).1

theorem cancelEntry_frame (s : Registry R) (ticket : String) :
    (s.cancelEntry ticket).accepted = s.accepted ∧ (s.cancelEntry ticket).drawn = s.drawn := by
  rw [cancelEntry]
  cases s.reads.lookup ticket with
  | none => exact ⟨rfl, rfl⟩
  | some entry => rcases entry with ⟨_, _, _ | _ | _⟩ <;> exact ⟨rfl, rfl⟩

theorem cancelEntries_frame (s : Registry R) (tickets : List String) :
    (s.cancelEntries tickets).accepted = s.accepted ∧
      (s.cancelEntries tickets).drawn = s.drawn := by
  induction tickets generalizing s with
  | nil => exact ⟨rfl, rfl⟩
  | cons other tickets ih =>
      obtain ⟨haccepted, hdrawn⟩ := ih (s.cancelEntry other)
      have hframe := cancelEntry_frame s other
      exact ⟨haccepted.trans hframe.1, hdrawn.trans hframe.2⟩

theorem cancelEntries_barred (hs : s.Inv runtime) {tickets : List String}
    (hticket : ticket ∈ tickets) (hmem : ticket ∈ s.reads) :
    (s.cancelEntries tickets).Barred runtime ticket := by
  have hframe := cancelEntries_frame s tickets
  refine hs.barred hmem hframe.2.ge hframe.1 ?_
  have hspent : ∀ (s : Registry R) (tickets : List String), s.Drawn runtime ticket →
      ticket ∈ tickets → (s.cancelEntries tickets).Spent runtime ticket := by
    intro s tickets hdrawn hticket
    induction tickets generalizing s with
    | nil => cases hticket
    | cons other tickets ih =>
        have hdrawn' := hdrawn.mono (cancelEntry_frame s other).2.ge
        rcases List.mem_cons.mp hticket with rfl | hticket
        · have hspent : (s.cancelEntry ticket).Spent runtime ticket :=
            ⟨hdrawn', cancelEntry_unreserved s ticket⟩
          have hsteps : Steps runtime noTerms (s.cancelEntry ticket) _ :=
            cancelEntries_steps (s.cancelEntry ticket) tickets
          exact hsteps.spent hspent
        · exact ih (s.cancelEntry other) hdrawn' hticket
  intro entry hlookup
  exact (hspent s tickets (hs.drawn hmem) hticket).unreserved hlookup

/-! ### A cancel bars its ticket -/

theorem purgeExpired_inv (hs : s.Inv runtime) (now : ℕ) : (s.purgeExpired now).Inv runtime :=
  (purgeExpired_settles s now : Settles False _ _).inv hs

theorem barred_setAccepted {new : AcceptedEntry} (hspent : s.Spent runtime ticket)
    (hcancelled : new.cancelled) :
    (s.setAccepted ticket new).Barred runtime ticket := by
  refine ⟨⟨hspent.drawn, hspent.unreserved⟩, fun hentry _ ↦ ?_⟩
  obtain rfl := Option.some.inj ((AList.lookup_insert _).symm.trans hentry)
  exact hcancelled

theorem cancelPrepared_barred (hs : s.Inv runtime)
    (h : s.cancelPrepared ticket owner kind now = (.ok true, s')) :
    s'.Barred runtime ticket := by
  have hpurged := purgeExpired_inv hs now
  rw [cancelPrepared] at h
  set purged := s.purgeExpired now
  cases hlookup : purged.reads.lookup ticket with
  | some entry =>
      have hmem := AList.mem_of_lookup hlookup
      rw [hlookup] at h
      dsimp only at h
      split_ifs at h
      · cases (Prod.mk.inj h).1
      · cases (Prod.mk.inj h).1
      · cases hstate : entry.state with
        | reserved createdAt =>
            rw [hstate] at h
            obtain ⟨-, rfl⟩ := Prod.mk.inj h
            refine hpurged.barred hmem le_rfl rfl fun hnew createdAt ↦ ?_
            obtain rfl := Option.some.inj ((AList.lookup_insert _).symm.trans hnew)
            exact fun h ↦ by cases h
        | cancelledReserved createdAt =>
            rw [hstate] at h
            obtain ⟨-, rfl⟩ := Prod.mk.inj h
            refine hpurged.barred hmem le_rfl rfl fun hnew createdAt ↦ ?_
            obtain rfl := Option.some.inj (hlookup.symm.trans hnew)
            rw [hstate]
            exact fun h ↦ by cases h
        | active cancelled label =>
            rw [hstate] at h
            cases (Prod.mk.inj h).1
  | none =>
      rw [hlookup] at h
      dsimp only at h
      cases haccepted : purged.accepted.lookup ticket with
      | none =>
          rw [haccepted] at h
          cases (Prod.mk.inj h).1
      | some entry =>
          rw [haccepted] at h
          dsimp only at h
          split_ifs at h with hmatches howner hdownload
          · cases (Prod.mk.inj h).1
          · cases (Prod.mk.inj h).1
          · have hspent := hpurged.spent_download haccepted (kind_ne_none hdownload)
            rw [cancelAcceptedDownload] at h
            split_ifs at h
            · cases (Prod.mk.inj h).1
            · obtain ⟨-, rfl⟩ := Prod.mk.inj h
              exact barred_setAccepted hspent rfl
          · have hkind : entry.kind ≠ none := by
              intro hnone
              cases kind <;> simp [acceptedMatches, AcceptedEntry.isDownload, hnone] at hmatches
            obtain ⟨-, rfl⟩ := Prod.mk.inj h
            exact barred_setAccepted (hpurged.spent_download haccepted hkind) rfl

theorem cancelReservation_barred (hs : s.Inv runtime) {requestedAnalysis : Bool}
    (hmem : ticket ∈ (s.purgeExpired now).reads)
    (h : s.cancelReservation ticket owner requestedAnalysis now = (.ok (), s')) :
    s'.Barred runtime ticket := by
  have hpurged := purgeExpired_inv hs now
  rw [cancelReservation] at h
  set purged := s.purgeExpired now
  obtain ⟨entry, hentry⟩ := Option.isSome_iff_exists.mp (AList.lookup_isSome.mpr hmem)
  rw [hentry] at h
  dsimp only at h
  have hcancelled : s' = purged.cancelEntry ticket := by
    split_ifs at h <;> first | exact (Prod.mk.inj h).2.symm | cases (Prod.mk.inj h).1
  have hframe := cancelEntry_frame purged ticket
  rw [hcancelled]
  exact hpurged.barred hmem hframe.2.ge hframe.1 fun hlookup ↦
    cancelEntry_unreserved purged ticket hlookup

theorem mem_of_mem_filter_entries {p : (Σ _ : String, ReadEntry) → Bool}
    (h : ticket ∈ (s.reads.entries.filter p).map Sigma.fst) :
    ticket ∈ s.reads := by
  obtain ⟨entry, hentry, rfl⟩ := List.mem_map.mp h
  exact List.mem_keys_of_mem (List.mem_of_mem_filter hentry)

theorem cancelAnalysesForTab_barred (hs : s.Inv runtime) {tab : String}
    (h : ticket ∈ (s.cancelAnalysesForTab owner tab).1) :
    (s.cancelAnalysesForTab owner tab).2.Barred runtime ticket :=
  cancelEntries_barred hs h (mem_of_mem_filter_entries h)

theorem cancelOwnerReservations_barred (hs : s.Inv runtime) {operation : CancelledOperation}
    (h : operation ∈ (s.cancelOwnerReservations owner).1) :
    operation.id ∈ s.reads ∧ (s.cancelOwnerReservations owner).2.Barred runtime operation.id := by
  have hmem : operation.id ∈ s.reads := by
    obtain ⟨entry, hentry, rfl⟩ := List.mem_map.mp h
    exact List.mem_keys_of_mem (List.mem_of_mem_filter hentry)
  exact ⟨hmem, cancelEntries_barred hs (List.mem_map_of_mem h) hmem⟩

theorem lookup_cancelOwnerReservations {entry : AcceptedEntry}
    (h : (s.cancelOwnerReservations owner).2.accepted.lookup ticket = some entry) :
    s.accepted.lookup ticket = some entry :=
  (congrArg (AList.lookup ticket) (cancelEntries_frame s _).1).symm.trans h

/-- The operations that the loss of an owner cancels: its reservations, and its downloads
that do not commit. -/
theorem mem_cancelOwner {operation : CancelledOperation}
    (h : operation ∈ (s.cancelOwner owner).1) :
    operation ∈ (s.cancelOwnerReservations owner).1 ∨
      ∃ entry, s.accepted.lookup operation.id = some entry ∧ ownedDownload owner entry := by
  rcases List.mem_append.mp h with h | h
  · exact Or.inl h
  · refine Or.inr ?_
    obtain ⟨entry, hentry, rfl⟩ := List.mem_map.mp h
    obtain ⟨hmem, howned⟩ := List.mem_filter.mp hentry
    exact ⟨entry.2, lookup_cancelOwnerReservations (AList.mem_lookup_iff.mpr hmem), howned⟩

theorem cancelOwner_barred (hs : s.Inv runtime) {operation : CancelledOperation}
    (h : operation ∈ (s.cancelOwner owner).1) :
    (s.cancelOwner owner).2.Barred runtime operation.id := by
  rcases mem_cancelOwner h with h | ⟨entry, hentry, howned⟩
  · have hbarred := (cancelOwnerReservations_barred hs h).2
    refine ⟨⟨hbarred.spent.drawn, hbarred.spent.unreserved⟩, fun hnew hdownload ↦ ?_⟩
    obtain ⟨old, hold, rfl⟩ := AList.lookup_mapValues.mp hnew
    have hcancelled : old.isDownload → old.cancelled := hbarred.cancelled hold
    split_ifs at hdownload ⊢
    · rfl
    · exact hcancelled hdownload
  · have hdownload : entry.isDownload := by
      rw [ownedDownload, Bool.and_eq_true, Bool.and_eq_true] at howned
      exact howned.1.1
    have hspent := hs.spent_download hentry (kind_ne_none hdownload)
    have hafter : (s.cancelOwnerReservations owner).2.Spent runtime operation.id :=
      Steps.spent (cancelOwnerReservations_steps s owner : Steps runtime noTerms s _) hspent
    refine ⟨⟨hafter.drawn, hafter.unreserved⟩, fun hnew _ ↦ ?_⟩
    obtain ⟨old, hold, rfl⟩ := AList.lookup_mapValues.mp hnew
    obtain rfl := Option.some.inj (hentry.symm.trans (lookup_cancelOwnerReservations hold))
    rw [if_pos howned]

/-- Going through downloads, the first that is not cancelled decides. -/
theorem cancelFirst_true {entries : List (Σ _ : String, AcceptedEntry)} {alreadyCancelled : Bool}
    (h : (s.cancelFirst entries alreadyCancelled).1 = true) :
    (∀ entry ∈ entries, entry.2.cancelled) ∧ (s.cancelFirst entries alreadyCancelled).2 = s ∨
      ∃ entry ∈ entries, entry.2.cancelled = false ∧ entry.2.committing = false ∧
        (s.cancelFirst entries alreadyCancelled).2 =
          s.setAccepted entry.1 { entry.2 with cancelled := true } := by
  induction entries generalizing alreadyCancelled with
  | nil => exact Or.inl ⟨fun _ h ↦ absurd h List.not_mem_nil, rfl⟩
  | cons entry entries ih =>
      rw [cancelFirst] at h ⊢
      by_cases hcancelled : entry.2.cancelled
      · rw [if_pos hcancelled] at h ⊢
        rcases ih h with ⟨hall, hstay⟩ | ⟨found, hfound, hrest⟩
        · refine Or.inl ⟨fun other hother ↦ ?_, hstay⟩
          rcases List.mem_cons.mp hother with rfl | hother
          · exact hcancelled
          · exact hall other hother
        · exact Or.inr ⟨found, List.mem_cons_of_mem _ hfound, hrest⟩
      · rw [if_neg hcancelled, cancelAcceptedDownload] at h ⊢
        by_cases hcommitting : entry.2.committing
        · rw [if_pos hcommitting] at h
          cases h
        · rw [if_neg hcommitting] at h ⊢
          exact Or.inr ⟨entry, List.mem_cons_self, Bool.eq_false_of_not_eq_true hcancelled,
            Bool.eq_false_of_not_eq_true hcommitting, rfl⟩

theorem reportsTo_isDownload {progressId : String} {entry : AcceptedEntry}
    (h : reportsTo progressId owner entry) : entry.isDownload := by
  rw [reportsTo, Bool.and_eq_true, Bool.and_eq_true] at h
  exact h.1.1

theorem cancelDownloadForProgress_barred (hs : s.Inv runtime) {progressId : String}
    (hunambiguous : s.Unambiguous (.cancelDownloadForProgress progressId owner : RegistryCall R))
    (h : (s.cancelDownloadForProgress runtime progressId owner).1 = true) {entry : AcceptedEntry}
    (hentry : s.accepted.lookup ticket = some entry)
    (hreports : reportsTo progressId owner entry) :
    (s.cancelDownloadForProgress runtime progressId owner).2.Barred runtime ticket := by
  have hspent := hs.spent_download hentry (kind_ne_none (reportsTo_isDownload hreports))
  have hmem : (⟨ticket, entry⟩ : Σ _ : String, AcceptedEntry) ∈
      s.reporting runtime progressId owner :=
    mem_reporting.mpr ⟨hentry, hreports⟩
  rcases cancelFirst_true h with ⟨hall, hstay⟩ | ⟨found, hfound, hlive, -, hset⟩
  · rw [cancelDownloadForProgress, hstay]
    refine ⟨hspent, fun hnew _ ↦ ?_⟩
    obtain rfl := Option.some.inj (hentry.symm.trans hnew)
    exact hall _ hmem
  · rw [cancelDownloadForProgress, hset]
    obtain ⟨hlookup, hfoundReports⟩ := mem_reporting.mp hfound
    refine ⟨⟨hspent.drawn, hspent.unreserved⟩, fun hnew _ ↦ ?_⟩
    rcases mem_of_lookup_insert hnew with ⟨rfl, rfl⟩ | ⟨hne, hold⟩
    · rfl
    · obtain rfl := Option.some.inj (hentry.symm.trans hold)
      by_contra hcancelled
      exact hne (hunambiguous.2 ticket found.1 entry found.2 hentry hlookup hreports hfoundReports
        (Bool.eq_false_of_not_eq_true hcancelled) hlive)

theorem serve_barred (hs : s.Inv runtime) {call : RegistryCall R}
    (hunambiguous : s.Unambiguous call)
    (h : s.Cancels ticket call (s.serve runtime call).1) :
    (s.serve runtime call).2.Barred runtime ticket := by
  cases call with
  | cancelDownload other owner now =>
      rw [serve] at h ⊢
      rcases hresult : s.cancelPrepared other owner .download now with ⟨_ | _ | _, after⟩ <;>
        rw [hresult] at h
      · exact absurd h id
      · exact absurd h id
      · obtain rfl : ticket = other := h
        exact cancelPrepared_barred hs hresult
  | cancelConversion other owner now =>
      rw [serve] at h ⊢
      rcases hresult : s.cancelPrepared other owner .conversion now with ⟨_ | _ | _, after⟩ <;>
        rw [hresult] at h
      · exact absurd h id
      · exact absurd h id
      · obtain rfl : ticket = other := h
        exact cancelPrepared_barred hs hresult
  | cancelDownloadForProgress progressId owner =>
      rw [serve] at h ⊢
      cases hresult : (s.cancelDownloadForProgress runtime progressId owner).1 with
      | false =>
          rw [hresult] at h
          exact absurd h id
      | true =>
          rw [hresult] at h
          obtain ⟨entry, hentry, hreports⟩ := h
          exact cancelDownloadForProgress_barred hs hunambiguous hresult hentry hreports
  | cancelRead other owner now =>
      rw [serve] at h ⊢
      rcases hresult : s.cancelReservation other owner false now with ⟨_ | _, after⟩ <;>
        rw [hresult] at h
      · exact absurd h id
      · obtain ⟨rfl, hmem⟩ := h
        exact cancelReservation_barred hs hmem hresult
  | cancelAnalysis other owner now =>
      rw [serve] at h ⊢
      rcases hresult : s.cancelReservation other owner true now with ⟨_ | _, after⟩ <;>
        rw [hresult] at h
      · exact absurd h id
      · obtain ⟨rfl, hmem⟩ := h
        exact cancelReservation_barred hs hmem hresult
  | cancelAnalysesForTab owner tab => exact cancelAnalysesForTab_barred hs h
  | cancelOwnerReservations owner =>
      obtain ⟨operation, hoperation, rfl⟩ := h
      exact (cancelOwnerReservations_barred hs hoperation).2
  | cancelOwner owner =>
      obtain ⟨operation, hoperation, rfl⟩ := h
      exact cancelOwner_barred hs hoperation
  | _ => exact absurd h id

/-! ### An operation that commits is not cancelled -/

theorem Committed.not_mem_purged (h : s.Committed runtime ticket) (now : ℕ) :
    ticket ∉ (s.purgeExpired now).reads :=
  fun hmem ↦ h.gone ((purgeExpired_settles s now : Settles False _ _).mem_reads hmem)

theorem Committed.cancelPrepared_ne (h : s.Committed runtime ticket) :
    s.cancelPrepared ticket owner kind now ≠ (.ok true, s') := by
  intro hcancel
  rw [cancelPrepared, AList.lookup_eq_none.mpr (h.not_mem_purged now)] at hcancel
  have haccepted : (s.purgeExpired now).accepted = s.accepted := rfl
  dsimp only at hcancel
  rw [haccepted] at hcancel
  cases hlookup : s.accepted.lookup ticket with
  | none =>
      rw [hlookup] at hcancel
      cases (Prod.mk.inj hcancel).1
  | some entry =>
      rw [hlookup] at hcancel
      dsimp only at hcancel
      split_ifs at hcancel with hmatches howner hdownload
      · cases (Prod.mk.inj hcancel).1
      · cases (Prod.mk.inj hcancel).1
      · have hcommitting := (h.committing hlookup (kind_ne_none hdownload)).2
        rw [cancelAcceptedDownload, if_pos hcommitting] at hcancel
        cases (Prod.mk.inj hcancel).1
      · have hkind : entry.kind ≠ none := by
          intro hnone
          cases kind <;> simp [acceptedMatches, AcceptedEntry.isDownload, hnone] at hmatches
        exact hdownload (h.committing hlookup hkind).1

theorem Committed.not_cancels (h : s.Committed runtime ticket) {call : RegistryCall R}
    (hunambiguous : s.Unambiguous call) :
    ¬s.Cancels ticket call (s.serve runtime call).1 := by
  intro hcancels
  cases call with
  | cancelDownload other owner now =>
      rw [serve] at hcancels
      rcases hresult : s.cancelPrepared other owner .download now with ⟨_ | _ | _, after⟩ <;>
        rw [hresult] at hcancels
      · exact hcancels
      · exact hcancels
      · obtain rfl : ticket = other := hcancels
        exact h.cancelPrepared_ne hresult
  | cancelConversion other owner now =>
      rw [serve] at hcancels
      rcases hresult : s.cancelPrepared other owner .conversion now with ⟨_ | _ | _, after⟩ <;>
        rw [hresult] at hcancels
      · exact hcancels
      · exact hcancels
      · obtain rfl : ticket = other := hcancels
        exact h.cancelPrepared_ne hresult
  | cancelDownloadForProgress progressId owner =>
      rw [serve] at hcancels
      cases hresult : (s.cancelDownloadForProgress runtime progressId owner).1 with
      | false =>
          rw [hresult] at hcancels
          exact hcancels
      | true =>
          rw [hresult] at hcancels
          obtain ⟨entry, hentry, hreports⟩ := hcancels
          have hcommitting :=
            (h.committing hentry (kind_ne_none (reportsTo_isDownload hreports))).2
          have hlive := hunambiguous.1 ticket entry hentry hreports hcommitting
          have hmem : (⟨ticket, entry⟩ : Σ _ : String, AcceptedEntry) ∈
              s.reporting runtime progressId owner :=
            mem_reporting.mpr ⟨hentry, hreports⟩
          rcases cancelFirst_true hresult with ⟨hall, -⟩ | ⟨found, hfound, hfoundLive, hidle, -⟩
          · rw [hall _ hmem] at hlive
            cases hlive
          · obtain ⟨hlookup, hfoundReports⟩ := mem_reporting.mp hfound
            have hsame := hunambiguous.2 ticket found.1 entry found.2 hentry hlookup hreports
              hfoundReports hlive hfoundLive
            rw [← hsame] at hlookup
            obtain rfl := Option.some.inj (hentry.symm.trans hlookup)
            rw [hcommitting] at hidle
            cases hidle
  | cancelRead other owner now =>
      rw [serve] at hcancels
      rcases hresult : s.cancelReservation other owner false now with ⟨_ | _, after⟩ <;>
        rw [hresult] at hcancels
      · exact hcancels
      · exact h.not_mem_purged now hcancels.2
  | cancelAnalysis other owner now =>
      rw [serve] at hcancels
      rcases hresult : s.cancelReservation other owner true now with ⟨_ | _, after⟩ <;>
        rw [hresult] at hcancels
      · exact hcancels
      · exact h.not_mem_purged now hcancels.2
  | cancelAnalysesForTab owner tab => exact h.gone (mem_of_mem_filter_entries hcancels)
  | cancelOwnerReservations owner =>
      obtain ⟨operation, hoperation, rfl⟩ := hcancels
      obtain ⟨entry, hentry, heq⟩ := List.mem_map.mp hoperation
      rw [← heq] at h
      exact h.gone (List.mem_keys_of_mem (List.mem_of_mem_filter hentry))
  | cancelOwner owner =>
      obtain ⟨operation, hoperation, rfl⟩ := hcancels
      rcases mem_cancelOwner hoperation with hreserved | ⟨entry, hentry, howned⟩
      · obtain ⟨entry, hentry, heq⟩ := List.mem_map.mp hreserved
        rw [← heq] at h
        exact h.gone (List.mem_keys_of_mem (List.mem_of_mem_filter hentry))
      · rw [ownedDownload, Bool.and_eq_true, Bool.and_eq_true] at howned
        have hcommitting := (h.committing hentry (kind_ne_none howned.1.1)).2
        rw [hcommitting] at howned
        cases howned.2
  | _ => exact hcancels

/-! ## Commits -/

theorem beginCommit_done (hs : s.Inv runtime)
    (h : (s.serve runtime (.beginCommit ticket)).1 = .done) :
    (s.serve runtime (.beginCommit ticket)).2.Committed runtime ticket := by
  rw [serve] at h ⊢
  rw [beginCommit] at h ⊢
  cases hlookup : s.accepted.lookup ticket with
  | none =>
      rw [hlookup] at h
      cases h
  | some entry =>
      rw [hlookup] at h
      dsimp only at h ⊢
      by_cases hdownload : entry.isDownload
      · by_cases hcancelled : entry.cancelled
        · rw [hdownload, hcancelled] at h
          cases h
        · rw [if_neg (by simp [hdownload]), if_neg hcancelled]
          obtain ⟨hdrawn, hgone⟩ := hs.spent hlookup (kind_ne_none hdownload)
          refine ⟨hdrawn, hgone, fun hentry _ ↦ ?_⟩
          obtain rfl := Option.some.inj ((AList.lookup_insert _).symm.trans hentry)
          exact ⟨hdownload, rfl⟩
      · rw [if_pos (by simp [hdownload])] at h
        cases h

theorem Barred.beginCommit_refused (h : s.Barred runtime ticket) :
    (s.serve runtime (.beginCommit ticket)).1 ≠ .done := by
  rw [serve, beginCommit]
  cases hlookup : s.accepted.lookup ticket with
  | none => exact fun h ↦ by cases h
  | some entry =>
      dsimp only
      by_cases hdownload : entry.isDownload
      · rw [if_neg (by simp [hdownload]), if_pos (h.cancelled hlookup hdownload)]
        exact fun h ↦ by cases h
      · rw [if_pos (by simp [hdownload])]
        exact fun h ↦ by cases h

/-! ## Runs -/

section

variable (runtime) (calls : ℕ → RegistryCall R) {m n : ℕ}

theorem barred_of_cancels (hmn : m < n)
    (hunambiguous : (registryAt runtime calls m).Unambiguous (calls m))
    (hcancels : (registryAt runtime calls m).Cancels ticket (calls m) (replyAt runtime calls m)) :
    (registryAt runtime calls n).Barred runtime ticket := by
  induction n, hmn using Nat.le_induction with
  | base => exact serve_barred (registryAt_inv runtime calls m) hunambiguous hcancels
  | succ n _ ih => exact (registryAt_steps runtime calls n (respects_empty (calls n))).barred ih

theorem committed_of_done (hmn : m < n) (hcall : calls m = .beginCommit ticket)
    (hreply : replyAt runtime calls m = .done) :
    (registryAt runtime calls n).Committed runtime ticket := by
  induction n, hmn using Nat.le_induction with
  | base =>
      have hdone : ((registryAt runtime calls m).serve runtime (.beginCommit ticket)).1 = .done := by
        rw [← hcall]
        exact hreply
      have hcommitted := beginCommit_done (registryAt_inv runtime calls m) hdone
      rw [← hcall] at hcommitted
      exact hcommitted
  | succ n _ ih =>
      exact (registryAt_steps runtime calls n (respects_empty (calls n))).committed ih

/-- Over every run in which a cancel by progress id finds one download to cancel at most,
and none that commits although it is cancelled: what was reported as cancelled is neither
claimed nor committed later, and what began to commit is not reported as cancelled later,
nor its token cancelled by a call other than sealing. -/
theorem cancelled_or_committed (calls : ℕ → RegistryCall R)
    (hunambiguous : ∀ n, (registryAt runtime calls n).Unambiguous (calls n)) :
    (∀ m n ticket, m < n →
      (registryAt runtime calls m).Cancels ticket (calls m) (replyAt runtime calls m) →
      ((calls n).claimed = some ticket → (replyAt runtime calls n).newLease = none) ∧
        (calls n = .beginCommit ticket → replyAt runtime calls n ≠ .done)) ∧
    (∀ m n ticket, m < n → calls m = .beginCommit ticket → replyAt runtime calls m = .done →
      ¬(registryAt runtime calls n).Cancels ticket (calls n) (replyAt runtime calls n) ∧
        (¬(calls n).Hard → (registryAt runtime calls n).Unharmed ticket →
          (registryAt runtime calls (n + 1)).Unharmed ticket)) := by
  refine ⟨fun m n ticket hmn hcancels ↦ ?_, fun m n ticket hmn hcall hreply ↦ ?_⟩
  · have hbarred := barred_of_cancels runtime calls hmn (hunambiguous m) hcancels
    refine ⟨fun hclaimed ↦ ?_, fun hcommit ↦ ?_⟩
    · cases hlease : (replyAt runtime calls n).newLease with
      | none => rfl
      | some lease => exact absurd hbarred.spent (claims_at runtime calls hclaimed hlease).1
    · rw [replyAt, hcommit]
      exact hbarred.beginCommit_refused
  · have hcommitted := committed_of_done runtime calls hmn hcall hreply
    refine ⟨hcommitted.not_cancels (hunambiguous n), fun hsoft hunharmed ↦ ?_⟩
    exact (registryAt_steps runtime calls n (respects_empty (calls n))).unharmed hsoft hcommitted
      hunharmed

end

/-! ### Two downloads -/

namespace TwoDownloads

open EarlyAcknowledgement (plainRuntime)

def first : String := plainRuntime.uuid 0

def second : String := plainRuntime.uuid 1

def claim (ticket admissionKey : String) : RegistryCall Unit :=
  .claimDownload ticket "main" "download" ⟨"progress", admissionKey, false, 32⟩ 0

/-- One download that commits, and a cancel by its ticket. -/
def committed (n : ℕ) : RegistryCall Unit :=
  if n = 0 then .prepare "main" .download 0
  else if n = 1 then claim first "account"
  else if n = 2 then .beginCommit first
  else .cancelDownload first "main" 0

/-- Two downloads of one owner under one progress id: it is cancelled, and one commits. -/
def shared (n : ℕ) : RegistryCall Unit :=
  if n = 0 then .prepare "main" .download 0
  else if n = 1 then .prepare "main" .download 0
  else if n = 2 then claim first "account"
  else if n = 3 then claim second "progress"
  else if n = 4 then .cancelDownloadForProgress "progress" "main"
  else .beginCommit first

/-- A download that commits when the registry is sealed, and a cancel by its progress id. -/
def sealedCommit (n : ℕ) : RegistryCall Unit :=
  if n = 0 then .prepare "main" .download 0
  else if n = 1 then claim first "account"
  else if n = 2 then .beginCommit first
  else if n = 3 then .sealAndRequestCancellation
  else .cancelDownloadForProgress "progress" "main"

def isDone : RegistryReply Unit → Bool
  | .done => true
  | _ => false

def isCancelled : RegistryReply Unit → Bool
  | .cancelled cancelled => cancelled
  | _ => false

theorem of_isDone {reply : RegistryReply Unit} (h : isDone reply) : reply = .done := by
  cases reply with
  | done => rfl
  | _ => cases h

theorem of_isCancelled {reply : RegistryReply Unit} (h : isCancelled reply) :
    reply = .cancelled true := by
  cases reply with
  | cancelled cancelled => exact congrArg _ h
  | _ => cases h

theorem cancelled_or_committed_ticket :
    ¬(registryAt plainRuntime committed 3).Cancels first (committed 3)
      (replyAt plainRuntime committed 3) := by
  refine ((cancelled_or_committed plainRuntime committed fun n ↦ ?_).2 2 3 first (by decide) rfl
    (of_isDone (by decide))).1
  rw [committed]
  split_ifs <;> trivial

theorem cancels_of_any {s : Registry Unit} {reply : RegistryReply Unit}
    (hreply : isCancelled reply)
    (hany : (s.accepted.lookup first).any fun entry ↦ reportsTo "progress" "main" entry) :
    s.Cancels first (.cancelDownloadForProgress "progress" "main") reply := by
  obtain ⟨entry, hentry, hreports⟩ := (Option.any_eq_true _ _).mp hany
  rw [of_isCancelled hreply]
  exact ⟨entry, hentry, hreports⟩

/-- A download is committed after a cancel that covers it succeeded, and a cancel succeeds
after a download began to commit. -/
theorem cancel_by_progress_misreports :
    ((registryAt plainRuntime shared 4).Cancels first (shared 4) (replyAt plainRuntime shared 4) ∧
      shared 5 = .beginCommit first ∧ replyAt plainRuntime shared 5 = .done) ∧
    (sealedCommit 2 = .beginCommit first ∧ replyAt plainRuntime sealedCommit 2 = .done ∧
      (registryAt plainRuntime sealedCommit 4).Cancels first (sealedCommit 4)
        (replyAt plainRuntime sealedCommit 4)) :=
  ⟨⟨cancels_of_any (by decide) (by decide), rfl, of_isDone (by decide)⟩,
    rfl, of_isDone (by decide),
    cancels_of_any (by decide) (by decide)⟩

end TwoDownloads

end Registry

end EnCroissant.Infra

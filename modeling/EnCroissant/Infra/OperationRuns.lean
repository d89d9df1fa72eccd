import Mathlib
import EnCroissant.Infra.OperationCalls
import EnCroissant.Library.Trace

/-!
# Runs of the operation registry

A ticket yields one lease, a lease keeps its entry until it is dropped, and the slots in
use stay within their bound as long as the calls leave room.
-/

namespace EnCroissant.Infra

namespace RegistryCall

variable {R : Type}

/-- The ticket that a call claims. -/
def claimed : RegistryCall R → Option String
  | .claimRead ticket _ _ _ => some ticket
  | .claimAnalysis ticket _ _ _ _ => some ticket
  | .claimDownload ticket _ _ _ _ => some ticket
  | .claimConversion ticket _ _ => some ticket
  | .admitEngineCompletion _ _ ticket _ _ _ => some ticket
  | _ => none

end RegistryCall

/-- The lease that a reply hands out. -/
def RegistryReply.newLease {R : Type} : RegistryReply R → Option OperationLease
  | .lease out => some out
  | .admitted _ out => out
  | .application out => out
  | _ => none

namespace Registry

variable {R : Type} {runtime : Runtime} {terms : Terms} {keys : Set String} {s s' : Registry R}
  {ticket : String} {lease : OperationLease}

/-! ## Steps and calls -/

theorem Steps.inv (h : Steps runtime terms s s') (hs : s.Inv runtime) : s'.Inv runtime := by
  induction h with
  | refl => exact hs
  | tail _ heffect ih => exact heffect.inv ih

theorem Steps.occupied_le (h : Steps runtime terms s s') (hs : s.Inv runtime)
    (hroomy : terms.roomy) (hoccupied : s.occupied ≤ maxAcceptedOperations) :
    s'.occupied ≤ maxAcceptedOperations := by
  induction h with
  | refl => exact hoccupied
  | tail hsteps heffect ih => exact heffect.occupied_le (Steps.inv hsteps hs) hroomy ih

theorem Steps.keysApart (h : Steps runtime terms s s') (hs : s.KeysApart terms.keys) :
    s'.KeysApart terms.keys := by
  induction h with
  | refl => exact hs
  | tail _ heffect ih => exact heffect.keysApart ih

/-- A lease that is out stays out, unless the call drops it. -/
theorem Effect.leases (h : Effect runtime terms s s') (hmem : lease ∈ s.leases)
    (hkept : terms.drops ≠ some lease) :
    lease ∈ s'.leases := by
  cases h with
  | settle hsettles =>
      rw [hsettles.leases]
      exact hmem
  | prepare _ _ => exact hmem
  | activate _ _ _ _ => exact List.mem_cons_of_mem _ hmem
  | admitted _ _ _ _ _ _ => exact List.mem_cons_of_mem _ hmem
  | accept _ _ _ => exact List.mem_cons_of_mem _ hmem
  | tail _ _ _ _ => exact List.mem_cons_of_mem _ hmem
  | complete _ _ _ _ => exact hmem
  | dropRead _ hdrops _ =>
      refine (List.mem_erase_of_ne ?_).mpr hmem
      rintro rfl
      exact hkept hdrops
  | dropAccepted _ hdrops _ _ =>
      refine (List.mem_erase_of_ne ?_).mpr hmem
      rintro rfl
      exact hkept hdrops

theorem Steps.leases (h : Steps runtime terms s s') (hmem : lease ∈ s.leases)
    (hkept : terms.drops ≠ some lease) :
    lease ∈ s'.leases := by
  induction h with
  | refl => exact hmem
  | tail _ heffect ih => exact heffect.leases ih hkept

theorem Effect.isSealed (h : Effect runtime terms s s') (hsealed : s.sealed) : s'.sealed := by
  cases h with
  | settle hsettles => exact hsettles.isSealed hsealed
  | prepare | activate | admitted | accept | tail | complete | dropRead | dropAccepted =>
      exact hsealed

theorem Steps.isSealed (h : Steps runtime terms s s') (hsealed : s.sealed) : s'.sealed := by
  induction h with
  | refl => exact hsealed
  | tail _ heffect ih => exact heffect.isSealed ih

theorem Effect.drawn_le (h : Effect runtime terms s s') : s.drawn ≤ s'.drawn := by
  cases h with
  | settle hsettles => exact hsettles.drawn
  | prepare => exact Nat.le_succ _
  | activate | admitted | accept | tail | complete | dropRead | dropAccepted => exact le_rfl

theorem Steps.drawn_le (h : Steps runtime terms s s') : s.drawn ≤ s'.drawn := by
  induction h with
  | refl => exact le_rfl
  | tail _ heffect ih => exact ih.trans heffect.drawn_le

/-! ## Tickets that were used -/

/-- The ticket was issued, and is not reserved any more. -/
structure Spent (runtime : Runtime) (s : Registry R) (ticket : String) : Prop where
  drawn : s.Drawn runtime ticket
  unreserved : ∀ {entry}, s.reads.lookup ticket = some entry →
    ∀ createdAt, entry.state ≠ .reserved createdAt

theorem Settles.spent {hard : Prop} (h : Settles hard s s') (hs : s.Spent runtime ticket) :
    s'.Spent runtime ticket := by
  refine ⟨hs.drawn.mono h.drawn, fun hnew createdAt hstate ↦ ?_⟩
  obtain ⟨old, hold, hfollows⟩ := h.read hnew
  have hstep := hfollows.state
  rw [hstate] at hstep
  cases hsame : old.state with
  | reserved before => exact hs.unreserved hold before hsame
  | cancelledReserved | active =>
      rw [hsame] at hstep
      cases hstep

theorem Spent.erase {leases : List OperationLease} {accepted : AList fun _ : String ↦ AcceptedEntry}
    (hs : s.Spent runtime ticket) (other : String) :
    Spent runtime
      { s with reads := s.reads.erase other, leases := leases, accepted := accepted } ticket :=
  ⟨hs.drawn, fun hnew ↦ hs.unreserved (AList.lookup_of_erase hnew).2⟩

theorem Effect.spent (h : Effect runtime terms s s') (hs : s.Spent runtime ticket) :
    s'.Spent runtime ticket := by
  cases h with
  | settle hsettles => exact hsettles.spent hs
  | prepare _ _ =>
      refine ⟨hs.drawn.mono (Nat.le_succ _), fun hnew ↦ ?_⟩
      rw [AList.lookup_insert_ne (fresh hs.drawn)] at hnew
      exact hs.unreserved hnew
  | @activate other _ _ _ _ _ _ _ _ =>
      refine ⟨hs.drawn, fun {entry} hnew createdAt hstate ↦ ?_⟩
      by_cases hsame : ticket = other
      · subst hsame
        rw [AList.lookup_insert] at hnew
        obtain rfl := Option.some.inj hnew
        cases hstate
      · rw [AList.lookup_insert_ne hsame] at hnew
        exact hs.unreserved hnew createdAt hstate
  | admitted _ _ _ _ _ _ => exact hs.erase _
  | accept _ _ _ => exact ⟨hs.drawn, hs.unreserved⟩
  | tail _ _ _ _ => exact ⟨hs.drawn, hs.unreserved⟩
  | complete _ _ _ _ => exact ⟨hs.drawn, hs.unreserved⟩
  | dropRead _ _ _ => exact hs.erase _
  | dropAccepted _ _ _ _ => exact ⟨hs.drawn, hs.unreserved⟩

theorem Steps.spent (h : Steps runtime terms s s') (hs : s.Spent runtime ticket) :
    s'.Spent runtime ticket := by
  induction h with
  | refl => exact hs
  | tail _ heffect ih => exact heffect.spent ih

/-- A claim spends its ticket, which was not spent before. -/
theorem Claims.spends (h : Claims s ticket lease s') (hs : s.Inv runtime)
    (hsteps : Steps runtime terms s s') :
    ¬s.Spent runtime ticket ∧ s'.Spent runtime ticket := by
  obtain ⟨entry, createdAt, hlookup, hstate⟩ := h.reserved
  refine ⟨fun hspent ↦ hspent.unreserved hlookup createdAt hstate, ?_⟩
  have hdrawn := (hs.drawn (AList.mem_of_lookup hlookup)).mono (Steps.drawn_le hsteps)
  refine ⟨hdrawn, fun hnew createdAt hreserved ↦ ?_⟩
  have hactive := h.after hnew
  rw [hreserved] at hactive
  cases hactive

/-! ## What a call hands out -/

/-- Nothing is assumed of a call. -/
def noTerms : Terms := ⟨False, False, none, ∅⟩

theorem of_answer {α : Type} {reply : α → RegistryReply R} {result : Except Error α × Registry R}
    (h : (answer reply result).1.newLease = some lease) :
    ∃ a, result = (.ok a, result.2) ∧ (reply a).newLease = some lease := by
  rcases result with ⟨e | a, s⟩
  · cases h
  · exact ⟨a, rfl, h⟩

theorem serve_claims (hs : s.Inv runtime) {call : RegistryCall R}
    (hcall : call.claimed = some ticket)
    (hreply : (s.serve runtime call).1.newLease = some lease) :
    Claims s ticket lease (s.serve runtime call).2 := by
  cases call with
  | claimRead _ owner label now =>
      obtain rfl := Option.some.inj hcall
      rw [serve, answer_snd]
      obtain ⟨_, hresult, ⟨⟩⟩ := of_answer hreply
      have hspec : Steps runtime noTerms s _ ∧ _ := claimReservation_spec (by decide) hresult
      exact hspec.2 lease rfl
  | claimAnalysis _ owner tab label now =>
      obtain rfl := Option.some.inj hcall
      rw [serve, answer_snd]
      obtain ⟨_, hresult, ⟨⟩⟩ := of_answer hreply
      have hspec : Steps runtime noTerms s _ ∧ _ :=
        claimReservation_spec (by simp [ReservationKind.leaseKind]) hresult
      exact hspec.2 lease rfl
  | claimDownload _ owner label policy now =>
      obtain rfl := Option.some.inj hcall
      rw [serve, answer_snd]
      obtain ⟨_, hresult, ⟨⟩⟩ := of_answer hreply
      have hspec : Steps runtime noTerms s _ ∧ _ :=
        claimPreparedInState_spec (fun _ _ h ↦ absurd h (Set.notMem_empty _)) hresult
      exact (hspec.2 lease rfl).1
  | claimConversion _ owner now =>
      obtain rfl := Option.some.inj hcall
      rw [serve, answer_snd]
      obtain ⟨_, hresult, ⟨⟩⟩ := of_answer hreply
      have hspec : Steps runtime noTerms s _ ∧ _ :=
        claimPreparedInState_spec (fun _ _ h ↦ absurd h (Set.notMem_empty _)) hresult
      exact (hspec.2 lease rfl).1
  | admitEngineCompletion id owner _ request downloadCap now =>
      obtain rfl := Option.some.inj hcall
      rw [serve, answer_snd]
      obtain ⟨⟨snapshot, out⟩, hresult, hout⟩ := of_answer hreply
      obtain rfl : out = some lease := hout
      have hspec : Steps runtime noTerms s _ ∧ _ :=
        admitEngineCompletion_spec hs (Set.notMem_empty _) hresult
      exact hspec.2 snapshot lease rfl
  | _ => cases hcall

/-- A lease is handed out before sealing only, and is out afterwards. -/
theorem serve_newLease (hs : s.Inv runtime) {call : RegistryCall R}
    (hreply : (s.serve runtime call).1.newLease = some lease) :
    s.sealed = false ∧ lease ∈ (s.serve runtime call).2.leases := by
  cases hcall : call.claimed with
  | some ticket =>
      have hclaims := serve_claims hs hcall hreply
      exact ⟨hclaims.unsealed, hclaims.out⟩
  | none =>
      cases call with
      | accept label =>
          rw [serve, answer_snd]
          obtain ⟨_, hresult, ⟨⟩⟩ := of_answer hreply
          have hspec : Steps runtime noTerms s _ ∧ _ := accept_spec hresult
          exact hspec.2 lease rfl
      | beginEngineApplication id owner step =>
          rw [serve, answer_snd]
          obtain ⟨_, hresult, ⟨⟩⟩ := of_answer hreply
          have hspec : Steps runtime noTerms s _ ∧ _ :=
            beginEngineApplication_spec (fun h ↦ absurd h not_false) hresult
          exact hspec.2 lease rfl
      | claimRead | claimAnalysis | claimDownload | claimConversion | admitEngineCompletion =>
          cases hcall
      | cancelAnalysesForTab | cancelDownloadForProgress | cancelOwnerReservations |
        cancelOwner | engineCompletions | sealAndRequestCancellation | drop | cancelToken |
        settleJob => cases hreply
      | _ =>
          obtain ⟨_, _, ⟨⟩⟩ := of_answer hreply

/-! ## Runs -/

/-- The registry before the `n`-th call of a run. -/
def registryAt (runtime : Runtime) (calls : ℕ → RegistryCall R) : ℕ → Registry R :=
  Trace.state (fun s call ↦ (s.serve runtime call).2) empty calls

def replyAt (runtime : Runtime) (calls : ℕ → RegistryCall R) (n : ℕ) : RegistryReply R :=
  ((registryAt runtime calls n).serve runtime (calls n)).1

section

variable (runtime) (calls : ℕ → RegistryCall R) {m n : ℕ}

theorem respects_empty (call : RegistryCall R) : call.Respects ∅ := by
  cases call <;> simp [RegistryCall.Respects]

theorem registryAt_succ (n : ℕ) :
    registryAt runtime calls (n + 1) =
      ((registryAt runtime calls n).serve runtime (calls n)).2 :=
  rfl

theorem registryAt_inv (n : ℕ) : (registryAt runtime calls n).Inv runtime := by
  refine Trace.state_invariant (inv_empty runtime) (fun {s} call hs ↦ ?_) n
  exact (serve_steps hs call (respects_empty call)).inv hs

theorem registryAt_steps (n : ℕ) (hkeys : (calls n).Respects keys) :
    Steps runtime ((registryAt runtime calls n).termsOf (calls n) keys)
      (registryAt runtime calls n) (registryAt runtime calls (n + 1)) :=
  serve_steps (registryAt_inv runtime calls n) (calls n) hkeys

theorem occupied_le_of_room (n : ℕ)
    (hroom : ∀ k < n, (registryAt runtime calls k).RoomFor (calls k)) :
    (registryAt runtime calls n).occupied ≤ maxAcceptedOperations := by
  induction n with
  | zero => exact Nat.zero_le _
  | succ n ih =>
      have hbefore := ih fun k hk ↦ hroom k (Nat.lt_succ_of_lt hk)
      have hsteps := registryAt_steps runtime calls n (respects_empty (calls n))
      exact hsteps.occupied_le (registryAt_inv runtime calls n) (hroom n (Nat.lt_succ_self n))
        hbefore

theorem keysApart_of_respects (n : ℕ) (hkeys : ∀ k < n, (calls k).Respects keys) :
    (registryAt runtime calls n).KeysApart keys := by
  induction n with
  | zero => exact keysApart_empty keys
  | succ n ih =>
      have hbefore := ih fun k hk ↦ hkeys k (Nat.lt_succ_of_lt hk)
      exact (registryAt_steps runtime calls n (hkeys n (Nat.lt_succ_self n))).keysApart hbefore

theorem spent_of_le (hmn : m ≤ n) (hspent : (registryAt runtime calls m).Spent runtime ticket) :
    (registryAt runtime calls n).Spent runtime ticket := by
  induction n, hmn using Nat.le_induction with
  | base => exact hspent
  | succ n _ ih => exact (registryAt_steps runtime calls n (respects_empty (calls n))).spent ih

/-- A claim that succeeds at some point spends the ticket from then on. -/
theorem claims_at (hcall : (calls n).claimed = some ticket)
    (hreply : (replyAt runtime calls n).newLease = some lease) :
    ¬(registryAt runtime calls n).Spent runtime ticket ∧
      (registryAt runtime calls (n + 1)).Spent runtime ticket := by
  have hinv := registryAt_inv runtime calls n
  exact (serve_claims hinv hcall hreply).spends hinv
    (registryAt_steps runtime calls n (respects_empty (calls n)))

theorem one_lease_per_ticket {lease' : OperationLease} (hm : (calls m).claimed = some ticket)
    (hn : (calls n).claimed = some ticket)
    (hlease : (replyAt runtime calls m).newLease = some lease)
    (hlease' : (replyAt runtime calls n).newLease = some lease') :
    m = n := by
  have hfirst := claims_at runtime calls hm hlease
  have hlast := claims_at runtime calls hn hlease'
  rcases lt_trichotomy m n with hmn | hmn | hmn
  · exact absurd (spent_of_le runtime calls hmn hfirst.2) hlast.1
  · exact hmn
  · exact absurd (spent_of_le runtime calls hmn hlast.2) hfirst.1

/-- A lease that was handed out and not dropped since keeps its entry. -/
theorem held_until_dropped (hmn : m < n)
    (hlease : (replyAt runtime calls m).newLease = some lease)
    (hkept : ∀ k, m < k → k < n → (calls k).dropped ≠ some lease) :
    (registryAt runtime calls n).Held lease := by
  have hout : lease ∈ (registryAt runtime calls n).leases := by
    induction n, hmn using Nat.le_induction with
    | base => exact (serve_newLease (registryAt_inv runtime calls m) hlease).2
    | succ n hmn ih =>
        have hbefore := ih fun k hmk hkn ↦ hkept k hmk (Nat.lt_succ_of_lt hkn)
        exact (registryAt_steps runtime calls n (respects_empty (calls n))).leases hbefore
          (hkept n hmn (Nat.lt_succ_self n))
  exact (registryAt_inv runtime calls n).held hout

theorem sealed_of_le (hmn : m ≤ n) (hsealed : (registryAt runtime calls m).sealed) :
    (registryAt runtime calls n).sealed := by
  induction n, hmn using Nat.le_induction with
  | base => exact hsealed
  | succ n _ ih => exact (registryAt_steps runtime calls n (respects_empty (calls n))).isSealed ih

theorem no_lease_when_sealed (hmn : m ≤ n) (hsealed : (registryAt runtime calls m).sealed) :
    (replyAt runtime calls n).newLease = none := by
  cases hlease : (replyAt runtime calls n).newLease with
  | none => rfl
  | some lease =>
      have hunsealed := (serve_newLease (registryAt_inv runtime calls n) hlease).1
      rw [sealed_of_le runtime calls hmn hsealed] at hunsealed
      cases hunsealed

end

/-! ### An acknowledgement that comes early

An installation has reported its outcome and still holds its slot, and all slots are in use,
when its acknowledgement starts. -/

namespace EarlyAcknowledgement

def plainRuntime : Runtime where
  uuid n := String.ofList (List.replicate n 'a')
  uuid_injective := by
    intro m n h
    simpa using congrArg String.length h
  parsesUuid _ := true
  order entries := entries
  order_perm _ := List.Perm.refl _

def request : EngineInstallRequest where
  intent := .add "engine"
  root := "root"
  progressId := "progress"
  url := "url"
  sha256 := "0123456789abcdef0123456789abcdef0123456789abcdef0123456789abcdef"
  signature := "signature"
  relativePath := "engine"
  name := "engine"
  version := "1"
  elo := none
  downloadSize := none

def calls (n : ℕ) : RegistryCall Unit :=
  if n = 0 then .prepare "main" .download 0
  else if n = 1 then
    .admitEngineCompletion "installation" "main" (plainRuntime.uuid 0) request 32 0
  else if n = 2 then .finishEngineCompletion "installation" (.error .cancellation)
  else if n < 130 then .accept "work"
  else if n = 130 then .beginEngineApplication "installation" "main" .acknowledgement
  else .engineCompletions "main"

/-- The registry while the slots fill up. -/
structure Filling (s : Registry Unit) (n : ℕ) : Prop where
  unsealed : s.sealed = false
  drawn : s.drawn = n
  size : s.accepted.size = n
  keys : ∀ id ∈ s.accepted, ∃ i < n, id = plainRuntime.uuid i
  held : plainRuntime.uuid 0 ∈ s.accepted
  completions : s.completions = (registryAt plainRuntime calls 3).completions

variable {s : Registry Unit} {n : ℕ}

theorem filling_start : Filling (registryAt plainRuntime calls 3) 1 where
  unsealed := by decide
  drawn := by decide
  size := by decide
  keys := by
    have hkeys : (registryAt plainRuntime calls 3).accepted.keys = [plainRuntime.uuid 0] := by
      decide
    intro id hid
    change id ∈ (registryAt plainRuntime calls 3).accepted.keys at hid
    rw [hkeys, List.mem_singleton] at hid
    exact ⟨0, Nat.zero_lt_one, hid⟩
  held := by decide
  completions := rfl

/-- The installation holds its slot, so that it does not count twice. -/
theorem Filling.occupied (h : Filling s n) : s.occupied = n := by
  have hoperations : ((registryAt plainRuntime calls 3).completions.entries.all fun entry ↦
      entry.2.operationId == plainRuntime.uuid 0) = true := by
    decide
  have hnone : s.completions.entries.filter s.waiting = [] := by
    rw [h.completions, List.filter_eq_nil_iff]
    intro entry hentry hwaiting
    have hid := List.all_eq_true.mp hoperations entry hentry
    rw [beq_iff_eq] at hid
    have hfree : entry.2.operationId ∉ s.accepted := (of_decide_eq_true hwaiting).2
    rw [hid] at hfree
    exact hfree h.held
  rw [Registry.occupied, hnone, h.size, List.length_nil, Nat.add_zero]

theorem Filling.accept (h : Filling s n) (hroom : n < maxAcceptedOperations) :
    Filling (s.accept plainRuntime "work").2 (n + 1) := by
  have hfresh : plainRuntime.uuid n ∉ s.accepted := by
    intro hmem
    obtain ⟨i, hi, hsame⟩ := h.keys _ hmem
    exact hi.ne' (plainRuntime.uuid_injective hsame)
  have hoccupied : Registry.occupied { s with drawn := s.drawn + 1 } = n := h.occupied
  have haccept : (s.accept plainRuntime "work").2 =
      Registry.addAccepted { s with drawn := s.drawn + 1 } (plainRuntime.uuid n)
        ⟨"", "work", false, none, none, none, false⟩ := by
    rw [Registry.accept, acceptInState, if_neg (by simp [h.unsealed]), hoccupied,
      if_neg (not_le.mpr hroom), h.drawn, if_neg hfresh]
  rw [haccept]
  exact
    { unsealed := h.unsealed
      drawn := congrArg (· + 1) h.drawn
      size := (AList.size_insert_of_notMem hfresh _).trans (congrArg (· + 1) h.size)
      keys := by
        intro id hid
        rcases (AList.mem_insert _).mp hid with rfl | hid
        · exact ⟨n, n.lt_succ_self, rfl⟩
        · obtain ⟨i, hi, hsame⟩ := h.keys id hid
          exact ⟨i, hi.trans n.lt_succ_self, hsame⟩
      held := (AList.mem_insert _).mpr (.inr h.held)
      completions := h.completions }

theorem filling_at (n : ℕ) (hn : n + 1 ≤ maxAcceptedOperations) :
    Filling (registryAt plainRuntime calls (n + 3)) (n + 1) := by
  induction n with
  | zero => exact filling_start
  | succ n ih =>
      have hbound : maxAcceptedOperations = 128 := rfl
      have hcall : calls (n + 3) = .accept "work" := by
        rw [calls, if_neg (by omega), if_neg (by omega), if_neg (by omega), if_pos (by omega)]
      rw [show n + 1 + 3 = n + 3 + 1 by omega, registryAt_succ, hcall, serve, answer_snd]
      exact (ih (by omega)).accept (by omega)

/-- With all slots in use, the acknowledgement takes another one. -/
theorem Filling.acknowledge (h : Filling s n) :
    n < (s.beginEngineApplication "installation" "main" .acknowledgement).2.occupied := by
  have hfree : "installation" ∉ s.accepted := by
    intro hmem
    obtain ⟨i, -, hsame⟩ := h.keys _ hmem
    have hletter : 'i' ∈ (plainRuntime.uuid i).toList := by
      rw [← hsame]
      decide
    rw [plainRuntime, String.toList_ofList] at hletter
    exact absurd (List.eq_of_mem_replicate hletter) (by decide)
  have hentry : ((s.completions.lookup "installation").map fun entry ↦
      (entry.owner, entry.unfinished, entry.job .acknowledgement)) =
        some ("main", false, none) := by
    rw [h.completions]
    decide
  obtain ⟨entry, hlookup, hfields⟩ := Option.map_eq_some_iff.mp hentry
  simp only [Prod.mk.injEq] at hfields
  obtain ⟨howner, hunfinished, hjob⟩ := hfields
  have hbegin : (s.beginEngineApplication "installation" "main" .acknowledgement).2.accepted =
      s.accepted.insert "installation"
        ⟨"main", "engine completion application", false, none, none, none, true⟩ := by
    simp [beginEngineApplication, acceptCompletionTailInState, hlookup, howner, hunfinished, hjob,
      h.unsealed, hfree, addAccepted, setCompletion]
  rw [Registry.occupied, hbegin, AList.size_insert_of_notMem hfree, h.size]
  omega

end EarlyAcknowledgement

end Registry

end EnCroissant.Infra

import Mathlib
import EnCroissant.Practice.Clients

/-!
# What the clients of a deck keep

Everything a client knows about the stored deck was the stored deck once, and is
it still if the counters agree.  A sync and a rating that was merged keep the
cards of the other positions; a rating at its first attempt keeps them if it
carries what its client knows to be committed.
-/

namespace EnCroissant.Practice

variable {C : Chessops} {Card ι : Type}

/-! ## Cards -/

theorem find?_replaceCard (key other : Text) (card : Card) (positions : List (Position Card)) :
    (replaceCard C key card positions).find? (fun position ↦ position.key C = other) =
      (positions.find? fun position ↦ position.key C = other).map fun position ↦
        if other = key then { position with card := card } else position := by
  induction positions with
  | nil => rfl
  | cons position positions ih =>
      by_cases hkey : position.key C = key
      · have hindex : indexOf C key (position :: positions) = 0 := by
          simp [indexOf, List.findIdx_cons, hkey]
        rw [replaceCard, hindex, List.modify_zero_cons]
        by_cases hother : position.key C = other
        · have hsame : other = key := hother.symm.trans hkey
          simp [Position.key, hsame, ← hkey]
        · have hne : other ≠ key := fun h ↦ hother (hkey.trans h.symm)
          have hother' : Position.key C { position with card := card } ≠ other := hother
          simp [hother, hother', hne]
      · have hindex : indexOf C key (position :: positions) = indexOf C key positions + 1 := by
          simp [indexOf, List.findIdx_cons, hkey]
        rw [replaceCard, hindex, List.modify_succ_cons]
        by_cases hother : position.key C = other
        · have hne : other ≠ key := fun h ↦ hkey (hother.trans h)
          simp [hother, hne]
        · simpa [List.find?_cons, hother, replaceCard] using ih

namespace Positions

theorem cardOf_setCard_of_ne (positions : Positions C Card) {key other : Text} (card : Card)
    (hne : other ≠ key) :
    (positions.setCard key card).cardOf other = positions.cardOf other := by
  simp only [cardOf, find, setCard, find?_replaceCard, if_neg hne, Option.map_id']

theorem find_eq_some_iff (positions : Positions C Card) {key : Text} {position : Position Card} :
    positions.find key = some position ↔ position ∈ positions.list ∧ position.key C = key := by
  constructor
  · intro h
    exact ⟨List.mem_of_find?_eq_some h, by simpa using List.find?_some h⟩
  · rintro ⟨hmem, hkey⟩
    cases hfind : positions.find key with
    | none =>
        have := List.find?_eq_none.mp hfind position hmem
        simp [hkey] at this
    | some found =>
        have hfound := List.mem_of_find?_eq_some hfind
        have hfoundKey : found.key C = key := by simpa using List.find?_some hfind
        have hsame := List.inj_on_of_nodup_map positions.distinct hfound hmem
          (hfoundKey.trans hkey.symm)
        rw [hsame]

theorem find?_reverse (positions : Positions C Card) (key : Text) :
    (positions.list.reverse.find? fun position ↦ position.key C = key) = positions.find key := by
  let reversed : Positions C Card :=
    ⟨positions.list.reverse, by
      rw [List.map_reverse]
      exact List.nodup_reverse.mpr positions.distinct⟩
  apply Option.ext
  intro position
  have h : reversed.find key = some position ↔
      position ∈ reversed.list ∧ position.key C = key :=
    reversed.find_eq_some_iff
  rw [positions.find_eq_some_iff, ← List.mem_reverse]
  exact h

theorem card_withCardOf (old : Positions C Card) (position : Position Card) :
    (withCardOf C old.list position).card =
      (old.cardOf (position.key C)).getD position.card := by
  unfold withCardOf
  rw [old.find?_reverse, cardOf]
  cases old.find (position.key C) <;> rfl

theorem cardOf_carryCards (old positions : Positions C Card) (key : Text) :
    (old.carryCards positions).cardOf key =
      (positions.cardOf key).map fun card ↦ (old.cardOf key).getD card := by
  have hfind : (old.carryCards positions).find key =
      (positions.find key).map (withCardOf C old.list) := by
    rw [find, carryCards, List.find?_map]
    simp only [Function.comp_def, key_withCardOf]
    rfl
  have hnew : (old.carryCards positions).cardOf key =
      ((positions.find key).map (withCardOf C old.list)).map Position.card :=
    congrArg (Option.map Position.card) hfind
  have hold : positions.cardOf key = (positions.find key).map Position.card := rfl
  rw [hnew, hold]
  cases hposition : positions.find key with
  | none => rfl
  | some position =>
      obtain rfl := (positions.find_eq_some_iff.mp hposition).2
      exact congrArg some (old.card_withCardOf position)

end Positions

/-! ## Calls and versions -/

/-- The positions of the stored deck under its two counters. -/
def deckVersion (deck : Option (StoredDeck (Positions C Card))) :
    Versioned (ℕ ×ₗ ℕ) (Positions C Card) :=
  match deck with
  | none => ⟨toLex (0, 0), .empty⟩
  | some deck => ⟨toLex (deck.generation, deck.revision), deck.positions⟩

def DeckValue.versioned (value : DeckValue C Card) : Versioned (ℕ ×ₗ ℕ) (Positions C Card) :=
  ⟨toLex (value.generation, value.revision), value.positions⟩

theorem versioned_deckFromLoad (deck : Option (StoredDeck (Positions C Card))) :
    (deckFromLoad deck).versioned = deckVersion deck := by
  cases deck <;> rfl

theorem deckCard_eq (deck : Option (StoredDeck (Positions C Card))) (key : Text) :
    deckCard deck key = (deckVersion deck).value.cardOf key := by
  cases deck <;> rfl

variable {deck : Option (StoredDeck (Positions C Card))}
  {now later : Versioned (ℕ ×ₗ ℕ) (Positions C Card)}

theorem deckVersion_version (deck : Option (StoredDeck (Positions C Card))) :
    (deckVersion deck).version = toLex (deckCounters deck) := by
  cases deck <;> rfl

/-- A call that writes makes a greater version. -/
theorem Served.version_lt {call : Call (Positions C Card)} {after : StoredDeck (Positions C Card)}
    (h : Served deck call after) :
    (deckVersion deck).version < (deckVersion (some after)).version := by
  rw [deckVersion_version, deckVersion_version]
  exact Prod.Lex.toLex_lt_toLex.mpr h.grown

/-! ## What the clients know -/

/-- What the call of the running write was made from. -/
def RunningWrite.AwaitsOk (now : Versioned (ℕ ×ₗ ℕ) (Positions C Card))
    (running : RunningWrite C Card) : Prop :=
  match running.stage with
  | .recording sourcePosition retry revision generation positions =>
      (retry = 0 ∧ generation = running.committed.generation ∧
          revision = running.committed.revision) ∨
        ∃ base card, Versioned.SeenBefore ⟨toLex (generation, revision), base⟩ now ∧
          positions = base.setCard (sourcePosition.key C) card
  | .syncing effectiveCommitted merged =>
      effectiveCommitted.versioned.SeenBefore now ∧
        ∃ positions, merged = mergedPositions effectiveCommitted.positions positions
  | _ => True

/-- What the deck was when the answer was given. -/
def RunningWrite.ReplyOk (now : Versioned (ℕ ×ₗ ℕ) (Positions C Card))
    (running : RunningWrite C Card) : Reply (Positions C Card) → Prop
  | .loaded deck => (deckVersion deck).SeenBefore now
  | .revision next =>
      match running.stage with
      | .recording _ _ _ generation positions =>
          Versioned.SeenBefore ⟨toLex (generation, next), positions⟩ now
      | .syncing effectiveCommitted merged =>
          Versioned.SeenBefore ⟨toLex (effectiveCommitted.generation, next), merged⟩ now
      | .resetting positions =>
          Versioned.SeenBefore ⟨toLex (running.committed.generation + 1, next), positions⟩ now
      | _ => True
  | _ => True

structure RunningWrite.Ok (now : Versioned (ℕ ×ₗ ℕ) (Positions C Card))
    (running : RunningWrite C Card) : Prop where
  committed : running.committed.versioned.SeenBefore now
  awaits : running.AwaitsOk now
  reply : ∀ reply, running.reply = some reply → running.ReplyOk now reply

structure Client.Ok (now : Versioned (ℕ ×ₗ ℕ) (Positions C Card)) (client : Client C Card) :
    Prop where
  committed : ∀ value, client.committed = some value → value.versioned.SeenBefore now
  running : ∀ running, client.running = some running → running.Ok now
  hydration : ∀ next, client.hydration = some (.loaded next) → next.status = .ready →
    next.versioned.SeenBefore now

/-- What the clients know is what the deck was once. -/
def System.Ok (s : System C Card ι) : Prop :=
  ∀ i, (s.clients i).Ok (deckVersion s.deck)

theorem RunningWrite.Ok.replace {running : RunningWrite C Card} (h : running.Ok now)
    (hlt : now.version < later.version) :
    running.Ok later := by
  refine ⟨h.committed.replace hlt, ?_, ?_⟩
  · have hawaits := h.awaits
    unfold RunningWrite.AwaitsOk at hawaits ⊢
    split at hawaits
    · rcases hawaits with hfirst | ⟨base, card, hseen, hpositions⟩
      · exact Or.inl hfirst
      · exact Or.inr ⟨base, card, hseen.replace hlt, hpositions⟩
    · exact ⟨hawaits.1.replace hlt, hawaits.2⟩
    · trivial
  · intro reply hreply
    have hok := h.reply reply hreply
    cases reply with
    | loaded deck => exact Versioned.SeenBefore.replace hok hlt
    | revision next =>
        simp only [RunningWrite.ReplyOk] at hok ⊢
        split at hok <;> first | exact Versioned.SeenBefore.replace hok hlt | trivial
    | conflict => trivial
    | failed => trivial

theorem Client.Ok.replace {client : Client C Card} (h : client.Ok now)
    (hlt : now.version < later.version) :
    client.Ok later where
  committed value hvalue := (h.committed value hvalue).replace hlt
  running running hrunning := (h.running running hrunning).replace hlt
  hydration next hnext hready := (h.hydration next hnext hready).replace hlt

/-! ## Requests and answers keep it -/

namespace Client

variable {client client' : Client C Card}

/-- A step after which the client knows no more than before. -/
theorem Ok.quiet (h : client.Ok now)
    (hcommitted : ∀ value, client'.committed = some value → client.committed = some value)
    (hrunning : client'.running = client.running)
    (hhydration : ∀ next, client'.hydration = some (.loaded next) →
      client.hydration = some (.loaded next)) :
    client'.Ok now where
  committed value hvalue := h.committed value (hcommitted value hvalue)
  running running hsome := h.running running (hrunning ▸ hsome)
  hydration next hnext := h.hydration next (hhydration next hnext)

theorem Ok.startHydration (h : client.Ok now) : client.startHydration.Ok now :=
  h.quiet (fun _ hvalue ↦ by cases hvalue) rfl (fun _ hnext ↦ by cases hnext)

theorem Ok.onMount (h : client.Ok now) (hstep : client.onMount = some client') :
    client'.Ok now := by
  rw [Client.onMount] at hstep
  split_ifs at hstep
  obtain rfl := Option.some.inj hstep
  exact h.startHydration.quiet (fun _ hvalue ↦ hvalue) rfl (fun _ hnext ↦ hnext)

theorem Ok.unmount (h : client.Ok now) (hstep : client.unmount = some client') :
    client'.Ok now := by
  rw [Client.unmount] at hstep
  split_ifs at hstep
  obtain rfl := Option.some.inj hstep
  exact h.quiet (fun _ hvalue ↦ hvalue) rfl (fun _ hnext ↦ by cases hnext)

theorem Ok.mutate {mutation : Mutation C Card} (h : client.Ok now)
    (hstep : client.mutate mutation = some client') :
    client'.Ok now := by
  unfold Client.mutate at hstep
  split_ifs at hstep
  cases mutation <;> obtain rfl := Option.some.inj hstep <;>
    exact h.quiet (fun _ hvalue ↦ hvalue) rfl (fun _ hnext ↦ hnext)

theorem Ok.rateCard {key : Text} {card : Card} (h : client.Ok now)
    (hstep : client.rateCard key card = some client') :
    client'.Ok now := by
  obtain ⟨sourcePosition, -, hstep⟩ := Option.bind_eq_some_iff.mp hstep
  exact h.mutate hstep

theorem Ok.syncTree {freshPositions : Positions C Card} (h : client.Ok now)
    (hstep : client.syncTree freshPositions = some client') :
    client'.Ok now := by
  unfold Client.syncTree at hstep
  dsimp only at hstep
  split_ifs at hstep
  exact h.mutate hstep

theorem Ok.syncFires (h : client.Ok now) (hstep : client.syncFires = some client') :
    client'.Ok now := by
  obtain ⟨write, -, rfl⟩ := Option.map_eq_some_iff.mp hstep
  exact h.quiet (fun _ hvalue ↦ hvalue) rfl (fun _ hnext ↦ hnext)

theorem Ok.settle {write : QueuedWrite C Card} {committed : Option (DeckValue C Card)}
    {writeBlocked : Bool} {shown : DeckValue C Card} (h : client.Ok now)
    (hcommitted : ∀ value, committed = some value → value.versioned.SeenBefore now) :
    (client.settle write committed writeBlocked shown).Ok now where
  committed := hcommitted
  running _ hrunning := by cases hrunning
  hydration next hnext := by
    obtain ⟨hydration, hhydration, hmatch⟩ := Option.map_eq_some_iff.mp hnext
    refine h.hydration next ?_
    rw [hhydration]
    split at hmatch
    · cases hmatch
    · rw [hmatch]

theorem Ok.startsWaiting (h : client.Ok now) {queue : List (QueuedWrite C Card)}
    {write : QueuedWrite C Card} {committed : DeckValue C Card} {stage : Stage C Card}
    (hcommitted : committed.versioned.SeenBefore now)
    (hawaits : RunningWrite.AwaitsOk now ⟨write, committed, stage, none⟩) :
    Client.Ok now { client with
      queue := queue, running := some ⟨write, committed, stage, none⟩ } where
  committed := h.committed
  running running hrunning := by
    obtain rfl := Option.some.inj hrunning
    exact ⟨hcommitted, hawaits, fun _ hreply ↦ by cases hreply⟩
  hydration := h.hydration

theorem Ok.hydrate {next : DeckValue C Card} (h : client.Ok now)
    (hnext : next.status = .ready → next.versioned.SeenBefore now)
    (hstep : client.hydrate next = some client') :
    client'.Ok now := by
  unfold Client.hydrate at hstep
  split at hstep
  · obtain rfl := Option.some.inj hstep
    refine ⟨h.committed, h.running, ?_⟩
    intro loaded hloaded
    obtain rfl := Hydration.loaded.inj (Option.some.inj hloaded)
    exact hnext
  · cases hstep

theorem Ok.completeHydration (h : client.Ok now)
    (hstep : client.completeHydration = some client') :
    client'.Ok now := by
  unfold Client.completeHydration at hstep
  split at hstep
  · rename_i next hhydration
    obtain rfl := Option.some.inj hstep
    refine ⟨?_, h.running, fun _ hloaded ↦ by cases hloaded⟩
    intro value hvalue
    dsimp only at hvalue
    split_ifs at hvalue with hready
    obtain rfl := Option.some.inj hvalue
    exact h.hydration next hhydration hready
  · cases hstep

theorem Ok.answered {running : RunningWrite C Card} {reply : Reply (Positions C Card)}
    (h : client.Ok now) (hrunning : client.running = some running)
    (hreply : running.ReplyOk now reply) :
    (client.answered running reply).Ok now where
  committed := h.committed
  running next hnext := by
    obtain rfl := Option.some.inj hnext
    refine ⟨(h.running running hrunning).committed, (h.running running hrunning).awaits, ?_⟩
    intro answer hanswer
    obtain rfl := Option.some.inj hanswer
    exact hreply
  hydration := h.hydration

section Running

variable [DecidableEq Card]

theorem Ok.startWrite (h : client.Ok now) (hstep : client.startWrite = some client') :
    client'.Ok now := by
  unfold Client.startWrite at hstep
  split at hstep
  · rename_i write queue hrunning hqueue
    have hquiet : ({ client with queue := queue } : Client C Card).Ok now :=
      h.quiet (fun _ hvalue ↦ hvalue) rfl (fun _ hnext ↦ hnext)
    dsimp only at hstep
    split_ifs at hstep
    · obtain rfl := Option.some.inj hstep
      exact hquiet.settle hquiet.committed
    · split at hstep
      · obtain rfl := Option.some.inj hstep
        exact hquiet.settle hquiet.committed
      · rename_i committed hcommitted
        have hseen := h.committed committed hcommitted
        split at hstep
        · obtain rfl := Option.some.inj hstep
          exact h.startsWaiting hseen (Or.inl ⟨rfl, rfl, rfl⟩)
        · obtain rfl := Option.some.inj hstep
          exact h.startsWaiting hseen trivial
        · split_ifs at hstep
          · obtain rfl := Option.some.inj hstep
            refine hquiet.settle fun value hvalue ↦ ?_
            obtain rfl := Option.some.inj hvalue
            exact hseen
          · obtain rfl := Option.some.inj hstep
            exact h.startsWaiting hseen trivial
          · obtain rfl := Option.some.inj hstep
            exact h.startsWaiting hseen ⟨hseen, _, rfl⟩
  · cases hstep

end Running

end Client

section Running

variable [DecidableEq Card]

/-- A continuation goes on from, or ends with, what the deck was. -/
def Continuation.Ok (now : Versioned (ℕ ×ₗ ℕ) (Positions C Card)) (running : RunningWrite C Card) :
    Continuation C Card → Prop
  | .await stage => RunningWrite.AwaitsOk now { running with stage := stage, reply := none }
  | .saved next => next.versioned.SeenBefore now
  | .dropped deck => deck.versioned.SeenBefore now
  | .failed => True

theorem mergeRating_ok {running : RunningWrite C Card} {sourcePosition : Position Card} {retry : ℕ}
    {positions : Positions C Card} {reloaded : StoredDeck (Positions C Card)}
    (hseen : (deckVersion (some reloaded)).SeenBefore now) :
    (mergeRating running.committed sourcePosition retry positions reloaded).Ok now running := by
  have hdropped : (deckFromLoad (some reloaded)).versioned.SeenBefore now := hseen
  unfold mergeRating
  dsimp only
  split_ifs
  · exact hdropped
  · split
    · split_ifs
      · exact Or.inr ⟨reloaded.positions, _, hseen, rfl⟩
      · exact hdropped
    · exact hdropped

theorem RunningWrite.Ok.resume {running : RunningWrite C Card} (h : running.Ok now)
    {reply : Reply (Positions C Card)} (hreply : running.reply = some reply) :
    (running.resume reply).Ok now running := by
  have hok := h.reply reply hreply
  unfold RunningWrite.resume
  split
  · rename_i hstage
    simp only [RunningWrite.ReplyOk, hstage] at hok
    exact hok
  · split_ifs
    · trivial
    · trivial
  · exact mergeRating_ok hok
  · rename_i deck hstage
    have hseen : (deckFromLoad deck).versioned.SeenBefore now := by
      rw [versioned_deckFromLoad]
      exact hok
    exact ⟨hseen, _, rfl⟩
  · rename_i hstage
    simp only [RunningWrite.ReplyOk, hstage] at hok
    exact hok
  · rename_i hstage
    simp only [RunningWrite.ReplyOk, hstage] at hok
    exact hok
  · trivial

namespace Client

variable {client client' : Client C Card}

theorem Ok.resumeWrite (h : client.Ok now) (hstep : client.resumeWrite = some client') :
    client'.Ok now := by
  obtain ⟨running, hrunning, hstep⟩ := Option.bind_eq_some_iff.mp hstep
  obtain ⟨reply, hreply, hstep⟩ := Option.map_eq_some_iff.mp hstep
  have hcontinuation := (h.running running hrunning).resume hreply
  cases hresume : running.resume reply with
  | await stage =>
      rw [hresume] at hstep hcontinuation
      obtain rfl := hstep
      refine ⟨h.committed, ?_, h.hydration⟩
      intro next hnext
      obtain rfl := Option.some.inj hnext
      exact ⟨(h.running running hrunning).committed, hcontinuation,
        fun _ hreply ↦ by cases hreply⟩
  | saved next =>
      rw [hresume] at hstep hcontinuation
      obtain rfl := hstep
      refine h.settle fun value hvalue ↦ ?_
      obtain rfl := Option.some.inj hvalue
      exact hcontinuation
  | dropped deck =>
      rw [hresume] at hstep hcontinuation
      obtain rfl := hstep
      refine h.settle fun value hvalue ↦ ?_
      obtain rfl := Option.some.inj hvalue
      exact hcontinuation
  | failed =>
      rw [hresume] at hstep
      obtain rfl := hstep
      exact h.settle h.committed

end Client

end Running

/-! ## Steps of the system -/

theorem Served.replyOk {running : RunningWrite C Card} {after : StoredDeck (Positions C Card)}
    (h : Served deck running.call after) :
    running.ReplyOk (deckVersion (some after)) (.revision after.revision) := by
  have hwrites := h.writes
  simp only [RunningWrite.ReplyOk]
  simp only [RunningWrite.call] at hwrites
  cases hstage : running.stage with
  | recording sourcePosition retry revision generation positions =>
      simp only [hstage] at hwrites ⊢
      obtain ⟨-, -, hgeneration, hpositions⟩ := Call.writes_record.mp hwrites
      rw [← hgeneration, ← hpositions]
      exact Versioned.SeenBefore.refl _
  | reloading sourcePosition retry positions => trivial
  | loading positions => trivial
  | syncing effectiveCommitted merged =>
      simp only [hstage] at hwrites ⊢
      obtain ⟨-, -, hgeneration, hpositions⟩ := Call.writes_sync.mp hwrites
      rw [← hgeneration, ← hpositions]
      exact Versioned.SeenBefore.refl _
  | resetting positions =>
      simp only [hstage] at hwrites ⊢
      obtain ⟨-, -, hgeneration, hpositions⟩ := Call.writes_reset.mp hwrites
      rw [← hgeneration, ← hpositions]
      exact Versioned.SeenBefore.refl _

theorem System.waitingWrite_eq_some {s : System C Card ι} {i : ι} {running : RunningWrite C Card}
    (h : s.waitingWrite i = some running) :
    (s.clients i).running = some running ∧ running.reply = none := by
  obtain ⟨found, hrunning, hfound⟩ := Option.bind_eq_some_iff.mp h
  split_ifs at hfound with hreply
  obtain rfl := Option.some.inj hfound
  exact ⟨hrunning, Option.isNone_iff_eq_none.mp hreply⟩

variable [DecidableEq ι]

namespace System

variable {s s' : System C Card ι} {i : ι}

theorem Ok.withClient {client : Client C Card} (h : s.Ok)
    (hclient : client.Ok (deckVersion s.deck)) :
    (s.withClient i client).Ok := by
  intro j
  by_cases hj : j = i
  · subst hj
    have hself : (s.withClient j client).clients j = client := Function.update_self ..
    rw [hself]
    exact hclient
  · have hother : (s.withClient i client).clients j = s.clients j := Function.update_of_ne hj ..
    rw [hother]
    exact h j

theorem Ok.ofMap {next : Option (Client C Card)} (h : s.Ok)
    (hnext : ∀ client, next = some client → client.Ok (deckVersion s.deck))
    (hstep : next.map (s.withClient i) = some s') :
    s'.Ok := by
  obtain ⟨client, hclient, rfl⟩ := Option.map_eq_some_iff.mp hstep
  exact h.withClient (hnext client hclient)

theorem Ok.serveCall {running : RunningWrite C Card} {lost : Bool} (h : s.Ok)
    (hrunning : (s.clients i).running = some running) :
    (s.serveCall i running lost).Ok := by
  intro j
  have hothers : ∀ {now : Versioned (ℕ ×ₗ ℕ) (Positions C Card)},
      (∀ j, (s.clients j).Ok now) →
      running.ReplyOk now (if lost then .failed else (serve s.deck running.call).2) →
      ((s.serveCall i running lost).clients j).Ok now := by
    intro now hall hreply
    by_cases hj : j = i
    · subst hj
      have hself : (s.serveCall j running lost).clients j = (s.clients j).answered running
          (if lost then .failed else (serve s.deck running.call).2) :=
        Function.update_self ..
      rw [hself]
      exact (hall j).answered hrunning hreply
    · have hother : (s.serveCall i running lost).clients j = s.clients j :=
        Function.update_of_ne hj ..
      rw [hother]
      exact hall j
  have hdeck : (s.serveCall i running lost).deck = (serve s.deck running.call).1 := rfl
  rw [hdeck]
  rcases serve_cases s.deck running.call with ⟨after, hserved⟩ | ⟨reply, hserve, hreply⟩
  · rw [hserved.served]
    refine hothers (fun j ↦ (h j).replace hserved.version_lt) ?_
    rw [hserved.served]
    split_ifs
    · trivial
    · exact hserved.replyOk
  · rw [hserve]
    refine hothers h ?_
    rw [hserve]
    split_ifs
    · trivial
    · rcases hreply with rfl | rfl | rfl
      · exact Versioned.SeenBefore.refl _
      · trivial
      · trivial

theorem Ok.step [DecidableEq Card] {a : Action C Card} (h : s.Ok) (hstep : s.step i a = some s') : s'.Ok := by
  cases a with
  | mount => exact h.ofMap (fun _ ↦ (h i).onMount) hstep
  | unmount => exact h.ofMap (fun _ ↦ (h i).unmount) hstep
  | retry =>
      obtain rfl := Option.some.inj hstep
      exact h.withClient (h i).startHydration
  | rate positionKey card => exact h.ofMap (fun _ ↦ (h i).rateCard) hstep
  | sync freshPositions => exact h.ofMap (fun _ ↦ (h i).syncTree) hstep
  | reset cards => exact h.ofMap (fun _ ↦ (h i).mutate) hstep
  | syncFires => exact h.ofMap (fun _ ↦ (h i).syncFires) hstep
  | startWrite => exact h.ofMap (fun _ ↦ (h i).startWrite) hstep
  | serve lost =>
      obtain ⟨running, hwaiting, rfl⟩ := Option.map_eq_some_iff.mp hstep
      exact h.serveCall (waitingWrite_eq_some hwaiting).1
  | refuse conflict =>
      obtain ⟨running, hwaiting, rfl⟩ := Option.map_eq_some_iff.mp hstep
      refine h.withClient ((h i).answered (waitingWrite_eq_some hwaiting).1 ?_)
      split_ifs <;> trivial
  | resumeWrite => exact h.ofMap (fun _ ↦ (h i).resumeWrite) hstep
  | hydrate fails =>
      refine h.ofMap (fun _ ↦ (h i).hydrate fun hready ↦ ?_) hstep
      split_ifs at hready ⊢
      · cases hready
      · rw [versioned_deckFromLoad]
        exact Versioned.SeenBefore.refl _
  | completeHydration => exact h.ofMap (fun _ ↦ (h i).completeHydration) hstep

end System

/-! ## Saved cards stay -/

def acceptsRecord (deck : Option (StoredDeck (Positions C Card))) (generation revision : ℕ) :
    Bool :=
  deck.any fun d ↦ d.generation = generation ∧ d.revision = revision ∧ d.revision < u32Max

/-- A rating whose first attempt is about to be accepted carries, for every other
position, the card that its client knows to be committed. -/
def RunningWrite.CarriesCommitted (deck : Option (StoredDeck (Positions C Card)))
    (running : RunningWrite C Card) : Prop :=
  match running.stage with
  | .recording sourcePosition 0 revision generation positions =>
      acceptsRecord deck generation revision →
        ∀ position ∈ running.committed.positions.list,
          position.key C ≠ sourcePosition.key C →
            positions.cardOf (position.key C) = some position.card
  | _ => True

def CarriesCommitted (s : System C Card ι) (a : ι × Action C Card) : Prop :=
  match a.2, s.waitingWrite a.1 with
  | .serve _, some running => running.CarriesCommitted s.deck
  | _, _ => True

instance [DecidableEq Card] (deck : Option (StoredDeck (Positions C Card)))
    (running : RunningWrite C Card) : Decidable (running.CarriesCommitted deck) := by
  unfold RunningWrite.CarriesCommitted
  split <;> infer_instance

instance [DecidableEq Card] (s : System C Card ι) (a : ι × Action C Card) :
    Decidable (CarriesCommitted s a) := by
  unfold CarriesCommitted
  split <;> infer_instance

def clientMachine [DecidableEq Card] : Machine (System C Card ι) (ι × Action C Card) where
  init s := (∀ i, s.clients i = createController) ∧ ∀ key, s.saved key = none
  step s a s' := s.step a.1 a.2 = some s'

/-- The card of a rating that was recorded is in the deck. -/
def System.SavedKept (s : System C Card ι) : Prop :=
  ∀ key card, s.saved key = some card → deckCard s.deck key = some card

omit [DecidableEq ι] in
theorem Served.acceptsRecord {generation revision : ℕ} {positions : Positions C Card}
    {after : StoredDeck (Positions C Card)}
    (h : Served deck (.record generation revision positions) after) :
    Practice.acceptsRecord deck generation revision := by
  obtain ⟨hgeneration, hrevision, -, -⟩ := Call.writes_record.mp h.writes
  cases deck with
  | none => cases h.served
  | some d =>
      obtain rfl : d.generation = generation := hgeneration
      obtain rfl : d.revision = revision := hrevision
      have hserved := h.served
      simp only [serve, serveRecord, replaceDeck] at hserved
      split_ifs at hserved with hlimit
      · cases hserved
      · have hlimit : d.revision < u32Max := by simpa using hlimit
        simp [Practice.acceptsRecord, hlimit]

omit [DecidableEq ι] in
theorem DeckValue.positions_eq {value : DeckValue C Card} {generation revision : ℕ}
    (h : value.versioned.SeenBefore (deckVersion deck))
    (hgeneration : generation = value.generation) (hrevision : revision = value.revision)
    (hcounters : deckCounters deck = (generation, revision)) :
    value.positions = (deckVersion deck).value := by
  refine h.value_eq ?_
  rw [deckVersion_version, hcounters, hgeneration, hrevision]
  rfl

/-- What a write that was accepted keeps of the cards that were saved. -/
theorem Served.savedKept {running : RunningWrite C Card} {after : StoredDeck (Positions C Card)}
    {saved : Text → Option Card} (h : Served deck running.call after)
    (hok : running.Ok (deckVersion deck)) (hreply : running.reply = none)
    (hcarries : running.CarriesCommitted deck)
    (hkept : ∀ key card, saved key = some card → deckCard deck key = some card) (key : Text)
    (card : Card) (hsaved : savedAfter saved (some after) running.stage key = some card) :
    deckCard (some after) key = some card := by
  have hwrites := h.writes
  have hserved := h
  have hawaits := hok.awaits
  obtain ⟨write, committed, stage, reply⟩ := running
  cases stage with
  | recording sourcePosition retry revision generation positions =>
      obtain ⟨hgeneration, hrevision, -, hpositions⟩ := Call.writes_record.mp hwrites
      have hcounters : deckCounters deck = (generation, revision) :=
        Prod.ext hgeneration hrevision
      simp only [savedAfter] at hsaved
      split_ifs at hsaved with hkey
      · exact hsaved
      · have hcard := hkept key card hsaved
        rw [deckCard_eq] at hcard ⊢
        have hafter : (deckVersion (some after)).value = positions := hpositions
        rw [hafter]
        rcases hawaits with ⟨rfl, hsameGeneration, hsameRevision⟩ | ⟨base, newCard, hseen, rfl⟩
        · rw [← DeckValue.positions_eq hok.committed hsameGeneration hsameRevision hcounters]
            at hcard
          obtain ⟨position, hfind, rfl⟩ := Option.map_eq_some_iff.mp hcard
          obtain ⟨hmem, rfl⟩ := (Positions.find_eq_some_iff _).mp hfind
          exact hcarries hserved.acceptsRecord position hmem hkey
        · have hbase : base = (deckVersion deck).value := by
            refine hseen.value_eq ?_
            rw [deckVersion_version, hcounters]
          rw [Positions.cardOf_setCard_of_ne _ _ hkey, hbase]
          exact hcard
  | reloading sourcePosition retry positions => exact absurd hwrites Call.not_writes_load
  | loading positions => exact absurd hwrites Call.not_writes_load
  | syncing effectiveCommitted merged =>
      obtain ⟨hgeneration, hrevision, -, hpositions⟩ := Call.writes_sync.mp hwrites
      obtain ⟨hseen, positions, rfl⟩ := hawaits
      have hcommitted := DeckValue.positions_eq hseen rfl rfl (Prod.ext hgeneration hrevision)
      simp only [savedAfter] at hsaved
      split_ifs at hsaved with hstays
      have hcard := hkept key card hsaved
      have hafter : (deckVersion (some after)).value =
          mergedPositions effectiveCommitted.positions positions := hpositions
      rw [deckCard_eq] at hcard hstays ⊢
      rw [hafter, mergedPositions, Positions.cardOf_carryCards] at hstays ⊢
      rw [hcommitted, hcard] at hstays ⊢
      obtain ⟨old, hold⟩ := Option.isSome_iff_exists.mp hstays
      obtain ⟨fresh, hfresh, -⟩ := Option.map_eq_some_iff.mp hold
      rw [hfresh]
      rfl
  | resetting positions => cases hsaved

theorem System.SavedKept.serveCall {s : System C Card ι} {i : ι} {running : RunningWrite C Card}
    {lost : Bool} (hkept : s.SavedKept) (hok : s.Ok) (hwaiting : s.waitingWrite i = some running)
    (hcarries : running.CarriesCommitted s.deck) :
    (s.serveCall i running lost).SavedKept := by
  obtain ⟨hrunning, hreply⟩ := System.waitingWrite_eq_some hwaiting
  intro key card hsaved
  have hdeck : (s.serveCall i running lost).deck = (serve s.deck running.call).1 := rfl
  simp only [System.serveCall] at hsaved
  rw [hdeck]
  rcases serve_cases s.deck running.call with ⟨after, hserved⟩ | ⟨reply, hserve, hanswer⟩
  · rw [hserved.served] at hsaved ⊢
    exact hserved.savedKept ((hok i).running running hrunning) hreply hcarries hkept key card
      hsaved
  · rw [hserve] at hsaved ⊢
    rcases hanswer with rfl | rfl | rfl <;> exact hkept key card hsaved

variable [DecidableEq Card]

theorem clientMachine_ok :
    (clientMachine : Machine (System C Card ι) (ι × Action C Card)).Invariant
      (fun _ _ ↦ True) System.Ok where
  init := by
    intro s hinit i
    rw [hinit.1 i]
    exact ⟨(fun _ h ↦ by cases h), (fun _ h ↦ by cases h), (fun _ h ↦ by cases h)⟩
  step hok _ hstep := hok.step hstep

theorem System.SavedKept.step {s s' : System C Card ι} {i : ι} {a : Action C Card}
    (hkept : s.SavedKept) (hok : s.Ok) (hcarries : CarriesCommitted s (i, a))
    (hstep : s.step i a = some s') :
    s'.SavedKept := by
  have hquiet : ∀ {next : Option (Client C Card)}, next.map (s.withClient i) = some s' →
      s'.SavedKept := by
    intro next hnext
    obtain ⟨client, -, rfl⟩ := Option.map_eq_some_iff.mp hnext
    exact hkept
  cases a with
  | retry =>
      obtain rfl := Option.some.inj hstep
      exact hkept
  | serve lost =>
      obtain ⟨running, hwaiting, rfl⟩ := Option.map_eq_some_iff.mp hstep
      refine hkept.serveCall hok hwaiting ?_
      simpa only [CarriesCommitted, hwaiting] using hcarries
  | refuse conflict =>
      obtain ⟨running, -, rfl⟩ := Option.map_eq_some_iff.mp hstep
      exact hkept
  | _ => exact hquiet hstep

/-- In every run whose accepted first attempts carry the committed cards, the card
of a rating that was recorded stays until the position is rated again, a reset,
or a sync that removes the position. -/
theorem saved_cards_kept {s : System C Card ι}
    (h : clientMachine.ReachableBy CarriesCommitted s) {key : Text} {card : Card}
    (hsaved : s.saved key = some card) :
    deckCard s.deck key = some card := by
  have hinv : (clientMachine : Machine (System C Card ι) (ι × Action C Card)).Invariant
      CarriesCommitted (fun s ↦ s.Ok ∧ s.SavedKept) := by
    refine ⟨?_, ?_⟩
    · intro s hinit
      refine ⟨clientMachine_ok.init hinit, fun key card hsaved ↦ ?_⟩
      rw [hinit.2 key] at hsaved
      cases hsaved
    · intro s a s' hs hcarries hstep
      exact ⟨clientMachine_ok.step hs.1 trivial hstep, hs.2.step hs.1 hcarries hstep⟩
  exact (hinv.reachable h).2 key card hsaved

/-! ## Two clients of a deck with two positions -/

namespace TwoClients

abbrev DeckPositions := Positions KingPawn.chessops ℕ

abbrev Step := Bool × Action KingPawn.chessops ℕ

def firstPosition : Position ℕ := ⟨KingPawn.Game.start.fen, ['e', '4'], 0⟩

def secondPosition : Position ℕ := ⟨KingPawn.Game.openGame.fen, ['N', 'f', '3'], 0⟩

def positions : DeckPositions where
  list := [firstPosition, secondPosition]
  distinct := by decide

def start : System KingPawn.chessops ℕ Bool :=
  ⟨some ⟨1, 0, positions⟩, fun _ ↦ createController, fun _ ↦ none⟩

def first : Text := firstPosition.key KingPawn.chessops

def second : Text := secondPosition.key KingPawn.chessops

/-- Both clients load the deck. -/
def loads : List Step :=
  [(false, .mount), (true, .mount), (false, .hydrate false), (true, .hydrate false),
    (false, .completeHydration), (true, .completeHydration)]

/-- The next answer of the store, and what the client makes of it. -/
def answer (i : Bool) : List Step := [(i, .serve false), (i, .resumeWrite)]

def runs (i : Bool) : List Step := (i, .startWrite) :: answer i

/-- One client rates the second position while the other has rated the first one:
the second write finds a newer deck, loads it and is recorded on it. -/
def merges : List Step :=
  loads ++ [(false, .rate first 1), (true, .rate second 1)] ++ runs true ++ runs false ++
    answer false ++ answer false

/-- The same, with a second rating of the first position in the queue. -/
def overwrites : List Step :=
  loads ++ [(false, .rate first 1), (false, .rate first 2), (true, .rate second 1)] ++
    runs true ++ runs false ++ answer false ++ answer false ++ runs false

theorem start_init : clientMachine.init start := ⟨fun _ ↦ rfl, fun _ ↦ rfl⟩

/-- After a merge the next rating still carries the cards that were displayed
before it. -/
theorem stale_rating_restores_card :
    ¬∀ s : System KingPawn.chessops ℕ Bool, clientMachine.Reachable s → s.SavedKept := by
  intro hall
  have hrun : (overwrites.foldlM
      (fun s a ↦ if True then s.step a.1 a.2 else none) start).any
        (fun s ↦ s.saved second = some 1 ∧ deckCard s.deck second = some 0) = true := by
    decide
  obtain ⟨s, hs, hcards⟩ := (Option.any_eq_true _ _).mp hrun
  have hcards := of_decide_eq_true hcards
  have hreachable : clientMachine.Reachable s :=
    ⟨start, start_init, Machine.RunOf.of_foldlM (fun h ↦ h) hs⟩
  have hkept := hall s hreachable second 1 hcards.1
  rw [hcards.2] at hkept
  cases hkept

theorem saved_cards_kept_merges :
    ∃ s : System KingPawn.chessops ℕ Bool, clientMachine.ReachableBy CarriesCommitted s ∧
      s.saved second = some 1 ∧ deckCard s.deck second = some 1 := by
  have hrun : (merges.foldlM
      (fun s a ↦ if CarriesCommitted s a then s.step a.1 a.2 else none) start).any
        (fun s ↦ s.saved second = some 1) = true := by
    decide
  obtain ⟨s, hs, hsaved⟩ := (Option.any_eq_true _ _).mp hrun
  have hsaved := of_decide_eq_true hsaved
  have hreachable : clientMachine.ReachableBy CarriesCommitted s :=
    ⟨start, start_init, Machine.RunOf.of_foldlM (fun h ↦ h) hs⟩
  exact ⟨s, hreachable, hsaved, saved_cards_kept hreachable hsaved⟩

end TwoClients

end EnCroissant.Practice

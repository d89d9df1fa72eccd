import Mathlib
import EnCroissant.Library.Machine
import EnCroissant.Practice.NativeDeck
import EnCroissant.Tree.Node

/-!
# The clients of a practice deck

A client displays the deck and queues its mutations, which are built from what
it displays.  The queue runs one mutation at a time against the deck the client
knows to be committed; the stored deck answers calls of all clients.
-/

namespace EnCroissant.Practice

def practiceMaxConflictRetries : ℕ := 2

variable (C : Chessops) {Card : Type}

/-! ## Positions -/

structure Position (Card : Type) where
  fen : Text
  answer : Text
  card : Card
  deriving DecidableEq

def Position.key (position : Position Card) : Text := getBoardState C position.fen

def indexOf (key : Text) (positions : List (Position Card)) : ℕ :=
  positions.findIdx fun position ↦ position.key C = key

/-- The positions with the card of one of them replaced. -/
def replaceCard (key : Text) (card : Card) (positions : List (Position Card)) :
    List (Position Card) :=
  positions.modify (indexOf C key positions) fun position ↦ { position with card := card }

/-- The position with the card that the last old one of its key has. -/
def withCardOf (old : List (Position Card)) (position : Position Card) : Position Card :=
  match old.reverse.find? fun previous ↦ previous.key C = position.key C with
  | some previous => { position with card := previous.card }
  | none => position

theorem keys_replaceCard (key : Text) (card : Card) (positions : List (Position Card)) :
    (replaceCard C key card positions).map (Position.key C) =
      positions.map (Position.key C) := by
  apply List.ext_getElem
  · simp only [replaceCard, List.length_map, List.length_modify]
  · intro i hleft hright
    simp only [replaceCard, List.getElem_map, List.getElem_modify]
    split_ifs <;> rfl

theorem key_withCardOf (old : List (Position Card)) (position : Position Card) :
    (withCardOf C old position).key C = position.key C := by
  unfold withCardOf
  split <;> rfl

theorem keys_withCardOf (old positions : List (Position Card)) :
    (positions.map (withCardOf C old)).map (Position.key C) =
      positions.map (Position.key C) := by
  rw [List.map_map]
  exact List.map_congr_left fun position _ ↦ key_withCardOf C old position

/-- The positions of a deck: one for each board state, as `buildFromTree` and
`syncDeck` make them. -/
structure Positions (Card : Type) where
  list : List (Position Card)
  distinct : (list.map (Position.key C)).Nodup

namespace Positions

variable {C}

def empty : Positions C Card := ⟨[], List.nodup_nil⟩

/-- The position of a board state. -/
def find (positions : Positions C Card) (key : Text) : Option (Position Card) :=
  positions.list.find? fun position ↦ position.key C = key

def cardOf (positions : Positions C Card) (key : Text) : Option Card :=
  (positions.find key).map Position.card

/-- What `updateCardPerformance` and the merge after a conflict do to the cards. -/
def setCard (positions : Positions C Card) (key : Text) (card : Card) : Positions C Card where
  list := replaceCard C key card positions.list
  distinct := by
    rw [keys_replaceCard]
    exact positions.distinct

def carryCards (old positions : Positions C Card) : Positions C Card where
  list := positions.list.map (withCardOf C old.list)
  distinct := by
    rw [keys_withCardOf]
    exact positions.distinct

end Positions

/-- The positions of the tree with the cards of the existing deck. -/
def syncDeck {C : Chessops} (existing freshPositions : Positions C Card) : Positions C Card :=
  existing.carryCards freshPositions

/-- The positions to be stored with the cards that are committed. -/
def mergedPositions {C : Chessops} (effectiveCommitted positions : Positions C Card) :
    Positions C Card :=
  effectiveCommitted.carryCards positions

/-! ## What a client holds -/

inductive DeckStatus where
  | loading
  | ready
  | writePending
  | writeBlocked
  | readFailed
  deriving DecidableEq, Repr

structure DeckValue (Card : Type) where
  positions : Positions C Card
  revision : ℕ
  generation : ℕ
  status : DeckStatus

inductive Mutation (Card : Type) where
  | rating (positions : Positions C Card) (sourcePosition : Position Card)
  | sync (positions : Positions C Card)
  | reset (positions : Positions C Card)

/-- A mutation, with the request it was made in and what was displayed for it. -/
structure QueuedWrite (Card : Type) where
  mutation : Mutation C Card
  sequence : ℕ
  pending : DeckValue C Card

/-- What the running write waits for. -/
inductive Stage (Card : Type) where
  | recording (sourcePosition : Position Card) (retry revision generation : ℕ)
      (positions : Positions C Card)
  | reloading (sourcePosition : Position Card) (retry : ℕ) (positions : Positions C Card)
  | loading (positions : Positions C Card)
  | syncing (effectiveCommitted : DeckValue C Card) (mergedPositions : Positions C Card)
  | resetting (positions : Positions C Card)

structure RunningWrite (Card : Type) where
  write : QueuedWrite C Card
  committed : DeckValue C Card
  stage : Stage C Card
  reply : Option (Reply (Positions C Card))

/-- A load of the deck: the writes it waits for, or what it read. -/
inductive Hydration (Card : Type) where
  | waiting (writes : ℕ)
  | loaded (next : DeckValue C Card)

structure Client (Card : Type) where
  mounted : Bool
  display : DeckValue C Card
  requestSequence : ℕ
  writeBlocked : Bool
  committed : Option (DeckValue C Card)
  syncTimer : Option (QueuedWrite C Card)
  queue : List (QueuedWrite C Card)
  running : Option (RunningWrite C Card)
  hydration : Option (Hydration C Card)

variable {C}

def Mutation.positions : Mutation C Card → Positions C Card
  | .rating positions _ => positions
  | .sync positions => positions
  | .reset positions => positions

def QueuedWrite.syncGeneration (write : QueuedWrite C Card) : ℕ := write.pending.generation

def emptyDeck (status : DeckStatus) : DeckValue C Card := ⟨.empty, 0, 0, status⟩

def deckFromLoad : Option (StoredDeck (Positions C Card)) → DeckValue C Card
  | some deck => ⟨deck.positions, deck.revision, deck.generation, .ready⟩
  | none => emptyDeck .ready

def readyState (value : DeckValue C Card) (positions : Positions C Card) : DeckValue C Card :=
  { value with positions := positions, status := .ready }

def writeFailureState (current : DeckValue C Card) : DeckValue C Card :=
  { current with status := .writeBlocked }

def failureState (current : DeckValue C Card) : DeckValue C Card :=
  { current with status := .readFailed }

def createController : Client C Card where
  mounted := false
  display := emptyDeck .loading
  requestSequence := 0
  writeBlocked := false
  committed := none
  syncTimer := none
  queue := []
  running := none
  hydration := none

/-! ## Requests -/

namespace Client

def startHydration (client : Client C Card) : Client C Card :=
  { client with
    requestSequence := client.requestSequence + 1
    writeBlocked := false
    committed := none
    display := emptyDeck .loading
    hydration := some (.waiting (client.queue.length + client.running.toList.length)) }

def onMount (client : Client C Card) : Option (Client C Card) :=
  if client.mounted then none else some { client.startHydration with mounted := true }

def unmount (client : Client C Card) : Option (Client C Card) :=
  if client.mounted then
    some { client with
      mounted := false
      requestSequence := client.requestSequence + 1
      syncTimer := none
      hydration := none }
  else none

def acceptsMutation (client : Client C Card) : Bool :=
  match client.display.status with
  | .ready | .writePending => !client.writeBlocked
  | _ => false

/-- A mutation is displayed at once; a sync waits for its timer. -/
def mutate (client : Client C Card) (mutation : Mutation C Card) : Option (Client C Card) :=
  if client.acceptsMutation then
    let pending := { client.display with
      positions := mutation.positions, status := .writePending }
    let write := ⟨mutation, client.requestSequence + 1, pending⟩
    let next := { client with
      requestSequence := client.requestSequence + 1, display := pending }
    match mutation with
    | .sync _ => some { next with syncTimer := some write }
    | _ => some { next with queue := next.queue ++ [write] }
  else none

def rateCard (client : Client C Card) (positionKey : Text) (card : Card) :
    Option (Client C Card) :=
  (client.display.positions.find positionKey).bind fun sourcePosition ↦
    client.mutate
      (.rating (client.display.positions.setCard positionKey card) sourcePosition)

/-- The panel sends a sync when the tree changes the positions it displays. -/
def syncTree (client : Client C Card) (freshPositions : Positions C Card) :
    Option (Client C Card) :=
  let positions := syncDeck client.display.positions freshPositions
  if client.display.status ≠ .ready then none
  else if positions.list.map Position.fen = client.display.positions.list.map Position.fen ∧
      positions.list.map Position.answer =
        client.display.positions.list.map Position.answer then none
  else client.mutate (.sync positions)

def resetDeck (client : Client C Card) (cards : Positions C Card) : Option (Client C Card) :=
  client.mutate (.reset cards)

def syncFires (client : Client C Card) : Option (Client C Card) :=
  client.syncTimer.map fun write ↦
    { client with syncTimer := none, queue := client.queue ++ [write] }

/-! ## Running the queue -/

/-- The running write ends; what it shows is shown unless a later request was made. -/
def settle (client : Client C Card) (write : QueuedWrite C Card)
    (committed : Option (DeckValue C Card)) (writeBlocked : Bool) (shown : DeckValue C Card) :
    Client C Card :=
  { client with
    committed := committed
    writeBlocked := writeBlocked
    running := none
    display :=
      if client.mounted ∧ write.sequence = client.requestSequence then shown
      else client.display
    hydration := client.hydration.map fun
      | .waiting (writes + 1) => .waiting writes
      | hydration => hydration }

def queuedWriteNotSaved (client : Client C Card) (write : QueuedWrite C Card) : Client C Card :=
  client.settle write client.committed client.writeBlocked (writeFailureState write.pending)

/-- The next write of the queue starts. -/
def startWrite [DecidableEq Card] (client : Client C Card) : Option (Client C Card) :=
  match client.running, client.queue with
  | none, write :: queue =>
      let client := { client with queue := queue }
      let await committed stage :=
        { client with running := some ⟨write, committed, stage, none⟩ }
      if client.writeBlocked then some (client.queuedWriteNotSaved write)
      else
        match client.committed with
        | none => some (client.queuedWriteNotSaved write)
        | some committed =>
            match write.mutation with
            | .rating positions sourcePosition =>
                some (await committed (.recording sourcePosition 0 committed.revision
                  committed.generation positions))
            | .reset positions => some (await committed (.resetting positions))
            | .sync positions =>
                if committed.generation ≠ write.syncGeneration then
                  some (client.settle write (readyState committed committed.positions) false
                    (readyState committed committed.positions))
                else if committed.revision = 0 ∧ committed.generation = 0 then
                  some (await committed (.loading positions))
                else
                  some (await committed (.syncing committed
                    (mergedPositions committed.positions positions)))
  | _, _ => none

end Client

/-- The call a write waits for. -/
def RunningWrite.call (running : RunningWrite C Card) : Call (Positions C Card) :=
  match running.stage with
  | .recording _ _ revision generation positions => .record generation revision positions
  | .reloading _ _ _ => .load
  | .loading _ => .load
  | .syncing effectiveCommitted mergedPositions =>
      .sync effectiveCommitted.generation effectiveCommitted.revision mergedPositions
  | .resetting positions =>
      .reset running.committed.generation running.committed.revision positions

/-- How a write goes on after an answer. -/
inductive Continuation (C : Chessops) (Card : Type) where
  | await (stage : Stage C Card)
  | saved (next : DeckValue C Card)
  | dropped (deck : DeckValue C Card)
  | failed

/-- After a conflict, a rating goes on only when its position still has the card
that was rated. -/
def mergeRating [DecidableEq Card] (committed : DeckValue C Card)
    (sourcePosition : Position Card) (retry : ℕ) (positions : Positions C Card)
    (reloaded : StoredDeck (Positions C Card)) : Continuation C Card :=
  let boardState := sourcePosition.key C
  if reloaded.generation ≠ committed.generation then .dropped (deckFromLoad reloaded)
  else
    match reloaded.positions.cardOf boardState, positions.cardOf boardState with
    | some reloadedCard, some updatedCard =>
        if reloadedCard = sourcePosition.card then
          .await (.recording sourcePosition (retry + 1) reloaded.revision reloaded.generation
            (reloaded.positions.setCard boardState updatedCard))
        else .dropped (deckFromLoad reloaded)
    | _, _ => .dropped (deckFromLoad reloaded)

def RunningWrite.resume [DecidableEq Card] (running : RunningWrite C Card)
    (reply : Reply (Positions C Card)) : Continuation C Card :=
  match running.stage, reply with
  | .recording _ _ _ generation positions, .revision nextRevision =>
      .saved (readyState
        { running.committed with revision := nextRevision, generation := generation } positions)
  | .recording sourcePosition retry _ _ positions, .conflict =>
      if retry ≥ practiceMaxConflictRetries then .failed
      else .await (.reloading sourcePosition retry positions)
  | .reloading sourcePosition retry positions, .loaded (some reloaded) =>
      mergeRating running.committed sourcePosition retry positions reloaded
  | .loading positions, .loaded deck =>
      .await (.syncing (deckFromLoad deck)
        (mergedPositions (deckFromLoad deck).positions positions))
  | .syncing effectiveCommitted mergedPositions, .revision revision =>
      .saved (readyState { effectiveCommitted with revision := revision } mergedPositions)
  | .resetting positions, .revision revision =>
      .saved (readyState
        { running.committed with
          revision := revision, generation := running.committed.generation + 1 }
        positions)
  | _, _ => .failed

namespace Client

/-- The running write gets its answer. -/
def resumeWrite [DecidableEq Card] (client : Client C Card) : Option (Client C Card) :=
  client.running.bind fun running ↦ running.reply.map fun reply ↦
    match running.resume reply with
    | .await stage =>
        { client with running := some { running with stage := stage, reply := none } }
    | .saved next => client.settle running.write next false next
    | .dropped deck => client.settle running.write deck false deck
    | .failed =>
        client.settle running.write client.committed true
          (writeFailureState running.write.pending)

def answered (client : Client C Card) (running : RunningWrite C Card)
    (reply : Reply (Positions C Card)) : Client C Card :=
  { client with running := some { running with reply := some reply } }

/-- The load of a hydration is answered when the writes before it are settled. -/
def hydrate (client : Client C Card) (next : DeckValue C Card) : Option (Client C Card) :=
  match client.hydration with
  | some (.waiting 0) => some { client with hydration := some (.loaded next) }
  | _ => none

def completeHydration (client : Client C Card) : Option (Client C Card) :=
  match client.hydration with
  | some (.loaded next) =>
      some { client with
        committed := if next.status = .ready then some next else none
        writeBlocked := next.status ≠ .ready
        display := if client.mounted then next else client.display
        hydration := none }
  | _ => none

end Client

/-! ## The clients and the stored deck -/

variable (C) in
structure System (Card ι : Type) where
  deck : Option (StoredDeck (Positions C Card))
  clients : ι → Client C Card
  /-- The cards of the ratings that were recorded, until a reset or a sync drops them. -/
  saved : Text → Option Card

variable (C) in
inductive Action (Card : Type) where
  | mount
  | unmount
  | retry
  | rate (positionKey : Text) (card : Card)
  | sync (freshPositions : Positions C Card)
  | reset (cards : Positions C Card)
  | syncFires
  | startWrite
  /-- The store serves the call of the running write; its answer may get lost. -/
  | serve (lost : Bool)
  /-- The call fails before it has an effect. -/
  | refuse (conflict : Bool)
  | resumeWrite
  | hydrate (fails : Bool)
  | completeHydration

/-- The card that the deck has for a board state. -/
def deckCard (deck : Option (StoredDeck (Positions C Card))) (key : Text) : Option Card :=
  deck.bind fun deck ↦ deck.positions.cardOf key

/-- What is saved when a write was accepted and the deck is the new one. -/
def savedAfter (saved : Text → Option Card) (deck : Option (StoredDeck (Positions C Card))) :
    Stage C Card → Text → Option Card
  | .recording sourcePosition _ _ _ _, key =>
      if key = sourcePosition.key C then deckCard deck key else saved key
  | .syncing _ _, key => if (deckCard deck key).isSome then saved key else none
  | .resetting _, _ => none
  | _, key => saved key

namespace System

variable {ι : Type} [DecidableEq ι]

def withClient (s : System C Card ι) (i : ι) (client : Client C Card) : System C Card ι :=
  { s with clients := Function.update s.clients i client }

def serveCall (s : System C Card ι) (i : ι) (running : RunningWrite C Card) (lost : Bool) :
    System C Card ι :=
  let served := serve s.deck running.call
  { deck := served.1
    clients := Function.update s.clients i
      ((s.clients i).answered running (if lost then .failed else served.2))
    saved :=
      match served.2 with
      | .revision _ => savedAfter s.saved served.1 running.stage
      | _ => s.saved }

/-- The call of a write that was not answered yet. -/
def waitingWrite (s : System C Card ι) (i : ι) : Option (RunningWrite C Card) :=
  (s.clients i).running.bind fun running ↦ if running.reply.isNone then some running else none

def step [DecidableEq Card] (s : System C Card ι) (i : ι) :
    Action C Card → Option (System C Card ι)
  | .mount => (s.clients i).onMount.map (s.withClient i)
  | .unmount => (s.clients i).unmount.map (s.withClient i)
  | .retry => some (s.withClient i (s.clients i).startHydration)
  | .rate positionKey card => ((s.clients i).rateCard positionKey card).map (s.withClient i)
  | .sync freshPositions => ((s.clients i).syncTree freshPositions).map (s.withClient i)
  | .reset cards => ((s.clients i).resetDeck cards).map (s.withClient i)
  | .syncFires => (s.clients i).syncFires.map (s.withClient i)
  | .startWrite => (s.clients i).startWrite.map (s.withClient i)
  | .serve lost => (s.waitingWrite i).map fun running ↦ s.serveCall i running lost
  | .refuse conflict =>
      (s.waitingWrite i).map fun running ↦
        s.withClient i
          ((s.clients i).answered running (if conflict then .conflict else .failed))
  | .resumeWrite => (s.clients i).resumeWrite.map (s.withClient i)
  | .hydrate fails =>
      ((s.clients i).hydrate
        (if fails then failureState (emptyDeck .loading) else deckFromLoad s.deck)).map
          (s.withClient i)
  | .completeHydration => (s.clients i).completeHydration.map (s.withClient i)

end System

end EnCroissant.Practice

import EnCroissant.References.Lookup

/-!
# What a lookup finds

Over databases that serve their rows in pages the lookup makes a bounded number of
requests, and where it records no failure it has seen every game that matches.
-/

namespace EnCroissant

/-! ## Databases that serve their rows in pages -/

/-- The players and games of a database. -/
structure DatabaseContent where
  players : List Player
  games : List NormalizedGame
  deriving DecidableEq, Repr

/-- The players whose names contain a text. -/
def DatabaseContent.playersNamed (content : DatabaseContent) (name : Option Text) :
    List Player :=
  match name with
  | none => content.players
  | some fragment =>
      content.players.filter fun player ↦ player.name.any fun name ↦ containsAscii fragment name

/-- The games of two players with their colours and an outcome. -/
def DatabaseContent.gamesBetween (content : DatabaseContent) (player1 player2 : ℤ)
    (outcome : Outcome) : List NormalizedGame :=
  content.games.filter fun game ↦
    game.whiteId = player1 ∧ game.blackId = player2 ∧ game.result = outcome

/-- A page of rows, with their number where the response has one. -/
structure IsPage {α : Type} (rows : List α) (page : ℕ) (response : QueryResponse α) : Prop where
  data : response.data =
    (rows.drop ((page - 1) * ReferenceSearchLimits.pageSize)).take ReferenceSearchLimits.pageSize
  count : ∀ count, response.count = some count → count = rows.length

/-- Where the queries are answered, it is from the rows of the databases, in stable pages. -/
structure ReferenceApi.Serves (api : ReferenceApi) (content : DatabaseHandle → DatabaseContent) :
    Prop where
  players : ∀ n file query response, api.queryPlayers n file query = .ok response →
    IsPage ((content file).playersNamed query.name) query.page response
  games : ∀ n file query response, api.queryGames n file query = .ok response →
    IsPage ((content file).gamesBetween query.player1 query.player2 query.outcome) query.page
      response
  ids : ∀ file, (content file).games.Pairwise fun a b ↦ a.id < b.id
  white : ∀ file, ∀ game ∈ (content file).games,
    ⟨game.whiteId, some game.white⟩ ∈ (content file).players
  black : ∀ file, ∀ game ∈ (content file).games,
    ⟨game.blackId, some game.black⟩ ∈ (content file).players

/-- The request with a number was answered. -/
def ReferenceApi.Answers (api : ReferenceApi) (n : ℕ) : PageRequest → Prop
  | .players file query => ∃ response, api.queryPlayers n file query = .ok response
  | .games file query => ∃ response, api.queryGames n file query = .ok response

namespace Lookup

open Faulty

/-! ## The budget of requests and the record of failures -/

/-- The requests made so far are within their budget. -/
structure Counted (s : LookupState) : Prop where
  requests : s.requests ≤ ReferenceSearchLimits.requests
  asked : s.asked.length = s.requests

/-- Every request made so far was answered. -/
def Answered (api : ReferenceApi) (s : LookupState) : Prop :=
  ∀ n request, s.asked[n]? = some request → api.Answers n request

@[simp] theorem ask_requests (s : LookupState) (request : PageRequest) :
    (s.ask request).requests = s.requests + 1 := rfl

theorem Counted.ask {s : LookupState} (h : Counted s) (request : PageRequest)
    (hbudget : s.requests < ReferenceSearchLimits.requests) : Counted (s.ask request) where
  requests := hbudget
  asked := by
    rw [LookupState.ask, List.length_append, h.asked]
    rfl

theorem Answered.ask {api : ReferenceApi} {s : LookupState} {request : PageRequest}
    (h : Answered api s) (hcounted : Counted s) (hanswer : api.Answers s.requests request) :
    Answered api (s.ask request) := by
  intro n asked hasked
  rw [LookupState.ask] at hasked
  rcases lt_trichotomy n s.asked.length with hn | hn | hn
  · rw [List.getElem?_append_left hn] at hasked
    exact h n asked hasked
  · rw [hn, List.getElem?_concat_length] at hasked
    cases hasked
    rwa [hn, hcounted.asked]
  · rw [List.getElem?_eq_none (by rw [List.length_append]; exact hn)] at hasked
    cases hasked

/-- What holds of the rows found always, and what holds besides while no failure is recorded. -/
structure At (api : ReferenceApi) (I C : Found → Prop) (s : LookupState) : Prop where
  counted : Counted s
  found : I s.found
  clean : s.failures = [] → Answered api s ∧ C s.found

/-- What holds after an error as well. -/
structure Err (I : Found → Prop) (s : LookupState) : Prop where
  counted : Counted s
  found : I s.found

variable {api : ReferenceApi} {I J C D : Found → Prop} {F : LookupState → Prop}

theorem At.err {s : LookupState} (h : At api I C s) : Err I s := ⟨h.counted, h.found⟩

theorem At.imp {s : LookupState} (h : At api I C s) (hI : ∀ f, I f → J f)
    (hC : ∀ f, I f → C f → D f) : At api J D s :=
  ⟨h.counted, hI _ h.found, fun hnone ↦
    ⟨(h.clean hnone).1, hC _ h.found (h.clean hnone).2⟩⟩

theorem Err.imp {s : LookupState} (h : Err I s) (hI : ∀ f, I f → J f) : Err J s :=
  ⟨h.counted, hI _ h.found⟩

/-- Once a failure is recorded nothing more is promised. -/
theorem Err.at_of_failures {s : LookupState} (h : Err I s) (hne : s.failures ≠ []) :
    At api I C s :=
  ⟨h.counted, h.found, fun hnone ↦ absurd hnone hne⟩

theorem spec_addFailure (failure : ReferenceFailure) :
    Spec (Err I) (addFailure failure) (fun _ ↦ At api I C) F := by
  refine Spec.modify fun s hs ↦ ?_
  split_ifs with hroom
  · refine Err.at_of_failures ⟨⟨hs.counted.requests, hs.counted.asked⟩, hs.found⟩ ?_
    simp
  · refine Err.at_of_failures ⟨⟨hs.counted.requests, hs.counted.asked⟩, hs.found⟩ ?_
    rw [not_lt] at hroom
    intro hnone
    have hlength := congrArg List.length hnone
    rw [List.length_set, List.length_nil] at hlength
    rw [hlength] at hroom
    exact absurd hroom (by decide)

theorem spec_budget (source : Text) : Spec (Err I) (budget source) (fun _ ↦ At api I C) F := by
  refine Spec.bind (Spec.get (Q := fun a s ↦ Err I s ∧ a = s) fun s hs ↦ ⟨hs, rfl⟩) fun a ↦ ?_
  refine Spec.ite (fun hany ↦ Spec.pure fun s hs ↦ ?_) fun _ ↦
    Spec.weaken (spec_addFailure _) (fun s hs ↦ hs.1) (fun _ _ h ↦ h) fun _ h ↦ h
  obtain ⟨hs, rfl⟩ := hs
  refine hs.at_of_failures fun hnone ↦ ?_
  rw [hnone] at hany
  cases hany

theorem spec_check {P : LookupState → Prop} (hP : ∀ s n, P s → P { s with checks := n })
    (hF : ∀ s, P s → F s) : Spec P (check api) (fun _ ↦ P) F := by
  refine Spec.bind (Spec.get (Q := fun _ ↦ P) fun s hs ↦ hs) fun a ↦ ?_
  refine Spec.bind (Spec.modify (Q := fun _ ↦ P) fun s hs ↦ hP s _ hs) fun _ ↦ ?_
  cases api.aborted a.checks with
  | none => exact Spec.pure fun s hs ↦ hs
  | some reason => exact Spec.fail hF

theorem At.checks {s : LookupState} (h : At api I C s) (n : ℕ) :
    At api I C { s with checks := n } :=
  ⟨⟨h.counted.requests, h.counted.asked⟩, h.found, h.clean⟩

theorem Err.checks {s : LookupState} (h : Err I s) (n : ℕ) : Err I { s with checks := n } :=
  ⟨⟨h.counted.requests, h.counted.asked⟩, h.found⟩

/-! ## Reading page by page -/

/-- What a visit to a row keeps, and what it adds for the rows visited before. -/
structure Visits {α : Type} (visit : α → Found → Option Found) (rows : List α)
    (I : Found → Prop) (C : List α → Found → Prop) : Prop where
  keeps : ∀ item ∈ rows, ∀ f f', I f → visit item f = some f' → I f'
  adds : ∀ done, ∀ item ∈ rows, ∀ f f', I f → C done f → visit item f = some f' →
    C (done ++ [item]) f'

theorem visitAll_spec {α : Type} {visit : α → Found → Option Found} {rows : List α}
    {C : List α → Found → Prop} (h : Visits visit rows I C) {data : List α} :
    ∀ (done : List α) {f : Found}, (∀ item ∈ data, item ∈ rows) → I f →
      I (visitAll visit data f).2 ∧
        ((visitAll visit data f).1 = true → C done f →
          C (done ++ data) (visitAll visit data f).2) := by
  induction data with
  | nil =>
      intro done f _ hI
      refine ⟨hI, fun _ hC ↦ ?_⟩
      rwa [List.append_nil]
  | cons item data ih =>
      intro done f hrows hI
      rw [visitAll]
      cases hvisit : visit item f with
      | none => exact ⟨hI, fun hfinished ↦ by cases hfinished⟩
      | some f' =>
          have hitem := hrows item List.mem_cons_self
          have hI' := h.keeps item hitem f f' hI hvisit
          obtain ⟨hkept, hadded⟩ := ih (done ++ [item])
            (fun i hi ↦ hrows i (List.mem_cons_of_mem _ hi)) hI'
          refine ⟨hkept, fun hfinished hC ↦ ?_⟩
          have hall := hadded hfinished (h.adds done item hitem f f' hI hC hvisit)
          rwa [List.append_assoc] at hall

theorem take_page {α : Type} (rows : List α) {page : ℕ} (hpage : 1 ≤ page) :
    rows.take ((page - 1) * ReferenceSearchLimits.pageSize) ++
        (rows.drop ((page - 1) * ReferenceSearchLimits.pageSize)).take
          ReferenceSearchLimits.pageSize =
      rows.take (page * ReferenceSearchLimits.pageSize) := by
  rw [← List.take_add, ← Nat.succ_mul, Nat.succ_eq_add_one, Nat.sub_add_cancel hpage]

/-- After the last page no row is left. -/
theorem take_lastPage {α : Type} {rows : List α} {page : ℕ} {response : QueryResponse α}
    (hpage : 1 ≤ page) (h : IsPage rows page response) (hlast : isLastPage page response = true) :
    rows.take (page * ReferenceSearchLimits.pageSize) = rows := by
  refine List.take_of_length_le ?_
  rw [isLastPage] at hlast
  cases hcount : response.count with
  | some count =>
      rw [hcount] at hlast
      have hle := of_decide_eq_true hlast
      rwa [h.count count hcount] at hle
  | none =>
      rw [hcount] at hlast
      have hlt := of_decide_eq_true hlast
      rw [h.data, List.length_take, List.length_drop, min_lt_iff] at hlt
      have hnext : page * ReferenceSearchLimits.pageSize =
          (page - 1) * ReferenceSearchLimits.pageSize + ReferenceSearchLimits.pageSize := by
        rw [← Nat.succ_mul, Nat.succ_eq_add_one, Nat.sub_add_cancel hpage]
      omega

/-- A query whose requests are those of the api, over some rows. -/
structure Paged.Over {α : Type} (query : Paged α) (api : ReferenceApi) (rows : List α) : Prop where
  answers : ∀ n page response, query.send n page = .ok response →
    api.Answers n (query.request page)
  isPage : ∀ n page response, query.send n page = .ok response → IsPage rows page response

theorem spec_pagesFrom {α : Type} {source : Text} {query : Paged α} {rows : List α}
    {visit : α → Found → Option Found} {C : List α → Found → Prop}
    (hquery : query.Over api rows) (hvisit : Visits visit rows I C) (remaining : ℕ) :
    ∀ {page : ℕ}, 1 ≤ page →
      Spec
        (fun s ↦ At api I (C (rows.take ((page - 1) * ReferenceSearchLimits.pageSize))) s ∧
          s.requests + remaining = ReferenceSearchLimits.requests)
        (pagesFrom api source query visit remaining page) (fun _ ↦ At api I (C rows)) (Err I) := by
  induction remaining with
  | zero =>
      intro page hpage
      refine Spec.bind (Q := fun _ ↦ Err I) ?_ fun _ ↦ spec_budget source
      refine Spec.weaken (P := Err I) (spec_check (fun s n hs ↦ hs.checks n) fun s hs ↦ hs) ?_
        (fun _ _ h ↦ h) fun _ h ↦ h
      exact fun s hs ↦ hs.1.err
  | succ remaining ih =>
      intro page hpage
      have hone : 1 ≤ page + 1 := Nat.le_add_left 1 page
      refine Spec.bind (spec_check (fun s n hs ↦ ⟨hs.1.checks n, hs.2⟩) fun s hs ↦ hs.1.err)
        fun _ ↦ ?_
      refine Spec.bind (Spec.get (Q := fun a s ↦
        (At api I (C (rows.take ((page - 1) * ReferenceSearchLimits.pageSize))) s ∧
          s.requests + (remaining + 1) = ReferenceSearchLimits.requests) ∧ a = s)
        fun s hs ↦ ⟨hs, rfl⟩) fun a ↦ ?_
      refine Spec.bind (Q := fun _ s ↦
        (At api I (C (rows.take ((page - 1) * ReferenceSearchLimits.pageSize))) a ∧
          a.requests + (remaining + 1) = ReferenceSearchLimits.requests) ∧
          s = a.ask (query.request page)) (Spec.modify fun s hs ↦ ⟨hs.2 ▸ hs.1, hs.2 ▸ rfl⟩)
        fun _ ↦ ?_
      refine Spec.bind (Q := fun response s ↦
        (At api I (C (rows.take ((page - 1) * ReferenceSearchLimits.pageSize))) s ∧
          s.requests + remaining = ReferenceSearchLimits.requests) ∧ IsPage rows page response)
        (Spec.ofExcept (fun response s hresponse hs ↦ ?_) fun s hs ↦ ?_) fun response ↦ ?_
      · obtain ⟨⟨ha, hbudget⟩, rfl⟩ := hs
        have hanswer := hquery.answers _ _ _ hresponse
        refine ⟨⟨⟨ha.counted.ask _ (by omega), ha.found, fun hnone ↦ ?_⟩, ?_⟩,
          hquery.isPage _ _ _ hresponse⟩
        · exact ⟨(ha.clean hnone).1.ask ha.counted hanswer, (ha.clean hnone).2⟩
        · rw [← hbudget, ask_requests]
          omega
      · obtain ⟨⟨ha, hbudget⟩, rfl⟩ := hs
        exact ⟨ha.counted.ask _ (by omega), ha.found⟩
      refine Spec.bind (spec_check (fun s n hs ↦ ⟨⟨hs.1.1.checks n, hs.1.2⟩, hs.2⟩)
        fun s hs ↦ hs.1.1.err) fun _ ↦ ?_
      refine Spec.bind (Spec.get (Q := fun b s ↦
        ((At api I (C (rows.take ((page - 1) * ReferenceSearchLimits.pageSize))) s ∧
          s.requests + remaining = ReferenceSearchLimits.requests) ∧ IsPage rows page response) ∧
            b = s) fun s hs ↦ ⟨hs, rfl⟩) fun b ↦ ?_
      refine Spec.bind (Q := fun _ s ↦
        (At api I (fun f ↦ (visitAll visit response.data b.found).1 = true →
          C (rows.take (page * ReferenceSearchLimits.pageSize)) f) s ∧
          s.requests + remaining = ReferenceSearchLimits.requests) ∧ IsPage rows page response)
        (Spec.modify fun s hs ↦ ?_) fun _ ↦ ?_
      · obtain ⟨⟨⟨hs, hbudget⟩, hpaged⟩, rfl⟩ := hs
        have hrows : ∀ item ∈ response.data, item ∈ rows := by
          intro item hitem
          rw [hpaged.data] at hitem
          exact List.mem_of_mem_drop (List.mem_of_mem_take hitem)
        obtain ⟨hkept, hadded⟩ := visitAll_spec hvisit
          (rows.take ((page - 1) * ReferenceSearchLimits.pageSize)) hrows hs.found
        rw [hpaged.data, take_page rows hpage] at hadded
        refine ⟨⟨⟨⟨hs.counted.requests, hs.counted.asked⟩, hkept, fun hnone ↦ ?_⟩, hbudget⟩, hpaged⟩
        rw [← hpaged.data] at hadded
        exact ⟨(hs.clean hnone).1, fun hfinished ↦ hadded hfinished (hs.clean hnone).2⟩
      · refine Spec.ite (fun hfinished ↦ ?_) fun _ ↦
          Spec.weaken (spec_budget source) (fun s hs ↦ hs.1.1.err) (fun _ _ h ↦ h) fun _ h ↦ h
        refine Spec.ite (fun hlast ↦ Spec.pure fun s hs ↦ ?_) fun _ ↦ Spec.ite (fun _ ↦
          Spec.weaken (spec_budget source) (fun s hs ↦ hs.1.1.err) (fun _ _ h ↦ h) fun _ h ↦ h)
            fun _ ↦ Spec.weaken (ih hone) (fun s hs ↦ ⟨?_, hs.1.2⟩) (fun _ _ h ↦ h) fun _ h ↦ h
        · have hall := take_lastPage hpage hs.2 hlast
          exact hs.1.1.imp (fun _ h ↦ h) fun f _ hC ↦ hall ▸ hC hfinished
        · exact hs.1.1.imp (fun _ h ↦ h) fun f _ hC ↦ hC hfinished

/-- Reading all pages visits all rows, or records a failure. -/
theorem spec_pages {α : Type} {source : Text} {query : Paged α} {rows : List α}
    {visit : α → Found → Option Found} {C : List α → Found → Prop}
    (hquery : query.Over api rows) (hvisit : Visits visit rows I C) :
    Spec (At api I (C [])) (pages api source query visit) (fun _ ↦ At api I (C rows)) (Err I) := by
  refine Spec.bind (Spec.get (Q := fun a s ↦ At api I (C []) s ∧ a = s) fun s hs ↦ ⟨hs, rfl⟩)
    fun a ↦ Spec.weaken (spec_pagesFrom hquery hvisit _ le_rfl) (fun s hs ↦ ?_)
      (fun _ _ h ↦ h) fun _ h ↦ h
  obtain ⟨hs, rfl⟩ := hs
  have hrequests := hs.counted.requests
  refine ⟨?_, by omega⟩
  rwa [Nat.sub_self, Nat.zero_mul, List.take_zero]

/-! ## The players of a reference -/

section

variable {U : Unicode}
  {metadataVerification : GameReference → NormalizedGame → ReferenceVerification}
  {content : DatabaseHandle → DatabaseContent} {reference : GameReference} {source : Text}
  {file : DatabaseHandle} {K L : List ReferenceOccurrence → Prop}

theorem over_playerPages (hserves : api.Serves content) (person : ReferencePlayer) :
    (playerPages U api person file).Over api
      ((content file).playersNamed (longestAsciiFragment U person.surname)) where
  answers := fun _ _ response h ↦ ⟨response, h⟩
  isPage := fun n _ response h ↦ hserves.players n file _ response h

theorem visits_visitPlayer (person : ReferencePlayer) (rows : List Player) :
    Visits (visitPlayer U person) rows (fun f ↦ L f.candidates) fun done f ↦
      K f.candidates ∧ ∀ player ∈ done, matchesReferencePlayer U person player.name = true →
        player ∈ f.matchedPlayers where
  keeps := by
    intro player _ f f' hL hvisit
    rw [visitPlayer] at hvisit
    split_ifs at hvisit <;> cases hvisit <;> exact hL
  adds := by
    rintro done player - f f' - ⟨hK, hdone⟩ hvisit
    rw [visitPlayer] at hvisit
    split_ifs at hvisit with hmatches hroom
    · cases hvisit
      refine ⟨hK, fun other hother hmatches' ↦ ?_⟩
      rcases List.mem_append.mp hother with hother | hother
      · exact List.mem_append_left _ (hdone other hother hmatches')
      · exact List.mem_append_right _ hother
    · cases hvisit
      refine ⟨hK, fun other hother hmatches' ↦ ?_⟩
      rcases List.mem_append.mp hother with hother | hother
      · exact hdone other hother hmatches'
      · cases List.mem_singleton.mp hother
        exact absurd hmatches' hmatches

variable (U content file) in
/-- Every player who may be offered is among some players. -/
def Offers (person : ReferencePlayer) (found : List Player) : Prop :=
  ∀ player ∈ (content file).playersNamed (longestAsciiFragment U person.surname),
    matchesReferencePlayer U person player.name = true → player ∈ found

theorem spec_players (hserves : api.Serves content) (person : ReferencePlayer) :
    Spec (At api (fun f ↦ L f.candidates) fun f ↦ K f.candidates)
      (players U api source file person)
      (fun found ↦ At api (fun f ↦ L f.candidates) fun f ↦
        K f.candidates ∧ Offers U content file person found)
      (Err fun f ↦ L f.candidates) := by
  refine Spec.bind (Q := fun _ ↦ At api (fun f ↦ L f.candidates) fun f ↦ K f.candidates)
    (Spec.modify fun s hs ↦ ⟨⟨hs.counted.requests, hs.counted.asked⟩, hs.found, hs.clean⟩)
    fun _ ↦ ?_
  refine Spec.bind (Spec.weaken
    (spec_pages (over_playerPages hserves person) (visits_visitPlayer person _))
    (fun s hs ↦ hs.imp (fun _ h ↦ h) fun f _ hK ↦ ⟨hK, fun player hplayer ↦ by cases hplayer⟩)
    (fun _ _ h ↦ h) fun _ h ↦ h) fun _ ↦ ?_
  refine Spec.bind (Spec.get (Q := fun a s ↦ At api (fun f ↦ L f.candidates) (fun f ↦
    K f.candidates ∧ Offers U content file person f.matchedPlayers) s ∧ a = s)
      fun s hs ↦ ⟨hs, rfl⟩) fun a ↦ Spec.pure fun s hs ↦ ?_
  obtain ⟨hs, rfl⟩ := hs
  exact ⟨hs.counted, hs.found, hs.clean⟩

/-- A player with the surname of the reference is found by the search for its fragment. -/
theorem mem_playersNamed {person : ReferencePlayer} (hkeeps : KeepsFragment U person)
    {player : Player} (hplayer : player ∈ (content file).players)
    (hmatches : matchesReferencePlayer U person player.name = true) :
    player ∈ (content file).playersNamed (longestAsciiFragment U person.surname) := by
  cases hfragment : longestAsciiFragment U person.surname with
  | none => exact hplayer
  | some fragment =>
      refine List.mem_filter.mpr ⟨hplayer, ?_⟩
      cases hname : player.name with
      | none =>
          rw [hname] at hmatches
          cases hmatches
      | some name =>
          rw [hname] at hmatches
          exact decide_eq_true (hkeeps fragment hfragment name (sameSurname_of_matches hmatches))

/-! ## The games of a database -/

variable (U metadataVerification reference source file) in
/-- The candidate that a game becomes. -/
def occurrence (game : NormalizedGame) : ReferenceOccurrence :=
  ⟨file, source, game, referenceGameVerification U metadataVerification reference game⟩

variable (U metadataVerification reference) in
/-- Whether a game may be what the reference means. -/
def Matches (game : NormalizedGame) : Prop :=
  referenceGameVerification U metadataVerification reference game ≠ .rejected

variable (U metadataVerification reference source file) in
/-- The matching games among some are candidates. -/
def Covers (games : List NormalizedGame) (candidates : List ReferenceOccurrence) : Prop :=
  ∀ game ∈ games, Matches U metadataVerification reference game →
    occurrence U metadataVerification reference source file game ∈ candidates

/-- A property that more candidates do not break. -/
def Grows (K : List ReferenceOccurrence → Prop) : Prop :=
  ∀ candidates more, K candidates → K (candidates ++ more)

theorem grows_and_covers (hK : Grows K) (games : List NormalizedGame) :
    Grows fun candidates ↦ K candidates ∧
      Covers U metadataVerification reference source file games candidates := by
  intro candidates more ⟨hcandidates, hcovers⟩
  exact ⟨hK _ _ hcandidates, fun game hgame hmatches ↦
    List.mem_append_left _ (hcovers game hgame hmatches)⟩

variable (U metadataVerification reference source file) in
/-- The candidates are earlier ones and those of some matching games, seen in this order. -/
def Adding (games : List NormalizedGame) (L : List ReferenceOccurrence → Prop) (f : Found) :
    Prop :=
  ∃ (earlier : List ReferenceOccurrence) (added : List NormalizedGame), L earlier ∧
    f.candidates = earlier ++
      added.map (occurrence U metadataVerification reference source file) ∧
    f.seen = added.map (·.id) ∧ f.seen.Nodup ∧
      ∀ game ∈ added, game ∈ games ∧ Matches U metadataVerification reference game

theorem eq_of_id_eq {games : List NormalizedGame} (hids : games.Pairwise fun a b ↦ a.id < b.id)
    {a b : NormalizedGame} (ha : a ∈ games) (hb : b ∈ games) (h : a.id = b.id) : a = b := by
  by_contra hne
  have hdistinct : games.Pairwise fun a b ↦ a.id ≠ b.id := hids.imp fun hlt ↦ hlt.ne
  have hsymm : Std.Symm fun a b : NormalizedGame ↦ a.id ≠ b.id := ⟨fun _ _ ↦ Ne.symm⟩
  exact hdistinct.forall ha hb hne h

theorem visits_visitGame {games rows : List NormalizedGame}
    (hids : games.Pairwise fun a b ↦ a.id < b.id) (hrows : ∀ game ∈ rows, game ∈ games)
    (hK : Grows K) :
    Visits (visitGame U metadataVerification reference source file) rows
      (Adding U metadataVerification reference source file games L) fun done f ↦
        K f.candidates ∧ Covers U metadataVerification reference source file done f.candidates where
  keeps := by
    rintro game hgame f f' ⟨earlier, added, hL, hcandidates, hseen, hnodup, hadded⟩ hvisit
    rw [visitGame] at hvisit
    by_cases hnew : game.id ∉ f.seen ∧
        referenceGameVerification U metadataVerification reference game ≠ .rejected
    · simp only [if_pos hnew] at hvisit
      split_ifs at hvisit
      cases hvisit
      refine ⟨earlier, added ++ [game], hL, ?_, ?_, ?_, ?_⟩
      · rw [List.map_append, ← List.append_assoc, ← hcandidates]
        rfl
      · rw [List.map_append, ← hseen]
        rfl
      · exact List.nodup_append_comm.mp (List.nodup_cons.mpr ⟨hnew.1, hnodup⟩)
      · intro other hother
        rcases List.mem_append.mp hother with hother | hother
        · exact hadded other hother
        · cases List.mem_singleton.mp hother
          exact ⟨hrows game hgame, hnew.2⟩
    · simp only [if_neg hnew] at hvisit
      cases hvisit
      exact ⟨earlier, added, hL, hcandidates, hseen, hnodup, hadded⟩
  adds := by
    rintro done game hgame f f' ⟨earlier, added, hL, hcandidates, hseen, hnodup, hadded⟩
      ⟨hKf, hcovers⟩ hvisit
    rw [visitGame] at hvisit
    by_cases hnew : game.id ∉ f.seen ∧
        referenceGameVerification U metadataVerification reference game ≠ .rejected
    · simp only [if_pos hnew] at hvisit
      split_ifs at hvisit
      cases hvisit
      refine ⟨hK _ _ hKf, fun other hother hmatches ↦ ?_⟩
      rcases List.mem_append.mp hother with hother | hother
      · exact List.mem_append_left _ (hcovers other hother hmatches)
      · cases List.mem_singleton.mp hother
        exact List.mem_append_right _ List.mem_cons_self
    · simp only [if_neg hnew] at hvisit
      cases hvisit
      refine ⟨hKf, fun other hother hmatches ↦ ?_⟩
      rcases List.mem_append.mp hother with hother | hother
      · exact hcovers other hother hmatches
      · cases List.mem_singleton.mp hother
        have hold : game.id ∈ f.seen := by
          by_contra hnot
          exact hnew ⟨hnot, hmatches⟩
        rw [hseen] at hold
        obtain ⟨twin, htwin, hid⟩ := List.mem_map.mp hold
        cases eq_of_id_eq hids (hadded twin htwin).1 (hrows game hgame) hid
        rw [hcandidates]
        exact List.mem_append_right _ (List.mem_map_of_mem htwin)

theorem over_gamePages (hserves : api.Serves content) (white black : Player) :
    (gamePages api reference file white black).Over api
      ((content file).gamesBetween white.id black.id reference.outcome) where
  answers := fun _ _ response h ↦ ⟨response, h⟩
  isPage := fun n _ response h ↦ hserves.games n file _ response h

/-- The games of the pairs are searched through, or a failure is recorded. -/
theorem spec_searchPairs (hserves : api.Serves content) {pairs : List (Player × Player)} :
    ∀ {K : List ReferenceOccurrence → Prop}, Grows K →
      Spec
        (At api (Adding U metadataVerification reference source file (content file).games L)
          fun f ↦ K f.candidates)
        (searchPairs U metadataVerification api reference source file pairs)
        (fun _ ↦ At api (Adding U metadataVerification reference source file (content file).games L)
          fun f ↦ K f.candidates ∧ ∀ pair ∈ pairs, Covers U metadataVerification reference source
            file ((content file).gamesBetween pair.1.id pair.2.id reference.outcome) f.candidates)
        (Err (Adding U metadataVerification reference source file (content file).games L)) := by
  induction pairs with
  | nil =>
      intro K _
      exact Spec.pure fun s hs ↦ hs.imp (fun _ h ↦ h) fun f _ hK ↦
        ⟨hK, fun pair hpair ↦ by cases hpair⟩
  | cons pair rest ih =>
      intro K hK
      have hrows : ∀ game ∈ (content file).gamesBetween pair.1.id pair.2.id reference.outcome,
          game ∈ (content file).games := fun game hgame ↦ List.mem_of_mem_filter hgame
      refine Spec.bind (Spec.weaken (spec_pages (over_gamePages hserves pair.1 pair.2)
        (visits_visitGame (hserves.ids file) hrows hK)) (fun s hs ↦ hs.imp (fun _ h ↦ h)
          fun f _ hKf ↦ ⟨hKf, fun game hgame ↦ by cases hgame⟩) (fun _ _ h ↦ h) fun _ h ↦ h)
        fun _ ↦ ?_
      refine Spec.bind (Spec.get (Q := fun _ ↦ At api
        (Adding U metadataVerification reference source file (content file).games L) fun f ↦
          K f.candidates ∧ Covers U metadataVerification reference source file
            ((content file).gamesBetween pair.1.id pair.2.id reference.outcome) f.candidates)
        fun s hs ↦ hs) fun a ↦ ?_
      refine Spec.ite (fun _ ↦ Spec.weaken (spec_budget source) (fun s hs ↦ hs.err)
        (fun _ _ h ↦ h) fun _ h ↦ h) fun _ ↦ ?_
      refine Spec.weaken (ih (grows_and_covers hK _)) (fun s hs ↦ hs) (fun _ s hs ↦ ?_) fun _ h ↦ h
      refine hs.imp (fun _ h ↦ h) fun f _ ⟨⟨hKf, hfirst⟩, hrest⟩ ↦ ⟨hKf, fun other hother ↦ ?_⟩
      rcases List.mem_cons.mp hother with rfl | hother
      · exact hfirst
      · exact hrest other hother

variable (U metadataVerification reference source file) in
/-- The candidates are earlier ones and those of some matching games, each game once. -/
def Added (L : List ReferenceOccurrence → Prop) (candidates : List ReferenceOccurrence) : Prop :=
  ∃ (earlier : List ReferenceOccurrence) (added : List NormalizedGame), L earlier ∧
    candidates = earlier ++
      added.map (occurrence U metadataVerification reference source file) ∧
    (added.map (·.id)).Nodup ∧ ∀ game ∈ added, Matches U metadataVerification reference game

theorem added_of_adding {games : List NormalizedGame} {f : Found}
    (h : Adding U metadataVerification reference source file games L f) :
    Added U metadataVerification reference source file L f.candidates := by
  obtain ⟨earlier, added, hL, hcandidates, hseen, hnodup, hadded⟩ := h
  exact ⟨earlier, added, hL, hcandidates, hseen ▸ hnodup, fun game hgame ↦ (hadded game hgame).2⟩

theorem added_of {candidates : List ReferenceOccurrence} (h : L candidates) :
    Added U metadataVerification reference source file L candidates :=
  ⟨candidates, [], h, (List.append_nil _).symm, List.nodup_nil, fun game hgame ↦ by cases hgame⟩

theorem mem_gamesBetween {games : DatabaseContent} {game : NormalizedGame}
    (hgame : game ∈ games.games) (hmatches : Matches U metadataVerification reference game) :
    game ∈ games.gamesBetween game.whiteId game.blackId reference.outcome := by
  refine List.mem_filter.mpr ⟨hgame, decide_eq_true ⟨rfl, rfl, ?_⟩⟩
  exact (matches_of_referenceGameVerification hmatches).2.2

/-- A database is searched through, or a failure is recorded. -/
theorem spec_searchFile (hserves : api.Serves content) (hwhite : KeepsFragment U reference.white)
    (hblack : KeepsFragment U reference.black) (hK : Grows K) :
    Spec (At api (fun f ↦ L f.candidates) fun f ↦ K f.candidates)
      (searchFile U metadataVerification api reference source file)
      (fun _ ↦ At api
        (fun f ↦ Added U metadataVerification reference source file L f.candidates)
        fun f ↦ K f.candidates ∧ Covers U metadataVerification reference source file
          (content file).games f.candidates)
      (Err fun f ↦ Added U metadataVerification reference source file L f.candidates) := by
  have hfound : ∀ game ∈ (content file).games, Matches U metadataVerification reference game →
      (⟨game.whiteId, some game.white⟩ ∈ (content file).playersNamed
          (longestAsciiFragment U reference.white.surname) ∧
        matchesReferencePlayer U reference.white (some game.white) = true) ∧
      (⟨game.blackId, some game.black⟩ ∈ (content file).playersNamed
          (longestAsciiFragment U reference.black.surname) ∧
        matchesReferencePlayer U reference.black (some game.black) = true) := by
    intro game hgame hmatches
    obtain ⟨hw, hb, -⟩ := matches_of_referenceGameVerification hmatches
    exact ⟨⟨mem_playersNamed hwhite (hserves.white file game hgame) hw, hw⟩,
      ⟨mem_playersNamed hblack (hserves.black file game hgame) hb, hb⟩⟩
  refine Spec.bind (Spec.weaken (spec_players hserves reference.white) (fun _ h ↦ h)
    (fun _ _ h ↦ h) fun s hs ↦ hs.imp fun f hL ↦ added_of hL) fun whites ↦ ?_
  refine Spec.ite (fun hnone ↦ Spec.pure fun s hs ↦ ?_) fun _ ↦ ?_
  · refine hs.imp (fun f hL ↦ added_of hL) fun f _ ⟨hKf, hwhites⟩ ↦
      ⟨hKf, fun game hgame hmatches ↦ ?_⟩
    obtain ⟨⟨hrow, hw⟩, -⟩ := hfound game hgame hmatches
    have hmem := hwhites _ hrow hw
    rw [hnone] at hmem
    cases hmem
  · refine Spec.bind (Spec.weaken (@spec_players api U content source file
      (fun candidates ↦ K candidates ∧ Offers U content file reference.white whites) L
      hserves reference.black) (fun _ h ↦ h)
      (fun _ _ h ↦ h) fun s hs ↦ hs.imp fun f hL ↦ added_of hL) fun blacks ↦ ?_
    refine Spec.bind (Q := fun _ ↦ At api
      (Adding U metadataVerification reference source file (content file).games L) fun f ↦
        (K f.candidates ∧ Offers U content file reference.white whites) ∧
          Offers U content file reference.black blacks)
      (Spec.modify fun s hs ↦ ⟨⟨hs.counted.requests, hs.counted.asked⟩, ?_, hs.clean⟩) fun _ ↦ ?_
    · exact ⟨s.found.candidates, [], hs.found, (List.append_nil _).symm, rfl, List.nodup_nil,
        fun game hgame ↦ by cases hgame⟩
    refine Spec.weaken (spec_searchPairs (K := fun candidates ↦
      (K candidates ∧ Offers U content file reference.white whites) ∧
        Offers U content file reference.black blacks) hserves
      fun candidates more h ↦ ⟨⟨hK _ _ h.1.1, h.1.2⟩, h.2⟩) (fun _ h ↦ h) (fun _ s hs ↦ ?_)
      fun s hs ↦ hs.imp fun f h ↦ added_of_adding h
    refine hs.imp (fun f h ↦ added_of_adding h) fun f _ ⟨⟨⟨hKf, hwhites⟩, hblacks⟩, hpairs⟩ ↦
      ⟨hKf, fun game hgame hmatches ↦ ?_⟩
    obtain ⟨⟨hwrow, hw⟩, hbrow, hb⟩ := hfound game hgame hmatches
    have hpair : (⟨game.whiteId, some game.white⟩, ⟨game.blackId, some game.black⟩) ∈
        whites.flatMap fun white ↦ blacks.map fun black ↦ (white, black) :=
      List.mem_flatMap.mpr ⟨_, hwhites _ hwrow hw, List.mem_map.mpr ⟨_, hblacks _ hbrow hb, rfl⟩⟩
    exact hpairs _ hpair game (mem_gamesBetween hgame hmatches) hmatches

/-! ## The databases of a library -/

variable (U metadataVerification reference) in
/-- The candidates match, and no game is listed more often than its database. -/
structure Listed (databases : List ManagedDatabaseInfo)
    (candidates : List ReferenceOccurrence) : Prop where
  matching : ∀ candidate ∈ candidates,
    candidate.verification = referenceGameVerification U metadataVerification reference
      candidate.game ∧ candidate.verification ≠ .rejected
  once : ∀ file id, candidates.countP (fun candidate ↦
      candidate.database = file ∧ candidate.game.id = id) ≤
    databases.countP fun database ↦ database.file = file

theorem countP_occurrence_le {added : List NormalizedGame} (hnodup : (added.map (·.id)).Nodup)
    (other : DatabaseHandle) (id : ℤ) :
    (added.map (occurrence U metadataVerification reference source file)).countP
        (fun candidate ↦ candidate.database = other ∧ candidate.game.id = id) ≤
      if file = other then 1 else 0 := by
  rw [List.countP_map]
  split_ifs with hfile
  · have hcount := List.nodup_iff_count_le_one.mp hnodup id
    rw [List.count, List.countP_map] at hcount
    refine (List.countP_mono_left fun game _ h ↦ ?_).trans hcount
    have hid : game.id = id := (of_decide_eq_true h).2
    exact beq_iff_eq.mpr hid
  · rw [Nat.le_zero, List.countP_eq_zero]
    intro game _ h
    exact hfile (of_decide_eq_true h).1

theorem Listed.of_added {databases : List ManagedDatabaseInfo} (database : ManagedDatabaseInfo)
    {candidates : List ReferenceOccurrence}
    (h : Added U metadataVerification reference source database.file
      (Listed U metadataVerification reference databases) candidates) :
    Listed U metadataVerification reference (databases ++ [database]) candidates := by
  obtain ⟨earlier, added, hearlier, rfl, hnodup, hmatches⟩ := h
  refine ⟨fun candidate hcandidate ↦ ?_, fun file id ↦ ?_⟩
  · rcases List.mem_append.mp hcandidate with hold | hnew
    · exact hearlier.matching candidate hold
    · obtain ⟨game, hgame, rfl⟩ := List.mem_map.mp hnew
      exact ⟨rfl, hmatches game hgame⟩
  · rw [List.countP_append, List.countP_append]
    refine Nat.add_le_add (hearlier.once file id) ((countP_occurrence_le hnodup file id).trans ?_)
    rw [List.countP_singleton]
    simp

theorem Listed.append {databases : List ManagedDatabaseInfo}
    {candidates : List ReferenceOccurrence}
    (h : Listed U metadataVerification reference databases candidates)
    (rest : List ManagedDatabaseInfo) :
    Listed U metadataVerification reference (databases ++ rest) candidates where
  matching := h.matching
  once := fun file id ↦ by
    rw [List.countP_append]
    exact (h.once file id).trans (Nat.le_add_right _ _)

variable (U metadataVerification reference content) in
/-- A database could be read, and its matching games are candidates. -/
def Searched (database : ManagedDatabaseInfo) (candidates : List ReferenceOccurrence) : Prop :=
  (∃ file title filename, database = .success file title filename) ∧
    Covers U metadataVerification reference database.source database.file
      (content database.file).games candidates

theorem spec_searchDatabase (hserves : api.Serves content)
    (hwhite : KeepsFragment U reference.white) (hblack : KeepsFragment U reference.black)
    (hK : Grows K) (databases : List ManagedDatabaseInfo) (database : ManagedDatabaseInfo) :
    Spec
      (At api (fun f ↦ Listed U metadataVerification reference databases f.candidates)
        fun f ↦ K f.candidates)
      (searchDatabase U metadataVerification api reference database)
      (fun _ ↦ At api
        (fun f ↦ Listed U metadataVerification reference (databases ++ [database]) f.candidates)
        fun f ↦ K f.candidates ∧
          Searched U metadataVerification content reference database f.candidates)
      (Err fun f ↦
        Listed U metadataVerification reference (databases ++ [database]) f.candidates) := by
  have hgrown : ∀ f : Found, Listed U metadataVerification reference databases f.candidates →
      Listed U metadataVerification reference (databases ++ [database]) f.candidates :=
    fun f h ↦ Listed.of_added database (@added_of U metadataVerification reference
      database.source database.file _ _ h)
  refine Spec.bind (spec_check (fun s n hs ↦ hs.checks n) fun s hs ↦ hs.err.imp hgrown) fun _ ↦ ?_
  cases database with
  | error file filename error =>
      exact Spec.weaken (spec_addFailure _) (fun s hs ↦ hs.err.imp hgrown) (fun _ _ h ↦ h)
        fun _ h ↦ h
  | success file title filename =>
      refine Spec.catching (Spec.weaken (spec_searchFile hserves hwhite hblack hK) (fun _ h ↦ h)
        (fun _ s hs ↦ ?_) fun s hs ↦ hs.imp fun f h ↦
          Listed.of_added (.success file title filename) h) fun error ↦ ?_
      · exact hs.imp (fun f h ↦ Listed.of_added (.success file title filename) h) fun f _ ⟨hKf, hcovers⟩ ↦
          ⟨hKf, ⟨file, title, filename, rfl⟩, hcovers⟩
      · exact Spec.bind (spec_check (fun s n hs ↦ hs.checks n) fun s hs ↦ hs)
          fun _ ↦ spec_addFailure _

/-- A collection leaves nothing unread. -/
def IsRead (collection : CollectionDescriptor) : Prop :=
  (collection.status = .trashed ∧ collection.account = false) ∨ collection.status = .retired ∨
    (collection.database ≠ none ∧ collection.omitted = 0)

theorem spec_reviewCollection (p : Prop) (collection : CollectionDescriptor) :
    Spec (At api I fun _ ↦ p) (reviewCollection collection)
      (fun _ ↦ At api I fun _ ↦ p ∧ IsRead collection) F := by
  refine Spec.ite (fun htrashed ↦ Spec.pure fun s hs ↦
    hs.imp (fun _ h ↦ h) fun _ _ hp ↦ ⟨hp, .inl htrashed⟩) fun _ ↦ ?_
  refine Spec.ite (fun hretired ↦ Spec.pure fun s hs ↦
    hs.imp (fun _ h ↦ h) fun _ _ hp ↦ ⟨hp, .inr (.inl hretired)⟩) fun _ ↦ ?_
  refine Spec.bind (Q := fun _ ↦ At api I fun _ ↦ p ∧ collection.database ≠ none) ?_ fun _ ↦ ?_
  · exact Spec.onlyIf (fun _ ↦ Spec.weaken (spec_addFailure _) (fun s hs ↦ hs.err)
      (fun _ _ h ↦ h) fun _ h ↦ h) fun hdatabase s hs ↦
        hs.imp (fun _ h ↦ h) fun _ _ hp ↦ ⟨hp, hdatabase⟩
  · exact Spec.onlyIf (fun _ ↦ Spec.weaken (spec_addFailure _) (fun s hs ↦ hs.err)
      (fun _ _ h ↦ h) fun _ h ↦ h) fun homitted s hs ↦ hs.imp (fun _ h ↦ h) fun _ _ hp ↦
        ⟨hp.1, .inr (.inr ⟨hp.2, Nat.le_zero.mp (not_lt.mp homitted)⟩)⟩

variable (U metadataVerification content reference) in
/-- Nothing of a library is left unread. -/
structure Exhausted (library : DatabaseList) (candidates : List ReferenceOccurrence) : Prop where
  unread : library.unread = []
  collections : ∀ collection ∈ library.collections.getD [], IsRead collection
  databases : ∀ database ∈ library.databases,
    Searched U metadataVerification content reference database candidates

theorem spec_searchLibrary (hserves : api.Serves content)
    (hwhite : KeepsFragment U reference.white) (hblack : KeepsFragment U reference.black)
    (library : DatabaseList) :
    Spec
      (At api (fun f ↦ Listed U metadataVerification reference [] f.candidates) fun _ ↦ True)
      (searchLibrary U metadataVerification api reference library)
      (fun search s ↦ Counted s ∧
        Listed U metadataVerification reference library.databases search.candidates ∧
          (search.complete = true → Answered api s ∧
            Exhausted U metadataVerification content reference library search.candidates))
      (Err fun _ ↦ True) := by
  have hgrows : ∀ done : List ManagedDatabaseInfo, Grows fun candidates ↦
      ((library.unread = [] ∧
        ∀ collection ∈ library.collections.getD [], IsRead collection) ∧
          library.databases.take ReferenceSearchLimits.sources = library.databases) ∧
        ∀ database ∈ done,
          Searched U metadataVerification content reference database candidates := by
    intro done candidates more ⟨hread, hdone⟩
    exact ⟨hread, fun database hdatabase ↦ ⟨(hdone database hdatabase).1,
      fun game hgame hmatches ↦
        List.mem_append_left _ ((hdone database hdatabase).2 game hgame hmatches)⟩⟩
  refine Spec.bind (Q := fun _ ↦ At api
    (fun f ↦ Listed U metadataVerification reference [] f.candidates)
      fun _ ↦ library.unread = []) ?_ fun _ ↦ ?_
  · refine Spec.weaken (Spec.each (I := fun done ↦ At api
      (fun f ↦ Listed U metadataVerification reference [] f.candidates) fun _ ↦ done = [])
        fun done unread rest _ ↦ Spec.weaken (spec_addFailure _) (fun s hs ↦ hs.err)
          (fun _ _ h ↦ h) fun _ h ↦ h)
      (fun s hs ↦ hs.imp (fun _ h ↦ h) fun _ _ _ ↦ rfl) (fun _ _ h ↦ h) fun _ h ↦ h
  refine Spec.bind (Q := fun _ ↦ At api
    (fun f ↦ Listed U metadataVerification reference [] f.candidates) fun _ ↦
      library.unread = [] ∧ ∀ collection ∈ library.collections.getD [], IsRead collection) ?_
    fun _ ↦ ?_
  · refine Spec.weaken (Spec.each (I := fun done ↦ At api
      (fun f ↦ Listed U metadataVerification reference [] f.candidates) fun _ ↦
        library.unread = [] ∧ ∀ collection ∈ done, IsRead collection)
        fun done collection rest _ ↦ Spec.weaken
          (spec_reviewCollection (library.unread = [] ∧ ∀ other ∈ done, IsRead other) collection)
          (fun _ h ↦ h) (fun _ s hs ↦ hs.imp (fun _ h ↦ h) fun _ _ h ↦
            ⟨h.1.1, fun other hother ↦ ?_⟩) fun _ h ↦ h)
      (fun s hs ↦ hs.imp (fun _ h ↦ h) fun _ _ h ↦ ⟨h, fun other hother ↦ by cases hother⟩)
      (fun _ _ h ↦ h) fun _ h ↦ h
    rcases List.mem_append.mp hother with hother | hother
    · exact h.1.2 other hother
    · exact List.mem_singleton.mp hother ▸ h.2
  refine Spec.bind (Q := fun _ ↦ At api
    (fun f ↦ Listed U metadataVerification reference [] f.candidates) fun _ ↦
      (library.unread = [] ∧ ∀ collection ∈ library.collections.getD [], IsRead collection) ∧
        library.databases.take ReferenceSearchLimits.sources = library.databases) ?_ fun _ ↦ ?_
  · exact Spec.onlyIf (fun _ ↦ Spec.weaken (spec_budget _) (fun s hs ↦ hs.err) (fun _ _ h ↦ h)
      fun _ h ↦ h) fun hfew s hs ↦ hs.imp (fun _ h ↦ h) fun _ _ h ↦
        ⟨h, List.take_of_length_le (not_lt.mp hfew)⟩
  refine Spec.bind (Q := fun _ ↦ At api
    (fun f ↦ Listed U metadataVerification reference
      (library.databases.take ReferenceSearchLimits.sources) f.candidates)
    fun f ↦ Exhausted U metadataVerification content reference library f.candidates) ?_ fun _ ↦ ?_
  · refine Spec.weaken (Spec.each (I := fun done ↦ At api
      (fun f ↦ Listed U metadataVerification reference done f.candidates) fun f ↦
        ((library.unread = [] ∧
          ∀ collection ∈ library.collections.getD [], IsRead collection) ∧
            library.databases.take ReferenceSearchLimits.sources = library.databases) ∧
          ∀ database ∈ done,
            Searched U metadataVerification content reference database f.candidates)
        fun done database rest _ ↦ Spec.weaken
          (spec_searchDatabase hserves hwhite hblack (hgrows done) done database)
          (fun _ h ↦ h) (fun _ s hs ↦ hs.imp (fun _ h ↦ h) fun _ _ h ↦
            ⟨h.1.1, fun other hother ↦ ?_⟩) fun s hs ↦ hs.imp fun _ _ ↦ trivial)
      (fun s hs ↦ hs.imp (fun _ h ↦ h) fun _ _ h ↦ ⟨h, fun other hother ↦ by cases hother⟩)
      (fun _ s hs ↦ hs.imp (fun _ h ↦ h) fun _ _ h ↦ ⟨h.1.1.1, h.1.1.2, h.1.2 ▸ h.2⟩) fun _ h ↦ h
    rcases List.mem_append.mp hother with hother | hother
    · exact h.1.2 other hother
    · exact List.mem_singleton.mp hother ▸ h.2
  refine Spec.bind (spec_check (fun s n hs ↦ hs.checks n) fun s hs ↦ hs.err.imp fun _ _ ↦ trivial)
    fun _ ↦ ?_
  refine Spec.bind (Spec.get (Q := fun a s ↦ At api
    (fun f ↦ Listed U metadataVerification reference
      (library.databases.take ReferenceSearchLimits.sources) f.candidates)
    (fun f ↦ Exhausted U metadataVerification content reference library f.candidates) s ∧ a = s)
    fun s hs ↦ ⟨hs, rfl⟩) fun a ↦ Spec.pure fun s hs ↦ ?_
  obtain ⟨hs, rfl⟩ := hs
  refine ⟨hs.counted, ?_, fun hcomplete ↦ hs.clean (of_decide_eq_true hcomplete)⟩
  have hlisted := hs.found
  rw [← List.take_append_drop ReferenceSearchLimits.sources library.databases]
  exact hlisted.append _

theorem counted_start : Counted start := ⟨Nat.zero_le _, rfl⟩

theorem at_start : At api (fun f ↦ Listed U metadataVerification reference [] f.candidates)
    (fun _ ↦ True) start where
  counted := counted_start
  found := ⟨fun _ hcandidate ↦ (List.not_mem_nil hcandidate).elim, fun _ _ ↦ Nat.zero_le _⟩
  clean := fun _ ↦ ⟨fun _ _ hrequest ↦ (Option.some_ne_none _ hrequest.symm).elim, trivial⟩

theorem spec_lookupGameReference (hserves : api.Serves content)
    (hwhite : KeepsFragment U reference.white) (hblack : KeepsFragment U reference.black) :
    Spec
      (At api (fun f ↦ Listed U metadataVerification reference [] f.candidates) fun _ ↦ True)
      (lookupGameReference U metadataVerification api reference)
      (fun search s ↦ Counted s ∧
        (∃ databases, Listed U metadataVerification reference databases search.candidates) ∧
        (∀ library, api.getDatabases = .ok library →
          Listed U metadataVerification reference library.databases search.candidates) ∧
        (search.complete = true → Answered api s ∧ ∃ library, api.getDatabases = .ok library ∧
          Exhausted U metadataVerification content reference library search.candidates))
      (Err fun _ ↦ True) := by
  refine Spec.bind (Q := fun listed s ↦
    At api (fun f ↦ Listed U metadataVerification reference [] f.candidates) (fun _ ↦ True) s ∧
      ∀ library, listed = Except.ok library → api.getDatabases = .ok library) ?_ fun listed ↦ ?_
  · refine Spec.catching (E := fun s ↦
      At api (fun f ↦ Listed U metadataVerification reference [] f.candidates) (fun _ ↦ True) s) ?_
      fun error ↦ ?_
    · refine Spec.bind (Q := fun library s ↦
        At api (fun f ↦ Listed U metadataVerification reference [] f.candidates)
          (fun _ ↦ True) s ∧ api.getDatabases = .ok library)
        (Spec.ofExcept (fun library s hlibrary hs ↦ ⟨hs, hlibrary⟩) fun s hs ↦ hs) fun library ↦ ?_
      refine Spec.bind (spec_check (fun s n hs ↦ ⟨hs.1.checks n, hs.2⟩) fun s hs ↦ hs.1)
        fun _ ↦ Spec.pure fun s hs ↦ ⟨hs.1, fun other hother ↦ ?_⟩
      cases hother
      exact hs.2
    · exact Spec.bind (spec_check (fun s n hs ↦ hs.checks n) fun s hs ↦
        hs.err.imp fun _ _ ↦ trivial) fun _ ↦ Spec.pure fun s hs ↦
          ⟨hs, fun library hlibrary ↦ by cases hlibrary⟩
  · cases listed with
    | error error =>
        refine Spec.bind (Spec.get (Q := fun a s ↦ At api (fun f ↦
          Listed U metadataVerification reference [] f.candidates) (fun _ ↦ True) s ∧ a = s)
          fun s hs ↦ ⟨hs.1, rfl⟩) fun a ↦ Spec.pure fun s hs ↦ ?_
        obtain ⟨hs, rfl⟩ := hs
        exact ⟨hs.counted, ⟨[], hs.found⟩, fun library _ ↦ hs.found.append _,
          fun hcomplete ↦ by cases hcomplete⟩
    | ok library =>
        by_cases hlibrary : api.getDatabases = .ok library
        · refine Spec.weaken (spec_searchLibrary hserves hwhite hblack library)
            (fun s hs ↦ hs.1) (fun search s hs ↦ ?_) fun _ h ↦ h
          obtain ⟨hcounted, hlisted, hcomplete⟩ := hs
          refine ⟨hcounted, ⟨_, hlisted⟩, fun other hother ↦ ?_, fun hall ↦
            ⟨(hcomplete hall).1, library, hlibrary, (hcomplete hall).2⟩⟩
          cases hlibrary.symm.trans hother
          exact hlisted
        · exact fun s hs ↦ absurd (hs.2 library rfl) hlibrary

/-- A lookup makes few requests, offers only games that match and none twice, and where it says
that it is complete it offers every game that matches. -/
theorem lookupGameReference_honest (hserves : api.Serves content)
    (hwhite : KeepsFragment U reference.white) (hblack : KeepsFragment U reference.black) :
    (lookupGameReference U metadataVerification api reference start).2.asked.length ≤ 256 ∧
      ∀ search,
        (lookupGameReference U metadataVerification api reference start).1 = .ok search →
          (∀ candidate ∈ search.candidates,
            candidate.verification =
              referenceGameVerification U metadataVerification reference candidate.game ∧
            candidate.verification ≠ .rejected) ∧
          (∀ library, api.getDatabases = .ok library → ∀ file id,
            search.candidates.countP (fun candidate ↦
                candidate.database = file ∧ candidate.game.id = id) ≤
              library.databases.countP fun database ↦ database.file = file) ∧
          (search.complete = true → ∃ library, api.getDatabases = .ok library ∧
            library.unread = [] ∧
            (∀ collection ∈ library.collections.getD [], IsRead collection) ∧
            (∀ n request, (lookupGameReference U metadataVerification api reference
              start).2.asked[n]? = some request → api.Answers n request) ∧
            ∀ database ∈ library.databases,
              (∃ file title filename, database = .success file title filename) ∧
                ∀ game ∈ (content database.file).games,
                  referenceGameVerification U metadataVerification reference game ≠ .rejected →
                    ⟨database.file, database.source, game,
                      referenceGameVerification U metadataVerification reference game⟩ ∈
                        search.candidates) := by
  obtain ⟨hok, herror⟩ := @spec_lookupGameReference api U metadataVerification content reference
    hserves hwhite hblack start at_start
  cases hrun : lookupGameReference U metadataVerification api reference start with
  | mk result s =>
      cases result with
      | error error =>
          have hcounted := (herror error s hrun).counted
          refine ⟨hcounted.asked.trans_le hcounted.requests, fun search hsearch ↦ ?_⟩
          cases hsearch
      | ok search =>
          obtain ⟨hcounted, ⟨databases, hlisted⟩, honce, hcomplete⟩ := hok search s hrun
          refine ⟨hcounted.asked.trans_le hcounted.requests, fun found hfound ↦ ?_⟩
          cases hfound
          refine ⟨hlisted.matching, fun library hlibrary ↦ (honce library hlibrary).once,
            fun hall ↦ ?_⟩
          · obtain ⟨hanswered, library, hlibrary, hexhausted⟩ := hcomplete hall
            exact ⟨library, hlibrary, hexhausted.unread, hexhausted.collections, hanswered,
              fun database hdatabase ↦ hexhausted.databases database hdatabase⟩

end

end Lookup

/-! ## A small library

One database with the game of two players with short names. -/

namespace ShortNames

open Lookup

/-- The tables of Unicode for ASCII texts. -/
def ascii : Unicode where
  nfc := id
  toLocaleLowerCase := List.map Char.toLower

theorem mem_of_mem_normalized {c : Char} (hblank : c ≠ ' ') (hquote : c ≠ '\'') {text : Text}
    (h : c ∈ normalized ascii text) : c ∈ text.map Char.toLower := by
  have hmapped := Text.mem_of_mem_collapseSpaces hblank (Text.mem_of_mem_trim h)
  obtain ⟨d, hd, heq⟩ := List.mem_map.mp hmapped
  split_ifs at heq
  · exact absurd heq.symm hquote
  · exact heq ▸ hd

/-- A surname of one letter keeps its fragment. -/
theorem keepsFragment_letter {person : ReferencePlayer} {c : Char}
    (hfragment : longestAsciiFragment ascii person.surname = some [c])
    (hnormalized : normalized ascii person.surname = [c.toLower]) (hblank : c.toLower ≠ ' ')
    (hquote : c.toLower ≠ '\'') : KeepsFragment ascii person := by
  intro fragment hlongest name hsame
  cases Option.some.inj (hfragment.symm.trans hlongest)
  have hmem : c.toLower ∈ name.map Char.toLower := by
    rw [SameSurname, hnormalized] at hsame
    split_ifs at hsame
    · have hbefore := mem_of_mem_normalized hblank hquote (hsame ▸ List.mem_singleton_self _)
      exact List.map_subset _ (List.takeWhile_prefix _).subset hbefore
    · exact mem_of_mem_normalized hblank hquote
        (hsame.subset (List.mem_cons_of_mem _ List.mem_cons_self))
  obtain ⟨before, after, hsplit⟩ := List.append_of_mem hmem
  exact ⟨before, after, by rw [hsplit, List.append_assoc]; rfl⟩

def reference : GameReference where
  outcome := .whiteWins
  white := ⟨['O'], ['J'], none⟩
  black := ⟨['E'], ['X'], none⟩
  context := []
  closed := false

def game : NormalizedGame where
  id := 7
  event := ['?']
  site := ['?']
  date := none
  round := none
  white := "O, Jun".toList
  whiteId := 1
  whiteElo := none
  black := "E, Xin".toList
  blackId := 2
  blackElo := none
  result := .whiteWins

def content : DatabaseContent where
  players := [⟨1, some "O, Jun".toList⟩, ⟨2, some "E, Xin".toList⟩]
  games := [game]

/-- A page of rows with their number. -/
def paged {α : Type} (rows : List α) (page : ℕ) : QueryResponse α where
  data :=
    (rows.drop ((page - 1) * ReferenceSearchLimits.pageSize)).take ReferenceSearchLimits.pageSize
  count := some rows.length

def api : ReferenceApi where
  aborted := fun _ ↦ none
  getDatabases := .ok ⟨[.success ⟨['d']⟩ ['b'] ['b']], [], none⟩
  queryPlayers := fun _ _ query ↦ .ok (paged (content.playersNamed query.name) query.page)
  queryGames := fun _ _ query ↦
    .ok (paged (content.gamesBetween query.player1 query.player2 query.outcome) query.page)

theorem isPage_paged {α : Type} (rows : List α) (page : ℕ) : IsPage rows page (paged rows page) :=
  ⟨rfl, fun _ h ↦ (Option.some.inj h).symm⟩

theorem serves_api : api.Serves fun _ ↦ content where
  players := fun _ _ _ _ h ↦ Except.ok.inj h ▸ isPage_paged _ _
  games := fun _ _ _ _ h ↦ Except.ok.inj h ▸ isPage_paged _ _
  ids := fun _ ↦ List.pairwise_singleton _ _
  white := fun _ found hfound ↦ by
    cases List.mem_singleton.mp hfound
    exact List.mem_cons_self
  black := fun _ found hfound ↦ by
    cases List.mem_singleton.mp hfound
    exact List.mem_cons_of_mem _ List.mem_cons_self

theorem lookup_honest :
    (lookupGameReference ascii (fun _ _ ↦ .verified) api reference start).2.asked.length ≤ 256 ∧
      ∀ search,
        (lookupGameReference ascii (fun _ _ ↦ .verified) api reference start).1 = .ok search →
          search.complete = true →
            ⟨⟨['d']⟩, ['b'], game, .verified⟩ ∈ search.candidates := by
  have hwhite : KeepsFragment ascii reference.white :=
    @keepsFragment_letter reference.white 'O' (by decide +kernel) (by decide +kernel) (by decide)
      (by decide)
  have hblack : KeepsFragment ascii reference.black :=
    @keepsFragment_letter reference.black 'E' (by decide +kernel) (by decide +kernel) (by decide)
      (by decide)
  obtain ⟨hrequests, hall⟩ := @lookupGameReference_honest api ascii (fun _ _ ↦ .verified)
    (fun _ ↦ content) reference serves_api hwhite hblack
  refine ⟨hrequests, fun search hsearch hcomplete ↦ ?_⟩
  obtain ⟨library, hlibrary, -, -, -, hdatabases⟩ := (hall search hsearch).2.2 hcomplete
  cases hlibrary
  exact (hdatabases _ List.mem_cons_self).2 game List.mem_cons_self (by decide +kernel)

example : (lookupGameReference ascii (fun _ _ ↦ .verified) api reference start).1 =
    .ok ⟨[⟨⟨['d']⟩, ['b'], game, .verified⟩], [], true⟩ := by decide +kernel

end ShortNames

end EnCroissant

import Mathlib
import EnCroissant.Library.Decimal
import EnCroissant.Library.Paging
import EnCroissant.Practice.JournalCounts

/-!
# Reading the review history page by page

A page is read from the newest review back.  Its cursor names the shard and the
place in it where the next page ends; the shards may grow before the cursor is
used.
-/

namespace EnCroissant

variable {Value : Type}

def practiceReadMaxEntries : ℕ := 500

structure Cursor where
  generation : ℕ
  ordinal : ℕ
  offset : ℕ
  deriving DecidableEq, Repr

structure PracticeReviewEntry where
  id : String
  entry : String
  deriving DecidableEq, Repr

structure PracticeReviewPage where
  entries : List PracticeReviewEntry
  nextCursor : Option (List Char)
  deriving DecidableEq, Repr

/-! ## The cursor -/

def cursorText (cursor : Cursor) : List Char :=
  Decimal.digits cursor.generation ++ ':' :: Decimal.digits cursor.ordinal ++
    ':' :: Decimal.digits cursor.offset

def cursorInvalid {α : Type} : Except Error α :=
  .error (.invalidInput "practice review cursor is invalid")

/-- `str::parse::<u32>` of a part. -/
def parseCursorPart (part : List Char) : Except Error ℕ :=
  (Decimal.parse (u32Max + 1) part).elim cursorInvalid .ok

def parseCursor : Option (List Char) → Except Error (Option Cursor)
  | none => .ok none
  | some text =>
      if text = [] ∨ (text.map Char.utf8Size).sum > practiceIdMaxBytes then cursorInvalid
      else
        match text.splitOn ':' with
        | [generation, ordinal, offset] => do
            let generation ← parseCursorPart generation
            let ordinal ← parseCursorPart ordinal
            let offset ← parseCursorPart offset
            .ok (some ⟨generation, ordinal, offset⟩)
        | _ => cursorInvalid

/-! ## The page -/

section

variable (env : JournalEnv Value)

def reviewEntry (review : ReviewShardEntry Value) : PracticeReviewEntry :=
  ⟨review.id, env.render review.entry⟩

/-- The number of reviews of the shard in front of `shardIndex`. -/
def lengthBefore (shards : List (ShardFile Value)) (shardIndex : ℕ) : ℕ :=
  if shardIndex > 0 then
    (shards[shardIndex - 1]?).elim 0 fun shard ↦ shard.envelope.entries.length
  else 0

/-- The loop over the shards, from the last one back. -/
def readBack (shards : List (ShardFile Value)) (generation : ℕ) (cursor : Option Cursor)
    (requested : ℕ) :
    (shardIndex offset : ℕ) → List PracticeReviewEntry →
      List PracticeReviewEntry × Option Cursor
  | 0, _, page => (page, none)
  | index + 1, offset, page =>
      match shards[index]? with
      | none => (page, none)
      | some shard =>
          if requested ≤ page.length then (page, none)
          else
            let start :=
              if index + 1 = shards.length ∨
                  cursor.any fun cursor ↦ cursor.ordinal = shard.envelope.ordinal then offset
              else shard.envelope.entries.length
            let taken :=
              ((shard.envelope.entries.take start).reverse).take (requested - page.length)
            let page := page ++ taken.map (reviewEntry env)
            let nextOffset := start - taken.length
            if page.length = requested then
              (page,
                if nextOffset > 0 then some ⟨generation, shard.envelope.ordinal, nextOffset⟩
                else if index > 0 then
                  (shards[index - 1]?).map fun before ↦
                    ⟨generation, before.envelope.ordinal, before.envelope.entries.length⟩
                else none)
            else readBack shards generation cursor requested index (lengthBefore shards index) page

/-- Where a page begins: behind the last review, or where the cursor points. -/
def pageStart (shards : List (ShardFile Value)) : Option Cursor → Except Error (ℕ × ℕ)
  | none => .ok (shards.length, lengthBefore shards shards.length)
  | some cursor =>
      match shards.findIdx? fun shard ↦ shard.envelope.ordinal = cursor.ordinal with
      | none => cursorInvalid
      | some index =>
          if cursor.offset > lengthBefore shards (index + 1) then cursorInvalid
          else .ok (index + 1, cursor.offset)

def loadPracticeReviews (store : DeckStore Value) (cursor : Option (List Char)) (limit : ℕ) :
    Except Error PracticeReviewPage := do
  match ← loadValidDeck env store with
  | none => .ok ⟨[], none⟩
  | some (envelope, shards, _) => do
      let cursor ← parseCursor cursor
      if cursor.any fun cursor ↦ cursor.generation ≠ envelope.generation then
        .error (.conflict "practice review cursor belongs to an older generation")
      else
        let requested := min limit practiceReadMaxEntries
        if requested = 0 then .ok ⟨[], none⟩
        else do
          let (shardIndex, offset) ← pageStart shards cursor
          let (page, next) :=
            readBack env shards envelope.generation cursor requested shardIndex offset []
          .ok ⟨page, next.map cursorText⟩

/-- A client that follows the cursors; the `n`-th page is read from `stores n`. -/
def readReviews (stores : ℕ → DeckStore Value) (limit : ℕ) (n : ℕ)
    (cursor : Option (List Char)) :
    Except Error (List PracticeReviewEntry × Option (Option (List Char))) := do
  let page ← loadPracticeReviews env (stores n) cursor limit
  .ok (page.entries, page.nextCursor.map some)

end

/-! ## Cursors can be read back -/

theorem parseCursorPart_digits {n : ℕ} (h : n ≤ u32Max) :
    parseCursorPart (Decimal.digits n) = .ok n := by
  rw [parseCursorPart, Decimal.parse_digits (Nat.lt_succ_of_le h)]
  rfl

theorem utf8Size_of_isDigit {c : Char} (h : c.isDigit = true) : c.utf8Size = 1 := by
  simp only [Char.isDigit, Bool.and_eq_true, decide_eq_true_eq, ge_iff_le,
    UInt32.le_iff_toNat_le] at h
  have hle : c.val ≤ 127 := by
    rw [UInt32.le_iff_toNat_le]
    exact h.2.trans (by decide)
  rw [Char.utf8Size]
  exact if_pos hle

theorem utf8Size_digits (n : ℕ) :
    ((Decimal.digits n).map Char.utf8Size).sum = (Decimal.digits n).length := by
  have hsizes : (Decimal.digits n).map Char.utf8Size = (Decimal.digits n).map fun _ ↦ 1 :=
    List.map_congr_left fun c hc ↦ utf8Size_of_isDigit (Decimal.isDigit_digits c hc)
  rw [hsizes, List.map_const', List.sum_replicate, smul_eq_mul, mul_one]

theorem length_digits_le {n : ℕ} (h : n ≤ u32Max) : (Decimal.digits n).length ≤ 10 :=
  Decimal.length_digits_le (by decide) (h.trans_lt (by decide))

theorem parseCursor_cursorText {cursor : Cursor} (hgeneration : cursor.generation ≤ u32Max)
    (hordinal : cursor.ordinal ≤ u32Max) (hoffset : cursor.offset ≤ u32Max) :
    parseCursor (some (cursorText cursor)) = .ok (some cursor) := by
  have hcolon : ∀ n, ∀ c ∈ Decimal.digits n, (c == ':') = false := by
    intro n c hc
    rw [beq_eq_false_iff_ne]
    rintro rfl
    exact absurd (Decimal.isDigit_digits _ hc) (by decide)
  have hparts : (cursorText cursor).splitOn ':' = [Decimal.digits cursor.generation,
      Decimal.digits cursor.ordinal, Decimal.digits cursor.offset] := by
    rw [cursorText, List.splitOn_eq_splitOnP, List.append_assoc, List.cons_append,
      List.splitOnP_append_cons_of_forall_mem (hcolon _) ':' (by decide),
      List.splitOnP_append_cons_of_forall_mem (hcolon _) ':' (by decide),
      List.splitOnP_eq_singleton (hcolon _)]
  have hlength : ((cursorText cursor).map Char.utf8Size).sum ≤ practiceIdMaxBytes := by
    have h₁ := length_digits_le hgeneration
    have h₂ := length_digits_le hordinal
    have h₃ := length_digits_le hoffset
    have hsize : Char.utf8Size ':' = 1 := by decide
    simp only [cursorText, List.map_append, List.map_cons, List.sum_append, List.sum_cons,
      utf8Size_digits, hsize, practiceIdMaxBytes]
    omega
  have hvalid : ¬ (cursorText cursor = [] ∨
      ((cursorText cursor).map Char.utf8Size).sum > practiceIdMaxBytes) := by
    rintro (hnil | hlong)
    · simp [cursorText] at hnil
    · omega
  simp only [parseCursor, if_neg hvalid, hparts, parseCursorPart_digits hgeneration,
    parseCursorPart_digits hordinal, parseCursorPart_digits hoffset, bind, Except.bind]

/-! ## Places in the shards -/

/-- The reviews in front of a place, oldest first. -/
def reviewsUpTo (shards : List (ShardFile Value)) (index offset : ℕ) :
    List (ReviewShardEntry Value) :=
  reviewsOf (shards.take index) ++
    ((shards[index]?).elim [] fun shard ↦ shard.envelope.entries).take offset

/-- The cursor points into the shards, and `left` is in front of it. -/
def Stands (shards : List (ShardFile Value)) (generation : ℕ) (cursor : Cursor)
    (left : List (ReviewShardEntry Value)) : Prop :=
  ∃ index shard, shards[index]? = some shard ∧ cursor.offset ≤ shard.envelope.entries.length ∧
    cursor.generation = generation ∧ cursor.ordinal = shard.envelope.ordinal ∧
      left = reviewsUpTo shards index cursor.offset

section

variable {shards shards' : List (ShardFile Value)} {generation index : ℕ}
  {shard : ShardFile Value}

theorem reviewsUpTo_of_getElem? (h : shards[index]? = some shard) (offset : ℕ) :
    reviewsUpTo shards index offset =
      reviewsOf (shards.take index) ++ shard.envelope.entries.take offset := by
  rw [reviewsUpTo, h]
  rfl

theorem reviewsOf_take_succ (h : shards[index]? = some shard) :
    reviewsOf (shards.take (index + 1)) =
      reviewsOf (shards.take index) ++ shard.envelope.entries := by
  rw [List.take_add_one, h, reviewsOf, List.flatMap_append]
  simp [reviewsOf]

theorem reviewsUpTo_end (h : shards[index]? = some shard) :
    reviewsUpTo shards index shard.envelope.entries.length =
      reviewsOf (shards.take (index + 1)) := by
  rw [reviewsUpTo_of_getElem? h, List.take_length, reviewsOf_take_succ h]

theorem lengthBefore_succ (h : shards[index]? = some shard) :
    lengthBefore shards (index + 1) = shard.envelope.entries.length := by
  rw [lengthBefore, if_pos (Nat.succ_pos _), Nat.add_sub_cancel, h]
  rfl

theorem reviewsOf_take_of_grow (hgrow : ShardsGrow shards shards') (h : index < shards.length) :
    reviewsOf (shards'.take index) = reviewsOf (shards.take index) := by
  induction index with
  | zero => rfl
  | succ index ih =>
      have hshard := List.getElem?_eq_getElem (Nat.lt_of_succ_lt h)
      obtain ⟨shard', hshard', -, -, hentries⟩ := hgrow _ _ hshard
      rw [reviewsOf_take_succ hshard, reviewsOf_take_succ hshard', ih (Nat.lt_of_succ_lt h),
        hentries h]

/-- What grows keeps every place. -/
theorem Stands.grow {cursor : Cursor} {left : List (ReviewShardEntry Value)}
    (h : Stands shards generation cursor left) (hgrow : ShardsGrow shards shards') :
    Stands shards' generation cursor left := by
  obtain ⟨index, shard, hshard, hoffset, hgeneration, hordinal, rfl⟩ := h
  obtain ⟨shard', hshard', hordinal', ⟨more, hmore⟩, -⟩ := hgrow _ _ hshard
  obtain ⟨hindex, -⟩ := List.getElem?_eq_some_iff.mp hshard
  refine ⟨index, shard', hshard', ?_, hgeneration, hordinal.trans hordinal'.symm, ?_⟩
  · rw [← hmore, List.length_append]
    omega
  · rw [reviewsUpTo_of_getElem? hshard, reviewsUpTo_of_getElem? hshard',
      reviewsOf_take_of_grow hgrow hindex, ← hmore, List.take_append_of_le_length hoffset]

end

/-! ## What a page holds -/

section

variable {env : JournalEnv Value} {shards : List (ShardFile Value)}

/-- The newest `room` of the first `offset` elements. -/
theorem take_split {α : Type*} (l : List α) (offset room : ℕ) :
    l.take offset = l.take (offset - room) ++ (l.take offset).drop (offset - room) := by
  have hfront : (l.take offset).take (offset - room) = l.take (offset - room) := by
    rw [List.take_take, min_eq_left (Nat.sub_le _ _)]
  rw [← hfront, List.take_append_drop]

/-- The page takes the newest reviews in front of the place; it names a cursor exactly when
some are left. -/
theorem readBack_spec (hne : ∀ shard ∈ shards, shard.envelope.entries ≠ [])
    (generation : ℕ) (cursor : Option Cursor) {requested index offset : ℕ}
    {shard : ShardFile Value} {page : List PracticeReviewEntry}
    (hshard : shards[index]? = some shard) (hoffset : offset ≤ shard.envelope.entries.length)
    (hstart : (index + 1 = shards.length ∨
      cursor.any fun cursor ↦ cursor.ordinal = shard.envelope.ordinal) ∨
        offset = shard.envelope.entries.length)
    (hroom : page.length < requested) :
    ((reviewsUpTo shards index offset).length ≤ requested - page.length ∧
        readBack env shards generation cursor requested (index + 1) offset page =
          (page ++ (reviewsUpTo shards index offset).reverse.map (reviewEntry env), none)) ∨
      ∃ next left taken, Stands shards generation next left ∧ left ≠ [] ∧
        reviewsUpTo shards index offset = left ++ taken ∧
          taken.length = requested - page.length ∧
            readBack env shards generation cursor requested (index + 1) offset page =
              (page ++ taken.reverse.map (reviewEntry env), some next) := by
  induction index using Nat.strong_induction_on generalizing offset shard page with
  | _ index ih =>
      have hstart' : (if index + 1 = shards.length ∨
          cursor.any (fun cursor ↦ cursor.ordinal = shard.envelope.ordinal) then offset
          else shard.envelope.entries.length) = offset := by
        split_ifs with hcondition
        · rfl
        · exact (hstart.resolve_left hcondition).symm
      have hlength : (shard.envelope.entries.take offset).length = offset := by
        rw [List.length_take, min_eq_left hoffset]
      have hplace := reviewsUpTo_of_getElem? hshard offset
      rw [readBack, hshard]
      simp only [if_neg (not_le.mpr hroom), hstart']
      by_cases hfull : requested - page.length ≤ offset
      · generalize htaken : (shard.envelope.entries.take offset).drop
          (offset - (requested - page.length)) = taken
        have hsplit := take_split shard.envelope.entries offset (requested - page.length)
        rw [htaken] at hsplit
        have hroomLength : taken.length = requested - page.length := by
          rw [← htaken, List.length_drop, hlength]
          omega
        have hcode : (shard.envelope.entries.take offset).reverse.take (requested - page.length) =
            taken.reverse := by
          rw [List.take_reverse, hlength, htaken]
        have hpage : (page ++ taken.reverse.map (reviewEntry env)).length = requested := by
          rw [List.length_append, List.length_map, List.length_reverse, hroomLength]
          omega
        rw [hcode, if_pos hpage, List.length_reverse, hroomLength]
        by_cases hmore : offset - (requested - page.length) > 0
        · refine Or.inr
            ⟨⟨generation, shard.envelope.ordinal, offset - (requested - page.length)⟩,
              reviewsUpTo shards index (offset - (requested - page.length)), taken,
              ⟨index, shard, hshard, (Nat.sub_le _ _).trans hoffset, rfl, rfl, rfl⟩, ?_, ?_,
              hroomLength, by rw [if_pos hmore]⟩
          · rw [reviewsUpTo_of_getElem? hshard]
            intro hnil
            have hnone := congrArg List.length (List.append_eq_nil_iff.mp hnil).2
            rw [List.length_take, List.length_nil] at hnone
            omega
          · rw [hplace, reviewsUpTo_of_getElem? hshard, List.append_assoc, ← hsplit]
        · have hall : taken = shard.envelope.entries.take offset := by
            rw [hsplit, Nat.eq_zero_of_not_pos hmore, List.take_zero, List.nil_append]
          rw [if_neg hmore]
          cases index with
          | zero =>
              refine Or.inl ⟨?_, ?_⟩
              · rw [hplace, List.take_zero, reviewsOf, List.flatMap_nil, List.nil_append, hlength]
                omega
              · rw [if_neg (lt_irrefl 0), hplace, List.take_zero, reviewsOf, List.flatMap_nil,
                  List.nil_append, hall]
          | succ index =>
              obtain ⟨hindex, -⟩ := List.getElem?_eq_some_iff.mp hshard
              have hbefore := List.getElem?_eq_getElem (Nat.lt_of_succ_lt hindex)
              refine Or.inr ⟨⟨generation, shards[index].envelope.ordinal,
                shards[index].envelope.entries.length⟩, _, taken,
                ⟨index, _, hbefore, le_rfl, rfl, rfl, rfl⟩, ?_, ?_, hroomLength, ?_⟩
              · rw [reviewsUpTo_end hbefore, reviewsOf_take_succ hbefore]
                intro hnil
                exact hne _ (List.getElem_mem _) (List.append_eq_nil_iff.mp hnil).2
              · rw [hplace, reviewsUpTo_end hbefore, hall]
              · rw [if_pos (Nat.succ_pos _), Nat.add_sub_cancel, hbefore]
                rfl
      · have hcode : (shard.envelope.entries.take offset).reverse.take (requested - page.length) =
            (shard.envelope.entries.take offset).reverse := by
          rw [List.take_of_length_le]
          rw [List.length_reverse, hlength]
          omega
        have hpage : (page ++ (shard.envelope.entries.take offset).reverse.map
            (reviewEntry env)).length = page.length + offset := by
          rw [List.length_append, List.length_map, List.length_reverse, hlength]
        rw [hcode, if_neg (by rw [hpage]; omega)]
        cases index with
        | zero =>
            refine Or.inl ⟨?_, ?_⟩
            · rw [hplace, List.take_zero, reviewsOf, List.flatMap_nil, List.nil_append, hlength]
              omega
            · rw [readBack, hplace, List.take_zero, reviewsOf, List.flatMap_nil, List.nil_append]
        | succ index =>
            obtain ⟨hindex, -⟩ := List.getElem?_eq_some_iff.mp hshard
            have hbefore := List.getElem?_eq_getElem (Nat.lt_of_succ_lt hindex)
            have hrest := ih index (Nat.lt_succ_self _) hbefore le_rfl (Or.inr rfl)
              (hpage.trans_lt (by omega))
            have hall : reviewsUpTo shards (index + 1) offset =
                reviewsUpTo shards index shards[index].envelope.entries.length ++
                  shard.envelope.entries.take offset := by
              rw [hplace, reviewsUpTo_end hbefore]
            rw [lengthBefore_succ hbefore, hall]
            rcases hrest with ⟨hfits, hread⟩ |
              ⟨next, left, taken, hstands, hleft, hsplit, htaken, hread⟩
            · refine Or.inl ⟨?_, ?_⟩
              · rw [List.length_append, hlength]
                omega
              · rw [hread, List.reverse_append, List.map_append, List.append_assoc]
            · refine Or.inr ⟨next, left, taken ++ shard.envelope.entries.take offset, hstands,
                hleft, ?_, ?_, ?_⟩
              · rw [hsplit, List.append_assoc]
              · rw [List.length_append, hlength, htaken, hpage]
                omega
              · rw [hread, List.reverse_append, List.map_append, List.append_assoc]

end

/-! ## Following the cursors -/

section

variable {env : JournalEnv Value} {envelope : PositionsEnvelope Value} {s s' : Journal Value}
  {generation : ℕ}

theorem planned {α : Type} {plan : Except Error (Plan Value α)}
    {writes : List (JournalWrite Value)} (h : Plan.writes <$> plan = .ok writes) :
    ∃ planned, plan = .ok planned ∧ writes = planned.writes := by
  cases plan with
  | error e => cases h
  | ok planned => exact ⟨planned, rfl, (Except.ok.inj h).symm⟩

/-- Requests keep the shards of the generation; a record may append to them. -/
theorem shardsGrow_perform (h : s.Deck env envelope) (request : JournalRequest) (landed : ℕ)
    (hgeneration : (s.perform env request landed).generation = s.generation) :
    ShardsGrow (shardsOf s.store envelope.generation)
      (shardsOf (s.perform env request landed).store envelope.generation) := by
  cases hplan : planWrites env s.store request with
  | error e =>
      rw [perform_of_error hplan]
      exact .refl _
  | ok writes =>
      rw [perform_of_ok hplan] at hgeneration ⊢
      cases landed with
      | zero => exact .refl _
      | succ landed =>
          cases request with
          | record request =>
              obtain ⟨plan, hwritten, rfl⟩ := planned hplan
              rcases recordPracticeReview_eq_ok h hwritten with hnil | ⟨-, next, -, -, -,
                ⟨-, -, -, hwrites⟩ | ⟨-, -, -, -, file, entry, ⟨-, hleaf, -, hgrow⟩, hwrites⟩⟩
              · rw [hnil, List.take_nil]
                exact .refl _
              · rw [hwrites, List.take_succ_cons, List.take_nil]
                exact .refl _
              · have hput : shardsOf (s.store.write (.putShard file)) envelope.generation =
                    putFile file (shardsOf s.store envelope.generation) := by
                  rw [← hleaf, shardsOf_putFile]
                rw [← hput] at hgrow
                rw [hwrites, List.take_succ_cons]
                cases landed with
                | zero => exact hgrow
                | succ landed =>
                    rw [List.take_succ_cons, List.take_nil]
                    exact hgrow
          | sync generation revision document =>
              obtain ⟨plan, hwritten, rfl⟩ := planned hplan
              obtain ⟨next, -, -, -, -, -, hwrites⟩ := syncPracticePositions_eq_ok h hwritten
              rw [hwrites, List.take_succ_cons, List.take_nil]
              exact .refl _
          | reset generation revision document =>
              obtain ⟨plan, hwritten, rfl⟩ := planned hplan
              obtain ⟨next, hread, hnext, hlimit, happlied, horphans, leaves, hleaves, hwrites⟩ :=
                resetPracticeDeck_eq_ok h hwritten
              have hold : ∀ leaf ∈ leaves.take landed, leaf.1 < next.generation := by
                intro leaf hleaf
                have := hleaves leaf (List.mem_of_mem_take hleaf)
                omega
              have hreset : Journal.Deck env (((leaves.take landed).map .removeShard).foldl
                  (Journal.land env (.reset generation revision document)) _) next :=
                (h.reset hread hnext hlimit happlied horphans).removeShards hold
              rw [hwrites, List.take_succ_cons, List.foldl_cons, ← List.map_take] at hgeneration
              rw [Journal.generation, Journal.generation, h.positions] at hgeneration
              have hpositions := hreset.positions
              dsimp only [Journal.land] at hgeneration
              rw [hpositions] at hgeneration
              have := Option.some.inj hgeneration
              omega
          | acknowledge generation count =>
              obtain ⟨plan, hwritten, rfl⟩ := planned hplan
              obtain ⟨next, -, -, -, -, -, hwrites⟩ := acknowledgePracticeOrphans_eq_ok h hwritten
              rw [hwrites, List.take_succ_cons, List.take_nil]
              exact .refl _

theorem shardsGrow_step (h : s.Deck env envelope) {a : JournalAction}
    (hstep : journalStep env s a s') (hgeneration : s'.generation = s.generation) :
    ShardsGrow (shardsOf s.store envelope.generation) (shardsOf s'.store envelope.generation) := by
  cases a with
  | rate entryId =>
      obtain ⟨snapshot, -, -, rfl⟩ := hstep
      exact .refl _
  | request request landed =>
      obtain ⟨-, rfl⟩ := hstep
      exact shardsGrow_perform h request landed hgeneration

theorem Journal.Deck.generation_eq (h : s.Deck env envelope) :
    s.generation = some envelope.generation := by
  rw [Journal.generation, h.positions]
  rfl

/-- Between two requests of one generation the shards grow. -/
theorem shardsGrow_run (h : s.Deck env envelope) (hrun : (journalMachine env).Run s s')
    (hgeneration : s'.generation = s.generation) :
    (∃ next, s'.Deck env next ∧ next.generation = envelope.generation) ∧
      ShardsGrow (shardsOf s.store envelope.generation)
        (shardsOf s'.store envelope.generation) := by
  have hgrown : ∃ next, s'.Deck env next ∧ (envelope.generation < next.generation ∨
      envelope.generation = next.generation ∧
        ShardsGrow (shardsOf s.store envelope.generation)
          (shardsOf s'.store envelope.generation)) := by
    have hself : ∃ next, s.Deck env next ∧ (envelope.generation < next.generation ∨
        envelope.generation = next.generation ∧
          ShardsGrow (shardsOf s.store envelope.generation)
            (shardsOf s.store envelope.generation)) := ⟨envelope, h, Or.inr ⟨rfl, .refl _⟩⟩
    refine (journalMachine_invariant env).stable (Q := fun t ↦ ∃ next, t.Deck env next ∧
      (envelope.generation < next.generation ∨ envelope.generation = next.generation ∧
        ShardsGrow (shardsOf s.store envelope.generation)
          (shardsOf t.store envelope.generation))) ?_ (Or.inr ⟨envelope, h⟩) hself hrun
    rintro t a t' - ⟨e, he, hle⟩ - hstep
    obtain ⟨e', he', hnext⟩ := follows_step he hstep
    refine ⟨e', he', ?_⟩
    rcases hle with hlt | ⟨heq, hgrow⟩
    · rcases hnext with hlt' | ⟨heq', -⟩
      · exact Or.inl (hlt.trans hlt')
      · exact Or.inl (heq' ▸ hlt)
    · rcases hnext with hlt' | ⟨heq', -⟩
      · exact Or.inl (heq ▸ hlt')
      · have hsame : t'.generation = t.generation := by
          rw [he.generation_eq, he'.generation_eq, heq']
        have hstep' := shardsGrow_step he hstep hsame
        rw [← heq] at hstep'
        exact Or.inr ⟨heq.trans heq', hgrow.trans hstep'⟩
  obtain ⟨next, hnext, hlt | ⟨heq, hgrow⟩⟩ := hgrown
  · rw [h.generation_eq, hnext.generation_eq] at hgeneration
    have := Option.some.inj hgeneration
    omega
  · exact ⟨⟨next, hnext, heq.symm⟩, hgrow⟩

end

/-! ## A page of a deck in order -/

/-- The reviews that are left behind a cursor; without a cursor, all of them. -/
def LeftBehind (env : JournalEnv Value) (s : Journal Value) (generation : ℕ) :
    Option (List Char) → List (ReviewShardEntry Value) → Prop
  | none, left => left = s.log env
  | some text, left => ∃ cursor, text = cursorText cursor ∧
      Stands (shardsOf s.store generation) generation cursor left

theorem findIdx?_of_ascending {shards : List (ShardFile Value)} {index : ℕ}
    {shard : ShardFile Value}
    (hascending : shards.Pairwise fun a b ↦ a.envelope.ordinal < b.envelope.ordinal)
    (hshard : shards[index]? = some shard) :
    shards.findIdx? (fun other ↦ other.envelope.ordinal = shard.envelope.ordinal) =
      some index := by
  obtain ⟨hindex, rfl⟩ := List.getElem?_eq_some_iff.mp hshard
  rw [List.findIdx?_eq_some_iff_getElem]
  refine ⟨hindex, decide_eq_true rfl, fun j hj ↦ ?_⟩
  have hlt := List.pairwise_iff_getElem.mp hascending j index (hj.trans hindex) hindex hj
  rw [decide_eq_true_eq]
  exact hlt.ne

section

variable {env : JournalEnv Value} {envelope : PositionsEnvelope Value} {s s' : Journal Value}

namespace Journal.Deck

theorem ordinal_eq (h : s.Deck env envelope) {shard : ShardFile Value}
    (hshard : shard ∈ shardsOf s.store envelope.generation) :
    shard.envelope.ordinal = shard.leaf.2 :=
  (h.row.readable shard hshard).ordinal

theorem ascending (h : s.Deck env envelope) :
    (shardsOf s.store envelope.generation).Pairwise
      fun a b ↦ a.envelope.ordinal < b.envelope.ordinal := by
  refine h.row.ascending.imp_of_mem fun {a b} ha hb hlt ↦ ?_
  rwa [h.ordinal_eq ha, h.ordinal_eq hb]

theorem entries_length_le (h : s.Deck env envelope) {shard : ShardFile Value}
    (hshard : shard ∈ shardsOf s.store envelope.generation) :
    shard.envelope.entries.length ≤ u32Max := by
  refine le_trans ?_ h.count
  rw [h.log_eq, reviewsOf, List.flatMap_def]
  have hmem : shard.envelope.entries ∈ (shardsOf s.store envelope.generation).map
      fun shard ↦ shard.envelope.entries := List.mem_map_of_mem hshard
  exact (List.sublist_flatten_of_mem hmem).length_le

/-- The cursor of a place is read back. -/
theorem parseCursor_eq (h : s.Deck env envelope) {cursor : Cursor}
    {left : List (ReviewShardEntry Value)}
    (hstands : Stands (shardsOf s.store envelope.generation) envelope.generation cursor left) :
    parseCursor (some (cursorText cursor)) = .ok (some cursor) := by
  obtain ⟨index, shard, hshard, hoffset, hgeneration, hordinal, -⟩ := hstands
  have hmem := List.mem_of_getElem? hshard
  refine parseCursor_cursorText ?_ ?_ (hoffset.trans (h.entries_length_le hmem))
  · rw [hgeneration]
    exact h.generation_le
  · rw [hordinal, h.ordinal_eq hmem]
    exact h.row.ordinal_le shard hmem

/-- What is read back when the page starts at a known place. -/
theorem loadPracticeReviews_of_start (h : s.Deck env envelope) {limit : ℕ} (hlimit : 0 < limit)
    {cursor : Option (List Char)} {parsed : Option Cursor} {index offset : ℕ}
    (hparse : parseCursor cursor = .ok parsed)
    (hcurrent : parsed.any (fun cursor ↦ cursor.generation ≠ envelope.generation) = false)
    (hstart : pageStart (shardsOf s.store envelope.generation) parsed = .ok (index, offset)) :
    loadPracticeReviews env s.store cursor limit =
      (fun read : List PracticeReviewEntry × Option Cursor ↦
        .ok ⟨read.1, read.2.map cursorText⟩)
        (readBack env (shardsOf s.store envelope.generation) envelope.generation parsed
          (min limit practiceReadMaxEntries) index offset []) := by
  have hrequested : min limit practiceReadMaxEntries ≠ 0 :=
    (lt_min hlimit (by decide : 0 < practiceReadMaxEntries)).ne'
  have hgeneration : (envelope.canonical env).generation = envelope.generation := rfl
  simp only [loadPracticeReviews, h.loadValidDeck_eq, hparse, hgeneration, hcurrent, hstart,
    hrequested, bind, Except.bind, if_false, Bool.false_eq_true]

/-- Where the reviews that are left end. -/
theorem pageStart_eq (h : s.Deck env envelope) {cursor : Option (List Char)}
    {left : List (ReviewShardEntry Value)}
    (hleft : LeftBehind env s envelope.generation cursor left) :
    ∃ parsed, parseCursor cursor = .ok parsed ∧
      parsed.any (fun cursor ↦ cursor.generation ≠ envelope.generation) = false ∧
        ((left = [] ∧ pageStart (shardsOf s.store envelope.generation) parsed = .ok (0, 0)) ∨
          ∃ index offset shard,
            pageStart (shardsOf s.store envelope.generation) parsed = .ok (index + 1, offset) ∧
              (shardsOf s.store envelope.generation)[index]? = some shard ∧
                offset ≤ shard.envelope.entries.length ∧
                  (index + 1 = (shardsOf s.store envelope.generation).length ∨
                    parsed.any fun cursor ↦ cursor.ordinal = shard.envelope.ordinal) ∧
                      left = reviewsUpTo (shardsOf s.store envelope.generation) index offset) := by
  cases cursor with
  | none =>
      refine ⟨none, rfl, rfl, ?_⟩
      have hlog : left = reviewsOf (shardsOf s.store envelope.generation) := hleft.trans h.log_eq
      generalize shardsOf s.store envelope.generation = shards at hlog
      rcases List.eq_nil_or_concat' shards with rfl | ⟨front, last, rfl⟩
      · exact Or.inl ⟨hlog, rfl⟩
      · have hlast : (front ++ [last])[front.length]? = some last := List.getElem?_concat_length
        have hlength : (front ++ [last]).length = front.length + 1 := by
          rw [List.length_append, List.length_singleton]
        refine Or.inr ⟨front.length, last.envelope.entries.length, last, ?_, hlast, le_rfl,
          Or.inl hlength.symm, ?_⟩
        · rw [pageStart, hlength, lengthBefore_succ hlast]
        · rw [reviewsUpTo_end hlast, ← hlength, List.take_length, hlog]
  | some text =>
      obtain ⟨cursor, rfl, hstands⟩ := hleft
      refine ⟨some cursor, h.parseCursor_eq hstands, ?_⟩
      obtain ⟨index, shard, hshard, hoffset, hgeneration, hordinal, hreviews⟩ := hstands
      refine ⟨by simp [hgeneration], Or.inr ⟨index, cursor.offset, shard, ?_, hshard, hoffset,
        Or.inr (by simp [hordinal]), hreviews⟩⟩
      have hfound := findIdx?_of_ascending h.ascending hshard
      rw [← hordinal] at hfound
      simp only [pageStart, hfound, lengthBefore_succ hshard]
      exact if_neg (not_lt.mpr hoffset)

/-- A page holds the newest of the reviews that are left; it names a cursor exactly when it
does not hold them all. -/
theorem loadPracticeReviews_eq (h : s.Deck env envelope) {limit : ℕ} (hlimit : 0 < limit)
    {cursor : Option (List Char)} {left : List (ReviewShardEntry Value)}
    (hleft : LeftBehind env s envelope.generation cursor left) :
    (left.length ≤ min limit practiceReadMaxEntries ∧
        loadPracticeReviews env s.store cursor limit =
          .ok ⟨left.reverse.map (reviewEntry env), none⟩) ∨
      ∃ next left' taken,
        Stands (shardsOf s.store envelope.generation) envelope.generation next left' ∧
          left = left' ++ taken ∧ taken.length = min limit practiceReadMaxEntries ∧
            loadPracticeReviews env s.store cursor limit =
              .ok ⟨taken.reverse.map (reviewEntry env), some (cursorText next)⟩ := by
  have hrequested : 0 < min limit practiceReadMaxEntries := lt_min hlimit (by decide)
  obtain ⟨parsed, hparse, hcurrent, ⟨rfl, hstart⟩ |
    ⟨index, offset, shard, hstart, hshard, hoffset, hplace, rfl⟩⟩ := h.pageStart_eq hleft
  · rw [h.loadPracticeReviews_of_start hlimit hparse hcurrent hstart]
    exact Or.inl ⟨Nat.zero_le _, rfl⟩
  · have hne : ∀ shard ∈ shardsOf s.store envelope.generation, shard.envelope.entries ≠ [] :=
      fun shard hshard ↦ (h.row.readable shard hshard).ne_nil
    have hempty : ([] : List PracticeReviewEntry).length < min limit practiceReadMaxEntries :=
      hrequested
    have hread := @readBack_spec _ env _ hne envelope.generation parsed _ _ _ _ _ hshard hoffset
      (Or.inl hplace) hempty
    rw [h.loadPracticeReviews_of_start hlimit hparse hcurrent hstart]
    rcases hread with ⟨hfits, hread⟩ | ⟨next, left, taken, hstands, -, hsplit, htaken, hread⟩
    · refine Or.inl ⟨hfits, ?_⟩
      rw [hread]
      rfl
    · refine Or.inr ⟨next, left, taken, hstands, hsplit, htaken, ?_⟩
      rw [hread]
      rfl

end Journal.Deck

/-! ## All pages -/

/-- Following the cursors gives every review that existed at the first page once, newest first,
whatever is appended between two pages. -/
theorem readReviews_follow {s : ℕ → Journal Value} {limit generation : ℕ}
    (hs : (journalMachine env).Reachable (s 0))
    (hrun : ∀ n, (journalMachine env).Run (s n) (s (n + 1)))
    (hgeneration : ∀ n, (s n).generation = some generation) (hlimit : 0 < limit) :
    ∃ pages,
      (∀ fuel, ((s 0).log env).length < fuel →
        Paging.follow (readReviews env (fun n ↦ (s n).store) limit) fuel 0 none =
          .ok (some pages)) ∧
        pages.flatten = ((s 0).log env).reverse.map (reviewEntry env) ∧
          ∀ page ∈ pages, page.length ≤ min limit practiceReadMaxEntries := by
  have hdecks : ∀ n, ∃ envelope, (s n).Deck env envelope ∧ envelope.generation = generation := by
    intro n
    have hreachable : (journalMachine env).Reachable (s n) := by
      induction n with
      | zero => exact hs
      | succ n ih => exact ih.run (hrun n)
    rcases (journalMachine_invariant env).reachable hreachable with hfresh | ⟨envelope, hdeck⟩
    · have hnone := hgeneration n
      rw [Journal.generation, hfresh.positions] at hnone
      cases hnone
    · refine ⟨envelope, hdeck, Option.some.inj ?_⟩
      rw [← hdeck.generation_eq, hgeneration n]
  have hgrow : ∀ n, ShardsGrow (shardsOf (s n).store generation)
      (shardsOf (s (n + 1)).store generation) := by
    intro n
    obtain ⟨envelope, hdeck, rfl⟩ := hdecks n
    exact (shardsGrow_run hdeck (hrun n) ((hgeneration _).trans (hgeneration n).symm)).2
  have hadvances : Paging.Advances (readReviews env (fun n ↦ (s n).store) limit)
      fun n cursor rest ↦ ∃ left, LeftBehind env (s n) generation cursor left ∧
        rest = left.reverse.map (reviewEntry env) := by
    refine ⟨?_⟩
    rintro n cursor _ ⟨left, hleft, rfl⟩
    obtain ⟨envelope, hdeck, rfl⟩ := hdecks n
    rcases hdeck.loadPracticeReviews_eq hlimit hleft with ⟨-, hload⟩ |
      ⟨next, left', taken, hstands, rfl, htaken, hload⟩
    · refine Or.inl ?_
      simp only [readReviews, hload, bind, Except.bind, Option.map_none]
    · refine Or.inr ⟨taken.reverse.map (reviewEntry env), left'.reverse.map (reviewEntry env),
        some (cursorText next), ?_, ?_, ?_, left', ⟨next, rfl, hstands.grow (hgrow n)⟩, rfl⟩
      · have hpos : 0 < taken.length := htaken ▸ lt_min hlimit (by decide)
        rw [Ne, List.map_eq_nil_iff, List.reverse_eq_nil_iff]
        exact List.ne_nil_of_length_pos hpos
      · rw [List.reverse_append, List.map_append]
      · simp only [readReviews, hload, bind, Except.bind, Option.map_some]
  have hlog : LeftBehind env (s 0) generation none ((s 0).log env) := rfl
  obtain ⟨pages, hpages, hflatten, heach⟩ :=
    Paging.follow_eq hadvances (((s 0).log env).reverse.map (reviewEntry env)) ⟨_, hlog, rfl⟩
  refine ⟨pages, fun fuel hfuel ↦ hpages fuel ?_, hflatten, ?_⟩
  · rwa [List.length_map, List.length_reverse]
  · intro page hpage
    obtain ⟨n, cursor, rest, next, ⟨left, hleft, -⟩, hread⟩ := heach page hpage
    obtain ⟨envelope, hdeck, rfl⟩ := hdecks n
    rcases hdeck.loadPracticeReviews_eq hlimit hleft with ⟨hfits, hload⟩ |
      ⟨_, left', taken, -, -, htaken, hload⟩
    · simp only [readReviews, hload, bind, Except.bind, Except.ok.injEq, Prod.mk.injEq] at hread
      rw [← hread.1, List.length_map, List.length_reverse]
      exact hfits
    · simp only [readReviews, hload, bind, Except.bind, Except.ok.injEq, Prod.mk.injEq] at hread
      rw [← hread.1, List.length_map, List.length_reverse]
      exact htaken.le

end

/-! ### A review that is appended between two pages -/

/-- A third review is rated and recorded. -/
def grownJournal : Journal String :=
  { overtakenJournal with ratings := ⟨"c", 0, 3⟩ :: overtakenJournal.ratings }.perform textEnv
    (.record ⟨0, 3, 3, noPositions, reviewB, "c"⟩) 2

def pagedJournals : ℕ → Journal String
  | 0 => overtakenJournal
  | _ + 1 => grownJournal

theorem run_grownJournal : (journalMachine textEnv).Run overtakenJournal grownJournal := by
  have hrate : (journalMachine textEnv).step overtakenJournal (.rate "c")
      { overtakenJournal with ratings := ⟨"c", 0, 3⟩ :: overtakenJournal.ratings } :=
    ⟨⟨noPositions, 3, 0, false, 1, false⟩, by decide +kernel, by decide +kernel, rfl⟩
  have hrecord : (journalMachine textEnv).step
      { overtakenJournal with ratings := ⟨"c", 0, 3⟩ :: overtakenJournal.ratings }
      (.request (.record ⟨0, 3, 3, noPositions, reviewB, "c"⟩) 2) grownJournal := by
    refine ⟨?_, rfl⟩
    rintro _ ⟨⟩
    exact List.mem_cons_self ..
  exact (Machine.Run.refl.step hrate).step hrecord

theorem run_pagedJournals (n : ℕ) :
    (journalMachine textEnv).Run (pagedJournals n) (pagedJournals (n + 1)) := by
  cases n with
  | zero => exact run_grownJournal
  | succ n => exact Machine.Run.refl

theorem generation_pagedJournals (n : ℕ) : (pagedJournals n).generation = some 0 := by
  cases n with
  | zero =>
      change overtakenJournal.generation = some 0
      decide +kernel
  | succ n =>
      change grownJournal.generation = some 0
      decide +kernel

theorem readReviews_follow_pagedJournals :
    ∃ pages : List (List PracticeReviewEntry),
      Paging.follow (readReviews textEnv (fun n ↦ (pagedJournals n).store) 1) 3 0 none =
          .ok (some pages) ∧
        pages.flatten = [⟨"b", reviewB⟩, ⟨"a", reviewA⟩] ∧
          (grownJournal.log textEnv).length = 3 := by
  have hreachable : (journalMachine textEnv).Reachable (pagedJournals 0) :=
    reachable_ratedJournal.run run_overtakenJournal
  obtain ⟨pages, hpages, hflatten, -⟩ := readReviews_follow hreachable run_pagedJournals
    generation_pagedJournals (show 0 < 1 by decide)
  have hlog : ((pagedJournals 0).log textEnv).reverse.map (reviewEntry textEnv) =
      [⟨"b", reviewB⟩, ⟨"a", reviewA⟩] := by
    change (overtakenJournal.log textEnv).reverse.map (reviewEntry textEnv) = _
    decide +kernel
  have hlength : ((pagedJournals 0).log textEnv).length = 2 := by
    simpa using congrArg List.length hlog
  exact ⟨pages, hpages 3 (by omega), hflatten.trans hlog, by decide +kernel⟩

/-- Pages without room hold nothing, and no cursor leads on. -/
theorem exists_empty_pages :
    ∃ s, (journalMachine textEnv).Reachable s ∧
      Paging.follow (readReviews textEnv (fun _ ↦ s.store) 0) 1 0 none = .ok (some [[]]) ∧
        (s.log textEnv).length = 2 := by
  refine ⟨overtakenJournal, reachable_ratedJournal.run run_overtakenJournal, ?_, ?_⟩
  · decide +kernel
  · decide +kernel

end EnCroissant

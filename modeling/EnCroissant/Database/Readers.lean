import Mathlib
import EnCroissant.Database.Framing

/-!
# The three readers of a stored game agree

The decoder, the validator and the mainline iterator are compared through the
forest of chunks that the bytes serialize.
-/

namespace EnCroissant

open Bracketed

/-! ## Comments with their continuation chunks joined -/

inductive Annotated where
  | move (byte : MoveByte)
  | comment (text : List UInt8)
  | nag (text : List UInt8)

def Annotated.moveByte? : Annotated → Option UInt8
  | move byte => some byte.1
  | _ => none

/-- Puts a full chunk in front of the comment that continues it. -/
def prependComment (text : List UInt8) : Forest Annotated → Forest Annotated
  | .leaf (.comment text') next => .leaf (.comment (text ++ text')) next
  | f => .leaf (.comment text) f

def merge : Forest Chunk → Forest Annotated
  | .nil => .nil
  | .leaf (.move byte) next => .leaf (.move byte) (merge next)
  | .leaf (.comment payload) next =>
      if payload.1.length = maxChunk then prependComment payload.1 (merge next)
      else .leaf (.comment payload.1) (merge next)
  | .leaf (.nag payload) next => .leaf (.nag payload.1) (merge next)
  | .branch inner next => .branch (merge inner) (merge next)

theorem mainlineBytes_prependComment (text : List UInt8) (f : Forest Annotated) :
    mainlineBytes Annotated.moveByte? (prependComment text f) =
      mainlineBytes Annotated.moveByte? f := by
  cases f with
  | nil => rfl
  | leaf a next => cases a <;> rfl
  | branch inner next => rfl

/-- Joining chunks leaves the move bytes where they are. -/
theorem mainlineBytes_merge (f : Forest Chunk) :
    mainlineBytes Annotated.moveByte? (merge f) = mainlineBytes Chunk.moveByte? f := by
  induction f with
  | nil => rfl
  | leaf c next ih =>
      rw [mainlineBytes_leaf, ← ih]
      cases c with
      | move byte => rfl
      | nag payload => rfl
      | comment payload =>
          rw [merge]
          split
          · exact mainlineBytes_prependComment _ _
          · rfl
  | branch inner next _ ih => exact ih

section

variable (S : Shakmaty)

/-- Every move byte is an index into the legal moves of the position it is
played from.  `prev` is the position before the last move of the line. -/
def IndicesValid {α : Type*} (byteOf : α → Option UInt8) :
    Forest α → S.Chess → Option S.Chess → Prop
  | .nil, _, _ => True
  | .leaf a next, chess, prev =>
      match byteOf a with
      | none => IndicesValid byteOf next chess prev
      | some byte =>
          ∃ m, decodeMove S byte chess = some m ∧
            IndicesValid byteOf next (S.playUnchecked chess m) (some chess)
  | .branch inner next, chess, prev =>
      IndicesValid byteOf inner (prev.getD chess) none ∧ IndicesValid byteOf next chess prev

theorem indicesValid_prependComment (text : List UInt8) (f : Forest Annotated)
    (chess : S.Chess) (prev : Option S.Chess) :
    IndicesValid S Annotated.moveByte? (prependComment text f) chess prev ↔
      IndicesValid S Annotated.moveByte? f chess prev := by
  cases f with
  | nil => exact Iff.rfl
  | leaf a next => cases a <;> exact Iff.rfl
  | branch inner next => exact Iff.rfl

theorem indicesValid_merge (f : Forest Chunk) (chess : S.Chess) (prev : Option S.Chess) :
    IndicesValid S Annotated.moveByte? (merge f) chess prev ↔
      IndicesValid S Chunk.moveByte? f chess prev := by
  induction f generalizing chess prev with
  | nil => exact Iff.rfl
  | leaf c next ih =>
      cases c with
      | move byte => simp only [merge, IndicesValid, Annotated.moveByte?, Chunk.moveByte?, ih]
      | nag payload =>
          simp only [merge, IndicesValid, Annotated.moveByte?, Chunk.moveByte?, ih]
      | comment payload =>
          rw [merge]
          split
          · rw [indicesValid_prependComment, ih]
            rfl
          · simp only [IndicesValid, Annotated.moveByte?, Chunk.moveByte?, ih]
  | branch inner next ihInner ihNext =>
      simp only [merge, IndicesValid, ihInner, ihNext]

/-! ## The decoder on a forest -/

variable {S}

/-- The frame after a whole forest, or `none` at an invalid move index. -/
def render : Forest Annotated → DecodeFrame S → Option (DecodeFrame S)
  | .nil, frame => some frame
  | .leaf (.move byte) next, frame =>
      match decodeMove S byte.1 frame.chess with
      | none => none
      | some m => render next (frame.pushMove m)
  | .leaf (.comment text) next, frame =>
      render next (frame.push (.comment (fromUtf8Lossy text)))
  | .leaf (.nag text) next, frame => render next (frame.push (.nag (fromUtf8Lossy text)))
  | .branch inner next, frame =>
      match render inner frame.openVariation with
      | none => none
      | some variation => render next (frame.push (.variation variation.nodes))

/-- Rendering fails at an invalid index and nowhere else. -/
theorem render_isSome_iff (f : Forest Annotated) (frame : DecodeFrame S) :
    (render f frame).isSome ↔
      IndicesValid S Annotated.moveByte? f frame.chess frame.preMovePositions.getLast? := by
  induction f generalizing frame with
  | nil => simp [render, IndicesValid]
  | leaf a next ih =>
      cases a with
      | move byte =>
          simp only [render, IndicesValid, Annotated.moveByte?]
          cases hm : decodeMove S byte.1 frame.chess with
          | none => simp
          | some m => simp [ih, DecodeFrame.pushMove]
      | comment text => exact ih (frame.push (.comment (fromUtf8Lossy text)))
      | nag text => exact ih (frame.push (.nag (fromUtf8Lossy text)))
  | branch inner next ihInner ihNext =>
      have hinner := ihInner frame.openVariation
      simp only [DecodeFrame.openVariation_chess, DecodeFrame.openVariation_preMovePositions,
        List.getLast?_nil] at hinner
      rw [render, IndicesValid, ← hinner]
      cases hv : render inner frame.openVariation with
      | none => simp
      | some variation => simpa using ihNext (frame.push (.variation variation.nodes))

/-! ## The decoder on serialized forests -/

theorem takePayload_prefixed (lengthError payloadError : String) (payload : Payload)
    (rest : List UInt8) :
    takePayload lengthError payloadError
      (toLeBytes payload.1.length ++ (payload.1 ++ rest)) = .ok (payload.1, rest) := by
  simp [toLeBytes, takePayload, fromLeBytes_toLeBytes payload.2]

theorem takeCommentPayload_prefixed (payload : Payload) (rest : List UInt8) :
    takeCommentPayload (toLeBytes payload.1.length ++ (payload.1 ++ rest)) =
      .ok (payload.1, rest) :=
  takePayload_prefixed _ _ payload rest

theorem takeNagPayload_prefixed (payload : Payload) (rest : List UInt8) :
    takeNagPayload (toLeBytes payload.1.length ++ (payload.1 ++ rest)) =
      .ok (payload.1, rest) :=
  takePayload_prefixed _ _ payload rest

theorem decodeLoop_start (frame : DecodeFrame S) (parents : List (DecodeFrame S))
    (rest : List UInt8) :
    decodeLoop S frame parents (variationStartMarker :: rest) =
      decodeLoop S frame.openVariation (frame :: parents) rest := by
  rw [decodeLoop.eq_def]
  simp only [if_true]

theorem decodeLoop_end (frame parent : DecodeFrame S) (parents : List (DecodeFrame S))
    (rest : List UInt8) :
    decodeLoop S frame (parent :: parents) (variationEndMarker :: rest) =
      decodeLoop S (parent.push (.variation frame.nodes)) parents rest := by
  have hstart : variationEndMarker ≠ variationStartMarker := by decide
  rw [decodeLoop.eq_def]
  simp only [hstart, if_false, if_true]

theorem decodeLoop_comment (frame : DecodeFrame S) (parents : List (DecodeFrame S))
    {bytes payload rest : List UInt8} (h : commentPayload [] bytes = .ok (payload, rest)) :
    decodeLoop S frame parents (commentMarker :: bytes) =
      decodeLoop S (frame.push (.comment (fromUtf8Lossy payload))) parents rest := by
  have hstart : commentMarker ≠ variationStartMarker := by decide
  have hend : commentMarker ≠ variationEndMarker := by decide
  rw [decodeLoop.eq_def]
  simp only [hstart, hend, if_false, if_true]
  split <;> simp_all

theorem decodeLoop_nag (frame : DecodeFrame S) (parents : List (DecodeFrame S))
    {bytes payload rest : List UInt8} (h : takeNagPayload bytes = .ok (payload, rest)) :
    decodeLoop S frame parents (nagMarker :: bytes) =
      decodeLoop S (frame.push (.nag (fromUtf8Lossy payload))) parents rest := by
  have hstart : nagMarker ≠ variationStartMarker := by decide
  have hend : nagMarker ≠ variationEndMarker := by decide
  have hcomment : nagMarker ≠ commentMarker := by decide
  rw [decodeLoop.eq_def]
  simp only [hstart, hend, hcomment, if_false, if_true]
  split <;> simp_all

theorem decodeLoop_move (frame : DecodeFrame S) (parents : List (DecodeFrame S))
    (byte : MoveByte) (rest : List UInt8) :
    decodeLoop S frame parents (byte.1 :: rest) =
      match decodeMove S byte.1 frame.chess with
      | none => .error (invalidData "Invalid move index for current position")
      | some m => decodeLoop S (frame.pushMove m) parents rest := by
  obtain ⟨hstart, hend, hcomment, hnag⟩ := byte.ne_markers
  rw [decodeLoop.eq_def]
  dsimp only
  rewrite [if_neg hstart, if_neg hend, if_neg hcomment, if_neg hnag]
  cases decodeMove S byte.1 frame.chess with
  | none => rfl
  | some m => rfl

/-- A chunk that is not full, or that no comment follows, ends its comment. -/
theorem merge_comment_of_stop {payload : Payload} {next : Forest Chunk}
    (h : payload.1.length ≠ maxChunk ∨
      (storedBytes next).head? ≠ some commentMarker) :
    merge (.leaf (.comment payload) next) = .leaf (.comment payload.1) (merge next) := by
  rw [merge]
  split
  case isFalse => rfl
  case isTrue hfull =>
    have hnext := h.resolve_left (not_not.mpr hfull)
    cases next with
    | nil => rfl
    | branch inner next => rfl
    | leaf c next =>
        cases c with
        | move byte => rfl
        | nag payload' => rfl
        | comment payload' => simp [Chunk.bytes, annotationChunk] at hnext

/-- What reading the comment that starts with `payload` yields: its whole text,
and the forest behind its last chunk. -/
def CommentRun (payload : Payload) (next : Forest Chunk) (rest : List UInt8) : Prop :=
  ∃ (text : List UInt8) (tail : Forest Chunk),
    merge (.leaf (.comment payload) next) = .leaf (.comment text) (merge tail) ∧
      (storedBytes tail).length ≤ (storedBytes next).length ∧
        ∀ before, commentPayload before
          (toLeBytes payload.1.length ++ (payload.1 ++ (storedBytes next ++ rest))) =
            .ok (before ++ text, storedBytes tail ++ rest)

theorem commentRun_of_stop {payload : Payload} {next : Forest Chunk} {rest : List UInt8}
    (hrest : rest.head? ≠ some commentMarker)
    (h : payload.1.length ≠ maxChunk ∨ (storedBytes next).head? ≠ some commentMarker) :
    CommentRun payload next rest := by
  refine ⟨payload.1, next, merge_comment_of_stop h, le_rfl, fun before ↦ ?_⟩
  rw [commentPayload_of_take (takeCommentPayload_prefixed payload _), if_neg]
  rintro ⟨hfull, hhead⟩
  have hnext := h.resolve_left (not_not.mpr hfull)
  rw [List.head?_append] at hhead
  cases hs : (storedBytes next).head? with
  | none => exact hrest (by simpa [hs] using hhead)
  | some b => exact hnext (by simpa [hs] using hhead)

/-- A comment chunk and the chunks that continue it are read as one comment. -/
theorem commentRun (payload : Payload) (next : Forest Chunk) {rest : List UInt8}
    (hrest : rest.head? ≠ some commentMarker) :
    CommentRun payload next rest := by
  induction next generalizing payload with
  | nil => exact commentRun_of_stop hrest (Or.inr (by simp))
  | branch inner next =>
      refine commentRun_of_stop hrest (Or.inr ?_)
      rw [storedBytes_branch, List.head?_cons]
      decide
  | leaf c next ih =>
      cases c with
      | move byte =>
          refine commentRun_of_stop hrest (Or.inr ?_)
          simpa [Chunk.bytes] using byte.ne_markers.2.2.1
      | nag payload' =>
          refine commentRun_of_stop hrest (Or.inr ?_)
          rw [storedBytes_leaf, Chunk.bytes, annotationChunk, List.cons_append, List.head?_cons]
          decide
      | comment payload' =>
          by_cases hfull : payload.1.length = maxChunk
          · obtain ⟨text, tail, hmerge, hlen, hread⟩ := ih payload'
            refine ⟨payload.1 ++ text, tail, ?_, ?_, fun before ↦ ?_⟩
            · rw [merge, if_pos hfull, hmerge]
              rfl
            · rw [storedBytes_leaf, List.length_append]
              omega
            · have hbytes : storedBytes (.leaf (.comment payload') next) ++ rest =
                  commentMarker ::
                    (toLeBytes payload'.1.length ++
                      (payload'.1 ++ (storedBytes next ++ rest))) := by
                simp [Chunk.bytes, annotationChunk]
              rw [commentPayload_of_take (takeCommentPayload_prefixed payload _), hbytes,
                if_pos ⟨hfull, rfl⟩, List.tail_cons, hread, List.append_assoc]
          · exact commentRun_of_stop hrest (Or.inl hfull)

/-- The decoder reads a serialized forest as rendering does. -/
theorem decodeLoop_storedBytes (f : Forest Chunk) (frame : DecodeFrame S)
    (parents : List (DecodeFrame S)) {rest : List UInt8}
    (hrest : rest.head? ≠ some commentMarker) :
    decodeLoop S frame parents (storedBytes f ++ rest) =
      match render (merge f) frame with
      | none => .error (invalidData "Invalid move index for current position")
      | some frame' => decodeLoop S frame' parents rest := by
  induction hn : (storedBytes f).length using Nat.strong_induction_on
    generalizing f frame parents rest with
  | _ n ih =>
    subst hn
    cases f with
    | nil => rfl
    | branch inner next =>
        have hend : (variationEndMarker :: (storedBytes next ++ rest)).head? ≠
            some commentMarker := by
          rw [List.head?_cons]
          decide
        have hlenInner : (storedBytes inner).length <
            (storedBytes (.branch inner next)).length := by
          simp only [storedBytes_branch, List.length_cons, List.length_append]
          omega
        have hlenNext : (storedBytes next).length <
            (storedBytes (.branch inner next)).length := by
          simp only [storedBytes_branch, List.length_cons, List.length_append]
          omega
        rw [storedBytes_branch, List.cons_append, List.append_assoc, List.cons_append,
          decodeLoop_start, ih _ hlenInner inner _ _ hend rfl, merge, render]
        cases hv : render (merge inner) frame.openVariation with
        | none => rfl
        | some variation =>
            simp only []
            rw [decodeLoop_end, ih _ hlenNext next _ _ hrest rfl]
    | leaf c next =>
        cases c with
        | move byte =>
            have hlen : (storedBytes next).length <
                (storedBytes (.leaf (.move byte) next)).length := by
              simp [Chunk.bytes]
            rw [storedBytes_leaf, Chunk.bytes, List.cons_append, List.nil_append,
              List.cons_append, decodeLoop_move, merge, render]
            cases hm : decodeMove S byte.1 frame.chess with
            | none => rfl
            | some m =>
                simp only []
                rw [ih _ hlen next _ _ hrest rfl]
        | nag payload =>
            have hlen : (storedBytes next).length <
                (storedBytes (.leaf (.nag payload) next)).length := by
              simp only [storedBytes_leaf, Chunk.bytes, annotationChunk, List.cons_append,
                List.length_cons, List.length_append]
              omega
            rw [storedBytes_leaf, Chunk.bytes, annotationChunk, List.cons_append,
              List.cons_append, List.append_assoc, List.append_assoc,
              decodeLoop_nag _ _ (takeNagPayload_prefixed payload _),
              ih _ hlen next _ _ hrest rfl, merge, render]
        | comment payload =>
            obtain ⟨text, tail, hmerge, htail, hread⟩ := commentRun payload next hrest
            have hlen : (storedBytes tail).length <
                (storedBytes (.leaf (.comment payload) next)).length := by
              simp only [storedBytes_leaf, Chunk.bytes, annotationChunk, List.cons_append,
                List.length_cons, List.length_append]
              omega
            rw [storedBytes_leaf, Chunk.bytes, annotationChunk, List.cons_append,
              List.cons_append, List.append_assoc, List.append_assoc,
              decodeLoop_comment _ _ (hread []), ih _ hlen tail _ _ hrest rfl, hmerge, render,
              List.nil_append]

/-- Decoding a serialized forest fails at an invalid index and nowhere else. -/
theorem decodeGame_storedBytes (f : Forest Chunk) {setup : S.Setup} {start : S.Chess}
    (hstart : databaseSetupToChess S setup = .ok start) :
    decodeGame S (storedBytes f) setup =
      match render (merge f) (DecodeFrame.new start) with
      | none => .error (invalidData "Invalid move index for current position")
      | some root => .ok ⟨root.nodes⟩ := by
  have hrest : ([] : List UInt8).head? ≠ some commentMarker := by simp
  have h := decodeLoop_storedBytes f (DecodeFrame.new start) [] hrest
  rw [List.append_nil] at h
  simp only [decodeGame, hstart, h]
  cases render (merge f) (DecodeFrame.new start) with
  | none => rfl
  | some root => simp [decodeLoop.eq_def]

/-! ## What the decoder accepts -/

theorem exists_payload_of_take {lengthError payloadError : String}
    {bytes chunk rest : List UInt8}
    (h : takePayload lengthError payloadError bytes = .ok (chunk, rest)) :
    ∃ payload : Payload, payload.1 = chunk ∧
      bytes = toLeBytes payload.1.length ++ (payload.1 ++ rest) := by
  obtain ⟨lo, hi, rfl, hlen⟩ := takePayload_eq_ok h
  have hle : chunk.length ≤ maxChunk := hlen ▸ fromLeBytes_le lo hi
  refine ⟨⟨chunk, hle⟩, rfl, ?_⟩
  change _ = toLeBytes chunk.length ++ (chunk ++ rest)
  rw [hlen, toLeBytes_fromLeBytes]
  rfl

theorem validateFrom_of_take {lengthError payloadError : String} {marker : UInt8}
    (hmarker : marker = commentMarker ∨ marker = nagMarker) {bytes chunk rest : List UInt8}
    (h : takePayload lengthError payloadError bytes = .ok (chunk, rest)) (d : ℕ) :
    validateFrom 0 d (marker :: bytes) = validateFrom 0 d rest := by
  obtain ⟨payload, -, rfl⟩ := exists_payload_of_take h
  rw [← validateFrom_annotation hmarker payload rest d, annotationChunk, List.cons_append,
    List.append_assoc]

theorem validateFrom_of_commentPayload {before bytes text rest : List UInt8}
    (h : commentPayload before bytes = .ok (text, rest)) (d : ℕ) :
    validateFrom 0 d (commentMarker :: bytes) = validateFrom 0 d rest := by
  fun_induction commentPayload before bytes with
  | case1 => cases h
  | case2 before bytes chunk tail htake hfull ih =>
      have hhead : commentMarker :: tail.tail = tail := by
        cases tail with
        | nil => simp at hfull
        | cons b tail =>
            obtain rfl : b = commentMarker := by simpa using hfull.2
            rfl
      rw [validateFrom_of_take (Or.inl rfl) htake, ← hhead]
      exact ih h
  | case3 before bytes chunk tail htake =>
      obtain ⟨-, rfl⟩ := Prod.mk.inj (Except.ok.inj h)
      exact validateFrom_of_take (Or.inl rfl) htake d

/-- Whatever the decoder accepts, the validator accepts. -/
theorem validateFrom_of_decodeLoop {frame root : DecodeFrame S}
    {parents : List (DecodeFrame S)} {bytes : List UInt8}
    (h : decodeLoop S frame parents bytes = .ok (root, [])) :
    validateFrom 0 parents.length bytes = .ok () := by
  fun_induction decodeLoop S frame parents bytes with
  | case1 frame parents =>
      obtain ⟨-, rfl⟩ := Prod.mk.inj (Except.ok.inj h)
      rfl
  | case2 frame parents rest ih =>
      rw [validateFrom_start]
      exact ih h
  | case3 => cases h
  | case4 frame rest _ parent parents ih =>
      rw [List.length_cons, validateFrom_end]
      exact ih h
  | case5 => cases h
  | case6 frame parents bytes text rest hread _ _ ih =>
      rw [validateFrom_of_commentPayload hread]
      exact ih h
  | case7 => cases h
  | case8 frame parents bytes text rest htake _ _ _ ih =>
      rw [validateFrom_of_take (Or.inr rfl) htake]
      exact ih h
  | case9 => cases h
  | case10 frame parents byte rest hstart hend hcomment hnag m hm ih =>
      have hbyte : byte < nagMarker := lt_nagMarker_of_ne hstart hend hcomment hnag
      have hleaf := validateFrom_leaf (.move ⟨byte, hbyte⟩) rest parents.length
      rw [Chunk.bytes, List.cons_append, List.nil_append] at hleaf
      rw [hleaf]
      exact ih h

/-! ## The mainline of the decoded tree -/

/-- The notation of the moves outside every variation. -/
def moveTexts (nodes : List DecodedGameNode) : List String :=
  nodes.filterMap fun
    | .move san => some san
    | _ => none

theorem moveTexts_append (xs ys : List DecodedGameNode) :
    moveTexts (xs ++ ys) = moveTexts xs ++ moveTexts ys :=
  List.filterMap_append

/-- The notation of the moves that a list of move bytes plays. -/
def replay (chess : S.Chess) : List UInt8 → Option (List String)
  | [] => some []
  | byte :: bytes =>
      match decodeMove S byte chess with
      | none => none
      | some m =>
          (S.sanToString (S.sanFromMove chess m) :: ·) <$>
            replay (S.playUnchecked chess m) bytes

/-- The moves of a rendered forest outside its variations are the ones its
mainline bytes play. -/
theorem replay_mainlineBytes {f : Forest Annotated} {frame frame' : DecodeFrame S}
    (h : render f frame = some frame') :
    ∃ texts, replay frame.chess (mainlineBytes Annotated.moveByte? f) = some texts ∧
      moveTexts frame'.nodes = moveTexts frame.nodes ++ texts := by
  induction f generalizing frame with
  | nil =>
      obtain rfl := Option.some.inj h
      exact ⟨[], rfl, (List.append_nil _).symm⟩
  | leaf a next ih =>
      rw [mainlineBytes_leaf]
      cases a with
      | comment text =>
          obtain ⟨texts, hreplay, htexts⟩ := ih h
          refine ⟨texts, hreplay, ?_⟩
          simpa [DecodeFrame.push, moveTexts] using htexts
      | nag text =>
          obtain ⟨texts, hreplay, htexts⟩ := ih h
          refine ⟨texts, hreplay, ?_⟩
          simpa [DecodeFrame.push, moveTexts] using htexts
      | move byte =>
          simp only [render] at h
          cases hm : decodeMove S byte.1 frame.chess with
          | none => simp [hm] at h
          | some m =>
              simp only [hm] at h
              obtain ⟨texts, hreplay, htexts⟩ := ih h
              refine ⟨S.sanToString (S.sanFromMove frame.chess m) :: texts, ?_, ?_⟩
              · simp only [Annotated.moveByte?, Option.toList_some, List.cons_append,
                  List.nil_append, replay, hm]
                rw [DecodeFrame.pushMove] at hreplay
                rw [hreplay]
                rfl
              · rw [htexts, DecodeFrame.pushMove, moveTexts_append, List.append_assoc]
                rfl
  | branch inner next _ ihNext =>
      simp only [render] at h
      cases hv : render inner frame.openVariation with
      | none => simp [hv] at h
      | some variation =>
          simp only [hv] at h
          obtain ⟨texts, hreplay, htexts⟩ := ihNext h
          refine ⟨texts, hreplay, ?_⟩
          simpa [DecodeFrame.push, moveTexts] using htexts

/-! ## Agreement -/

/-- The bytes decode exactly when their framing is valid and so is every move
index. -/
theorem decodeGame_isOk_iff (bytes : List UInt8) {setup : S.Setup} {start : S.Chess}
    (hstart : databaseSetupToChess S setup = .ok start) :
    (∃ game, decodeGame S bytes setup = .ok game) ↔
      validateMainlineMoveBytes bytes = .ok () ∧
        ∀ f, storedBytes f = bytes → IndicesValid S Chunk.moveByte? f start none := by
  have hforest : ∀ f, (∃ game, decodeGame S (storedBytes f) setup = .ok game) ↔
      IndicesValid S Chunk.moveByte? f start none := by
    intro f
    have hrender := render_isSome_iff (merge f) (DecodeFrame.new start)
    rw [indicesValid_merge] at hrender
    refine Iff.trans ?_ hrender
    rw [decodeGame_storedBytes f hstart]
    cases render (merge f) (DecodeFrame.new start) <;> simp
  constructor
  · rintro ⟨game, hgame⟩
    have hvalid : validateMainlineMoveBytes bytes = .ok () := by
      simp only [decodeGame, hstart] at hgame
      split at hgame
      · cases hgame
      case h_2 root hloop => exact validateFrom_of_decodeLoop hloop
      · cases hgame
    refine ⟨hvalid, ?_⟩
    rintro f rfl
    exact (hforest f).mp ⟨game, hgame⟩
  · rintro ⟨hvalid, hindices⟩
    obtain ⟨f, rfl⟩ := validateMainlineMoveBytes_iff.mp hvalid
    exact (hforest f).mpr (hindices f rfl)

/-- Decoding a stored game succeeds exactly when the validator accepts its
framing and every move index is valid.  Then the mainline iterator yields the
move bytes outside every variation, and these are the moves of the top level of
the decoded tree. -/
theorem readers_agree (bytes : List UInt8) (setup : S.Setup) :
    ((∃ game, decodeGame S bytes setup = .ok game) ↔
      validateMainlineMoveBytes bytes = .ok () ∧
        ∃ start, databaseSetupToChess S setup = .ok start ∧
          ∀ f, storedBytes f = bytes → IndicesValid S Chunk.moveByte? f start none) ∧
    ∀ game, decodeGame S bytes setup = .ok game →
      validateMainlineMoveBytes bytes = .ok () ∧
        (∃ f, storedBytes f = bytes) ∧
          (∀ f, storedBytes f = bytes →
            iterMainlineMoveBytes bytes = mainlineBytes Chunk.moveByte? f) ∧
            ∃ start, databaseSetupToChess S setup = .ok start ∧
              replay start (iterMainlineMoveBytes bytes) = some (moveTexts game.nodes) := by
  cases hstart : databaseSetupToChess S setup with
  | error e => simp [decodeGame, hstart]
  | ok start =>
      have hiff := decodeGame_isOk_iff bytes hstart
      refine ⟨by simpa using hiff, fun game hgame ↦ ?_⟩
      obtain ⟨hvalid, -⟩ := hiff.mp ⟨game, hgame⟩
      obtain ⟨f, rfl⟩ := validateMainlineMoveBytes_iff.mp hvalid
      refine ⟨hvalid, ⟨f, rfl⟩, fun g hg ↦ hg ▸ iterMainlineMoveBytes_storedBytes g,
        start, rfl, ?_⟩
      rw [decodeGame_storedBytes f hstart] at hgame
      cases hrender : render (merge f) (DecodeFrame.new start) with
      | none => simp [hrender] at hgame
      | some root =>
          obtain rfl : (⟨root.nodes⟩ : DecodedGame) = game := by simpa [hrender] using hgame
          obtain ⟨texts, hreplay, htexts⟩ := replay_mainlineBytes hrender
          rw [iterMainlineMoveBytes_storedBytes, ← mainlineBytes_merge]
          rw [htexts]
          exact hreplay

end

end EnCroissant

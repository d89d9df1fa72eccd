import Mathlib
import EnCroissant.Library.Utf8
import EnCroissant.Error
import EnCroissant.Chess.Rules

/-!
# The stored move format

A game is stored as a byte string.  A byte below `252` is the index of a move
among the legal moves; the four bytes from `252` on mark a NAG, a comment and
the two ends of a variation.  NAG and comment texts follow their marker as
length-prefixed chunks of at most `65535` bytes.
-/

namespace EnCroissant

def variationStartMarker : UInt8 := 255
def variationEndMarker : UInt8 := 254
def commentMarker : UInt8 := 253
def nagMarker : UInt8 := 252

/-- `u16::MAX`, the length of a full chunk. -/
def maxChunk : ℕ := 65535

section

variable (S : Shakmaty)

/-- The setup policy of the database: two kinds of invalid position are let
through. -/
def databaseSetupToChess (setup : S.Setup) : Except Error S.Chess :=
  match S.fromSetup setup (S.detectCastlingMode setup) with
  | .ok chess => .ok chess
  | .error e =>
      match S.ignoreTooMuchMaterial e with
      | .ok chess => .ok chess
      | .error e =>
          match S.ignoreInvalidCastlingRights e with
          | .ok chess => .ok chess
          | .error e => .error (.chessPosition (S.positionErrorToString e))

/-! ## Encoding -/

def encodeMove (m : Move) (chess : S.Chess) : Except Error UInt8 :=
  match (S.legalMoves chess).findIdx? (· == m) with
  | none => .error (invalidData "Move is not legal in the given position")
  | some index =>
      if index < UInt8.size then
        if nagMarker ≤ UInt8.ofNat index then
          .error (invalidData "Legal move index collides with an encoding marker")
        else
          .ok (UInt8.ofNat index)
      else
        .error (invalidData "Legal move index overflowed u8")

def decodeMove (byte : UInt8) (chess : S.Chess) : Option Move :=
  (S.legalMoves chess)[byte.toNat]?

end

/-- Consecutive pieces of `size` elements, the last one possibly shorter. -/
def chunks {α : Type*} (size : ℕ) (xs : List α) : List (List α) :=
  if _h : size = 0 ∨ xs = [] then []
  else xs.take size :: chunks size (xs.drop size)
termination_by xs.length
decreasing_by
  obtain ⟨hsize, hxs⟩ := not_or.mp ‹_›
  have hlen := List.length_pos_of_ne_nil hxs
  simp only [List.length_drop]
  omega

/-- `u16::to_le_bytes`. -/
def toLeBytes (n : ℕ) : List UInt8 := [UInt8.ofNat n, UInt8.ofNat (n / 256)]

/-- `u16::from_le_bytes`. -/
def fromLeBytes (lo hi : UInt8) : ℕ := lo.toNat + 256 * hi.toNat

def annotationChunk (marker : UInt8) (chunk : List UInt8) : List UInt8 :=
  marker :: (toLeBytes chunk.length ++ chunk)

/-- The bytes pushed for a comment.  A full chunk continues into the next one,
so a comment that ends on a full chunk, or is empty, gets an empty last one. -/
def encodeComment (comment : String) : List UInt8 :=
  let bytes := Utf8.encode comment.toList
  ((chunks maxChunk bytes).flatMap (annotationChunk commentMarker)) ++
    if bytes.length % maxChunk = 0 then [commentMarker, 0, 0] else []

def encodeNag (nag : String) : List UInt8 :=
  (chunks maxChunk (Utf8.encode nag.toList)).flatMap (annotationChunk nagMarker)

/-! ## Reading the mainline

The readers walk the bytes once.  `skip` counts the bytes of an annotation that
are still to be passed over. -/

/-- The length in front of a payload, if both of its bytes are there. -/
def payloadLength : List UInt8 → Option ℕ
  | lo :: hi :: _ => some (fromLeBytes lo hi)
  | _ => none

/-- What `MainlineMoveBytesIter` yields up to its first `None`. -/
def mainlineMoveBytesFrom : (skip variationDepth : ℕ) → List UInt8 → List UInt8
  | _, _, [] => []
  | skip + 1, depth, _ :: rest => mainlineMoveBytesFrom skip depth rest
  | 0, depth, byte :: rest =>
      if byte = variationStartMarker then mainlineMoveBytesFrom 0 (depth + 1) rest
      else if byte = variationEndMarker then mainlineMoveBytesFrom 0 (depth - 1) rest
      else if byte = commentMarker ∨ byte = nagMarker then
        match payloadLength rest with
        | none => []
        | some length => mainlineMoveBytesFrom (2 + length) depth rest
      else if depth = 0 then byte :: mainlineMoveBytesFrom 0 depth rest
      else mainlineMoveBytesFrom 0 depth rest

def iterMainlineMoveBytes (bytes : List UInt8) : List UInt8 :=
  mainlineMoveBytesFrom 0 0 bytes

/-- Checks every structural marker, so that a truncated annotation or an
unbalanced variation is not taken for a shorter game. -/
def validateFrom : (skip variationDepth : ℕ) → List UInt8 → Except Error Unit
  | _, depth, [] =>
      if depth = 0 then .ok () else .error (invalidData "unclosed variation")
  | skip + 1, depth, _ :: rest => validateFrom skip depth rest
  | 0, depth, marker :: rest =>
      if marker = variationStartMarker then validateFrom 0 (depth + 1) rest
      else if marker = variationEndMarker then
        if depth = 0 then
          .error (invalidData "variation ended without a matching start")
        else validateFrom 0 (depth - 1) rest
      else if marker = commentMarker ∨ marker = nagMarker then
        match payloadLength rest with
        | none => .error (invalidData "truncated comment or NAG length")
        | some length =>
            if 2 + length ≤ rest.length then validateFrom (2 + length) depth rest
            else .error (invalidData "truncated comment or NAG payload")
      else validateFrom 0 depth rest

def validateMainlineMoveBytes (bytes : List UInt8) : Except Error Unit :=
  validateFrom 0 0 bytes

def tryIterMainlineMoveBytes (bytes : List UInt8) : Except Error (List UInt8) :=
  match validateMainlineMoveBytes bytes with
  | .error e => .error e
  | .ok () => .ok (iterMainlineMoveBytes bytes)

/-! ## Decoding the whole tree -/

inductive DecodedGameNode where
  | move (san : String)
  | nag (text : String)
  | comment (text : String)
  | variation (nodes : List DecodedGameNode)

structure DecodedGame where
  nodes : List DecodedGameNode

structure DecodeFrame (S : Shakmaty) where
  nodes : List DecodedGameNode
  chess : S.Chess
  preMovePositions : List S.Chess

namespace DecodeFrame

variable {S : Shakmaty}

def new (chess : S.Chess) : DecodeFrame S := ⟨[], chess, []⟩

def push (frame : DecodeFrame S) (node : DecodedGameNode) : DecodeFrame S :=
  { frame with nodes := frame.nodes ++ [node] }

/-- The frame after a move, which is played and recorded by its notation. -/
def pushMove (frame : DecodeFrame S) (m : Move) : DecodeFrame S where
  nodes := frame.nodes ++ [.move (S.sanToString (S.sanFromMove frame.chess m))]
  chess := S.playUnchecked frame.chess m
  preMovePositions := frame.preMovePositions ++ [frame.chess]

/-- A variation starts before the last move of its parent, or where the parent
stands if it has no move yet. -/
def openVariation (frame : DecodeFrame S) : DecodeFrame S :=
  new (frame.preMovePositions.getLast?.getD frame.chess)

@[simp] theorem push_chess (frame : DecodeFrame S) (node : DecodedGameNode) :
    (frame.push node).chess = frame.chess := rfl

@[simp] theorem push_preMovePositions (frame : DecodeFrame S) (node : DecodedGameNode) :
    (frame.push node).preMovePositions = frame.preMovePositions := rfl

@[simp] theorem push_nodes (frame : DecodeFrame S) (node : DecodedGameNode) :
    (frame.push node).nodes = frame.nodes ++ [node] := rfl

@[simp] theorem openVariation_chess (frame : DecodeFrame S) :
    frame.openVariation.chess = frame.preMovePositions.getLast?.getD frame.chess := rfl

@[simp] theorem openVariation_preMovePositions (frame : DecodeFrame S) :
    frame.openVariation.preMovePositions = [] := rfl

end DecodeFrame

/-- `String::from_utf8_lossy`. -/
def fromUtf8Lossy (bytes : List UInt8) : String := String.ofList (Utf8.lossy bytes)

/-- Reads one length-prefixed payload; the error texts name its kind. -/
def takePayload (lengthError payloadError : String) :
    List UInt8 → Except Error (List UInt8 × List UInt8)
  | lo :: hi :: rest =>
      if fromLeBytes lo hi ≤ rest.length then
        .ok (rest.take (fromLeBytes lo hi), rest.drop (fromLeBytes lo hi))
      else .error (invalidData payloadError)
  | _ => .error (invalidData lengthError)

theorem takePayload_eq_ok {lengthError payloadError : String}
    {bs payload rest : List UInt8}
    (h : takePayload lengthError payloadError bs = .ok (payload, rest)) :
    ∃ lo hi, bs = lo :: hi :: (payload ++ rest) ∧ payload.length = fromLeBytes lo hi := by
  match bs with
  | lo :: hi :: tail =>
      simp only [takePayload] at h
      split at h
      case isTrue hle =>
        obtain ⟨rfl, rfl⟩ := Prod.mk.inj (Except.ok.inj h)
        exact ⟨lo, hi, by rw [List.take_append_drop], by simpa using hle⟩
      case isFalse => cases h
  | [_] => simp [takePayload] at h
  | [] => simp [takePayload] at h

theorem length_takePayload_lt {lengthError payloadError : String}
    {bs payload rest : List UInt8}
    (h : takePayload lengthError payloadError bs = .ok (payload, rest)) :
    rest.length < bs.length := by
  obtain ⟨lo, hi, rfl, -⟩ := takePayload_eq_ok h
  simp only [List.length_cons, List.length_append]
  omega

def takeCommentPayload : List UInt8 → Except Error (List UInt8 × List UInt8) :=
  takePayload "Truncated comment length marker" "Truncated comment payload"

def takeNagPayload : List UInt8 → Except Error (List UInt8 × List UInt8) :=
  takePayload "Truncated NAG length marker" "Truncated NAG payload"

/-- The loop that collects a comment: a full chunk followed by another comment
marker continues. -/
def commentPayload (payload bytes : List UInt8) : Except Error (List UInt8 × List UInt8) :=
  match _h : takeCommentPayload bytes with
  | .error e => .error e
  | .ok (chunk, rest) =>
      if chunk.length = maxChunk ∧ rest.head? = some commentMarker then
        commentPayload (payload ++ chunk) rest.tail
      else .ok (payload ++ chunk, rest)
termination_by bytes.length
decreasing_by
  have hlt := length_takePayload_lt ‹_›
  rw [List.length_tail]
  omega

theorem commentPayload_of_take {payload bytes chunk rest : List UInt8}
    (h : takeCommentPayload bytes = .ok (chunk, rest)) :
    commentPayload payload bytes =
      if chunk.length = maxChunk ∧ rest.head? = some commentMarker then
        commentPayload (payload ++ chunk) rest.tail
      else .ok (payload ++ chunk, rest) := by
  rw [commentPayload]
  split
  · simp_all
  · simp_all

theorem length_commentPayload_lt {payload bytes text rest : List UInt8}
    (h : commentPayload payload bytes = .ok (text, rest)) :
    rest.length < bytes.length := by
  fun_induction commentPayload payload bytes with
  | case1 => cases h
  | case2 payload bytes chunk tail htake _ ih =>
      have hlt := length_takePayload_lt htake
      have := ih h
      rw [List.length_tail] at this
      omega
  | case3 payload bytes chunk tail htake =>
      obtain ⟨-, rfl⟩ := Prod.mk.inj (Except.ok.inj h)
      exact length_takePayload_lt htake

section

variable (S : Shakmaty)

/-- The main loop.  The stack of frames is never empty: `frame` is its last one
and `parents` are the others, innermost first. -/
def decodeLoop (frame : DecodeFrame S) (parents : List (DecodeFrame S)) :
    List UInt8 → Except Error (DecodeFrame S × List (DecodeFrame S))
  | [] => .ok (frame, parents)
  | byte :: rest =>
      if byte = variationStartMarker then
        decodeLoop frame.openVariation (frame :: parents) rest
      else if byte = variationEndMarker then
        match parents with
        | [] => .error (invalidData "Unbalanced variation end marker")
        | parent :: parents => decodeLoop (parent.push (.variation frame.nodes)) parents rest
      else if byte = commentMarker then
        match _h : commentPayload [] rest with
        | .error e => .error e
        | .ok (payload, rest) =>
            decodeLoop (frame.push (.comment (fromUtf8Lossy payload))) parents rest
      else if byte = nagMarker then
        match _h : takeNagPayload rest with
        | .error e => .error e
        | .ok (payload, rest) =>
            decodeLoop (frame.push (.nag (fromUtf8Lossy payload))) parents rest
      else
        match decodeMove S byte frame.chess with
        | none => .error (invalidData "Invalid move index for current position")
        | some m => decodeLoop (frame.pushMove m) parents rest
termination_by bytes => bytes.length
decreasing_by
  all_goals first
    | exact Nat.lt_succ_self _
    | exact (length_commentPayload_lt ‹_›).trans (Nat.lt_succ_self _)
    | exact (length_takePayload_lt ‹_›).trans (Nat.lt_succ_self _)

def decodeGame (movesBytes : List UInt8) (initialFen : S.Setup) : Except Error DecodedGame :=
  match databaseSetupToChess S initialFen with
  | .error e => .error (invalidData ("Invalid initial FEN setup: " ++ e.toString))
  | .ok rootPosition =>
      match decodeLoop S (DecodeFrame.new rootPosition) [] movesBytes with
      | .error e => .error e
      | .ok (root, []) => .ok ⟨root.nodes⟩
      | .ok (_, _ :: _) => .error (invalidData "Unclosed variation markers in encoded game")

end

end EnCroissant

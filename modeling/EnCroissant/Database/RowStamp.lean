import EnCroissant.Library.ByteOrder
import EnCroissant.Library.UniquelyParsable
import EnCroissant.Library.Utf8

/-!
# The stamp of a stored game

A stamp is the hash of a game's row.  The bytes that are hashed are the row's fields
one after another, each with a presence tag and a length, and the orientation only
where it is set.  They determine the row.
-/

namespace EnCroissant

open ByteOrder

/-- Bytes whose number is a machine word. -/
abbrev Blob := {bytes : List UInt8 // bytes.length < 2 ^ 64}

/-- A string whose UTF-8 bytes are counted by a machine word. -/
abbrev BoundedText := {text : String // (Utf8.encode text.toList).length < 2 ^ 64}

structure Game where
  id : Int32
  eventId : Int32
  siteId : Int32
  date : Option BoundedText
  time : Option BoundedText
  round : Option BoundedText
  whiteId : Int32
  whiteElo : Option Int32
  blackId : Int32
  blackElo : Option Int32
  whiteMaterial : Int32
  blackMaterial : Int32
  result : Option BoundedText
  timeControl : Option BoundedText
  eco : Option BoundedText
  plyCount : Option Int32
  fen : Option BoundedText
  moves : Blob
  pawnHome : Int32
  orientation : Option BoundedText
  deriving DecidableEq

namespace Stamp

/-- What one field adds to the hash. -/
def field : Option Blob → List UInt8
  | none => [0]
  | some bytes => 1 :: (beBytes 8 bytes.1.length ++ bytes.1)

/-- `i32::to_be_bytes`. -/
def toBeBytes (value : Int32) : Blob :=
  ⟨beBytes 4 value.toBitVec.toNat, by rw [length_beBytes]; decide⟩

def integer (value : Int32) : Option Blob := some (toBeBytes value)

def optionalInteger (value : Option Int32) : Option Blob := value.map toBeBytes

def asBytes (text : BoundedText) : Blob := ⟨Utf8.encode text.1.toList, text.2⟩

def text (value : Option BoundedText) : Option Blob := value.map asBytes

end Stamp

open Stamp in
def Game.fields (game : Game) : List (Option Blob) :=
  [integer game.id, integer game.eventId, integer game.siteId, text game.date, text game.time,
    text game.round, integer game.whiteId, optionalInteger game.whiteElo, integer game.blackId,
    optionalInteger game.blackElo, integer game.whiteMaterial, integer game.blackMaterial,
    text game.result, text game.timeControl, text game.eco, optionalInteger game.plyCount,
    text game.fen, some game.moves, integer game.pawnHome] ++
  if game.orientation.isSome then [text game.orientation] else []

/-- The bytes that are fed to the hash. -/
def Game.preimage (game : Game) : List UInt8 := game.fields.flatMap Stamp.field

def gameRowStamp (sha256 : List UInt8 → String) (game : Game) : String := sha256 game.preimage

/-! ## Every part can be read back -/

namespace Stamp

theorem uniquelyParsable_field : UniquelyParsable field := by
  have hprefixed : UniquelyParsable fun bytes : Blob ↦ beBytes 8 bytes.1.length ++ bytes.1 :=
    .lengthPrefixed (length_beBytes 8) fun m n hm hn ↦ beBytes_inj hm hn
  have hoption := hprefixed.option (show (1 : UInt8) ≠ 0 by decide)
  have heq : field = fun o : Option Blob ↦
      o.elim [0] fun bytes ↦ 1 :: (beBytes 8 bytes.1.length ++ bytes.1) := by
    funext o
    cases o <;> rfl
  rw [heq]
  exact hoption

theorem field_ne_nil (value : Option Blob) : field value ≠ [] := by
  cases value <;> simp [field]

theorem toBeBytes_injective : Function.Injective toBeBytes := by
  intro a b h
  have hbytes := congrArg Subtype.val h
  have hnat : a.toBitVec.toNat = b.toBitVec.toNat :=
    beBytes_inj (m := a.toBitVec.toNat) a.toBitVec.isLt b.toBitVec.isLt hbytes
  exact Int32.toBitVec_inj.mp (BitVec.eq_of_toNat_eq hnat)

@[simp] theorem integer_inj {a b : Int32} : integer a = integer b ↔ a = b := by
  rw [integer, integer, Option.some.injEq, toBeBytes_injective.eq_iff]

@[simp] theorem optionalInteger_inj {a b : Option Int32} :
    optionalInteger a = optionalInteger b ↔ a = b :=
  (Option.map_injective toBeBytes_injective).eq_iff

theorem asBytes_injective : Function.Injective asBytes := by
  intro a b h
  have hbytes := Utf8.encode_injective (congrArg Subtype.val h)
  exact Subtype.ext (String.toList_injective hbytes)

@[simp] theorem text_inj {a b : Option BoundedText} : text a = text b ↔ a = b :=
  (Option.map_injective asBytes_injective).eq_iff

end Stamp

/-- The fields determine the row. -/
theorem Game.fields_injective : Function.Injective Game.fields := by
  intro a b h
  obtain ⟨hcommon, horientation⟩ := List.append_inj h rfl
  have hlast : a.orientation = b.orientation := by
    cases ha : a.orientation with
    | none =>
        cases hb : b.orientation with
        | none => rfl
        | some orientation => simp [ha, hb] at horientation
    | some orientation =>
        cases hb : b.orientation with
        | none => simp [ha, hb] at horientation
        | some orientation' => simpa [ha, hb] using horientation
  simp only [List.cons.injEq, Stamp.integer_inj, Stamp.text_inj, Stamp.optionalInteger_inj,
    Option.some.injEq, and_true] at hcommon
  cases a
  cases b
  simp_all

/-- The bytes that are hashed determine the row, so rows with equal stamps are
equal or a collision of the hash. -/
theorem gameRowStamp_eq (a b : Game) :
    (a.preimage = b.preimage ↔ a = b) ∧
      ∀ sha256, gameRowStamp sha256 a = gameRowStamp sha256 b →
        a = b ∨ a.preimage ≠ b.preimage ∧ sha256 a.preimage = sha256 b.preimage := by
  have hinj : a.preimage = b.preimage ↔ a = b := by
    constructor
    · intro h
      exact Game.fields_injective
        (Stamp.uniquelyParsable_field.flatMap_injective Stamp.field_ne_nil h)
    · rintro rfl
      rfl
  refine ⟨hinj, fun sha256 hstamp ↦ ?_⟩
  by_cases heq : a.preimage = b.preimage
  · exact Or.inl (hinj.mp heq)
  · exact Or.inr ⟨heq, hstamp⟩

end EnCroissant

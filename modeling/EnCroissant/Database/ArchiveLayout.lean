import Mathlib
import EnCroissant.Database.SearchArchive

/-!
# The layout of an archive

What the reader accepts is a header, a source and frames, and nothing else, and
it accepts every such layout.
-/

namespace EnCroissant

open ByteOrder

/-! ## Ranges -/

theorem getRange_append (front mid back : List UInt8) :
    getRange (front ++ (mid ++ back)) front.length (front.length + mid.length) = some mid := by
  have hlength : front.length + mid.length ≤ (front ++ (mid ++ back)).length := by
    simp only [List.length_append]
    omega
  rw [getRange, if_pos ⟨Nat.le_add_right _ _, hlength⟩, List.drop_left, Nat.add_sub_cancel_left,
    List.take_left]

theorem getRange_eq_some {bytes mid : List UInt8} {start stop : ℕ}
    (h : getRange bytes start stop = some mid) :
    stop = start + mid.length ∧ stop ≤ bytes.length ∧
      bytes.drop start = mid ++ bytes.drop stop := by
  rw [getRange] at h
  split_ifs at h with hrange
  obtain ⟨hle, hlength⟩ := hrange
  obtain rfl := Option.some.inj h
  refine ⟨?_, hlength, ?_⟩
  · rw [List.length_take, List.length_drop]
    omega
  · have hdrop : bytes.drop stop = (bytes.drop start).drop (stop - start) := by
      rw [List.drop_drop, Nat.add_sub_cancel' hle]
    rw [hdrop, List.take_append_drop]

theorem lt_of_le_u64Max {n : ℕ} (h : n ≤ u64Max) : n < 256 ^ 8 := by
  rw [u64Max] at h
  omega

theorem readU64_append (front back : List UInt8) {n : ℕ} (name : String) (hn : n ≤ u64Max)
    (hfront : front.length + 8 ≤ u64Max) :
    readU64 (front ++ (leBytes 8 n ++ back)) front.length name = .ok n := by
  have hrange := getRange_append front (leBytes 8 n) back
  rw [length_leBytes] at hrange
  simp only [readU64, checkedAdd_of_le _ hfront, hrange, bind, Except.bind,
    ofLeBytes_leBytes (lt_of_le_u64Max hn)]

theorem readU64_eq_ok {bytes : List UInt8} {offset n : ℕ} {name : String}
    (h : readU64 bytes offset name = .ok n) :
    n ≤ u64Max ∧ offset + 8 ≤ bytes.length ∧
      bytes.drop offset = leBytes 8 n ++ bytes.drop (offset + 8) := by
  obtain ⟨stop, hstop, h⟩ := bind_eq_ok h
  obtain ⟨rfl, -⟩ := checkedAdd_eq_ok hstop
  cases hrange : getRange bytes offset (offset + 8) with
  | none =>
      simp only [hrange] at h
      cases h
  | some value =>
      simp only [hrange] at h
      obtain rfl := Except.ok.inj h
      obtain ⟨hlength, hle, hdrop⟩ := getRange_eq_some hrange
      have hwidth : value.length = 8 := by omega
      have hlt := ofLeBytes_lt value
      rw [hwidth] at hlt
      refine ⟨?_, hle, ?_⟩
      · rw [u64Max]
        omega
      · rw [← hwidth, leBytes_ofLeBytes, hwidth, hdrop]

theorem alignUp_eq_ok {offset aligned : ℕ} (h : alignUp offset = .ok aligned) :
    aligned = (offset + 15) / 16 * 16 ∧ offset + 15 ≤ u64Max := by
  obtain ⟨above, habove, h⟩ := bind_eq_ok h
  obtain ⟨rfl, hle⟩ := checkedAdd_eq_ok habove
  exact ⟨(Except.ok.inj h).symm, hle⟩

theorem alignUp_of_le {offset : ℕ} (h : offset + 15 ≤ u64Max) :
    alignUp offset = .ok ((offset + 15) / 16 * 16) := by
  have habove := checkedAdd_of_le (b := archiveAlignment - 1)
    (invalidData "archive offset overflow") h
  rw [alignUp, habove]
  rfl

theorem forM_eq_ok {α : Type} {check : α → Except Error Unit} {l : List α} :
    l.forM check = .ok () ↔ ∀ a ∈ l, check a = .ok () := by
  induction l with
  | nil => simp [pure, Except.pure]
  | cons a l ih =>
      rw [List.forall_mem_cons, ← ih]
      change (check a >>= fun _ ↦ l.forM check) = .ok () ↔ _
      cases check a with
      | error e => simp [bind, Except.bind]
      | ok u => simp [bind, Except.bind]

theorem mapError_eq_ok {α : Type} {x : Except String α} {f : String → Error} {a : α} :
    x.mapError f = .ok a ↔ x = .ok a := by
  cases x with
  | error e => simp [Except.mapError]
  | ok b => simp [Except.mapError]

/-! ## Frames -/

/-- What a chunk's payload and entries are. -/
structure ChunkFrame where
  payload : List UInt8
  entries : List SearchGameEntry

namespace ChunkFrame

/-- The chunk as it stands in the archive. -/
def bytes (frame : ChunkFrame) : List UInt8 :=
  leBytes 8 frame.payload.length ++ (leBytes 8 frame.entries.length ++ (frame.payload ++
    List.replicate ((frame.payload.length + 15) / 16 * 16 - frame.payload.length) 0))

/-- What the reader asks of a chunk. -/
structure Readable (env : ArchiveEnv) (frame : ChunkFrame) : Prop where
  payload_ne_nil : frame.payload ≠ []
  entries_ne_nil : frame.entries ≠ []
  length_le : frame.entries.length ≤ chunkEntryLimit
  access : env.accessChunk frame.payload = .ok frame.entries
  moves : ∀ entry ∈ frame.entries, validateMoves entry = .ok ()

def metadata (frame : ChunkFrame) (cursor : ℕ) : ChunkMetadata :=
  ⟨cursor + 16, frame.payload.length, frame.entries.length⟩

theorem length_bytes (frame : ChunkFrame) :
    frame.bytes.length = 16 + (frame.payload.length + 15) / 16 * 16 := by
  simp only [bytes, List.length_append, length_leBytes, List.length_replicate]
  omega

theorem dvd_length_bytes (frame : ChunkFrame) : 16 ∣ frame.bytes.length := by
  rw [length_bytes]
  exact Nat.dvd_add (Nat.dvd_refl 16) (Nat.dvd_mul_left 16 _)

end ChunkFrame

section

variable {env : ArchiveEnv}

theorem checkChunkEntries_of {entries : List SearchGameEntry}
    (h : ∀ entry ∈ entries, validateMoves entry = .ok ()) :
    checkChunkEntries entries.length entries = .ok () := by
  rw [checkChunkEntries, if_neg (not_not.mpr rfl), forM_eq_ok]
  intro entry hentry
  rw [h entry hentry]
  rfl

theorem checkChunkEntries_eq_ok {entryCount : ℕ} {entries : List SearchGameEntry}
    (h : checkChunkEntries entryCount entries = .ok ()) :
    entries.length = entryCount ∧ ∀ entry ∈ entries, validateMoves entry = .ok () := by
  obtain ⟨hlength, h⟩ := of_guard h
  refine ⟨not_not.mp hlength, fun entry hentry ↦ ?_⟩
  have hentry := forM_eq_ok.mp h entry hentry
  cases hvalid : validateMoves entry with
  | error e =>
      rw [hvalid] at hentry
      cases hentry
  | ok u => rfl

/-- A frame at an aligned place is read. -/
theorem readArchiveChunk_of_frame {frame : ChunkFrame} (hframe : frame.Readable env)
    {front back : List UInt8} (hfront : 16 ∣ front.length)
    (hlength : (front ++ (frame.bytes ++ back)).length ≤ u64Max) :
    readArchiveChunk env (front ++ (frame.bytes ++ back)) front.length =
      .ok (frame.metadata front.length, front.length + frame.bytes.length) := by
  have hbytes := frame.length_bytes
  rw [List.length_append, List.length_append] at hlength
  have hpayload : 0 < frame.payload.length := List.length_pos_of_ne_nil hframe.payload_ne_nil
  have hentries : 0 < frame.entries.length := List.length_pos_of_ne_nil hframe.entries_ne_nil
  have hentriesLe := hframe.length_le
  generalize hpad : List.replicate ((frame.payload.length + 15) / 16 * 16 - frame.payload.length)
    (0 : UInt8) = pad
  have hpadLength : pad.length =
      (frame.payload.length + 15) / 16 * 16 - frame.payload.length := by
    rw [← hpad, List.length_replicate]
  have hsplit : front ++ (frame.bytes ++ back) =
      front ++ (leBytes 8 frame.payload.length ++ (leBytes 8 frame.entries.length ++
        (frame.payload ++ (pad ++ back)))) := by
    simp only [ChunkFrame.bytes, hpad, List.append_assoc]
  have hpayloadLen : readU64 (front ++ (frame.bytes ++ back)) front.length
      "chunk payload length" = .ok frame.payload.length := by
    rw [hsplit]
    exact readU64_append front _ _ (by omega) (by omega)
  have hentryCount : readU64 (front ++ (frame.bytes ++ back)) (front.length + 8)
      "chunk entry count" = .ok frame.entries.length := by
    have hread := readU64_append (front ++ leBytes 8 frame.payload.length)
      (frame.payload ++ (pad ++ back)) (n := frame.entries.length) "chunk entry count"
      (by rw [chunkEntryLimit] at hentriesLe; rw [u64Max]; omega)
      (by rw [List.length_append, length_leBytes]; omega)
    rw [List.length_append, length_leBytes, List.append_assoc] at hread
    rw [hsplit]
    exact hread
  have hpayloadRange : getRange (front ++ (frame.bytes ++ back)) (front.length + 16)
      (front.length + 16 + frame.payload.length) = some frame.payload := by
    have hrange := getRange_append
      (front ++ (leBytes 8 frame.payload.length ++ leBytes 8 frame.entries.length))
      frame.payload (pad ++ back)
    simp only [List.length_append, length_leBytes, List.append_assoc] at hrange
    rw [hsplit]
    exact hrange
  have halign : alignUp (front.length + 16 + frame.payload.length) =
      .ok (front.length + frame.bytes.length) := by
    rw [alignUp_of_le (by rw [u64Max] at hlength ⊢; omega)]
    exact congrArg Except.ok (by omega)
  have hpadRange : getRange (front ++ (frame.bytes ++ back))
      (front.length + 16 + frame.payload.length) (front.length + frame.bytes.length) =
        some pad := by
    have hrange := getRange_append (front ++ (leBytes 8 frame.payload.length ++
      (leBytes 8 frame.entries.length ++ frame.payload))) pad back
    simp only [List.length_append, length_leBytes, List.append_assoc] at hrange
    have hstart : front.length + (8 + (8 + frame.payload.length)) =
        front.length + 16 + frame.payload.length := by omega
    have hstop : front.length + 16 + frame.payload.length + pad.length =
        front.length + frame.bytes.length := by omega
    rw [hstart, hstop] at hrange
    rw [hsplit]
    exact hrange
  have hzero : ¬(pad.any (· ≠ 0) = true) := by
    rw [← hpad]
    simp
  have hcursor : ¬front.length % archiveAlignment ≠ 0 :=
    not_not.mpr (Nat.mod_eq_zero_of_dvd hfront)
  have hoffset : ¬(front.length + 16) % archiveAlignment ≠ 0 := by
    rw [archiveAlignment]
    omega
  have hcounts : ¬(frame.payload.length = 0 ∨ frame.entries.length = 0 ∨
      frame.entries.length > chunkEntryLimit) := by omega
  have hentryOffset : checkedAdd front.length 8 (invalidData "chunk entry-count offset overflow") =
      .ok (front.length + 8) := checkedAdd_of_le _ (by omega)
  have hpayloadOffset : checkedAdd front.length chunkHeaderSize
      (invalidData "chunk payload offset overflow") = .ok (front.length + 16) :=
    checkedAdd_of_le _ (by rw [chunkHeaderSize]; omega)
  have hpayloadEnd : checkedAdd (front.length + 16) frame.payload.length
      (invalidData "chunk payload bounds overflow") =
        .ok (front.length + 16 + frame.payload.length) :=
    checkedAdd_of_le _ (by omega)
  generalize front ++ (frame.bytes ++ back) = mmap at *
  simp only [readArchiveChunk, if_neg hcursor, hpayloadLen, hentryOffset, hentryCount,
    if_neg hcounts, hpayloadOffset, if_neg hoffset, hpayloadEnd, hpayloadRange, hframe.access,
    checkChunkEntries_of hframe.moves, halign, hpadRange, if_neg hzero, bind, Except.bind,
    Except.mapError]
  rfl

/-- Whatever is read at a place is a frame there. -/
theorem readArchiveChunk_eq_ok {mmap : List UInt8} {cursor next : ℕ} {chunk : ChunkMetadata}
    (h : readArchiveChunk env mmap cursor = .ok (chunk, next)) :
    ∃ frame, ChunkFrame.Readable env frame ∧ chunk = frame.metadata cursor ∧
      next = cursor + frame.bytes.length ∧ mmap.drop cursor = frame.bytes ++ mmap.drop next := by
  obtain ⟨hcursor, h⟩ := of_guard h
  obtain ⟨payloadLen, hpayloadLen, h⟩ := bind_eq_ok h
  obtain ⟨entryCountOffset, hentryOffset, h⟩ := bind_eq_ok h
  obtain ⟨rfl, -⟩ := checkedAdd_eq_ok hentryOffset
  obtain ⟨entryCount, hentryCount, h⟩ := bind_eq_ok h
  obtain ⟨hcounts, h⟩ := of_guard h
  obtain ⟨payloadOffset, hpayloadOffset, h⟩ := bind_eq_ok h
  obtain ⟨rfl, -⟩ := checkedAdd_eq_ok hpayloadOffset
  obtain ⟨-, h⟩ := of_guard h
  obtain ⟨payloadEnd, hpayloadEnd, h⟩ := bind_eq_ok h
  obtain ⟨rfl, -⟩ := checkedAdd_eq_ok hpayloadEnd
  cases hpayload : getRange mmap (cursor + chunkHeaderSize)
      (cursor + chunkHeaderSize + payloadLen) with
  | none =>
      simp only [hpayload] at h
      cases h
  | some payload =>
      simp only [hpayload] at h
      obtain ⟨entries, hentries, h⟩ := bind_eq_ok h
      rw [mapError_eq_ok] at hentries
      obtain ⟨_, hcheck, h⟩ := bind_eq_ok h
      obtain ⟨aligned, haligned, h⟩ := bind_eq_ok h
      obtain ⟨rfl, -⟩ := alignUp_eq_ok haligned
      cases hpadding : getRange mmap (cursor + chunkHeaderSize + payloadLen)
          ((cursor + chunkHeaderSize + payloadLen + 15) / 16 * 16) with
      | none =>
          simp only [hpadding] at h
          cases h
      | some padding =>
          simp only [hpadding] at h
          obtain ⟨hzero, h⟩ := of_guard h
          obtain ⟨rfl, rfl⟩ := Prod.mk.inj (Except.ok.inj h)
          obtain ⟨hlength, hmoves⟩ := checkChunkEntries_eq_ok hcheck
          obtain ⟨hpayloadLength, -, hpayloadDrop⟩ := getRange_eq_some hpayload
          obtain ⟨hpaddingLength, -, hpaddingDrop⟩ := getRange_eq_some hpadding
          obtain ⟨-, -, hlenDrop⟩ := readU64_eq_ok hpayloadLen
          obtain ⟨-, -, hcountDrop⟩ := readU64_eq_ok hentryCount
          have haligned' : cursor % 16 = 0 := not_not.mp hcursor
          have hlen : payloadLen = payload.length := by omega
          subst hlen hlength
          rw [chunkHeaderSize] at hpaddingLength hpayloadDrop hpaddingDrop
          have hpad : padding = List.replicate
              ((payload.length + 15) / 16 * 16 - payload.length) 0 := by
            rw [List.eq_replicate_iff]
            refine ⟨by omega, fun b hb ↦ ?_⟩
            simp only [List.any_eq_true, not_exists, not_and] at hzero
            simpa using hzero b hb
          subst hpad
          refine ⟨⟨payload, entries⟩, ⟨?_, ?_, ?_, hentries, hmoves⟩, rfl, ?_, ?_⟩
          · rintro rfl
            exact hcounts (Or.inl rfl)
          · rintro rfl
            exact hcounts (Or.inr (Or.inl rfl))
          · exact not_lt.mp fun hlt ↦ hcounts (Or.inr (Or.inr hlt))
          · rw [ChunkFrame.length_bytes, chunkHeaderSize]
            dsimp only
            omega
          · rw [hlenDrop, hcountDrop, hpayloadDrop, hpaddingDrop]
            simp only [ChunkFrame.bytes, List.append_assoc, chunkHeaderSize]

/-! ## All frames -/

def entryTotal (frames : List ChunkFrame) : ℕ :=
  (frames.map fun frame ↦ frame.entries.length).sum

/-- Where the frames stand when the first one is at the cursor. -/
def metadataFrom : ℕ → List ChunkFrame → List ChunkMetadata
  | _, [] => []
  | cursor, frame :: frames =>
      frame.metadata cursor :: metadataFrom (cursor + frame.bytes.length) frames

@[simp] theorem entryTotal_nil : entryTotal [] = 0 := rfl

@[simp] theorem entryTotal_cons (frame : ChunkFrame) (frames : List ChunkFrame) :
    entryTotal (frame :: frames) = frame.entries.length + entryTotal frames := rfl

theorem length_frames_ge (frames : List ChunkFrame)
    (hframes : ∀ frame ∈ frames, ChunkFrame.Readable env frame) :
    32 * frames.length ≤ (frames.flatMap ChunkFrame.bytes).length := by
  induction frames with
  | nil => exact Nat.zero_le _
  | cons frame frames ih =>
      rw [List.forall_mem_cons] at hframes
      have hpayload := List.length_pos_of_ne_nil hframes.1.payload_ne_nil
      have hrest := ih hframes.2
      have hbytes := frame.length_bytes
      rw [List.flatMap_cons, List.length_append, List.length_cons]
      omega

theorem readArchiveChunks_of_frames {frames : List ChunkFrame}
    (hframes : ∀ frame ∈ frames, ChunkFrame.Readable env frame) {front : List UInt8} {counted : ℕ}
    (hfront : 16 ∣ front.length)
    (hlength : (front ++ frames.flatMap ChunkFrame.bytes).length ≤ u64Max)
    (hcount : counted + entryTotal frames ≤ u64Max) :
    readArchiveChunks env (front ++ frames.flatMap ChunkFrame.bytes) frames.length front.length
        counted =
      .ok (metadataFrom front.length frames, counted + entryTotal frames,
        (front ++ frames.flatMap ChunkFrame.bytes).length) := by
  induction frames generalizing front counted with
  | nil =>
      rw [List.flatMap_nil, List.append_nil]
      rfl
  | cons frame frames ih =>
      rw [List.forall_mem_cons] at hframes
      rw [List.flatMap_cons] at hlength ⊢
      rw [entryTotal_cons, ← Nat.add_assoc] at hcount
      have hchunk := readArchiveChunk_of_frame hframes.1 hfront hlength
      have hadd : checkedAdd counted (frame.metadata front.length).entryCount
          (invalidData "total entry count overflow") = .ok (counted + frame.entries.length) :=
        checkedAdd_of_le _ (by dsimp only [ChunkFrame.metadata]; omega)
      have hfront' : 16 ∣ (front ++ frame.bytes).length := by
        rw [List.length_append]
        exact Nat.dvd_add hfront frame.dvd_length_bytes
      have hsplit : front ++ (frame.bytes ++ frames.flatMap ChunkFrame.bytes) =
          front ++ frame.bytes ++ frames.flatMap ChunkFrame.bytes := (List.append_assoc ..).symm
      have hrest := ih hframes.2 hfront' (hsplit ▸ hlength) hcount
      rw [← hsplit, List.length_append] at hrest
      simp only [List.length_cons, readArchiveChunks, hchunk, hadd, hrest, bind, Except.bind,
        metadataFrom, entryTotal_cons, Nat.add_assoc]

theorem readArchiveChunks_eq_ok {mmap : List UInt8} {chunkCount cursor counted counted' next : ℕ}
    {chunks : List ChunkMetadata}
    (h : readArchiveChunks env mmap chunkCount cursor counted = .ok (chunks, counted', next)) :
    ∃ frames, frames.length = chunkCount ∧
      (∀ frame ∈ frames, ChunkFrame.Readable env frame) ∧ chunks = metadataFrom cursor frames ∧
        counted' = counted + entryTotal frames ∧
          mmap.drop cursor = frames.flatMap ChunkFrame.bytes ++ mmap.drop next := by
  induction chunkCount generalizing cursor counted counted' next chunks with
  | zero =>
      obtain ⟨rfl, rfl, rfl⟩ : [] = chunks ∧ counted = counted' ∧ cursor = next := by
        simpa [readArchiveChunks] using h
      exact ⟨[], rfl, by simp, rfl, rfl, rfl⟩
  | succ chunkCount ih =>
      obtain ⟨⟨chunk, cursor'⟩, hchunk, h⟩ := bind_eq_ok h
      obtain ⟨total, htotal, h⟩ := bind_eq_ok h
      obtain ⟨rfl, -⟩ := checkedAdd_eq_ok htotal
      obtain ⟨⟨chunks', counted'', next'⟩, hrest, h⟩ := bind_eq_ok h
      obtain ⟨frame, hframe, rfl, rfl, hdrop⟩ := readArchiveChunk_eq_ok hchunk
      obtain ⟨frames, rfl, hframes, rfl, rfl, hdrop'⟩ := ih hrest
      obtain ⟨rfl, rfl, rfl⟩ : frame.metadata cursor ::
          metadataFrom (cursor + frame.bytes.length) frames = chunks ∧
            counted + (frame.metadata cursor).entryCount + entryTotal frames = counted' ∧
              next' = next := by
        simpa using h
      refine ⟨frame :: frames, rfl, List.forall_mem_cons.mpr ⟨hframe, hframes⟩, rfl, ?_, ?_⟩
      · rw [entryTotal_cons, Nat.add_assoc]
        rfl
      · rw [hdrop, hdrop', List.flatMap_cons, List.append_assoc]

/-! ## The whole archive -/

def archiveBytes (sourceBytes : List UInt8) (frames : List ChunkFrame) : List UInt8 :=
  archiveHeaderBytes sourceBytes.length (entryTotal frames) frames.length ++
    (sourceBytes ++ frames.flatMap ChunkFrame.bytes)

@[simp] theorem length_archiveHeaderBytes (sourceLen entryCount chunkCount : ℕ) :
    (archiveHeaderBytes sourceLen entryCount chunkCount).length = 32 := by
  simp only [archiveHeaderBytes, List.length_append, length_leBytes, magic, List.length_cons,
    List.length_nil]

theorem verifyHeader_append {sourceLen entryCount chunkCount : ℕ} (rest : List UInt8)
    (hsource : sourceLen ≤ u64Max) (hentries : entryCount ≤ u64Max)
    (hchunks : chunkCount ≤ u64Max) :
    verifyHeader (archiveHeaderBytes sourceLen entryCount chunkCount ++ rest) =
      .ok ⟨sourceLen, entryCount, chunkCount⟩ := by
  have hsourceLen := readU64_append (magic ++ leBytes 4 archiveVersion)
    (leBytes 8 entryCount ++ (leBytes 8 chunkCount ++ rest)) "source length" hsource (by decide)
  have hentryCount := readU64_append (magic ++ leBytes 4 archiveVersion ++ leBytes 8 sourceLen)
    (leBytes 8 chunkCount ++ rest) "entry count" hentries (by simp [magic, u64Max])
  have hchunkCount := readU64_append
    (magic ++ leBytes 4 archiveVersion ++ leBytes 8 sourceLen ++ leBytes 8 entryCount) rest
    "chunk count" hchunks (by simp [magic, u64Max])
  simp only [List.length_append, length_leBytes, List.append_assoc] at hsourceLen hentryCount
  simp only [List.length_append, length_leBytes, List.append_assoc] at hchunkCount
  have hlong : ¬(archiveHeaderBytes sourceLen entryCount chunkCount ++ rest).length <
      headerSize := by
    rw [List.length_append, length_archiveHeaderBytes, headerSize]
    omega
  have hversion : ofLeBytes (((archiveHeaderBytes sourceLen entryCount chunkCount ++
      rest).drop 4).take 4) = archiveVersion := rfl
  have hmagic : (archiveHeaderBytes sourceLen entryCount chunkCount ++ rest).take 4 = magic := rfl
  rw [verifyHeader, if_neg hlong, if_neg (not_not.mpr hmagic), if_neg (not_not.mpr hversion)]
  simp only [archiveHeaderBytes, List.append_assoc]
  have hmagicLength : magic.length = 4 := rfl
  rw [hmagicLength] at hsourceLen hentryCount hchunkCount
  simp only [hsourceLen, hentryCount, hchunkCount, bind, Except.bind]

theorem verifyHeader_eq_ok {mmap : List UInt8} {header : ArchiveHeader}
    (h : verifyHeader mmap = .ok header) :
    mmap = archiveHeaderBytes header.sourceLen header.entryCount header.chunkCount ++
      mmap.drop 32 := by
  obtain ⟨hlong, h⟩ := of_guard h
  obtain ⟨hmagic, h⟩ := of_guard h
  obtain ⟨hversion, h⟩ := of_guard h
  obtain ⟨sourceLen, hsource, h⟩ := bind_eq_ok h
  obtain ⟨entryCount, hentries, h⟩ := bind_eq_ok h
  obtain ⟨chunkCount, hchunks, h⟩ := bind_eq_ok h
  obtain rfl := Except.ok.inj h
  obtain ⟨-, -, hsource⟩ := readU64_eq_ok hsource
  obtain ⟨-, -, hentries⟩ := readU64_eq_ok hentries
  obtain ⟨-, -, hchunks⟩ := readU64_eq_ok hchunks
  have hfront : mmap.take 4 = magic := not_not.mp hmagic
  have hword : ((mmap.drop 4).take 4).length = 4 := by
    rw [headerSize] at hlong
    rw [List.length_take, List.length_drop]
    omega
  have hbytes : (mmap.drop 4).take 4 = leBytes 4 archiveVersion := by
    have hround := leBytes_ofLeBytes ((mmap.drop 4).take 4)
    rw [hword, not_not.mp hversion] at hround
    exact hround.symm
  have hsplit : mmap = mmap.take 4 ++ ((mmap.drop 4).take 4 ++ mmap.drop 8) := by
    rw [show mmap.drop 8 = (mmap.drop 4).drop 4 by rw [List.drop_drop], List.take_append_drop,
      List.take_append_drop]
  conv_lhs => rw [hsplit, hfront, hbytes, hsource, hentries, hchunks]
  simp only [archiveHeaderBytes, List.append_assoc]

theorem decodeIndexSource_eq_ok {headerBytes : List UInt8}
    {readSource : ℕ → Except Error (List UInt8)} {header : ArchiveHeader} {source : IndexSource}
    {sourceEnd : ℕ}
    (h : decodeIndexSource env headerBytes readSource = .ok (header, source, sourceEnd)) :
    verifyHeader headerBytes = .ok header ∧ header.sourceLen ≤ maxSourceBytes ∧
      16 ∣ header.sourceLen ∧ sourceEnd = 32 + header.sourceLen ∧
        ∃ sourceBytes, readSource header.sourceLen = .ok sourceBytes ∧
          sourceBytes.length = header.sourceLen ∧ env.readSource sourceBytes = .ok source := by
  obtain ⟨header', hheader, h⟩ := bind_eq_ok h
  obtain ⟨hmax, h⟩ := of_guard h
  obtain ⟨hdvd, h⟩ := of_guard h
  obtain ⟨sourceEnd', hend, h⟩ := bind_eq_ok h
  obtain ⟨rfl, -⟩ := checkedAdd_eq_ok hend
  obtain ⟨sourceBytes, hbytes, h⟩ := bind_eq_ok h
  obtain ⟨hlength, h⟩ := of_guard h
  obtain ⟨source', hsource, h⟩ := bind_eq_ok h
  rw [mapError_eq_ok] at hsource
  obtain ⟨rfl, rfl, rfl⟩ : header' = header ∧ source' = source ∧
      headerSize + header'.sourceLen = sourceEnd := by simpa using h
  exact ⟨hheader, not_lt.mp hmax, not_not.mp hdvd, rfl, sourceBytes, hbytes, not_not.mp hlength,
    hsource⟩

theorem decodeIndexSource_of {headerBytes sourceBytes : List UInt8}
    {readSource : ℕ → Except Error (List UInt8)} {header : ArchiveHeader} {source : IndexSource}
    (hheader : verifyHeader headerBytes = .ok header) (hmax : header.sourceLen ≤ maxSourceBytes)
    (hdvd : 16 ∣ header.sourceLen) (hbytes : readSource header.sourceLen = .ok sourceBytes)
    (hlength : sourceBytes.length = header.sourceLen)
    (hsource : env.readSource sourceBytes = .ok source) :
    decodeIndexSource env headerBytes readSource =
      .ok (header, source, 32 + header.sourceLen) := by
  have hend : checkedAdd headerSize header.sourceLen (invalidData "source bounds overflow") =
      .ok (32 + header.sourceLen) := by
    refine checkedAdd_of_le _ ?_
    rw [headerSize, u64Max]
    rw [maxSourceBytes] at hmax
    omega
  simp only [decodeIndexSource, hheader, if_neg (not_lt.mpr hmax), archiveAlignment,
    if_neg (not_not.mpr hdvd), hend, hbytes, hlength, ne_eq, not_true_eq_false, if_false, hsource,
    Except.mapError, bind, Except.bind]

/-- Every layout is accepted. -/
theorem openFileInner_of_layout {sourceBytes : List UInt8} {frames : List ChunkFrame}
    {source : IndexSource} (hsource : env.readSource sourceBytes = .ok source)
    (hmax : sourceBytes.length ≤ maxSourceBytes) (hdvd : 16 ∣ sourceBytes.length)
    (hframes : ∀ frame ∈ frames, ChunkFrame.Readable env frame)
    (hlength : (archiveBytes sourceBytes frames).length ≤ u64Max)
    (htotal : entryTotal frames ≤ u64Max) :
    openFileInner env (archiveBytes sourceBytes frames) =
      .ok ⟨archiveBytes sourceBytes frames, entryTotal frames, source,
        metadataFrom (32 + sourceBytes.length) frames⟩ := by
  have hsize : (archiveBytes sourceBytes frames).length =
      32 + sourceBytes.length + (frames.flatMap ChunkFrame.bytes).length := by
    rw [archiveBytes, List.length_append, List.length_append, length_archiveHeaderBytes,
      Nat.add_assoc]
  have hframesLength := length_frames_ge frames hframes
  have hheader : verifyHeader (archiveBytes sourceBytes frames) =
      .ok ⟨sourceBytes.length, entryTotal frames, frames.length⟩ :=
    verifyHeader_append _ (by omega) htotal (by omega)
  have hrange : getRange (archiveBytes sourceBytes frames) headerSize
      (headerSize + sourceBytes.length) = some sourceBytes := by
    have happend := getRange_append
      (archiveHeaderBytes sourceBytes.length (entryTotal frames) frames.length) sourceBytes
      (frames.flatMap ChunkFrame.bytes)
    rwa [length_archiveHeaderBytes] at happend
  have hmapped : mappedSource (archiveBytes sourceBytes frames) sourceBytes.length =
      .ok sourceBytes := by
    simp only [mappedSource, hrange]
  have hdecode := decodeIndexSource_of hheader hmax hdvd hmapped rfl hsource
  have hfront : (archiveHeaderBytes sourceBytes.length (entryTotal frames) frames.length ++
      sourceBytes).length = 32 + sourceBytes.length := by
    rw [List.length_append, length_archiveHeaderBytes]
  have hsplit : archiveHeaderBytes sourceBytes.length (entryTotal frames) frames.length ++
      sourceBytes ++ frames.flatMap ChunkFrame.bytes = archiveBytes sourceBytes frames :=
    List.append_assoc ..
  have htotal : 0 + entryTotal frames ≤ u64Max := by omega
  have hchunks := readArchiveChunks_of_frames hframes (hfront ▸ Nat.dvd_add (by decide) hdvd)
    (hsplit ▸ hlength) htotal
  rw [hsplit, hfront, Nat.zero_add] at hchunks
  have hcount : ¬frames.length > ((archiveBytes sourceBytes frames).length -
      (32 + sourceBytes.length)) / (chunkHeaderSize + archiveAlignment) + 1 := by
    rw [chunkHeaderSize, archiveAlignment, hsize]
    omega
  have hlong : ¬(archiveBytes sourceBytes frames).length < headerSize := by
    rw [headerSize]
    omega
  simp only [openFileInner, toU64_of_le _ hlength, if_neg hlong, hdecode, if_neg hcount, hchunks,
    ne_eq, not_true_eq_false, if_false, bind, Except.bind]

/-- What is accepted is a layout. -/
theorem openFileInner_eq_ok {mmap : List UInt8} {index : MmapSearchIndex}
    (h : openFileInner env mmap = .ok index) :
    ∃ sourceBytes frames, mmap = archiveBytes sourceBytes frames ∧ index.mmap = mmap ∧
      env.readSource sourceBytes = .ok index.source ∧
        (∀ frame ∈ frames, ChunkFrame.Readable env frame) ∧
          index.entryCount = entryTotal frames ∧
            index.chunks = metadataFrom (32 + sourceBytes.length) frames := by
  obtain ⟨fileLen, hfileLen, h⟩ := bind_eq_ok h
  obtain ⟨-, h⟩ := of_guard h
  obtain ⟨⟨header, source, sourceEnd⟩, hdecode, h⟩ := bind_eq_ok h
  obtain ⟨-, h⟩ := of_guard h
  obtain ⟨⟨chunks, countedEntries, cursor⟩, hchunks, h⟩ := bind_eq_ok h
  obtain ⟨htotal, h⟩ := of_guard h
  obtain ⟨hcursor, h⟩ := of_guard h
  obtain rfl := Except.ok.inj h
  obtain ⟨hheader, -, -, rfl, sourceBytes, hbytes, hlength, hsource⟩ :=
    decodeIndexSource_eq_ok hdecode
  obtain ⟨frames, hframesLength, hframes, rfl, rfl, hdrop⟩ := readArchiveChunks_eq_ok hchunks
  cases hrange : getRange mmap headerSize (headerSize + header.sourceLen) with
  | none =>
      simp only [mappedSource, hrange] at hbytes
      cases hbytes
  | some bytes =>
      simp only [mappedSource, hrange] at hbytes
      obtain rfl := Except.ok.inj hbytes
      obtain ⟨-, -, hsourceDrop⟩ := getRange_eq_some hrange
      have hcursor' : cursor = mmap.length := not_not.mp hcursor
      have htotal' : 0 + entryTotal frames = header.entryCount := not_not.mp htotal
      rw [hcursor', List.drop_length, List.append_nil] at hdrop
      refine ⟨bytes, frames, ?_, rfl, hsource, hframes,
        htotal'.symm.trans (Nat.zero_add _), by rw [hlength]⟩
      have hmmap := verifyHeader_eq_ok hheader
      rw [hmmap, archiveBytes, hlength, hframesLength, ← htotal', Nat.zero_add, ← hdrop]
      exact congrArg _ hsourceDrop

end

end EnCroissant

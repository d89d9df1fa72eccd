import EnCroissant.Database.ArchiveLayout

/-!
# Writing an archive

The writer leaves a layout: after every entry the file is a header, the source and
whole frames, and the collected chunk is within the limits.  What it writes is
therefore read back, entry by entry.
-/

namespace EnCroissant

open ByteOrder

section

variable (env : ArchiveEnv)

/-- At most the limit of entries, and of estimated bytes unless there is a single entry. -/
structure Limited (entries : List SearchGameEntry) : Prop where
  length_le : entries.length ≤ chunkEntryLimit
  bytes_le : (entries.map (estimatedEntryBytes env)).sum ≤ chunkPayloadTargetBytes ∨
    ∃ entry, entries = [entry]

namespace ChunkFrame

/-- A frame of a chunk as the writer leaves it. -/
structure Written (frame : ChunkFrame) : Prop where
  bytes : env.chunkBytes frame.entries = .ok frame.payload
  readable : frame.Readable env
  limited : Limited env frame.entries

end ChunkFrame

/-- The source is serialised and read back. -/
def KeepsSource (source : IndexSource) : Prop :=
  ∃ bytes, env.sourceBytes source = .ok bytes ∧ env.readSource bytes = .ok source ∧
    bytes.length ≤ maxSourceBytes ∧ archiveAlignment ∣ bytes.length

/-- The chunks of the entries are serialised and read back, and the move streams are valid. -/
structure Archivable (all : List SearchGameEntry) : Prop where
  chunk : ∀ part, part ≠ [] → part <:+: all → ∃ bytes, env.chunkBytes part = .ok bytes ∧
    env.accessChunk bytes = .ok part ∧ bytes ≠ []
  moves : ∀ entry ∈ all, validateMoves entry = .ok ()

/-- The file with a further frame. -/
def ArchiveWriter.flushed (writer : ArchiveWriter) (frame : ChunkFrame) : ArchiveWriter where
  file := writer.file ++ frame.bytes
  chunk := []
  estimatedBytes := 0
  totalEntries := writer.totalEntries + frame.entries.length
  chunkCount := writer.chunkCount + 1

/-- The file behind the head consists of frames, and the entries of the frames and of the chunk
are those so far. -/
structure ArchiveWriter.Holds (head : List UInt8) (done : List SearchGameEntry)
    (frames : List ChunkFrame) (writer : ArchiveWriter) : Prop where
  file : writer.file = head ++ frames.flatMap ChunkFrame.bytes
  entries : frames.flatMap ChunkFrame.entries ++ writer.chunk = done
  written : ∀ frame ∈ frames, frame.Written env
  totalEntries : writer.totalEntries = entryTotal frames
  chunkCount : writer.chunkCount = frames.length
  estimate : writer.estimatedBytes =
    min (writer.chunk.map (estimatedEntryBytes env)).sum u64Max
  limited : Limited env writer.chunk
  file_le : writer.file.length ≤ u64Max
  total_le : writer.totalEntries ≤ u64Max

/-- Chunks that leave no room for the padding of another one, or with too many entries. -/
def Overflows (head : List UInt8) (frames : List ChunkFrame) : Prop :=
  u64Max < (head ++ frames.flatMap ChunkFrame.bytes).length + 15 ∨ u64Max < entryTotal frames

/-- Some division of the first entries into chunks takes more bytes than a position counts. -/
def NoRoom (head : List UInt8) (all : List SearchGameEntry) : Prop :=
  ∃ frames : List ChunkFrame, (∀ frame ∈ frames, frame.Written env) ∧
    frames.flatMap ChunkFrame.entries <+: all ∧ Overflows head frames

end

section

variable {env : ArchiveEnv} {writer writer' : ArchiveWriter} {head : List UInt8}
  {done : List SearchGameEntry} {frames : List ChunkFrame} {entry : SearchGameEntry}

theorem bind_of_eq_ok {α β : Type} {x : Except Error α} {a : α} (h : x = .ok a)
    (f : α → Except Error β) : (x >>= f) = f a := by
  rw [h]
  rfl

/-! ## A chunk -/

theorem writeChunk_of {frame : ChunkFrame} (hframe : frame.Written env)
    (hpayload : frame.payload.length ≤ u64Max) (file : List UInt8) :
    writeChunk env file frame.entries =
      .ok (file ++ leBytes 8 frame.payload.length ++ leBytes 8 frame.entries.length ++
        frame.payload, frame.entries.length) := by
  have hmoves : frame.entries.forM validateMoves = .ok () := forM_eq_ok.mpr hframe.readable.moves
  have hentries : frame.entries.length ≤ u64Max := hframe.limited.length_le.trans (by decide)
  simp only [writeChunk, hmoves, hframe.bytes, hframe.readable.access, Except.mapError,
    toU64_of_le _ hpayload, toU64_of_le _ hentries, bind, Except.bind]

theorem writePadding_of {frame : ChunkFrame} {file : List UInt8} (hfile : 16 ∣ file.length)
    (hfits : file.length + 16 + frame.payload.length + 15 ≤ u64Max) :
    writePadding (file ++ leBytes 8 frame.payload.length ++ leBytes 8 frame.entries.length ++
        frame.payload)
      (file ++ leBytes 8 frame.payload.length ++ leBytes 8 frame.entries.length ++
        frame.payload).length = .ok (file ++ frame.bytes) := by
  have hlength : (file ++ leBytes 8 frame.payload.length ++ leBytes 8 frame.entries.length ++
      frame.payload).length = file.length + 16 + frame.payload.length := by
    simp only [List.length_append, length_leBytes]
  have hpad : (file.length + 16 + frame.payload.length + 15) / 16 * 16 -
      (file.length + 16 + frame.payload.length) =
        (frame.payload.length + 15) / 16 * 16 - frame.payload.length := by omega
  rw [writePadding, hlength, alignUp_of_le hfits]
  simp only [bind, Except.bind, hpad, ChunkFrame.bytes, List.append_assoc]

theorem flushChunk_of {frame : ChunkFrame} (hframe : frame.Written env)
    (hchunk : writer.chunk = frame.entries) (hfile : 16 ∣ writer.file.length)
    (hfits : writer.file.length + 16 + frame.payload.length + 15 ≤ u64Max)
    (htotal : writer.totalEntries + frame.entries.length ≤ u64Max)
    (hcount : writer.chunkCount + 1 ≤ u64Max) :
    flushChunk env writer = .ok (writer.flushed frame) := by
  have hwrite := writeChunk_of hframe (by omega) writer.file
  have hpadding := @writePadding_of frame writer.file hfile hfits
  have hposition : (writer.file ++ leBytes 8 frame.payload.length ++
      leBytes 8 frame.entries.length ++ frame.payload).length ≤ u64Max := by
    simp only [List.length_append, length_leBytes]
    omega
  simp only [flushChunk, hchunk, hwrite, checkedAdd_of_le _ htotal, checkedAdd_of_le _ hcount,
    toU64_of_le _ hposition, hpadding, bind, Except.bind, ArchiveWriter.flushed]

theorem flushChunk_eq_ok (h : flushChunk env writer = .ok writer') :
    ∃ payload, env.chunkBytes writer.chunk = .ok payload ∧
      writer.file.length + 16 + payload.length + 15 ≤ u64Max ∧
        writer.totalEntries + writer.chunk.length ≤ u64Max := by
  obtain ⟨⟨file, entryCount⟩, hwrite, h⟩ := bind_eq_ok h
  obtain ⟨total, htotal, h⟩ := bind_eq_ok h
  obtain ⟨count, -, h⟩ := bind_eq_ok h
  obtain ⟨position, hposition, h⟩ := bind_eq_ok h
  obtain ⟨padded, hpadded, -⟩ := bind_eq_ok h
  obtain ⟨aligned, haligned, -⟩ := bind_eq_ok hpadded
  obtain ⟨_, -, hwrite⟩ := bind_eq_ok hwrite
  obtain ⟨payload, hpayload, hwrite⟩ := bind_eq_ok hwrite
  obtain ⟨_, -, hwrite⟩ := bind_eq_ok hwrite
  obtain ⟨payloadLen, -, hwrite⟩ := bind_eq_ok hwrite
  obtain ⟨entryCount', hentries, hwrite⟩ := bind_eq_ok hwrite
  obtain ⟨rfl, rfl⟩ := Prod.mk.inj (Except.ok.inj hwrite)
  obtain ⟨rfl, -⟩ := toU64_eq_ok hentries
  obtain ⟨rfl, -⟩ := toU64_eq_ok hposition
  obtain ⟨-, hle⟩ := checkedAdd_eq_ok htotal
  obtain ⟨-, hfits⟩ := alignUp_eq_ok haligned
  refine ⟨payload, mapError_eq_ok.mp hpayload, ?_, hle⟩
  simp only [List.length_append, length_leBytes] at hfits
  omega

/-! ## The limits -/

theorem limited_nil : Limited env [] :=
  ⟨Nat.zero_le _, .inl (Nat.zero_le _)⟩

theorem limited_singleton (entry : SearchGameEntry) : Limited env [entry] :=
  ⟨Nat.le_of_ble_eq_true rfl, .inr ⟨entry, rfl⟩⟩

/-- An entry that does not start a new chunk keeps the chunk within the limits. -/
theorem ArchiveWriter.Holds.limited_concat (h : writer.Holds env head done frames)
    (hroom : ¬(writer.chunk ≠ [] ∧ (writer.chunk.length ≥ chunkEntryLimit ∨
      saturatingAdd writer.estimatedBytes (estimatedEntryBytes env entry) >
        chunkPayloadTargetBytes))) :
    Limited env (writer.chunk ++ [entry]) := by
  by_cases hchunk : writer.chunk = []
  · rw [hchunk]
    exact limited_singleton entry
  · obtain ⟨hlength, hbytes⟩ := not_or.mp fun hfull ↦ hroom ⟨hchunk, hfull⟩
    have hestimate := h.estimate
    rw [saturatingAdd, hestimate] at hbytes
    have htarget : chunkPayloadTargetBytes < u64Max := by decide
    refine ⟨?_, .inl ?_⟩
    · rw [List.length_append, List.length_singleton]
      omega
    · rw [List.map_append, List.sum_append, List.map_singleton, List.sum_singleton]
      omega

/-! ## The steps of the writer -/

theorem dvd_length_frames (frames : List ChunkFrame) :
    16 ∣ (frames.flatMap ChunkFrame.bytes).length := by
  induction frames with
  | nil => exact dvd_zero 16
  | cons frame frames ih =>
      rw [List.flatMap_cons, List.length_append]
      exact Nat.dvd_add frame.dvd_length_bytes ih

theorem entryTotal_append (frames frames' : List ChunkFrame) :
    entryTotal (frames ++ frames') = entryTotal frames + entryTotal frames' := by
  rw [entryTotal, List.map_append, List.sum_append]
  rfl

theorem Archivable.written {all part : List SearchGameEntry} (h : Archivable env all)
    (hpart : part ≠ []) (hwithin : part <:+: all) (hlimited : Limited env part) :
    ∃ frame : ChunkFrame, frame.Written env ∧ frame.entries = part := by
  obtain ⟨bytes, hbytes, haccess, hne⟩ := h.chunk part hpart hwithin
  have hmoves : ∀ entry ∈ part, validateMoves entry = .ok () :=
    fun entry hentry ↦ h.moves entry (hwithin.subset hentry)
  exact ⟨⟨bytes, part⟩, ⟨hbytes, ⟨hne, hpart, hlimited.length_le, haccess, hmoves⟩, hlimited⟩, rfl⟩

namespace ArchiveWriter.Holds

variable {all : List SearchGameEntry}

theorem chunk_infix (h : writer.Holds env head done frames) (hdone : done <+: all) :
    writer.chunk <:+: all := by
  refine List.IsInfix.trans ?_ hdone.isInfix
  rw [← h.entries]
  exact (List.suffix_append _ _).isInfix

theorem dvd_file (h : writer.Holds env head done frames) (hhead : 16 ∣ head.length) :
    16 ∣ writer.file.length := by
  rw [h.file, List.length_append]
  exact Nat.dvd_add hhead (dvd_length_frames frames)

theorem written_concat (h : writer.Holds env head done frames) {frame : ChunkFrame}
    (hframe : frame.Written env) :
    ∀ other ∈ frames ++ [frame], other.Written env :=
  List.forall_mem_append.mpr ⟨h.written, List.forall_mem_singleton.mpr hframe⟩

theorem chunkCount_lt (h : writer.Holds env head done frames) :
    writer.chunkCount + 1 ≤ u64Max := by
  have hfile := h.file_le
  have hframes := length_frames_ge frames fun frame hframe ↦ (h.written frame hframe).readable
  rw [h.file, List.length_append] at hfile
  rw [h.chunkCount]
  rw [u64Max] at hfile ⊢
  omega

theorem flushed (h : writer.Holds env head done frames) {frame : ChunkFrame}
    (hframe : frame.Written env) (hchunk : frame.entries = writer.chunk)
    (hfits : writer.file.length + 16 + frame.payload.length + 15 ≤ u64Max)
    (htotal : writer.totalEntries + frame.entries.length ≤ u64Max) :
    (writer.flushed frame).Holds env head done (frames ++ [frame]) where
  file := by
    rw [ArchiveWriter.flushed, h.file, List.flatMap_append, List.flatMap_singleton,
      List.append_assoc]
  entries := by
    rw [ArchiveWriter.flushed, List.append_nil, List.flatMap_append, List.flatMap_singleton, hchunk]
    exact h.entries
  written := h.written_concat hframe
  totalEntries := by
    rw [ArchiveWriter.flushed, h.totalEntries, entryTotal_append]
    rfl
  chunkCount := by
    rw [ArchiveWriter.flushed, h.chunkCount, List.length_append, List.length_singleton]
  estimate := rfl
  limited := limited_nil
  file_le := by
    rw [ArchiveWriter.flushed, List.length_append, frame.length_bytes]
    omega
  total_le := htotal

/-- The collected chunk becomes a frame, or there is no room for it. -/
theorem flushChunk_cases (h : writer.Holds env head done frames) (hhead : 16 ∣ head.length)
    (hall : Archivable env all) (hdone : done <+: all) (hchunk : writer.chunk ≠ []) :
    ∃ frame : ChunkFrame, frame.Written env ∧ frame.entries = writer.chunk ∧
      (flushChunk env writer = .ok (writer.flushed frame) ∧
          (writer.flushed frame).Holds env head done (frames ++ [frame]) ∨
        (∃ error, flushChunk env writer = .error error) ∧ Overflows head (frames ++ [frame])) := by
  obtain ⟨frame, hframe, hentries⟩ := hall.written hchunk (h.chunk_infix hdone) h.limited
  refine ⟨frame, hframe, hentries, ?_⟩
  by_cases hroom : writer.file.length + 16 + frame.payload.length + 15 ≤ u64Max ∧
      writer.totalEntries + frame.entries.length ≤ u64Max
  · obtain ⟨hfits, htotal⟩ := hroom
    exact .inl ⟨flushChunk_of hframe hentries.symm (h.dvd_file hhead) hfits htotal h.chunkCount_lt,
      h.flushed hframe hentries hfits htotal⟩
  · refine .inr ⟨?_, ?_⟩
    · cases hflush : flushChunk env writer with
      | error error => exact ⟨error, rfl⟩
      | ok writer' =>
          obtain ⟨payload, hpayload, hfits, htotal⟩ := flushChunk_eq_ok hflush
          rw [← hentries] at hpayload htotal
          obtain rfl := Except.ok.inj (hframe.bytes.symm.trans hpayload)
          exact absurd ⟨hfits, htotal⟩ hroom
    · have hfile := h.file
      have htotal := h.totalEntries
      have hbytes := frame.length_bytes
      rw [Overflows, List.flatMap_append, List.flatMap_singleton, ← List.append_assoc, ← hfile,
        List.length_append, entryTotal_append, entryTotal_cons, entryTotal_nil, ← htotal]
      omega

/-- The chunk has room for another entry. -/
theorem concat (h : writer.Holds env head done frames)
    (hlimited : Limited env (writer.chunk ++ [entry])) :
    ArchiveWriter.Holds env head (done ++ [entry]) frames { writer with
      estimatedBytes := saturatingAdd writer.estimatedBytes (estimatedEntryBytes env entry)
      chunk := writer.chunk ++ [entry] } where
  file := h.file
  entries := by rw [← h.entries, List.append_assoc]
  written := h.written
  totalEntries := h.totalEntries
  chunkCount := h.chunkCount
  estimate := by
    change saturatingAdd writer.estimatedBytes (estimatedEntryBytes env entry) = _
    rw [h.estimate, saturatingAdd, List.map_append, List.sum_append, List.map_singleton,
      List.sum_singleton]
    omega
  limited := hlimited
  file_le := h.file_le
  total_le := h.total_le

/-- An entry is collected, or a chunk before it has no room. -/
theorem pushEntry_cases (h : writer.Holds env head done frames) (hhead : 16 ∣ head.length)
    (hall : Archivable env all) (hdone : done ++ [entry] <+: all) :
    (∃ writer' frames', pushEntry env writer (.ok entry) = .ok writer' ∧
        writer'.Holds env head (done ++ [entry]) frames') ∨
      (∃ error, pushEntry env writer (.ok entry) = .error error) ∧
        NoRoom env head all := by
  have hmoves : validateMoves entry = .ok () := hall.moves entry (hdone.subset (by simp))
  have hbefore : done <+: all := (List.prefix_append _ _).trans hdone
  by_cases hroom : writer.chunk ≠ [] ∧ (writer.chunk.length ≥ chunkEntryLimit ∨
      saturatingAdd writer.estimatedBytes (estimatedEntryBytes env entry) >
        chunkPayloadTargetBytes)
  · obtain ⟨frame, hframe, hentries, ⟨hflush, hflushed⟩ | ⟨⟨error, herror⟩, hover⟩⟩ :=
      h.flushChunk_cases hhead hall hbefore hroom.1
    · refine .inl ⟨_, frames ++ [frame], ?_, hflushed.concat (limited_singleton entry)⟩
      simp only [pushEntry, hmoves, if_pos hroom, hflush, bind, Except.bind]
    · refine .inr ⟨⟨error, ?_⟩, frames ++ [frame], h.written_concat hframe, ?_, hover⟩
      · simp only [pushEntry, hmoves, if_pos hroom, herror, bind, Except.bind]
      · rw [List.flatMap_append, List.flatMap_singleton, hentries, h.entries]
        exact hbefore
  · refine .inl ⟨_, frames, ?_, h.concat (limited_concat h hroom)⟩
    simp only [pushEntry, hmoves, if_neg hroom, bind, Except.bind]

theorem foldlM_pushEntry_cases {rest : List SearchGameEntry}
    (h : writer.Holds env head done frames) (hhead : 16 ∣ head.length)
    (hall : Archivable env all) (hdone : done ++ rest <+: all) :
    (∃ writer' frames', (rest.map Except.ok).foldlM (pushEntry env) writer = .ok writer' ∧
        writer'.Holds env head (done ++ rest) frames') ∨
      (∃ error, (rest.map Except.ok).foldlM (pushEntry env) writer = .error error) ∧
        NoRoom env head all := by
  induction rest generalizing writer done frames with
  | nil =>
      rw [List.append_nil]
      exact .inl ⟨writer, frames, rfl, h⟩
  | cons entry rest ih =>
      have hsplit : done ++ entry :: rest = done ++ [entry] ++ rest := by
        rw [List.append_assoc, List.singleton_append]
      rw [hsplit] at hdone ⊢
      rw [List.map_cons, List.foldlM_cons]
      rcases h.pushEntry_cases hhead hall ((List.prefix_append _ _).trans hdone) with
        ⟨writer', frames', hpush, h'⟩ | ⟨⟨error, herror⟩, hover⟩
      · rw [hpush]
        exact ih h' hdone
      · rw [herror]
        exact .inr ⟨⟨error, rfl⟩, hover⟩

/-- Behind the last entry the chunk is empty. -/
theorem finishChunk_cases (h : writer.Holds env head all frames) (hhead : 16 ∣ head.length)
    (hall : Archivable env all) :
    (∃ writer' frames', finishChunk env writer = .ok writer' ∧
        writer'.Holds env head all frames' ∧ writer'.chunk = []) ∨
      (∃ error, finishChunk env writer = .error error) ∧
        NoRoom env head all := by
  rw [finishChunk]
  by_cases hchunk : writer.chunk = []
  · rw [if_neg (not_not.mpr hchunk)]
    exact .inl ⟨writer, frames, rfl, h, hchunk⟩
  · rw [if_pos hchunk]
    obtain ⟨frame, hframe, hentries, ⟨hflush, hflushed⟩ | ⟨herror, hover⟩⟩ :=
      h.flushChunk_cases hhead hall (List.prefix_refl all) hchunk
    · exact .inl ⟨_, frames ++ [frame], hflush, hflushed, rfl⟩
    · refine .inr ⟨herror, frames ++ [frame], h.written_concat hframe, ?_, hover⟩
      rw [List.flatMap_append, List.flatMap_singleton, hentries, h.entries]

end ArchiveWriter.Holds

/-! ## The whole archive -/

/-- The writer starts with the header and the source. -/
theorem holds_start {sourceBytes : List UInt8} (hmax : sourceBytes.length ≤ maxSourceBytes) :
    ArchiveWriter.Holds env (archiveHeaderBytes sourceBytes.length 0 0 ++ sourceBytes) [] []
      ⟨archiveHeaderBytes sourceBytes.length 0 0 ++ sourceBytes, [], 0, 0, 0⟩ where
  file := by rw [List.flatMap_nil, List.append_nil]
  entries := rfl
  written := by simp
  totalEntries := rfl
  chunkCount := rfl
  estimate := rfl
  limited := limited_nil
  file_le := by
    rw [maxSourceBytes] at hmax
    rw [List.length_append, length_archiveHeaderBytes, u64Max]
    omega
  total_le := Nat.zero_le _

/-- The file is a layout of the entries, or a chunk has no room. -/
theorem writeChunkedArchive_cases {source : IndexSource} {all : List SearchGameEntry}
    {sourceBytes : List UInt8} (hbytes : env.sourceBytes source = .ok sourceBytes)
    (hread : env.readSource sourceBytes = .ok source)
    (hmax : sourceBytes.length ≤ maxSourceBytes) (hdvd : archiveAlignment ∣ sourceBytes.length)
    (hall : Archivable env all) :
    (∃ frames : List ChunkFrame, (∀ frame ∈ frames, frame.Written env) ∧
        frames.flatMap ChunkFrame.entries = all ∧
          writeChunkedArchive env source (all.map .ok) = .ok (archiveBytes sourceBytes frames) ∧
            (archiveBytes sourceBytes frames).length ≤ u64Max ∧ entryTotal frames ≤ u64Max) ∨
      (∃ error, writeChunkedArchive env source (all.map .ok) = .error error) ∧
        NoRoom env (archiveHeaderBytes sourceBytes.length 0 0 ++ sourceBytes) all := by
  have hsourceLen : sourceBytes.length ≤ u64Max := hmax.trans (by decide)
  have hhead : 16 ∣ (archiveHeaderBytes sourceBytes.length 0 0 ++ sourceBytes).length := by
    rw [List.length_append, length_archiveHeaderBytes]
    exact Nat.dvd_add (by decide) hdvd
  set head := archiveHeaderBytes sourceBytes.length 0 0 ++ sourceBytes
  have hwrite : writeChunkedArchive env source (all.map .ok) =
      ((all.map Except.ok).foldlM (pushEntry env) ⟨head, [], 0, 0, 0⟩ >>= fun writer ↦
        finishChunk env writer >>= fun writer ↦
          .ok (archiveHeaderBytes sourceBytes.length writer.totalEntries writer.chunkCount ++
            writer.file.drop headerSize)) := by
    rw [writeChunkedArchive, bind_of_eq_ok (mapError_eq_ok.mpr hbytes),
      bind_of_eq_ok (mapError_eq_ok.mpr hread), bind_of_eq_ok (toU64_of_le _ hsourceLen),
      if_neg (not_lt.mpr hmax), if_neg (not_not.mpr hdvd)]
  rw [hwrite]
  rcases (@holds_start env _ hmax).foldlM_pushEntry_cases hhead hall
      (List.nil_append all ▸ List.prefix_refl all) with
    ⟨writer, frames, hpush, h⟩ | ⟨⟨error, herror⟩, hover⟩
  · rw [bind_of_eq_ok hpush]
    rcases h.finishChunk_cases hhead hall with
      ⟨writer', frames', hfinish, h', hchunk⟩ | ⟨⟨error, herror⟩, hover⟩
    · have hentries := h'.entries
      have hlength := h'.file_le
      have htotal := h'.total_le
      rw [h'.totalEntries] at htotal
      rw [hchunk, List.append_nil, List.nil_append] at hentries
      rw [h'.file] at hlength
      rw [bind_of_eq_ok hfinish]
      refine .inl ⟨frames', h'.written, hentries, ?_, ?_, htotal⟩
      · rw [h'.file, h'.totalEntries, h'.chunkCount, List.append_assoc]
        exact congrArg _ (congrArg _ (List.drop_left' (length_archiveHeaderBytes ..)))
      · rw [List.append_assoc, List.length_append, length_archiveHeaderBytes] at hlength
        rw [archiveBytes, List.length_append, length_archiveHeaderBytes]
        exact hlength
    · rw [herror]
      exact .inr ⟨⟨error, rfl⟩, hover⟩
  · rw [herror]
    exact .inr ⟨⟨error, rfl⟩, hover⟩

/-! ## The entries of an archive -/

/-- The chunks of a layout are those of its frames. -/
theorem mapM_chunks {β : Type} {read : ChunkMetadata → Except Error β}
    {value : List SearchGameEntry → β} {index : MmapSearchIndex} {front : List UInt8}
    (hread : ∀ chunk entries, archivedChunk env index chunk = .ok entries →
      chunk.entryCount = entries.length → read chunk = .ok (value entries))
    (hmmap : index.mmap = front ++ frames.flatMap ChunkFrame.bytes)
    (hframes : ∀ frame ∈ frames, frame.Readable env) :
    (metadataFrom front.length frames).mapM read =
      .ok (frames.map fun frame ↦ value frame.entries) := by
  induction frames generalizing front with
  | nil => rfl
  | cons frame frames ih =>
      rw [List.forall_mem_cons] at hframes
      rw [List.flatMap_cons] at hmmap
      have hrange : getRange index.mmap (front.length + 16)
          (front.length + 16 + frame.payload.length) = some frame.payload := by
        have hrange := getRange_append
          (front ++ (leBytes 8 frame.payload.length ++ leBytes 8 frame.entries.length))
          frame.payload (List.replicate ((frame.payload.length + 15) / 16 * 16 -
            frame.payload.length) 0 ++ frames.flatMap ChunkFrame.bytes)
        simp only [List.length_append, length_leBytes, List.append_assoc] at hrange
        rw [hmmap, ChunkFrame.bytes]
        simp only [List.append_assoc]
        exact hrange
      have hchunk : archivedChunk env index (frame.metadata front.length) = .ok frame.entries := by
        rw [archivedChunk]
        dsimp only [ChunkFrame.metadata]
        rw [hrange]
        exact mapError_eq_ok.mpr hframes.1.access
      have hmmap' : index.mmap = front ++ frame.bytes ++ frames.flatMap ChunkFrame.bytes := by
        rw [hmmap, List.append_assoc]
      have hrest := ih hmmap' hframes.2
      rw [List.length_append] at hrest
      rw [metadataFrom, List.mapM_cons, List.map_cons, bind_of_eq_ok (hread _ _ hchunk rfl),
        bind_of_eq_ok hrest]
      rfl

/-- The entries that a chunk of an index has, and those of all chunks. -/
structure MmapSearchIndex.Stores (env : ArchiveEnv) (index : MmapSearchIndex)
    (parts : List (List SearchGameEntry)) : Prop where
  chunks : index.chunks.mapM (archivedChunk env index) = .ok parts
  entryCount : index.entryCount = parts.flatten.length
  parIter : parIter env index = .ok (parts.flatten.map SearchGameEntry.ref)

theorem stores_of_layout {sourceBytes : List UInt8} {source : IndexSource}
    (hframes : ∀ frame ∈ frames, frame.Readable env) :
    MmapSearchIndex.Stores env ⟨archiveBytes sourceBytes frames, entryTotal frames, source,
      metadataFrom (32 + sourceBytes.length) frames⟩ (frames.map ChunkFrame.entries) := by
  have hfront : (archiveHeaderBytes sourceBytes.length (entryTotal frames) frames.length ++
      sourceBytes).length = 32 + sourceBytes.length := by
    rw [List.length_append, length_archiveHeaderBytes]
  have hmmap : archiveBytes sourceBytes frames =
      archiveHeaderBytes sourceBytes.length (entryTotal frames) frames.length ++ sourceBytes ++
        frames.flatMap ChunkFrame.bytes := (List.append_assoc ..).symm
  set index : MmapSearchIndex := ⟨archiveBytes sourceBytes frames, entryTotal frames, source,
    metadataFrom (32 + sourceBytes.length) frames⟩ with hindex
  refine ⟨?_, ?_, ?_⟩
  · have hchunks : (metadataFrom _ frames).mapM (archivedChunk env index) = _ :=
      mapM_chunks (fun _ _ h _ ↦ h) hmmap hframes
    rw [hfront] at hchunks
    exact hchunks
  · rw [List.length_flatten, List.map_map]
    rfl
  · have hrefs : ∀ chunk entries, archivedChunk env index chunk = .ok entries →
        chunk.entryCount = entries.length →
          (do
            let entries ← archivedChunk env index chunk
            .ok ((entries.take chunk.entryCount).map SearchGameEntry.ref)) =
          (.ok (entries.map SearchGameEntry.ref) : Except Error _) := by
      intro chunk entries hchunk hcount
      rw [bind_of_eq_ok hchunk, hcount, List.take_length]
    have hchunks := mapM_chunks hrefs hmmap hframes
    rw [hfront] at hchunks
    rw [parIter, bind_of_eq_ok hchunks, List.map_flatten, List.map_map]
    rfl

/-- An archive that is written is read back with its source and its entries, in chunks within the
limits; there is one unless its size or number of entries does not fit; and an archive that is
accepted consists of its header, source and chunks. -/
theorem writeChunkedArchive_openFileInner {source : IndexSource} {entries : List SearchGameEntry}
    (hsource : KeepsSource env source) (hall : Archivable env entries) :
    (∀ file, writeChunkedArchive env source (entries.map .ok) = .ok file →
      ∃ index parts, openFileInner env file = .ok index ∧ index.source = source ∧
        index.Stores env parts ∧ parts.flatten = entries ∧
          ∀ part ∈ parts, part ≠ [] ∧ Limited env part) ∧
    ((∀ sourceBytes, env.sourceBytes source = .ok sourceBytes →
        ¬NoRoom env (archiveHeaderBytes sourceBytes.length 0 0 ++ sourceBytes) entries) →
      ∃ file, writeChunkedArchive env source (entries.map .ok) = .ok file) ∧
    ∀ mmap index, openFileInner env mmap = .ok index → ∃ sourceBytes frames,
      mmap = archiveBytes sourceBytes frames ∧ env.readSource sourceBytes = .ok index.source ∧
        (∀ frame ∈ frames, frame.Readable env) ∧
          index.Stores env (frames.map ChunkFrame.entries) := by
  obtain ⟨sourceBytes, hbytes, hread, hmax, hdvd⟩ := hsource
  have hcases := writeChunkedArchive_cases hbytes hread hmax hdvd hall
  refine ⟨?_, ?_, ?_⟩
  · intro file hfile
    rcases hcases with ⟨frames, hframes, hentries, hwrite, hlength, htotal⟩ | ⟨⟨error, herror⟩, -⟩
    · have hreadable : ∀ frame ∈ frames, frame.Readable env :=
        fun frame hframe ↦ (hframes frame hframe).readable
      obtain rfl := Except.ok.inj (hwrite.symm.trans hfile)
      refine ⟨_, frames.map ChunkFrame.entries,
        openFileInner_of_layout hread hmax hdvd hreadable hlength htotal, rfl,
        stores_of_layout hreadable, hentries, ?_⟩
      intro part hpart
      obtain ⟨frame, hframe, rfl⟩ := List.mem_map.mp hpart
      exact ⟨(hreadable frame hframe).entries_ne_nil, (hframes frame hframe).limited⟩
    · rw [herror] at hfile
      cases hfile
  · intro hroom
    rcases hcases with ⟨frames, -, -, hwrite, -⟩ | ⟨-, hover⟩
    · exact ⟨_, hwrite⟩
    · exact absurd hover (hroom sourceBytes hbytes)
  · rintro mmap ⟨mmap', entryCount, source', chunks⟩ hopen
    obtain ⟨sourceBytes', frames, rfl, rfl, hread', hframes, rfl, rfl⟩ := openFileInner_eq_ok hopen
    exact ⟨sourceBytes', frames, rfl, hread', hframes, stores_of_layout hframes⟩

end

/-! ## An index of one game -/

namespace SingleGame

def source : IndexSource := ⟨(1, 2), 3, 4096, 1714566600000000000⟩

def sourceBytes : List UInt8 :=
  leBytes 8 1 ++ leBytes 8 2 ++ leBytes 8 3 ++ leBytes 8 4096 ++ leBytes 16 1714566600000000000

/-- A game of the first of the moves, over and over. -/
def game (plies : ℕ) : SearchGameEntry where
  id := 1
  whiteId := 1
  blackId := 2
  date := none
  result := .whiteWin
  pawnHome := 65535
  whiteMaterial := 39
  blackMaterial := 39
  whiteElo := 0
  blackElo := 0
  fen := none
  moves := List.replicate plies 0

/-- The move bytes, the fields of the entry and where they are. -/
def payload (plies : ℕ) : List UInt8 :=
  let start := (plies + 3) / 4 * 4
  List.replicate start 0 ++ leBytes 4 1 ++ leBytes 4 1 ++ leBytes 4 2 ++ List.replicate 12 0 ++
    [1, 0, 255, 255, 39, 39, 0, 0, 0, 0, 0, 0] ++ List.replicate 12 0 ++
    leBytes 4 (2 ^ 32 - (start + 48)) ++ leBytes 4 plies ++ leBytes 4 (2 ^ 32 - 56) ++ leBytes 4 1

def env (plies : ℕ) : ArchiveEnv where
  entrySize := 96
  sourceBytes _ := .ok sourceBytes
  readSource bytes := if bytes = sourceBytes then .ok source else .error "invalid source"
  chunkBytes entries := if entries = [game plies] then .ok (payload plies) else .error "other chunk"
  accessChunk bytes := if bytes = payload plies then .ok [game plies] else .error "invalid chunk"

theorem validateMoves_game (plies : ℕ) : validateMoves (game plies) = .ok () := by
  have hvalid : validateFrom 0 0 (List.replicate plies 0) = .ok () := by
    induction plies with
    | zero => rfl
    | succ plies ih =>
        rw [List.replicate_succ, validateFrom, if_neg (by decide), if_neg (by decide),
          if_neg (by decide)]
        exact ih
  have hmoves : validateMainlineMoveBytes (game plies).moves = .ok () := hvalid
  rw [validateMoves, tryIterMainlineMoveBytes, hmoves]
  rfl

theorem length_payload (plies : ℕ) : (payload plies).length = (plies + 3) / 4 * 4 + 64 := by
  simp only [payload, List.length_append, List.length_replicate, length_leBytes, List.length_cons,
    List.length_nil]

theorem keepsSource (plies : ℕ) : KeepsSource (env plies) source :=
  ⟨sourceBytes, rfl, by simp [env], by decide, by decide⟩

theorem archivable (plies : ℕ) : Archivable (env plies) [game plies] where
  chunk := by
    intro part hpart hwithin
    obtain rfl := ((List.infix_singleton_iff _ _).mp hwithin).resolve_left hpart
    refine ⟨payload plies, by simp [env], by simp [env], fun hnil ↦ ?_⟩
    have hlength := length_payload plies
    rw [hnil, List.length_nil] at hlength
    omega
  moves := by
    intro entry hentry
    obtain rfl := List.mem_singleton.mp hentry
    exact validateMoves_game plies

theorem written_env {plies : ℕ} {frame : ChunkFrame} (h : frame.Written (env plies)) :
    frame.entries = [game plies] ∧ frame.payload = payload plies := by
  have hbytes := h.bytes
  rw [env] at hbytes
  dsimp only at hbytes
  split_ifs at hbytes with hentries
  exact ⟨hentries, (Except.ok.inj hbytes).symm⟩

theorem frames_env {plies : ℕ} {frames : List ChunkFrame}
    (hframes : ∀ frame ∈ frames, frame.Written (env plies))
    (hstarts : frames.flatMap ChunkFrame.entries <+: [game plies]) :
    frames = [] ∨ frames = [⟨payload plies, [game plies]⟩] := by
  rcases frames with _ | ⟨⟨bytes, entries⟩, _ | ⟨frame', frames⟩⟩
  · exact .inl rfl
  · obtain ⟨rfl, rfl⟩ := written_env (hframes _ List.mem_cons_self)
    exact .inr rfl
  · have hfirst := (written_env (hframes _ List.mem_cons_self)).1
    have hsecond := (written_env (hframes frame' (by simp))).1
    have hle := hstarts.length_le
    rw [List.flatMap_cons, List.flatMap_cons, hfirst, hsecond] at hle
    simp at hle

theorem hasRoom {plies : ℕ} (hplies : plies ≤ 2 ^ 32) {head : List UInt8}
    (hhead : head.length ≤ 2 ^ 32) :
    ¬NoRoom (env plies) head [game plies] := by
  rintro ⟨frames, hframes, hstarts, hover⟩
  have hlength := length_payload plies
  rcases frames_env hframes hstarts with rfl | rfl
  · simp only [Overflows, List.flatMap_nil, List.append_nil, entryTotal_nil, u64Max] at hover
    omega
  · simp only [Overflows, List.flatMap_cons, List.flatMap_nil, List.append_nil, List.length_append,
      ChunkFrame.length_bytes, hlength, entryTotal_cons, entryTotal_nil, List.length_singleton,
      u64Max] at hover
    omega

/-- The one chunk of the index has the one game, whatever its size. -/
theorem exists_index {plies : ℕ} (hplies : plies ≤ 2 ^ 32) :
    ∃ file index, writeChunkedArchive (env plies) source [.ok (game plies)] = .ok file ∧
      openFileInner (env plies) file = .ok index ∧
        index.chunks.mapM (archivedChunk (env plies) index) = .ok [[game plies]] := by
  obtain ⟨bytes, hbytes, hread, hmax, hdvd⟩ := keepsSource plies
  obtain rfl : sourceBytes = bytes := Except.ok.inj hbytes
  rcases writeChunkedArchive_cases hbytes hread hmax hdvd (archivable plies) with
    ⟨frames, hframes, hentries, hwrite, hlength, htotal⟩ | ⟨-, hover⟩
  · have hreadable : ∀ frame ∈ frames, frame.Readable (env plies) :=
      fun frame hframe ↦ (hframes frame hframe).readable
    refine ⟨_, _, hwrite, openFileInner_of_layout hread hmax hdvd hreadable hlength htotal, ?_⟩
    rcases frames_env hframes (hentries ▸ List.prefix_refl _) with rfl | rfl
    · cases hentries
    · exact (stores_of_layout hreadable).chunks
  · exact absurd hover (hasRoom hplies (by decide))

theorem lt_estimate {plies : ℕ} (hplies : plies ≤ 2 ^ 32) :
    plies < ([game plies].map (estimatedEntryBytes (env plies))).sum := by
  have hestimate : estimatedEntryBytes (env plies) (game plies) = 96 + plies := by
    simp only [estimatedEntryBytes, game, env, Option.elim, List.length_replicate, saturatingAdd,
      u64Max]
    omega
  rw [List.map_singleton, List.sum_singleton, hestimate]
  omega

theorem exists_larger {plies : ℕ} (hplies : plies ≤ 2 ^ 32) :
    ∃ file index part, writeChunkedArchive (env plies) source [.ok (game plies)] = .ok file ∧
      openFileInner (env plies) file = .ok index ∧
        index.chunks.mapM (archivedChunk (env plies) index) = .ok [part] ∧
          plies < (part.map (estimatedEntryBytes (env plies))).sum := by
  obtain ⟨file, index, hwrite, hopen, hchunks⟩ := exists_index hplies
  exact ⟨file, index, _, hwrite, hopen, hchunks, lt_estimate hplies⟩

end SingleGame

open SingleGame in
/-- A game as large as the limit is a chunk of its own above the limit. -/
theorem oversized_chunk :
    ∃ file index part,
      writeChunkedArchive (env chunkPayloadTargetBytes) source
        [.ok (game chunkPayloadTargetBytes)] = .ok file ∧
      openFileInner (env chunkPayloadTargetBytes) file = .ok index ∧
      index.chunks.mapM (archivedChunk (env chunkPayloadTargetBytes) index) = .ok [part] ∧
      chunkPayloadTargetBytes <
        (part.map (estimatedEntryBytes (env chunkPayloadTargetBytes))).sum :=
  exists_larger (by decide)

open SingleGame in
/-- A game of three moves and its index. -/
theorem openFileInner_game :
    ∃ file index parts, writeChunkedArchive (env 3) source [.ok (game 3)] = .ok file ∧
      openFileInner (env 3) file = .ok index ∧ index.source = source ∧
        index.Stores (env 3) parts ∧ parts.flatten = [game 3] := by
  obtain ⟨hreads, hwrites, -⟩ :=
    writeChunkedArchive_openFileInner (keepsSource 3) (archivable 3)
  obtain ⟨file, hfile⟩ := hwrites fun sourceBytes hbytes ↦ by
    obtain rfl := Except.ok.inj hbytes
    exact hasRoom (by decide) (by decide)
  obtain ⟨index, parts, hopen, hsource, hstores, hentries, -⟩ := hreads file hfile
  exact ⟨file, index, parts, hfile, hopen, hsource, hstores, hentries⟩

end EnCroissant

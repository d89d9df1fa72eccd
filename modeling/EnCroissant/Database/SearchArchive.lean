import Mathlib
import EnCroissant.Library.ByteOrder
import EnCroissant.Integers
import EnCroissant.Database.Encoding

/-!
# The archive of a search index

A header, the source of the index and the chunks, each behind its own header and
padded.  The writer leaves the counts open and writes the header again at the
end; the reader checks every offset on its own.
-/

namespace EnCroissant

open ByteOrder

def magic : List UInt8 := [69, 67, 83, 73]

def archiveVersion : ℕ := 8

def archiveAlignment : ℕ := 16

def headerSize : ℕ := 32

def chunkHeaderSize : ℕ := 16

def maxSourceBytes : ℕ := 1024 * 1024

def chunkEntryLimit : ℕ := 4096

def chunkPayloadTargetBytes : ℕ := 4 * 1024 * 1024

inductive SearchIndex.GameResult where
  | none
  | whiteWin
  | blackWin
  | draw
  | other
  deriving DecidableEq, Repr

structure SearchGameEntry where
  id : Int32
  whiteId : Int32
  blackId : Int32
  date : Option String
  result : SearchIndex.GameResult
  pawnHome : UInt16
  whiteMaterial : UInt8
  blackMaterial : UInt8
  whiteElo : Int16
  blackElo : Int16
  fen : Option String
  moves : List UInt8
  deriving DecidableEq

structure IndexSource where
  object : UInt64 × UInt64
  revision : UInt64
  databaseLength : UInt64
  databaseModifiedNanos : BitVec 128
  deriving DecidableEq

/-- The serialisation of sources and chunks, and the size of an entry in memory. -/
structure ArchiveEnv where
  entrySize : ℕ
  sourceBytes : IndexSource → Except String (List UInt8)
  readSource : List UInt8 → Except String IndexSource
  chunkBytes : List SearchGameEntry → Except String (List UInt8)
  accessChunk : List UInt8 → Except String (List SearchGameEntry)

/-! ## Offsets -/

def alignUp (offset : ℕ) : Except Error ℕ := do
  let above ← checkedAdd offset (archiveAlignment - 1) (invalidData "archive offset overflow")
  .ok (above / archiveAlignment * archiveAlignment)

/-- `<[u8]>::get` of a range. -/
def getRange (bytes : List UInt8) (start stop : ℕ) : Option (List UInt8) :=
  if start ≤ stop ∧ stop ≤ bytes.length then some ((bytes.drop start).take (stop - start))
  else none

def readU64 (bytes : List UInt8) (offset : ℕ) (name : String) : Except Error ℕ := do
  let stop ← checkedAdd offset 8 (invalidData (name ++ " offset overflow"))
  match getRange bytes offset stop with
  | none => .error (invalidData ("missing " ++ name))
  | some value => .ok (ofLeBytes value)

/-! ## Writing -/

def archiveHeaderBytes (sourceLen entryCount chunkCount : ℕ) : List UInt8 :=
  magic ++ leBytes 4 archiveVersion ++ leBytes 8 sourceLen ++ leBytes 8 entryCount ++
    leBytes 8 chunkCount

def writePadding (file : List UInt8) (position : ℕ) : Except Error (List UInt8) := do
  let aligned ← alignUp position
  .ok (file ++ List.replicate (aligned - position) 0)

section

variable (env : ArchiveEnv)

def estimatedEntryBytes (entry : SearchGameEntry) : ℕ :=
  saturatingAdd
    (saturatingAdd (saturatingAdd env.entrySize (entry.date.elim 0 String.utf8ByteSize))
      (entry.fen.elim 0 String.utf8ByteSize)) entry.moves.length

def validateMoves (entry : SearchGameEntry) : Except Error Unit := do
  let _ ← tryIterMainlineMoveBytes entry.moves
  .ok ()

/-- The file with the chunk behind it, and the number of its entries. -/
def writeChunk (file : List UInt8) (entries : List SearchGameEntry) :
    Except Error (List UInt8 × ℕ) := do
  entries.forM validateMoves
  let bytes ← (env.chunkBytes entries).mapError fun error ↦
    Error.invalidInput ("search index serialization failed: " ++ error)
  let _ ← (env.accessChunk bytes).mapError fun error ↦
    Error.invalidInput ("search index validation before publish failed: " ++ error)
  let payloadLen ← toU64 bytes.length (.resourceLimit "search index chunk is too large")
  let entryCount ← toU64 entries.length (.resourceLimit "search index chunk has too many entries")
  .ok (file ++ leBytes 8 payloadLen ++ leBytes 8 entryCount ++ bytes, entryCount)

structure ArchiveWriter where
  file : List UInt8
  chunk : List SearchGameEntry
  estimatedBytes : ℕ
  totalEntries : ℕ
  chunkCount : ℕ

/-- Writes the collected chunk and the padding behind it. -/
def flushChunk (writer : ArchiveWriter) : Except Error ArchiveWriter := do
  let (file, entryCount) ← writeChunk env writer.file writer.chunk
  let totalEntries ← checkedAdd writer.totalEntries entryCount
    (.resourceLimit "search index entry count overflow")
  let chunkCount ← checkedAdd writer.chunkCount 1
    (.resourceLimit "search index chunk count overflow")
  let position ← toU64 file.length (.resourceLimit "search index position overflow")
  let file ← writePadding file position
  .ok ⟨file, [], 0, totalEntries, chunkCount⟩

def pushEntry (writer : ArchiveWriter) (entry : Except Error SearchGameEntry) :
    Except Error ArchiveWriter := do
  let entry ← entry
  validateMoves entry
  let entryBytes := estimatedEntryBytes env entry
  let writer ←
    if writer.chunk ≠ [] ∧ (writer.chunk.length ≥ chunkEntryLimit ∨
        saturatingAdd writer.estimatedBytes entryBytes > chunkPayloadTargetBytes) then
      flushChunk env writer
    else .ok writer
  .ok { writer with
    estimatedBytes := saturatingAdd writer.estimatedBytes entryBytes
    chunk := writer.chunk ++ [entry] }

def finishChunk (writer : ArchiveWriter) : Except Error ArchiveWriter :=
  if writer.chunk ≠ [] then flushChunk env writer else .ok writer

/-- `write_chunked_archive_cancellable` on an empty file. -/
def writeChunkedArchive (source : IndexSource) (entries : List (Except Error SearchGameEntry)) :
    Except Error (List UInt8) := do
  let sourceBytes ← (env.sourceBytes source).mapError fun error ↦
    Error.invalidInput ("index source serialization failed: " ++ error)
  let _ ← (env.readSource sourceBytes).mapError fun error ↦
    Error.invalidInput ("index source validation before publish failed: " ++ error)
  let sourceLen ← toU64 sourceBytes.length (.resourceLimit "search index source is too large")
  if sourceBytes.length > maxSourceBytes then
    .error (.resourceLimit "search index source exceeds the metadata limit")
  else if ¬archiveAlignment ∣ sourceBytes.length then
    .error (.invalidInput "serialized index source has invalid alignment")
  else do
    let writer ← entries.foldlM (pushEntry env)
      ⟨archiveHeaderBytes sourceLen 0 0 ++ sourceBytes, [], 0, 0, 0⟩
    let writer ← finishChunk env writer
    .ok (archiveHeaderBytes sourceLen writer.totalEntries writer.chunkCount ++
      writer.file.drop headerSize)

end

/-! ## Reading -/

structure ArchiveHeader where
  sourceLen : ℕ
  entryCount : ℕ
  chunkCount : ℕ
  deriving DecidableEq, Repr

structure ChunkMetadata where
  payloadOffset : ℕ
  payloadLen : ℕ
  entryCount : ℕ
  deriving DecidableEq, Repr

structure MmapSearchIndex where
  mmap : List UInt8
  entryCount : ℕ
  source : IndexSource
  chunks : List ChunkMetadata

def verifyHeader (header : List UInt8) : Except Error ArchiveHeader := do
  if header.length < headerSize then .error (invalidData "File too small for header")
  else if header.take 4 ≠ magic then .error (invalidData "Invalid magic bytes")
  else if ofLeBytes ((header.drop 4).take 4) ≠ archiveVersion then
    .error (invalidData ("Unsupported version: " ++
      (ofLeBytes ((header.drop 4).take 4)).repr ++ " (expected 8)"))
  else do
    let sourceLen ← readU64 header 8 "source length"
    let entryCount ← readU64 header 16 "entry count"
    let chunkCount ← readU64 header 24 "chunk count"
    .ok ⟨sourceLen, entryCount, chunkCount⟩

section

variable (env : ArchiveEnv)

def decodeIndexSource (headerBytes : List UInt8)
    (readSource : ℕ → Except Error (List UInt8)) :
    Except Error (ArchiveHeader × IndexSource × ℕ) := do
  let header ← verifyHeader headerBytes
  if header.sourceLen > maxSourceBytes then
    .error (invalidData "index source exceeds the metadata limit")
  else if ¬archiveAlignment ∣ header.sourceLen then
    .error (invalidData "misaligned index source length")
  else do
    let sourceEnd ← checkedAdd headerSize header.sourceLen (invalidData "source bounds overflow")
    let sourceBytes ← readSource header.sourceLen
    if sourceBytes.length ≠ header.sourceLen then .error (invalidData "truncated index source")
    else do
      let source ← (env.readSource sourceBytes).mapError fun error ↦
        invalidData ("invalid index source archive: " ++ error)
      .ok (header, source, sourceEnd)

/-- The entries of a chunk that was accessed are counted and validated. -/
def checkChunkEntries (entryCount : ℕ) (entries : List SearchGameEntry) : Except Error Unit :=
  if entries.length ≠ entryCount then
    .error (invalidData "chunk entry count does not match payload")
  else
    entries.forM fun entry ↦
      (validateMoves entry).mapError fun error ↦
        invalidData ("invalid move stream: " ++ error.toString)

/-- The chunk at the cursor, and where the next one starts. -/
def readArchiveChunk (mmap : List UInt8) (cursor : ℕ) : Except Error (ChunkMetadata × ℕ) := do
  if cursor % archiveAlignment ≠ 0 then .error (invalidData "misaligned chunk header")
  else do
    let payloadLen ← readU64 mmap cursor "chunk payload length"
    let entryCountOffset ← checkedAdd cursor 8 (invalidData "chunk entry-count offset overflow")
    let entryCount ← readU64 mmap entryCountOffset "chunk entry count"
    if payloadLen = 0 ∨ entryCount = 0 ∨ entryCount > chunkEntryLimit then
      .error (invalidData "invalid chunk length or entry count")
    else do
      let payloadOffset ←
        checkedAdd cursor chunkHeaderSize (invalidData "chunk payload offset overflow")
      if payloadOffset % archiveAlignment ≠ 0 then .error (invalidData "misaligned chunk payload")
      else do
        let payloadEnd ←
          checkedAdd payloadOffset payloadLen (invalidData "chunk payload bounds overflow")
        match getRange mmap payloadOffset payloadEnd with
        | none => .error (invalidData "truncated search index chunk")
        | some payload => do
            let entries ← (env.accessChunk payload).mapError fun error ↦
              invalidData ("invalid search index chunk: " ++ error)
            checkChunkEntries entryCount entries
            let cursor ← alignUp payloadEnd
            match getRange mmap payloadEnd cursor with
            | none => .error (invalidData "truncated chunk padding")
            | some padding =>
                if padding.any (· ≠ 0) then .error (invalidData "non-zero chunk padding")
                else .ok (⟨payloadOffset, payloadLen, entryCount⟩, cursor)

/-- The chunks from the cursor on, the number of their entries, and where they end. -/
def readArchiveChunks (mmap : List UInt8) :
    (chunkCount cursor countedEntries : ℕ) → Except Error (List ChunkMetadata × ℕ × ℕ)
  | 0, cursor, countedEntries => .ok ([], countedEntries, cursor)
  | chunkCount + 1, cursor, countedEntries => do
      let (chunk, cursor) ← readArchiveChunk env mmap cursor
      let countedEntries ← checkedAdd countedEntries chunk.entryCount
        (invalidData "total entry count overflow")
      let (chunks, countedEntries, cursor) ←
        readArchiveChunks mmap chunkCount cursor countedEntries
      .ok (chunk :: chunks, countedEntries, cursor)

/-- The source behind the header. -/
def mappedSource (mmap : List UInt8) (sourceLen : ℕ) : Except Error (List UInt8) :=
  match getRange mmap headerSize (headerSize + sourceLen) with
  | none => .error (invalidData "truncated index source")
  | some sourceBytes => .ok sourceBytes

def openFileInner (mmap : List UInt8) : Except Error MmapSearchIndex := do
  let fileLen ← toU64 mmap.length (invalidData "archive file length exceeds platform limits")
  if fileLen < headerSize then .error (invalidData "File too small for header")
  else do
    let (header, source, sourceEnd) ← decodeIndexSource env mmap (mappedSource mmap)
    if header.chunkCount >
        (mmap.length - sourceEnd) / (chunkHeaderSize + archiveAlignment) + 1 then
      .error (invalidData "declared chunk count exceeds archive bounds")
    else do
      let (chunks, countedEntries, cursor) ←
        readArchiveChunks env mmap header.chunkCount sourceEnd 0
      if countedEntries ≠ header.entryCount then
        .error (invalidData "total entry count does not match chunks")
      else if cursor ≠ mmap.length then
        .error (invalidData "trailing bytes after search index chunks")
      else .ok ⟨mmap, header.entryCount, source, chunks⟩

/-! ## The entries of an open index -/

/-- `SearchGameEntryRef`, what a query sees of an entry. -/
structure SearchGameEntryRef where
  id : Int32
  whiteId : Int32
  blackId : Int32
  date : Option String
  result : SearchIndex.GameResult
  pawnHome : UInt16
  whiteElo : Int16
  blackElo : Int16
  fen : Option String
  moves : List UInt8
  deriving DecidableEq

def SearchGameEntry.ref (entry : SearchGameEntry) : SearchGameEntryRef where
  id := entry.id
  whiteId := entry.whiteId
  blackId := entry.blackId
  date := entry.date
  result := entry.result
  pawnHome := entry.pawnHome
  whiteElo := entry.whiteElo
  blackElo := entry.blackElo
  fen := entry.fen
  moves := entry.moves

def archivedChunk (index : MmapSearchIndex) (chunk : ChunkMetadata) :
    Except Error (List SearchGameEntry) :=
  match getRange index.mmap chunk.payloadOffset (chunk.payloadOffset + chunk.payloadLen) with
  | none => .error (.panic "range end index out of range")
  | some payload =>
      (env.accessChunk payload).mapError fun _ ↦ Error.panic "validated immutable search archive"

/-- `par_iter`, in the order of the archive. -/
def parIter (index : MmapSearchIndex) : Except Error (List SearchGameEntryRef) := do
  let chunks ← index.chunks.mapM fun chunk ↦ do
    let entries ← archivedChunk env index chunk
    .ok ((entries.take chunk.entryCount).map SearchGameEntry.ref)
  .ok chunks.flatten

end

end EnCroissant

import SecCask.Lib.Cursor
import SecCask.Lib.Struct
import SecCask.Lib.Crc

/-!
# SecCask.Archive.StreamZip

`thirdparty/stream_zip`: an archive is written member by member, and its bytes are cut into
chunks of one size. A generator is the list of the chunks that it yields; what has been
yielded before an error is left out.
-/

namespace SecCask.Archive

abbrev Bytes := List UInt8

/-! ### Chunks of one size -/

/-- The loop of `up_to`: the pieces that it yields, and the position behind them. A round
fetches a chunk or yields something, which bounds the rounds by `fuel`. -/
def upToLoop : ℕ → ℕ → Cursor UInt8 → List Bytes × Cursor UInt8
  | 0, _, c => ([], c)
  | _ + 1, 0, c => ([], c)
  | fuel + 1, num@(_ + 1), c =>
      match c.refill with
      | none => ([], c)
      | some c =>
          let toYield := min num c.inChunk
          let (pieces, c') := upToLoop fuel (num - toYield) (c.advance toYield)
          (c.piece toYield :: pieces, c')

def upTo (num : ℕ) (c : Cursor UInt8) : List Bytes × Cursor UInt8 :=
  upToLoop (num + c.rest.length) num c

def evenlySizedLoop (chunkSize : ℕ) : ℕ → Cursor UInt8 → List Bytes
  | 0, _ => []
  | fuel + 1, c =>
      let (pieces, c') := upTo chunkSize c
      if pieces.flatten = [] then []
      else pieces.flatten :: evenlySizedLoop chunkSize fuel c'

/-- `evenly_sized` -/
def evenlySized (chunkSize : ℕ) (chunks : List Bytes) : List Bytes :=
  evenlySizedLoop chunkSize (chunks.flatten.length + 1) (Cursor.start chunks)

/-! ### Members -/

inductive Method
  | noCompression32
  | noCompression64
  | zip32
  | zip64
  deriving DecidableEq, Repr

inductive ZipError
  | uncompressedSizeOverflow
  | compressedSizeOverflow
  | centralDirectorySizeOverflow
  | offsetOverflow
  | centralDirectoryNumberOfEntriesOverflow
  | nameLengthOverflow
  /-- `struct.error` -/
  | structError
  deriving DecidableEq, Repr

/-- The fields of a `datetime` that are used. -/
structure ModifiedAt where
  year : ℕ := 1980
  month : ℕ := 1
  day : ℕ := 1
  hour : ℕ := 0
  minute : ℕ := 0
  second : ℕ := 0
  deriving DecidableEq, Repr

/-- An element of `files`. -/
structure File where
  name : String
  modifiedAt : ModifiedAt := {}
  perms : ℕ := 0
  method : Method
  chunks : List Bytes
  deriving DecidableEq, Repr

def File.nameEncoded (file : File) : Bytes := file.name.toUTF8.data.toList

def File.content (file : File) : Bytes := file.chunks.flatten

/-- The object that `get_compressobj` returns. -/
structure CompressObj where
  State : Type
  init : State
  compress : State → Bytes → State × Bytes
  flush : State → Bytes

/-- An entry of `central_directory`. -/
structure CentralEntry where
  header : Bytes
  nameEncoded : Bytes
  extra : Bytes

def raiseIfBeyond (offset maximum : ℕ) (e : ZipError) : Except ZipError PUnit :=
  if maximum < offset then .error e else .ok ⟨⟩

def structPack (fields : List Field) : Except ZipError Bytes :=
  match pack fields with
  | some bytes => .ok bytes
  | none => .error .structError

def localHeaderSignature : Bytes := [0x50, 0x4B, 0x03, 0x04]

def dataDescriptorSignature : Bytes := [0x50, 0x4B, 0x07, 0x08]

def centralDirectoryHeaderSignature : Bytes := [0x50, 0x4B, 0x01, 0x02]

def zip64EndOfCentralDirectorySignature : Bytes := [0x50, 0x4B, 0x06, 0x06]

def zip64EndOfCentralDirectoryLocatorSignature : Bytes := [0x50, 0x4B, 0x06, 0x07]

def endOfCentralDirectorySignature : Bytes := [0x50, 0x4B, 0x05, 0x06]

def zip64ExtraSignature : Bytes := [0x01, 0x00]

/-- `0xFFFFFFFF` and `0xFFFFFFFFFFFFFFFF` -/
abbrev max32 : ℕ := 4294967295

abbrev max64 : ℕ := 18446744073709551615

/-- The fields of `local_header_struct`. -/
def localHeader (version : ℕ) (flags : Bytes) (compression : ℕ) (modAtEncoded : Bytes)
    (crc compressedSize uncompressedSize nameLength extraLength : ℕ) : Except ZipError Bytes :=
  structPack [.H version, .bytes flags, .H compression, .bytes modAtEncoded, .I crc,
    .I compressedSize, .I uncompressedSize, .H nameLength, .H extraLength]

/-- The fields of `central_directory_header_struct`. -/
def centralHeader (version : ℕ) (flags : Bytes) (compression : ℕ) (modAtEncoded : Bytes)
    (crc compressedSize uncompressedSize nameLength extraLength externalAttr fileOffset : ℕ) :
    Except ZipError Bytes :=
  structPack [.H version, .H version, .bytes flags, .H compression, .bytes modAtEncoded, .I crc,
    .I compressedSize, .I uncompressedSize, .H nameLength, .H extraLength, .H 0, .H 0, .H 0,
    .I externalAttr, .I fileOffset]

/-- A round of `_no_compression_buffered_data_size_crc_32`. -/
def bufferStep (maximumSize : ℕ) (acc : ℕ × BitVec 32) (chunk : Bytes) :
    Except ZipError (ℕ × BitVec 32) := do
  let size := acc.1 + chunk.length
  raiseIfBeyond size maximumSize .uncompressedSizeOverflow
  return (size, crc32 chunk acc.2)

def noCompressionBufferedDataSizeCrc32 (chunks : List Bytes) (maximumSize : ℕ) :
    Except ZipError (ℕ × BitVec 32) :=
  chunks.foldlM (bufferStep maximumSize) (0, crc32 [] 0)

def noCompression64LocalHeaderAndData (fileOffset : ℕ) (nameEncoded modAtEncoded : Bytes)
    (externalAttr : ℕ) (chunks : List Bytes) : Except ZipError (List Bytes × CentralEntry) := do
  raiseIfBeyond fileOffset max64 .offsetOverflow
  let (size, crc) ← noCompressionBufferedDataSizeCrc32 chunks max64
  let extra ← structPack [.bytes zip64ExtraSignature, .H 16, .Q size, .Q size]
  let header ← localHeader 45 [0x00, 0x08] 0 modAtEncoded crc.toNat max32 max32
    nameEncoded.length extra.length
  let centralExtra ← structPack [.bytes zip64ExtraSignature, .H 24, .Q size, .Q size,
    .Q fileOffset]
  let central ← centralHeader 45 [0x00, 0x08] 0 modAtEncoded crc.toNat max32 max32
    nameEncoded.length centralExtra.length externalAttr max32
  return (localHeaderSignature :: header :: nameEncoded :: extra :: chunks,
    ⟨central, nameEncoded, centralExtra⟩)

def noCompression32LocalHeaderAndData (fileOffset : ℕ) (nameEncoded modAtEncoded : Bytes)
    (externalAttr : ℕ) (chunks : List Bytes) : Except ZipError (List Bytes × CentralEntry) := do
  raiseIfBeyond fileOffset max32 .offsetOverflow
  let (size, crc) ← noCompressionBufferedDataSizeCrc32 chunks max32
  let header ← localHeader 20 [0x00, 0x08] 0 modAtEncoded crc.toNat size size
    nameEncoded.length 0
  let central ← centralHeader 20 [0x00, 0x08] 0 modAtEncoded crc.toNat size size
    nameEncoded.length 0 externalAttr fileOffset
  return (localHeaderSignature :: header :: nameEncoded :: [] :: chunks,
    ⟨central, nameEncoded, []⟩)

/-- The loop state of `_zip_data`. -/
structure ZipData (state : Type) where
  yielded : List Bytes
  uncompressedSize : ℕ
  compressedSize : ℕ
  crc : BitVec 32
  compressObj : state

variable (compressObj : CompressObj)

/-- A round of `_zip_data`. -/
def zipDataStep (maxUncompressedSize maxCompressedSize : ℕ) (acc : ZipData compressObj.State)
    (chunk : Bytes) : Except ZipError (ZipData compressObj.State) := do
  let uncompressedSize := acc.uncompressedSize + chunk.length
  raiseIfBeyond uncompressedSize maxUncompressedSize .uncompressedSizeOverflow
  let (state, compressed) := compressObj.compress acc.compressObj chunk
  let compressedSize := acc.compressedSize + compressed.length
  raiseIfBeyond compressedSize maxCompressedSize .compressedSizeOverflow
  return ⟨acc.yielded ++ [compressed], uncompressedSize, compressedSize, crc32 chunk acc.crc,
    state⟩

def zipData (chunks : List Bytes) (maxUncompressedSize maxCompressedSize : ℕ) :
    Except ZipError (List Bytes × ℕ × ℕ × BitVec 32) := do
  let acc ← chunks.foldlM (zipDataStep compressObj maxUncompressedSize maxCompressedSize)
    ⟨[], 0, 0, crc32 [] 0, compressObj.init⟩
  let compressed := compressObj.flush acc.compressObj
  let compressedSize := acc.compressedSize + compressed.length
  raiseIfBeyond compressedSize maxCompressedSize .compressedSizeOverflow
  return (acc.yielded ++ [compressed], acc.uncompressedSize, compressedSize, acc.crc)

def zip64LocalHeaderAndData (fileOffset : ℕ) (nameEncoded modAtEncoded : Bytes)
    (externalAttr : ℕ) (chunks : List Bytes) : Except ZipError (List Bytes × CentralEntry) := do
  raiseIfBeyond fileOffset max64 .offsetOverflow
  let extra ← structPack [.bytes zip64ExtraSignature, .H 16, .Q 0, .Q 0]
  let header ← localHeader 45 [0x08, 0x08] 8 modAtEncoded 0 max32 max32 nameEncoded.length
    extra.length
  let (yielded, uncompressedSize, compressedSize, crc) ← zipData compressObj chunks max64 max64
  let descriptor ← structPack [.I crc.toNat, .Q compressedSize, .Q uncompressedSize]
  let centralExtra ← structPack [.bytes zip64ExtraSignature, .H 24, .Q uncompressedSize,
    .Q compressedSize, .Q fileOffset]
  let central ← centralHeader 45 [0x08, 0x08] 8 modAtEncoded crc.toNat max32 max32
    nameEncoded.length centralExtra.length externalAttr max32
  return (localHeaderSignature :: header :: nameEncoded :: extra :: yielded ++
    [dataDescriptorSignature, descriptor], ⟨central, nameEncoded, centralExtra⟩)

def zip32LocalHeaderAndData (fileOffset : ℕ) (nameEncoded modAtEncoded : Bytes)
    (externalAttr : ℕ) (chunks : List Bytes) : Except ZipError (List Bytes × CentralEntry) := do
  raiseIfBeyond fileOffset max32 .offsetOverflow
  let header ← localHeader 20 [0x08, 0x08] 8 modAtEncoded 0 0 0 nameEncoded.length 0
  let (yielded, uncompressedSize, compressedSize, crc) ← zipData compressObj chunks max32 max32
  let descriptor ← structPack [.I crc.toNat, .I compressedSize, .I uncompressedSize]
  let central ← centralHeader 20 [0x08, 0x08] 8 modAtEncoded crc.toNat compressedSize
    uncompressedSize nameEncoded.length 0 externalAttr fileOffset
  return (localHeaderSignature :: header :: nameEncoded :: yielded ++
    [dataDescriptorSignature, descriptor], ⟨central, nameEncoded, []⟩)

/-- `modified_at_struct.pack`; a year before 1980 makes the second field negative. -/
def modAtEncoded (m : ModifiedAt) : Except ZipError Bytes :=
  if m.year < 1980 then .error .structError
  else structPack [.H (m.second / 2 ||| m.minute <<< 5 ||| m.hour <<< 11),
    .H (m.day ||| m.month <<< 5 ||| (m.year - 1980) <<< 9)]

/-- A round of the loop over `files`. -/
def localHeaderAndData (chunkSize fileOffset : ℕ) (file : File) :
    Except ZipError (List Bytes × CentralEntry) := do
  raiseIfBeyond file.nameEncoded.length 0xFFFF .nameLengthOverflow
  let modAt ← modAtEncoded file.modifiedAt
  let externalAttr := file.perms <<< 16 |||
    (if file.nameEncoded.getLast? = some 0x2F then 0x10 else 0)
  let dataFunc := match file.method with
    | .zip64 => zip64LocalHeaderAndData compressObj
    | .zip32 => zip32LocalHeaderAndData compressObj
    | .noCompression64 => noCompression64LocalHeaderAndData
    | .noCompression32 => noCompression32LocalHeaderAndData
  dataFunc fileOffset file.nameEncoded modAt externalAttr (evenlySized chunkSize file.chunks)

/-- The loop over `files`, from the offset reached so far. -/
def localPart (chunkSize : ℕ) : ℕ → List File → Except ZipError (List Bytes × List CentralEntry)
  | _, [] => .ok ([], [])
  | offset, file :: files => do
      let (yielded, entry) ← localHeaderAndData compressObj chunkSize offset file
      let (more, entries) ← localPart chunkSize (offset + yielded.flatten.length) files
      return (yielded ++ more, entry :: entries)

/-- The chunks of an entry of the central directory. -/
def CentralEntry.chunks (entry : CentralEntry) : List Bytes :=
  [centralDirectoryHeaderSignature, entry.header, entry.nameEncoded, entry.extra]

/-- The loop over `central_directory`: what it yields, and the offset behind it. -/
def centralPart (startOffset maxSize : ℕ) :
    ℕ → List CentralEntry → Except ZipError (List Bytes × ℕ)
  | offset, [] => .ok ([], offset)
  | offset, entry :: entries => do
      let endOffset := offset + entry.chunks.flatten.length
      raiseIfBeyond endOffset max64 .offsetOverflow
      raiseIfBeyond (endOffset - startOffset) maxSize .centralDirectorySizeOverflow
      let (more, last) ← centralPart startOffset maxSize endOffset entries
      return (entry.chunks ++ more, last)

/-- The records behind the central directory. -/
def endPart (zip64 : Bool) (entries size startOffset endOffset : ℕ) :
    Except ZipError (List Bytes) :=
  if zip64 then do
    let zip64End ← structPack [.Q 44, .H 45, .H 45, .I 0, .I 0, .Q entries, .Q entries, .Q size,
      .Q startOffset]
    let locator ← structPack [.I 0, .Q endOffset, .I 1]
    let endRecord ← structPack [.H 0xFFFF, .H 0xFFFF, .H 0xFFFF, .H 0xFFFF, .I max32, .I max32,
      .H 0]
    return [zip64EndOfCentralDirectorySignature, zip64End,
      zip64EndOfCentralDirectoryLocatorSignature, locator, endOfCentralDirectorySignature,
      endRecord]
  else do
    let endRecord ← structPack [.H 0, .H 0, .H entries, .H entries, .I size, .I startOffset, .H 0]
    return [endOfCentralDirectorySignature, endRecord]

/-- `get_zipped_chunks_uneven` -/
def getZippedChunksUneven (chunkSize : ℕ) (files : List File) : Except ZipError (List Bytes) := do
  let zip64 := files.any fun file => file.method = .zip64 || file.method = .noCompression64
  let (locals, entries) ← localPart compressObj chunkSize 0 files
  let startOffset := locals.flatten.length
  raiseIfBeyond startOffset (if zip64 then max64 else max32) .offsetOverflow
  raiseIfBeyond entries.length (if zip64 then max64 else 0xFFFF)
    .centralDirectoryNumberOfEntriesOverflow
  let (central, endOffset) ← centralPart startOffset (if zip64 then max64 else max32) startOffset
    entries
  let ending ← endPart zip64 entries.length (endOffset - startOffset) startOffset endOffset
  return locals ++ central ++ ending

/-- `stream_zip` -/
def streamZip (chunkSize : ℕ) (files : List File) : Except ZipError (List Bytes) := do
  let zippedChunks ← getZippedChunksUneven compressObj chunkSize files
  return evenlySized chunkSize zippedChunks

end SecCask.Archive

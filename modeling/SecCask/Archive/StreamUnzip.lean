import SecCask.Archive.StreamZip

/-!
# SecCask.Archive.StreamUnzip

`thirdparty/stream_unzip_orig`, the reader that `file.py` uses. What it does with the archive
goes through two operations on the bytes still to come, `_get_num` and the decompression of a
member, so that it is defined over any source that has these: the chunks of a file, and a plain
list of bytes to compare it with. The caller is taken to read every member to its end.
-/

namespace SecCask.Archive

inductive UnzipError
  | unsupportedFlags (flags : Bytes)
  | unsupportedCompressionType (compression : ℕ)
  | truncatedData
  | unexpectedSignature (signature : Bytes)
  | missingZip64Extra
  | truncatedZip64Extra
  | crc32Integrity
  /-- An operation on `None`. -/
  | typeError
  deriving DecidableEq, Repr

/-- What the bytes still to come are asked for. -/
structure Source (σ : Type) where
  /-- `_get_num`; `none` stands for `TruncatedDataError`. -/
  getNum : ℕ → σ → Option (Bytes × σ)
  /-- `decrypt_none_decompress` with the decompressor for `num_bytes`: the pieces that it
  yields, and where it ends. -/
  data : Option ℕ → σ → List Bytes × Except UnzipError σ

/-! ### The chunks of a file -/

section Chunks

variable (chunkSize : ℕ)

/-- The loop of `_yield_num`, joined; a round fetches a chunk or yields something. -/
def getNumLoop : ℕ → ℕ → Cursor UInt8 → Option (Bytes × Cursor UInt8)
  | 0, 0, c => some ([], c)
  | 0, _ + 1, _ => none
  | _ + 1, 0, c => some ([], c)
  | fuel + 1, num@(_ + 1), c =>
      match c.refill with
      | none => none
      | some c =>
          let toYield := min (min num c.inChunk) chunkSize
          (getNumLoop fuel (num - toYield) (c.advance toYield)).map fun (more, c') =>
            (c.piece toYield ++ more, c')

def getNum (num : ℕ) (c : Cursor UInt8) : Option (Bytes × Cursor UInt8) :=
  getNumLoop chunkSize (num + c.rest.length) num c

/-- `next` on `_yield_all`: the next piece, and the position behind it. -/
def yieldAll (c : Cursor UInt8) : Option (Bytes × Cursor UInt8) :=
  c.refill.map fun c => (c.piece (min c.inChunk chunkSize), c.advance (min c.inChunk chunkSize))

/-- The loop of `decrypt_none_decompress` with `get_decompressor_none`, until `numBytes` bytes
have been decompressed; what is left of the last piece is returned to the reader. -/
def decompressLoop (numBytes : ℕ) :
    ℕ → ℕ → ℕ → Cursor UInt8 → List Bytes × Except UnzipError (Cursor UInt8)
  | 0, _, _, _ => ([], .error .truncatedData)
  | fuel + 1, numDecompressed, numUnused, c =>
      if numDecompressed = numBytes then ([], .ok (c.unread numUnused))
      else match yieldAll chunkSize c with
        | none => ([], .error .truncatedData)
        | some (compressed, c) =>
            let toYield := min compressed.length (numBytes - numDecompressed)
            let (more, result) := decompressLoop numBytes fuel (numDecompressed + toYield)
              (compressed.length - toYield) c
            (compressed.take toYield :: more, result)

/-- Without a number of bytes the first piece is one too many. -/
def decryptNoneDecompress (numBytes : Option ℕ) (c : Cursor UInt8) :
    List Bytes × Except UnzipError (Cursor UInt8) :=
  match numBytes with
  | some n => decompressLoop chunkSize n (c.remaining.length + c.rest.length + 1) 0 0 c
  | none => ([], .error (if (yieldAll chunkSize c).isNone then .truncatedData else .typeError))

def chunked : Source (Cursor UInt8) where
  getNum := getNum chunkSize
  data := decryptNoneDecompress chunkSize

end Chunks

/-! ### Headers -/

/-- `data[start:stop]` -/
def slice (data : Bytes) (start stop : ℕ) : Bytes := (data.take stop).drop start

/-- The fields of `local_file_header_struct`. -/
structure LocalHeader where
  version : ℕ
  flags : Bytes
  compressionRaw : ℕ
  modTime : ℕ
  modDate : ℕ
  crc32Expected : ℕ
  compressedSizeRaw : ℕ
  uncompressedSizeRaw : ℕ
  fileNameLen : ℕ
  extraFieldLen : ℕ
  deriving DecidableEq, Repr

/-- `local_file_header_struct.unpack` -/
def LocalHeader.unpack (data : Bytes) : LocalHeader where
  version := ofLe (slice data 0 2)
  flags := slice data 2 4
  compressionRaw := ofLe (slice data 4 6)
  modTime := ofLe (slice data 6 8)
  modDate := ofLe (slice data 8 10)
  crc32Expected := ofLe (slice data 10 14)
  compressedSizeRaw := ofLe (slice data 14 18)
  uncompressedSizeRaw := ofLe (slice data 18 22)
  fileNameLen := ofLe (slice data 22 24)
  extraFieldLen := ofLe (slice data 24 26)

/-- `get_flag_bits(flags)[i]` -/
def flagBit (flags : Bytes) (i : ℕ) : Bool := (flags.getD (i / 8) 0).toNat.testBit (i % 8)

/-- `parse_extra`, from `extra_offset` on. -/
def parseExtraLoop : ℕ → Bytes → List (Bytes × Bytes)
  | 0, _ => []
  | fuel + 1, extra =>
      if extra.length < 4 then []
      else
        let extraDataSize := ofLe (slice extra 2 4)
        (slice extra 0 2, slice extra 4 (4 + extraDataSize)) ::
          parseExtraLoop fuel (extra.drop (4 + extraDataSize))

/-- `dict(parse_extra(extra))[signature]` -/
def lookupExtra (extra signature : Bytes) : Option Bytes :=
  (parseExtraLoop (extra.length + 1) extra).reverse.lookup signature

/-- What `yield_file` has found out before the data is read. -/
structure Opened where
  fileName : Bytes
  uncompressedSize : Option ℕ
  hasDataDescriptor : Bool
  isZip64 : Bool
  crc32Expected : ℕ
  deriving DecidableEq, Repr

namespace LocalHeader

/-- Enhanced deflating, compressed patched data, strong encryption, masked header values. -/
def unsupported (h : LocalHeader) : Bool :=
  flagBit h.flags 4 || flagBit h.flags 5 || flagBit h.flags 6 || flagBit h.flags 13

def hasDataDescriptor (h : LocalHeader) : Bool := flagBit h.flags 3

def isZip64 (h : LocalHeader) : Bool :=
  h.compressedSizeRaw = max32 && h.uncompressedSizeRaw = max32

/-- `get_extra_value`, as it is called for the sizes. -/
def zip64Extra (h : LocalHeader) (extra : Bytes) : Except UnzipError (Option Bytes) :=
  if !h.hasDataDescriptor && h.isZip64 then
    match lookupExtra extra zip64ExtraSignature with
    | none => .error .missingZip64Extra
    | some value => if value.length < 16 then .error .truncatedZip64Extra else .ok (some value)
  else .ok none

def uncompressedSize (h : LocalHeader) (zip64Extra : Option Bytes) :
    Except UnzipError (Option ℕ) :=
  if h.hasDataDescriptor && (h.compressionRaw = 8 || h.compressionRaw = 9) then .ok none
  else if h.isZip64 then
    match zip64Extra with
    | some value => .ok (some (ofLe (value.take 8)))
    | none => .error .typeError
  else .ok (some h.uncompressedSizeRaw)

/-- The part of `yield_file` behind the extra field. -/
def opened (h : LocalHeader) (fileName extra : Bytes) : Except UnzipError Opened := do
  if !(h.compressionRaw = 0 || h.compressionRaw = 8 || h.compressionRaw = 9) then
    .error (.unsupportedCompressionType h.compressionRaw)
  let zip64Extra ← h.zip64Extra extra
  let size ← h.uncompressedSize zip64Extra
  return ⟨fileName, size, h.hasDataDescriptor, h.isZip64, h.crc32Expected⟩

end LocalHeader

/-! ### Members -/

/-- A member as the caller sees it. -/
structure Item where
  name : Bytes
  size : Option ℕ
  chunks : List Bytes
  deriving DecidableEq, Repr

def Item.content (item : Item) : Bytes := item.chunks.flatten

/-- What the caller gets: the members read to their ends, the one that an error came in, and
the error. -/
structure Unzipped where
  members : List Item := []
  broken : Option Item := none
  error : Option UnzipError := none
  deriving DecidableEq, Repr

namespace Source

variable {σ : Type} (src : Source σ)

/-- `_get_num` with its exception. -/
def fetch (num : ℕ) (s : σ) : Except UnzipError (Bytes × σ) :=
  match src.getNum num s with
  | some r => .ok r
  | none => .error .truncatedData

/-- `yield_file` up to the data. -/
def yieldFile (s : σ) : Except UnzipError (Opened × σ) := do
  let (raw, s) ← src.fetch 26 s
  let header := LocalHeader.unpack raw
  if header.unsupported then .error (.unsupportedFlags header.flags)
  let (fileName, s) ← src.fetch header.fileNameLen s
  let (extra, s) ← src.fetch header.extraFieldLen s
  let opened ← header.opened fileName extra
  return (opened, s)

/-- `get_crc_32_expected_from_data_descriptor` -/
def crc32FromDataDescriptor (isZip64 : Bool) (s : σ) : Except UnzipError (ℕ × σ) := do
  let (signature, s) ← src.fetch 4 s
  let soFar := if signature = dataDescriptorSignature then [] else signature
  let (remaining, s) ← src.fetch ((if isZip64 then 20 else 12) - soFar.length) s
  return (ofLe ((soFar ++ remaining).take 4), s)

/-- `get_crc_32_expected` -/
def crc32Expected (opened : Opened) (s : σ) : Except UnzipError (ℕ × σ) :=
  if opened.hasDataDescriptor then src.crc32FromDataDescriptor opened.isZip64 s
  else .ok (opened.crc32Expected, s)

/-- `read_data_and_crc_32_verify` -/
def readDataAndCrc32Verify (opened : Opened) (s : σ) : List Bytes × Except UnzipError σ :=
  let (chunks, result) := src.data opened.uncompressedSize s
  (chunks, do
    let s ← result
    let (expected, s) ← src.crc32Expected opened s
    if (chunks.foldl (fun crc chunk => crc32 chunk crc) (crc32 [] 0)).toNat ≠ expected then
      .error .crc32Integrity
    return s)

/-- The loop of `all`. -/
def all : ℕ → σ → Unzipped
  | 0, _ => { error := some .truncatedData }
  | fuel + 1, s =>
      match src.fetch 4 s with
      | .error e => { error := some e }
      | .ok (signature, s) =>
          if signature = localHeaderSignature then
            match src.yieldFile s with
            | .error e => { error := some e }
            | .ok (opened, s) =>
                let (chunks, result) := src.readDataAndCrc32Verify opened s
                let item : Item := ⟨opened.fileName, opened.uncompressedSize, chunks⟩
                match result with
                | .error e => { broken := some item, error := some e }
                | .ok s =>
                    let later := all fuel s
                    { later with members := item :: later.members }
          else if signature = centralDirectoryHeaderSignature then {}
          else { error := some (.unexpectedSignature signature) }

end Source

/-- `stream_unzip`; every member takes some bytes, so that there are fewer than bytes. -/
def streamUnzip (chunkSize : ℕ) (zipfileChunks : List Bytes) : Unzipped :=
  (chunked chunkSize).all (zipfileChunks.flatten.length + 1) (Cursor.start zipfileChunks)

end SecCask.Archive

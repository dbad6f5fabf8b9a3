import SecCask.Archive.Reading
import SecCask.Lib.Fallible

/-!
# SecCask.Archive.Layout

The bytes of an archive that `stream_zip` has written: for each member a signature, a header
of 26 bytes, the name, an extra field and the data, and behind the members the central
directory, which starts with a signature of its own when there is a member at all.
-/

namespace SecCask.Archive

variable {chunkSize : ℕ}

/-! ### Chunks of one size -/

theorem upToLoop_spec {fuel num : ℕ} {c : Cursor UInt8} (hfuel : num + c.rest.length ≤ fuel) :
    (upToLoop fuel num c).1.flatten = c.remaining.take num ∧
      (upToLoop fuel num c).2.remaining = c.remaining.drop num := by
  induction fuel generalizing num c with
  | zero =>
      obtain rfl : num = 0 := by omega
      simp [upToLoop]
  | succ fuel ih =>
      cases num with
      | zero => simp [upToLoop]
      | succ num =>
          cases hrefill : c.refill with
          | none => simp [upToLoop, hrefill, Cursor.remaining_of_refill_none hrefill]
          | some d =>
              obtain ⟨hremaining, -⟩ := Cursor.refill_spec hrefill
              simp only [upToLoop, hrefill]
              generalize hk : min (num + 1) d.inChunk = k
              have hlength : (d.piece k).length = k := by
                rw [Cursor.length_piece]
                omega
              have hmeasure := fetched_lt hrefill (k := k) (n := num + 1) (by omega) (by omega)
              obtain ⟨hpieces, hrest⟩ := @ih (num + 1 - k) (d.advance k) (by
                simp only [Cursor.advance]
                omega)
              rw [Cursor.remaining_advance, hlength, hremaining] at hpieces hrest
              refine ⟨?_, ?_⟩
              · rw [List.flatten_cons, hpieces, Cursor.piece_eq, hlength, hremaining,
                  take_append_take_drop (by omega)]
              · rw [hrest, List.drop_drop]
                congr 1
                omega

theorem evenlySizedLoop_flatten (hsize : 0 < chunkSize) {fuel : ℕ} {c : Cursor UInt8}
    (hfuel : c.remaining.length < fuel) :
    (evenlySizedLoop chunkSize fuel c).flatten = c.remaining := by
  induction fuel generalizing c with
  | zero => omega
  | succ fuel ih =>
      obtain ⟨hblock, hrest⟩ := upToLoop_spec (le_refl (chunkSize + c.rest.length)) (c := c)
      simp only [evenlySizedLoop, upTo, hblock]
      split
      · rename_i hempty
        rcases List.take_eq_nil_iff.mp hempty with hzero | hnil
        · omega
        · rw [hnil]
          rfl
      · rename_i hsome
        have hne : c.remaining ≠ [] := fun hnil => hsome (by rw [hnil, List.take_nil])
        have hpos := List.length_pos_iff.mpr hne
        rw [List.flatten_cons, ih (by rw [hrest, List.length_drop]; omega), hrest,
          List.take_append_drop]

/-- Cutting into chunks of one size loses nothing. -/
theorem evenlySized_flatten (hsize : 0 < chunkSize) (chunks : List Bytes) :
    (evenlySized chunkSize chunks).flatten = chunks.flatten := by
  rw [evenlySized, evenlySizedLoop_flatten hsize] <;> rw [Cursor.remaining_start]
  exact Nat.lt_succ_self _

/-- All blocks are nonempty. -/
theorem evenlySized_ne_nil (chunks : List Bytes) :
    ∀ chunk ∈ evenlySized chunkSize chunks, chunk ≠ [] := by
  have hloop : ∀ fuel c, ∀ chunk ∈ evenlySizedLoop chunkSize fuel c, chunk ≠ [] := by
    intro fuel
    induction fuel with
    | zero => simp [evenlySizedLoop]
    | succ fuel ih =>
        intro c chunk hmem
        simp only [evenlySizedLoop] at hmem
        split at hmem
        · cases hmem
        · rename_i hne
          rcases List.mem_cons.mp hmem with rfl | hmem
          · exact hne
          · exact ih _ chunk hmem
  exact hloop _ _

/-! ### Writing -/

theorem structPack_ok {fields : List Field} {bytes : Bytes} (h : structPack fields = .ok bytes) :
    (∀ field ∈ fields, field.fits = true) ∧ fields.flatMap Field.encode = bytes := by
  unfold structPack at h
  split at h
  · rename_i hpack
    obtain rfl := Except.ok.inj h
    exact pack_eq_some_iff.mp hpack
  · cases h

theorem buffered_ok {chunks : List Bytes} {maximumSize size : ℕ} {crc : BitVec 32}
    (h : noCompressionBufferedDataSizeCrc32 chunks maximumSize = .ok (size, crc)) :
    size = chunks.flatten.length ∧ crc = crc32 chunks.flatten 0 := by
  have hloop : ∀ acc : ℕ × BitVec 32, chunks.foldlM (bufferStep maximumSize) acc =
      .ok (size, crc) → size = acc.1 + chunks.flatten.length ∧
        crc = crc32 chunks.flatten acc.2 := by
    clear h
    induction chunks with
    | nil =>
        intro acc h
        obtain rfl := Except.ok.inj h
        simp [crc32_nil]
    | cons chunk chunks ih =>
        intro acc h
        rw [List.foldlM_cons] at h
        obtain ⟨acc', hstep, hrest⟩ := bind_eq_ok_iff.mp h
        obtain ⟨-, -, hacc⟩ := bind_eq_ok_iff.mp hstep
        obtain rfl := Except.ok.inj hacc
        obtain ⟨hsize, hcrc⟩ := ih _ hrest
        rw [List.flatten_cons, List.length_append, crc32_append]
        exact ⟨by omega, hcrc⟩
  simpa [crc32_nil] using hloop _ h

/-- A header as `local_header_struct` packs it, read back. -/
structure HeaderOf (header flags : Bytes) (compression crc compressedSize uncompressedSize
    nameLength extraLength : ℕ) : Prop where
  length : header.length = 26
  flags : (LocalHeader.unpack header).flags = flags
  compressionRaw : (LocalHeader.unpack header).compressionRaw = compression
  crc32Expected : (LocalHeader.unpack header).crc32Expected = crc
  compressedSizeRaw : (LocalHeader.unpack header).compressedSizeRaw = compressedSize
  uncompressedSizeRaw : (LocalHeader.unpack header).uncompressedSizeRaw = uncompressedSize
  fileNameLen : (LocalHeader.unpack header).fileNameLen = nameLength
  extraFieldLen : (LocalHeader.unpack header).extraFieldLen = extraLength

theorem localHeader_ok {version : ℕ} {flags : Bytes} {compression : ℕ} {modAt : Bytes}
    {crc compressedSize uncompressedSize nameLength extraLength : ℕ} {header : Bytes}
    (hflags : flags.length = 2) (hmodAt : modAt.length = 4)
    (h : localHeader version flags compression modAt crc compressedSize uncompressedSize nameLength
      extraLength = .ok header) :
    HeaderOf header flags compression crc compressedSize uncompressedSize nameLength
      extraLength := by
  obtain ⟨hfits, rfl⟩ := structPack_ok h
  simp only [List.mem_cons, List.not_mem_nil, or_false, forall_eq_or_imp, forall_eq, Field.fits,
    decide_eq_true_eq, Field.H, Field.I] at hfits
  obtain ⟨-, -, hcompression, -, hcrc, hcompressed, huncompressed, hname, hextra⟩ := hfits
  obtain ⟨f₀, f₁, rfl⟩ : ∃ f₀ f₁, flags = [f₀, f₁] := by
    match flags, hflags with
    | [f₀, f₁], _ => exact ⟨f₀, f₁, rfl⟩
  obtain ⟨m₀, m₁, m₂, m₃, rfl⟩ : ∃ m₀ m₁ m₂ m₃, modAt = [m₀, m₁, m₂, m₃] := by
    match modAt, hmodAt with
    | [m₀, m₁, m₂, m₃], _ => exact ⟨m₀, m₁, m₂, m₃, rfl⟩
  constructor
  case length => rfl
  case flags => rfl
  case compressionRaw => exact ofLe_le hcompression
  case crc32Expected => exact ofLe_le hcrc
  case compressedSizeRaw => exact ofLe_le hcompressed
  case uncompressedSizeRaw => exact ofLe_le huncompressed
  case fileNameLen => exact ofLe_le hname
  case extraFieldLen => exact ofLe_le hextra

/-- The flags that `stream_zip` sets are supported. -/
theorem HeaderOf.supported {header flags : Bytes} {compression crc compressedSize uncompressedSize
    nameLength extraLength : ℕ} (h : HeaderOf header flags compression crc compressedSize
      uncompressedSize nameLength extraLength)
    (hflags : (flagBit flags 4 || flagBit flags 5 || flagBit flags 6 || flagBit flags 13) = false) :
    (LocalHeader.unpack header).unsupported = false := by
  rw [LocalHeader.unsupported, h.flags, hflags]

theorem HeaderOf.hasDataDescriptor {header flags : Bytes} {compression crc compressedSize
    uncompressedSize nameLength extraLength : ℕ} (h : HeaderOf header flags compression crc
      compressedSize uncompressedSize nameLength extraLength) :
    (LocalHeader.unpack header).hasDataDescriptor = flagBit flags 3 := by
  rw [LocalHeader.hasDataDescriptor, h.flags]

theorem stored_no_descriptor : flagBit [0x00, 0x08] 3 = false := by decide

theorem deflated_descriptor : flagBit [0x08, 0x08] 3 = true := by decide

/-! ### Members without compression -/

theorem modAtEncoded_ok {m : ModifiedAt} {modAt : Bytes} (h : modAtEncoded m = .ok modAt) :
    modAt.length = 4 := by
  unfold modAtEncoded at h
  split at h
  · cases h
  · obtain ⟨-, rfl⟩ := structPack_ok h
    rfl

theorem fetch_append {n : ℕ} {a : Bytes} (hlength : a.length = n) (rest : Bytes) :
    flat.fetch n (a ++ rest) = .ok (a, rest) := by
  subst hlength
  simp [Source.fetch, flat]

/-- Where the header says how long the name and the extra field are, reading takes all three. -/
theorem yieldFile_eq {header flags name extra : Bytes}
    {compression crc compressedSize uncompressedSize : ℕ}
    (hheader : HeaderOf header flags compression crc compressedSize uncompressedSize name.length
      extra.length)
    (hsupported : (LocalHeader.unpack header).unsupported = false) (rest : Bytes) :
    flat.yieldFile (header ++ name ++ extra ++ rest) =
      ((LocalHeader.unpack header).opened name extra).map fun opened => (opened, rest) := by
  unfold Source.yieldFile
  simp only [List.append_assoc, fetch_append hheader.length, fetch_append hheader.fileNameLen.symm,
    fetch_append hheader.extraFieldLen.symm, bind, Except.bind, hsupported, Bool.false_eq_true,
    if_false]
  cases (LocalHeader.unpack header).opened name extra <;> rfl

/-- The extra field that `stream_zip` writes. -/
theorem lookupExtra_zip64 {value : Bytes} (hlength : value.length = 16) :
    lookupExtra ([0x01, 0x00, 0x10, 0x00] ++ value) zip64ExtraSignature = some value := by
  have hsize : ofLe (slice ([0x01, 0x00, 0x10, 0x00] ++ value) 2 4) = 16 := rfl
  have hvalue : slice ([0x01, 0x00, 0x10, 0x00] ++ value) 4 (4 + 16) = value := by
    have htake : ([0x01, 0x00, 0x10, 0x00] ++ value).take (4 + 16) =
        [0x01, 0x00, 0x10, 0x00] ++ value := List.take_of_length_le (by simp [hlength])
    rw [slice, htake]
    rfl
  have hrest : ([0x01, 0x00, 0x10, 0x00] ++ value).drop (4 + 16) = [] :=
    List.drop_eq_nil_of_le (by simp [hlength])
  have hlong : ¬ ([0x01, 0x00, 0x10, 0x00] ++ value : Bytes).length < 4 := by simp
  have hparse : parseExtraLoop (([0x01, 0x00, 0x10, 0x00] ++ value).length + 1)
      ([0x01, 0x00, 0x10, 0x00] ++ value) = [(zip64ExtraSignature, value)] := by
    rw [parseExtraLoop, if_neg hlong, hsize]
    dsimp only
    rw [hvalue, hrest]
    rfl
  rw [lookupExtra, hparse]
  simp

/-- What a member amounts to. -/
def File.item (file : File) : Item :=
  ⟨file.nameEncoded, some file.content.length, [file.content]⟩

/-- The CRC in the header of a member. -/
def File.crc (file : File) : ℕ := (crc32 file.content 0).toNat

/-- Reading the head of a member leads to its data, with its name, size and CRC. -/
def Opens (file : File) (head : Bytes) : Prop :=
  ∀ rest, ∃ isZip64, flat.yieldFile (head ++ rest) =
    .ok (⟨file.nameEncoded, some file.content.length, false, isZip64, file.crc⟩, rest)

variable {compressObj : CompressObj} {offset : ℕ} {file : File} {yielded : List Bytes}
  {entry : CentralEntry}

/-- The parts that `localHeaderAndData` has in common for all methods. -/
theorem localHeaderAndData_ok
    (h : localHeaderAndData compressObj chunkSize offset file = .ok (yielded, entry)) :
    ∃ modAt externalAttr, modAt.length = 4 ∧
      (match file.method with
        | .zip64 => zip64LocalHeaderAndData compressObj
        | .zip32 => zip32LocalHeaderAndData compressObj
        | .noCompression64 => noCompression64LocalHeaderAndData
        | .noCompression32 => noCompression32LocalHeaderAndData) offset file.nameEncoded modAt
          externalAttr (evenlySized chunkSize file.chunks) = .ok (yielded, entry) := by
  obtain ⟨-, -, h⟩ := bind_eq_ok_iff.mp h
  obtain ⟨modAt, hmodAt, h⟩ := bind_eq_ok_iff.mp h
  exact ⟨modAt, _, modAtEncoded_ok hmodAt, h⟩

theorem noCompression64_record (hsize : 0 < chunkSize)
    (h : localHeaderAndData compressObj chunkSize offset file = .ok (yielded, entry))
    (hmethod : file.method = .noCompression64) :
    ∃ head, yielded.flatten = localHeaderSignature ++ head ++ file.content ∧
      Opens file head := by
  obtain ⟨modAt, externalAttr, hmodAt, h⟩ := localHeaderAndData_ok h
  simp only [hmethod, noCompression64LocalHeaderAndData] at h
  obtain ⟨-, -, h⟩ := bind_eq_ok_iff.mp h
  obtain ⟨⟨size, crc⟩, hbuffered, h⟩ := bind_eq_ok_iff.mp h
  obtain ⟨extra, hextra, h⟩ := bind_eq_ok_iff.mp h
  obtain ⟨header, hheader, h⟩ := bind_eq_ok_iff.mp h
  obtain ⟨_, -, h⟩ := bind_eq_ok_iff.mp h
  obtain ⟨_, -, h⟩ := bind_eq_ok_iff.mp h
  obtain ⟨rfl, -⟩ := Prod.mk.inj (Except.ok.inj h)
  obtain ⟨rfl, rfl⟩ := buffered_ok hbuffered
  have hcontent : (evenlySized chunkSize file.chunks).flatten = file.content :=
    evenlySized_flatten hsize _
  rw [hcontent] at hheader hextra
  obtain ⟨hfits, hextra⟩ := structPack_ok hextra
  have hheader := localHeader_ok rfl hmodAt hheader
  refine ⟨header ++ file.nameEncoded ++ extra, ?_, fun rest => ⟨true, ?_⟩⟩
  · simp only [List.flatten_cons, hcontent, List.append_assoc]
  have hlookup : lookupExtra extra zip64ExtraSignature =
      some (le 8 file.content.length ++ le 8 file.content.length) := by
    have hbytes : extra = [0x01, 0x00, 0x10, 0x00] ++
        (le 8 file.content.length ++ le 8 file.content.length) := hextra.symm
    rw [hbytes]
    exact lookupExtra_zip64 (by rw [List.length_append, length_le])
  have hlength : file.content.length < 256 ^ 8 := by
    have hfield := hfits (.Q file.content.length) (by simp)
    exact of_decide_eq_true hfield
  have hlong : (le 8 file.content.length ++ le 8 file.content.length).length = 16 := by
    rw [List.length_append, length_le]
  rw [yieldFile_eq hheader (hheader.supported rfl)]
  simp only [LocalHeader.opened, hheader.compressionRaw, LocalHeader.zip64Extra,
    hheader.hasDataDescriptor, stored_no_descriptor, LocalHeader.isZip64,
    hheader.compressedSizeRaw, hheader.uncompressedSizeRaw, hlookup, hlong,
    LocalHeader.uncompressedSize, bind, Except.bind, pure, Except.pure]
  simp [ofLe_le hlength, hheader.crc32Expected, File.crc, Except.map]

theorem noCompression32_record (hsize : 0 < chunkSize)
    (h : localHeaderAndData compressObj chunkSize offset file = .ok (yielded, entry))
    (hmethod : file.method = .noCompression32) :
    ∃ head, yielded.flatten = localHeaderSignature ++ head ++ file.content ∧
      (file.content.length ≠ max32 → Opens file head) ∧
      (file.content.length = max32 →
        ∀ rest, flat.yieldFile (head ++ rest) = .error .missingZip64Extra) := by
  obtain ⟨modAt, externalAttr, hmodAt, h⟩ := localHeaderAndData_ok h
  simp only [hmethod, noCompression32LocalHeaderAndData] at h
  obtain ⟨-, -, h⟩ := bind_eq_ok_iff.mp h
  obtain ⟨⟨size, crc⟩, hbuffered, h⟩ := bind_eq_ok_iff.mp h
  obtain ⟨header, hheader, h⟩ := bind_eq_ok_iff.mp h
  obtain ⟨_, -, h⟩ := bind_eq_ok_iff.mp h
  obtain ⟨rfl, -⟩ := Prod.mk.inj (Except.ok.inj h)
  obtain ⟨rfl, rfl⟩ := buffered_ok hbuffered
  have hcontent : (evenlySized chunkSize file.chunks).flatten = file.content :=
    evenlySized_flatten hsize _
  rw [hcontent] at hheader
  have hheader : HeaderOf header [0x00, 0x08] 0 file.crc file.content.length file.content.length
      file.nameEncoded.length ([] : Bytes).length := localHeader_ok rfl hmodAt hheader
  have hopened : ∀ rest, flat.yieldFile (header ++ file.nameEncoded ++ rest) =
      ((LocalHeader.unpack header).opened file.nameEncoded []).map
        fun opened => (opened, rest) := by
    intro rest
    simpa using yieldFile_eq hheader (hheader.supported rfl) rest
  refine ⟨header ++ file.nameEncoded, ?_, fun hsize rest => ⟨false, ?_⟩, fun hsize rest => ?_⟩
  · simp only [List.flatten_cons, hcontent, List.append_assoc, List.nil_append]
  · rw [hopened]
    simp only [LocalHeader.opened, hheader.compressionRaw, LocalHeader.zip64Extra,
      hheader.hasDataDescriptor, stored_no_descriptor, LocalHeader.isZip64,
      hheader.compressedSizeRaw, hheader.uncompressedSizeRaw,
      LocalHeader.uncompressedSize, bind, Except.bind, pure, Except.pure]
    simp [hsize, hheader.crc32Expected, Except.map]
  · rw [hopened]
    simp only [LocalHeader.opened, hheader.compressionRaw, LocalHeader.zip64Extra,
      hheader.hasDataDescriptor, stored_no_descriptor, LocalHeader.isZip64,
      hheader.compressedSizeRaw, hheader.uncompressedSizeRaw, hsize]
    rfl

/-- The header of a deflated member does not say where the member ends. -/
theorem deflated_opens {header name extra : Bytes} {crc compressedSize uncompressedSize : ℕ}
    (hheader : HeaderOf header [0x08, 0x08] 8 crc compressedSize uncompressedSize name.length
      extra.length) (rest : Bytes) :
    ∃ opened, flat.yieldFile (header ++ name ++ extra ++ rest) = .ok (opened, rest) ∧
      opened.uncompressedSize = none := by
  rw [yieldFile_eq hheader (hheader.supported rfl)]
  simp only [LocalHeader.opened, hheader.compressionRaw, LocalHeader.zip64Extra,
    hheader.hasDataDescriptor, deflated_descriptor, LocalHeader.uncompressedSize, bind,
    Except.bind, pure, Except.pure]
  simp [Except.map]

theorem deflated_record
    (h : localHeaderAndData compressObj chunkSize offset file = .ok (yielded, entry))
    (hmethod : file.method = .zip64 ∨ file.method = .zip32) :
    ∃ head tail, yielded.flatten = localHeaderSignature ++ head ++ tail ∧
      ∀ rest, ∃ opened, flat.yieldFile (head ++ rest) = .ok (opened, rest) ∧
        opened.uncompressedSize = none := by
  obtain ⟨modAt, externalAttr, hmodAt, h⟩ := localHeaderAndData_ok h
  rcases hmethod with hmethod | hmethod
  · simp only [hmethod, zip64LocalHeaderAndData] at h
    obtain ⟨-, -, h⟩ := bind_eq_ok_iff.mp h
    obtain ⟨extra, -, h⟩ := bind_eq_ok_iff.mp h
    obtain ⟨header, hheader, h⟩ := bind_eq_ok_iff.mp h
    obtain ⟨data, -, h⟩ := bind_eq_ok_iff.mp h
    obtain ⟨descriptor, -, h⟩ := bind_eq_ok_iff.mp h
    obtain ⟨_, -, h⟩ := bind_eq_ok_iff.mp h
    obtain ⟨_, -, h⟩ := bind_eq_ok_iff.mp h
    obtain ⟨rfl, -⟩ := Prod.mk.inj (Except.ok.inj h)
    refine ⟨header ++ file.nameEncoded ++ extra,
      (data.1 ++ [dataDescriptorSignature, descriptor]).flatten, ?_,
      deflated_opens (localHeader_ok rfl hmodAt hheader)⟩
    simp only [List.cons_append, List.flatten_cons, List.append_assoc]
  · simp only [hmethod, zip32LocalHeaderAndData] at h
    obtain ⟨-, -, h⟩ := bind_eq_ok_iff.mp h
    obtain ⟨header, hheader, h⟩ := bind_eq_ok_iff.mp h
    obtain ⟨data, -, h⟩ := bind_eq_ok_iff.mp h
    obtain ⟨descriptor, -, h⟩ := bind_eq_ok_iff.mp h
    obtain ⟨_, -, h⟩ := bind_eq_ok_iff.mp h
    obtain ⟨rfl, -⟩ := Prod.mk.inj (Except.ok.inj h)
    refine ⟨header ++ file.nameEncoded ++ [],
      (data.1 ++ [dataDescriptorSignature, descriptor]).flatten, ?_,
      deflated_opens (localHeader_ok rfl hmodAt hheader)⟩
    simp only [List.cons_append, List.flatten_cons, List.append_assoc, List.append_nil]

end SecCask.Archive

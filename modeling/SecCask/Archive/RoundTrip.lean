import SecCask.Archive.Layout

/-!
# SecCask.Archive.RoundTrip

What `stream_unzip` reads from an archive that `stream_zip` has written. It reads the members
back exactly when there is one, none is deflated, and none of the 32-bit ones has the size
that the header uses for "see the extra field".
-/

namespace SecCask.Archive

variable {chunkSize : ℕ} {compressObj : CompressObj}

/-- The reader finds the end of the member. -/
def File.Readable (file : File) : Prop :=
  match file.method with
  | .noCompression64 => True
  | .noCompression32 => file.content.length ≠ max32
  | .zip32 | .zip64 => False

instance (file : File) : Decidable file.Readable := by
  unfold File.Readable
  split <;> infer_instance

/-! ### Members -/

theorem fetch_signature (signature rest : Bytes) (hlength : signature.length = 4) :
    flat.fetch 4 (signature ++ rest) = .ok (signature, rest) :=
  fetch_append hlength rest

/-- A member that opens is read, and reading goes on behind it. -/
theorem all_opens {file : File} {head : Bytes} (hopens : Opens file head) (fuel : ℕ)
    (rest : Bytes) :
    flat.all (fuel + 1) (localHeaderSignature ++ head ++ file.content ++ rest) =
      { flat.all fuel rest with members := file.item :: (flat.all fuel rest).members } := by
  obtain ⟨isZip64, hopened⟩ := hopens (file.content ++ rest)
  have hdata : flat.data (some file.content.length) (file.content ++ rest) =
      ([file.content], .ok rest) := by
    simp [flat]
  have hcrc : (crc32 file.content (crc32 [] 0)).toNat = file.crc := by
    rw [crc32_nil]
    rfl
  simp only [List.append_assoc, Source.all, fetch_signature localHeaderSignature _ rfl, if_true,
    hopened, Source.readDataAndCrc32Verify, hdata, Source.crc32Expected, Bool.false_eq_true,
    if_false, bind, Except.bind, List.foldl_cons, List.foldl_nil, hcrc, ne_eq, not_true_eq_false,
    pure, Except.pure, File.item]

/-- A header that does not open ends the reading. -/
theorem all_error_of_yieldFile {data : Bytes} {e : UnzipError}
    (herror : flat.yieldFile data = .error e) (fuel : ℕ) :
    (flat.all (fuel + 1) (localHeaderSignature ++ data)).error = some e := by
  simp only [Source.all, fetch_signature localHeaderSignature _ rfl, if_true, herror]

/-- So does a member without a size. -/
theorem all_error_of_no_size {data rest : Bytes} {opened : Opened}
    (hopened : flat.yieldFile data = .ok (opened, rest))
    (hsize : opened.uncompressedSize = none) (fuel : ℕ) :
    (flat.all (fuel + 1) (localHeaderSignature ++ data)).error ≠ none := by
  have hdata : flat.data none rest =
      ([], .error (if rest = [] then .truncatedData else .typeError)) := rfl
  simp only [Source.all, fetch_signature localHeaderSignature _ rfl, if_true, hopened,
    Source.readDataAndCrc32Verify, hsize, hdata, bind, Except.bind]
  simp

/-! ### All members -/

theorem localPart_cons_ok {offset : ℕ} {file : File} {files : List File} {yielded : List Bytes}
    {entries : List CentralEntry}
    (h : localPart compressObj chunkSize offset (file :: files) = .ok (yielded, entries)) :
    ∃ first entry more entries', localHeaderAndData compressObj chunkSize offset file =
        .ok (first, entry) ∧
      localPart compressObj chunkSize (offset + first.flatten.length) files =
        .ok (more, entries') ∧
      yielded = first ++ more ∧ entries = entry :: entries' := by
  obtain ⟨⟨first, entry⟩, hfirst, h⟩ := bind_eq_ok_iff.mp h
  obtain ⟨⟨more, entries'⟩, hmore, h⟩ := bind_eq_ok_iff.mp h
  obtain ⟨rfl, rfl⟩ := Prod.mk.inj (Except.ok.inj h)
  exact ⟨first, entry, more, entries', hfirst, hmore, rfl, rfl⟩

/-- A member that can be read opens, and its data follows. -/
theorem readable_record (hsize : 0 < chunkSize) {offset : ℕ} {file : File} {yielded : List Bytes}
    {entry : CentralEntry}
    (h : localHeaderAndData compressObj chunkSize offset file = .ok (yielded, entry))
    (hreadable : file.Readable) :
    ∃ head, yielded.flatten = localHeaderSignature ++ head ++ file.content ∧ Opens file head := by
  cases hmethod : file.method with
  | noCompression64 => exact noCompression64_record hsize h hmethod
  | noCompression32 =>
      obtain ⟨head, hbytes, hopens, -⟩ := noCompression32_record hsize h hmethod
      refine ⟨head, hbytes, hopens ?_⟩
      simpa [File.Readable, hmethod] using hreadable
  | zip32 | zip64 => simp [File.Readable, hmethod] at hreadable

theorem unreadable_record (hsize : 0 < chunkSize) {offset : ℕ} {file : File}
    {yielded : List Bytes} {entry : CentralEntry}
    (h : localHeaderAndData compressObj chunkSize offset file = .ok (yielded, entry))
    (hreadable : ¬ file.Readable) (fuel : ℕ) (rest : Bytes) :
    (flat.all (fuel + 1) (yielded.flatten ++ rest)).error ≠ none := by
  have hdeflated : file.method = .zip64 ∨ file.method = .zip32 →
      (flat.all (fuel + 1) (yielded.flatten ++ rest)).error ≠ none := by
    intro hmethod
    obtain ⟨head, tail, hbytes, hopens⟩ := deflated_record h hmethod
    obtain ⟨opened, hopened, hnone⟩ := hopens (tail ++ rest)
    rw [hbytes, List.append_assoc, List.append_assoc]
    exact all_error_of_no_size hopened hnone fuel
  cases hmethod : file.method with
  | noCompression64 => simp [File.Readable, hmethod] at hreadable
  | noCompression32 =>
      obtain ⟨head, hbytes, -, hmissing⟩ := noCompression32_record hsize h hmethod
      have hlong : file.content.length = max32 := by
        simpa [File.Readable, hmethod] using hreadable
      rw [hbytes, List.append_assoc, List.append_assoc,
        all_error_of_yieldFile (hmissing hlong (file.content ++ rest))]
      simp
  | zip32 => exact hdeflated (Or.inr hmethod)
  | zip64 => exact hdeflated (Or.inl hmethod)

theorem all_localPart (hsize : 0 < chunkSize) {files : List File} {offset : ℕ}
    {yielded : List Bytes} {entries : List CentralEntry}
    (h : localPart compressObj chunkSize offset files = .ok (yielded, entries))
    (hreadable : ∀ file ∈ files, file.Readable) (fuel : ℕ) (rest : Bytes) :
    flat.all (files.length + fuel) (yielded.flatten ++ rest) =
      { flat.all fuel rest with
        members := files.map File.item ++ (flat.all fuel rest).members } := by
  induction files generalizing offset yielded entries with
  | nil =>
      obtain ⟨rfl, -⟩ := Prod.mk.inj (Except.ok.inj h)
      simp
  | cons file files ih =>
      obtain ⟨first, entry, more, entries', hfirst, hmore, rfl, -⟩ := localPart_cons_ok h
      obtain ⟨head, hbytes, hopens⟩ := readable_record hsize hfirst (hreadable file (by simp))
      have hfuel : (file :: files).length + fuel = files.length + fuel + 1 := by
        simp only [List.length_cons]
        omega
      have hlater := ih hmore (fun file' hmem => hreadable file' (by simp [hmem]))
      rw [hfuel, List.flatten_append, hbytes, List.append_assoc, all_opens hopens, hlater]
      simp

theorem all_localPart_error (hsize : 0 < chunkSize) {files : List File} {offset : ℕ}
    {yielded : List Bytes} {entries : List CentralEntry}
    (h : localPart compressObj chunkSize offset files = .ok (yielded, entries))
    (hunreadable : ∃ file ∈ files, ¬ file.Readable) (fuel : ℕ) (rest : Bytes) :
    (flat.all fuel (yielded.flatten ++ rest)).error ≠ none := by
  induction files generalizing offset yielded entries fuel with
  | nil => simp at hunreadable
  | cons file files ih =>
      cases fuel with
      | zero => simp [Source.all]
      | succ fuel =>
          obtain ⟨first, entry, more, entries', hfirst, hmore, rfl, -⟩ := localPart_cons_ok h
          rw [List.flatten_append, List.append_assoc]
          by_cases hreadable : file.Readable
          · obtain ⟨head, hbytes, hopens⟩ := readable_record hsize hfirst hreadable
            rw [hbytes, all_opens hopens]
            refine ih hmore ?_ fuel
            simpa [hreadable] using hunreadable
          · exact unreadable_record hsize hfirst hreadable fuel _

/-! ### The archive -/

theorem record_starts (hsize : 0 < chunkSize) {offset : ℕ} {file : File} {yielded : List Bytes}
    {entry : CentralEntry}
    (h : localHeaderAndData compressObj chunkSize offset file = .ok (yielded, entry)) :
    ∃ more, yielded.flatten = localHeaderSignature ++ more := by
  cases hmethod : file.method with
  | noCompression64 =>
      obtain ⟨head, hbytes, -⟩ := noCompression64_record hsize h hmethod
      exact ⟨_, hbytes.trans (List.append_assoc _ _ _)⟩
  | noCompression32 =>
      obtain ⟨head, hbytes, -⟩ := noCompression32_record hsize h hmethod
      exact ⟨_, hbytes.trans (List.append_assoc _ _ _)⟩
  | zip32 =>
      obtain ⟨head, tail, hbytes, -⟩ := deflated_record h (Or.inr hmethod)
      exact ⟨_, hbytes.trans (List.append_assoc _ _ _)⟩
  | zip64 =>
      obtain ⟨head, tail, hbytes, -⟩ := deflated_record h (Or.inl hmethod)
      exact ⟨_, hbytes.trans (List.append_assoc _ _ _)⟩

/-- Every member has an entry in the central directory and takes some bytes. -/
theorem localPart_lengths (hsize : 0 < chunkSize) {files : List File} {offset : ℕ}
    {yielded : List Bytes} {entries : List CentralEntry}
    (h : localPart compressObj chunkSize offset files = .ok (yielded, entries)) :
    entries.length = files.length ∧ files.length ≤ yielded.flatten.length := by
  induction files generalizing offset yielded entries with
  | nil =>
      obtain ⟨rfl, rfl⟩ := Prod.mk.inj (Except.ok.inj h)
      simp
  | cons file files ih =>
      obtain ⟨first, entry, more, entries', hfirst, hmore, rfl, rfl⟩ := localPart_cons_ok h
      obtain ⟨hentries, hbytes⟩ := ih hmore
      obtain ⟨rest, hstarts⟩ := record_starts hsize hfirst
      have hlong : (localHeaderSignature ++ rest).length = 4 + rest.length := by
        rw [List.length_append]
        rfl
      rw [List.flatten_append, List.length_append, hstarts, hlong, List.length_cons,
        List.length_cons]
      omega

theorem centralPart_starts {startOffset maxSize offset last : ℕ} {entry : CentralEntry}
    {entries : List CentralEntry} {yielded : List Bytes}
    (h : centralPart startOffset maxSize offset (entry :: entries) = .ok (yielded, last)) :
    ∃ more, yielded.flatten = centralDirectoryHeaderSignature ++ more := by
  obtain ⟨-, -, h⟩ := bind_eq_ok_iff.mp h
  obtain ⟨-, -, h⟩ := bind_eq_ok_iff.mp h
  obtain ⟨⟨more, last'⟩, -, h⟩ := bind_eq_ok_iff.mp h
  obtain ⟨rfl, -⟩ := Prod.mk.inj (Except.ok.inj h)
  refine ⟨entry.header ++ entry.nameEncoded ++ entry.extra ++ more.flatten, ?_⟩
  simp [CentralEntry.chunks]

/-- The members come first; behind them stands the signature of the central directory, or
that of the end when there are no members. -/
theorem streamZip_layout (hsize : 0 < chunkSize) {files : List File} {archive : List Bytes}
    (hzip : streamZip compressObj chunkSize files = .ok archive) :
    ∃ locals entries tail, localPart compressObj chunkSize 0 files = .ok (locals, entries) ∧
      archive.flatten = locals.flatten ++ tail ∧
      (files ≠ [] → ∃ more, tail = centralDirectoryHeaderSignature ++ more) ∧
      (files = [] → ∃ more, tail = endOfCentralDirectorySignature ++ more) := by
  obtain ⟨uneven, huneven, h⟩ := bind_eq_ok_iff.mp hzip
  obtain rfl := Except.ok.inj h
  obtain ⟨⟨locals, entries⟩, hlocals, h⟩ := bind_eq_ok_iff.mp huneven
  obtain ⟨-, -, h⟩ := bind_eq_ok_iff.mp h
  obtain ⟨-, -, h⟩ := bind_eq_ok_iff.mp h
  obtain ⟨⟨central, endOffset⟩, hcentral, h⟩ := bind_eq_ok_iff.mp h
  obtain ⟨ending, hending, h⟩ := bind_eq_ok_iff.mp h
  obtain rfl := Except.ok.inj h
  refine ⟨locals, entries, central.flatten ++ ending.flatten, hlocals, ?_, ?_, ?_⟩
  · rw [evenlySized_flatten hsize]
    simp only [List.flatten_append, List.append_assoc]
  · intro hne
    cases entries with
    | nil =>
        have hlength := (localPart_lengths hsize hlocals).1
        exact absurd (List.length_eq_zero_iff.mp hlength.symm) hne
    | cons entry entries =>
        obtain ⟨more, hmore⟩ := centralPart_starts hcentral
        exact ⟨more ++ ending.flatten, by rw [hmore, List.append_assoc]⟩
  · intro hnil
    subst hnil
    obtain ⟨rfl, rfl⟩ := Prod.mk.inj (Except.ok.inj hlocals)
    obtain ⟨rfl, rfl⟩ := Prod.mk.inj (Except.ok.inj hcentral)
    simp only [List.any_nil, endPart, Bool.false_eq_true, if_false] at hending
    obtain ⟨endRecord, -, h⟩ := bind_eq_ok_iff.mp hending
    obtain rfl := Except.ok.inj h
    exact ⟨_, rfl⟩

/-- An archive without members starts with what is not looked for. -/
theorem unzip_streamZip_nil (hsize : 0 < chunkSize) {archive : List Bytes}
    (hzip : streamZip compressObj chunkSize [] = .ok archive) :
    unzip archive.flatten =
      { error := some (.unexpectedSignature endOfCentralDirectorySignature) } := by
  obtain ⟨locals, entries, tail, hlocals, hbytes, -, hending⟩ := streamZip_layout hsize hzip
  obtain ⟨more, rfl⟩ := hending rfl
  obtain ⟨rfl, -⟩ := Prod.mk.inj (Except.ok.inj hlocals)
  rw [unzip, hbytes, List.flatten_nil, List.nil_append]
  simp only [Source.all, fetch_signature endOfCentralDirectorySignature _ rfl]
  rw [if_neg (by decide), if_neg (by decide)]
  rfl

/-- **Round trip of the bytes.** -/
theorem unzip_streamZip (hsize : 0 < chunkSize) {files : List File} {archive : List Bytes}
    (hzip : streamZip compressObj chunkSize files = .ok archive) :
    ((files ≠ [] ∧ ∀ file ∈ files, file.Readable) →
        unzip archive.flatten = { members := files.map File.item }) ∧
      (¬ (files ≠ [] ∧ ∀ file ∈ files, file.Readable) → (unzip archive.flatten).error ≠ none) := by
  obtain ⟨locals, entries, tail, hlocals, hbytes, hcentral, -⟩ := streamZip_layout hsize hzip
  obtain ⟨hentries, hlength⟩ := localPart_lengths hsize hlocals
  refine ⟨fun hcond => ?_, fun hcond => ?_⟩
  · obtain ⟨hne, hreadable⟩ := hcond
    obtain ⟨more, rfl⟩ := hcentral hne
    obtain ⟨fuel, hfuel⟩ : ∃ fuel, archive.flatten.length + 1 = files.length + (fuel + 1) := by
      refine ⟨archive.flatten.length - files.length, ?_⟩
      have hle : locals.flatten.length ≤ archive.flatten.length := by
        rw [hbytes, List.length_append]
        omega
      omega
    have hstop : flat.all (fuel + 1) (centralDirectoryHeaderSignature ++ more) = {} := by
      simp only [Source.all, fetch_signature centralDirectoryHeaderSignature _ rfl]
      rfl
    rw [unzip, hfuel, hbytes, all_localPart hsize hlocals hreadable, hstop]
    simp [Unzipped.joined, Item.joined, Item.content, File.item]
  · by_cases hnil : files = []
    · subst hnil
      rw [unzip_streamZip_nil hsize hzip]
      simp
    · have herror : ∀ u : Unzipped, u.joined.error = u.error := fun _ => rfl
      rw [unzip, herror, hbytes]
      have hunreadable : ∃ file ∈ files, ¬ file.Readable := by
        simpa [hnil] using hcond
      exact all_localPart_error hsize hlocals hunreadable _ _

/-- **Round trip.** From an archive that `stream_zip` has written, cut into any nonempty
chunks, `stream_unzip` reads all members back with their names, sizes and contents exactly if
the archive has a member and every member is readable; otherwise it ends in an error. -/
theorem streamUnzip_streamZip (compressObj : CompressObj) {chunkSize chunkSize' : ℕ}
    (hsize : 0 < chunkSize) (hsize' : 0 < chunkSize') {files : List File} {archive : List Bytes}
    (hzip : streamZip compressObj chunkSize files = .ok archive) {chunks : List Bytes}
    (hchunks : ∀ chunk ∈ chunks, chunk ≠ []) (hsame : chunks.flatten = archive.flatten) :
    ((streamUnzip chunkSize' chunks).joined = { members := files.map File.item } ↔
        files ≠ [] ∧ ∀ file ∈ files, file.Readable) ∧
      ((streamUnzip chunkSize' chunks).error = none ↔
        files ≠ [] ∧ ∀ file ∈ files, file.Readable) := by
  have herror : (streamUnzip chunkSize' chunks).joined.error =
      (streamUnzip chunkSize' chunks).error := rfl
  rw [← herror, joined_streamUnzip hsize' hchunks, hsame]
  obtain ⟨hread, hfail⟩ := unzip_streamZip hsize hzip
  by_cases hcond : files ≠ [] ∧ ∀ file ∈ files, file.Readable
  · rw [hread hcond]
    exact ⟨iff_of_true rfl hcond, iff_of_true rfl hcond⟩
  · have hsome := hfail hcond
    refine ⟨iff_of_false (fun hall => hsome ?_) hcond, iff_of_false hsome hcond⟩
    rw [hall]

theorem streamZip_ne_nil {files : List File} {archive : List Bytes}
    (hzip : streamZip compressObj chunkSize files = .ok archive) :
    ∀ chunk ∈ archive, chunk ≠ [] := by
  obtain ⟨uneven, -, h⟩ := bind_eq_ok_iff.mp hzip
  obtain rfl := Except.ok.inj h
  exact evenlySized_ne_nil uneven

/-- A compressor that stores, for members that are not compressed. -/
def idle : CompressObj := ⟨Unit, (), fun s data => (s, data), fun _ => []⟩

def twoFiles : List File :=
  [{ name := "./a/x", method := .noCompression64, chunks := [[1, 2], [3]] },
   { name := "./a/y", method := .noCompression32, chunks := [[4]] }]

theorem twoFiles_zip : ∃ archive, streamZip idle 8 twoFiles = .ok archive := by
  have hok : (streamZip idle 8 twoFiles).isOk = true := by decide +kernel
  cases hzip : streamZip idle 8 twoFiles with
  | error e =>
      rw [hzip] at hok
      cases hok
  | ok archive => exact ⟨archive, rfl⟩

/-- The archive as `stream_zip` cuts it, and byte by byte. -/
theorem twoFiles_cuts : ∃ archive, streamZip idle 8 twoFiles = .ok archive ∧
    (streamUnzip 16 archive).joined =
      (streamUnzip 1 (archive.flatten.map fun byte => [byte])).joined := by
  obtain ⟨archive, hzip⟩ := twoFiles_zip
  refine ⟨archive, hzip, streamUnzip_chunks (by decide) (by decide) (streamZip_ne_nil hzip) ?_ ?_⟩
  · intro chunk hchunk
    obtain ⟨byte, -, rfl⟩ := List.mem_map.mp hchunk
    exact List.cons_ne_nil _ _
  · rw [← List.flatMap_def, List.flatMap_singleton']

theorem twoFiles_streamUnzip : ∃ archive, streamZip idle 8 twoFiles = .ok archive ∧
    (streamUnzip 16 archive).joined = { members := twoFiles.map File.item } := by
  obtain ⟨archive, hzip⟩ := twoFiles_zip
  have hread := streamUnzip_streamZip idle (by decide) (show 0 < 16 by decide) hzip
    (streamZip_ne_nil hzip) rfl
  exact ⟨archive, hzip, hread.1.mpr ⟨by decide, by decide⟩⟩

end SecCask.Archive

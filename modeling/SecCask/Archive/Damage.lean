import SecCask.Lib.Streaming
import SecCask.Archive.RoundTrip

/-!
# SecCask.Archive.Damage

What `stream_unzip` notices of a damaged archive. It reads from front to back and stops at
the signature of the central directory: an archive that is cut off before that is reported as
truncated, and what stands behind it is not looked at. A change within four adjacent bytes of
a member is caught by the CRC.
-/

namespace SecCask.Archive

/-! ### Reading from front to back -/

theorem fetch_eq (num : ℕ) (data : Bytes) : flat.fetch num data =
    if num ≤ data.length then .ok (data.take num, data.drop num) else .error .truncatedData := by
  unfold Source.fetch flat
  dsimp only
  by_cases hle : num ≤ data.length
  · rw [if_pos hle, if_pos hle]
  · rw [if_neg hle, if_neg hle]

theorem streaming_fetch (num : ℕ) : Streaming .truncatedData (flat.fetch num) := by
  rw [funext (fetch_eq num)]
  exact streaming_take num

theorem streaming_yieldFile : Streaming .truncatedData flat.yieldFile := by
  refine Streaming.bind (streaming_fetch 26) ?_
  intro raw
  dsimp only
  split
  · exact streaming_error _
  refine Streaming.bind (streaming_fetch _) ?_
  intro fileName
  dsimp only
  refine Streaming.bind (streaming_fetch _) ?_
  intro extra
  dsimp only
  cases (LocalHeader.unpack raw).opened fileName extra with
  | error e => exact streaming_error e
  | ok opened => exact streaming_ok opened

theorem streaming_crc32Expected (opened : Opened) :
    Streaming .truncatedData (flat.crc32Expected opened) := by
  unfold Source.crc32Expected
  split
  · refine Streaming.bind (streaming_fetch 4) ?_
    intro signature
    dsimp +instances only
    refine Streaming.bind (streaming_fetch _) ?_
    intro remaining
    dsimp +instances only
    exact streaming_ok _
  · exact streaming_ok _

/-- The data of a member with its check. -/
def checked (opened : Opened) (data : Bytes) : Except UnzipError (List Bytes × Bytes) :=
  (flat.readDataAndCrc32Verify opened data).2.map fun rest =>
    ((flat.readDataAndCrc32Verify opened data).1, rest)

theorem checked_eq {opened : Opened} {size : ℕ} (hsize : opened.uncompressedSize = some size)
    (data : Bytes) : checked opened data = flat.fetch size data >>= fun r =>
      flat.crc32Expected opened r.2 >>= fun r' =>
        if (crc32 r.1 (crc32 [] 0)).toNat ≠ r'.1 then .error .crc32Integrity
        else .ok ([r.1], r'.2) := by
  have hdata : flat.data (some size) data =
      if size ≤ data.length then ([data.take size], .ok (data.drop size))
      else ([data], .error .truncatedData) := rfl
  unfold checked Source.readDataAndCrc32Verify
  rw [fetch_eq, hsize, hdata]
  by_cases hle : size ≤ data.length
  · simp only [if_pos hle, List.foldl_cons, List.foldl_nil, bind, Except.bind, Except.map]
    cases flat.crc32Expected opened (data.drop size) with
    | error e => rfl
    | ok r =>
        by_cases hcrc : (crc32 (data.take size) (crc32 [] 0)).toNat ≠ r.1
        · simp only [if_pos hcrc]
        · simp only [if_neg hcrc]
          rfl
  · simp only [if_neg hle]
    rfl

theorem streaming_checked (opened : Opened) : Streaming .truncatedData (checked opened) := by
  cases hsize : opened.uncompressedSize with
  | none =>
      intro data chunks rest h
      have hdata : flat.data none data =
          ([], .error (if data = [] then .truncatedData else .typeError)) := rfl
      rw [checked, Source.readDataAndCrc32Verify, hsize, hdata] at h
      cases h
  | some size =>
      rw [funext (checked_eq hsize)]
      refine Streaming.bind (streaming_fetch _) ?_
      intro content
      dsimp +instances only
      refine Streaming.bind (streaming_crc32Expected opened) ?_
      intro expected
      dsimp +instances only
      split
      · exact streaming_error _
      · exact streaming_ok _

/-- A round of the loop of `all`: the next member, or `none` at the central directory. -/
def nextMember (data : Bytes) : Except UnzipError (Option Item × Bytes) := do
  let (signature, data) ← flat.fetch 4 data
  if signature = localHeaderSignature then
    let (opened, data) ← flat.yieldFile data
    let (chunks, data) ← checked opened data
    return (some ⟨opened.fileName, opened.uncompressedSize, chunks⟩, data)
  else if signature = centralDirectoryHeaderSignature then return (none, data)
  else .error (.unexpectedSignature signature)

theorem streaming_nextMember : Streaming .truncatedData nextMember := by
  refine Streaming.bind (streaming_fetch 4) ?_
  intro signature
  dsimp +instances only
  split
  · refine Streaming.bind streaming_yieldFile ?_
    intro opened
    dsimp +instances only
    refine Streaming.bind (streaming_checked opened) ?_
    intro chunks
    dsimp +instances only
    exact streaming_ok _
  · split
    · exact streaming_ok _
    · exact streaming_error _

/-- `all` goes on from a member, ends at the central directory and passes errors on. -/
theorem all_succ (fuel : ℕ) (data : Bytes) :
    match nextMember data with
    | .error e => (flat.all (fuel + 1) data).error = some e ∧
        (flat.all (fuel + 1) data).members = []
    | .ok (none, _) => flat.all (fuel + 1) data = {}
    | .ok (some item, rest) => flat.all (fuel + 1) data =
        { flat.all fuel rest with members := item :: (flat.all fuel rest).members } := by
  cases hsignature : flat.fetch 4 data with
  | error e => simp [nextMember, Source.all, hsignature, bind, Except.bind]
  | ok r =>
      obtain ⟨signature, data⟩ := r
      simp only [nextMember, Source.all, hsignature, bind, Except.bind]
      by_cases hlocal : signature = localHeaderSignature
      · simp only [if_pos hlocal]
        cases flat.yieldFile data with
        | error e => exact ⟨rfl, rfl⟩
        | ok r =>
            obtain ⟨opened, data⟩ := r
            dsimp only
            cases hread : flat.readDataAndCrc32Verify opened data with
            | mk chunks result =>
                rw [checked, hread]
                cases result with
                | error e => exact ⟨rfl, rfl⟩
                | ok rest => rfl
      · simp only [if_neg hlocal]
        by_cases hcentral : signature = centralDirectoryHeaderSignature
        · simp only [if_pos hcentral, pure, Except.pure]
        · simp only [if_neg hcentral, and_self]

/-! ### Archives that are cut off -/

theorem nextMember_takes_ne_nil {front : Bytes} {member : Option Item}
    (htakes : Takes .truncatedData nextMember front member) : front ≠ [] := by
  intro hnil
  have hread : nextMember ([] ++ []) = .ok (member, []) := hnil ▸ htakes.enough []
  have hempty : nextMember [] = .error .truncatedData := rfl
  rw [List.append_nil, hempty] at hread
  cases hread

/-- What `all` reads of an archive without an error is a first part of it. -/
theorem all_front {fuel : ℕ} {data : Bytes} (hok : (flat.all fuel data).error = none) :
    ∃ front tail, data = front ++ tail ∧
      (∀ other fuel', (front ++ other).length < fuel' →
        flat.all fuel' (front ++ other) = flat.all fuel data) ∧
      ∀ p q fuel', front = p ++ q → q ≠ [] → p.length < fuel' →
        (flat.all fuel' p).error = some .truncatedData ∧
          (flat.all fuel' p).members <+: (flat.all fuel data).members := by
  induction fuel generalizing data with
  | zero => cases hok
  | succ fuel ih =>
      have hall := all_succ fuel data
      cases hnext : nextMember data with
      | error e =>
          rw [hnext] at hall
          rw [hall.1] at hok
          cases hok
      | ok r =>
          obtain ⟨member, rest⟩ := r
          rw [hnext] at hall
          obtain ⟨front, rfl, htakes⟩ := streaming_nextMember data member rest hnext
          -- less than a member, or than the signature of the central directory
          have hshort : ∀ p q fuel', front = p ++ q → q ≠ [] → p.length < fuel' →
              (flat.all fuel' p).error = some .truncatedData ∧ (flat.all fuel' p).members = [] := by
            intro p q fuel' hp hq hfuel
            obtain ⟨fuel', rfl⟩ : ∃ n, fuel' = n + 1 := ⟨fuel' - 1, by omega⟩
            have hless := all_succ fuel' p
            rw [htakes.short p q hp hq] at hless
            exact hless
          cases member with
          | none =>
              refine ⟨front, rest, rfl, fun other fuel' hfuel => ?_,
                fun p q fuel' hp hq hfuel => ?_⟩
              · obtain ⟨fuel', rfl⟩ : ∃ n, fuel' = n + 1 := ⟨fuel' - 1, by omega⟩
                have hmore := all_succ fuel' (front ++ other)
                rw [htakes.enough other] at hmore
                rw [hmore, hall]
              · obtain ⟨herror, hmembers⟩ := hshort p q fuel' hp hq hfuel
                exact ⟨herror, hmembers ▸ List.nil_prefix⟩
          | some item =>
              have hmore : ∀ other n, flat.all (n + 1) (front ++ other) =
                  { flat.all n other with members := item :: (flat.all n other).members } := by
                intro other n
                have hmember := all_succ n (front ++ other)
                rwa [htakes.enough other] at hmember
              rw [hall] at hok ⊢
              obtain ⟨front', tail, rfl, henough', hshort'⟩ := ih hok
              have hpositive := List.length_pos_iff.mpr (nextMember_takes_ne_nil htakes)
              refine ⟨front ++ front', tail, (List.append_assoc _ _ _).symm,
                fun other fuel' hfuel => ?_, fun p q fuel' hp hq hfuel => ?_⟩
              · obtain ⟨fuel', rfl⟩ : ∃ n, fuel' = n + 1 := ⟨fuel' - 1, by omega⟩
                rw [List.append_assoc, List.length_append] at hfuel
                rw [List.append_assoc, hmore, henough' other fuel' (by omega)]
              · rcases less_or_more_of_append_eq hp with ⟨r, hr, hfront⟩ | ⟨p', rfl, hfront'⟩
                · obtain ⟨herror, hmembers⟩ := hshort p r fuel' hfront hr hfuel
                  exact ⟨herror, hmembers ▸ List.nil_prefix⟩
                · obtain ⟨fuel', rfl⟩ : ∃ n, fuel' = n + 1 := ⟨fuel' - 1, by omega⟩
                  rw [List.length_append] at hfuel
                  obtain ⟨herror, hmembers⟩ := hshort' p' q fuel' hfront' hq (by omega)
                  rw [hmore]
                  exact ⟨herror, List.cons_prefix_cons.mpr ⟨rfl, hmembers⟩⟩

theorem unzip_front {archive : Bytes} (hok : (unzip archive).error = none) :
    ∃ front tail, archive = front ++ tail ∧
      (∀ other, unzip (front ++ other) = unzip archive) ∧
      ∀ p q, front = p ++ q → q ≠ [] → (unzip p).error = some .truncatedData ∧
        (unzip p).members <+: (unzip archive).members := by
  obtain ⟨front, tail, harchive, henough, hshort⟩ := all_front hok
  refine ⟨front, tail, harchive, fun other => ?_, fun p q hp hq => ?_⟩
  · rw [unzip, henough other _ (Nat.lt_succ_self _)]
    rfl
  · obtain ⟨herror, hmembers⟩ := hshort p q _ hp hq (Nat.lt_succ_self _)
    exact ⟨herror, hmembers.map Item.joined⟩

/-- **Truncation.** What `stream_unzip` reads of an archive is a first part of it. An archive
with the same first part reads the same whatever follows, and one that ends before it is
reported as truncated, the members up to there being the right ones. -/
theorem streamUnzip_truncated {chunkSize : ℕ} (hsize : 0 < chunkSize) {archive : List Bytes}
    (harchive : ∀ chunk ∈ archive, chunk ≠ [])
    (hok : (streamUnzip chunkSize archive).error = none) :
    ∃ front, front <+: archive.flatten ∧ ∀ chunks : List Bytes, (∀ chunk ∈ chunks, chunk ≠ []) →
      (front <+: chunks.flatten →
        (streamUnzip chunkSize chunks).joined = (streamUnzip chunkSize archive).joined) ∧
      (chunks.flatten <+: front → chunks.flatten ≠ front →
        (streamUnzip chunkSize chunks).error = some .truncatedData ∧
          (streamUnzip chunkSize chunks).joined.members <+:
            (streamUnzip chunkSize archive).joined.members) := by
  have hok' : (unzip archive.flatten).error = none := by
    rw [← joined_streamUnzip hsize harchive]
    exact hok
  obtain ⟨front, tail, hfront, henough, hshort⟩ := unzip_front hok'
  refine ⟨front, ⟨tail, hfront.symm⟩, fun chunks hchunks => ⟨fun hmore => ?_, fun hless hne => ?_⟩⟩
  · obtain ⟨other, hother⟩ := hmore
    rw [joined_streamUnzip hsize hchunks, joined_streamUnzip hsize harchive, ← hother,
      henough other]
  · obtain ⟨q, hq⟩ := hless
    have hmissing : q ≠ [] := by
      rintro rfl
      exact hne (by simpa using hq)
    have hcut := hshort chunks.flatten q hq.symm hmissing
    rw [← joined_streamUnzip hsize hchunks, ← joined_streamUnzip hsize harchive] at hcut
    exact hcut

theorem twoFiles_truncated : ∃ archive, streamZip idle 8 twoFiles = .ok archive ∧
    ∃ front, front <+: archive.flatten ∧ ∀ chunks : List Bytes, (∀ chunk ∈ chunks, chunk ≠ []) →
      (front <+: chunks.flatten →
        (streamUnzip 16 chunks).joined = (streamUnzip 16 archive).joined) ∧
      (chunks.flatten <+: front → chunks.flatten ≠ front →
        (streamUnzip 16 chunks).error = some .truncatedData ∧
          (streamUnzip 16 chunks).joined.members <+:
            (streamUnzip 16 archive).joined.members) := by
  obtain ⟨archive, hzip⟩ := twoFiles_zip
  have hchunks := streamZip_ne_nil hzip
  have hread : (streamUnzip 16 archive).joined = unzip archive.flatten :=
    joined_streamUnzip (by decide) hchunks
  rw [(unzip_streamZip (by decide) hzip).1 ⟨by decide, by decide⟩] at hread
  have hok : (streamUnzip 16 archive).joined.error = none := by rw [hread]
  exact ⟨archive, hzip, streamUnzip_truncated (by decide) hchunks hok⟩

/-! ### Members that have been changed -/

/-- A member with other data of the same length and another CRC. -/
theorem all_changed {file : File} {head : Bytes} (hopens : Opens file head) {content : Bytes}
    (hlength : content.length = file.content.length)
    (hcrc : crc32 content 0 ≠ crc32 file.content 0) (fuel : ℕ) (rest : Bytes) :
    flat.all (fuel + 1) (localHeaderSignature ++ head ++ content ++ rest) =
      { broken := some ⟨file.nameEncoded, some file.content.length, [content]⟩,
        error := some .crc32Integrity } := by
  obtain ⟨isZip64, hopened⟩ := hopens (content ++ rest)
  have hdata : flat.data (some file.content.length) (content ++ rest) =
      ([content], .ok rest) := by
    simp [flat, ← hlength]
  have hwrong : (crc32 content (crc32 [] 0)).toNat ≠ file.crc := by
    rw [crc32_nil]
    exact fun heq => hcrc (BitVec.eq_of_toNat_eq heq)
  simp only [List.append_assoc, Source.all, fetch_signature localHeaderSignature _ rfl, if_true,
    hopened, Source.readDataAndCrc32Verify, hdata, Source.crc32Expected, Bool.false_eq_true,
    if_false, bind, Except.bind, List.foldl_cons, List.foldl_nil, if_pos hwrong]

/-- Where a member stands among the others. -/
theorem localPart_middle {compressObj : CompressObj} {chunkSize : ℕ} {before after : List File}
    {file : File} {offset : ℕ} {yielded : List Bytes} {entries : List CentralEntry}
    (h : localPart compressObj chunkSize offset (before ++ file :: after) =
      .ok (yielded, entries)) :
    ∃ yieldedBefore entriesBefore record entry offset' rest,
      localPart compressObj chunkSize offset before = .ok (yieldedBefore, entriesBefore) ∧
      localHeaderAndData compressObj chunkSize offset' file = .ok (record, entry) ∧
      yielded = yieldedBefore ++ record ++ rest := by
  induction before generalizing offset yielded entries with
  | nil =>
      obtain ⟨record, entry, more, -, hrecord, -, rfl, -⟩ := localPart_cons_ok h
      exact ⟨[], [], record, entry, offset, more, rfl, hrecord, rfl⟩
  | cons first before ih =>
      obtain ⟨yieldedFirst, entryFirst, more, entries', hfirst, hmore, rfl, -⟩ :=
        localPart_cons_ok h
      obtain ⟨yieldedBefore, entriesBefore, record, entry, offset', rest, hbefore, hrecord, rfl⟩ :=
        ih hmore
      refine ⟨yieldedFirst ++ yieldedBefore, entryFirst :: entriesBefore, record, entry, offset',
        rest, ?_, hrecord, by simp only [List.append_assoc]⟩
      rw [localPart, hfirst]
      simp only [bind, Except.bind, hbefore]
      rfl

/-- **Damage.** In an archive that `stream_zip` has written, a change within four adjacent bytes
of a member that can be read, behind others that can be read, is always found: the members
before are read as they are, and this one ends in a CRC error, whatever follows it. -/
theorem streamUnzip_changed (compressObj : CompressObj) {chunkSize chunkSize' : ℕ}
    (hsize : 0 < chunkSize) (hsize' : 0 < chunkSize') {before after : List File} {file : File}
    {archive : List Bytes}
    (hzip : streamZip compressObj chunkSize (before ++ file :: after) = .ok archive)
    (hbefore : ∀ file' ∈ before, file'.Readable) (hfile : file.Readable) :
    ∃ front rest, archive.flatten = front ++ file.content ++ rest ∧
      ∀ a u v c : Bytes, file.content = a ++ u ++ c → u.length = v.length → u.length ≤ 4 → u ≠ v →
        ∀ chunks : List Bytes, (∀ chunk ∈ chunks, chunk ≠ []) →
          front ++ (a ++ v ++ c) <+: chunks.flatten →
          (streamUnzip chunkSize' chunks).joined =
            { members := before.map File.item
              broken := some ⟨file.nameEncoded, some file.content.length, [a ++ v ++ c]⟩
              error := some .crc32Integrity } := by
  obtain ⟨locals, entries, tail, hlocals, hbytes, -, -⟩ := streamZip_layout hsize hzip
  obtain ⟨yieldedBefore, entriesBefore, record, entry, offset', rest, hpart, hrecord, rfl⟩ :=
    localPart_middle hlocals
  obtain ⟨head, hhead, hopens⟩ := readable_record hsize hrecord hfile
  refine ⟨yieldedBefore.flatten ++ (localHeaderSignature ++ head), rest.flatten ++ tail, ?_, ?_⟩
  · rw [hbytes]
    simp only [List.flatten_append, hhead, List.append_assoc]
  · intro a u v c hcontent huv hfits hne chunks hchunks hprefix
    obtain ⟨other, hother⟩ := hprefix
    have hlength : (a ++ v ++ c).length = file.content.length := by
      simp only [hcontent, List.length_append, huv]
    have hcrc : crc32 (a ++ v ++ c) 0 ≠ crc32 file.content 0 := by
      rw [hcontent]
      exact (crc32_ne_of_burst huv hfits hne 0 a c).symm
    obtain ⟨-, hcount⟩ := localPart_lengths hsize hpart
    obtain ⟨fuel, hfuel⟩ : ∃ fuel, chunks.flatten.length + 1 = before.length + (fuel + 1) := by
      refine ⟨chunks.flatten.length - before.length, ?_⟩
      have hlong := congrArg List.length hother
      simp only [List.length_append] at hlong
      omega
    rw [joined_streamUnzip hsize' hchunks, unzip, hfuel, ← hother,
      show yieldedBefore.flatten ++ (localHeaderSignature ++ head) ++ (a ++ v ++ c) ++ other =
        yieldedBefore.flatten ++ (localHeaderSignature ++ head ++ (a ++ v ++ c) ++ other) by
        simp only [List.append_assoc],
      all_localPart hsize hpart hbefore, all_changed hopens hlength hcrc]
    simp [Unzipped.joined, Item.joined, Item.content, File.item]

/-- The second byte of the first member becomes a 7. -/
theorem twoFiles_changed : ∃ archive front rest, streamZip idle 8 twoFiles = .ok archive ∧
    archive.flatten = front ++ [1, 2, 3] ++ rest ∧
    (streamUnzip 16 [front ++ [1, 7, 3] ++ rest]).joined =
      { broken := some ⟨[0x2E, 0x2F, 0x61, 0x2F, 0x78], some 3, [[1, 7, 3]]⟩
        error := some .crc32Integrity } := by
  obtain ⟨archive, hzip⟩ := twoFiles_zip
  obtain ⟨front, rest, hbytes, hchanged⟩ := @streamUnzip_changed idle 8 16 (by decide)
    (by decide) [] _ _ archive hzip (by simp) (by decide)
  refine ⟨archive, front, rest, hzip, hbytes, ?_⟩
  exact hchanged [1] [2] [7] [3] rfl rfl (by decide) (by decide) [front ++ [1, 7, 3] ++ rest]
    (by simp) ⟨rest, by simp⟩

end SecCask.Archive

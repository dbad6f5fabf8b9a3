import SecCask.Archive.StreamUnzip

/-!
# SecCask.Archive.Reading

What `stream_unzip` makes of an archive depends on its bytes, not on the chunks they come in:
reading the chunks refines reading a plain list of bytes.
-/

namespace SecCask.Archive

/-- Reading a plain list of bytes. -/
def flat : Source Bytes where
  getNum num data := if num ≤ data.length then some (data.take num, data.drop num) else none
  data numBytes data :=
    match numBytes with
    | some n =>
        if n ≤ data.length then ([data.take n], .ok (data.drop n))
        else ([data], .error .truncatedData)
    | none => ([], .error (if data = [] then .truncatedData else .typeError))

/-- A member in one chunk. -/
def Item.joined (item : Item) : Item := { item with chunks := [item.content] }

/-- What the caller gets, apart from where the chunks end. -/
def Unzipped.joined (u : Unzipped) : Unzipped :=
  { u with members := u.members.map Item.joined, broken := u.broken.map Item.joined }

/-- Two computations both end in related values, or in the same error. -/
def Both {ε α β : Type} (r : α → β → Prop) : Except ε α → Except ε β → Prop
  | .ok a, .ok b => r a b
  | .error e, .error e' => e = e'
  | _, _ => False

theorem Both.bind {ε α β α' β' : Type} {r : α → β → Prop} {r' : α' → β' → Prop}
    {x : Except ε α} {y : Except ε β} (hxy : Both r x y) {f : α → Except ε α'}
    {g : β → Except ε β'} (hfg : ∀ a b, r a b → Both r' (f a) (g b)) :
    Both r' (x >>= f) (y >>= g) := by
  rcases x with e | a <;> rcases y with e' | b
  · exact hxy
  · exact hxy.elim
  · exact hxy.elim
  · exact hfg a b hxy

/-- The same value, read up to related places. -/
def Upto {α σ τ : Type} (R : σ → τ → Prop) (p : α × σ) (q : α × τ) : Prop :=
  p.1 = q.1 ∧ R p.2 q.2

theorem Both.bindUpto {α β γ σ τ : Type} {R : σ → τ → Prop} {r : β → γ → Prop}
    {x : Except UnzipError (α × σ)} {y : Except UnzipError (α × τ)} (hxy : Both (Upto R) x y)
    {f : α × σ → Except UnzipError β} {g : α × τ → Except UnzipError γ}
    (hfg : ∀ a s t, R s t → Both r (f (a, s)) (g (a, t))) : Both r (x >>= f) (y >>= g) := by
  refine hxy.bind fun p q hpq => ?_
  obtain ⟨a, s⟩ := p
  obtain ⟨b, t⟩ := q
  obtain ⟨rfl, hst⟩ := hpq
  exact hfg a s t hst

/-- A source gives out the bytes that it is related to. -/
structure Source.Reads {σ : Type} (src : Source σ) (R : σ → Bytes → Prop) : Prop where
  fetch : ∀ num s data, R s data → Both (Upto R) (src.fetch num s) (flat.fetch num data)
  content : ∀ numBytes s data, R s data →
    (src.data numBytes s).1.flatten = (flat.data numBytes data).1.flatten
  result : ∀ numBytes s data, R s data →
    Both R (src.data numBytes s).2 (flat.data numBytes data).2

/-! ### Chunks -/

section Chunks

variable {chunkSize : ℕ}

theorem take_append_take_drop {α : Type} {k n : ℕ} (hk : k ≤ n) (l : List α) :
    l.take k ++ (l.drop k).take (n - k) = l.take n := by
  rw [← List.take_add, Nat.add_sub_cancel' hk]

/-- A round of a loop that fetches and takes a piece uses up a chunk or some bytes. -/
theorem fetched_lt {c d : Cursor UInt8} (hrefill : c.refill = some d) {k : ℕ}
    (hk : 0 < d.inChunk → 0 < k) {n : ℕ} (hkn : k ≤ n) :
    n - k + d.rest.length < n + c.rest.length := by
  obtain ⟨-, ⟨rfl, hpos⟩ | ⟨hlt, -⟩⟩ := Cursor.refill_spec hrefill
  · have := hk hpos
    omega
  · omega

theorem getNumLoop_spec (hsize : 0 < chunkSize) {fuel num : ℕ} {c : Cursor UInt8}
    (hfuel : num + c.rest.length ≤ fuel) :
    (getNumLoop chunkSize fuel num c).map (Prod.map id Cursor.remaining) =
      flat.getNum num c.remaining := by
  induction fuel generalizing num c with
  | zero =>
      obtain rfl : num = 0 := by omega
      simp [getNumLoop, flat]
  | succ fuel ih =>
      cases num with
      | zero => simp [getNumLoop, flat]
      | succ num =>
          cases hrefill : c.refill with
          | none => simp [getNumLoop, hrefill, flat, Cursor.remaining_of_refill_none hrefill]
          | some d =>
              obtain ⟨hremaining, -⟩ := Cursor.refill_spec hrefill
              simp only [getNumLoop, hrefill]
              generalize hk : min (min (num + 1) d.inChunk) chunkSize = k
              have hlength : (d.piece k).length = k := by
                rw [Cursor.length_piece]
                omega
              have hin := d.inChunk_le_remaining
              have hmeasure := fetched_lt hrefill (k := k) (n := num + 1) (by omega) (by omega)
              have hnext := @ih (num + 1 - k) (d.advance k) (by
                simp only [Cursor.advance]
                omega)
              rw [Cursor.remaining_advance, hlength, hremaining] at hnext
              have hpiece : d.piece k = c.remaining.take k := by
                rw [Cursor.piece_eq, hlength, hremaining]
              rw [hremaining] at hin
              cases hrun : getNumLoop chunkSize fuel (num + 1 - k) (d.advance k) with
              | none =>
                  simp only [hrun, flat, Option.map_none, List.length_drop] at hnext ⊢
                  split at hnext
                  · cases hnext
                  · rw [if_neg (by omega)]
              | some r =>
                  simp only [hrun, flat, Option.map_some, List.length_drop] at hnext ⊢
                  split at hnext
                  · obtain ⟨hmore, hrest⟩ := Prod.mk.inj (Option.some.inj hnext)
                    rw [if_pos (by omega)]
                    simp only [Prod.map, id] at hmore hrest ⊢
                    rw [hmore, hrest, hpiece, take_append_take_drop (by omega), List.drop_drop,
                      show k + (num + 1 - k) = num + 1 by omega]
                  · cases hnext

theorem yieldAll_spec (hsize : 0 < chunkSize) {c d : Cursor UInt8} {compressed : Bytes}
    (h : yieldAll chunkSize c = some (compressed, d)) :
    compressed = c.remaining.take compressed.length ∧
      d.remaining = c.remaining.drop compressed.length ∧
      compressed.length ≤ c.remaining.length ∧
      d.remaining.length + d.rest.length < c.remaining.length + c.rest.length ∧
      ∀ m ≤ compressed.length,
        (d.unread m).remaining = c.remaining.drop (compressed.length - m) := by
  obtain ⟨e, hrefill, heq⟩ := Option.map_eq_some_iff.mp h
  obtain ⟨rfl, rfl⟩ := Prod.mk.inj heq
  obtain ⟨hremaining, hmoved⟩ := Cursor.refill_spec hrefill
  have hlength := e.length_piece (min e.inChunk chunkSize)
  have hin := e.inChunk_le_remaining
  rw [hremaining] at hin
  refine ⟨?_, ?_, by omega, ?_, ?_⟩
  · rw [← hremaining]
    exact Cursor.piece_eq _ _
  · rw [← hremaining]
    exact Cursor.remaining_advance _ _
  · rw [Cursor.remaining_advance, hremaining, List.length_drop]
    simp only [Cursor.advance]
    rcases hmoved with ⟨rfl, hpos⟩ | ⟨hlt, -⟩ <;> omega
  · intro m hm
    rw [← hremaining]
    exact Cursor.remaining_unread hm

/-- The loop reads the bytes that are still wanted, or all there are. -/
theorem decompressLoop_spec (hsize : 0 < chunkSize) {numBytes fuel done unused : ℕ}
    {c : Cursor UInt8} (hdone : done < numBytes)
    (hfuel : c.remaining.length + c.rest.length < fuel) :
    (decompressLoop chunkSize numBytes fuel done unused c).1.flatten =
        (flat.data (some (numBytes - done)) c.remaining).1.flatten ∧
      (decompressLoop chunkSize numBytes fuel done unused c).2.map Cursor.remaining =
        (flat.data (some (numBytes - done)) c.remaining).2 := by
  induction fuel generalizing done unused c with
  | zero => omega
  | succ fuel ih =>
      cases hyield : yieldAll chunkSize c with
      | none =>
          have hempty : c.remaining = [] :=
            Cursor.remaining_of_refill_none (Option.map_eq_none_iff.mp hyield)
          have hmore : ¬ numBytes - done ≤ 0 := by omega
          simp [decompressLoop, hyield, hdone.ne, hempty, flat, hmore, Except.map]
      | some r =>
          obtain ⟨compressed, d⟩ := r
          obtain ⟨htake, hdrop, hle, hlt, hunread⟩ := yieldAll_spec hsize hyield
          simp only [decompressLoop, hyield, hdone.ne, if_false]
          by_cases hlast : numBytes - done ≤ compressed.length
          · -- the piece has all that is wanted, and what it has more goes back
            obtain ⟨fuel, rfl⟩ : ∃ n, fuel = n + 1 := ⟨fuel - 1, by omega⟩
            have hfull : done + (numBytes - done) = numBytes := by omega
            rw [Nat.min_eq_right hlast]
            simp only [decompressLoop, hfull, if_true, flat]
            rw [if_pos (by omega)]
            refine ⟨?_, ?_⟩
            · rw [List.flatten_cons, List.flatten_nil, List.append_nil, htake, List.take_take,
                Nat.min_eq_left (by omega)]
              simp
            · have hback := hunread (compressed.length - (numBytes - done)) (Nat.sub_le _ _)
              simp only [Except.map, hback]
              congr 2
              omega
          · rw [Nat.min_eq_left (by omega)]
            obtain ⟨hcontent, hresult⟩ := @ih (done + compressed.length)
              (compressed.length - compressed.length) d (by omega) (by omega)
            simp only [flat, hdrop, List.length_drop] at hcontent hresult ⊢
            have hrest : numBytes - (done + compressed.length) =
                numBytes - done - compressed.length := by omega
            by_cases henough : numBytes - done ≤ c.remaining.length
            · have henough' : numBytes - done - compressed.length ≤
                  c.remaining.length - compressed.length := by omega
              simp only [hrest, henough, henough', if_true] at hcontent hresult ⊢
              refine ⟨?_, ?_⟩
              · rw [List.flatten_cons, hcontent, List.take_length]
                simp only [List.flatten_cons, List.flatten_nil, List.append_nil]
                calc compressed ++ (c.remaining.drop compressed.length).take
                      (numBytes - done - compressed.length)
                    = c.remaining.take compressed.length ++
                      (c.remaining.drop compressed.length).take
                        (numBytes - done - compressed.length) := by rw [← htake]
                  _ = c.remaining.take (numBytes - done) :=
                      take_append_take_drop (by omega) _
              · rw [hresult, List.drop_drop]
                congr 2
                omega
            · have henough' : ¬ numBytes - done - compressed.length ≤
                  c.remaining.length - compressed.length := by omega
              simp only [hrest, henough, henough', if_false] at hcontent hresult ⊢
              refine ⟨?_, hresult⟩
              rw [List.flatten_cons, hcontent, List.take_length]
              simp only [List.flatten_cons, List.flatten_nil, List.append_nil]
              calc compressed ++ c.remaining.drop compressed.length
                  = c.remaining.take compressed.length ++
                    c.remaining.drop compressed.length := by rw [← htake]
                _ = c.remaining := List.take_append_drop _ _

/-- A cursor without empty chunks stands before these bytes. -/
def Before (c : Cursor UInt8) (data : Bytes) : Prop :=
  c.remaining = data ∧ ∀ chunk ∈ c.rest, chunk ≠ []

theorem refill_rest {c d : Cursor UInt8} (h : c.refill = some d) : d.rest ⊆ c.rest := by
  unfold Cursor.refill at h
  split at h
  · cases hrest : c.rest with
    | nil => simp [hrest] at h
    | cons chunk rest =>
        simp only [hrest, Option.some.injEq] at h
        subst h
        exact List.subset_cons_self _ _
  · obtain rfl := Option.some.inj h
    exact List.Subset.refl _

theorem getNumLoop_rest {fuel num : ℕ} {c d : Cursor UInt8} {data : Bytes}
    (h : getNumLoop chunkSize fuel num c = some (data, d)) : d.rest ⊆ c.rest := by
  induction fuel generalizing num c data with
  | zero =>
      cases num with
      | zero =>
          obtain ⟨-, rfl⟩ := Prod.mk.inj (Option.some.inj h)
          exact List.Subset.refl _
      | succ num => cases h
  | succ fuel ih =>
      cases num with
      | zero =>
          obtain ⟨-, rfl⟩ := Prod.mk.inj (Option.some.inj h)
          exact List.Subset.refl _
      | succ num =>
          cases hrefill : c.refill with
          | none => simp [getNumLoop, hrefill] at h
          | some e =>
              simp only [getNumLoop, hrefill] at h
              obtain ⟨⟨more, d'⟩, hrun, heq⟩ := Option.map_eq_some_iff.mp h
              obtain ⟨-, rfl⟩ := Prod.mk.inj heq
              intro chunk hmem
              exact refill_rest hrefill (ih hrun hmem)

theorem decompressLoop_rest {numBytes fuel done unused : ℕ} {c d : Cursor UInt8}
    (h : (decompressLoop chunkSize numBytes fuel done unused c).2 = .ok d) : d.rest ⊆ c.rest := by
  induction fuel generalizing done unused c with
  | zero => cases h
  | succ fuel ih =>
      simp only [decompressLoop] at h
      split at h
      · obtain rfl := Except.ok.inj h
        exact List.Subset.refl _
      · cases hyield : yieldAll chunkSize c with
        | none => simp [hyield] at h
        | some r =>
            simp only [hyield] at h
            obtain ⟨e, hrefill, heq⟩ := Option.map_eq_some_iff.mp hyield
            have hrest : r.2.rest = e.rest := by rw [← heq]; rfl
            intro chunk hmem
            exact refill_rest hrefill (hrest ▸ ih h hmem)

theorem yieldAll_isNone {c : Cursor UInt8} (hchunks : ∀ chunk ∈ c.rest, chunk ≠ []) :
    (yieldAll chunkSize c).isNone = true ↔ c.remaining = [] := by
  have hnone : (yieldAll chunkSize c).isNone = true ↔ c.refill = none := by
    simp [yieldAll]
  rw [hnone]
  constructor
  · exact Cursor.remaining_of_refill_none
  · intro hempty
    obtain ⟨hchunk, hrest⟩ := List.append_eq_nil_iff.mp hempty
    refine Cursor.refill_eq_none_iff.mpr ⟨?_, ?_⟩
    · have hle := c.offset_le
      have := List.drop_eq_nil_iff.mp hchunk
      omega
    · cases hc : c.rest with
      | nil => rfl
      | cons chunk rest =>
          rw [hc] at hrest
          exact absurd (List.append_eq_nil_iff.mp hrest).1 (hchunks chunk (by simp [hc]))

theorem chunked_reads (hsize : 0 < chunkSize) : (chunked chunkSize).Reads Before where
  fetch num c data h := by
    obtain ⟨rfl, hchunks⟩ := h
    have hspec := getNumLoop_spec hsize (le_refl (num + c.rest.length))
    simp only [Source.fetch, chunked, getNum]
    rw [← hspec]
    cases hrun : getNumLoop chunkSize (num + c.rest.length) num c with
    | none => rfl
    | some r => exact ⟨rfl, rfl, fun chunk hmem => hchunks chunk (getNumLoop_rest hrun hmem)⟩
  content numBytes c data h := by
    obtain ⟨rfl, -⟩ := h
    cases numBytes with
    | none => rfl
    | some n =>
        cases n with
        | zero => simp [chunked, decryptNoneDecompress, decompressLoop, flat]
        | succ n => exact (decompressLoop_spec hsize (by omega) (by omega)).1
  result numBytes c data h := by
    obtain ⟨rfl, hchunks⟩ := h
    cases numBytes with
    | none =>
        simp only [chunked, decryptNoneDecompress, flat, yieldAll_isNone hchunks]
        rfl
    | some n =>
        have hresult : ((chunked chunkSize).data (some n) c).2.map Cursor.remaining =
            (flat.data (some n) c.remaining).2 := by
          cases n with
          | zero => simp [chunked, decryptNoneDecompress, decompressLoop, flat, Except.map,
              Cursor.unread]
          | succ n => exact (decompressLoop_spec hsize (by omega) (by omega)).2
        rw [← hresult]
        cases hrun : ((chunked chunkSize).data (some n) c).2 with
        | error e => rfl
        | ok d => exact ⟨rfl, fun chunk hmem => hchunks chunk (decompressLoop_rest hrun hmem)⟩

end Chunks

/-! ### Sources -/

section Sources

variable {σ : Type} {src : Source σ} {R : σ → Bytes → Prop}

theorem Source.Reads.yieldFile (hsrc : src.Reads R) {s : σ} {data : Bytes} (h : R s data) :
    Both (Upto R) (src.yieldFile s) (flat.yieldFile data) := by
  unfold Source.yieldFile
  refine (hsrc.fetch 26 s data h).bindUpto fun raw s data h => ?_
  dsimp only
  split
  · exact rfl
  refine (hsrc.fetch _ s data h).bindUpto fun fileName s data h => ?_
  refine (hsrc.fetch _ s data h).bindUpto fun extra s data h => ?_
  dsimp only
  cases (LocalHeader.unpack raw).opened fileName extra with
  | error e => exact rfl
  | ok opened => exact ⟨rfl, h⟩

theorem Source.Reads.crc32Expected (hsrc : src.Reads R) (opened : Opened) {s : σ} {data : Bytes}
    (h : R s data) :
    Both (Upto R) (src.crc32Expected opened s) (flat.crc32Expected opened data) := by
  unfold Source.crc32Expected
  split
  · unfold Source.crc32FromDataDescriptor
    refine (hsrc.fetch 4 s data h).bindUpto fun signature s data h => ?_
    refine (hsrc.fetch _ s data h).bindUpto fun remaining s data h => ?_
    exact ⟨rfl, h⟩
  · exact ⟨rfl, h⟩

theorem crc32_foldl (chunks : List Bytes) (value : BitVec 32) :
    chunks.foldl (fun crc chunk => crc32 chunk crc) value = crc32 chunks.flatten value := by
  induction chunks generalizing value with
  | nil => simp [crc32_nil]
  | cons chunk chunks ih => rw [List.foldl_cons, ih, List.flatten_cons, crc32_append]

theorem Source.Reads.readDataAndCrc32Verify (hsrc : src.Reads R) (opened : Opened) {s : σ}
    {data : Bytes} (h : R s data) :
    (src.readDataAndCrc32Verify opened s).1.flatten =
        (flat.readDataAndCrc32Verify opened data).1.flatten ∧
      Both R (src.readDataAndCrc32Verify opened s).2
        (flat.readDataAndCrc32Verify opened data).2 := by
  have hcontent := hsrc.content opened.uncompressedSize s data h
  simp only [Source.readDataAndCrc32Verify, crc32_foldl, hcontent]
  refine ⟨trivial, (hsrc.result _ s data h).bind fun s data h => ?_⟩
  refine (hsrc.crc32Expected opened h).bindUpto fun expected s data h => ?_
  dsimp only
  split
  · exact rfl
  · exact h

/-- The same members, the same broken member and the same error. -/
theorem Source.Reads.all (hsrc : src.Reads R) (fuel : ℕ) {s : σ} {data : Bytes} (h : R s data) :
    (src.all fuel s).joined = (flat.all fuel data).joined := by
  induction fuel generalizing s data with
  | zero => rfl
  | succ fuel ih =>
      have hsignature := hsrc.fetch 4 s data h
      unfold Source.all
      rcases hs : src.fetch 4 s with e | ⟨signature, s⟩ <;>
        rcases ht : flat.fetch 4 data with e' | ⟨signature', data⟩ <;>
        rw [hs, ht] at hsignature
      · obtain rfl : e = e' := hsignature
        rfl
      · exact hsignature.elim
      · exact hsignature.elim
      obtain ⟨rfl, h⟩ := hsignature
      dsimp only
      split
      · have hfile := hsrc.yieldFile h
        rcases hs : src.yieldFile s with e | ⟨opened, s⟩ <;>
          rcases ht : flat.yieldFile data with e' | ⟨opened', data⟩ <;>
          rw [hs, ht] at hfile
        · obtain rfl : e = e' := hfile
          rfl
        · exact hfile.elim
        · exact hfile.elim
        obtain ⟨rfl, h⟩ := hfile
        obtain ⟨hcontent, hresult⟩ := hsrc.readDataAndCrc32Verify opened h
        rcases hs : src.readDataAndCrc32Verify opened s with ⟨chunks, e | s⟩ <;>
          rcases ht : flat.readDataAndCrc32Verify opened data with ⟨chunks', e' | data⟩ <;>
          simp only [hs, ht] at hcontent hresult ⊢
        · obtain rfl : e = e' := hresult
          simp only [Unzipped.joined, Item.joined, Item.content, List.map_nil, Option.map_some,
            hcontent]
        · exact hresult.elim
        · exact hresult.elim
        · have hlater := ih hresult
          simp only [Unzipped.joined, Unzipped.mk.injEq, List.map_cons] at hlater ⊢
          refine ⟨?_, hlater.2⟩
          rw [hlater.1]
          simp only [Item.joined, Item.content, hcontent]
      · split
        · rfl
        · rfl

end Sources

/-- What the bytes of an archive amount to. -/
def unzip (archive : Bytes) : Unzipped := (flat.all (archive.length + 1) archive).joined

theorem joined_streamUnzip {chunkSize : ℕ} (hsize : 0 < chunkSize) {zipfileChunks : List Bytes}
    (hchunks : ∀ chunk ∈ zipfileChunks, chunk ≠ []) :
    (streamUnzip chunkSize zipfileChunks).joined = unzip zipfileChunks.flatten :=
  (chunked_reads hsize).all _ ⟨Cursor.remaining_start _, hchunks⟩

/-- **Chunks.** The members, their contents and the error that `stream_unzip` ends in depend
neither on how the archive is cut into nonempty chunks nor on the size of its own pieces. -/
theorem streamUnzip_chunks {chunkSize chunkSize' : ℕ} (hsize : 0 < chunkSize)
    (hsize' : 0 < chunkSize') {chunks chunks' : List Bytes} (hchunks : ∀ chunk ∈ chunks, chunk ≠ [])
    (hchunks' : ∀ chunk ∈ chunks', chunk ≠ []) (hsame : chunks.flatten = chunks'.flatten) :
    (streamUnzip chunkSize chunks).joined = (streamUnzip chunkSize' chunks').joined := by
  rw [joined_streamUnzip hsize hchunks, joined_streamUnzip hsize' hchunks', hsame]

end SecCask.Archive

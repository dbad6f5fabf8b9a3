import Mathlib.Data.List.Infix
import SecCask.Lib.Perl
import SecCask.Lib.Separator
import SecCask.Net.Message

/-!
# SecCask.Net.MessageParse

The receiving half of the wire format: `Message::MakeFromString` (`message.cc`) and the loop
of `MessageHandler::DoRead` (`msg_handler.cc`), with the round trip from `Message::ToString`
and the frames that `DoWrite` sends.
-/

namespace SecCask.Net

namespace Message

/-! ### `MakeFromString` -/

/-- The captures of `^(.+)\r\n(.+)\r\n(.*)$`. A match that starts further behind, on a later
line, is never the leftmost: what lies before it fits into the first `.+`. -/
def kRegexPattern (value : CxxString) : Option (CxxString × CxxString × CxxString) :=
  Perl.dotPlus (Perl.literal (lit "\r\n")
    (Perl.dotPlus (Perl.literal (lit "\r\n") Perl.dotStarEnd))) value

/-- The last part of `MakeFromString`: `boost::split` with `boost::is_any_of(kDelimiter)`,
unless there is nothing to split. -/
def splitArgs (parsedArgsStr : CxxString) : List CxxString :=
  if parsedArgsStr.length = 0 then []
  else parsedArgsStr.splitOnP fun c => kDelimiter.contains c

/-- `Message::MakeFromString` -/
def makeFromString (value : CxxString) : Option Message :=
  (kRegexPattern value).map fun (parsedId, parsedCmd, parsedArgsStr) =>
    { senderId := parsedId, cmd := parsedCmd, args := splitArgs parsedArgsStr }

/-- A message whose frame is cut out and matches. The sender id may hold line breaks: the first
`.+` takes them. -/
structure Framed (m : Message) : Prop where
  senderId_ne_nil : m.senderId ≠ []
  cmd_ne_nil : m.cmd ≠ []
  cmd_free : ¬ lit "\r\n" <:+: m.cmd
  short : m.toString.length < UInt32.size

/-- The arguments that survive joining and splitting. -/
structure Safe (m : Message) : Prop where
  free : ∀ a ∈ m.args, ¬ kDelimiter <:+: a ∧ ¬ lit "\r\n" <:+: a
  notOneEmpty : m.args ≠ [[]]

end Message

/-! ### `DoRead` -/

/-- `async_read` with `transfer_exactly(n)`: it waits until `n` bytes are there. -/
def readExactly (n : ℕ) (stream : CxxString) : Option (CxxString × CxxString) :=
  if n ≤ stream.length then some (stream.splitAt n) else none

theorem readExactly_eq_some_iff {n : ℕ} {stream a rest : CxxString} :
    readExactly n stream = some (a, rest) ↔ a.length = n ∧ stream = a ++ rest := by
  rw [readExactly, Option.ite_none_right_eq_some, Option.some.injEq, List.splitAt_eq]
  constructor
  · intro ⟨hn, heq⟩
    obtain ⟨rfl, rfl⟩ := Prod.mk.inj heq
    exact ⟨List.length_take_of_le hn, (List.take_append_drop n stream).symm⟩
  · intro ⟨hn, heq⟩
    subst hn heq
    simp

/-- The loop of `DoRead` over all bytes that the peer sends: the text of each frame, with the
message that is handed to the callback. A text that does not parse ends the loop. -/
def doRead (stream : CxxString) : List (CxxString × Option Message) :=
  match _hlen : readExactly 4 stream with
  | none => []
  | some (readLen, rest) =>
      match _hmsg : readExactly (swapEndian (ofLeBytes readLen)).toNat rest with
      | none => []
      | some (msgStr, rest') =>
          match Message.makeFromString msgStr with
          | none => [(msgStr, none)]
          | some m => (msgStr, some m) :: doRead rest'
  termination_by stream.length
  decreasing_by
    obtain ⟨hfour, rfl⟩ := readExactly_eq_some_iff.mp _hlen
    obtain ⟨-, rfl⟩ := readExactly_eq_some_iff.mp _hmsg
    simp only [List.length_append]
    omega

theorem doRead_nil : doRead [] = [] := by
  rw [doRead]
  rfl

/-- One round of the loop. -/
theorem doRead_append {readLen msgStr rest : CxxString} {m : Message}
    (hfour : readLen.length = 4)
    (hlen : (swapEndian (ofLeBytes readLen)).toNat = msgStr.length)
    (hmsg : Message.makeFromString msgStr = some m) :
    doRead (readLen ++ (msgStr ++ rest)) = (msgStr, some m) :: doRead rest := by
  have hfirst : readExactly 4 (readLen ++ (msgStr ++ rest)) = some (readLen, msgStr ++ rest) :=
    readExactly_eq_some_iff.mpr ⟨hfour, rfl⟩
  have hsecond : readExactly (swapEndian (ofLeBytes readLen)).toNat (msgStr ++ rest) =
      some (msgStr, rest) :=
    readExactly_eq_some_iff.mpr ⟨hlen.symm, rfl⟩
  rw [doRead]
  split
  · rename_i hnone
    cases hfirst.symm.trans hnone
  · rename_i hsome
    cases hfirst.symm.trans hsome
    split
    · rename_i hnone
      cases hsecond.symm.trans hnone
    · rename_i hsome
      cases hsecond.symm.trans hsome
      rw [hmsg]

namespace Message

/-! ### What the pattern captures -/

theorem lit_crlf : lit "\r\n" = [0x0D, 0x0A] := by decide

theorem kDelimiter_eq : kDelimiter = [0x25] := by decide

theorem toString_eq (m : Message) :
    m.toString = m.senderId ++ (lit "\r\n" ++ (m.cmd ++ (lit "\r\n" ++
      List.intercalate kDelimiter m.args))) := by
  simp [toString, List.append_assoc]

/-- The length bytes read back as what a `uint32_t` keeps of the length. -/
theorem swapEndian_lengthBytes_mod (m : Message) :
    (swapEndian (ofLeBytes m.lengthBytes)).toNat = m.toString.length % UInt32.size := by
  have hbytes : m.lengthBytes.reverse = leBytes (UInt32.ofNat m.toString.length) :=
    List.reverse_reverse _
  have hword : swapEndian (ofLeBytes m.lengthBytes) = UInt32.ofNat m.toString.length := by
    have hle : leBytes (ofLeBytes m.lengthBytes) = m.lengthBytes := leBytes_ofLeBytes _ _ _ _
    rw [swapEndian, hle, hbytes, ofLeBytes_leBytes]
  rw [hword, UInt32.toNat_ofNat']

theorem swapEndian_lengthBytes {m : Message} (h : m.toString.length < UInt32.size) :
    (swapEndian (ofLeBytes m.lengthBytes)).toNat = m.toString.length := by
  rw [swapEndian_lengthBytes_mod, Nat.mod_eq_of_lt h]

/-- Every text with two separated nonempty parts matches. -/
theorem makeFromString_ne_none {m : Message} (h : m.Framed) :
    makeFromString m.toString ≠ none := by
  rw [makeFromString, ne_eq, Option.map_eq_none_iff, toString_eq]
  refine Perl.dotPlus_ne_none h.senderId_ne_nil ?_
  rw [Perl.literal_append]
  refine Perl.dotPlus_ne_none h.cmd_ne_nil ?_
  rw [Perl.literal_append]
  exact Option.some_ne_none _

/-- The last capture holds no line break: the second `.+` would have taken it. -/
theorem free_of_kRegexPattern {value parsedId parsedCmd parsedArgsStr : CxxString}
    (h : kRegexPattern value = some (parsedId, parsedCmd, parsedArgsStr)) :
    ¬ lit "\r\n" <:+: parsedArgsStr := by
  obtain ⟨_, -, -, hfirst, -⟩ := Perl.exists_of_dotPlus h
  obtain ⟨_, -, hrest⟩ := Perl.exists_of_literal hfirst
  obtain ⟨r, -, -, hsecond, hlonger⟩ := Perl.exists_of_dotPlus hrest
  obtain ⟨t, hr, ht⟩ := Perl.exists_of_literal hsecond
  obtain rfl : t = parsedArgsStr := Option.some.inj ht
  intro ⟨before, behind, hbreak⟩
  have hnone := hlonger ((lit "\r\n").length + before.length)
    (by rw [lit_crlf, List.length_cons]; omega)
    (by rw [hr, ← hbreak]; simp only [List.length_append]; omega)
  rw [hr, ← List.drop_drop, List.drop_left, ← hbreak, List.append_assoc, List.drop_left,
    Perl.literal_append] at hnone
  cases hnone

/-- When the arguments hold no line break, the captures are the parts of the message. -/
theorem kRegexPattern_toString {senderId cmd args : CxxString} (hid : senderId ≠ [])
    (hcmd : cmd ≠ []) (hcmdFree : ¬ lit "\r\n" <:+: cmd) (hargs : ¬ lit "\r\n" <:+: args) :
    kRegexPattern (senderId ++ (lit "\r\n" ++ (cmd ++ (lit "\r\n" ++ args)))) =
      some (senderId, cmd, args) := by
  unfold kRegexPattern
  rw [lit_crlf] at *
  -- Behind the sender, a line break that has another one further on is the first separator.
  have hcmdArgs : Perl.dotPlus (Perl.literal [0x0D, 0x0A] Perl.dotStarEnd)
      (cmd ++ ([0x0D, 0x0A] ++ args)) = some (cmd, args) := by
    refine Perl.dotPlus_eq_some hcmd Perl.literal_append fun k hk => Perl.literal_eq_none ?_
    intro hprefix
    have hlen := eq_length_of_pair_prefix_drop (a := []) (by decide) (by simp) hargs hprefix
    simp at hlen
    omega
  refine Perl.dotPlus_eq_some hid (Perl.literal_append.trans hcmdArgs) fun k hk => ?_
  refine Option.eq_none_iff_forall_ne_some.mpr fun captured hsome => ?_
  obtain ⟨t, ht, hrest⟩ := Perl.exists_of_literal hsome
  obtain ⟨k, rfl⟩ := Nat.exists_eq_add_of_lt hk
  rw [Nat.zero_add] at ht
  cases k with
  | zero => simp at ht
  | succ k =>
      have hlen := eq_length_of_pair_prefix_drop (show (0x0D : UInt8) ≠ 0x0A by decide) hcmdFree
        hargs ⟨t, ht.symm⟩
      obtain rfl : t = args := by
        subst hlen
        simpa using ht.symm
      obtain ⟨r, rfl, -, hr, -⟩ := Perl.exists_of_dotPlus hrest
      obtain ⟨r, rfl, -⟩ := Perl.exists_of_literal hr
      exact hargs (List.infix_append' _ _ _)

/-! ### Joining and splitting the arguments -/

theorem splitArgs_eq (parsedArgsStr : CxxString) :
    splitArgs parsedArgsStr = if parsedArgsStr = [] then [] else parsedArgsStr.splitOn 0x25 := by
  have hdelimiter : (fun c => kDelimiter.contains c) = fun c => c == 0x25 := by
    funext c
    rw [kDelimiter_eq, List.contains_cons, List.contains_nil, Bool.or_false]
  simp only [splitArgs, hdelimiter, List.length_eq_zero_iff]
  rfl

/-- Whatever is split, the parts are safe. -/
theorem safe_of_splitArgs {m : Message} {parsedArgsStr : CxxString}
    (h : m.args = splitArgs parsedArgsStr) (hfree : ¬ lit "\r\n" <:+: parsedArgsStr) :
    m.Safe := by
  rw [splitArgs_eq] at h
  split at h
  · exact ⟨by simp [h], by simp [h]⟩
  · rename_i hne
    refine ⟨fun a ha => ?_, fun hone => ?_⟩
    · rw [h] at ha
      refine ⟨?_, fun hbreak => hfree (hbreak.trans ?_)⟩
      · rw [kDelimiter_eq, List.singleton_infix_iff]
        exact notMem_of_mem_splitOn ha
      · rw [← show List.intercalate [0x25] (parsedArgsStr.splitOn 0x25) = parsedArgsStr from
          List.intercalate_splitOn _]
        exact infix_intercalate_of_mem ha
    · rw [h] at hone
      have hjoin : List.intercalate [0x25] (parsedArgsStr.splitOn 0x25) = parsedArgsStr :=
        List.intercalate_splitOn _
      rw [hone] at hjoin
      exact hne hjoin.symm

/-- Safe arguments are split as they were joined. -/
theorem splitArgs_intercalate {m : Message} (h : m.Safe) :
    splitArgs (List.intercalate kDelimiter m.args) = m.args := by
  rw [splitArgs_eq, kDelimiter_eq]
  have hfree : ∀ a ∈ m.args, (0x25 : UInt8) ∉ a := by
    intro a ha hmem
    have hnot := (h.free a ha).1
    rw [kDelimiter_eq, List.singleton_infix_iff] at hnot
    exact hnot hmem
  split
  · rename_i hnil
    by_contra hne
    -- Only the list of one empty argument is joined to the empty text without being empty.
    have hsplit := List.splitOn_intercalate (0x25 : UInt8) hfree (Ne.symm hne)
    rw [hnil] at hsplit
    exact h.notOneEmpty (hsplit.symm.trans rfl)
  · rename_i hne
    exact List.splitOn_intercalate (0x25 : UInt8) hfree fun hnil => hne (by rw [hnil]; rfl)

/-- Safe arguments are joined without a line break. -/
theorem free_intercalate {m : Message} (h : m.Safe) :
    ¬ lit "\r\n" <:+: List.intercalate kDelimiter m.args := by
  intro hbreak
  rw [kDelimiter_eq] at hbreak
  obtain ⟨a, ha, hbreak⟩ := infix_intercalate (by decide) (by decide) hbreak
  exact (h.free a ha).2 hbreak

/-! ### The round trip -/

/-- When the joined arguments hold no line break, they are what is split. -/
theorem makeFromString_toString_of_free {m : Message} (hid : m.senderId ≠ []) (hcmd : m.cmd ≠ [])
    (hcmdFree : ¬ lit "\r\n" <:+: m.cmd)
    (hargs : ¬ lit "\r\n" <:+: List.intercalate kDelimiter m.args) :
    makeFromString m.toString =
      some { m with args := splitArgs (List.intercalate kDelimiter m.args) } := by
  rw [makeFromString, toString_eq, kRegexPattern_toString hid hcmd hcmdFree hargs, Option.map_some]

/-- The arguments of a message that parses are split at every delimiter, and hold no line
break. -/
theorem safe_of_makeFromString {value : CxxString} {m : Message}
    (h : makeFromString value = some m) : m.Safe := by
  obtain ⟨⟨parsedId, parsedCmd, parsedArgsStr⟩, hcaptures, hm⟩ := Option.map_eq_some_iff.mp h
  exact safe_of_splitArgs (congrArg Message.args hm).symm (free_of_kRegexPattern hcaptures)

theorem makeFromString_toString_iff {m : Message} (h : m.Framed) :
    makeFromString m.toString = some m ↔ m.Safe := by
  constructor
  · exact safe_of_makeFromString
  · intro hsafe
    rw [makeFromString_toString_of_free h.senderId_ne_nil h.cmd_ne_nil h.cmd_free
      (free_intercalate hsafe), splitArgs_intercalate hsafe]

end Message

/-- One message comes out of its frame whole exactly when its length fits into the header and
its text matches. -/
theorem doRead_frame_eq_iff {m m' : Message} :
    doRead m.frame = [(m.toString, some m')] ↔
      m.toString.length < UInt32.size ∧ Message.makeFromString m.toString = some m' := by
  constructor
  · intro h
    have hfirst : readExactly 4 m.frame = some (m.lengthBytes, m.toString) :=
      readExactly_eq_some_iff.mpr ⟨rfl, rfl⟩
    obtain ⟨n, hn⟩ : ∃ n, m.toString.length % UInt32.size = n := ⟨_, rfl⟩
    have hsecond : readExactly n m.toString = some (m.toString.take n, m.toString.drop n) := by
      refine readExactly_eq_some_iff.mpr ⟨List.length_take_of_le ?_, ?_⟩
      · exact hn ▸ Nat.mod_le _ _
      · exact (List.take_append_drop n m.toString).symm
    -- What is read is as long as the header says, which a long text is not.
    have htext : m.toString.take n = m.toString ∧ Message.makeFromString m.toString = some m' := by
      rw [doRead] at h
      split at h
      · rename_i hnone
        cases hfirst.symm.trans hnone
      · rename_i hsome
        cases hfirst.symm.trans hsome
        rw [Message.swapEndian_lengthBytes_mod, hn] at h
        split at h
        · cases h
        · rename_i hread
          cases hsecond.symm.trans hread
          split at h
          · cases (Prod.mk.inj (List.cons.inj h).1).2
          · rename_i hparse
            obtain ⟨htake, hm⟩ := Prod.mk.inj (List.cons.inj h).1
            cases Option.some.inj hm
            rw [htake] at hparse
            exact ⟨htake, hparse⟩
    refine ⟨?_, htext.2⟩
    have hlen : n = m.toString.length := by
      have hle : n ≤ m.toString.length := hn ▸ Nat.mod_le _ _
      rw [← htext.1, List.length_take_of_le hle]
    rw [← hlen, ← hn]
    exact Nat.mod_lt _ (by decide)
  · intro ⟨hshort, hparse⟩
    have hround : doRead (m.lengthBytes ++ (m.toString ++ [])) =
        (m.toString, some m') :: doRead [] :=
      doRead_append m.lengthBytes_length (Message.swapEndian_lengthBytes hshort) hparse
    rw [List.append_nil, doRead_nil] at hround
    exact hround

theorem doRead_frames {ms : List Message} (hms : ∀ m ∈ ms, m.Framed) :
    doRead (frames ms) = ms.map fun m => (m.toString, Message.makeFromString m.toString) := by
  induction ms with
  | nil => exact doRead_nil
  | cons m ms ih =>
      have hm := hms m (by simp)
      obtain ⟨m', hm'⟩ := Option.ne_none_iff_exists'.mp (Message.makeFromString_ne_none hm)
      rw [frames, List.flatMap_cons, Message.frame, List.append_assoc,
        doRead_append m.lengthBytes_length (Message.swapEndian_lengthBytes hm.short) hm',
        List.map_cons, hm']
      exact congrArg _ (ih fun m hm => hms m (by simp [hm]))

/-- **Round trip.** The stream of the frames is cut into one text per message, and each text
parses to its message exactly when the arguments are safe. -/
theorem doRead_frames_roundTrip {ms : List Message} (hms : ∀ m ∈ ms, m.Framed) :
    doRead (frames ms) = ms.map (fun m => (m.toString, Message.makeFromString m.toString)) ∧
      ∀ m ∈ ms, Message.makeFromString m.toString = some m ↔ m.Safe :=
  ⟨doRead_frames hms, fun m hm => Message.makeFromString_toString_iff (hms m hm)⟩

/-- A message without arguments and one whose last argument is empty. -/
def readyThenDone : List Message :=
  [⟨lit "w0", lit "ready", []⟩, ⟨lit "w0", lit "done", [lit "sklearn", lit ""]⟩]

theorem readyThenDone_roundTrip :
    doRead (frames readyThenDone) = readyThenDone.map
        (fun m => (m.toString, Message.makeFromString m.toString)) ∧
      ∀ m ∈ readyThenDone, Message.makeFromString m.toString = some m ↔ m.Safe := by
  refine doRead_frames_roundTrip fun m hm => ?_
  rcases List.mem_pair.mp hm with rfl | rfl
  · exact ⟨by decide, by decide, by decide, by decide⟩
  · exact ⟨by decide, by decide, by decide, by decide⟩

end SecCask.Net

import SecCask.Net.MessageParse
import SecCask.Worker.Execute

/-!
# SecCask.Pipeman.Delivery

The way of a command from `_build_venvs` to the call of the component: the parameters are
joined by blanks and split at white space, the arguments of the message are joined by `%` and
split there, and the worker looks for the two folders behind the last `--input` and the last
`--output`. A command survives this way exactly when none of its parts is cut and no part looks
like one of the two flags.
-/

namespace SecCask.Pipeman

open Net PosixPath Utf8 Worker

/-- `s.split()` -/
def splitSpace (s : String) : List String :=
  ((s.toList.splitOnP Regex.isSpace).filter (· ≠ [])).map String.ofList

/-- `lib_param` as `_build_venvs` completes it. -/
def completeParams (trainParams : OrderedDict String String)
    (inputPath outputPath tempPath : String) : OrderedDict String String :=
  ((trainParams.set "--input" inputPath).set "--output" outputPath).set "--vis" tempPath

/-- `cmd`: the script with all parameters behind it. -/
def commandLine (trainScript : String) (params : OrderedDict String String) : String :=
  params.entries.foldl (fun cmd e => cmd ++ " " ++ e.1 ++ " " ++ e.2) trainScript

/-- What `on_new_component` is called with. -/
def componentInfo (id wd key cmd : String) : List String :=
  id :: wd :: key :: "python" :: splitSpace cmd

/-- The message of `Coordinator::OnNewComponent`. -/
def executeMessage (info : List String) : Message :=
  ⟨lit "Coordinator", lit "execute", info.map lit⟩

/-- The worker reads the message whole from its frame, and executes this. -/
def Delivered (workerId : CxxString) (cwd : List (List Char)) (info : List String)
    (execution : Execution) : Prop :=
  ∃ msg, doRead (executeMessage info).frame = [((executeMessage info).toString, some msg)] ∧
    doActionFromMsg workerId cwd msg = .execute (.ok execution)

/-- The execution that is meant: the train script is looked for in the working directory. -/
def intended (cwd : List (List Char)) (id wd key trainScript inputPath outputPath : String) :
    Execution where
  componentId := id
  workingDirectory := wd
  encfsKey := if key = "NULL" then none else some (lit key)
  start := ⟨abspath (abspath cwd wd.toList) trainScript.toList, inputPath, outputPath⟩

/-! ### The condition -/

/-- A text that is not cut on its way. -/
structure Uncut (s : String) : Prop where
  percent : '%' ∉ s.toList
  lineBreak : ¬ ['\r', '\n'] <:+: s.toList

/-- A text cut at white space and at `%`. -/
def pieces (s : String) : List String := (splitSpace s).flatMap (cut '%')

/-- The pieces of the script, and of each key and each value. -/
def commandPieces (trainScript : String) (params : OrderedDict String String) : List String :=
  pieces trainScript ++ params.entries.flatMap fun e => pieces e.1 ++ pieces e.2

/-- The parts of a command do not disturb each other. -/
structure Survives (cwd : List (List Char)) (id wd key trainScript : String)
    (params : OrderedDict String String) (inputPath outputPath : String) : Prop where
  id_uncut : Uncut id
  wd_uncut : Uncut wd
  key_uncut : Uncut key
  /-- The first piece leads to the script, from within the working directory. -/
  script : ∃ name, (commandPieces trainScript params).head? = some name ∧
    abspath (abspath cwd wd.toList) (join wd.toList name.toList) =
      abspath (abspath cwd wd.toList) trainScript.toList
  input : LastFlag "--input" inputPath (commandPieces trainScript params)
  output : LastFlag "--output" outputPath (commandPieces trainScript params)
  /-- The length fits into the header of the frame. -/
  short : (executeMessage (componentInfo id wd key
    (commandLine trainScript params))).toString.length < UInt32.size

instance (s : String) : Decidable (Uncut s) :=
  decidable_of_iff ('%' ∉ s.toList ∧ ¬ ['\r', '\n'] <:+: s.toList)
    ⟨fun h => ⟨h.1, h.2⟩, fun h => ⟨h.percent, h.lineBreak⟩⟩

/-- The condition can be computed. -/
instance (cwd : List (List Char)) (id wd key trainScript : String)
    (params : OrderedDict String String) (inputPath outputPath : String) :
    Decidable (Survives cwd id wd key trainScript params inputPath outputPath) :=
  decidable_of_iff ((Uncut id ∧ Uncut wd ∧ Uncut key) ∧
      (∃ name ∈ (commandPieces trainScript params).head?,
        abspath (abspath cwd wd.toList) (join wd.toList name.toList) =
          abspath (abspath cwd wd.toList) trainScript.toList) ∧
      (LastFlag "--input" inputPath (commandPieces trainScript params) ∧
        LastFlag "--output" outputPath (commandPieces trainScript params)) ∧
      (executeMessage (componentInfo id wd key
        (commandLine trainScript params))).toString.length < UInt32.size)
    ⟨fun h => ⟨h.1.1, h.1.2.1, h.1.2.2, h.2.1, h.2.2.1.1, h.2.2.1.2, h.2.2.2⟩,
      fun h => ⟨⟨h.id_uncut, h.wd_uncut, h.key_uncut⟩, h.script, ⟨h.input, h.output⟩, h.short⟩⟩

/-! ### White space -/

theorem splitSpace_append (a b : String) :
    splitSpace (a ++ " " ++ b) = splitSpace a ++ splitSpace b := by
  have hspace : Regex.isSpace ' ' = true := by decide
  rw [splitSpace, String.toList_append, String.toList_append, List.append_assoc,
    show " ".toList ++ b.toList = ' ' :: b.toList from rfl, List.splitOnP_append_cons _ _ hspace,
    List.filter_append, List.map_append]
  rfl

theorem notSpace_of_mem_splitSpace {s word : String} (h : word ∈ splitSpace s) :
    ∀ c ∈ word.toList, Regex.isSpace c = false := by
  obtain ⟨l, hl, rfl⟩ := List.mem_map.mp h
  rw [String.toList_ofList]
  exact not_of_mem_splitOnP (List.mem_of_mem_filter hl)

theorem splitSpace_commandLine (trainScript : String) (params : OrderedDict String String) :
    splitSpace (commandLine trainScript params) =
      splitSpace trainScript ++
        params.entries.flatMap fun e => splitSpace e.1 ++ splitSpace e.2 := by
  have hfold : ∀ (l : List (Sigma fun _ : String => String)) (cmd : String),
      splitSpace (l.foldl (fun cmd e => cmd ++ " " ++ e.1 ++ " " ++ e.2) cmd) =
        splitSpace cmd ++ l.flatMap fun e => splitSpace e.1 ++ splitSpace e.2 := by
    intro l
    induction l with
    | nil => simp
    | cons e l ih =>
        intro cmd
        rw [List.foldl_cons, ih, splitSpace_append, splitSpace_append, List.flatMap_cons]
        simp only [List.append_assoc]
  exact hfold params.entries trainScript

theorem flatMap_cut_splitSpace_commandLine (trainScript : String)
    (params : OrderedDict String String) :
    (splitSpace (commandLine trainScript params)).flatMap (cut '%') =
      commandPieces trainScript params := by
  rw [splitSpace_commandLine, List.flatMap_append, List.flatMap_assoc]
  simp only [List.flatMap_append]
  rfl

/-! ### The wire -/

theorem lit_injective : Function.Injective lit := encode_injective

theorem uncut_iff {s : String} :
    Uncut s ↔ ¬ Message.kDelimiter <:+: lit s ∧ ¬ lit "\r\n" <:+: lit s := by
  have hpercent : Message.kDelimiter <:+: lit s ↔ '%' ∈ s.toList := by
    rw [Message.kDelimiter_eq, List.singleton_infix_iff]
    exact mem_encode_iff (c := '%') (by decide)
  have hbreak : lit "\r\n" <:+: lit s ↔ ['\r', '\n'] <:+: s.toList := by
    rw [Message.lit_crlf]
    exact pair_infix_encode_iff (c := '\r') (d := '\n') (by decide) (by decide)
  rw [hpercent, hbreak]
  exact ⟨fun h => ⟨h.percent, h.lineBreak⟩, fun h => ⟨h.1, h.2⟩⟩

theorem splitOn_lit (s : String) : (lit s).splitOn 0x25 = (cut '%' s).map lit :=
  splitOn_encode (c := '%') (by decide) s

theorem free_of_uncut {s : String} (h : Uncut s) : ¬ lit "\r\n" <:+: lit s := (uncut_iff.mp h).2

/-- White space holds every line break. -/
theorem free_of_mem_splitSpace {s word : String} (h : word ∈ splitSpace s) :
    ¬ lit "\r\n" <:+: lit word := by
  have hnot : ¬ ['\r', '\n'] <:+: word.toList := by
    intro hbreak
    have hreturn := notSpace_of_mem_splitSpace h '\r' (hbreak.subset List.mem_cons_self)
    exact absurd hreturn (by decide)
  rw [Message.lit_crlf]
  exact fun hbreak => hnot ((pair_infix_encode_iff (c := '\r') (d := '\n') (by decide)
    (by decide)).mp hbreak)

/-- What arrives of the arguments when no line break is sent. -/
theorem makeFromString_executeMessage {info : List String}
    (hjoined : List.intercalate Message.kDelimiter (info.map lit) ≠ [])
    (hfree : ∀ s ∈ info, ¬ lit "\r\n" <:+: lit s) :
    Message.makeFromString (executeMessage info).toString =
      some (executeMessage (info.flatMap (cut '%'))) := by
  have hne : info.map lit ≠ [] := by
    intro hnil
    exact hjoined (by rw [hnil]; rfl)
  have hargs : ¬ lit "\r\n" <:+: List.intercalate Message.kDelimiter (info.map lit) := by
    intro hbreak
    rw [Message.kDelimiter_eq] at hbreak
    obtain ⟨a, ha, hbreak⟩ := infix_intercalate (by decide) (by decide) hbreak
    obtain ⟨s, hs, rfl⟩ := List.mem_map.mp ha
    exact hfree s hs hbreak
  rw [Message.makeFromString_toString_of_free (show lit "Coordinator" ≠ [] by decide)
    (show lit "execute" ≠ [] by decide) (show ¬ lit "\r\n" <:+: lit "execute" by decide) hargs]
  have hsplit : Message.splitArgs (List.intercalate Message.kDelimiter (info.map lit)) =
      (info.flatMap (cut '%')).map lit := by
    rw [Message.splitArgs_eq, if_neg hjoined, Message.kDelimiter_eq,
      splitOn_intercalate_eq_flatMap hne, List.flatMap_map, List.map_flatMap]
    simp only [splitOn_lit]
  rw [show (executeMessage info).args = info.map lit from rfl, hsplit]
  rfl

/-- Only the words of the command are cut at `%` when the rest cannot be. -/
theorem makeFromString_componentInfo {id wd key : String} (hid : Uncut id) (hwd : Uncut wd)
    (hkey : Uncut key) (cmd : String) :
    Message.makeFromString (executeMessage (componentInfo id wd key cmd)).toString =
      some (executeMessage
        (id :: wd :: key :: "python" :: (splitSpace cmd).flatMap (cut '%'))) := by
  have hjoined : List.intercalate Message.kDelimiter ((componentInfo id wd key cmd).map lit) ≠
      [] := by
    rw [componentInfo, List.map_cons, List.map_cons, List.intercalate_cons_cons,
      Message.kDelimiter_eq]
    simp
  rw [makeFromString_executeMessage hjoined]
  · simp only [componentInfo, List.flatMap_cons, cut_eq_singleton hid.percent,
      cut_eq_singleton hwd.percent, cut_eq_singleton hkey.percent,
      cut_eq_singleton (show '%' ∉ "python".toList by decide), List.singleton_append]
  · intro s hs
    simp only [componentInfo, List.mem_cons] at hs
    rcases hs with rfl | rfl | rfl | rfl | hs
    · exact free_of_uncut hid
    · exact free_of_uncut hwd
    · exact free_of_uncut hkey
    · decide
    · exact free_of_mem_splitSpace hs

/-! ### Delivery -/

/-- The names that arrive have not been cut. -/
theorem Delivered.uncut {workerId : CxxString} {cwd : List (List Char)} {info : List String}
    {id wd key trainScript inputPath outputPath : String}
    (h : Delivered workerId cwd info
      (intended cwd id wd key trainScript inputPath outputPath)) :
    Uncut id ∧ Uncut wd ∧ Uncut key := by
  obtain ⟨msg, hread, hmsg⟩ := h
  have hsafe := Message.safe_of_makeFromString (doRead_frame_eq_iff.mp hread).2
  obtain ⟨componentKey, cmds, hargs, hencfs⟩ :=
    exists_of_execute_eq_ok (of_doActionFromMsg_eq_execute hmsg)
  have hkey : componentKey = lit key := by
    by_cases hnull : key = "NULL"
    · subst hnull
      by_contra hne
      rw [if_neg hne] at hencfs
      cases hencfs
    · rw [show (intended cwd id wd key trainScript inputPath outputPath).encfsKey =
        some (lit key) from if_neg hnull] at hencfs
      split at hencfs
      · cases hencfs
      · exact (Option.some.inj hencfs).symm
  have hmem : ∀ s ∈ [id, wd, key], lit s ∈ msg.args := by
    intro s hs
    rw [hargs, hkey]
    simp only [List.mem_cons, List.not_mem_nil, or_false] at hs
    rcases hs with rfl | rfl | rfl
    · exact List.mem_cons_self
    · exact List.mem_cons_of_mem _ List.mem_cons_self
    · exact List.mem_cons_of_mem _ (List.mem_cons_of_mem _ List.mem_cons_self)
  have huncut : ∀ s ∈ [id, wd, key], Uncut s := by
    intro s hs
    exact uncut_iff.mpr (hsafe.free _ (hmem s hs))
  exact ⟨huncut id (by simp), huncut wd (by simp), huncut key (by simp)⟩

/-- What the worker makes of the pieces. -/
theorem execute_pieces_iff (cwd : List (List Char))
    (id wd key trainScript inputPath outputPath : String) {l : List String} (hin : "--input" ∈ l)
    (hout : "--output" ∈ l) :
    execute cwd ((id :: wd :: key :: "python" :: l).map lit) =
        .ok (intended cwd id wd key trainScript inputPath outputPath) ↔
      (∃ name, l.head? = some name ∧
        abspath (abspath cwd wd.toList) (join wd.toList name.toList) =
          abspath (abspath cwd wd.toList) trainScript.toList) ∧
      LastFlag "--input" inputPath l ∧ LastFlag "--output" outputPath l := by
  have hnull : (lit key = lit "NULL") = (key = "NULL") := propext lit_injective.eq_iff
  have hstart : execute cwd ((id :: wd :: key :: "python" :: l).map lit) =
        .ok (intended cwd id wd key trainScript inputPath outputPath) ↔
      executeComponent cwd wd ("python" :: l) =
        .ok ⟨abspath (abspath cwd wd.toList) trainScript.toList, inputPath, outputPath⟩ := by
    rw [execute_map_lit]
    simp only [hnull]
    cases executeComponent cwd wd ("python" :: l) with
    | error e => simp [Except.map]
    | ok start => simp [Except.map, intended]
  rw [hstart, executeComponent_eq_ok_iff, scanFolders_eq_ok_iff, scan_eq_ok_iff hin,
    scan_eq_ok_iff hout, and_comm]

theorem mem_commandPieces_of_mem_keys (trainScript : String) {flag : String}
    {params : OrderedDict String String} (hflag : pieces flag = [flag]) (h : flag ∈ params.keys) :
    flag ∈ commandPieces trainScript params := by
  obtain ⟨e, he, rfl⟩ := List.mem_map.mp h
  refine List.mem_append_right _ (List.mem_flatMap.mpr ⟨e, he, List.mem_append_left _ ?_⟩)
  rw [hflag]
  exact List.mem_singleton_self _

theorem mem_keys_set {params : OrderedDict String String} {key key' value : String} :
    key ∈ (params.set key' value).keys ↔ key = key' ∨ key ∈ params.keys := by
  rw [← AList.mem_keys, ← AList.mem_keys, ← AList.lookup_isSome, ← AList.lookup_isSome,
    OrderedDict.lookup_set]
  split
  · rename_i heq
    simp [heq]
  · rename_i hne
    simp [hne]

theorem input_mem_completeParams (trainParams : OrderedDict String String)
    (inputPath outputPath tempPath : String) :
    "--input" ∈ (completeParams trainParams inputPath outputPath tempPath).keys := by
  simp [completeParams, mem_keys_set]

theorem output_mem_completeParams (trainParams : OrderedDict String String)
    (inputPath outputPath tempPath : String) :
    "--output" ∈ (completeParams trainParams inputPath outputPath tempPath).keys := by
  simp [completeParams, mem_keys_set]

theorem delivered_iff_survives {workerId : CxxString} {cwd : List (List Char)}
    {id wd key trainScript inputPath outputPath : String} {params : OrderedDict String String}
    (hin : "--input" ∈ params.keys) (hout : "--output" ∈ params.keys) :
    Delivered workerId cwd (componentInfo id wd key (commandLine trainScript params))
        (intended cwd id wd key trainScript inputPath outputPath) ↔
      Survives cwd id wd key trainScript params inputPath outputPath := by
  have hpieces := execute_pieces_iff cwd id wd key trainScript inputPath outputPath
    (mem_commandPieces_of_mem_keys trainScript (by decide) hin)
    (mem_commandPieces_of_mem_keys trainScript (by decide) hout)
  constructor
  · intro h
    obtain ⟨hid, hwd, hkey⟩ := h.uncut
    obtain ⟨msg, hread, hmsg⟩ := h
    obtain ⟨hshort, hparse⟩ := doRead_frame_eq_iff.mp hread
    rw [makeFromString_componentInfo hid hwd hkey, flatMap_cut_splitSpace_commandLine] at hparse
    cases Option.some.inj hparse
    obtain ⟨hscript, hinput, houtput⟩ := hpieces.mp (of_doActionFromMsg_eq_execute hmsg)
    exact ⟨hid, hwd, hkey, hscript, hinput, houtput, hshort⟩
  · intro h
    have hparse := makeFromString_componentInfo h.id_uncut h.wd_uncut h.key_uncut
      (commandLine trainScript params)
    rw [flatMap_cut_splitSpace_commandLine] at hparse
    refine ⟨_, doRead_frame_eq_iff.mpr ⟨h.short, hparse⟩, ?_⟩
    rw [doActionFromMsg_execute _ _ rfl]
    exact congrArg Action.execute (hpieces.mpr ⟨h.script, h.input, h.output⟩)

/-! ### The worker's end -/

/-- What the worker executes of an `execute` message. Nothing is executed when the text is too
long for its frame, when it does not parse, and when the worker raises before the component is
called. -/
def executed (cwd : List (List Char)) (info : List String) : Option Execution :=
  if (executeMessage info).toString.length < UInt32.size then
    match (Message.makeFromString (executeMessage info).toString).map (doActionFromMsg [] cwd) with
    | some (.execute (.ok execution)) => some execution
    | _ => none
  else none

theorem executed_eq_some_iff {cwd : List (List Char)} {info : List String}
    {execution : Execution} :
    executed cwd info = some execution ↔ Delivered [] cwd info execution := by
  unfold executed Delivered
  simp only [doRead_frame_eq_iff]
  split
  · rename_i hshort
    constructor
    · intro h
      split at h
      · rename_i hmsg
        obtain ⟨msg, hparse, haction⟩ := Option.map_eq_some_iff.mp hmsg
        obtain rfl := Option.some.inj h
        exact ⟨msg, ⟨hshort, hparse⟩, haction⟩
      · cases h
    · intro hex
      obtain ⟨msg, ⟨-, hparse⟩, haction⟩ := hex
      rw [hparse, Option.map_some, haction]
  · rename_i hlong
    constructor
    · intro h
      cases h
    · intro hex
      obtain ⟨_, ⟨hshort, -⟩, -⟩ := hex
      exact absurd hshort hlong

end SecCask.Pipeman

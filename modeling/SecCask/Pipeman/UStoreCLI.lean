import Mathlib.Data.List.Infix
import SecCask.Lib.OrderedDict
import SecCask.Lib.PyString
import SecCask.Pipeman.Storage
import SecCask.Pipeman.StringUtils

/-!
# SecCask.Pipeman.UStoreCLI

The way of a string into the ledger and back. `Ustore` of `ustore.cc` answers in sentences for a
reader, with colours; `UStoreCLI` of `store/ustorecli.py` takes the value out of the answer again,
for `StringStorage` of `storage.py`. A text is the same on both sides of the language border.
-/

namespace SecCask.Pipeman

open Search StringUtils

/-! ### The ledger -/

/-- A colour macro such as `BOLD_GREEN`: what it puts around a text. -/
structure Paint where
  before : String
  after : String
  before_escapes : Escapes before.toList
  after_escapes : Escapes after.toList

def Paint.apply (paint : Paint) (text : String) : String := paint.before ++ text ++ paint.after

/-- Only letters and digits. -/
def Word (w : String) : Prop := ∀ c ∈ w.toList, c.isAlphanum = true

theorem word_of_all {w : String} (h : w.toList.all Char.isAlphanum = true) : Word w :=
  List.all_eq_true.mp h

theorem isSpace_of_isAlphanum {c : Char} (h : c.isAlphanum = true) : Regex.isSpace c = false := by
  have hbool : ((decide (c.val ≥ 65 ∧ c.val ≤ 90) || (c.val ≥ 97 && c.val ≤ 122)) ||
      (c.val ≥ 48 && c.val ≤ 57)) = true := h
  have hranges : (65 ≤ c.toNat ∧ c.toNat ≤ 90 ∨ 97 ≤ c.toNat ∧ c.toNat ≤ 122) ∨
      48 ≤ c.toNat ∧ c.toNat ≤ 57 := by
    simpa [UInt32.le_iff_toNat_le] using hbool
  simp [Regex.isSpace]
  omega

theorem Word.notSpace {w : String} (h : Word w) :
    ∀ c ∈ w.toList, Regex.notSpace c = true := by
  intro c hc
  rw [Regex.notSpace, isSpace_of_isAlphanum (h c hc)]
  rfl

/-- A character that is no letter and no digit does not stand in a word. -/
theorem Word.notMem {w : String} (h : Word w) {c : Char} (hc : c.isAlphanum = false) :
    c ∉ w.toList := by
  intro hmem
  rw [h c hmem] at hc
  cases hc

/-- The ledger under `ustore::ObjectDB`, with what of it shows in the answers. It takes every put,
and verifies. `F` is what a blob contains. -/
structure Ledgebase (σ F : Type) extends BranchStore σ String String String (Value F) where
  boldRed : Paint
  red : Paint
  boldGreen : Paint
  /-- `ustore::Hash::kBase32Length` -/
  kBase32Length : ℕ
  kBase32Length_pos : 0 < kBase32Length
  /-- A version is named in Base32. -/
  word_version : ∀ s key branch value, Word (put s key branch value).2
  /-- How `UType::kLedgerString` and `UType::kLedgerBlob` are printed. -/
  kLedgerString : String
  kLedgerBlob : String
  word_kLedgerString : Word kLedgerString
  blobHash : F → String
  /-- The error code and its text when a key, a branch or a version is not there. -/
  missing : ℕ × String

namespace Ustore

variable {σ F : Type} (L : Ledgebase σ F)

def makeFailedReturn (action key branch : String) (errorCode : ℕ) (errorMessage : String) :
    String :=
  L.boldRed.apply ("[FAILED: " ++ action ++ "] ") ++ "Key: \"" ++ key ++ "\", " ++ "Branch: \"" ++
    branch ++ "\"" ++
      L.red.apply (" --> Error(" ++ errorCode.repr ++ "): " ++ errorMessage)

def makeFileNotFoundReturn (filePath : String) : String :=
  L.boldRed.apply "[FAILED: PUT] " ++ filePath ++ "does not exist"

def makeStringGetReturn (type value : String) : String :=
  L.boldGreen.apply "[SUCCESS: GET] " ++ "Value" ++ "<" ++ type ++ ">: \"" ++ value ++ "\""

def makeBlobGetReturn (type hash : String) : String :=
  L.boldGreen.apply "[SUCCESS: GET] " ++ "Value" ++ "<" ++ type ++ ">: " ++ hash

def makePutReturn (hash : String) : String :=
  L.boldGreen.apply "[SUCCESS: PUT] " ++ "Version: " ++ hash

/-- `Ustore::Get`: the answer, and the file it has written. -/
def get (s : σ) (key branch hversion outputPath : String) : String × Option (String × F) :=
  let value :=
    if hversion.length = L.kBase32Length then L.getVersion s key hversion
    else L.getBranch s key branch
  let failed := makeFailedReturn L "GET" key branch L.missing.1 L.missing.2
  match value with
  | none => (failed, none)
  | some (.string raw) =>
      if raw = "" then (failed, none) else (makeStringGetReturn L L.kLedgerString raw, none)
  | some (.file content) =>
      (makeBlobGetReturn L L.kLedgerBlob (L.blobHash content), some (outputPath, content))

/-- `Ustore::Put`. `files` are the regular files; the empty path leads to none. -/
def put (files : String → Option F) (s : σ) (key branch str inputPath : String) : σ × String :=
  let value :=
    if str = "" then (if inputPath = "" then none else files inputPath).map Value.file
    else some (.string str)
  match value with
  | none => (s, makeFileNotFoundReturn L inputPath)
  | some value =>
      let reply := L.put s key branch value
      (reply.1, makePutReturn L reply.2)

end Ustore

/-! ### The answers -/

namespace UStoreCLI

/-- What is raised while an answer is read. -/
inductive ReplyError
  | runtimeError
  | attributeError
  | indexError
  | keyError
  | valueError
  deriving DecidableEq

/-- `REGEX_HEADER` -/
def regexHeader : List Atom :=
  lit "[" ++ [.group "is_success" Regex.notSpace, .star Regex.isSpace] ++ lit ":" ++
    [.star Regex.isSpace, .group "action_taken" Regex.notSpace] ++ lit "] " ++ [.group "body" dot]

/-- `GetReturn.REGEX_VALUE` -/
def regexValue : List Atom :=
  lit "Value<" ++ [.group "Type" Regex.notSpace] ++ lit ">:" ++
    [.one Regex.isSpace, .group "Value" dot]

/-- `GetReturn.REGEX_FILE` -/
def regexFile : List Atom :=
  lit "Value<" ++ [.group "Type" Regex.notSpace] ++ lit ">:" ++ [.star dot] ++ lit "-->" ++
    [.star dot, .group "FileName" Regex.notSpace, .star dot] ++ lit "[" ++
      [.group "Size" Regex.notSpace] ++ lit "]"

/-- A return object: `values` is only there after a success. -/
structure Return (V : Type) where
  isSuccess : Bool
  values : Option V

/-- `BaseReturn.__init__` -/
def baseReturn {V : Type} (parseContent : List Char → Except ReplyError V) (stdout : String) :
    Except ReplyError (Return V) :=
  match search regexHeader (removeAnsiColorEscape stdout) with
  | none => .error .runtimeError
  | some header =>
      if header.lookup "is_success" = some "SUCCESS".toList then do
        let values ← parseContent ((header.lookup "body").getD [])
        return ⟨true, some values⟩
      else .ok ⟨false, none⟩

/-- `GetReturn._parse_content` -/
def getParseContent (text : List Char) : Except ReplyError Groups :=
  let result :=
    if "-->".toList <:+: text then search regexFile text
    else search regexValue (text.filter (· != '"'))
  match result with
  | none => .error .runtimeError
  | some result => .ok result

/-- `PutReturn._parse_content` -/
def putParseContent (text : List Char) : Except ReplyError (OrderedDict String String) :=
  (PyString.split ", " text).foldlM (fun values item =>
    match PyString.split ": " item with
    | [k, v] => .ok (values.set (String.ofList k) (String.ofList v))
    | _ => .error .valueError) ∅

/-! ### The storage -/

variable {σ F : Type} (L : Ledgebase σ F)

/-- `UStoreCLI.get` of a string -/
def get (s : σ) (key branch : String) : Except ReplyError (Option String) := do
  let ret ← baseReturn getParseContent (Ustore.get L s key branch "" "").1
  match ret.values with
  | none => return none
  | some values =>
      match values.lookup "Value" with
      | none => throw .indexError
      | some value => return some (String.ofList value)

/-- `UStoreCLI.put` of a string. What has been put stays when the answer cannot be read. -/
def put (files : String → Option F) (s : σ) (key branch value : String) :
    σ × Except ReplyError (Return (OrderedDict String String)) :=
  let reply := Ustore.put L files s key branch value ""
  (reply.1, baseReturn putParseContent reply.2)

/-- `StringStorage.get_branch_head` -/
def stringBranchHead (s : σ) (strKey strBranch : String) : Except ReplyError String := do
  match ← get L s strKey strBranch with
  | none => throw .keyError
  | some rawString => return rawString

/-- `StringStorage.put` -/
def stringPut (files : String → Option F) (s : σ) (strKey strBranch rawString : String) :
    σ × Except ReplyError String :=
  let ret := put L files s strKey strBranch rawString
  (ret.1, do
    match (← ret.2).values with
    | none => throw .attributeError
    | some values =>
        match values.lookup "Version" with
        | none => throw .keyError
        | some version => return version)

/-! ### Reading a header -/

/-- The words in brackets in front of an answer. -/
def header (status action : String) : List Char :=
  "[".toList ++ (status.toList ++ (":".toList ++ (" ".toList ++
    (action.toList ++ "] ".toList))))

theorem front_lit_cons_of_ne {pattern : List Atom} {w : String} {a c : Char} {t : List Char}
    (hw : w.toList = a :: t) (hc : c ≠ a) (s : List Char) :
    front (lit w ++ pattern) (c :: s) = none := by
  refine front_lit_eq_none ?_
  intro hex
  obtain ⟨u, hu⟩ := hex
  rw [hw] at hu
  exact hc (List.cons.inj hu).1.symm

/-- The part of `REGEX_HEADER` behind the colon. -/
def regexAction : List Atom :=
  .star Regex.isSpace :: .group "action_taken" Regex.notSpace ::
    (lit "] " ++ [.group "body" dot])

theorem isSpace_of_mem_blank : ∀ c ∈ " ".toList, Regex.isSpace c = true :=
  List.all_eq_true.mp (by decide)

theorem isSpace_of_action {action : String} (haction : Word action) {t : List Char} :
    ∀ c s, action.toList ++ ("] ".toList ++ t) = c :: s →
      Regex.isSpace c = false ∧ c ≠ ':' := by
  intro c s hs
  cases haction' : action.toList with
  | nil =>
      rw [haction', List.nil_append] at hs
      rw [← (List.cons.inj hs).1]
      decide
  | cons d action' =>
      rw [haction', List.cons_append] at hs
      have hd : d ∈ action.toList := haction' ▸ List.mem_cons_self
      rw [← (List.cons.inj hs).1]
      refine ⟨isSpace_of_isAlphanum (haction d hd), ?_⟩
      intro heq
      subst heq
      exact haction.notMem (by decide) hd

theorem front_regexAction {action : String} (haction : Word action) {line rest : List Char}
    (hline : ∀ c ∈ line, dot c = true) (hrest : ∀ c s, rest = c :: s → dot c = false) :
    front regexAction (" ".toList ++ (action.toList ++ ("] ".toList ++ (line ++ rest)))) =
      some ([("action_taken", action.toList), ("body", line)], rest) := by
  have hbody : front (lit "] " ++ [.group "body" dot]) ("] ".toList ++ (line ++ rest)) =
      some ([("body", line)], rest) := by
    rw [front_lit_append, front_group_end hline hrest]
  have hgroup : front (.group "action_taken" Regex.notSpace :: (lit "] " ++ [.group "body" dot]))
      (action.toList ++ ("] ".toList ++ (line ++ rest))) =
        some ([("action_taken", action.toList), ("body", line)], rest) := by
    refine front_group_append haction.notSpace hbody fun k hk hkm => ?_
    have hstretch : ("] ".toList ++ (line ++ rest)).takeWhile Regex.notSpace = [']'] := rfl
    rw [hstretch, List.length_singleton] at hkm
    obtain rfl : k = 1 := by omega
    exact front_lit_cons_of_ne (t := [' ']) rfl (by decide) _
  rw [regexAction, front_star_append ?_ isSpace_of_mem_blank fun c s hs =>
    (isSpace_of_action haction c s hs).1, hgroup]
  intro c s hc
  have hbracket : c ≠ ']' := by
    intro heq
    subst heq
    cases hc
  rw [front_group_empty (by rw [Regex.notSpace, hc]; rfl),
    front_lit_cons_of_ne (t := [' ']) rfl hbracket, Option.map_none]

/-- `REGEX_HEADER` takes a header apart, and the line behind it. -/
theorem front_regexHeader {status action : String} (hstatus : Word status) (haction : Word action)
    {line rest : List Char} (hline : ∀ c ∈ line, dot c = true)
    (hrest : ∀ c s, rest = c :: s → dot c = false) :
    front regexHeader (header status action ++ (line ++ rest)) =
      some ([("is_success", status.toList), ("action_taken", action.toList), ("body", line)],
        rest) := by
  have hexcl : ∀ c s, Regex.isSpace c = true → front (lit ":" ++ regexAction) (c :: s) = none := by
    intro c s hc
    refine front_lit_cons_of_ne (t := []) rfl ?_ s
    intro heq
    subst heq
    cases hc
  have hgroup : front (.group "is_success" Regex.notSpace :: .star Regex.isSpace ::
      (lit ":" ++ regexAction)) (status.toList ++ (":".toList ++
        (" ".toList ++ (action.toList ++ ("] ".toList ++ (line ++ rest)))))) =
      some ([("is_success", status.toList), ("action_taken", action.toList), ("body", line)],
        rest) := by
    refine front_group_append (m := ([("action_taken", action.toList), ("body", line)], rest))
      hstatus.notSpace ?_ fun k hk hkm => ?_
    · have hcolon := front_star_append (g := []) (r := ":".toList ++ (" ".toList ++
        (action.toList ++ ("] ".toList ++ (line ++ rest))))) hexcl (by simp) (by
          intro c s hs
          rw [← (List.cons.inj hs).1]
          decide)
      rw [List.nil_append] at hcolon
      rw [hcolon, front_lit_append, front_regexAction haction hline hrest]
    · have hstretch : (":".toList ++ (" ".toList ++ (action.toList ++
          ("] ".toList ++ (line ++ rest))))).takeWhile Regex.notSpace = [':'] := rfl
      rw [hstretch, List.length_singleton] at hkm
      obtain rfl : k = 1 := by omega
      -- Behind the colon there is a blank, and then no colon.
      show front _ (" ".toList ++ _) = none
      rw [front_star_append hexcl isSpace_of_mem_blank fun c s hs =>
        (isSpace_of_action haction c s hs).1]
      cases hrest' : action.toList ++ ("] ".toList ++ (line ++ rest)) with
      | nil =>
          have hlen := congrArg List.length hrest'
          simp at hlen
      | cons c s =>
          exact front_lit_cons_of_ne (t := []) rfl (isSpace_of_action haction c s hrest').2 s
  unfold header
  simp only [regexHeader, List.append_assoc, List.cons_append, List.nil_append]
  rw [front_lit_append]
  exact hgroup

/-! ### Return objects -/

/-- Of a painted header nothing but the words stays. -/
theorem removeAnsiColorEscape_painted {status action : String} (hstatus : Word status)
    (haction : Word action) (paint : Paint) (text : String) :
    removeAnsiColorEscape (paint.apply ("[" ++ status ++ ": " ++ action ++ "] ") ++ text) =
      header status action ++ erase escape text.toList := by
  have hkept : ∀ c ∈ header status action, ∀ t, escape (c :: t) = none := by
    intro c hc
    refine escape_eq_none_of_head ?_ ?_
    all_goals
      intro heq
      subst heq
      unfold header at hc
      simp only [List.mem_append] at hc
      rcases hc with hc | hc | hc | hc | hc | hc
      · exact absurd hc (by decide)
      · exact hstatus.notMem (by decide) hc
      · exact absurd hc (by decide)
      · exact absurd hc (by decide)
      · exact haction.notMem (by decide) hc
      · exact absurd hc (by decide)
  have hheader : ("[" ++ status ++ ": " ++ action ++ "] ").toList = header status action := by
    unfold header
    simp only [String.toList_append, List.append_assoc]
    rfl
  rw [removeAnsiColorEscape, Paint.apply, String.toList_append, String.toList_append,
    String.toList_append, hheader, List.append_assoc, List.append_assoc,
    erase_escapes paint.before_escapes, erase_append_of_none hkept,
    erase_escapes paint.after_escapes]

/-- What `BaseReturn.__init__` makes of an answer with a painted header: the line behind it is
parsed after a success. -/
theorem baseReturn_painted {V : Type} (parseContent : List Char → Except ReplyError V)
    {status action : String} (hstatus : Word status) (haction : Word action) (paint : Paint)
    (text : String) :
    baseReturn parseContent (paint.apply ("[" ++ status ++ ": " ++ action ++ "] ") ++ text) =
      if status = "SUCCESS" then
        (parseContent ((erase escape text.toList).takeWhile dot)).map fun values =>
          ⟨true, some values⟩
      else .ok ⟨false, none⟩ := by
  have hsearch : search regexHeader (header status action ++ erase escape text.toList) =
      some [("is_success", status.toList), ("action_taken", action.toList),
        ("body", (erase escape text.toList).takeWhile dot)] := by
    have hline : ∀ c ∈ (erase escape text.toList).takeWhile dot, dot c = true :=
      fun _ => List.mem_takeWhile_imp
    have hrest : ∀ c s, (erase escape text.toList).dropWhile dot = c :: s → dot c = false :=
      stop_of_dropWhile
    have hfront := front_regexHeader hstatus haction hline hrest
    rw [List.takeWhile_append_dropWhile] at hfront
    exact search_of_front hfront
  rw [baseReturn, removeAnsiColorEscape_painted hstatus haction, hsearch]
  by_cases hsuccess : status = "SUCCESS"
  · rw [if_pos hsuccess, hsuccess]
    show (parseContent ((erase escape text.toList).takeWhile dot) >>= fun values =>
      (.ok ⟨true, some values⟩ : Except ReplyError (Return V))) = _
    cases parseContent ((erase escape text.toList).takeWhile dot) <;> rfl
  · have hother : ¬ some status.toList = some "SUCCESS".toList := fun h =>
      hsuccess (String.toList_inj.mp (Option.some.inj h))
    rw [if_neg hsuccess]
    exact if_neg hother

/-! ### Reading a value -/

/-- What stands in front of the value in an answer. -/
def valueHead (type : String) : List Char :=
  "Value<".toList ++ (type.toList ++ (">:".toList ++ [' ']))

theorem notMem_valueHead {type : String} (htype : Word type) {c : Char}
    (hc : c.isAlphanum = false) (hhead : c ∉ "Value<".toList ∧ c ∉ ">:".toList ++ [' ']) :
    c ∉ valueHead type := by
  intro hmem
  unfold valueHead at hmem
  rcases List.mem_append.mp hmem with hmem | hmem
  · exact hhead.1 hmem
  · rcases List.mem_append.mp hmem with hmem | hmem
    · exact htype.notMem hc hmem
    · exact hhead.2 hmem

/-- `REGEX_VALUE` takes the type and all that comes behind it. -/
theorem front_regexValue {type : String} (htype : Word type) {value : List Char}
    (hvalue : ∀ c ∈ value, dot c = true) :
    front regexValue (valueHead type ++ value) =
      some ([("Type", type.toList), ("Value", value)], []) := by
  have hend : front [.group "Value" dot] value = some ([("Value", value)], []) := by
    simpa using front_group_end (r := []) hvalue (by simp)
  have hblank : front (.one Regex.isSpace :: [.group "Value" dot]) (' ' :: value) =
      some ([("Value", value)], []) := by
    rw [front_one_cons, if_pos (by decide), hend]
  have hgroup : front (.group "Type" Regex.notSpace ::
      (lit ">:" ++ [.one Regex.isSpace, .group "Value" dot]))
        (type.toList ++ (">:".toList ++ ' ' :: value)) =
          some ([("Type", type.toList), ("Value", value)], []) := by
    refine front_group_append (m := ([("Value", value)], [])) htype.notSpace ?_ fun k hk hkm => ?_
    · rw [front_lit_append, hblank]
    · have hstretch : (">:".toList ++ ' ' :: value).takeWhile Regex.notSpace = ['>', ':'] := rfl
      rw [hstretch] at hkm
      obtain rfl | rfl : k = 1 ∨ k = 2 := by
        simp at hkm
        omega
      · exact front_lit_cons_of_ne (t := [':']) rfl (by decide) _
      · exact front_lit_cons_of_ne (t := [':']) rfl (by decide) _
  have hassoc : ∀ a b c d : List Char,
      (a ++ (b ++ (c ++ [' ']))) ++ d = a ++ (b ++ (c ++ ' ' :: d)) := by simp
  have hsplit : valueHead type ++ value =
      "Value<".toList ++ (type.toList ++ (">:".toList ++ ' ' :: value)) := hassoc _ _ _ _
  rw [hsplit]
  simp only [regexValue, List.append_assoc, List.cons_append, List.nil_append]
  rw [front_lit_append]
  exact hgroup

/-- An arrow in an answer is one in the line behind the first quote. -/
theorem arrow_infix_iff {type : String} (htype : Word type) {line : List Char} :
    "-->".toList <:+: valueHead type ++ '"' :: line ↔ "-->".toList <:+: line := by
  have hhead : ¬ "-->".toList <:+: valueHead type := fun h =>
    notMem_valueHead htype (c := '-') (by decide) (by decide) (h.subset (by decide))
  rw [infix_append_cons_iff (by decide)]
  exact ⟨fun h => h.resolve_left hhead, Or.inr⟩

/-- Without an arrow the quotes are dropped, and the rest is the value. -/
theorem getParseContent_of_no_arrow {type : String} (htype : Word type) {line : List Char}
    (hline : ∀ c ∈ line, dot c = true) (harrow : ¬ "-->".toList <:+: line) :
    getParseContent (valueHead type ++ '"' :: line) =
      .ok [("Type", type.toList), ("Value", line.filter (· != '"'))] := by
  have hquote : (valueHead type ++ '"' :: line).filter (· != '"') =
      valueHead type ++ line.filter (· != '"') := by
    rw [List.filter_append, List.filter_cons_of_neg (by simp), List.filter_eq_self.mpr]
    intro c hc
    rw [bne_iff_ne]
    intro heq
    subst heq
    exact notMem_valueHead htype (by decide) (by decide) hc
  have hvalue : ∀ c ∈ line.filter (· != '"'), dot c = true := fun c hc =>
    hline c (List.mem_of_mem_filter hc)
  rw [getParseContent, if_neg (mt (arrow_infix_iff htype).mp harrow), hquote,
    search_of_front (front_regexValue htype hvalue)]

/-- With an arrow there is no group for the value. -/
theorem lookup_value_of_arrow {type : String} (htype : Word type) {line : List Char}
    (harrow : "-->".toList <:+: line) {groups : Groups}
    (h : getParseContent (valueHead type ++ '"' :: line) = .ok groups) :
    groups.lookup "Value" = none := by
  rw [getParseContent, if_pos ((arrow_infix_iff htype).mpr harrow)] at h
  cases hsearch : search regexFile (valueHead type ++ '"' :: line) with
  | none =>
      rw [hsearch] at h
      cases h
  | some groups' =>
      rw [hsearch] at h
      obtain rfl := Except.ok.inj h
      have hnames := names_of_search hsearch
      have hnot : "Value" ∉ names regexFile := by decide +kernel
      rw [List.lookup_eq_none_iff]
      intro group hgroup
      rw [bne_iff_ne]
      rintro heq
      exact hnot (hnames ▸ heq ▸ List.mem_map_of_mem hgroup)

/-! ### Reading back -/

variable {L : Ledgebase σ F}

theorem word_success : Word "SUCCESS" := word_of_all (by decide)

theorem word_get : Word "GET" := word_of_all (by decide)

theorem word_put : Word "PUT" := word_of_all (by decide)

/-- What an answer holds of a value: the line up to the closing quote, without its escape
sequences. -/
def valueLine (value : String) : List Char := (erase escape value.toList ++ ['"']).takeWhile dot

theorem erase_escape_of_forall {s : List Char} (h : ∀ c ∈ s, c ≠ '\u009B' ∧ c ≠ '\x1B')
    (r : List Char) : erase escape (s ++ r) = s ++ erase escape r :=
  erase_append_of_none (fun c hc => escape_eq_none_of_head (h c hc).1 (h c hc).2) r

theorem ne_of_mem_openedHead {c d : Char} (hd : d.isAlphanum = false)
    (hhead : d ∉ "Value<".toList ∧ d ∉ ">:".toList ++ [' ']) (hquote : d ∉ ['"'])
    (hc : c ∈ valueHead L.kLedgerString ++ ['"']) : c ≠ d := by
  intro heq
  subst heq
  rcases List.mem_append.mp hc with hc | hc
  · exact notMem_valueHead L.word_kLedgerString hd hhead hc
  · exact hquote hc

theorem baseReturn_makeStringGetReturn (value : String) :
    baseReturn getParseContent (Ustore.makeStringGetReturn L L.kLedgerString value) =
      (getParseContent (valueHead L.kLedgerString ++ '"' :: valueLine value)).map fun values =>
        ⟨true, some values⟩ := by
  have hreply : Ustore.makeStringGetReturn L L.kLedgerString value =
      L.boldGreen.apply ("[" ++ "SUCCESS" ++ ": " ++ "GET" ++ "] ") ++
        ("Value<" ++ (L.kLedgerString ++ (">: \"" ++ (value ++ "\"")))) := by
    rw [Ustore.makeStringGetReturn]
    simp only [String.append_assoc]
    rfl
  have htext : ("Value<" ++ (L.kLedgerString ++ (">: \"" ++ (value ++ "\"")))).toList =
      (valueHead L.kLedgerString ++ ['"']) ++ (value.toList ++ ['"']) := by
    unfold valueHead
    simp only [String.toList_append, List.append_assoc]
    rfl
  -- up to the opening quote the line is as the tool writes it
  have hkept : ∀ c ∈ valueHead L.kLedgerString ++ ['"'], c ≠ '\u009B' ∧ c ≠ '\x1B' := by
    intro c hc
    refine ⟨?_, ?_⟩
    · exact ne_of_mem_openedHead (by decide) (by decide) (by decide) hc
    · exact ne_of_mem_openedHead (by decide) (by decide) (by decide) hc
  have hdot : ∀ c ∈ valueHead L.kLedgerString ++ ['"'], dot c = true := by
    intro c hc
    rw [dot, bne_iff_ne]
    exact ne_of_mem_openedHead (by decide) (by decide) (by decide) hc
  rw [hreply, baseReturn_painted getParseContent word_success word_get, if_pos rfl, htext,
    erase_escape_of_forall hkept, erase_escape_concat_quote, List.takeWhile_append_of_pos hdot,
    List.append_assoc]
  rfl

/-- A value that has been put is searched for in its line. -/
theorem get_of_string {s : σ} {key branch value : String}
    (hvalue : L.getBranch s key branch = some (.string value)) (hne : value ≠ "") :
    get L s key branch =
      (getParseContent (valueHead L.kLedgerString ++ '"' :: valueLine value)).bind fun values =>
        match values.lookup "Value" with
        | none => .error .indexError
        | some value => .ok (some (String.ofList value)) := by
  have hlength : ¬ "".length = L.kBase32Length := L.kBase32Length_pos.ne
  have hreply : (Ustore.get L s key branch "" "").1 =
      Ustore.makeStringGetReturn L L.kLedgerString value := by
    rw [Ustore.get, if_neg hlength, hvalue]
    dsimp only
    rw [if_neg hne]
  rw [get, hreply, baseReturn_makeStringGetReturn]
  cases getParseContent _ <;> rfl

theorem dot_of_mem_valueLine {value : String} : ∀ c ∈ valueLine value, dot c = true :=
  fun _ => List.mem_takeWhile_imp

theorem stringBranchHead_of_no_arrow {s : σ} {key branch value : String}
    (hvalue : L.getBranch s key branch = some (.string value)) (hne : value ≠ "")
    (harrow : ¬ "-->".toList <:+: valueLine value) :
    stringBranchHead L s key branch =
      .ok (String.ofList ((valueLine value).filter (· != '"'))) := by
  rw [stringBranchHead, get_of_string hvalue hne,
    getParseContent_of_no_arrow L.word_kLedgerString dot_of_mem_valueLine harrow]
  rfl

theorem stringBranchHead_of_arrow {s : σ} {key branch value : String}
    (hvalue : L.getBranch s key branch = some (.string value)) (hne : value ≠ "")
    (harrow : "-->".toList <:+: valueLine value) (raw : String) :
    stringBranchHead L s key branch ≠ .ok raw := by
  rw [stringBranchHead, get_of_string hvalue hne]
  cases hparse : getParseContent (valueHead L.kLedgerString ++ '"' :: valueLine value) with
  | error e => exact fun h => by cases h
  | ok groups =>
      have hlookup := lookup_value_of_arrow L.word_kLedgerString harrow hparse
      simp only [Except.bind, hlookup]
      exact fun h => by cases h

/-- An answer to a put holds the version. -/
theorem putParseContent_version {version : String} (hversion : Word version) :
    putParseContent ("Version: " ++ version).toList =
      .ok ((∅ : OrderedDict String String).set "Version" version) := by
  have hcomma : ',' ∉ ("Version: " ++ version).toList := by
    rw [String.toList_append, List.mem_append, not_or]
    exact ⟨by decide, hversion.notMem (by decide)⟩
  have hitems : PyString.split ", " ("Version: " ++ version).toList =
      [("Version: " ++ version).toList] := PyString.splitFrom_of_notMem hcomma
  have hpair : PyString.split ": " ("Version: " ++ version).toList =
      ["Version".toList, version.toList] := by
    have hsplit : PyString.splitFrom [':', ' '] 0
        ("Version".toList ++ ([':', ' '] ++ version.toList)) =
          "Version".toList :: PyString.splitFrom [':', ' '] 0 version.toList :=
      PyString.splitFrom_append (by decide) version.toList
    rw [PyString.splitFrom_of_notMem (hversion.notMem (by decide))] at hsplit
    rw [← hsplit, String.toList_append]
    rfl
  rw [putParseContent, hitems, List.foldlM_cons, hpair]
  simp only [String.ofList_toList]
  rfl

theorem baseReturn_makePutReturn {version : String} (hversion : Word version) :
    baseReturn putParseContent (Ustore.makePutReturn L version) =
      .ok ⟨true, some ((∅ : OrderedDict String String).set "Version" version)⟩ := by
  have hkept : ∀ c ∈ ("Version: " ++ version).toList,
      dot c = true ∧ c ≠ '\u009B' ∧ c ≠ '\x1B' := by
    intro c hc
    rw [dot, bne_iff_ne]
    rw [String.toList_append, List.mem_append] at hc
    refine ⟨?_, ?_, ?_⟩
    all_goals
      intro heq
      subst heq
      rcases hc with hc | hc
      · exact absurd hc (by decide)
      · exact hversion.notMem (by decide) hc
  have herase : erase escape ("Version: " ++ version).toList =
      ("Version: " ++ version).toList := by
    have hall := erase_escape_of_forall (fun c hc => (hkept c hc).2) []
    rwa [List.append_nil, show erase escape [] = [] from rfl, List.append_nil] at hall
  have hreply : Ustore.makePutReturn L version =
      L.boldGreen.apply ("[" ++ "SUCCESS" ++ ": " ++ "PUT" ++ "] ") ++
        ("Version: " ++ version) := by
    rw [Ustore.makePutReturn, String.append_assoc]
    rfl
  rw [hreply, baseReturn_painted putParseContent word_success word_put, if_pos rfl, herase,
    List.takeWhile_eq_self_iff.mpr fun c hc => (hkept c hc).1, putParseContent_version hversion]
  rfl

theorem stringPut_of_ne {files : String → Option F} {s : σ} {key branch value : String}
    (hne : value ≠ "") :
    stringPut L files s key branch value =
      ((L.put s key branch (.string value)).1, .ok (L.put s key branch (.string value)).2) := by
  have hput : put L files s key branch value = ((L.put s key branch (.string value)).1,
      .ok ⟨true, some ((∅ : OrderedDict String String).set "Version"
        (L.put s key branch (.string value)).2)⟩) := by
    rw [put, Ustore.put, if_neg hne]
    dsimp only
    rw [baseReturn_makePutReturn (L.word_version s key branch (.string value))]
  rw [stringPut, hput]
  refine Prod.ext rfl ?_
  show (match ((∅ : OrderedDict String String).set "Version" _).lookup "Version" with
    | none => throw ReplyError.keyError
    | some version => pure version : Except ReplyError String) = _
  rw [OrderedDict.lookup_set, if_pos rfl]
  rfl

/-- An empty string is taken for a file that is not there. -/
theorem stringPut_empty (files : String → Option F) (s : σ) (key branch : String) :
    stringPut L files s key branch "" = (s, .error .attributeError) := by
  have hreply : Ustore.makeFileNotFoundReturn L "" =
      L.boldRed.apply ("[" ++ "FAILED" ++ ": " ++ "PUT" ++ "] ") ++ "does not exist" := by
    rw [Ustore.makeFileNotFoundReturn, String.append_empty]
    rfl
  have hput : put L files s key branch "" = (s, .ok ⟨false, none⟩) := by
    have hfailed : Word "FAILED" := word_of_all (by decide)
    have hreturn := baseReturn_painted putParseContent hfailed word_put L.boldRed "does not exist"
    rw [if_neg (by decide)] at hreturn
    rw [put, Ustore.put, if_pos rfl, if_pos rfl, Option.map_none]
    dsimp only
    rw [hreply, hreturn]
  rw [stringPut, hput]
  rfl

/-! ### Unharmed values -/

/-- A value that no layer of an answer takes for a part of its own. -/
structure Unharmed (value : String) : Prop where
  ne : value ≠ ""
  quote : '"' ∉ value.toList
  lineBreak : '\n' ∉ value.toList
  arrow : ¬ "-->".toList <:+: value.toList
  escape : ∀ e, IsEscape e → ¬ e <:+: value.toList

/-- The value is put, and then read as it was. -/
def ReadsBack (L : Ledgebase σ F) (files : String → Option F) (s : σ) (key branch value : String) :
    Prop :=
  ∃ s' version, stringPut L files s key branch value = (s', .ok version) ∧
    stringBranchHead L s' key branch = .ok value

theorem valueLine_eq {value : String} (hbreak : '\n' ∉ value.toList)
    (hkept : erase escape value.toList = value.toList) :
    valueLine value = value.toList ++ ['"'] := by
  rw [valueLine, hkept, List.takeWhile_eq_self_iff]
  intro c hc
  rw [dot, bne_iff_ne]
  intro heq
  subst heq
  rcases List.mem_append.mp hc with hc | hc
  · exact hbreak hc
  · exact absurd hc (by decide)

/-- What is read is what is left of the value: if it is all of it, nothing has been taken. -/
theorem unharmed_of_filter {value : String} (hne : value ≠ "")
    (harrow : ¬ "-->".toList <:+: valueLine value)
    (h : (valueLine value).filter (· != '"') = value.toList) : Unharmed value := by
  have hline : (valueLine value).Sublist (erase escape value.toList ++ ['"']) :=
    (List.takeWhile_prefix _).sublist
  have hfilter := hline.filter (· != '"')
  rw [h, List.filter_append, show ['"'].filter (· != '"') = [] from rfl,
    List.append_nil] at hfilter
  have herased : (erase escape value.toList).Sublist value.toList := eraseFrom_sublist 0 _
  have hkept : erase escape value.toList = value.toList :=
    herased.antisymm (hfilter.trans List.filter_sublist)
  have hquote : '"' ∉ value.toList := by
    intro hmem
    rw [← h] at hmem
    exact absurd (List.mem_filter.mp hmem).2 (by decide)
  have hbreak : '\n' ∉ value.toList := by
    intro hmem
    rw [← h] at hmem
    exact absurd (dot_of_mem_valueLine _ (List.mem_of_mem_filter hmem)) (by decide)
  have hescape := erase_escape_eq_self_iff.mp hkept
  refine ⟨hne, hquote, hbreak, fun hinfix => harrow ?_, hescape⟩
  rw [valueLine_eq hbreak hkept]
  exact hinfix.trans (List.infix_append' [] _ _)

/-- **Values of the ledger.** A string is put and read back unchanged, under any key and branch,
exactly when it is not empty and holds no quote, no line break, no arrow and no escape sequence. -/
theorem readsBack_iff_unharmed (files : String → Option F) (s : σ) (key branch value : String) :
    ReadsBack L files s key branch value ↔ Unharmed value := by
  refine ⟨?_, ?_⟩
  · intro hex
    obtain ⟨s', version, hput, hread⟩ := hex
    have hne : value ≠ "" := by
      intro heq
      subst heq
      rw [stringPut_empty] at hput
      cases (Prod.mk.inj hput).2
    rw [stringPut_of_ne hne] at hput
    obtain ⟨rfl, -⟩ := Prod.mk.inj hput
    have hvalue := L.getBranch_put s key branch (.string value)
    -- an answer with an arrow has no group for the value, so reading it fails
    have harrow : ¬ "-->".toList <:+: valueLine value := fun harrow =>
      stringBranchHead_of_arrow hvalue hne harrow value hread
    rw [stringBranchHead_of_no_arrow hvalue hne harrow] at hread
    refine unharmed_of_filter hne harrow ?_
    rw [← String.toList_ofList (l := List.filter _ _), Except.ok.inj hread]
  · intro h
    have hvalue := L.getBranch_put s key branch (.string value)
    have hline := valueLine_eq h.lineBreak (erase_escape_eq_self_iff.mpr h.escape)
    refine ⟨_, _, stringPut_of_ne h.ne, ?_⟩
    have harrow : ¬ "-->".toList <:+: valueLine value := by
      rw [hline, infix_append_cons_iff (by decide)]
      exact fun hor => hor.elim h.arrow (by decide)
    have hfilter : (valueLine value).filter (· != '"') = value.toList := by
      rw [hline, List.filter_append, show ['"'].filter (· != '"') = [] from rfl,
        List.append_nil, List.filter_eq_self]
      intro c hc
      rw [bne_iff_ne]
      intro heq
      subst heq
      exact h.quote hc
    rw [stringBranchHead_of_no_arrow hvalue h.ne harrow, hfilter, String.ofList_toList]

/-! A ledger that is the list of its puts, with the usual colours. -/

theorem isEscape_colour {parameters : List Char} (h : ∀ c ∈ parameters, isParameter c = true) :
    IsEscape ("\x1B[".toList ++ (parameters ++ ([] ++ ['m']))) :=
  .mk (Or.inr rfl) h (by simp) (by decide)

def colourPaint (colour : String) (h : ∀ c ∈ colour.toList, isParameter c = true) : Paint where
  before := "\x1B[" ++ colour ++ "m"
  after := "\x1B[0m"
  before_escapes := by
    have hcolour := Escapes.cons (isEscape_colour h) .nil
    simpa using hcolour
  after_escapes := by
    have hzero : ∀ c ∈ ['0'], isParameter c = true := List.all_eq_true.mp (by decide)
    have hreset := Escapes.cons (isEscape_colour hzero) .nil
    simpa using hreset

def logLedgebase : Ledgebase (List (BranchStore.LogEntry String String (Value Unit))) Unit where
  toBranchStore := Storage.logStore Unit
  boldRed := colourPaint "1;31" (List.all_eq_true.mp (by decide))
  red := colourPaint "31" (List.all_eq_true.mp (by decide))
  boldGreen := colourPaint "1;32" (List.all_eq_true.mp (by decide))
  kBase32Length := 32
  kBase32Length_pos := by decide
  word_version := by
    intro s key branch value c hc
    rw [Char.isAlphanum, Regex.isDigit_of_mem_repr (n := s.length) hc, Bool.or_true]
  kLedgerString := "LedgerString"
  kLedgerBlob := "LedgerBlob"
  word_kLedgerString := word_of_all (by decide)
  blobHash := fun _ => "0"
  missing := (1, "key does not exist")

/-- The quotes in a value are dropped. -/
theorem quotes_not_readsBack :
    (∃ s' version, stringPut logLedgebase (fun _ => none) [] "greeting" "master" "say \"hi\"" =
        (s', .ok version) ∧
      stringBranchHead logLedgebase s' "greeting" "master" = .ok "say hi") ∧
    ¬ ReadsBack logLedgebase (fun _ => none) [] "greeting" "master" "say \"hi\"" := by
  have hne : "say \"hi\"" ≠ "" := by decide
  have hput : stringPut logLedgebase (fun _ => none) [] "greeting" "master" "say \"hi\"" = _ :=
    stringPut_of_ne hne
  have hread := stringBranchHead_of_no_arrow
    (logLedgebase.getBranch_put [] "greeting" "master" (.string "say \"hi\"")) hne
    (by decide +kernel)
  rw [show String.ofList ((valueLine "say \"hi\"").filter (· != '"')) = "say hi" by
    decide +kernel] at hread
  refine ⟨⟨_, _, hput, hread⟩, ?_⟩
  intro hex
  obtain ⟨s', version, hput', hread'⟩ := hex
  rw [hput] at hput'
  obtain ⟨rfl, -⟩ := Prod.mk.inj hput'
  rw [hread] at hread'
  exact absurd (Except.ok.inj hread') (by decide)

end UStoreCLI

end SecCask.Pipeman

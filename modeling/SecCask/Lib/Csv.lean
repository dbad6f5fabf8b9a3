import Mathlib.Data.List.Basic
import SecCask.Lib.Fallible
import SecCask.Lib.PyString

/-!
# SecCask.Lib.Csv

`csv.reader` with the dialect `excel`, over the lines of a text file: a machine that takes the
characters one after another and is told where a line ends.
-/

namespace SecCask.Csv

open PyString (universalNewlines universalNewlines_append)

/-! ### Lines -/

/-- The lines of a file, with their breaks. -/
def lines : List Char → List (List Char)
  | [] => []
  | c :: s =>
      if c = '\n' then [c] :: lines s
      else
        match lines s with
        | [] => [[c]]
        | line :: rest => (c :: line) :: rest

/-! ### The machine -/

inductive Error
  /-- `field larger than field limit (131072)` -/
  | fieldLimit
  /-- `new-line character seen in unquoted field - do you need to open the file in
  universal-newline mode?` -/
  | newLine
  /-- `line contains NUL` -/
  | nul
  deriving DecidableEq, Repr

inductive ParserState
  | startRecord
  | startField
  | inField
  | inQuotedField
  | quoteInQuotedField
  | eatCrnl
  deriving DecidableEq, Repr

structure Reader where
  state : ParserState
  field : List Char
  fields : List String
  deriving DecidableEq, Repr

/-- `csv.field_size_limit()` -/
def fieldLimit : ℕ := 131072

def isBreak (c : Char) : Bool := c = '\n' || c = '\r'

namespace Reader

/-- `parse_reset` -/
def reset : Reader := ⟨.startRecord, [], []⟩

/-- `parse_save_field` -/
def saveField (r : Reader) (next : ParserState) : Reader :=
  ⟨next, [], r.fields ++ [String.ofList r.field]⟩

/-- `parse_add_char` -/
def addChar (r : Reader) (c : Char) (next : ParserState) : Except Error Reader :=
  if fieldLimit ≤ r.field.length then .error .fieldLimit
  else .ok { r with state := next, field := r.field ++ [c] }

/-- The case `START_FIELD` of `parse_process_char`. -/
def startField (r : Reader) (c : Char) : Except Error Reader :=
  if isBreak c then .ok (r.saveField .eatCrnl)
  else if c = '"' then .ok { r with state := .inQuotedField }
  else if c = ',' then .ok (r.saveField .startField)
  else r.addChar c .inField

/-- `parse_process_char` for a character of the line. -/
def processChar (r : Reader) (c : Char) : Except Error Reader :=
  match r.state with
  | .startRecord => if isBreak c then .ok { r with state := .eatCrnl } else r.startField c
  | .startField => r.startField c
  | .inField =>
      if isBreak c then .ok (r.saveField .eatCrnl)
      else if c = ',' then .ok (r.saveField .startField)
      else r.addChar c .inField
  | .inQuotedField =>
      if c = '"' then .ok { r with state := .quoteInQuotedField }
      else r.addChar c .inQuotedField
  | .quoteInQuotedField =>
      if c = '"' then r.addChar c .inQuotedField
      else if c = ',' then .ok (r.saveField .startField)
      else if isBreak c then .ok (r.saveField .eatCrnl)
      else r.addChar c .inField
  | .eatCrnl => if isBreak c then .ok r else .error .newLine

/-- `parse_process_char` for the end of the line. -/
def endLine (r : Reader) : Reader :=
  match r.state with
  | .startRecord | .eatCrnl => { r with state := .startRecord }
  | .startField | .inField | .quoteInQuotedField => r.saveField .startRecord
  | .inQuotedField => r

def readChar (r : Reader) (c : Char) : Except Error Reader :=
  if c = '\x00' then .error .nul else r.processChar c

def readLine (r : Reader) (line : List Char) : Except Error Reader := do
  let r ← line.foldlM readChar r
  return r.endLine

/-- `Reader_iternext`; `none` where there are no more lines. A record that the file breaks off
in a quoted field is one all the same. -/
def next : Reader → List (List Char) → Except Error (Option (List String))
  | r, [] =>
      if r.field ≠ [] ∨ r.state = .inQuotedField then .ok (some (r.saveField .startRecord).fields)
      else .ok none
  | r, line :: rest => do
      let r ← r.readLine line
      if r.state = .startRecord then return some r.fields
      else next r rest

end Reader

/-- The first record of the file. -/
def first (text : String) : Except Error (Option (List String)) :=
  Reader.reset.next (lines (universalNewlines text.toList))

/-! ### Plain records -/

/-- A field that stands in a line as it is. -/
structure Plain (field : String) : Prop where
  limit : field.toList.length ≤ fieldLimit
  comma : ',' ∉ field.toList
  quote : '"' ∉ field.toList
  lineFeed : '\n' ∉ field.toList
  carriageReturn : '\r' ∉ field.toList
  nul : '\x00' ∉ field.toList

instance : DecidablePred Plain := fun field =>
  decidable_of_iff (field.toList.length ≤ fieldLimit ∧ ',' ∉ field.toList ∧ '"' ∉ field.toList ∧
      '\n' ∉ field.toList ∧ '\r' ∉ field.toList ∧ '\x00' ∉ field.toList)
    ⟨fun h => ⟨h.1, h.2.1, h.2.2.1, h.2.2.2.1, h.2.2.2.2.1, h.2.2.2.2.2⟩,
      fun h => ⟨h.limit, h.comma, h.quote, h.lineFeed, h.carriageReturn, h.nul⟩⟩

/-- How a line may end in a file. -/
def IsLineBreak (s : List Char) : Prop := s = ['\n'] ∨ s = ['\r', '\n']

/-- The fields with commas between them. -/
def joined (fields : List String) : List Char :=
  [','].intercalate (fields.map String.toList)

theorem joined_singleton (field : String) : joined [field] = field.toList := by
  simp [joined]

theorem joined_cons_cons (field next : String) (fields : List String) :
    joined (field :: next :: fields) = field.toList ++ ',' :: joined (next :: fields) := by
  simp [joined, List.intercalate_cons_cons]

theorem notMem_joined {c : Char} (hcomma : c ≠ ',') {fields : List String}
    (hfields : ∀ field ∈ fields, c ∉ field.toList) : c ∉ joined fields := by
  induction fields with
  | nil => simp [joined]
  | cons field fields ih =>
      obtain ⟨hfield, hfields⟩ := List.forall_mem_cons.mp hfields
      cases fields with
      | nil =>
          rw [joined_singleton]
          exact hfield
      | cons next fields =>
          rw [joined_cons_cons, List.mem_append, List.mem_cons]
          rintro (hc | hc | hc)
          · exact hfield hc
          · exact hcomma hc
          · exact ih hfields hc

theorem lines_append {s : List Char} (hs : '\n' ∉ s) (t : List Char) :
    lines (s ++ '\n' :: t) = (s ++ ['\n']) :: lines t := by
  induction s with
  | nil => simp [lines]
  | cons c s ih =>
      obtain ⟨hc, hs⟩ := not_or.mp (List.mem_cons.not.mp hs)
      rw [List.cons_append, lines, if_neg (fun h => hc h.symm), ih hs]
      rfl

namespace Reader

/-- A character of a field that stands in a line as it is. -/
theorem addChar_of_lt {r : Reader} {c : Char} {next : ParserState}
    (h : r.field.length < fieldLimit) :
    r.addChar c next = .ok { r with state := next, field := r.field ++ [c] } := by
  rw [addChar, if_neg (by omega)]

/-- Within a field, the characters are put behind one another. -/
theorem foldlM_inField {cs : List Char} (hcomma : ',' ∉ cs) (hlineFeed : '\n' ∉ cs)
    (hcarriageReturn : '\r' ∉ cs) (hnul : '\x00' ∉ cs) {field : List Char}
    (hlimit : field.length + cs.length ≤ fieldLimit) (fields : List String) :
    cs.foldlM readChar ⟨.inField, field, fields⟩ = .ok ⟨.inField, field ++ cs, fields⟩ := by
  induction cs generalizing field with
  | nil =>
      rw [List.append_nil]
      rfl
  | cons c cs ih =>
      simp only [List.mem_cons, not_or] at hcomma hlineFeed hcarriageReturn hnul
      rw [List.length_cons] at hlimit
      have hread : readChar ⟨.inField, field, fields⟩ c = .ok ⟨.inField, field ++ [c], fields⟩ := by
        have hbreak : isBreak c = false := by
          simp [isBreak, Ne.symm hlineFeed.1, Ne.symm hcarriageReturn.1]
        rw [readChar, if_neg (Ne.symm hnul.1), processChar]
        simp only [hbreak, Bool.false_eq_true, if_false, if_neg (Ne.symm hcomma.1)]
        exact addChar_of_lt (by show field.length < _; omega)
      rw [List.foldlM_cons, hread]
      show cs.foldlM readChar _ = _
      rw [ih hcomma.2 hlineFeed.2 hcarriageReturn.2 hnul.2 (by simp; omega), List.append_assoc,
        List.singleton_append]

/-- Before a field. -/
def AtStart (r : Reader) : Prop :=
  (r.state = .startRecord ∨ r.state = .startField) ∧ r.field = []

/-- A plain field is read up to its end. If it is empty, nothing has happened. -/
theorem foldlM_plain {r : Reader} (hr : r.AtStart) {field : String} (hplain : Plain field) :
    ∃ t, field.toList.foldlM readChar r = .ok t ∧ t.field = field.toList ∧ t.fields = r.fields ∧
      (t.state = .inField ∨ field = "" ∧ t = r) := by
  cases hcs : field.toList with
  | nil =>
      have hempty : field = "" := String.toList_injective hcs
      exact ⟨r, rfl, hr.2, rfl, .inr ⟨hempty, rfl⟩⟩
  | cons c cs =>
      obtain ⟨hlimit, hcomma, hquote, hlineFeed, hcarriageReturn, hnul⟩ := hplain
      rw [hcs] at hlimit hcomma hquote hlineFeed hcarriageReturn hnul
      simp only [List.mem_cons, not_or] at hcomma hquote hlineFeed hcarriageReturn hnul
      have hbreak : isBreak c = false := by
        simp [isBreak, Ne.symm hlineFeed.1, Ne.symm hcarriageReturn.1]
      have hstart : r.startField c = .ok ⟨.inField, [c], r.fields⟩ := by
        rw [startField]
        simp only [hbreak, Bool.false_eq_true, if_false, if_neg (Ne.symm hcomma.1),
          if_neg (Ne.symm hquote.1)]
        rw [addChar_of_lt (by rw [hr.2]; decide), hr.2]
        rfl
      have hread : readChar r c = .ok ⟨.inField, [c], r.fields⟩ := by
        rw [readChar, if_neg (Ne.symm hnul.1), processChar]
        rcases hr.1 with hstate | hstate
        · simpa [hstate, hbreak] using hstart
        · simpa [hstate] using hstart
      refine ⟨⟨.inField, c :: cs, r.fields⟩, ?_, rfl, rfl, .inl rfl⟩
      rw [List.foldlM_cons, hread]
      show cs.foldlM readChar _ = _
      rw [List.length_cons] at hlimit
      rw [foldlM_inField hcomma.2 hlineFeed.2 hcarriageReturn.2 hnul.2
        (by simp only [List.length_singleton]; omega), List.singleton_append]

/-- The fields of a line, one after another. The line of one empty field is an empty line. -/
theorem foldlM_joined {r : Reader} (hr : r.AtStart) {field : String} {fields : List String}
    (hplain : ∀ f ∈ field :: fields, Plain f)
    (hne : r.state = .startRecord → field :: fields ≠ [""]) :
    (joined (field :: fields) ++ ['\n']).foldlM readChar r =
      .ok ⟨.eatCrnl, [], r.fields ++ field :: fields⟩ := by
  induction fields generalizing r field with
  | nil =>
      obtain ⟨t, ht, hfield, hfields, hstate⟩ := foldlM_plain hr (hplain field (by simp))
      rw [joined_singleton, List.foldlM_append, ht]
      show readChar t '\n' >>= _ = _
      have hread : readChar t '\n' = .ok (t.saveField .eatCrnl) := by
        rcases hstate with hstate | ⟨rfl, rfl⟩
        · simp [readChar, processChar, hstate, isBreak]
        · have hstate : t.state = .startField :=
            hr.1.resolve_left fun h => hne h rfl
          simp [readChar, processChar, hstate, startField, isBreak]
      rw [hread, saveField, hfield, hfields, String.ofList_toList]
      rfl
  | cons next fields ih =>
      obtain ⟨hfirst, hrest⟩ := List.forall_mem_cons.mp hplain
      obtain ⟨t, ht, hfield, hfields, hstate⟩ := foldlM_plain hr hfirst
      rw [joined_cons_cons, List.append_assoc, List.foldlM_append, ht, List.cons_append]
      show (',' :: (joined (next :: fields) ++ ['\n'])).foldlM readChar t = _
      have hread : readChar t ',' = .ok (t.saveField .startField) := by
        rcases hstate with hstate | ⟨rfl, rfl⟩
        · simp [readChar, processChar, hstate, isBreak]
        · rcases hr.1 with hstate | hstate
          · simp [readChar, processChar, hstate, startField, isBreak]
          · simp [readChar, processChar, hstate, startField, isBreak]
      rw [List.foldlM_cons, hread]
      show (joined (next :: fields) ++ ['\n']).foldlM readChar (t.saveField .startField) = _
      rw [ih ⟨.inr rfl, rfl⟩ hrest (by intro h; cases h)]
      simp [saveField, hfield, hfields]

end Reader

/-- **Plain records.** A line of plain fields with commas between them is read as these fields,
whatever follows. -/
theorem first_joined {fields : List String} (hplain : ∀ field ∈ fields, Plain field)
    (hnil : fields ≠ []) (hempty : fields ≠ [""]) {lineBreak : List Char}
    (hbreak : IsLineBreak lineBreak) (rest : List Char) :
    first (String.ofList (joined fields ++ (lineBreak ++ rest))) = .ok (some fields) := by
  have hlineFeed : '\n' ∉ joined fields :=
    notMem_joined (by decide) fun field hfield => (hplain field hfield).lineFeed
  have hcarriageReturn : '\r' ∉ joined fields :=
    notMem_joined (by decide) fun field hfield => (hplain field hfield).carriageReturn
  have hlines : lines (universalNewlines (joined fields ++ (lineBreak ++ rest))) =
      (joined fields ++ ['\n']) :: lines (universalNewlines rest) := by
    have hone : universalNewlines (lineBreak ++ rest) = '\n' :: universalNewlines rest := by
      rcases hbreak with rfl | rfl
      · exact universalNewlines_append (s := ['\n']) (by decide) rest
      · rfl
    rw [universalNewlines_append hcarriageReturn, hone]
    exact lines_append hlineFeed _
  obtain ⟨field, fields, rfl⟩ := List.exists_cons_of_ne_nil hnil
  have hread : Reader.reset.readLine (joined (field :: fields) ++ ['\n']) =
      .ok ⟨.startRecord, [], field :: fields⟩ := by
    rw [Reader.readLine, Reader.foldlM_joined ⟨.inl rfl, rfl⟩ hplain fun _ => hempty]
    rfl
  rw [first, String.toList_ofList, hlines, Reader.next, hread]
  rfl

/-- Quotes hide a comma and a line break, and are doubled where they stand for themselves. -/
example : first "id,\"a \"\"b\"\",\nc\"\r\n1,2\n" =
    .ok (some ["id", "a \"b\",\nc"]) := by
  decide +kernel

end SecCask.Csv

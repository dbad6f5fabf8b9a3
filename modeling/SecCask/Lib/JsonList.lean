import SecCask.Lib.Json

/-!
# SecCask.Lib.JsonList

`json.dumps` of a list of strings, and `json.loads` where the text is an array of strings.
The reader takes whitespace between the tokens and both cases of hexadecimal digits. It gives
up where `json.loads` raises, at an element that is no string, and at a lone surrogate, which
no string here can hold.
-/

namespace SecCask.Json

/-! ### Writing -/

/-- Every element but the first is preceded by the separator. -/
def encodeTail : List String → List Char
  | [] => [']']
  | s :: l => ',' :: ' ' :: (encodeString s ++ encodeTail l)

def encodeList : List String → List Char
  | [] => ['[', ']']
  | s :: l => '[' :: (encodeString s ++ encodeTail l)

/-- `json.dumps(l)` -/
def dumpsList (l : List String) : String := String.ofList (encodeList l)

/-! ### Reading -/

def readHexDigit (c : Char) : Option ℕ :=
  if c.isDigit then some (c.toNat - 48)
  else if 'a' ≤ c ∧ c ≤ 'f' then some (c.toNat - 87)
  else if 'A' ≤ c ∧ c ≤ 'F' then some (c.toNat - 55)
  else none

def readHex4 : List Char → Option (ℕ × List Char)
  | a :: b :: c :: d :: s => do
      let a ← readHexDigit a
      let b ← readHexDigit b
      let c ← readHexDigit c
      let d ← readHexDigit d
      return (((a * 16 + b) * 16 + c) * 16 + d, s)
  | _ => none

/-- The character behind a backslash. -/
def simpleEscape (c : Char) : Option Char :=
  if c = '"' ∨ c = '\\' ∨ c = '/' then some c
  else if c = 'n' then some '\n'
  else if c = 'r' then some '\r'
  else if c = 't' then some '\t'
  else if c = 'f' then some (Char.ofNat 0x0C)
  else if c = 'b' then some (Char.ofNat 0x08)
  else none

/-- A character of a string literal, and the rest of the text. -/
def readChar : List Char → Option (Char × List Char)
  | [] => none
  | '\\' :: 'u' :: s => do
      let (n, s) ← readHex4 s
      if 0xD800 ≤ n ∧ n < 0xDC00 then
        match s with
        | '\\' :: 'u' :: s =>
            let (m, s) ← readHex4 s
            if 0xDC00 ≤ m ∧ m < 0xE000 then
              return (Char.ofNat (0x10000 + (n - 0xD800) * 1024 + (m - 0xDC00)), s)
            else none
        | _ => none
      else if 0xDC00 ≤ n ∧ n < 0xE000 then none
      else return (Char.ofNat n, s)
  | '\\' :: c :: s => (simpleEscape c).map (·, s)
  | c :: s => if c = '"' ∨ c = '\\' ∨ c.toNat < 0x20 then none else some (c, s)

/-- A string literal behind its opening quote, of fewer characters than the bound. -/
def readBody : ℕ → List Char → Option (List Char × List Char)
  | 0, _ => none
  | _ + 1, '"' :: r => some ([], r)
  | n + 1, s => do
      let (c, s) ← readChar s
      let (cs, r) ← readBody n s
      return (c :: cs, r)

def skipSpace (s : List Char) : List Char :=
  s.dropWhile fun c => c = ' ' || c = '\t' || c = '\n' || c = '\r'

/-- The elements of an array from one of them on, at most as many as the bound. -/
def readItems : ℕ → List Char → Option (List String)
  | n + 1, '"' :: s => do
      let (cs, s) ← readBody (s.length + 1) s
      match skipSpace s with
      | ',' :: s => (readItems n (skipSpace s)).map (String.ofList cs :: ·)
      | ']' :: s => if skipSpace s = [] then some [String.ofList cs] else none
      | _ => none
  | _, _ => none

/-- `json.loads(text)` -/
def loadsList (text : String) : Option (List String) :=
  match skipSpace text.toList with
  | '[' :: s =>
      match skipSpace s with
      | ']' :: s => if skipSpace s = [] then some [] else none
      | s => readItems (s.length + 1) s
  | _ => none

/-! ### Reading what was written -/

theorem readHexDigit_digitChar : ∀ d < 16, readHexDigit (Nat.digitChar d) = some d := by decide

theorem readHex4_hex4 {n : ℕ} (hn : n < 0x10000) (s : List Char) :
    readHex4 (hex4 n ++ s) = some (n, s) := by
  have hdigit : ∀ m, readHexDigit (Nat.digitChar (m % 16)) = some (m % 16) := fun m =>
    readHexDigit_digitChar _ (Nat.mod_lt _ (by decide))
  have hvalue : ((n / 4096 % 16 * 16 + n / 256 % 16) * 16 + n / 16 % 16) * 16 + n % 16 = n := by
    omega
  simp [hex4, readHex4, hdigit, hvalue]

theorem readChar_surrogates {n m : ℕ} (hn : 0xD800 ≤ n ∧ n < 0xDC00)
    (hm : 0xDC00 ≤ m ∧ m < 0xE000) (s : List Char) :
    readChar ('\\' :: 'u' :: (hex4 n ++ '\\' :: 'u' :: (hex4 m ++ s))) =
      some (Char.ofNat (0x10000 + (n - 0xD800) * 1024 + (m - 0xDC00)), s) := by
  have hfirst := readHex4_hex4 (n := n) (by omega)
  have hsecond := readHex4_hex4 (n := m) (by omega)
  simp only [readChar, hfirst, hsecond, Option.bind_eq_bind, Option.bind_some, if_pos hn,
    if_pos hm, Option.pure_def]

theorem readChar_escape (c : Char) (s : List Char) : readChar (escape c ++ s) = some (c, s) := by
  unfold escape
  split_ifs with h1 h2 h3 h4 h5 h6 h7 h8 h9
  · subst h1; rfl
  · subst h2; rfl
  · subst h3; rfl
  · subst h4; rfl
  · subst h5; rfl
  · rw [← eq_ofNat_of_toNat h6]; rfl
  · rw [← eq_ofNat_of_toNat h7]; rfl
  · have hlow : ¬ c.toNat < 0x20 := by omega
    rw [List.singleton_append, readChar]
    · simp [h1, h2, hlow]
    · intro _ h
      exact absurd h h2
    · intro _ _ h
      exact absurd h h2
  · have hs := toNat_not_surrogate c
    have hhigh : ¬ (0xD800 ≤ c.toNat ∧ c.toNat < 0xDC00) := by omega
    have hlow : ¬ (0xDC00 ≤ c.toNat ∧ c.toNat < 0xE000) := by omega
    simp only [List.cons_append, readChar, readHex4_hex4 h9]
    simp [hhigh, hlow]
  · have hlt := toNat_lt c
    have hvalue : 0x10000 + (0xD800 + (c.toNat - 0x10000) / 1024 - 0xD800) * 1024 +
        (0xDC00 + (c.toNat - 0x10000) % 1024 - 0xDC00) = c.toNat := by omega
    have hread := readChar_surrogates (n := 0xD800 + (c.toNat - 0x10000) / 1024)
      (m := 0xDC00 + (c.toNat - 0x10000) % 1024) (by omega) (by omega) s
    rw [hvalue, Char.ofNat_toNat] at hread
    simpa using hread

theorem readBody_escaped {n : ℕ} {cs : List Char} (hn : cs.length < n) (r : List Char) :
    readBody n (cs.flatMap escape ++ '"' :: r) = some (cs, r) := by
  induction cs generalizing n with
  | nil =>
      obtain ⟨n, rfl⟩ : ∃ m, n = m + 1 := ⟨n - 1, by simp at hn; omega⟩
      rfl
  | cons c cs ih =>
      rw [List.length_cons] at hn
      obtain ⟨n, rfl⟩ : ∃ m, n = m + 1 := ⟨n - 1, by omega⟩
      rw [List.flatMap_cons, List.append_assoc, readBody, readChar_escape]
      · simp [ih (show cs.length < n by omega)]
      · exact escape_ne_quote c _

theorem length_le_length_escaped (cs : List Char) : cs.length ≤ (cs.flatMap escape).length := by
  induction cs with
  | nil => simp
  | cons c cs ih =>
      have hc := List.length_pos_of_ne_nil (escape_ne_nil c)
      rw [List.flatMap_cons, List.length_append, List.length_cons]
      omega

theorem readBody_encodeString (s : String) (r : List Char) :
    readBody ((s.toList.flatMap escape ++ '"' :: r).length + 1)
      (s.toList.flatMap escape ++ '"' :: r) = some (s.toList, r) := by
  refine readBody_escaped ?_ r
  have hle := length_le_length_escaped s.toList
  rw [List.length_append]
  omega

theorem encodeString_append (s : String) (r : List Char) :
    encodeString s ++ r = '"' :: (s.toList.flatMap escape ++ '"' :: r) := by
  simp [encodeString]

theorem readItems_comma (n : ℕ) (s : String) {r t : List Char} (h : skipSpace r = ',' :: t) :
    readItems (n + 1) (encodeString s ++ r) = (readItems n (skipSpace t)).map (s :: ·) := by
  rw [encodeString_append, readItems, readBody_encodeString]
  simp only [Option.bind_eq_bind, Option.bind_some, h, String.ofList_toList]

theorem readItems_close (n : ℕ) (s : String) {r t : List Char} (h : skipSpace r = ']' :: t)
    (ht : skipSpace t = []) : readItems (n + 1) (encodeString s ++ r) = some [s] := by
  rw [encodeString_append, readItems, readBody_encodeString]
  simp only [Option.bind_eq_bind, Option.bind_some, h, ht, String.ofList_toList, if_true]

theorem readItems_encode {n : ℕ} {s : String} {l : List String} (hn : l.length < n) :
    readItems n (encodeString s ++ encodeTail l) = some (s :: l) := by
  induction l generalizing n s with
  | nil =>
      obtain ⟨n, rfl⟩ : ∃ m, n = m + 1 := ⟨n - 1, by simp at hn; omega⟩
      exact readItems_close n s rfl rfl
  | cons t l ih =>
      rw [List.length_cons] at hn
      obtain ⟨n, rfl⟩ : ∃ m, n = m + 1 := ⟨n - 1, by omega⟩
      rw [readItems_comma n s (t := ' ' :: (encodeString t ++ encodeTail l)) rfl]
      have htail := ih (s := t) (show l.length < n by omega)
      have hspace : skipSpace (' ' :: (encodeString t ++ encodeTail l)) =
          encodeString t ++ encodeTail l := rfl
      rw [hspace, htail]
      rfl

theorem length_le_length_encodeTail (l : List String) : l.length < (encodeTail l).length := by
  induction l with
  | nil => decide
  | cons s l ih =>
      simp only [encodeTail, List.length_cons, List.length_append]
      omega

/-- `json.loads(json.dumps(l)) == l` -/
theorem loadsList_dumpsList (l : List String) : loadsList (dumpsList l) = some l := by
  cases l with
  | nil => rfl
  | cons s l =>
      have hopen : skipSpace (dumpsList (s :: l)).toList =
          '[' :: (encodeString s ++ encodeTail l) := by
        rw [dumpsList, String.toList_ofList]
        rfl
      have hquote : skipSpace (encodeString s ++ encodeTail l) =
          encodeString s ++ encodeTail l := rfl
      have hitems : readItems ((encodeString s ++ encodeTail l).length + 1)
          (encodeString s ++ encodeTail l) = some (s :: l) := by
        refine readItems_encode ?_
        have hle := length_le_length_encodeTail l
        rw [List.length_append]
        omega
      rw [encodeString_append] at hopen hquote hitems
      rw [loadsList, hopen]
      simp only [hquote]
      exact hitems

end SecCask.Json

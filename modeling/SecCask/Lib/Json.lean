import SecCask.Lib.OrderedDict

/-!
# SecCask.Lib.Json

`json.dumps(d, sort_keys=True)` for a dictionary from strings to strings, with the
encoder's defaults: separators `", "` and `": "`, and everything outside printable ASCII
escaped. The encoding is prefix-free, so a hash of it followed by more text determines
the dictionary.
-/

namespace SecCask.Json

/-! ### Characters -/

/-- Four lowercase hexadecimal digits. -/
def hex4 (n : ℕ) : List Char :=
  [Nat.digitChar (n / 4096 % 16), Nat.digitChar (n / 256 % 16), Nat.digitChar (n / 16 % 16),
    Nat.digitChar (n % 16)]

/-- One character inside a string literal. Characters outside the basic plane become a
surrogate pair. -/
def escape (c : Char) : List Char :=
  if c = '"' then ['\\', '"']
  else if c = '\\' then ['\\', '\\']
  else if c = '\n' then ['\\', 'n']
  else if c = '\r' then ['\\', 'r']
  else if c = '\t' then ['\\', 't']
  else if c.toNat = 0x0C then ['\\', 'f']
  else if c.toNat = 0x08 then ['\\', 'b']
  else if 0x20 ≤ c.toNat ∧ c.toNat ≤ 0x7E then [c]
  else if c.toNat < 0x10000 then '\\' :: 'u' :: hex4 c.toNat
  else
    '\\' :: 'u' :: hex4 (0xD800 + (c.toNat - 0x10000) / 1024) ++
      '\\' :: 'u' :: hex4 (0xDC00 + (c.toNat - 0x10000) % 1024)

/-- The value of a hexadecimal digit. -/
def hexValue (c : Char) : ℕ := if c.isDigit then c.toNat - 48 else c.toNat - 87

def unhex4 (a b c d : Char) : ℕ :=
  ((hexValue a * 16 + hexValue b) * 16 + hexValue c) * 16 + hexValue d

/-- Reading one escaped character back, with the rest of the text. -/
def unescape : List Char → Option (Char × List Char)
  | '\\' :: 'u' :: a :: b :: c :: d :: s =>
      let n := unhex4 a b c d
      if 0xD800 ≤ n ∧ n < 0xDC00 then
        match s with
        | '\\' :: 'u' :: e :: f :: g :: h :: s =>
            some (Char.ofNat (0x10000 + (n - 0xD800) * 1024 + (unhex4 e f g h - 0xDC00)), s)
        | _ => none
      else some (Char.ofNat n, s)
  | '\\' :: 'n' :: s => some ('\n', s)
  | '\\' :: 'r' :: s => some ('\r', s)
  | '\\' :: 't' :: s => some ('\t', s)
  | '\\' :: 'f' :: s => some (Char.ofNat 0x0C, s)
  | '\\' :: 'b' :: s => some (Char.ofNat 0x08, s)
  | '\\' :: c :: s => some (c, s)
  | c :: s => some (c, s)
  | [] => none

theorem hexValue_digitChar : ∀ d < 16, hexValue (Nat.digitChar d) = d := by decide

theorem unhex4_hex4 {n : ℕ} (hn : n < 0x10000) :
    unhex4 (Nat.digitChar (n / 4096 % 16)) (Nat.digitChar (n / 256 % 16))
      (Nat.digitChar (n / 16 % 16)) (Nat.digitChar (n % 16)) = n := by
  have hdigit : ∀ m, hexValue (Nat.digitChar (m % 16)) = m % 16 := fun m =>
    hexValue_digitChar _ (Nat.mod_lt _ (by decide))
  simp only [unhex4, hdigit]
  omega

/-- No scalar value is a surrogate. -/
theorem toNat_not_surrogate (c : Char) : ¬ (0xD800 ≤ c.toNat ∧ c.toNat < 0xE000) := by
  rcases c.valid with h | h
  · have : c.toNat < 0xD800 := h
    omega
  · have : 0xDFFF < c.toNat := h.1
    omega

theorem toNat_lt (c : Char) : c.toNat < 0x110000 := by
  rcases c.valid with h | h
  · have : c.toNat < 0xD800 := h
    omega
  · exact h.2

theorem eq_ofNat_of_toNat {c : Char} {n : ℕ} (h : c.toNat = n) : Char.ofNat n = c := by
  rw [← h, Char.ofNat_toNat]

theorem unescape_plain {c : Char} (hc : c ≠ '\\') (s : List Char) :
    unescape (c :: s) = some (c, s) := by
  unfold unescape
  split <;> simp_all

theorem unescape_escape (c : Char) (s : List Char) :
    unescape (escape c ++ s) = some (c, s) := by
  unfold escape
  split_ifs with h1 h2 h3 h4 h5 h6 h7 h8 h9
  · subst h1; rfl
  · subst h2; rfl
  · subst h3; rfl
  · subst h4; rfl
  · subst h5; rfl
  · rw [← eq_ofNat_of_toNat h6]; rfl
  · rw [← eq_ofNat_of_toNat h7]; rfl
  · exact unescape_plain h2 s
  · have hs := toNat_not_surrogate c
    have hn := unhex4_hex4 h9
    have hlow : ¬ (0xD800 ≤ c.toNat ∧ c.toNat < 0xDC00) := by omega
    simp only [hex4, List.cons_append, List.nil_append, unescape, hn, if_neg hlow,
      Char.ofNat_toNat]
  · have hlt := toNat_lt c
    have hhigh := unhex4_hex4 (n := 0xD800 + (c.toNat - 0x10000) / 1024) (by omega)
    have hlow := unhex4_hex4 (n := 0xDC00 + (c.toNat - 0x10000) % 1024) (by omega)
    have hsur : 0xD800 ≤ 0xD800 + (c.toNat - 0x10000) / 1024 ∧
        0xD800 + (c.toNat - 0x10000) / 1024 < 0xDC00 := by omega
    have hvalue : 0x10000 + (0xD800 + (c.toNat - 0x10000) / 1024 - 0xD800) * 1024 +
        (0xDC00 + (c.toNat - 0x10000) % 1024 - 0xDC00) = c.toNat := by omega
    simp only [hex4, List.cons_append, List.nil_append, unescape, hhigh, hlow, if_pos hsur,
      hvalue, Char.ofNat_toNat]

theorem escape_ne_nil (c : Char) : escape c ≠ [] := by
  intro h
  have hread := unescape_escape c []
  rw [h] at hread
  cases hread

/-- An escaped character never begins with the closing quote. -/
theorem escape_ne_quote (c : Char) (s r : List Char) : escape c ++ s ≠ '"' :: r := by
  intro h
  have hquote := unescape_escape c s
  rw [h, unescape_plain (by decide)] at hquote
  obtain ⟨rfl, -⟩ : '"' = c ∧ r = s := by simpa using hquote
  simp [escape] at h

theorem escape_append_inj {c d : Char} {s r : List Char} (h : escape c ++ s = escape d ++ r) :
    c = d ∧ s = r := by
  have hread := congrArg unescape h
  rw [unescape_escape, unescape_escape] at hread
  simpa using hread

/-! ### Strings and dictionaries -/

/-- A string literal. -/
def encodeString (s : String) : List Char :=
  '"' :: (s.toList.flatMap escape ++ ['"'])

/-- `"key": "value"` -/
def encodeItem (item : String × String) : List Char :=
  encodeString item.1 ++ ':' :: ' ' :: encodeString item.2

/-- Every item but the first is preceded by the separator. -/
def encodeRest : List (String × String) → List Char
  | [] => []
  | item :: items => ',' :: ' ' :: encodeItem item ++ encodeRest items

def encodeItems : List (String × String) → List Char
  | [] => []
  | item :: items => encodeItem item ++ encodeRest items

/-- `sorted(d.items())` -/
def sortedItems (d : OrderedDict String String) : List (String × String) :=
  (d.entries.map fun e => (e.1, e.2)).mergeSort fun a b => decide (a.1 ≤ b.1)

/-- `json.dumps(d, sort_keys=True)` -/
def dumps (d : OrderedDict String String) : String :=
  String.ofList ('{' :: (encodeItems (sortedItems d) ++ ['}']))

theorem escaped_append_inj {s t : List Char} {r q : List Char}
    (h : s.flatMap escape ++ '"' :: r = t.flatMap escape ++ '"' :: q) : s = t ∧ r = q := by
  induction s generalizing t with
  | nil =>
      cases t with
      | nil => simpa using h
      | cons d t =>
          rw [List.flatMap_cons, List.append_assoc] at h
          exact absurd h.symm (escape_ne_quote _ _ _)
  | cons c s ih =>
      cases t with
      | nil =>
          rw [List.flatMap_cons, List.append_assoc] at h
          exact absurd h (escape_ne_quote _ _ _)
      | cons d t =>
          rw [List.flatMap_cons, List.flatMap_cons, List.append_assoc, List.append_assoc] at h
          obtain ⟨rfl, htail⟩ := escape_append_inj h
          obtain ⟨rfl, rfl⟩ := ih htail
          exact ⟨rfl, rfl⟩

theorem encodeString_append_inj {s t : String} {r q : List Char}
    (h : encodeString s ++ r = encodeString t ++ q) : s = t ∧ r = q := by
  have hbody : s.toList.flatMap escape ++ '"' :: r = t.toList.flatMap escape ++ '"' :: q := by
    simpa [encodeString] using h
  obtain ⟨hst, hrq⟩ := escaped_append_inj hbody
  exact ⟨String.toList_injective hst, hrq⟩

theorem encodeItem_append_inj {a b : String × String} {r q : List Char}
    (h : encodeItem a ++ r = encodeItem b ++ q) : a = b ∧ r = q := by
  simp only [encodeItem, List.append_assoc, List.cons_append] at h
  obtain ⟨hkey, hrest⟩ := encodeString_append_inj h
  obtain ⟨hvalue, htail⟩ := encodeString_append_inj (List.cons.inj (List.cons.inj hrest).2).2
  exact ⟨Prod.ext hkey hvalue, htail⟩

theorem encodeRest_append_inj {l m : List (String × String)} {r q : List Char}
    (h : encodeRest l ++ '}' :: r = encodeRest m ++ '}' :: q) : l = m ∧ r = q := by
  induction l generalizing m with
  | nil =>
      cases m with
      | nil => simpa [encodeRest] using h
      | cons b m => simp [encodeRest] at h
  | cons a l ih =>
      cases m with
      | nil => simp [encodeRest] at h
      | cons b m =>
          simp only [encodeRest, List.cons_append, List.append_assoc, List.cons.injEq,
            true_and] at h
          obtain ⟨rfl, htail⟩ := encodeItem_append_inj h
          obtain ⟨rfl, rfl⟩ := ih htail
          exact ⟨rfl, rfl⟩

theorem encodeItem_ne_brace (a : String × String) (s r : List Char) :
    encodeItem a ++ s ≠ '}' :: r := by
  simp [encodeItem, encodeString]

/-- The encoding ends where its closing brace stands, whatever follows. -/
theorem encodeItems_append_inj {l m : List (String × String)} {r q : List Char}
    (h : encodeItems l ++ '}' :: r = encodeItems m ++ '}' :: q) : l = m ∧ r = q := by
  cases l with
  | nil =>
      cases m with
      | nil => simpa [encodeItems] using h
      | cons b m =>
          rw [encodeItems, encodeItems, List.append_assoc] at h
          exact absurd h.symm (encodeItem_ne_brace _ _ _)
  | cons a l =>
      cases m with
      | nil =>
          rw [encodeItems, encodeItems, List.append_assoc] at h
          exact absurd h (encodeItem_ne_brace _ _ _)
      | cons b m =>
          simp only [encodeItems, List.append_assoc] at h
          obtain ⟨rfl, htail⟩ := encodeItem_append_inj h
          obtain ⟨rfl, rfl⟩ := encodeRest_append_inj htail
          exact ⟨rfl, rfl⟩

/-- Dictionaries with one encoding have the same entries, up to their order. -/
theorem entries_perm_of_dumps_append {d e : OrderedDict String String} {r q : String}
    (h : dumps d ++ r = dumps e ++ q) : d.entries.Perm e.entries := by
  have hlist := congrArg String.toList h
  simp only [dumps, String.toList_append, String.toList_ofList, List.cons_append,
    List.append_assoc, List.nil_append, List.cons.injEq, true_and] at hlist
  obtain ⟨hitems, -⟩ := encodeItems_append_inj hlist
  have hperm : (d.entries.map fun e => (e.1, e.2)).Perm (e.entries.map fun e => (e.1, e.2)) := by
    have hd := List.mergeSort_perm (d.entries.map fun e => (e.1, e.2))
      fun a b => decide (a.1 ≤ b.1)
    have he := List.mergeSort_perm (e.entries.map fun e => (e.1, e.2))
      fun a b => decide (a.1 ≤ b.1)
    rw [sortedItems, sortedItems] at hitems
    exact hd.symm.trans (hitems ▸ he)
  have hback := hperm.map fun item : String × String => (⟨item.1, item.2⟩ : Sigma fun _ => String)
  simpa [Function.comp_def] using hback

theorem lookup_eq_of_dumps_append {d e : OrderedDict String String} {r q : String}
    (h : dumps d ++ r = dumps e ++ q) (key : String) : d.lookup key = e.lookup key :=
  AList.perm_lookup (entries_perm_of_dumps_append h)

end SecCask.Json

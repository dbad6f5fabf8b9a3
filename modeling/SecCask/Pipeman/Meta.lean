import SecCask.Pipeman.Version

/-!
# SecCask.Pipeman.Meta

`MetaKey` of `pipeman/meta.py`: the key of a dataset, library or workspace, and its string
forms. Keys are compared by their fields (`MetaKey.__eq__`), so that a key is a value here.
-/

namespace SecCask.Pipeman

open Regex

structure MetaKey where
  componentType : String
  componentName : String
  componentVersion : SemanticVersion
  deriving DecidableEq, Repr

namespace MetaKey

def genericDatasetKey : String := "dataset"

def genericLibraryKey : String := "library"

def genericWorkspaceKey : String := "workspace"

/-- `key.to_string(with_version=True)` -/
def toStringWithVersion (k : MetaKey) : String :=
  k.componentType ++ "::" ++ k.componentName ++ "::" ++ k.componentVersion.versionStr

/-- `key.to_string(with_version=False)` -/
def toStringWithoutVersion (k : MetaKey) : String :=
  k.componentType ++ "::" ++ k.componentName

/-- `::(\S+)` in front of a pattern. -/
def sepGroup (pattern : List Atom) : List Atom :=
  .lit ':' :: .lit ':' :: .group notSpace :: pattern

/-- `(\S+)\:\:(\S+)\:\:(\S+)\.(\d+)\.(\d+)` -/
def keyPattern : List Atom :=
  .group notSpace :: sepGroup (sepGroup SemanticVersion.numbersPattern)

/-- `MetaKey.build_from_string(s, with_version=True)`; `none` where it raises
`ValueError`. -/
def buildFromString (s : String) : Option MetaKey :=
  match captures keyPattern s.toList with
  | some [type, name, branch, api, inc] =>
      some ⟨String.ofList type, String.ofList name,
        ⟨String.ofList branch, toInt api, toInt inc⟩⟩
  | _ => none

/-! ### Reading printed keys -/

theorem toList_toStringWithVersion (k : MetaKey) :
    k.toStringWithVersion.toList = k.componentType.toList ++ (':' :: ':' ::
      (k.componentName.toList ++ (':' :: ':' :: (k.componentVersion.branch.toList ++
        SemanticVersion.numbers k.componentVersion.apiVersion
          k.componentVersion.incVersion)))) := by
  simp [toStringWithVersion, SemanticVersion.toList_versionStr]

/-- With the branch known, a printed key says its numbers, and its type and name together. -/
theorem toStringWithVersion_inj_of_branch {k l : MetaKey}
    (hbranch : k.componentVersion.branch = l.componentVersion.branch)
    (h : k.toStringWithVersion = l.toStringWithVersion) :
    k.componentVersion = l.componentVersion ∧
      k.toStringWithoutVersion = l.toStringWithoutVersion := by
  have hlist := congrArg String.toList h
  rw [toList_toStringWithVersion, toList_toStringWithVersion, hbranch] at hlist
  simp only [← List.cons_append, ← List.append_assoc] at hlist
  obtain ⟨hfront, hapi, hinc⟩ := SemanticVersion.append_numbers_inj hlist
  refine ⟨?_, ?_⟩
  · cases hk : k.componentVersion
    cases hl : l.componentVersion
    simp_all
  · have hnames : k.toStringWithoutVersion.toList ++
        (':' :: ':' :: l.componentVersion.branch.toList)
        = l.toStringWithoutVersion.toList ++ (':' :: ':' :: l.componentVersion.branch.toList) := by
      simpa [toStringWithoutVersion] using hfront
    exact String.toList_injective (List.append_cancel_right hnames)

/-- A match of separated groups and a version's numbers, in front of anything. -/
inductive Matches : ℕ → List Char → Prop
  | numbers {api inc r : List Char} :
      api ≠ [] → (∀ c ∈ api, isDecimal c = true) → inc ≠ [] → (∀ c ∈ inc, isDecimal c = true) →
      Matches 0 ('.' :: (api ++ '.' :: (inc ++ r)))
  | sep {n : ℕ} {g s : List Char} :
      g ≠ [] → (∀ c ∈ g, notSpace c = true) → Matches n s → Matches (n + 1) (':' :: ':' :: (g ++ s))

/-- The pattern of `n` separated groups and a version's numbers. -/
def groupsPattern : ℕ → List Atom
  | 0 => SemanticVersion.numbersPattern
  | n + 1 => sepGroup (groupsPattern n)

theorem captures_ne_none_iff {n : ℕ} {s : List Char} :
    captures (groupsPattern n) s ≠ none ↔ Matches n s := by
  constructor
  · intro h
    obtain ⟨gs, hgs⟩ := Option.ne_none_iff_exists'.mp h
    obtain ⟨hfits, rest, rfl⟩ := captures_sound hgs
    clear h hgs
    induction n generalizing gs with
    | zero =>
        obtain _ | ⟨api, _ | ⟨inc, gs⟩⟩ := gs
        · exact hfits.elim
        · exact hfits.2.2.elim
        · obtain ⟨hapi, hapiAll, hinc, hincAll, rfl⟩ := hfits
          simpa [groupsPattern, SemanticVersion.numbersPattern, render] using
            Matches.numbers (r := rest) hapi hapiAll hinc hincAll
    | succ n ih =>
        obtain _ | ⟨g, gs⟩ := gs
        · exact hfits.elim
        · obtain ⟨hg, hall, hfits⟩ := hfits
          simpa [groupsPattern, sepGroup, render] using Matches.sep hg hall (ih gs hfits)
  · intro h
    induction h with
    | @numbers api inc rest hapi hapiAll hinc hincAll =>
        have hfits : Fits (groupsPattern 0) [api, inc] := ⟨hapi, hapiAll, hinc, hincAll, rfl⟩
        have hcomplete := captures_complete hfits rest
        simpa [groupsPattern, SemanticVersion.numbersPattern, render] using hcomplete
    | @sep n g s hg hall _ ih =>
        obtain ⟨gs, hgs⟩ := Option.ne_none_iff_exists'.mp ih
        obtain ⟨hfits, rest, rfl⟩ := captures_sound hgs
        have hfits : Fits (groupsPattern (n + 1)) (g :: gs) := ⟨hg, hall, hfits⟩
        have hcomplete := captures_complete hfits rest
        simpa [groupsPattern, sepGroup, render] using hcomplete

theorem notMem_numbers {c : Char} (hdot : c ≠ '.') (hdigit : c.isDigit = false) (api inc : ℕ) :
    c ∉ SemanticVersion.numbers api inc := by
  have hdigits : ∀ n : ℕ, c ∉ n.repr.toList := fun n hn => by
    rw [isDigit_of_mem_repr hn] at hdigit
    cases hdigit
  rw [SemanticVersion.numbers, List.mem_cons, List.mem_append, List.mem_cons]
  rintro (h | h | h | h)
  · exact hdot h
  · exact hdigits api h
  · exact hdot h
  · exact hdigits inc h

theorem notMem_colon_numbers (api inc : ℕ) : ':' ∉ SemanticVersion.numbers api inc :=
  notMem_numbers (by decide) (by decide) api inc

theorem count_dot_numbers (api inc : ℕ) : (SemanticVersion.numbers api inc).count '.' = 2 := by
  rw [SemanticVersion.numbers, List.count_cons_self, List.count_append, List.count_cons_self,
    SemanticVersion.count_dot_repr, SemanticVersion.count_dot_repr]

theorem two_le_count_dot {n : ℕ} {s : List Char} (h : Matches n s) : 2 ≤ s.count '.' := by
  induction h with
  | numbers =>
      simp only [List.count_cons_self, List.count_append]
      omega
  | sep _ _ _ ih =>
      refine ih.trans ?_
      rw [List.count_cons, List.count_cons, List.count_append]
      omega

/-- A match whose separators all lie in front of a version's printed numbers stays a match
with any other numbers in their place. -/
theorem Matches.swap {n api inc : ℕ} {z x : List Char} (hz : ∀ c ∈ z, notSpace c = true)
    (hx : Matches 0 x) (h : Matches (n + 1) (z ++ SemanticVersion.numbers api inc)) :
    Matches (n + 1) (z ++ x) := by
  induction n generalizing z with
  | zero =>
      generalize hw : z ++ SemanticVersion.numbers api inc = w at h
      cases h with
      | @sep _ g s hg _ hs =>
          match z with
          | [] => simp [SemanticVersion.numbers] at hw
          | [c] => simp [SemanticVersion.numbers] at hw
          | c :: d :: z =>
              obtain ⟨rfl, rfl, hzs⟩ : c = ':' ∧ d = ':' ∧
                  z ++ SemanticVersion.numbers api inc = g ++ s := by simpa using hw
              refine Matches.sep ?_ (fun c hc => hz c (by simp [hc])) hx
              -- Were the group empty, a dot of the numbers would have to lie in it.
              intro heq
              subst heq
              have hcount := congrArg (List.count '.') hzs
              rw [List.nil_append, count_dot_numbers, List.count_append] at hcount
              have htwo := two_le_count_dot hs
              cases g with
              | nil => exact hg rfl
              | cons c g =>
                  obtain ⟨rfl, -⟩ : '.' = c ∧ _ := by
                    simpa [SemanticVersion.numbers] using hzs
                  rw [List.count_cons_self] at hcount
                  omega
  | succ n ih =>
      generalize hw : z ++ SemanticVersion.numbers api inc = w at h
      cases h with
      | @sep _ g s hg hall hs =>
          match z with
          | [] => simp [SemanticVersion.numbers] at hw
          | [c] => simp [SemanticVersion.numbers] at hw
          | c :: d :: z =>
              obtain ⟨rfl, rfl, hzs⟩ : c = ':' ∧ d = ':' ∧
                  z ++ SemanticVersion.numbers api inc = g ++ s := by simpa using hw
              rcases List.append_eq_append_iff.mp hzs with ⟨g', rfl, hs'⟩ | ⟨z', rfl, rfl⟩
              · have hcolon : ':' ∈ s := by
                  cases hs
                  simp
                exact absurd (hs' ▸ List.mem_append_right g' hcolon)
                  (notMem_colon_numbers api inc)
              · have htail := ih (fun c hc => hz c (by simp [hc])) hs
                simpa using Matches.sep hg hall htail

/-- A longest match stays the longest when the numbers behind it are printed anew. -/
theorem captures_drop_numbers {n : ℕ} (api inc : ℕ) {z x : List Char}
    (hz : ∀ c ∈ z, notSpace c = true)
    (hx : Matches 0 x)
    (hlonger : ∀ k, 0 < k → k ≤ ((z ++ x).takeWhile notSpace).length →
      captures (groupsPattern (n + 1)) ((z ++ x).drop k) = none) {k : ℕ} (hk : 0 < k) :
    captures (groupsPattern (n + 1)) ((z ++ SemanticVersion.numbers api inc).drop k) = none := by
  by_contra hsome
  have hmatch := captures_ne_none_iff.mp hsome
  by_cases hle : k ≤ z.length
  · rw [List.drop_append_of_le_length hle] at hmatch
    have hswap := Matches.swap (fun c hc => hz c (List.mem_of_mem_drop hc)) hx hmatch
    rw [← List.drop_append_of_le_length hle] at hswap
    refine captures_ne_none_iff.mpr hswap (hlonger k hk ?_)
    rw [List.takeWhile_append_of_pos hz, List.length_append]
    omega
  · rw [List.drop_append, List.drop_eq_nil_of_le (by omega), List.nil_append] at hmatch
    generalize hw : (SemanticVersion.numbers api inc).drop (k - z.length) = w at hmatch
    cases hmatch with
    | sep =>
        have hcolon : ':' ∈ (SemanticVersion.numbers api inc).drop (k - z.length) := by
          rw [hw]
          simp
        exact notMem_colon_numbers api inc (List.mem_of_mem_drop hcolon)

theorem captures_sepGroup_inv {pattern : List Atom} {s : List Char} {gs : List (List Char)}
    (h : captures (sepGroup pattern) s = some gs) :
    ∃ g r gs', s = ':' :: ':' :: (g ++ r) ∧ gs = g :: gs' ∧ g ≠ [] ∧
      (∀ c ∈ g, notSpace c = true) ∧ captures pattern r = some gs' ∧
      ∀ k, 0 < k → k ≤ (r.takeWhile notSpace).length → captures pattern (r.drop k) = none := by
  match s with
  | [] => simp [sepGroup, captures] at h
  | [c] => simp [sepGroup, captures] at h
  | c :: d :: s =>
      obtain ⟨rfl, rfl, hgroup⟩ : c = ':' ∧ d = ':' ∧
          captures (.group notSpace :: pattern) s = some gs := by
        simpa [sepGroup, captures] using h
      obtain ⟨g, r, gs', rfl, rfl, hg, hall, hr, hlonger⟩ := captures_group_inv hgroup
      exact ⟨g, r, gs', rfl, rfl, hg, hall, hr, hlonger⟩

theorem captures_sepGroup {pattern : List Atom} {g r : List Char} {gs : List (List Char)}
    (hg : g ≠ []) (hall : ∀ c ∈ g, notSpace c = true) (hr : captures pattern r = some gs)
    (hlonger : ∀ k, 0 < k → captures pattern (r.drop k) = none) :
    captures (sepGroup pattern) (':' :: ':' :: (g ++ r)) = some (g :: gs) := by
  simpa [sepGroup, captures] using captures_group_of_longest hg hall hr hlonger

/-- **Keys that were read read back.** Whatever separators its fields contain, a key that
came from a string is what its own printed form reads as. -/
theorem buildFromString_toStringWithVersion {s : String} {k : MetaKey}
    (h : buildFromString s = some k) : buildFromString k.toStringWithVersion = some k := by
  unfold buildFromString at h
  split at h
  · rename_i type name branch api inc hcaptures
    obtain rfl := Option.some.inj h
    obtain ⟨t, r₀, gs₀, -, hgs₀, htype, htypeAll, hr₀, hlonger₀⟩ := captures_group_inv hcaptures
    obtain ⟨rfl, rfl⟩ := List.cons.inj hgs₀
    obtain ⟨n, r₁, gs₁, rfl, hgs₁, hname, hnameAll, hr₁, hlonger₁⟩ := captures_sepGroup_inv hr₀
    obtain ⟨rfl, rfl⟩ := List.cons.inj hgs₁
    obtain ⟨b, r₂, gs₂, rfl, hgs₂, hbranch, hbranchAll, hr₂, -⟩ := captures_sepGroup_inv hr₁
    obtain ⟨rfl, rfl⟩ := List.cons.inj hgs₂
    have hx : Matches 0 r₂ :=
      captures_ne_none_iff.mp (by simp [groupsPattern, hr₂])
    have hbranchGroup := captures_sepGroup hbranch hbranchAll
      (SemanticVersion.captures_numbers (toInt api) (toInt inc))
      (fun k hk => SemanticVersion.captures_numbers_drop (toInt api) (toInt inc) hk)
    have hcolon : notSpace ':' = true := by decide
    have hzBranch : ∀ c ∈ ':' :: ':' :: branch, notSpace c = true :=
      List.forall_mem_cons.mpr ⟨hcolon, List.forall_mem_cons.mpr ⟨hcolon, hbranchAll⟩⟩
    have hnameGroup := captures_sepGroup hname hnameAll hbranchGroup
      (fun k hk => captures_drop_numbers (n := 0) _ _ hzBranch hx hlonger₁ hk)
    have hzName : ∀ c ∈ ':' :: ':' :: (name ++ ':' :: ':' :: branch), notSpace c = true :=
      List.forall_mem_cons.mpr ⟨hcolon, List.forall_mem_cons.mpr
        ⟨hcolon, List.forall_mem_append.mpr ⟨hnameAll, hzBranch⟩⟩⟩
    have hlonger : ∀ k, 0 < k → captures (sepGroup (sepGroup SemanticVersion.numbersPattern))
        ((':' :: ':' :: (name ++ (':' :: ':' :: (branch ++
          SemanticVersion.numbers (toInt api) (toInt inc))))).drop k) = none := by
      intro k hk
      have hdrop := captures_drop_numbers (n := 1) (toInt api) (toInt inc) hzName hx
        (by simpa [groupsPattern] using hlonger₀) hk
      simpa [groupsPattern] using hdrop
    have hkey := captures_group_of_longest htype htypeAll hnameGroup hlonger
    rw [buildFromString, toList_toStringWithVersion]
    simp only [String.toList_ofList, keyPattern, hkey, toInt_repr]
  · cases h

end MetaKey

end SecCask.Pipeman

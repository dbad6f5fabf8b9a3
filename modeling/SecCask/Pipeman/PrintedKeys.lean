import Mathlib.Algebra.Order.BigOperators.Group.List
import Mathlib.Algebra.Order.Group.Nat
import Mathlib.Algebra.Ring.Nat
import SecCask.Lib.Interpolation
import SecCask.Lib.JsonList
import SecCask.Pipeman.WorkspaceMeta

/-!
# SecCask.Pipeman.PrintedKeys

Versions and keys read back from their strings, and so does the list of keys that
`WorkspaceMeta.pipeline` keeps as a JSON text in the config. The config interpolates: a key
with a percent sign is refused by the setter, or changed by the getter.
-/

namespace SecCask.Pipeman

open Regex

namespace MetaKey

/-! ### Keys -/

/-- A field that the separator does not occur in, nor run into. -/
structure Separable (field : String) : Prop where
  notInfix : ¬ [':', ':'] <:+: field.toList
  notHead : field.toList.head? ≠ some ':'

/-- Every field is what `(\S+)` can capture, and the type is all that stands in front of the
last two separators. -/
structure Printable (k : MetaKey) : Prop where
  type_ne : k.componentType ≠ ""
  type_noSpace : noSpace k.componentType = true
  name_ne : k.componentName ≠ ""
  name_noSpace : noSpace k.componentName = true
  name_separable : Separable k.componentName
  branchOk : SemanticVersion.BranchOk k.componentVersion.branch
  branch_separable : Separable k.componentVersion.branch

theorem toList_ne_nil {s : String} (hs : s ≠ "") : s.toList ≠ [] := fun hnil =>
  hs (String.toList_injective hnil)

/-- A match of a separated group starts with the separator, and goes on with the pattern. -/
theorem eq_of_captures_sepGroup {pattern : List Atom} {s : List Char}
    (h : captures (sepGroup pattern) s ≠ none) :
    ∃ g r, s = ':' :: ':' :: (g ++ r) ∧ captures pattern r ≠ none := by
  obtain ⟨gs, hgs⟩ := Option.ne_none_iff_exists'.mp h
  obtain ⟨g, r, gs', hs, -, -, -, hr, -⟩ := captures_sepGroup_inv hgs
  exact ⟨g, r, hs, by simp [hr]⟩

section Tail

variable {branch : String} {api inc : ℕ}

/-- The numbers of a version add no separator. -/
theorem not_infix_append_numbers (hbranch : Separable branch) :
    ¬ [':', ':'] <:+: branch.toList ++ SemanticVersion.numbers api inc := by
  intro hex
  obtain ⟨a, b, hab⟩ := hex
  rw [List.append_eq_append_iff] at hab
  obtain ⟨c, hfront, -⟩ | ⟨c, hfront, hback⟩ := hab
  · exact hbranch.notInfix ⟨a, c, hfront.symm⟩
  · -- The separator would end among the numbers.
    rcases List.eq_nil_or_concat c with rfl | ⟨d, e, rfl⟩
    · exact hbranch.notInfix ⟨a, [], by simpa using hfront⟩
    · have hlast : e = ':' := by
        have hcongr := congrArg List.getLast? hfront
        simpa using hcongr.symm
      exact notMem_colon_numbers api inc (by rw [hback, hlast]; simp)

theorem head_append_numbers (hne : branch ≠ "") (hbranch : Separable branch) :
    (branch.toList ++ SemanticVersion.numbers api inc).head? ≠ some ':' := by
  rw [List.head?_append_of_ne_nil _ (toList_ne_nil hne)]
  exact hbranch.notHead

end Tail

/-- No separator follows the one in front of a text without any. -/
theorem captures_drop_sep {pattern : List Atom} {tail : List Char} (hnosep : ¬ [':', ':'] <:+: tail)
    (hhead : tail.head? ≠ some ':') {k : ℕ} (hk : 0 < k) :
    captures (sepGroup pattern) ((':' :: ':' :: tail).drop k) = none := by
  by_contra hsome
  obtain ⟨g, r, hdrop, -⟩ := eq_of_captures_sepGroup hsome
  obtain ⟨k, rfl⟩ : ∃ j, k = j + 1 := ⟨k - 1, by omega⟩
  cases k with
  | zero =>
      obtain ⟨-, htail⟩ := List.cons.inj (show ':' :: tail = ':' :: ':' :: (g ++ r) from hdrop)
      exact hhead (by rw [htail]; rfl)
  | succ k =>
      refine hnosep ⟨tail.take k, g ++ r, ?_⟩
      have hsplit := List.take_append_drop k tail
      rw [show tail.drop k = ':' :: ':' :: (g ++ r) from hdrop] at hsplit
      simpa using hsplit

/-- Behind the separator in front of the name there is only one more. -/
theorem captures_drop_name {pattern : List Atom} {name tail : List Char}
    (hname : ¬ [':', ':'] <:+: name) (hnameHead : name.head? ≠ some ':')
    (hnosep : ¬ [':', ':'] <:+: tail) (hhead : tail.head? ≠ some ':') {k : ℕ} (hk : 0 < k) :
    captures (sepGroup (sepGroup pattern)) ((':' :: ':' :: (name ++ ':' :: ':' :: tail)).drop k) =
      none := by
  by_contra hsome
  obtain ⟨g, r, hdrop, hrest⟩ := eq_of_captures_sepGroup hsome
  obtain ⟨g', t, rfl, -⟩ := eq_of_captures_sepGroup hrest
  obtain ⟨k, rfl⟩ : ∃ j, k = j + 1 := ⟨k - 1, by omega⟩
  rw [List.drop_succ_cons] at hdrop
  have hsplit := List.take_append_drop k ((':' :: name) ++ ':' :: ':' :: tail)
  generalize List.take k ((':' :: name) ++ ':' :: ':' :: tail) = front at hsplit
  rw [List.cons_append, hdrop] at hsplit
  have hcolonName : ¬ [':', ':'] <:+: ':' :: name := by
    rw [List.infix_cons_iff, List.cons_prefix_cons]
    rintro (⟨-, hprefix⟩ | hmem)
    · obtain ⟨rest, rfl⟩ := hprefix
      exact hnameHead rfl
    · exact hname hmem
  have hshape : (front ++ ':' :: ':' :: g) ++ ':' :: ':' :: (g' ++ t) =
      (':' :: name) ++ ':' :: ':' :: tail := by simpa using hsplit
  rcases List.append_eq_append_iff.mp hshape with ⟨c, hc, -⟩ | ⟨c, hc, htail⟩
  · -- The first separator would lie within the name.
    exact hcolonName ⟨front, g ++ c, by simpa using hc.symm⟩
  · -- The second one would lie behind the one in front of the tail.
    match c with
    | [] => exact hcolonName ⟨front, g, by simpa using hc⟩
    | [x] =>
        obtain ⟨-, htail⟩ := List.cons.inj htail
        obtain ⟨-, htail⟩ := List.cons.inj htail
        exact hhead (by rw [htail]; rfl)
    | x :: y :: c =>
        obtain ⟨-, htail⟩ := List.cons.inj htail
        obtain ⟨-, htail⟩ := List.cons.inj htail
        exact hnosep ⟨c, g' ++ t, by simpa using htail.symm⟩

/-- **Printed keys read back.** The type may hold anything but whitespace. -/
theorem buildFromString_of_printable {k : MetaKey} (hk : Printable k) :
    buildFromString k.toStringWithVersion = some k := by
  let v := k.componentVersion
  have hnosep := @not_infix_append_numbers _ v.apiVersion v.incVersion hk.branch_separable
  have hhead := @head_append_numbers _ v.apiVersion v.incVersion hk.branchOk.1
    hk.branch_separable
  have hbranch := captures_sepGroup (toList_ne_nil hk.branchOk.1) (noSpace_iff.mp hk.branchOk.2)
    (SemanticVersion.captures_numbers v.apiVersion v.incVersion)
    (fun j hj => SemanticVersion.captures_numbers_drop v.apiVersion v.incVersion hj)
  have hname := captures_sepGroup (toList_ne_nil hk.name_ne) (noSpace_iff.mp hk.name_noSpace)
    hbranch (fun j hj => captures_drop_sep hnosep hhead hj)
  have hkey := captures_group_of_longest (toList_ne_nil hk.type_ne) (noSpace_iff.mp hk.type_noSpace)
    hname (fun j hj => captures_drop_name hk.name_separable.notInfix hk.name_separable.notHead
      hnosep hhead hj)
  rw [buildFromString, toList_toStringWithVersion, keyPattern, hkey]
  simp only [String.ofList_toList, toInt_repr]
  rfl

theorem toStringWithVersion_injOn {k l : MetaKey} (hk : Printable k) (hl : Printable l)
    (h : k.toStringWithVersion = l.toStringWithVersion) : k = l := by
  have hread := buildFromString_of_printable hk
  rw [h, buildFromString_of_printable hl] at hread
  exact (Option.some.inj hread).symm

/-- What is read has its percent signs from the string. -/
theorem count_percent_of_buildFromString {s : String} {k : MetaKey}
    (h : buildFromString s = some k) :
    k.toStringWithVersion.toList.count '%' ≤ s.toList.count '%' := by
  unfold buildFromString at h
  split at h
  · rename_i type name branch api inc hcaptures
    obtain rfl := Option.some.inj h
    obtain ⟨-, rest, hs⟩ := captures_sound hcaptures
    have hnumbers := notMem_numbers (c := '%') (by decide) (by decide) (toInt api) (toInt inc)
    rw [hs, toList_toStringWithVersion]
    simp only [keyPattern, sepGroup, SemanticVersion.numbersPattern, render, String.toList_ofList,
      List.count_append, List.count_cons, List.count_eq_zero.mpr hnumbers]
    omega
  · cases h

end MetaKey

/-! ### The pipeline of a workspace -/

namespace WorkspaceMeta

open ConfigParser

/-- `META_REF_PIPELINE` -/
def metaRefPipeline : String := "pipeline"

/-- What a `configparser` error is to the code around it. -/
def pyError : ConfigError → PyError
  | .invalidValue => .valueError
  | .noOption => .noOptionError
  | .interpolationSyntax | .interpolationMissingOption | .interpolationDepth => .interpolationError

/-- `workspace.pipeline = val`, on the section `reference`. -/
def setPipeline (reference : Section) (val : List MetaKey) : Except PyError Section :=
  (reference.set metaRefPipeline (Json.dumpsList (val.map (·.toStringWithVersion)))).mapError
    pyError

/-- `json.loads(text)` -/
def loadStrings (text : String) : Except PyError (List String) :=
  match Json.loadsList text with
  | none => .error .valueError
  | some strList => .ok strList

/-- `MetaKey.build_from_string(value=str_val, with_version=True)` -/
def buildKey (strVal : String) : Except PyError MetaKey :=
  match MetaKey.buildFromString strVal with
  | none => .error .valueError
  | some key => .ok key

/-- `workspace.pipeline` -/
def getPipeline (reference : Section) : Except PyError (List MetaKey) := do
  let text ← (reference.get metaRefPipeline).mapError pyError
  let strList ← loadStrings text
  strList.mapM buildKey

/-- The pipeline can be set, and what is read back is what was set. -/
def ReadsBack (reference : Section) (pipeline : List MetaKey) : Prop :=
  ∃ reference', setPipeline reference pipeline = .ok reference' ∧
    getPipeline reference' = .ok pipeline

/-! ### Percent signs in JSON texts -/

theorem notMem_percent_escape {c : Char} (hc : c ≠ '%') : '%' ∉ Json.escape c := by
  have hdigit : ∀ m, '%' ≠ Nat.digitChar (m % 16) := fun m =>
    (show ∀ d < 16, '%' ≠ Nat.digitChar d by decide) _ (Nat.mod_lt _ (by decide))
  have hhex : ∀ n, '%' ∉ Json.hex4 n := fun n => by
    simp [Json.hex4, hdigit]
  unfold Json.escape
  split_ifs
  · decide
  · decide
  · decide
  · decide
  · decide
  · decide
  · decide
  · exact fun h => hc (List.mem_singleton.mp h).symm
  · simp [hhex]
  · simp [hhex]

theorem count_percent_escape (c : Char) : (Json.escape c).count '%' = [c].count '%' := by
  by_cases hc : c = '%'
  · subst hc
    rfl
  · rw [List.count_eq_zero.mpr (notMem_percent_escape hc), List.count_singleton]
    simp [hc]

theorem count_percent_escaped (cs : List Char) :
    (cs.flatMap Json.escape).count '%' = cs.count '%' := by
  induction cs with
  | nil => rfl
  | cons c cs ih =>
      rw [List.flatMap_cons, List.count_append, count_percent_escape, ih, ← List.count_append]
      rfl

theorem count_percent_encodeTail (l : List String) :
    (Json.encodeTail l).count '%' = (l.map fun s => s.toList.count '%').sum := by
  induction l with
  | nil => rfl
  | cons s l ih =>
      rw [Json.encodeTail, Json.encodeString_append]
      simp [List.count_append, count_percent_escaped, ih]

theorem count_percent_dumpsList (l : List String) :
    (Json.dumpsList l).toList.count '%' = (l.map fun s => s.toList.count '%').sum := by
  rw [Json.dumpsList, String.toList_ofList]
  cases l with
  | nil => rfl
  | cons s l =>
      rw [Json.encodeList, Json.encodeString_append]
      simp [List.count_append, count_percent_escaped, count_percent_encodeTail]

/-- The literal of a string starts a pair only where the string does. -/
theorem escaped_ne_percent {cs : List Char} (hcs : ∀ r, cs ≠ '%' :: r) (back r : List Char) :
    cs.flatMap Json.escape ++ '"' :: back ≠ '%' :: r := by
  intro h
  cases cs with
  | nil => exact absurd (List.cons.inj h).1 (by decide)
  | cons c cs =>
      have hmem : '%' ∈ Json.escape c := by
        obtain ⟨x, rest, hx⟩ := List.exists_cons_of_ne_nil (Json.escape_ne_nil c)
        rw [List.flatMap_cons, hx] at h
        rw [hx, (List.cons.inj h).1]
        exact List.mem_cons_self
      refine notMem_percent_escape ?_ hmem
      intro heq
      subst heq
      exact hcs cs rfl

/-- The percent signs of a string are those of its literal. -/
theorem collapse_escaped (cs r : List Char) :
    collapse (cs.flatMap Json.escape ++ '"' :: r) =
      (collapse cs).flatMap Json.escape ++ '"' :: collapse r := by
  induction cs using collapse.induct with
  | case1 cs ih =>
      show collapse ('%' :: '%' :: (cs.flatMap Json.escape ++ '"' :: r)) = _
      rw [collapse, ih, collapse]
      rfl
  | case2 c cs hpair ih =>
      have hsingle : c = '%' → ∀ t, cs ≠ '%' :: t := fun hc t ht => hpair t hc ht
      rw [collapse_cons_of_not_pair hsingle, List.flatMap_cons, List.append_assoc]
      by_cases hc : c = '%'
      · subst hc
        show collapse ('%' :: (cs.flatMap Json.escape ++ '"' :: r)) = _
        rw [collapse_cons_of_not_pair fun _ => escaped_ne_percent (hsingle rfl) r, ih]
        rfl
      · rw [collapse_append (notMem_percent_escape hc), ih, List.flatMap_cons, List.append_assoc]
  | case3 => exact collapse_cons (by decide) r

/-- What the interpolation makes of a string without references. -/
def collapsed (s : String) : String := String.ofList (collapse s.toList)

theorem collapse_encodeString (s : String) (r : List Char) :
    collapse (Json.encodeString s ++ r) = Json.encodeString (collapsed s) ++ collapse r := by
  rw [Json.encodeString_append, collapse_cons (by decide), collapse_escaped,
    Json.encodeString_append, collapsed, String.toList_ofList]

theorem collapse_encodeTail (l : List String) :
    collapse (Json.encodeTail l) = Json.encodeTail (l.map collapsed) := by
  induction l with
  | nil => exact collapse_cons (by decide) []
  | cons s l ih =>
      rw [Json.encodeTail, collapse_cons (by decide), collapse_cons (by decide),
        collapse_encodeString, ih]
      rfl

/-- Collapsing a text of strings collapses the strings. -/
theorem collapse_dumpsList (l : List String) :
    collapse (Json.dumpsList l).toList = (Json.dumpsList (l.map collapsed)).toList := by
  rw [Json.dumpsList, Json.dumpsList, String.toList_ofList, String.toList_ofList]
  cases l with
  | nil => exact collapse_of_notMem (by decide)
  | cons s l =>
      rw [Json.encodeList, collapse_cons (by decide), collapse_encodeString, collapse_encodeTail]
      rfl

/-! ### When the pipeline reads back -/

theorem getPipeline_of_dumpsList {reference : Section} {strList : List String}
    (h : reference.get metaRefPipeline = .ok (Json.dumpsList strList)) {pipeline : List MetaKey} :
    getPipeline reference = .ok pipeline ↔
      List.Forall₂ (fun s key => MetaKey.buildFromString s = some key) strList pipeline := by
  have hloads : loadStrings (Json.dumpsList strList) = .ok strList := by
    rw [loadStrings, Json.loadsList_dumpsList]
  have hbuild : ∀ s key, buildKey s = .ok key ↔ MetaKey.buildFromString s = some key := by
    intro s key
    rw [buildKey]
    cases MetaKey.buildFromString s <;> simp
  rw [getPipeline, h]
  show (loadStrings (Json.dumpsList strList) >>= fun strList => strList.mapM buildKey) = _ ↔ _
  rw [hloads]
  show strList.mapM buildKey = _ ↔ _
  simp only [mapM_eq_ok_iff, hbuild]

/-- Without percent signs the pipeline reads back, whatever else is in the section. -/
theorem readsBack_of_notMem {pipeline : List MetaKey}
    (hkeys : ∀ key ∈ pipeline, key.Printable)
    (hpercent : ∀ key ∈ pipeline, '%' ∉ key.toStringWithVersion.toList) (reference : Section) :
    ReadsBack reference pipeline := by
  have htext : '%' ∉ (Json.dumpsList (pipeline.map (·.toStringWithVersion))).toList := by
    rw [← List.count_eq_zero, count_percent_dumpsList, List.map_map,
      List.sum_eq_zero_iff_forall_eq_nat]
    intro n hn
    obtain ⟨key, hkey, rfl⟩ := List.mem_map.mp hn
    exact List.count_eq_zero.mpr (hpercent key hkey)
  obtain ⟨reference', hset, hget⟩ := get_set_of_notMem reference metaRefPipeline htext
  refine ⟨reference', by rw [setPipeline, hset]; rfl, (getPipeline_of_dumpsList hget).mpr ?_⟩
  rw [List.forall₂_map_left_iff, List.forall₂_same]
  exact fun key hkey => MetaKey.buildFromString_of_printable (hkeys key hkey)

/-- In a section without other options a pipeline that reads back has no percent signs: half of
them would be missing. -/
theorem notMem_of_readsBack {pipeline : List MetaKey} {optionxform : String → String}
    (h : ReadsBack ⟨∅, ∅, optionxform⟩ pipeline) :
    ∀ key ∈ pipeline, '%' ∉ key.toStringWithVersion.toList := by
  obtain ⟨reference, hset, hget⟩ := h
  rw [setPipeline] at hset
  obtain ⟨read, hread, -⟩ := bind_eq_ok_iff.mp hget
  let strList := pipeline.map (·.toStringWithVersion)
  have hsetOk : Section.set ⟨∅, ∅, optionxform⟩ metaRefPipeline (Json.dumpsList strList) =
      .ok reference := by
    cases hresult : Section.set ⟨∅, ∅, optionxform⟩ metaRefPipeline (Json.dumpsList strList) with
    | error e => rw [hresult] at hset; cases hset
    | ok _ => rw [hresult] at hset; exact congrArg Except.ok (Except.ok.inj hset)
  have hgetOk : reference.get metaRefPipeline = .ok read := by
    cases hresult : reference.get metaRefPipeline with
    | error e => rw [hresult] at hread; cases hread
    | ok _ => rw [hresult] at hread; exact congrArg Except.ok (Except.ok.inj hread)
  obtain ⟨hpaired, hcollapse⟩ := paired_of_get_set hsetOk hgetOk
  rw [collapse_dumpsList] at hcollapse
  rw [String.toList_injective hcollapse] at hgetOk
  have hkeys := (getPipeline_of_dumpsList hgetOk).mp hget
  rw [List.map_map, List.forall₂_map_left_iff, List.forall₂_same] at hkeys
  -- What is left of the percent signs must be all that the keys have.
  have hhalf := count_collapse hpaired
  rw [collapse_dumpsList, count_percent_dumpsList, count_percent_dumpsList, List.map_map,
    List.map_map, List.map_map] at hhalf
  have hle := List.sum_le_sum fun key hkey =>
    MetaKey.count_percent_of_buildFromString (hkeys key hkey)
  have hzero : (pipeline.map fun key => key.toStringWithVersion.toList.count '%').sum = 0 := by
    simp only [Function.comp_def] at hhalf hle
    omega
  intro key hkey
  rw [List.sum_eq_zero_iff_forall_eq_nat] at hzero
  exact List.count_eq_zero.mp (hzero _ (List.mem_map_of_mem hkey))

/-- **What is printed reads back.** Versions and keys do, so that keys are told apart by their
strings, but the pipeline of a workspace does in every config if and only if no percent sign
occurs in its keys. -/
theorem pipeline_readsBack_iff {pipeline : List MetaKey}
    (hkeys : ∀ key ∈ pipeline, key.Printable) :
    (∀ v : SemanticVersion, SemanticVersion.BranchOk v.branch →
      SemanticVersion.fromVersionStr v.versionStr = some v) ∧
    (∀ key : MetaKey, key.Printable →
      MetaKey.buildFromString key.toStringWithVersion = some key) ∧
    (∀ key key' : MetaKey, key.Printable → key'.Printable →
      key.toStringWithVersion = key'.toStringWithVersion → key = key') ∧
    ((∀ reference, ReadsBack reference pipeline) ↔
      ∀ key ∈ pipeline, '%' ∉ key.toStringWithVersion.toList) := by
  refine ⟨fun v hv => SemanticVersion.fromVersionStr_versionStr hv,
    fun key hkey => MetaKey.buildFromString_of_printable hkey,
    fun key key' hkey hkey' h => MetaKey.toStringWithVersion_injOn hkey hkey' h, ?_, ?_⟩
  · intro hread
    exact notMem_of_readsBack (hread ⟨∅, ∅, id⟩)
  · intro hpercent reference
    exact readsBack_of_notMem hkeys hpercent reference

/-- The type holds a separator, and the branch ends like a version. -/
def dottedKey : MetaKey := ⟨"data::set", "a:b", ⟨"feature.1.2", 3, 4⟩⟩

theorem printable_dottedKey : dottedKey.Printable where
  type_ne := by decide
  type_noSpace := by decide
  name_ne := by decide
  name_noSpace := by decide
  name_separable := ⟨by decide +kernel, by decide⟩
  branchOk := by decide
  branch_separable := ⟨by decide +kernel, by decide⟩

theorem dottedKey_readsBack : ReadsBack ⟨∅, ∅, id⟩ [dottedKey] :=
  (pipeline_readsBack_iff (List.forall_mem_singleton.mpr printable_dottedKey)).2.2.2.mpr
    (by decide +kernel) _

def percentKey : MetaKey := ⟨"library", "50%", ⟨"master", 0, 0⟩⟩

/-- A stray percent sign is refused, in every config. -/
theorem percentKey_not_readsBack : percentKey.Printable ∧
    (∀ reference, setPipeline reference [percentKey] = .error .valueError) ∧
    ∀ reference, ¬ ReadsBack reference [percentKey] := by
  have hset : ∀ reference, setPipeline reference [percentKey] = .error .valueError := by
    intro reference
    have hbefore : beforeSet (Json.dumpsList [percentKey.toStringWithVersion]) = false := by
      decide +kernel
    rw [setPipeline, List.map_singleton, Section.set, hbefore, if_neg Bool.false_ne_true]
    rfl
  refine ⟨?_, hset, ?_⟩
  · exact ⟨by decide, by decide, by decide, by decide, ⟨by decide +kernel, by decide⟩, by decide,
      ⟨by decide +kernel, by decide⟩⟩
  · intro reference hex
    obtain ⟨reference', hreference, -⟩ := hex
    rw [hset] at hreference
    cases hreference

end WorkspaceMeta

end SecCask.Pipeman

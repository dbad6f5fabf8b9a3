import SecCask.Lib.Regex
import SecCask.Lib.Separator

/-!
# SecCask.Pipeman.Version

`pipeman/version.py`. A `SemanticVersion` here is the *value* of a version object, its
three fields. The class defines no `__eq__`: where the code compares two version objects
with `==` it compares their identities, and the models of that code say so.
-/

namespace SecCask.Pipeman

open Regex

structure SemanticVersion where
  branch : String
  apiVersion : ℕ
  incVersion : ℕ
  deriving DecidableEq, Repr

namespace SemanticVersion

/-- `SemanticVersion.DEFAULT_BRANCH` -/
def defaultBranch : String := "master"

/-- `SemanticVersion.version_str` -/
def versionStr (v : SemanticVersion) : String :=
  v.branch ++ "." ++ v.apiVersion.repr ++ "." ++ v.incVersion.repr

/-- The pattern behind the branch: `\.(\d+)\.(\d+)`. -/
def numbersPattern : List Atom :=
  [.lit '.', .group isDecimal, .lit '.', .group isDecimal]

/-- `SemanticVersion.REGEX_VERSION_STR`: `(\S+)\.(\d+)\.(\d+)` -/
def versionPattern : List Atom := .group notSpace :: numbersPattern

/-- `SemanticVersion.from_version_str`; `none` where it raises `RuntimeError`. -/
def fromVersionStr (version : String) : Option SemanticVersion :=
  match captures versionPattern version.toList with
  | some [branch, api, inc] => some ⟨String.ofList branch, toInt api, toInt inc⟩
  | _ => none

/-- `SemanticVersion.build_zero_version` -/
def buildZeroVersion : SemanticVersion := ⟨defaultBranch, 0, 0⟩

/-- The branch is what `(\S+)` can capture. -/
def BranchOk (branch : String) : Prop :=
  branch ≠ "" ∧ noSpace branch = true

instance (branch : String) : Decidable (BranchOk branch) :=
  inferInstanceAs (Decidable (_ ∧ _))

/-- The characters of `"." + str(api) + "." + str(inc)`. -/
def numbers (api inc : ℕ) : List Char :=
  '.' :: (api.repr.toList ++ '.' :: inc.repr.toList)

theorem toList_versionStr (v : SemanticVersion) :
    v.versionStr.toList = v.branch.toList ++ numbers v.apiVersion v.incVersion := by
  simp [versionStr, numbers]

theorem repr_injective : Function.Injective Nat.repr := fun m n h => by
  rw [← toInt_repr m, h, toInt_repr]

theorem notMem_dot_repr (n : ℕ) : '.' ∉ n.repr.toList := fun hdot =>
  absurd (isDigit_of_mem_repr hdot) (by decide)

/-- What stands in front of a version's numbers can be told apart from them. -/
theorem append_numbers_inj {x y : List Char} {api inc api' inc' : ℕ}
    (h : x ++ numbers api inc = y ++ numbers api' inc') : x = y ∧ api = api' ∧ inc = inc' := by
  rw [numbers, numbers, ← List.cons_append, ← List.cons_append, ← List.append_assoc,
    ← List.append_assoc] at h
  obtain ⟨hleft, hinc⟩ :=
    append_cons_inj_of_notMem_right (notMem_dot_repr inc) (notMem_dot_repr inc') h
  obtain ⟨hx, hapi⟩ :=
    append_cons_inj_of_notMem_right (notMem_dot_repr api) (notMem_dot_repr api') hleft
  exact ⟨hx, repr_injective (String.toList_injective hapi),
    repr_injective (String.toList_injective hinc)⟩

theorem count_dot_repr (n : ℕ) : n.repr.toList.count '.' = 0 := by
  exact List.count_eq_zero.mpr (notMem_dot_repr n)

theorem captures_numbers (api inc : ℕ) :
    captures numbersPattern (numbers api inc) = some [api.repr.toList, inc.repr.toList] := by
  have hinc : captures [.group isDecimal] inc.repr.toList = some [inc.repr.toList] := by
    have hgroup : captures [.group isDecimal] (inc.repr.toList ++ []) = some [inc.repr.toList] :=
      captures_group_of_stop (repr_toList_ne_nil inc)
        (fun c hc => isDecimal_of_isDigit (isDigit_of_mem_repr hc)) (by simp) rfl
    rwa [List.append_nil] at hgroup
  have hapi : captures [.group isDecimal, .lit '.', .group isDecimal]
      (api.repr.toList ++ '.' :: inc.repr.toList) = some [api.repr.toList, inc.repr.toList] := by
    refine captures_group_of_stop (repr_toList_ne_nil api)
      (fun c hc => isDecimal_of_isDigit (isDigit_of_mem_repr hc)) ?_ ?_
    · intro c s hcs
      obtain ⟨rfl, -⟩ := List.cons.inj hcs
      decide
    · simpa [captures] using hinc
  simpa [numbersPattern, numbers, captures] using hapi

/-- Behind its first dot a version has too few dots for the pattern. -/
theorem captures_numbers_drop (api inc : ℕ) {k : ℕ} (hk : 0 < k) :
    captures numbersPattern ((numbers api inc).drop k) = none := by
  obtain ⟨k, rfl⟩ : ∃ j, k = j + 1 := ⟨k - 1, by omega⟩
  refine captures_eq_none_of_count_lt '.' ?_
  have hle : ((numbers api inc).drop (k + 1)).count '.' ≤ 1 := by
    rw [numbers, List.drop_succ_cons]
    refine (List.Sublist.count_le '.' (List.drop_sublist _ _)).trans ?_
    rw [List.count_append, List.count_cons_self, count_dot_repr, count_dot_repr]
  have htwo : litCount '.' numbersPattern = 2 := rfl
  omega

/-- A printed version reads back, whatever dots its branch contains. -/
theorem fromVersionStr_versionStr {v : SemanticVersion} (hv : BranchOk v.branch) :
    fromVersionStr v.versionStr = some v := by
  have hbranch : v.branch.toList ≠ [] := fun hnil => hv.1 (String.toList_injective hnil)
  have hcaptures : captures versionPattern (v.branch.toList ++ numbers v.apiVersion v.incVersion) =
      some [v.branch.toList, v.apiVersion.repr.toList, v.incVersion.repr.toList] :=
    captures_group_of_longest hbranch (noSpace_iff.mp hv.2)
      (captures_numbers v.apiVersion v.incVersion)
      (fun k hk => captures_numbers_drop v.apiVersion v.incVersion hk)
  rw [fromVersionStr, toList_versionStr, hcaptures]
  simp only [String.ofList_toList, toInt_repr]

/-- If a printed version reads back at all, it reads back as itself. An empty branch does not:
the regex wants a branch in front of the first dot. -/
theorem eq_of_fromVersionStr_versionStr {v w : SemanticVersion}
    (hv : noSpace v.branch = true) (h : fromVersionStr v.versionStr = some w) :
    w = v := by
  by_cases hempty : v.branch = ""
  · unfold fromVersionStr at h
    split at h
    · rename_i hcaptures
      rw [toList_versionStr, hempty] at hcaptures
      obtain ⟨g, r, gs, hsplit, -, hne, -, hr, -⟩ := captures_group_inv hcaptures
      have hdrop : r = (numbers v.apiVersion v.incVersion).drop g.length := by
        rw [show numbers v.apiVersion v.incVersion = g ++ r from hsplit, List.drop_left]
      rw [hdrop, captures_numbers_drop _ _ (List.length_pos_iff.mpr hne)] at hr
      cases hr
    · cases h
  · exact Option.some.inj (h.symm.trans (fromVersionStr_versionStr ⟨hempty, hv⟩))

/-- What is read from a string has a branch that reads back. -/
theorem branchOk_of_fromVersionStr {s : String} {v : SemanticVersion}
    (h : fromVersionStr s = some v) : BranchOk v.branch := by
  unfold fromVersionStr at h
  split at h
  · rename_i branch api inc hcaptures
    obtain rfl := Option.some.inj h
    obtain ⟨⟨hne, hall, -⟩, -⟩ := captures_sound hcaptures
    refine ⟨?_, noSpace_iff.mpr (by simpa using hall)⟩
    intro hempty
    apply hne
    simpa using congrArg String.toList hempty
  · cases h

theorem versionStr_ne_empty (v : SemanticVersion) : v.versionStr ≠ "" := by
  intro hempty
  have hlist := congrArg String.toList hempty
  rw [toList_versionStr] at hlist
  simp [numbers] at hlist

end SemanticVersion

end SecCask.Pipeman

import Mathlib.Data.List.Basic
import SecCask.Lib.Separator

/-!
# SecCask.Lib.Utf8

The UTF-8 bytes of texts, and how separators that are ASCII characters behave in them.
-/

namespace SecCask.Utf8

/-- `s.encode()` -/
def encode (s : String) : List UInt8 := s.toUTF8.data.toList

/-- `b.decode()` -/
def decode (b : List UInt8) : Option String := String.fromUTF8? b.toByteArray

/-- The parts of a text between the separators `c`. -/
def cut (c : Char) (s : String) : List String := (s.toList.splitOn c).map String.ofList

theorem encode_eq (s : String) : encode s = s.toList.flatMap String.utf8EncodeChar := by
  have h : s.toByteArray = s.toList.utf8Encode := String.utf8Encode_toList.symm
  show s.toByteArray.data.toList = _
  rw [h]
  simp [List.utf8Encode]

theorem encode_injective : Function.Injective encode := by
  intro s t h
  have hdata : s.toByteArray.data = t.toByteArray.data := Array.toList_inj.mp h
  exact String.toByteArray_inj.mp (ByteArray.ext hdata)

@[simp] theorem decode_encode (s : String) : decode (encode s) = some s := by
  have h : (encode s).toByteArray = s.toByteArray := ByteArray.ext (by simp [encode])
  rw [decode, h]
  exact dif_pos s.isValidUTF8

theorem decode_eq_some_iff {b : List UInt8} {s : String} : decode b = some s ↔ b = encode s := by
  constructor
  · intro h
    unfold decode String.fromUTF8? at h
    split at h
    · cases h
      simp [encode, String.fromUTF8]
    · cases h
  · intro h
    rw [h, decode_encode]

theorem utf8EncodeChar_ascii {c : Char} (hc : c.toNat < 0x80) :
    String.utf8EncodeChar c = [UInt8.ofNat c.toNat] := by
  have hle : c.val.toNat ≤ 0x7f := Nat.lt_succ_iff.mp hc
  exact if_pos hle

/-- The byte of an ASCII character stands for nothing else. -/
theorem notMem_utf8EncodeChar {c a : Char} (hc : c.toNat < 0x80) (ha : a ≠ c) :
    UInt8.ofNat c.toNat ∉ String.utf8EncodeChar a := by
  intro hmem
  have hval : a.toNat ≠ c.toNat := fun h => ha (Char.ext (UInt32.toNat_inj.mp h))
  have hbyte : (UInt8.ofNat c.toNat).toNat = c.toNat := by
    rw [UInt8.toNat_ofNat']
    omega
  by_cases hascii : a.toNat < 0x80
  · rw [utf8EncodeChar_ascii hascii, List.mem_singleton, ← UInt8.toNat_inj, hbyte,
      UInt8.toNat_ofNat'] at hmem
    omega
  · -- All bytes of a longer code have the high bit set.
    have hhigh : ∀ b ∈ String.utf8EncodeChar a, 0x80 ≤ b.toNat := by
      fun_cases String.utf8EncodeChar a with
      | case1 => exact absurd (Nat.lt_succ_iff.mpr (by assumption)) hascii
      | case2 => simp; omega
      | case3 => simp; omega
      | case4 => simp; omega
    have hle := hhigh _ hmem
    omega

theorem splitOn_encode {c : Char} (hc : c.toNat < 0x80) (s : String) :
    (encode s).splitOn (UInt8.ofNat c.toNat) = (cut c s).map encode := by
  rw [encode_eq, splitOn_flatMap (utf8EncodeChar_ascii hc) fun a => notMem_utf8EncodeChar hc, cut,
    List.map_map]
  refine List.map_congr_left fun part _ => ?_
  rw [Function.comp_apply, encode_eq, String.toList_ofList]

theorem pair_infix_encode_iff {c d : Char} (hc : c.toNat < 0x80) (hd : d.toNat < 0x80)
    {s : String} :
    [UInt8.ofNat c.toNat, UInt8.ofNat d.toNat] <:+: encode s ↔ [c, d] <:+: s.toList := by
  rw [encode_eq]
  exact pair_infix_flatMap_iff (utf8EncodeChar_ascii hc) (utf8EncodeChar_ascii hd)
    (fun a => notMem_utf8EncodeChar hc) (fun a => notMem_utf8EncodeChar hd)
    fun a => String.utf8EncodeChar_ne_nil

theorem cut_eq_singleton {c : Char} {s : String} (h : c ∉ s.toList) : cut c s = [s] := by
  rw [cut, List.splitOn_eq_singleton h, List.map_singleton, String.ofList_toList]

theorem mem_encode_iff {c : Char} (hc : c.toNat < 0x80) {s : String} :
    UInt8.ofNat c.toNat ∈ encode s ↔ c ∈ s.toList := by
  rw [encode_eq, List.mem_flatMap]
  refine ⟨fun ⟨a, ha, hmem⟩ => ?_, fun h => ⟨c, h, ?_⟩⟩
  · by_contra hnot
    exact notMem_utf8EncodeChar hc (fun heq => hnot (heq ▸ ha)) hmem
  · rw [utf8EncodeChar_ascii hc]
    exact List.mem_singleton_self _

end SecCask.Utf8

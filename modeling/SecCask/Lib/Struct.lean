import Mathlib.Data.Nat.Notation
import Mathlib.Tactic.Ring
import Mathlib.Algebra.Order.Ring.Nat

/-!
# SecCask.Lib.Struct

Packing numbers into bytes as `struct.Struct` does with a format that starts with `<`: little
endian, without padding, and with an error for a number that does not fit its field.
-/

namespace SecCask

/-- The number `n` in `width` bytes, the least significant first. -/
def le : ℕ → ℕ → List UInt8
  | 0, _ => []
  | width + 1, n => UInt8.ofNat n :: le width (n / 256)

/-- The number that the bytes stand for. -/
def ofLe : List UInt8 → ℕ
  | [] => 0
  | b :: bytes => b.toNat + 256 * ofLe bytes

@[simp] theorem length_le (width n : ℕ) : (le width n).length = width := by
  induction width generalizing n with
  | zero => rfl
  | succ width ih => simp [le, ih]

theorem ofLe_le {width n : ℕ} (hfits : n < 256 ^ width) : ofLe (le width n) = n := by
  induction width generalizing n with
  | zero =>
      obtain rfl : n = 0 := by simpa using hfits
      rfl
  | succ width ih =>
      have hhigh : n / 256 < 256 ^ width := by
        rw [Nat.div_lt_iff_lt_mul (by omega), ← pow_succ]
        exact hfits
      have hlow : (UInt8.ofNat n).toNat = n % 256 := UInt8.toNat_ofNat
      simp only [le, ofLe, ih hhigh, hlow]
      omega

/-- A field of a structure and its value. -/
inductive Field
  /-- `H`, `I` and `Q`, by their width. -/
  | uint (width n : ℕ)
  /-- `2s` and `4s`. -/
  | bytes (value : List UInt8)

namespace Field

abbrev H (n : ℕ) : Field := .uint 2 n

abbrev I (n : ℕ) : Field := .uint 4 n

abbrev Q (n : ℕ) : Field := .uint 8 n

/-- The value is in the range of the field. -/
def fits : Field → Bool
  | .uint width n => n < 256 ^ width
  | .bytes _ => true

def encode : Field → List UInt8
  | .uint width n => le width n
  | .bytes value => value

end Field

/-- `Struct.pack`; `none` stands for `struct.error`. -/
def pack (fields : List Field) : Option (List UInt8) :=
  if fields.all Field.fits then some (fields.flatMap Field.encode) else none

theorem pack_eq_some_iff {fields : List Field} {bytes : List UInt8} :
    pack fields = some bytes ↔
      (∀ field ∈ fields, field.fits = true) ∧ fields.flatMap Field.encode = bytes := by
  simp [pack, List.all_eq_true]

end SecCask

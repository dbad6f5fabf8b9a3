import Mathlib.Logic.Function.Iterate
import Mathlib.Data.Nat.Notation

/-!
# SecCask.Lib.Crc

Cyclic redundancy checks with reflected bits, over any width and any polynomial with a
leading term. The register is linear in what it is fed, and advancing it by a bit loses
nothing, so that a change confined to as many adjacent bits as the register is wide never
goes unnoticed. `crc32` is the instance that `zlib` computes.
-/

namespace SecCask.Crc

variable {w : ℕ} (poly : BitVec w)

/-- The register moves on by one bit. -/
def advance (c : BitVec w) : BitVec w :=
  if c.getLsbD 0 then (c >>> 1) ^^^ poly else c >>> 1

/-- The register takes in a byte. -/
def feed (c : BitVec w) (b : UInt8) : BitVec w :=
  (advance poly)^[8] (c ^^^ b.toBitVec.setWidth w)

/-- The register after all bytes. -/
def register (c : BitVec w) (bytes : List UInt8) : BitVec w :=
  bytes.foldl (feed poly) c

theorem register_append (c : BitVec w) (a b : List UInt8) :
    register poly c (a ++ b) = register poly (register poly c a) b :=
  List.foldl_append

/-! ### One bit -/

theorem getLsbD_advance (c : BitVec w) (i : ℕ) : (advance poly c).getLsbD i =
    (c.getLsbD (i + 1) ^^ (c.getLsbD 0 && poly.getLsbD i)) := by
  unfold advance
  cases c.getLsbD 0 <;> simp [Nat.add_comm]

theorem advance_xor (a b : BitVec w) :
    advance poly (a ^^^ b) = advance poly a ^^^ advance poly b := by
  apply BitVec.eq_of_getLsbD_eq
  intro i _
  simp only [getLsbD_advance, BitVec.getLsbD_xor]
  cases a.getLsbD 0 <;> cases b.getLsbD 0 <;> cases poly.getLsbD i <;>
    cases a.getLsbD (i + 1) <;> cases b.getLsbD (i + 1) <;> rfl

/-- The leading term of the polynomial records the bit that drops out. -/
theorem advance_injective (hpoly : poly.msb = true) : Function.Injective (advance poly) := by
  intro a b heq
  have hbit : ∀ i, (advance poly a).getLsbD i = (advance poly b).getLsbD i := by simp [heq]
  simp only [getLsbD_advance] at hbit
  have hlead : poly.getLsbD (w - 1) = true := by rw [← BitVec.msb_eq_getLsbD_last, hpoly]
  have hlow : a.getLsbD 0 = b.getLsbD 0 := by
    have hlast := hbit (w - 1)
    rw [BitVec.getLsbD_of_ge a (w - 1 + 1) (by omega),
      BitVec.getLsbD_of_ge b (w - 1 + 1) (by omega), hlead] at hlast
    simpa using hlast
  apply BitVec.eq_of_getLsbD_eq
  intro i _
  cases i with
  | zero => exact hlow
  | succ i => simpa [hlow] using hbit i

/-- Where nothing drops out, the bits only move. -/
theorem advance_shiftLeft {x : BitVec w} (hx : x.getLsbD (w - 1) = false) :
    advance poly (x <<< 1) = x := by
  apply BitVec.eq_of_getLsbD_eq
  intro i hi
  rw [getLsbD_advance]
  simp only [BitVec.getLsbD_shiftLeft]
  by_cases hlast : i + 1 < w
  · simp [hlast]
  · obtain rfl : i = w - 1 := by omega
    simp [hlast, hx]

/-! ### Several bits -/

theorem iterate_advance_xor (n : ℕ) (a b : BitVec w) :
    (advance poly)^[n] (a ^^^ b) = (advance poly)^[n] a ^^^ (advance poly)^[n] b := by
  induction n generalizing a b with
  | zero => rfl
  | succ n ih =>
      rw [Function.iterate_succ_apply, advance_xor, ih]
      rfl

theorem iterate_advance_shiftLeft {n : ℕ} {x : BitVec w}
    (hx : ∀ i, w ≤ i + n → x.getLsbD i = false) : (advance poly)^[n] (x <<< n) = x := by
  induction n generalizing x with
  | zero => simp
  | succ n ih =>
      have hshift : x <<< (n + 1) = (x <<< n) <<< 1 := BitVec.shiftLeft_add x n 1
      rw [Function.iterate_succ_apply, hshift, advance_shiftLeft]
      · exact ih fun i hi => hx i (by omega)
      · rw [BitVec.getLsbD_shiftLeft]
        by_cases hn : w - 1 < n
        · simp [hn]
        · simp [hx (w - 1 - n) (by omega)]

/-! ### Bytes -/

/-- The bytes as one word, the first one lowest. -/
def word : List UInt8 → BitVec w
  | [] => 0
  | b :: bytes => b.toBitVec.setWidth w ^^^ (word bytes <<< 8)

theorem getLsbD_word_of_ge {bytes : List UInt8} {i : ℕ} (hi : 8 * bytes.length ≤ i) :
    (word bytes : BitVec w).getLsbD i = false := by
  induction bytes generalizing i with
  | nil => simp [word]
  | cons b bytes ih =>
      simp only [List.length_cons] at hi
      have hb : b.toBitVec.getLsbD i = false := BitVec.getLsbD_of_ge _ _ (by omega)
      simp [word, hb, ih (i := i - 8) (by omega)]

/-- Feeding bytes is feeding one word, as long as the word has them all. -/
theorem register_eq_iterate {bytes : List UInt8} (hfits : 8 * bytes.length ≤ w) (c : BitVec w) :
    register poly c bytes = (advance poly)^[8 * bytes.length] (c ^^^ word bytes) := by
  induction bytes generalizing c with
  | nil => simp [register, word]
  | cons b bytes ih =>
      simp only [List.length_cons] at hfits
      have hrest := ih (by omega) (feed poly c b)
      have hshift : (advance poly)^[8] (word bytes <<< 8) = word bytes :=
        iterate_advance_shiftLeft poly fun i hi => getLsbD_word_of_ge (by omega)
      calc register poly c (b :: bytes)
          = register poly (feed poly c b) bytes := rfl
        _ = (advance poly)^[8 * bytes.length] (feed poly c b ^^^ word bytes) := hrest
        _ = (advance poly)^[8 * bytes.length]
              ((advance poly)^[8] (c ^^^ word (b :: bytes))) := by
            rw [word, ← BitVec.xor_assoc, iterate_advance_xor poly 8, hshift]
            rfl
        _ = (advance poly)^[8 * (b :: bytes).length] (c ^^^ word (b :: bytes)) := by
            rw [← Function.iterate_add_apply, List.length_cons, Nat.mul_add]

theorem word_injective {a b : List UInt8} (hlength : a.length = b.length)
    (hfits : 8 * a.length ≤ w) (hword : (word a : BitVec w) = word b) : a = b := by
  induction a generalizing b with
  | nil => exact (List.length_eq_zero_iff.mp hlength.symm).symm
  | cons x a ih =>
      cases b with
      | nil => simp at hlength
      | cons y b =>
          simp only [List.length_cons, Nat.add_right_cancel_iff] at hlength hfits
          have hbit : ∀ i, (word (x :: a) : BitVec w).getLsbD i =
              (word (y :: b) : BitVec w).getLsbD i := fun i => by rw [hword]
          simp only [word, BitVec.getLsbD_xor, BitVec.getLsbD_setWidth,
            BitVec.getLsbD_shiftLeft] at hbit
          have hhead : x = y := by
            apply UInt8.toBitVec_inj.mp
            apply BitVec.eq_of_getLsbD_eq
            intro i hi
            have hlow := hbit i
            simpa [hi, show i < w by omega] using hlow
          have htail : (word a : BitVec w) = word b := by
            apply BitVec.eq_of_getLsbD_eq
            intro i hi
            by_cases hhigh : i + 8 < w
            · have hmoved := hbit (i + 8)
              rw [BitVec.getLsbD_of_ge x.toBitVec (i + 8) (by omega),
                BitVec.getLsbD_of_ge y.toBitVec (i + 8) (by omega)] at hmoved
              simpa [hhigh, show ¬ i + 8 < 8 by omega] using hmoved
            · rw [getLsbD_word_of_ge (by omega), getLsbD_word_of_ge (by omega)]
          rw [hhead, ih hlength (by omega) htail]

theorem feed_injective (hpoly : poly.msb = true) (b : UInt8) :
    Function.Injective (feed poly · b) := by
  intro c d heq
  have hxor := (advance_injective poly hpoly).iterate 8 heq
  have hcancel := congrArg (· ^^^ b.toBitVec.setWidth w) hxor
  simpa [BitVec.xor_assoc] using hcancel

theorem register_injective (hpoly : poly.msb = true) (bytes : List UInt8) :
    Function.Injective (register poly · bytes) := by
  induction bytes with
  | nil => exact fun _ _ h => h
  | cons b bytes ih => exact fun c d heq => feed_injective poly hpoly b (ih heq)

/-- **Bursts.** A change confined to adjacent bytes that fit into the register changes what
the register holds in the end. -/
theorem register_ne_of_burst (hpoly : poly.msb = true) {u v : List UInt8}
    (hlength : u.length = v.length) (hfits : 8 * u.length ≤ w) (hne : u ≠ v)
    (c : BitVec w) (before after : List UInt8) :
    register poly c (before ++ u ++ after) ≠ register poly c (before ++ v ++ after) := by
  intro heq
  simp only [register_append] at heq
  have hmiddle := register_injective poly hpoly after heq
  rw [register_eq_iterate poly hfits (register poly c before),
    register_eq_iterate poly (hlength ▸ hfits) (register poly c before), hlength] at hmiddle
  have hxor := (advance_injective poly hpoly).iterate _ hmiddle
  have hword : (word u : BitVec w) = word v := by
    have hcancel := congrArg (register poly c before ^^^ ·) hxor
    simpa [← BitVec.xor_assoc] using hcancel
  exact hne (word_injective hlength hfits hword)

end SecCask.Crc

namespace SecCask

/-- The polynomial of `zlib`, reflected. -/
def zlibPoly : BitVec 32 := 0xEDB88320

/-- `zlib.crc32(data, value)` -/
def crc32 (data : List UInt8) (value : BitVec 32) : BitVec 32 :=
  ~~~ Crc.register zlibPoly (~~~ value) data

theorem crc32_nil (value : BitVec 32) : crc32 [] value = value := by
  simp [crc32, Crc.register]

theorem crc32_append (a b : List UInt8) (value : BitVec 32) :
    crc32 (a ++ b) value = crc32 b (crc32 a value) := by
  simp [crc32, Crc.register_append]

/-- A change within four adjacent bytes. -/
theorem crc32_ne_of_burst {u v : List UInt8} (hlength : u.length = v.length)
    (hfits : u.length ≤ 4) (hne : u ≠ v) (value : BitVec 32) (before after : List UInt8) :
    crc32 (before ++ u ++ after) value ≠ crc32 (before ++ v ++ after) value := by
  intro heq
  refine Crc.register_ne_of_burst zlibPoly (by decide) hlength (by omega) hne (~~~ value) before
    after ?_
  exact BitVec.not_inj.mp heq

example : crc32 [0x31, 0x32, 0x33, 0x34, 0x35, 0x36, 0x37, 0x38, 0x39] 0 = 0xCBF43926 := by
  decide +kernel

end SecCask

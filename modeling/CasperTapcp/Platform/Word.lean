import Mathlib.Data.Nat.Bitwise
import Mathlib.Tactic.Ring
import Mathlib.Tactic.Linarith
import Mathlib.Tactic.IntervalCases

/-!
# Machine words

The server runs on a 32-bit soft processor and moves data as `uint8_t` bytes and `uint32_t`
words. This module fixes the Lean side of those two types, `UInt8` and `UInt32`, and proves once
how the operators the source applies to them (`>>`, `<<`, `&`, `|`, the truncating cast to
`uint8_t`) read as arithmetic on `toNat`. Every later module states its bit manipulation through
these lemmas and closes the arithmetic with `omega`.

`beBytes` is the network-order (most significant byte first) serialization of a word, the order
in which the FPGA codecs put words on the wire, and `beValue` reads four bytes back
(`beValue_beBytes`, `beBytes_beValue`).
-/

set_option autoImplicit false
set_option relaxedAutoImplicit false

namespace CasperTapcp

/-! ### `uint32_t` operators as arithmetic -/

theorem toNat_u32_shiftRight (w s : UInt32) : (w >>> s).toNat = w.toNat / 2 ^ (s.toNat % 32) := by
  show (w.toBitVec >>> (s.toBitVec % 32)).toNat = _
  simp [BitVec.toNat_ushiftRight, Nat.shiftRight_eq_div_pow]
  rfl

theorem toNat_u32_shiftLeft (w s : UInt32) :
    (w <<< s).toNat = w.toNat * 2 ^ (s.toNat % 32) % 2 ^ 32 := by
  show (w.toBitVec <<< (s.toBitVec % 32)).toNat = _
  simp [BitVec.toNat_shiftLeft, Nat.shiftLeft_eq]
  rfl

theorem toNat_u32_and_255 (w : UInt32) : (w &&& 255).toNat = w.toNat % 256 := by
  rw [UInt32.and_toNat]
  exact Nat.and_pow_two_sub_one_eq_mod w.toNat 8

theorem toNat_u32_and_3 (w : UInt32) : (w &&& 3).toNat = w.toNat % 4 := by
  rw [UInt32.and_toNat]
  exact Nat.and_pow_two_sub_one_eq_mod w.toNat 2

/-- Or-ing a value below `2 ^ k` into a word whose low `k` bits are clear adds it. -/
theorem toNat_u32_or_low (k : Nat) (a d : UInt32) (ha : a.toNat % 2 ^ k = 0)
    (hd : d.toNat < 2 ^ k) : (a ||| d).toNat = a.toNat + d.toNat := by
  show (a.toBitVec ||| d.toBitVec).toNat = a.toBitVec.toNat + d.toBitVec.toNat
  rw [BitVec.toNat_or]
  obtain ⟨q, hq⟩ : ∃ q, a.toBitVec.toNat = 2 ^ k * q :=
    ⟨a.toNat / 2 ^ k, (Nat.mul_div_cancel' (Nat.dvd_of_mod_eq_zero ha)).symm⟩
  exact hq ▸ (Nat.mul_add_lt_is_or hd q).symm

@[simp] theorem toNat_u32_add (a b : UInt32) : (a + b).toNat = (a.toNat + b.toNat) % 2 ^ 32 :=
  BitVec.toNat_add _ _

@[simp] theorem toNat_u32_sub (a b : UInt32) :
    (a - b).toNat = (2 ^ 32 - b.toNat + a.toNat) % 2 ^ 32 :=
  BitVec.toNat_sub _ _

theorem toNat_u32_shiftLeft_two (w : UInt32) : (w <<< 2).toNat = w.toNat * 4 % 2 ^ 32 := by
  rw [toNat_u32_shiftLeft]
  rfl

theorem toNat_u32_shiftRight_two (w : UInt32) : (w >>> 2).toNat = w.toNat / 4 := by
  rw [toNat_u32_shiftRight]
  rfl

theorem u32_lt_iff (a b : UInt32) : a < b ↔ a.toNat < b.toNat := Iff.rfl

/-- `w & ~3` is a multiple of 4. -/
theorem toNat_u32_and_not_3 (w : UInt32) : (w &&& ~~~3).toNat % 4 = 0 := by
  rw [UInt32.and_toNat, show (~~~3 : UInt32).toNat = 4294967292 from rfl,
    show 4 = 2 ^ 2 from rfl, ← Nat.and_pow_two_sub_one_eq_mod, Nat.and_assoc,
    show 4294967292 &&& 2 ^ 2 - 1 = 0 from rfl, Nat.and_zero]

@[simp] theorem toNat_u32_toUInt8 (w : UInt32) : w.toUInt8.toNat = w.toNat % 256 := by
  simp [UInt32.toUInt8, Nat.toUInt8, UInt8.toNat, UInt8.ofNat]

@[simp] theorem toNat_u8_toUInt32 (b : UInt8) : b.toUInt32.toNat = b.toNat := rfl

@[simp] theorem toNat_u32_ofNat (n : Nat) : (UInt32.ofNat n).toNat = n % 2 ^ 32 :=
  BitVec.toNat_ofNat _ _

@[simp] theorem toNat_u8_ofNat (n : Nat) : (UInt8.ofNat n).toNat = n % 2 ^ 8 :=
  BitVec.toNat_ofNat _ _

/-! ### `uint8_t` operators as arithmetic -/

theorem toNat_u8_shiftRight_four (b : UInt8) : (b >>> 4).toNat = b.toNat / 16 := by
  show (b.toBitVec >>> ((4 : UInt8).toBitVec % 8)).toNat = _
  simp [BitVec.toNat_ushiftRight, Nat.shiftRight_eq_div_pow]
  rfl

theorem toNat_u8_and_15 (b : UInt8) : (b &&& 15).toNat = b.toNat % 16 := by
  rw [UInt8.and_toNat]
  exact Nat.and_pow_two_sub_one_eq_mod b.toNat 4

theorem u8_eq_iff_toNat (a b : UInt8) : a = b ↔ a.toNat = b.toNat :=
  ⟨congrArg _, UInt8.toNat.inj⟩

theorem u32_eq_iff_toNat (a b : UInt32) : a = b ↔ a.toNat = b.toNat :=
  ⟨congrArg _, UInt32.toNat.inj⟩

@[simp] theorem u32_ofNat_toNat (w : UInt32) : UInt32.ofNat w.toNat = w := by
  rw [u32_eq_iff_toNat, toNat_u32_ofNat]
  exact Nat.mod_eq_of_lt w.toNat_lt_size

/-- The `int` a `uint32_t` converts to on the two's complement target. -/
def u32ToInt (w : UInt32) : Int := if w.toNat < 2 ^ 31 then w.toNat else w.toNat - 2 ^ 32

theorem u32ToInt_of_lt {w : UInt32} (h : w.toNat < 2 ^ 31) : u32ToInt w = w.toNat := if_pos h

theorem u32ToInt_le (w : UInt32) : u32ToInt w ≤ w.toNat := by
  unfold u32ToInt
  split_ifs <;> omega

/-- The conversion keeps a multiple of 4 one, `2 ^ 32` being one. -/
theorem u32ToInt_emod_four {w : UInt32} (h : w.toNat % 4 = 0) : u32ToInt w % 4 = 0 := by
  unfold u32ToInt
  split_ifs <;> omega

/-! ### Network byte order -/

/-- The four bytes of a word, most significant first. -/
def beBytes (w : UInt32) : List UInt8 :=
  [UInt8.ofNat (w.toNat / 2 ^ 24), UInt8.ofNat (w.toNat / 2 ^ 16),
    UInt8.ofNat (w.toNat / 2 ^ 8), UInt8.ofNat w.toNat]

/-- The word whose network-order bytes are `b₀ b₁ b₂ b₃`. -/
def beValue (b₀ b₁ b₂ b₃ : UInt8) : UInt32 :=
  UInt32.ofNat (b₀.toNat * 2 ^ 24 + b₁.toNat * 2 ^ 16 + b₂.toNat * 2 ^ 8 + b₃.toNat)

@[simp] theorem length_beBytes (w : UInt32) : (beBytes w).length = 4 := rfl

theorem beBytes_beValue (b₀ b₁ b₂ b₃ : UInt8) : beBytes (beValue b₀ b₁ b₂ b₃) = [b₀, b₁, b₂, b₃] := by
  have h₀ := b₀.toNat_lt_size
  have h₁ := b₁.toNat_lt_size
  have h₂ := b₂.toNat_lt_size
  have h₃ := b₃.toNat_lt_size
  simp only [UInt8.size] at h₀ h₁ h₂ h₃
  simp only [beBytes, beValue, toNat_u32_ofNat, List.cons.injEq, u8_eq_iff_toNat,
    toNat_u8_ofNat, and_true]
  omega

/-- The bytes a word is serialized to, read back, give the word. -/
theorem beValue_beBytes (w : UInt32) :
    beValue (UInt8.ofNat (w.toNat / 2 ^ 24)) (UInt8.ofNat (w.toNat / 2 ^ 16))
      (UInt8.ofNat (w.toNat / 2 ^ 8)) (UInt8.ofNat w.toNat) = w := by
  have hw := w.toNat_lt_size
  simp only [UInt32.size] at hw
  simp only [beValue, u32_eq_iff_toNat, toNat_u32_ofNat, toNat_u8_ofNat]
  omega

end CasperTapcp

import CasperTapcp.Platform.Word

/-!
# The hex codec

The three conversion helpers at the top of `casper_tapcp.c`, and the `ctype.h` classes they and
the write path test, in the C locale. `hexToU32` is `hex_to_u32`: it reads a pointer into a byte
memory (a filename or `line_buf`) and accumulates at most eight hex digits; `u8ToHex` and
`u32ToHex` are `u8_to_hex` and `u32_to_hex`, which return the digits they write.

What they are for is stated through `hex8`, the eight uppercase hex digits of a number, the
format of every label and every FPGA word in a text-mode read. `u32ToHex_of_ne_zero` shows that
`u32_to_hex` with `do_zeros` set writes exactly `hex8` of its word, and `hexToU32_hex8` that
`hex_to_u32` reads those eight digits back to the word and stops just past them. Together they
are the codec round trip the text-mode read and write paths rely on.

With `do_zeros` clear, `u32_to_hex` threads through its four bytes a flag that forces both digits
once a non-zero byte has been written, and forces the low digit of the last byte; it writes
`hexMin`, the minimal-width hex of its word (`u32ToHex_zero`), the format of the fields of the
device listing. `hex_to_u32` reads any one to eight digits followed by a byte that is not a hex
digit back to their value (`hexToU32_digits`), so both widths round-trip (`u32ToHex_roundTrip`).
In general it reads one to eight digits of either case to `digitsWord` of them
(`hexToU32_bytes`), the form the scan of a written line relies on.
-/

set_option autoImplicit false
set_option relaxedAutoImplicit false

namespace CasperTapcp

/-! ### Character classes -/

/-- `isspace`: the space and the five control bytes `'\t'`, `'\n'`, `'\v'`, `'\f'`, `'\r'`. -/
def isspace (c : UInt8) : Bool := c == 32 || (9 ≤ c && c ≤ 13)

/-- `isdigit`: `'0'` to `'9'`. -/
def isdigit (c : UInt8) : Bool := 48 ≤ c && c ≤ 57

/-- `isxdigit`: the decimal digits and `'A'` to `'F'` in either case. -/
def isxdigit (c : UInt8) : Bool := isdigit c || (65 ≤ c && c ≤ 70) || (97 ≤ c && c ≤ 102)

/-- The byte `'\n'`, which ends every line of a hex dump. -/
def lf : UInt8 := 10

/-- The byte `':'`, which ends the label of a hex-dump line. -/
def colon : UInt8 := 58

/-- The byte `' '`. -/
def space : UInt8 := 32

/-! ### Cutting a text at a byte -/

/-- A text that holds `sep` is cut at the first one. -/
theorem exists_first_sep {sep : UInt8} : ∀ {l : List UInt8}, sep ∈ l →
    ∃ pre rest, sep ∉ pre ∧ l = pre ++ sep :: rest
  | c :: l, h => by
    by_cases hc : c = sep
    · exact ⟨[], l, List.not_mem_nil _, by rw [hc]; rfl⟩
    · obtain ⟨pre, rest, hpre, rfl⟩ := exists_first_sep ((List.mem_cons.1 h).resolve_left (Ne.symm hc))
      exact ⟨c :: pre, rest, by simp [Ne.symm hc, hpre], rfl⟩

/-- What comes before the first `sep` of a text. -/
theorem takeWhile_ne_sep {sep : UInt8} (pre rest : List UInt8) (hpre : sep ∉ pre) :
    (pre ++ sep :: rest).takeWhile (· ≠ sep) = pre := by
  rw [List.takeWhile_append_of_pos fun c hc => by
    simp only [ne_eq, decide_eq_true_eq]; rintro rfl; exact hpre hc]
  simp [List.takeWhile_cons]

/-- What comes after the `sep` that follows `pre`. -/
theorem drop_sep (pre : List UInt8) (sep : UInt8) (rest : List UInt8) :
    (pre ++ sep :: rest).drop (pre.length + 1) = rest := by
  rw [← List.singleton_append, ← List.append_assoc]
  exact List.drop_left' (by simp)

/-! ### `hex_to_u32` -/

/-- The value `hex_to_u32` ors into the word for a hex digit: `c - '0'` for a decimal digit,
`(c | 0x20) - 'a' + 10` for a letter. -/
def hexValue (c : UInt8) : UInt32 :=
  if isdigit c then (c - 48).toUInt32 else ((c ||| 0x20) - 97 + 10).toUInt32

/-- The digit loop of `hex_to_u32`, with `i` iterations left: it stops at the first byte that is
not a hex digit, or after the last iteration. -/
def hexToU32Loop (mem : Nat → UInt8) : (i : Nat) → (p : Nat) → (u32 : UInt32) → Nat × UInt32
  | 0, p, u32 => (p, u32)
  | i + 1, p, u32 =>
    if isxdigit (mem p) then hexToU32Loop mem i (p + 1) ((u32 <<< 4) ||| hexValue (mem p))
    else (p, u32)

/-- `hex_to_u32(p, &u32)`: at a byte other than NUL the word is cleared and up to eight hex
digits are accumulated into it; at NUL the word is left as it was. Returns the new `p` and the
word. -/
def hexToU32 (mem : Nat → UInt8) (p : Nat) (u32 : UInt32) : Nat × UInt32 :=
  if mem p ≠ 0 then hexToU32Loop mem 8 p 0 else (p, u32)

/-! ### `u8_to_hex` and `u32_to_hex` -/

/-- The ASCII digit of a nibble: `c - 10 + 'A'` above nine, `c + '0'` otherwise. -/
def hexChar (c : UInt8) : UInt8 := if c > 9 then c - 10 + 65 else c + 48

/-- `u8_to_hex(u8, p, do_zeros)`: the high digit is written when it is non-zero or
`do_zeros >> 4` is; writing it ors it into `do_zeros`, so the low digit is written when it is
non-zero, when a high digit was written, or when `do_zeros & 0xf` is non-zero. -/
def u8ToHex (u8 : UInt8) (doZeros : UInt8) : List UInt8 :=
  let c := (u8 >>> 4) &&& 0xf
  let high := c ≠ 0 ∨ doZeros >>> 4 ≠ 0
  let doZeros := if high then doZeros ||| c else doZeros
  let d := u8 &&& 0xf
  (if high then [hexChar c] else []) ++ (if d ≠ 0 ∨ doZeros &&& 0xf ≠ 0 then [hexChar d] else [])

/-- Iteration `i` of the loop of `u32_to_hex`: byte `i` of the word, most significant first, goes
through `u8_to_hex` with both digits forced once `do_zeros` is set and the low digit forced in
the last byte; the byte is then ored into `do_zeros`. -/
def u32ToHexStep (u32 : UInt32) (i : Nat) (doZeros : UInt8) : List UInt8 × UInt8 :=
  let c := ((u32 >>> UInt32.ofNat (24 - (i <<< 3))) &&& 0xff).toUInt8
  (u8ToHex c (if doZeros ≠ 0 then 0x11 else if i = 3 then 1 else 0), doZeros ||| c)

/-- `u32_to_hex(u32, p, do_zeros)`: the digits written, its four iterations unrolled. -/
def u32ToHex (u32 : UInt32) (doZeros : UInt8) : List UInt8 :=
  let (d₀, z₀) := u32ToHexStep u32 0 doZeros
  let (d₁, z₁) := u32ToHexStep u32 1 z₀
  let (d₂, z₂) := u32ToHexStep u32 2 z₁
  let (d₃, _) := u32ToHexStep u32 3 z₂
  d₀ ++ d₁ ++ d₂ ++ d₃

/-! ### Eight-digit hex -/

/-- The uppercase ASCII hex digit of `d < 16`. -/
def hexDigit (d : Nat) : UInt8 := if d < 10 then UInt8.ofNat (48 + d) else UInt8.ofNat (55 + d)

/-- The eight base-16 digits of `n` modulo `2^32`, most significant first. -/
def digits8 (n : Nat) : List Nat := [7, 6, 5, 4, 3, 2, 1, 0].map fun j => n / 16 ^ j % 16

/-- The eight uppercase hex digits of `n` modulo `2^32`, most significant first. -/
def hex8 (n : Nat) : List UInt8 := (digits8 n).map hexDigit

/-- The number whose base-16 digits, most significant first, follow the prefix `acc`. -/
def hexFold (acc : Nat) (ds : List Nat) : Nat := ds.foldl (fun a d => a * 16 + d) acc

/-- The base-16 digits of `n` modulo `2^32` without its leading zeros; `[0]` for zero. -/
def minDigits (n : Nat) : List Nat :=
  let ds := (digits8 n).dropWhile (· = 0)
  if ds = [] then [0] else ds

/-- The minimal-width uppercase hex of `n` modulo `2^32`: no leading zeros, and the single digit
`'0'` for zero. -/
def hexMin (n : Nat) : List UInt8 := (minDigits n).map hexDigit

@[simp] theorem length_hex8 (n : Nat) : (hex8 n).length = 8 := rfl

theorem hexDigit_props : ∀ d < 16,
    isxdigit (hexDigit d) ∧ ¬isspace (hexDigit d) ∧ hexDigit d ≠ colon ∧ hexDigit d ≠ lf ∧
      hexDigit d ≠ 0 ∧ hexValue (hexDigit d) = UInt32.ofNat d := by
  decide

/-- Every byte of `hex8 n` is a hex digit, so neither whitespace, `':'` nor `'\n'`. -/
theorem hex8_byte {n : Nat} {c : UInt8} (hc : c ∈ hex8 n) :
    isxdigit c = true ∧ isspace c = false ∧ c ≠ colon ∧ c ≠ lf := by
  simp only [hex8, digits8, List.mem_map] at hc
  obtain ⟨d, ⟨j, -, rfl⟩, rfl⟩ := hc
  obtain ⟨hx, hs, hcol, hlf, -⟩ := hexDigit_props _ (Nat.mod_lt _ (by omega))
  exact ⟨hx, by simpa using hs, hcol, hlf⟩

theorem hexChar_eq_hexDigit : ∀ n < 16, hexChar (UInt8.ofNat n) = hexDigit n := by
  decide

theorem forced_low_nibble : ∀ n < 16, ((0x11 : UInt8) ||| UInt8.ofNat n) &&& 0xf ≠ 0 := by
  decide

theorem u8_eq_ofNat_toNat (b : UInt8) : b = UInt8.ofNat b.toNat := by
  rw [u8_eq_iff_toNat, toNat_u8_ofNat]
  exact (Nat.mod_eq_of_lt b.toNat_lt_size).symm

/-- With both digits forced, `u8_to_hex` writes the two digits of its byte. -/
theorem u8ToHex_forced (b : UInt8) :
    u8ToHex b 0x11 = [hexDigit (b.toNat / 16), hexDigit (b.toNat % 16)] := by
  have hb := b.toNat_lt_size
  simp only [UInt8.size] at hb
  have hhi : ((b >>> 4) &&& 0xf).toNat = b.toNat / 16 := by
    rw [toNat_u8_and_15, toNat_u8_shiftRight_four]
    omega
  have hhi16 : b.toNat / 16 < 16 := by omega
  have hforce := forced_low_nibble _ hhi16
  rw [← hhi, ← u8_eq_ofNat_toNat] at hforce
  have hgate : (0x11 : UInt8) >>> 4 ≠ 0 := by decide
  simp only [u8ToHex]
  rw [if_pos (Or.inr hgate), if_pos (Or.inr hgate), if_pos (Or.inr hforce),
    u8_eq_ofNat_toNat ((b >>> 4) &&& 0xf), u8_eq_ofNat_toNat (b &&& 0xf), hhi, toNat_u8_and_15,
    hexChar_eq_hexDigit _ hhi16, hexChar_eq_hexDigit _ (Nat.mod_lt _ (by omega))]
  rfl

theorem toNat_u32_byte (w : UInt32) (i : Nat) (hi : i < 4) :
    ((w >>> UInt32.ofNat (24 - (i <<< 3))) &&& 0xff).toUInt8.toNat =
      w.toNat / 2 ^ (24 - 8 * i) % 256 := by
  have hs : (UInt32.ofNat (24 - (i <<< 3))).toNat % 32 = 24 - 8 * i := by
    rw [toNat_u32_ofNat, Nat.shiftLeft_eq]
    omega
  rw [toNat_u32_toUInt8, toNat_u32_and_255, toNat_u32_shiftRight, hs, Nat.mod_mod]

theorem u8_or_ne_zero {a : UInt8} (b : UInt8) (ha : a ≠ 0) : a ||| b ≠ 0 := by
  intro h
  have hz : a.toNat ||| b.toNat = 0 := by
    have := congrArg UInt8.toNat h
    exact (BitVec.toNat_or a.toBitVec b.toBitVec).symm.trans this
  have ha' : a.toNat ≠ 0 := fun h0 => ha (UInt8.toNat.inj h0)
  obtain ⟨i, hi⟩ := Nat.ne_zero_implies_bit_true ha'
  have := congrArg (Nat.testBit · i) hz
  simp [Nat.testBit_or, hi] at this

/-- An iteration of `u32_to_hex` once `do_zeros` is set writes both digits of its byte and
leaves `do_zeros` set. -/
theorem u32ToHexStep_forced (w : UInt32) (i : Nat) (hi : i < 4) {z : UInt8} (hz : z ≠ 0) :
    ∃ z', z' ≠ 0 ∧ u32ToHexStep w i z =
      ([hexDigit (w.toNat / 2 ^ (24 - 8 * i) % 256 / 16),
        hexDigit (w.toNat / 2 ^ (24 - 8 * i) % 256 % 16)], z') := by
  refine ⟨z ||| ((w >>> UInt32.ofNat (24 - (i <<< 3))) &&& 0xff).toUInt8, u8_or_ne_zero _ hz, ?_⟩
  simp only [u32ToHexStep, if_pos hz, u8ToHex_forced, toNat_u32_byte w i hi]

/-- `u32_to_hex` with `do_zeros` set writes the eight digits of its word. -/
theorem u32ToHex_of_ne_zero (w : UInt32) {z : UInt8} (hz : z ≠ 0) :
    u32ToHex w z = hex8 w.toNat := by
  obtain ⟨z₀, hz₀, h₀⟩ := u32ToHexStep_forced w 0 (by omega) hz
  obtain ⟨z₁, hz₁, h₁⟩ := u32ToHexStep_forced w 1 (by omega) hz₀
  obtain ⟨z₂, hz₂, h₂⟩ := u32ToHexStep_forced w 2 (by omega) hz₁
  obtain ⟨z₃, -, h₃⟩ := u32ToHexStep_forced w 3 (by omega) hz₂
  simp only [u32ToHex, h₀, h₁, h₂, h₃, hex8, List.map, List.cons_append, List.singleton_append,
    List.nil_append, List.cons.injEq, and_true]
  norm_num
  refine ⟨?_, ?_, ?_, ?_⟩ <;> congr 1 <;> omega

/-! ### Minimal-width hex -/

theorem nibble_props : ∀ h < 16, (UInt8.ofNat h = 0 ↔ h = 0) ∧
    ((0 : UInt8) ||| UInt8.ofNat h) &&& 0xf = UInt8.ofNat h ∧
    ((1 : UInt8) ||| UInt8.ofNat h) &&& 0xf ≠ 0 ∧ hexChar (UInt8.ofNat h) = hexDigit h := by
  decide

theorem u8_nibbles (b : UInt8) :
    (b >>> 4) &&& 0xf = UInt8.ofNat (b.toNat / 16) ∧ b &&& 0xf = UInt8.ofNat (b.toNat % 16) ∧
      b.toNat / 16 < 16 ∧ b.toNat % 16 < 16 := by
  have hb := b.toNat_lt_size
  simp only [UInt8.size] at hb
  refine ⟨?_, ?_, by omega, by omega⟩
  · rw [u8_eq_iff_toNat, toNat_u8_and_15, toNat_u8_shiftRight_four, toNat_u8_ofNat]; omega
  · rw [u8_eq_iff_toNat, toNat_u8_and_15, toNat_u8_ofNat]; omega

theorem u8ToHex_unforced (b : UInt8) :
    u8ToHex b 0 = ([b.toNat / 16, b.toNat % 16].dropWhile (· = 0)).map hexDigit := by
  obtain ⟨hhi, hlo, hh, hl⟩ := u8_nibbles b
  obtain ⟨h0, hor, -, hch⟩ := nibble_props _ hh
  obtain ⟨l0, -, -, lch⟩ := nibble_props _ hl
  simp only [u8ToHex, hhi, hlo, show (0 : UInt8) >>> 4 = 0 from rfl, ne_eq, not_true_eq_false,
    or_false, h0, l0, hch, lch]
  generalize b.toNat / 16 = h at hor h0 ⊢
  generalize b.toNat % 16 = l
  rcases Nat.eq_zero_or_pos h with rfl | H
  · rcases Nat.eq_zero_or_pos l with rfl | L
    · rfl
    · simp [L.ne', show (0 : UInt8) &&& 0xf = 0 from rfl]
  · simp [H.ne', hor, h0]

theorem u8ToHex_low_forced (b : UInt8) :
    u8ToHex b 1 = (if b.toNat / 16 = 0 then [b.toNat % 16] else [b.toNat / 16, b.toNat % 16]).map hexDigit := by
  obtain ⟨hhi, hlo, hh, hl⟩ := u8_nibbles b
  obtain ⟨h0, -, hone, hch⟩ := nibble_props _ hh
  obtain ⟨-, -, -, lch⟩ := nibble_props _ hl
  simp only [u8ToHex, hhi, hlo, show (1 : UInt8) >>> 4 = 0 from rfl, ne_eq, not_true_eq_false,
    or_false, h0, hch, lch]
  generalize b.toNat / 16 = h at hone h0 ⊢
  rcases Nat.eq_zero_or_pos h with rfl | H
  · simp [show (1 : UInt8) &&& 0xf ≠ 0 by decide]
  · simp [H.ne', hone]

theorem u8_zero_or (c : UInt8) : (0 : UInt8) ||| c = c := by
  rw [u8_eq_iff_toNat]
  show (0 ||| c.toBitVec).toNat = c.toBitVec.toNat
  simp

/-- Before the first non-zero byte, an iteration of `u32_to_hex` other than the last writes its
byte without leading zeros, and `do_zeros` becomes the byte. -/
theorem u32ToHexStep_unforced (w : UInt32) (i : Nat) (hi : i < 3) :
    ∃ z', (z' = 0 ↔ w.toNat / 2 ^ (24 - 8 * i) % 256 = 0) ∧ u32ToHexStep w i 0 =
      (([w.toNat / 2 ^ (24 - 8 * i) % 256 / 16, w.toNat / 2 ^ (24 - 8 * i) % 256 % 16].dropWhile
        (· = 0)).map hexDigit, z') := by
  have hc := toNat_u32_byte w i (by omega)
  refine ⟨((w >>> UInt32.ofNat (24 - (i <<< 3))) &&& 0xff).toUInt8, ?_, ?_⟩
  · rw [← hc, u8_eq_iff_toNat]; rfl
  · simp only [u32ToHexStep, u8_zero_or, ne_eq, not_true_eq_false, if_false,
      if_neg (show i ≠ 3 by omega), u8ToHex_unforced, hc]

/-- The last iteration of `u32_to_hex`, when every byte before it was 0, forces the low digit. -/
theorem u32ToHexStep_last (w : UInt32) :
    ∃ z', u32ToHexStep w 3 0 = ((if w.toNat % 256 / 16 = 0 then [w.toNat % 256 % 16]
      else [w.toNat % 256 / 16, w.toNat % 256 % 16]).map hexDigit, z') := by
  have hc := toNat_u32_byte w 3 (by omega)
  simp only [Nat.reduceMul, Nat.reduceSub, pow_zero, Nat.div_one] at hc
  refine ⟨(0 : UInt8) ||| ((w >>> UInt32.ofNat (24 - (3 <<< 3))) &&& 0xff).toUInt8, ?_⟩
  simp only [u32ToHexStep, ne_eq, not_true_eq_false, if_false, if_true, u8ToHex_low_forced, hc]

theorem dropWhile_zero_pair (a b : Nat) (rest : List Nat) :
    (a :: b :: rest).dropWhile (· = 0) =
      if a = 0 ∧ b = 0 then rest.dropWhile (· = 0) else (if a = 0 then [b] else [a, b]) ++ rest := by
  by_cases ha : a = 0 <;> by_cases hb : b = 0 <;> simp [List.dropWhile, ha, hb]

/-- An iteration of `u32_to_hex` other than the last writes both digits of its byte once a
non-zero byte was seen, and the byte without leading zeros before; `do_zeros` stays 0 exactly
while every byte so far is 0. -/
theorem u32ToHexStep_eq (w : UInt32) (i : Nat) (hi : i < 3) (z : UInt8) :
    ∃ z', (z' = 0 ↔ z = 0 ∧ w.toNat / 2 ^ (24 - 8 * i) % 256 = 0) ∧ u32ToHexStep w i z =
      ((if z = 0 then [w.toNat / 2 ^ (24 - 8 * i) % 256 / 16, w.toNat / 2 ^ (24 - 8 * i) % 256 % 16].dropWhile (· = 0)
        else [w.toNat / 2 ^ (24 - 8 * i) % 256 / 16, w.toNat / 2 ^ (24 - 8 * i) % 256 % 16]).map hexDigit, z') := by
  by_cases hz : z = 0
  · subst hz
    obtain ⟨z', hz', h⟩ := u32ToHexStep_unforced w i hi
    exact ⟨z', by simpa using hz', by simpa using h⟩
  · obtain ⟨z', hz', h⟩ := u32ToHexStep_forced w i (by omega) hz
    exact ⟨z', by simp [hz, hz'], by simpa [hz] using h⟩

/-- The last iteration of `u32_to_hex` writes both digits once a non-zero byte was seen, and
otherwise forces the low digit. -/
theorem u32ToHexStep_three (w : UInt32) (z : UInt8) :
    ∃ z', u32ToHexStep w 3 z = ((if z = 0 ∧ w.toNat % 256 / 16 = 0 then [w.toNat % 256 % 16]
      else [w.toNat % 256 / 16, w.toNat % 256 % 16]).map hexDigit, z') := by
  by_cases hz : z = 0
  · subst hz
    obtain ⟨z', h⟩ := u32ToHexStep_last w
    exact ⟨z', by simpa using h⟩
  · obtain ⟨z', -, h⟩ := u32ToHexStep_forced w 3 (by omega) hz
    exact ⟨z', by simpa [hz] using h⟩

theorem digits_eq_zero (b : Nat) : b / 16 = 0 ∧ b % 16 = 0 ↔ b = 0 := by omega

theorem digits8_bytes (n : Nat) : digits8 n =
    [n / 2 ^ 24 % 256 / 16, n / 2 ^ 24 % 256 % 16, n / 2 ^ 16 % 256 / 16, n / 2 ^ 16 % 256 % 16,
      n / 2 ^ 8 % 256 / 16, n / 2 ^ 8 % 256 % 16, n % 256 / 16, n % 256 % 16] := by
  simp only [digits8, List.map, List.cons.injEq, and_true]
  norm_num
  omega

/-- `u32_to_hex` with `do_zeros` clear writes the minimal-width hex of its word. -/
theorem u32ToHex_zero (w : UInt32) : u32ToHex w 0 = hexMin w.toNat := by
  obtain ⟨z₀, hz₀, h₀⟩ := u32ToHexStep_eq w 0 (by omega) 0
  obtain ⟨z₁, hz₁, h₁⟩ := u32ToHexStep_eq w 1 (by omega) z₀
  obtain ⟨z₂, hz₂, h₂⟩ := u32ToHexStep_eq w 2 (by omega) z₁
  obtain ⟨z₃, h₃⟩ := u32ToHexStep_three w z₂
  simp only [Nat.reduceMul, Nat.reduceSub, pow_zero, Nat.div_one, true_and] at hz₀ h₀ hz₁ h₁ hz₂ h₂
  simp only [u32ToHex, h₀, h₁, h₂, h₃, hz₀, hz₁, hz₂, hexMin, minDigits, digits8_bytes,
    dropWhile_zero_pair]
  by_cases c₀ : w.toNat / 16777216 % 256 = 0 <;> by_cases c₁ : w.toNat / 65536 % 256 = 0 <;>
    by_cases c₂ : w.toNat / 256 % 256 = 0 <;> simp [c₀, c₁, c₂, digits_eq_zero]
  -- the first three bytes are 0
  by_cases c₃ : w.toNat % 256 = 0
  · simp [c₃]
  · by_cases c₄ : w.toNat % 256 / 16 = 0 <;> simp [c₃, c₄]

/-! ### Reading digits back -/

/-- Folding the low `k` base-16 digits of `n`, most significant first, after `acc`. -/
theorem hexFold_low_digits (n : Nat) :
    ∀ (k acc : Nat), hexFold acc ((List.range k).reverse.map fun j => n / 16 ^ j % 16) =
      acc * 16 ^ k + n % 16 ^ k := by
  intro k
  induction k with
  | zero => intro acc; simp [hexFold, Nat.mod_one]
  | succ k ih =>
    intro acc
    rw [List.range_succ, List.reverse_append, List.map_append]
    simp only [List.reverse_singleton, List.map_cons, List.map_nil, List.singleton_append, hexFold,
      List.foldl_cons] at ih ⊢
    rw [ih, Nat.mod_pow_succ]
    ring

theorem hexFold_digits8 (n : Nat) : hexFold 0 (digits8 n) = n % 2 ^ 32 :=
  (hexFold_low_digits n 8 0).trans (by simp)

/-- A hex digit is worth less than sixteen, and is neither whitespace nor NUL. -/
theorem xdigit_props {c : UInt8} (hc : isxdigit c = true) :
    (hexValue c).toNat < 16 ∧ isspace c = false ∧ c ≠ 0 := by
  have h : ∀ n < 256, isxdigit (UInt8.ofNat n) = true →
      (hexValue (UInt8.ofNat n)).toNat < 16 ∧ isspace (UInt8.ofNat n) = false ∧
        UInt8.ofNat n ≠ 0 := by
    set_option maxRecDepth 2000 in decide
  rw [u8_eq_ofNat_toNat c] at hc ⊢
  exact h _ c.toNat_lt_size hc

/-- The word `hex_to_u32` reads from the hex digits `cs`: their value, most significant first,
modulo `2^32`. -/
def digitsWord (cs : List UInt8) : UInt32 :=
  UInt32.ofNat (hexFold 0 (cs.map fun c => (hexValue c).toNat))

/-- The uppercase hex digits of `ds` are worth `ds`. -/
theorem hexValue_hexDigits (ds : List Nat) (hds : ∀ d ∈ ds, d < 16) :
    (ds.map hexDigit).map (fun c => (hexValue c).toNat) = ds := by
  rw [List.map_map]
  conv_rhs => rw [← List.map_id ds]
  refine List.map_congr_left fun d hd => ?_
  have := hds d hd
  simp only [Function.comp, (hexDigit_props d this).2.2.2.2.2, toNat_u32_ofNat, id]
  omega

theorem digits8_lt (n : Nat) : ∀ d ∈ digits8 n, d < 16 := by
  simp only [digits8, List.mem_map, forall_exists_index, and_imp]
  intro d j _ hj; rw [← hj]; omega

/-- The eight digits of `n` are worth `n` modulo `2^32`. -/
theorem digitsWord_hex8 (n : Nat) : digitsWord (hex8 n) = UInt32.ofNat n := by
  rw [digitsWord, hex8, hexValue_hexDigits _ (digits8_lt n), hexFold_digits8, u32_eq_iff_toNat,
    toNat_u32_ofNat, toNat_u32_ofNat, Nat.mod_mod]

/-- The loop of `hex_to_u32`, given hex digits no more than its iterations left and an
accumulator with room for them, consumes them all and accumulates their value. -/
theorem hexToU32Loop_bytes (mem : Nat → UInt8) (cs : List UInt8)
    (hcs : ∀ c ∈ cs, isxdigit c = true) :
    ∀ (i p : Nat) (acc : UInt32), cs.length ≤ i →
      (acc.toNat + 1) * 16 ^ cs.length ≤ 2 ^ 32 →
      (∀ j < cs.length, mem (p + j) = cs.getD j 0) →
      hexToU32Loop mem i p acc = hexToU32Loop mem (i - cs.length) (p + cs.length)
        (UInt32.ofNat (hexFold acc.toNat (cs.map fun c => (hexValue c).toNat))) := by
  induction cs with
  | nil =>
    intro i p acc _ _ _
    simp only [hexFold, List.map_nil, List.foldl, List.length_nil, Nat.sub_zero, Nat.add_zero]
    congr
    rw [u32_eq_iff_toNat, toNat_u32_ofNat]
    exact (Nat.mod_eq_of_lt acc.toNat_lt_size).symm
  | cons c cs ih =>
    intro i p acc hi hroom hmem
    obtain ⟨i, rfl⟩ : ∃ i', i = i' + 1 := ⟨i - 1, by simp at hi; omega⟩
    have hx : isxdigit c = true := hcs c (List.mem_cons_self c cs)
    have hd := (xdigit_props hx).1
    have hp : mem p = c := by simpa using hmem 0 (by simp)
    rw [List.length_cons, pow_succ] at hroom
    have hroom16 : (acc.toNat + 1) * 16 ≤ 2 ^ 32 :=
      le_trans (Nat.mul_le_mul_left _ (Nat.le_mul_of_pos_left 16 (Nat.pos_pow_of_pos _ (by decide))))
        hroom
    have hsh : (acc <<< 4).toNat = acc.toNat * 16 := by
      rw [toNat_u32_shiftLeft, show (4 : UInt32).toNat % 32 = 4 from rfl]
      omega
    have hacc : (acc <<< 4 ||| hexValue (mem p)).toNat = acc.toNat * 16 + (hexValue c).toNat := by
      rw [hp, toNat_u32_or_low 4 _ _ (by rw [hsh]; omega) (by omega), hsh]
    simp only [hexToU32Loop, hp ▸ hx, if_true, List.length_cons]
    rw [ih (fun c' hc' => hcs c' (List.mem_cons_of_mem c hc')) i (p + 1) _ (by simp at hi; omega)]
    · simp only [hacc, hexFold, List.map_cons, List.foldl, Nat.add_assoc, Nat.add_comm 1,
        Nat.succ_sub_succ]
    · rw [hacc]
      calc (acc.toNat * 16 + (hexValue c).toNat + 1) * 16 ^ cs.length
          ≤ (acc.toNat + 1) * 16 * 16 ^ cs.length := Nat.mul_le_mul_right _ (by omega)
        _ = (acc.toNat + 1) * (16 ^ cs.length * 16) := by ring
        _ ≤ 2 ^ 32 := hroom
    · intro j hj
      rw [Nat.add_assoc, Nat.add_comm 1 j]
      simpa using hmem (j + 1) (by simp; omega)

/-- `hex_to_u32` on a buffer with a `'\n'` at `k` reads nothing past `k`: two buffers that agree up
to `k` give the same result, and the new `p` is at most `k`. -/
theorem hexToU32_congr {b₁ b₂ : Nat → UInt8} {k : Nat} (hk : b₁ k = lf)
    (hag : ∀ j ≤ k, b₁ j = b₂ j) (p : Nat) (u32 : UInt32) (hp : p ≤ k) :
    hexToU32 b₁ p u32 = hexToU32 b₂ p u32 ∧ (hexToU32 b₁ p u32).1 ≤ k := by
  have hloop : ∀ i p acc, p ≤ k →
      hexToU32Loop b₁ i p acc = hexToU32Loop b₂ i p acc ∧ (hexToU32Loop b₁ i p acc).1 ≤ k := by
    intro i
    induction i with
    | zero => exact fun p acc hp => ⟨rfl, hp⟩
    | succ i ih =>
      intro p acc hp
      simp only [hexToU32Loop, ← hag p hp]
      split
      · rename_i hx
        have hpk : p ≠ k := by
          rintro rfl
          rw [hk] at hx
          exact absurd hx (by decide)
        exact ih _ _ (by omega)
      · exact ⟨rfl, hp⟩
  simp only [hexToU32, ← hag p hp]
  split
  · exact hloop 8 p 0 hp
  · exact ⟨rfl, hp⟩

/-- `hex_to_u32` reads one to eight hex digits to `digitsWord` of them and stops just past them,
when they are eight or the byte after them is not a hex digit. -/
theorem hexToU32_bytes (mem : Nat → UInt8) (p : Nat) (u32 : UInt32) (cs : List UInt8)
    (hcs : ∀ c ∈ cs, isxdigit c = true) (hlen : 0 < cs.length) (h8 : cs.length ≤ 8)
    (hmem : ∀ j < cs.length, mem (p + j) = cs.getD j 0)
    (hstop : cs.length < 8 → isxdigit (mem (p + cs.length)) = false) :
    hexToU32 mem p u32 = (p + cs.length, digitsWord cs) := by
  have h0 : mem p ≠ 0 := by
    rw [← Nat.add_zero p, hmem 0 hlen, List.getD_eq_getElem _ _ hlen]
    exact (xdigit_props (hcs _ (List.getElem_mem _))).2.2
  have hroom : ((0 : UInt32).toNat + 1) * 16 ^ cs.length ≤ 2 ^ 32 :=
    calc ((0 : UInt32).toNat + 1) * 16 ^ cs.length = 16 ^ cs.length := by simp
      _ ≤ 16 ^ 8 := Nat.pow_le_pow_right (by decide) h8
      _ = 2 ^ 32 := by norm_num
  rw [hexToU32, if_pos h0, hexToU32Loop_bytes mem cs hcs 8 p 0 h8 hroom hmem, UInt32.toNat_zero]
  rcases Nat.lt_or_ge cs.length 8 with h | h
  · obtain ⟨k, hk⟩ : ∃ k, 8 - cs.length = k + 1 := ⟨7 - cs.length, by omega⟩
    rw [hk, hexToU32Loop, hstop h]
    rfl
  · rw [show 8 - cs.length = 0 by omega, hexToU32Loop]
    rfl

/-- `hex_to_u32` reads the eight digits `hex8 n` back to `n` modulo `2^32` and stops just past
them, whatever follows. -/
theorem hexToU32_hex8 (mem : Nat → UInt8) (p n : Nat) (u32 : UInt32)
    (h : ∀ j < 8, mem (p + j) = (hex8 n).getD j 0) :
    hexToU32 mem p u32 = (p + 8, UInt32.ofNat n) := by
  rw [hexToU32_bytes mem p u32 (hex8 n) (fun c hc => (hex8_byte hc).1) (by simp) le_rfl h
    (fun h8 => absurd h8 (by simp)), length_hex8, digitsWord_hex8]

/-- `hex_to_u32` reads one to eight hex digits back to their value and stops just past them, when
the byte after them is not a hex digit. -/
theorem hexToU32_digits (mem : Nat → UInt8) (p : Nat) (u32 : UInt32) (ds : List Nat)
    (hds : ∀ d ∈ ds, d < 16) (hlen : 0 < ds.length) (h8 : ds.length ≤ 8)
    (hmem : ∀ j < ds.length, mem (p + j) = hexDigit (ds.getD j 0))
    (hstop : isxdigit (mem (p + ds.length)) = false) :
    hexToU32 mem p u32 = (p + ds.length, UInt32.ofNat (hexFold 0 ds)) := by
  have hcs : ∀ c ∈ ds.map hexDigit, isxdigit c = true := by
    simp only [List.mem_map, forall_exists_index, and_imp]
    rintro _ d hd rfl
    exact (hexDigit_props d (hds d hd)).1
  have h := hexToU32_bytes mem p u32 (ds.map hexDigit) hcs (by simpa using hlen) (by simpa using h8)
    (fun j hj => ?_) (fun _ => by simpa using hstop)
  · rwa [List.length_map, digitsWord, hexValue_hexDigits ds hds] at h
  · rw [List.length_map] at hj
    rw [hmem j hj, List.getD_eq_getElem _ _ hj, List.getD_eq_getElem _ _ (by simpa using hj),
      List.getElem_map]

theorem hexFold_dropWhile_zero (l : List Nat) : hexFold 0 (l.dropWhile (· = 0)) = hexFold 0 l := by
  induction l with
  | nil => rfl
  | cons d l ih =>
    by_cases hd : d = 0
    · subst hd
      simpa [List.dropWhile, hexFold] using ih
    · simp [List.dropWhile, hd]

/-- The digits of `hexMin n` are one to eight base-16 digits whose value is `n` modulo `2^32`. -/
theorem minDigits_props (n : Nat) : (∀ d ∈ minDigits n, d < 16) ∧ 0 < (minDigits n).length ∧
    (minDigits n).length ≤ 8 ∧ hexFold 0 (minDigits n) = n % 2 ^ 32 := by
  have hsub : ∀ d ∈ (digits8 n).dropWhile (· = 0), d < 16 := fun d hd => by
    have := (List.dropWhile_suffix _).mem hd
    simp only [digits8, List.mem_map] at this
    obtain ⟨j, -, rfl⟩ := this
    omega
  have hle : ((digits8 n).dropWhile (· = 0)).length ≤ 8 :=
    (List.dropWhile_suffix _).length_le
  simp only [minDigits]
  split_ifs with h
  · refine ⟨by simp, by simp, by simp, ?_⟩
    rw [← hexFold_digits8, ← hexFold_dropWhile_zero (digits8 n), h]
    rfl
  · exact ⟨hsub, List.length_pos.mpr h, hle, by rw [hexFold_dropWhile_zero, hexFold_digits8]⟩

theorem lf_not_mem_hexMin (n : Nat) : lf ∉ hexMin n := fun h => by
  obtain ⟨d, hd, hlf⟩ := List.mem_map.mp h
  exact (hexDigit_props d ((minDigits_props n).1 d hd)).2.2.2.1 hlf

theorem length_hexMin_le (n : Nat) : (hexMin n).length ≤ 8 := by
  simpa [hexMin] using (minDigits_props n).2.2.1

/-- A byte has at most two digits. -/
theorem length_hexMin_byte (b : UInt8) : (hexMin b.toNat).length ≤ 2 := by
  have hb := b.toNat_lt_size
  simp only [UInt8.size] at hb
  have h : digits8 b.toNat = List.replicate 6 0 ++ [b.toNat / 16 % 16, b.toNat % 16] := by
    simp [digits8, List.replicate]
    omega
  have hd : (digits8 b.toNat).dropWhile (· = 0) =
      [b.toNat / 16 % 16, b.toNat % 16].dropWhile (· = 0) := by
    rw [h, List.dropWhile_append_of_pos (by simp)]
  simp only [hexMin, List.length_map, minDigits, hd]
  split_ifs
  · simp
  · exact (List.dropWhile_suffix _).length_le

/-- `u32_to_hex(w, p, z)` writes the eight uppercase hex digits of `w` when `z ≠ 0` and its
minimal-width uppercase hex when `z = 0`; followed by a byte that is not a hex digit, those digits
read back with `hex_to_u32` to `w`, with `p` just past them. -/
theorem u32ToHex_roundTrip (w : UInt32) (z : UInt8) :
    u32ToHex w z = (if z = 0 then hexMin w.toNat else hex8 w.toNat) ∧
      ∀ (mem : Nat → UInt8) (p : Nat) (u32 : UInt32),
        (∀ j < (u32ToHex w z).length, mem (p + j) = (u32ToHex w z).getD j 0) →
        isxdigit (mem (p + (u32ToHex w z).length)) = false →
        hexToU32 mem p u32 = (p + (u32ToHex w z).length, w) := by
  have hout : u32ToHex w z = (if z = 0 then hexMin w.toNat else hex8 w.toNat) := by
    split_ifs with hz
    · rw [hz, u32ToHex_zero]
    · exact u32ToHex_of_ne_zero w hz
  refine ⟨hout, fun mem p u32 hdig hstop => ?_⟩
  obtain ⟨ds, hds, hlen, h8, hval, hmap⟩ : ∃ ds : List Nat, (∀ d ∈ ds, d < 16) ∧
      0 < ds.length ∧ ds.length ≤ 8 ∧ hexFold 0 ds = w.toNat % 2 ^ 32 ∧
      u32ToHex w z = ds.map hexDigit := by
    rw [hout]
    split_ifs
    · obtain ⟨h₁, h₂, h₃, h₄⟩ := minDigits_props w.toNat
      exact ⟨_, h₁, h₂, h₃, h₄, rfl⟩
    · refine ⟨digits8 w.toNat, fun d hd => ?_, by simp [digits8], le_rfl, hexFold_digits8 _, rfl⟩
      simp only [digits8, List.mem_map] at hd
      obtain ⟨j, -, rfl⟩ := hd
      omega
  rw [hmap, List.length_map] at hdig hstop ⊢
  rw [hexToU32_digits mem p u32 ds hds hlen h8 (fun j hj => ?_) hstop, hval,
    Nat.mod_eq_of_lt (show w.toNat < 2 ^ 32 from w.toNat_lt_size), u32_ofNat_toNat]
  rw [hdig j (by simpa using hj), List.getD_eq_getElem _ _ (by simpa using hj),
    List.getD_eq_getElem _ _ hj, List.getElem_map]

/-- `0xA5` with `do_zeros` clear is written `"A5"`, and read back before a space. -/
theorem u32ToHex_roundTrip_A5 :
    u32ToHex 0xA5 0 = [65, 53] ∧ hexToU32 (fun i => [65, 53, 32].getD i 0) 0 0 = (0 + 2, 0xA5) := by
  have h := u32ToHex_roundTrip 0xA5 0
  have hw : u32ToHex 0xA5 0 = [65, 53] := by decide
  rw [hw] at h
  exact ⟨hw, h.2 _ 0 0 (by decide) (by decide)⟩

end CasperTapcp

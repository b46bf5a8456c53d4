import CasperTapcp.Read.HexDump
import CasperTapcp.Read.CpuBytes

/-!
# The hex dump of CPU memory

`casper_tapcp_read_mem_bytes_ascii` sends a hex dump of CPU memory: lines of sixteen bytes, each
an 8-digit label counting bytes from 0, `": "`, the bytes as two uppercase digits in groups of
four separated by single spaces, and `'\n'`; the last line holds the bytes that are left.
`memDump` states that format in the words of the read format at the top of the source.

The byte loop of a line puts a space after every fourth byte but the sixteenth, and only then
checks whether `nleft` has run out. So a last line that ends a group of four before its sixteenth
byte ends in a space before its `'\n'`: a read of `n` bytes whose request covers the dump sends
the dump with that space when `n % 16` is 4, 8 or 12 and the dump exactly otherwise, loading the
`n` bytes once each, in address order (`readMemBytesAscii_dump`). Each byte is read by a 32-bit
load at its own address, truncated to its low byte, so the load of the last byte also reads the
three bytes after the region. A read of four bytes shows both (`readMemBytesAscii_trailing_space`).

The proof goes line by line through `dumpLoop_run`: `memBytesLine_spec` says what one line
writes and loads, and `lineBytesText_eq` compares its bytes with the format.
-/

set_option autoImplicit false
set_option relaxedAutoImplicit false

namespace CasperTapcp

/-! ### The read format -/

/-- The two uppercase hex digits of a byte. -/
def hex2 (b : UInt8) : List UInt8 := [hexDigit (b.toNat / 16), hexDigit (b.toNat % 16)]

/-- The bytes of a line as two digits each, in groups of four separated by single spaces: a
space follows a byte that ends a group when another byte follows it. -/
def byteGroups (bs : List UInt8) : List UInt8 :=
  (List.range bs.length).flatMap fun j =>
    hex2 (bs.getD j 0) ++ if j % 4 = 3 ∧ j + 1 < bs.length then [space] else []

/-- A line of the hex dump of CPU bytes: the label as eight digits, `": "`, the bytes and `'\n'`. -/
def memDumpLine (label : Nat) (bs : List UInt8) : List UInt8 :=
  hex8 label ++ [colon, space] ++ byteGroups bs ++ [lf]

/-- The hex dump of the `n` CPU bytes at `a` with labels from `label`: line `i` holds bytes `16i`
to `16i + 15`, as many as there are, and is labelled `label + 16i`. -/
def memDumpFrom (label : Nat) (cpu : Nat → UInt8) (a n : Nat) : List UInt8 :=
  (List.range ((n + 15) / 16)).flatMap fun i =>
    memDumpLine (label + 16 * i) (bytesAt cpu (a + 16 * i) (min 16 (n - 16 * i)))

/-- The hex dump a text-mode read of `n` CPU bytes at `a` sends: labels from 0. -/
def memDump (cpu : Nat → UInt8) (a n : Nat) : List UInt8 := memDumpFrom 0 cpu a n

/-- The 32-bit loads at the `k` addresses from `p`, in address order. -/
def cpuLoads (p k : Nat) : List BusEvent := (List.range k).map fun i => .cpuLoad (p + i)

theorem cpuLoads_add (p a b : Nat) : cpuLoads p (a + b) = cpuLoads p a ++ cpuLoads (p + a) b := by
  simp only [cpuLoads, List.range_add, List.map_append, List.map_map]
  congr 2
  funext i
  simp [Nat.add_assoc]

@[simp] theorem cpuLoads_zero (p : Nat) : cpuLoads p 0 = [] := rfl

theorem cpuLoads_succ (p k : Nat) : cpuLoads p (k + 1) = .cpuLoad p :: cpuLoads (p + 1) k := by
  simp only [cpuLoads, List.range_succ_eq_map, List.map_cons, List.map_map, Nat.add_zero]
  congr 2
  funext i
  simp [Nat.add_assoc, Nat.add_comm 1 i]

/-- The dump of a non-empty region is its first line and the dump of the bytes after it. -/
theorem memDumpFrom_of_pos (label : Nat) (cpu : Nat → UInt8) (a : Nat) {n : Nat} (hn : 0 < n) :
    memDumpFrom label cpu a n = memDumpLine label (bytesAt cpu a (min 16 n)) ++
      memDumpFrom (label + 16) cpu (a + 16) (n - 16) := by
  have hlines : (n + 15) / 16 = (n - 16 + 15) / 16 + 1 := by omega
  rw [memDumpFrom, hlines, List.range_succ_eq_map, List.flatMap_cons, memDumpFrom]
  simp only [Nat.mul_zero, Nat.add_zero, Nat.sub_zero, List.flatMap, List.map_map]
  congr 2
  refine List.map_congr_left fun i _ => ?_
  simp only [Function.comp_apply, Nat.succ_eq_add_one]
  rw [show label + 16 * (i + 1) = label + 16 + 16 * i by omega,
    show a + 16 * (i + 1) = a + 16 + 16 * i by omega, show n - 16 * (i + 1) = n - 16 - 16 * i by omega]

theorem memDumpFrom_zero (label : Nat) (cpu : Nat → UInt8) (a : Nat) :
    memDumpFrom label cpu a 0 = [] := rfl

/-- Labels are written modulo `2^32`. -/
theorem memDumpFrom_mod (label : Nat) (cpu : Nat → UInt8) (a n : Nat) :
    memDumpFrom (label % 2 ^ 32) cpu a n = memDumpFrom label cpu a n := by
  simp only [memDumpFrom, memDumpLine]
  refine List.flatMap_congr fun i _ => ?_
  rw [← hex8_mod (label % 2 ^ 32 + 16 * i), ← hex8_mod (label + 16 * i),
    show (label % 2 ^ 32 + 16 * i) % 2 ^ 32 = (label + 16 * i) % 2 ^ 32 by omega]

/-! ### One line of CPU bytes -/

/-- What the byte loop of a line writes for `k` bytes from `p`, from byte `i` of the line on:
two digits a byte, and a space after every fourth byte of the line but the sixteenth. -/
def lineBytesText (cpu : Nat → UInt8) (p i k : Nat) : List UInt8 :=
  (List.range k).flatMap fun j =>
    hex2 (cpu (p + j)) ++ if (i + j) % 4 = 3 ∧ i + j ≠ 15 then [space] else []

theorem lineBytesText_succ (cpu : Nat → UInt8) (p i k : Nat) :
    lineBytesText cpu p i (k + 1) = hex2 (cpu p) ++
      (if i % 4 = 3 ∧ i ≠ 15 then [space] else []) ++ lineBytesText cpu (p + 1) (i + 1) k := by
  simp only [lineBytesText, List.range_succ_eq_map, List.flatMap_cons, Nat.add_zero,
    List.append_assoc, List.flatMap_map]
  congr 3
  funext j
  simp only [Function.comp_apply, Nat.succ_eq_add_one, Nat.add_assoc, Nat.add_comm 1 j]

/-- The text of a line depends only on the bytes it shows. -/
theorem lineBytesText_congr {f g : Nat → UInt8} {p : Nat} (i : Nat) {k : Nat}
    (h : ∀ j < k, f (p + j) = g (p + j)) : lineBytesText f p i k = lineBytesText g p i k :=
  List.flatMap_congr fun j hj => by rw [h j (List.mem_range.1 hj)]

@[simp] theorem lineBytesText_zero (cpu : Nat → UInt8) (p i : Nat) : lineBytesText cpu p i 0 = [] :=
  rfl

@[simp] theorem length_hex2 (b : UInt8) : (hex2 b).length = 2 := rfl

/-- Its length does not depend on the bytes at all. -/
theorem length_lineBytesText (f g : Nat → UInt8) (k : Nat) :
    ∀ p i, (lineBytesText f p i k).length = (lineBytesText g p i k).length := by
  induction k with
  | zero => intro p i; rfl
  | succ k ih =>
    intro p i
    simp only [lineBytesText_succ, List.length_append, length_hex2, ih (p + 1) (i + 1)]

theorem length_lineBytesText_le (f : Nat → UInt8) (k : Nat) :
    ∀ p i, (lineBytesText f p i k).length ≤ 3 * k := by
  induction k with
  | zero => intro p i; simp [lineBytesText]
  | succ k ih =>
    intro p i
    have := ih (p + 1) (i + 1)
    rw [lineBytesText_succ]
    split <;> simp only [hex2, List.length_append, List.length_cons, List.length_nil] <;> omega

theorem u8ToHex_hex2 (b : UInt8) : u8ToHex b 0x11 = hex2 b := u8ToHex_forced b

/-- The first byte of a line, shown as `v`, and the bytes after it. -/
theorem lineBytesText_update (g : Nat → UInt8) (p i k : Nat) (v : UInt8) :
    lineBytesText (Function.update g p v) p i (k + 1) =
      hex2 v ++ (if i % 4 = 3 ∧ i ≠ 15 then [space] else []) ++ lineBytesText g (p + 1) (i + 1) k := by
  rw [lineBytesText_succ, Function.update_same,
    lineBytesText_congr _ fun j _ => Function.update_noteq (by omega) _ _]

/-- The byte loop of a line, from `nleft > 0` and with room in `line_buf`, writes at `plb` the
text of `min count nleft` bytes from `ptr`, each loaded once by a 32-bit load at its address.
The bytes it shows, `g`, are those of CPU memory wherever they lie outside `line_buf`; a byte
within it is read after the loop has written part of the line there. -/
theorem memBytesLineBytes_spec (count : Nat) : ∀ (i plb : Nat) {s s' : TapcpState}
    {m m' : Machine} {plb' : Nat}, 0 < s.nleft → plb + 3 * count ≤ lineBufSize →
    memBytesLineBytes count i plb s m = (plb', s', m') →
    ∃ g : Nat → UInt8, (∀ j < min count s.nleft.toNat, m.OutsideLineBuf (s.ptr + j) 1 →
        g (s.ptr + j) = m.cpuByte (s.ptr + j)) ∧
      plb' = plb + (lineBytesText g s.ptr i (min count s.nleft.toNat)).length ∧
      s' = { s with ptr := s.ptr + min count s.nleft.toNat,
                    nleft := s.nleft - min count s.nleft.toNat } ∧
      m' = ({ m with log := m.log ++ cpuLoads s.ptr (min count s.nleft.toNat) } : Machine).writeLineAt
        plb (lineBytesText g s.ptr i (min count s.nleft.toNat)) := by
  induction count with
  | zero =>
    intro i plb s s' m m' plb' _ _ h
    obtain ⟨rfl, rfl, rfl⟩ := h
    refine ⟨m.cpuByte, fun j hj => absurd hj (by omega), ?_, ?_, ?_⟩ <;>
      simp [lineBytesText, cpuLoads]
  | succ c ih =>
    intro i plb s s' m m' plb' hn hroom h
    have hand : i &&& 3 = i % 4 := Nat.and_pow_two_sub_one_eq_mod i 2
    have ht : (hex2 (m.cpuByte s.ptr) ++
        if i % 4 = 3 ∧ i ≠ 15 then [space] else []).length ≤ 3 := by
      split <;> simp [hex2]
    simp only [memBytesLineBytes, hand, Machine.loadCpu_toUInt8, u8ToHex_hex2] at h
    split at h
    · -- `nleft` runs out after this byte
      obtain ⟨rfl, rfl, rfl⟩ := h
      have hk : min (c + 1) s.nleft.toNat = 0 + 1 := by omega
      refine ⟨m.cpuByte, fun _ _ _ => rfl, ?_, ?_, ?_⟩ <;>
        simp only [hk, lineBytesText_succ, lineBytesText_zero, cpuLoads_succ, List.append_nil] <;>
        rfl
    · obtain ⟨g, hg, rfl, rfl, rfl⟩ := ih (i + 1) _ (by dsimp only; omega) (by omega) h
      dsimp only at hg
      have hk : min (c + 1) s.nleft.toNat = min c (s.nleft - 1).toNat + 1 := by omega
      refine ⟨Function.update g s.ptr (m.cpuByte s.ptr), ?_, ?_, ?_, ?_⟩ <;>
        simp only [hk, lineBytesText_update]
      · -- the first byte is read before anything is written; the others see the line so far
        rintro (_ | j) hj ho
        · simp
        · rw [Function.update_noteq (by omega), show s.ptr + (j + 1) = s.ptr + 1 + j by omega]
          rw [show s.ptr + (j + 1) = s.ptr + 1 + j by omega] at ho
          rw [hg j (by omega) ho, Machine.cpuByte_writeLineAt (m.loadCpu s.ptr).2 (by omega) ho,
            Machine.loadCpu_cpuByte]
      · simp only [List.length_append, hex2, Nat.add_assoc]
      · simp only [TapcpState.mk.injEq, true_and, and_true]
        constructor <;> push_cast <;> omega
      · -- the loads are logged in order, and the writes are one write of the whole text
        have hlog : m.log ++ cpuLoads s.ptr (min c (s.nleft - 1).toNat + 1) =
            (m.loadCpu s.ptr).2.log ++ cpuLoads (s.ptr + 1) (min c (s.nleft - 1).toNat) := by
          rw [cpuLoads_succ, Machine.loadCpu_log, List.append_assoc, List.singleton_append]
        rw [hlog]
        exact Machine.writeLineAt_append { m with log := (m.loadCpu s.ptr).2.log ++ _ } plb _ _ rfl

theorem lf_not_mem_hex2 (b : UInt8) : lf ∉ hex2 b := by
  have hb := b.toNat_lt_size
  simp only [UInt8.size] at hb
  have h₁ := (hexDigit_props (b.toNat / 16) (by omega)).2.2.2.1
  have h₂ := (hexDigit_props (b.toNat % 16) (by omega)).2.2.2.1
  simp only [hex2, List.mem_cons, List.mem_singleton, List.not_mem_nil, or_false, not_or]
  exact ⟨Ne.symm h₁, Ne.symm h₂⟩

theorem lf_not_mem_lineBytesText (cpu : Nat → UInt8) (p i k : Nat) : lf ∉ lineBytesText cpu p i k := by
  simp only [lineBytesText, List.mem_flatMap, List.mem_append, not_exists, not_and, not_or]
  intro j _
  refine ⟨lf_not_mem_hex2 _, ?_⟩
  split <;> decide

/-- The text of a line before its `'\n'`. -/
def memLineHead (label : UInt32) (g : Nat → UInt8) (p k : Nat) : List UInt8 :=
  hex8 label.toNat ++ [colon, space] ++ lineBytesText g p 0 k

theorem lf_not_mem_memLineHead (label : UInt32) (g : Nat → UInt8) (p k : Nat) :
    lf ∉ memLineHead label g p k := by
  simp only [memLineHead, List.mem_append, not_or]
  exact ⟨⟨lf_not_mem_hex8 _, by decide⟩, lf_not_mem_lineBytesText _ _ _ _⟩

theorem length_memLineHead_le (label : UInt32) (g : Nat → UInt8) (p : Nat) {k : Nat} (hk : k ≤ 16) :
    (memLineHead label g p k ++ [lf]).length ≤ lineBufSize := by
  have := length_lineBytesText_le g k p 0
  simp only [memLineHead, List.length_append, length_hex8, List.length_cons, List.length_nil,
    lineBufSize]
  omega

/-- A line of the reader from `nleft > 0`: the label as eight digits, `": "`, the next
`min 16 nleft` bytes and `'\n'` in `line_buf`; each byte is loaded once and the label advances
by 16. The bytes shown, `g`, are those of CPU memory wherever they lie outside `line_buf`. -/
theorem memBytesLine_spec (s : TapcpState) (m : Machine) (hn : 0 < s.nleft) :
    ∃ g : Nat → UInt8, (∀ j < min 16 s.nleft.toNat, m.OutsideLineBuf (s.ptr + j) 1 →
        g (s.ptr + j) = m.cpuByte (s.ptr + j)) ∧
      memBytesLine s m =
        ({ s with ptr := s.ptr + min 16 s.nleft.toNat,
                  nleft := s.nleft - min 16 s.nleft.toNat, u32 := s.u32 + 16 },
          ({ m with log := m.log ++ cpuLoads s.ptr (min 16 s.nleft.toNat) } : Machine).writeLine
            (memLineHead s.u32 g s.ptr (min 16 s.nleft.toNat) ++ [lf])) := by
  simp only [memBytesLine, u32ToHex_of_ne_zero _ (by decide : (1 : UInt8) ≠ 0)]
  have hhead : (hex8 s.u32.toNat ++ [colon, space]).length = 10 := by simp
  rcases h : memBytesLineBytes 16 0 (hex8 s.u32.toNat ++ [colon, space]).length
    { s with u32 := s.u32 + 16 } ((m.writeLineAt 0 (hex8 s.u32.toNat ++ [colon, space])))
    with ⟨plb, s', m'⟩
  obtain ⟨g, hg, rfl, rfl, rfl⟩ :=
    memBytesLineBytes_spec 16 0 _ (s := { s with u32 := s.u32 + 16 }) hn (by rw [hhead]; decide) h
  refine ⟨g, fun j hj ho => (hg j hj ho).trans
    (Machine.cpuByte_writeLineAt _ (by simp [lineBufSize]) ho), Prod.ext rfl ?_⟩
  dsimp only
  rw [Machine.writeLineAt_withLog, Machine.writeLineAt_log, Machine.setLineBuf_eq_writeLineAt,
    Machine.writeLineAt_append _ _ _ _ (Nat.zero_add _).symm,
    Machine.writeLineAt_append _ _ _ _ (by simp only [List.length_append, Nat.zero_add]),
    Machine.writeLine_eq_writeLineAt, memLineHead]

/-- A line over bytes outside `line_buf` shows them as they are in CPU memory. -/
theorem memBytesLine_eq (s : TapcpState) (m : Machine) (hn : 0 < s.nleft)
    (hout : m.OutsideLineBuf s.ptr (min 16 s.nleft.toNat)) :
    memBytesLine s m =
      ({ s with ptr := s.ptr + min 16 s.nleft.toNat,
                nleft := s.nleft - min 16 s.nleft.toNat, u32 := s.u32 + 16 },
        ({ m with log := m.log ++ cpuLoads s.ptr (min 16 s.nleft.toNat) } : Machine).writeLine
          (memLineHead s.u32 m.cpuByte s.ptr (min 16 s.nleft.toNat) ++ [lf])) := by
  obtain ⟨g, hg, h⟩ := memBytesLine_spec s m hn
  rw [h, memLineHead, memLineHead, lineBytesText_congr 0 fun j hj => hg j hj (hout.one hj)]

/-- The bytes of a line of `k ≤ 16` bytes as the loop writes them: those of the format, and one
more space when the line ends a group of four before its sixteenth byte. -/
theorem lineBytesText_eq (cpu : Nat → UInt8) (p : Nat) {k : Nat} (hk : k ≤ 16) :
    lineBytesText cpu p 0 k =
      byteGroups (bytesAt cpu p k) ++ if k = 4 ∨ k = 8 ∨ k = 12 then [space] else [] := by
  rcases k with _ | k
  · rfl
  · have hlen : (bytesAt cpu p (k + 1)).length = k + 1 := by simp [bytesAt]
    have hget : ∀ j < k + 1, (bytesAt cpu p (k + 1)).getD j 0 = cpu (p + j) := fun j hj => by
      simp [bytesAt, hj]
    rw [lineBytesText, byteGroups, hlen, List.range_succ, List.flatMap_append, List.flatMap_append]
    simp only [List.flatMap_cons, List.flatMap_nil, List.append_nil, Nat.zero_add, List.append_assoc]
    congr 1
    · -- the bytes before the last: a space after a group of four in both
      refine List.flatMap_congr fun j hj => ?_
      rw [List.mem_range] at hj
      rw [hget j (by omega)]
      congr 1
      split_ifs <;> first | rfl | omega
    · -- the last byte: the loop's space is the format's trailing one
      rw [hget k (by omega), if_neg (show ¬(k % 4 = 3 ∧ k + 1 < k + 1) by omega), List.nil_append]
      congr 1
      split_ifs <;> first | rfl | omega

/-! ### What the reader sends -/

/-- What the reader sends from the start of a line with `n` bytes left at `a`, labelled from
`label`: the dump, with a space before the last `'\n'` when `n % 16` is 4, 8 or 12. -/
def sentDump (label : Nat) (cpu : Nat → UInt8) (a n : Nat) : List UInt8 :=
  if n % 16 = 4 ∨ n % 16 = 8 ∨ n % 16 = 12 then (memDumpFrom label cpu a n).dropLast ++ [space, lf]
  else memDumpFrom label cpu a n

theorem sentDump_zero (label : Nat) (cpu : Nat → UInt8) (a : Nat) : sentDump label cpu a 0 = [] :=
  rfl

theorem sentDump_mod (label : Nat) (cpu : Nat → UInt8) (a n : Nat) :
    sentDump (label % 2 ^ 32) cpu a n = sentDump label cpu a n := by
  simp only [sentDump, memDumpFrom_mod]

/-- What is sent from `n > 0` bytes left is the line the reader builds and what is sent after it. -/
theorem sentDump_of_pos (label : Nat) (cpu : Nat → UInt8) (a : Nat) {n : Nat} (hn : 0 < n) :
    sentDump label cpu a n = hex8 label ++ [colon, space] ++ lineBytesText cpu a 0 (min 16 n) ++
      [lf] ++ sentDump (label + 16) cpu (a + min 16 n) (n - min 16 n) := by
  rw [lineBytesText_eq cpu a (Nat.min_le_left 16 n)]
  rcases Nat.lt_or_ge 16 n with hbig | hsmall
  · -- a full line, and more after it
    have hrest := memDumpFrom_of_pos (label + 16) cpu (a + 16) (show 0 < n - 16 by omega)
    have hne : memDumpFrom (label + 16) cpu (a + 16) (n - 16) ≠ [] := by simp [hrest, memDumpLine]
    rw [min_eq_left hbig.le, if_neg (by omega)]
    simp only [sentDump, memDumpFrom_of_pos label cpu a hn, min_eq_left hbig.le,
      show (n - 16) % 16 = n % 16 by omega, memDumpLine]
    split_ifs
    · rw [List.dropLast_append_of_ne_nil _ hne]
      simp
    · simp
  · -- the last line
    have hmin : min 16 n = n := min_eq_right hsmall
    rw [hmin, Nat.sub_self, sentDump_zero, List.append_nil, sentDump, memDumpFrom_of_pos label cpu a hn,
      hmin, Nat.sub_eq_zero_of_le hsmall, memDumpFrom_zero, List.append_nil, memDumpLine]
    by_cases hl : n = 4 ∨ n = 8 ∨ n = 12
    · rw [if_pos (by omega), if_pos hl, List.dropLast_concat]
      simp
    · rw [if_neg (by omega), if_neg hl]
      simp

/-- The dump of the `n` bytes at `a` depends only on the memory there. -/
theorem memDumpFrom_congr (label : Nat) {f g : Nat → UInt8} {a n : Nat}
    (h : ∀ j < n, f (a + j) = g (a + j)) : memDumpFrom label f a n = memDumpFrom label g a n :=
  List.flatMap_congr fun i hi => by
    rw [List.mem_range] at hi
    congr 1
    exact bytesAt_congr fun j hj => by simpa only [Nat.add_assoc] using h (16 * i + j) (by omega)

theorem sentDump_congr (label : Nat) {f g : Nat → UInt8} {a n : Nat}
    (h : ∀ j < n, f (a + j) = g (a + j)) : sentDump label f a n = sentDump label g a n := by
  simp only [sentDump, memDumpFrom_congr label h]

/-- After a line over bytes outside `line_buf`, the bytes left are still those of CPU memory. -/
theorem cpuByte_after_memBytesLine (m : Machine) (l : List BusEvent) {s : TapcpState}
    (hout : m.OutsideLineBuf s.ptr s.nleft.toNat) {k j : Nat} (hk : k ≤ 16)
    (hj : j < s.nleft.toNat - k) :
    (({ m with log := l } : Machine).writeLine (memLineHead s.u32 m.cpuByte s.ptr k ++ [lf])).cpuByte
      (s.ptr + k + j) = m.cpuByte (s.ptr + k + j) := by
  rw [Nat.add_assoc]
  exact Machine.cpuByte_writeLine _ (length_memLineHead_le _ _ _ hk) (hout.one (by omega))

/-- From the start of a line, a request that covers what is left gets the bytes left as the
reader sends them, labelled from `u32`, when they lie outside `line_buf`. -/
theorem dumpLoop_memBytesLine (fuel n : Nat) (s : TapcpState) (m : Machine) (h0 : 0 ≤ s.nleft)
    (hout : m.OutsideLineBuf s.ptr s.nleft.toNat) (hl : s.lidx = 0)
    (hlen : (sentDump s.u32.toNat m.cpuByte s.ptr s.nleft.toNat).length ≤ n) (hfuel : n ≤ fuel) :
    (dumpLoop memBytesLine fuel n s m).1 = sentDump s.u32.toNat m.cpuByte s.ptr s.nleft.toNat := by
  have h := (@dumpLoop_run memBytesLine (· = ·) rfl (fun s m => 0 ≤ s.nleft ∧ m.OutsideLineBuf s.ptr s.nleft.toNat)
    (fun s m => sentDump s.u32.toNat m.cpuByte s.ptr s.nleft.toNat) (fun _ _ _ => True) ?_ ?_
    fuel n s m ⟨h0, hout⟩ hl hlen hfuel).1
  · rwa [List.forall₂_eq_eq_eq] at h
  · -- nothing is left
    intro s m _ hpos
    simp [show s.nleft.toNat = 0 by omega, sentDump_zero]
  · -- one line
    rintro s m ⟨h0, hout⟩ hpos hl
    have hleft : (s.nleft - (min 16 s.nleft.toNat : Nat)).toNat =
        s.nleft.toNat - min 16 s.nleft.toNat := by omega
    rw [memBytesLine_eq s m hpos fun j hj => hout j (by omega)]
    refine ⟨_, _, lf_not_mem_memLineHead _ _ _ _, List.forall₂_same.2 fun _ _ => rfl,
      fun i hi => Machine.writeLine_lineBuf_of_lt _ _ (by simpa using hi), hl,
      ⟨by dsimp only; omega, fun j hj => ?_⟩, ?_, fun _ _ => trivial⟩
    · -- the bytes left lie outside `line_buf` still
      dsimp only at hj ⊢
      rw [hleft] at hj
      rw [Nat.add_assoc]
      exact hout (min 16 s.nleft.toNat + j) (by omega)
    · -- the line is the first of what is left, and the rest follows it
      dsimp only
      rw [hleft, toNat_u32_add, show (16 : UInt32).toNat = 16 from rfl, sentDump_mod,
        sentDump_congr _ fun j hj => cpuByte_after_memBytesLine m _ hout (Nat.min_le_left _ _) hj]
      exact sentDump_of_pos _ _ _ (by omega)

/-- From the start of a line, a request that covers what is left loads each byte left once, in
address order, and ends the transfer, whatever the bytes are: a line has the length of the
line of `sentDump` over any memory `cpu`, and a loaded byte within `line_buf` changes only what
is shown. -/
theorem dumpLoop_memBytesLine_loads (cpu : Nat → UInt8) (fuel n : Nat) (s : TapcpState)
    (m : Machine) (h0 : 0 ≤ s.nleft) (hl : s.lidx = 0)
    (hlen : (sentDump s.u32.toNat cpu s.ptr s.nleft.toNat).length ≤ n) (hfuel : n ≤ fuel) :
    (dumpLoop memBytesLine fuel n s m).2.1.nleft = 0 ∧
      (dumpLoop memBytesLine fuel n s m).2.1.ptr = s.ptr + s.nleft.toNat ∧
      (dumpLoop memBytesLine fuel n s m).2.2.log = m.log ++ cpuLoads s.ptr s.nleft.toNat := by
  refine (dumpLoop_run (fun _ _ => True) trivial (fun s _ => 0 ≤ s.nleft)
    (fun s _ => sentDump s.u32.toNat cpu s.ptr s.nleft.toNat)
    (fun s m x => x.1.nleft = 0 ∧ x.1.ptr = s.ptr + s.nleft.toNat ∧
      x.2.log = m.log ++ cpuLoads s.ptr s.nleft.toNat) ?_ ?_ fuel n s m h0 hl hlen hfuel).2
  · -- nothing is left
    intro s m h0 hpos
    have hz : s.nleft.toNat = 0 := by omega
    simp only [hz, sentDump_zero, Nat.add_zero, cpuLoads_zero, List.append_nil, and_true, true_and]
    omega
  · -- one line
    intro s m h0 hpos hl
    have hleft : (s.nleft - (min 16 s.nleft.toNat : Nat)).toNat =
        s.nleft.toNat - min 16 s.nleft.toNat := by omega
    obtain ⟨g, -, hline⟩ := memBytesLine_spec s m hpos
    rw [hline]
    refine ⟨_, memLineHead s.u32 cpu s.ptr (min 16 s.nleft.toNat), lf_not_mem_memLineHead _ _ _ _,
      List.forall₂_iff_zip.2 ⟨?_, fun _ => trivial⟩,
      fun i hi => Machine.writeLine_lineBuf_of_lt _ _ (by simpa using hi), hl, ?_, ?_, ?_⟩
    · simp only [memLineHead, List.length_append, length_lineBytesText g cpu]
    · dsimp only
      omega
    · dsimp only
      rw [hleft, toNat_u32_add, show (16 : UInt32).toNat = 16 from rfl, sentDump_mod]
      exact sentDump_of_pos _ _ _ (by omega)
    · rintro x ⟨h₁, h₂, h₃⟩
      dsimp only at h₂ h₃
      refine ⟨h₁, by omega, ?_⟩
      rw [h₃, Machine.writeLine_log, List.append_assoc, hleft, ← cpuLoads_add,
        Nat.add_sub_cancel' (Nat.min_le_right 16 _)]

/-- The 32-bit loads at the `n ≥ 1` addresses from `a` read the bytes from `a` to `a + n + 2`. -/
theorem mem_cpuLoads_bytesRead (a : Nat) {n : Nat} (hn : 0 < n) (x : Nat) :
    x ∈ (cpuLoads a n).flatMap BusEvent.cpuBytesRead ↔ a ≤ x ∧ x < a + n + 3 := by
  simp only [cpuLoads, List.mem_flatMap, List.mem_map, List.mem_range]
  constructor
  · rintro ⟨_, ⟨i, hi, rfl⟩, hx⟩
    simp only [BusEvent.cpuBytesRead, List.mem_cons, List.mem_singleton, List.not_mem_nil,
      or_false] at hx
    omega
  · intro hx
    refine ⟨_, ⟨min (x - a) (n - 1), by omega, rfl⟩, ?_⟩
    simp only [BusEvent.cpuBytesRead, List.mem_cons, List.mem_singleton, List.not_mem_nil, or_false]
    omega

/-- A text-mode read of `n ≥ 1` CPU bytes at `a` whose request covers what it sends reads exactly
the bytes from `a` to `a + n + 2`: the three bytes after the region too. -/
theorem readMemBytesAscii_reads_past (s : TapcpState) (m : Machine) (a : Nat) {n bytes : Nat}
    (hn : 0 < n) (hreq : (sentDump 0 m.cpu a n).length ≤ bytes) (x : Nat) :
    x ∈ ((readMemBytesAscii { s with ptr := a, nleft := n, lidx := 0, u32 := 0 } m bytes).2.2.log.drop
        m.log.length).flatMap BusEvent.cpuBytesRead ↔ a ≤ x ∧ x < a + n + 3 := by
  obtain ⟨-, -, hlog⟩ := dumpLoop_memBytesLine_loads m.cpu bytes bytes
    { s with ptr := a, nleft := n, lidx := 0, u32 := 0 } m (Int.ofNat_nonneg n) rfl
    (by simpa using hreq) le_rfl
  rw [readMemBytesAscii, hlog, List.drop_left]
  exact mem_cpuLoads_bytesRead a hn x

/-- Reading one byte at 0 with a request of 13 bytes reads the bytes at 1 to 3 too. -/
theorem readMemBytesAscii_reads_past_one :
    0 < 1 ∧ (sentDump 0 zeroMachine.cpu 0 1).length ≤ 13 ∧
      (3 ∈ ((readMemBytesAscii { dumpStart 1 with ptr := 0, nleft := 1, lidx := 0, u32 := 0 }
        zeroMachine 13).2.2.log.drop zeroMachine.log.length).flatMap BusEvent.cpuBytesRead ↔
        0 ≤ 3 ∧ 3 < 0 + 1 + 3) :=
  ⟨by decide, by decide, readMemBytesAscii_reads_past (dumpStart 1) zeroMachine 0 (by decide)
    (by decide) 3⟩

/-- A text-mode read of the four bytes at address 0 sends its one line with a space before the
`'\n'`, which the format does not have, and the 32-bit load of its last byte reads the bytes
after the region. -/
theorem readMemBytesAscii_trailing_space :
    (readMemBytesAscii (dumpStart 4) zeroMachine 100).1 ≠ memDump zeroMachine.cpu 0 4 ∧
      (readMemBytesAscii (dumpStart 4) zeroMachine 100).1 =
        (memDump zeroMachine.cpu 0 4).dropLast ++ [space, lf] ∧
      (readMemBytesAscii (dumpStart 4) zeroMachine 100).2.2.log = cpuLoads 0 4 ∧
      ∃ x ∈ (readMemBytesAscii (dumpStart 4) zeroMachine 100).2.2.log.flatMap
        BusEvent.cpuBytesRead, 4 ≤ x := by
  have hout := dumpLoop_memBytesLine 100 100 (dumpStart 4) zeroMachine (by decide) (by decide) rfl
    (by decide) le_rfl
  obtain ⟨-, -, hlog⟩ := dumpLoop_memBytesLine_loads zeroMachine.cpu 100 100 (dumpStart 4) zeroMachine
    (by decide) rfl (by decide) le_rfl
  refine ⟨?_, ?_, ?_, 4, ?_, le_rfl⟩ <;> simp only [readMemBytesAscii, hout, hlog] <;> decide

end CasperTapcp

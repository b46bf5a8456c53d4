import Mathlib.Data.List.Forall2
import CasperTapcp.Read.FpgaWordsBinary

/-!
# Text-mode reads: the hex dumps

`casper_tapcp_read_fpga_words_ascii` and `casper_tapcp_read_mem_bytes_ascii` share one loop and
differ in how they build a line. Each call fills the request from `line_buf`, building a new line
whenever `lidx` is 0, and keeps the position in a partly sent line in `lidx` across calls. Both
loops test `nleft > 0` before sending anything, so a line is only ever resumed while data is
still left to read. `dumpLoop` is that shared loop with the line builder as a parameter,
`copyLine` its inner copy loop, and `fpgaWordsLine` and `memBytesLine` the two builders.

`hexDump` states what a text-mode read of FPGA words is for, in the words of the read format
at the top of the source: lines of four words, each an 8-digit label counting bytes from 0,
`": "`, the words as eight uppercase hex digits separated by spaces, and `'\n'`. A call whose
request covers the dump returns exactly `hexDump` of the words, loads each word once in address
order, and leaves `nleft` at 0 (`readFpgaWordsAscii_dump`).

The test `nleft > 0` breaks the other half of the read contract, that a call returns less than
requested only at the end of the transfer. When a request boundary falls inside the last line,
`nleft` is already 0, so the next call returns nothing and the rest of the line is never sent
(`hexDump_drops_last_line`).

Whatever the schedule, a text-mode read of FPGA words from a state whose `nleft` is a multiple
of 4 loads only words within `[ptr, ptr + nleft)` (`readFpgaWordsAscii_within`): `ReadBudget` is
kept by every line built and every byte copied.
-/

set_option autoImplicit false
set_option relaxedAutoImplicit false

namespace CasperTapcp

/-! ### The shared loop -/

/-- The copy loop of the hex-dump readers: the bytes of `line_buf` from `lidx` on, until the
request is full or a `'\n'` has been sent, and the new `lidx`, 0 after a newline. -/
def copyLine (buf : Nat → UInt8) : (n : Nat) → (lidx : Nat) → List UInt8 × Nat
  | 0, lidx => ([], lidx)
  | n + 1, lidx =>
    if buf lidx = lf then ([lf], 0)
    else
      let (out, l) := copyLine buf n (lidx + 1)
      (buf lidx :: out, l)

/-- `while(len < bytes && state->nleft > 0)` of the hex-dump readers: a line is built when `lidx`
is 0, then copied out. `n` is the bytes still requested; `fuel` bounds the iterations, each of
which sends at least one byte. -/
def dumpLoop (buildLine : TapcpState → Machine → TapcpState × Machine) :
    (fuel n : Nat) → TapcpState → Machine → List UInt8 × TapcpState × Machine
  | 0, _, s, m => ([], s, m)
  | fuel + 1, n, s, m =>
    if 0 < n ∧ 0 < s.nleft then
      let (s, m) := if s.lidx = 0 then buildLine s m else (s, m)
      let (out, lidx) := copyLine m.lineBuf n s.lidx.toNat
      let (rest, s, m) := dumpLoop buildLine fuel (n - out.length) { s with lidx := lidx } m
      (out ++ rest, s, m)
    else ([], s, m)

/-! ### FPGA words -/

/-- The word loop of a line of `casper_tapcp_read_fpga_words_ascii`, with `count` iterations
left: each word is loaded, `ptr` and `nleft` advanced, and the word written as eight digits after
a space unless it is the first; the loop stops when `nleft` reaches 0. -/
def fpgaWordsLineWords :
    (count : Nat) → (first : Bool) → TapcpState → Machine → List UInt8 × TapcpState × Machine
  | 0, _, s, m => ([], s, m)
  | count + 1, first, s, m =>
    let (word, m) := m.loadFpga s.ptr
    let s : TapcpState := { s with ptr := s.ptr + 4, nleft := s.nleft - 4 }
    let text := (if first then [] else [space]) ++ u32ToHex word 1
    if s.nleft = 0 then (text, s, m)
    else
      let (rest, s, m) := fpgaWordsLineWords count false s m
      (text ++ rest, s, m)

/-- A new line of `casper_tapcp_read_fpga_words_ascii` in `line_buf`: the label `u32` as eight
digits, `": "`, up to four words and `'\n'`; the label advances by 16. -/
def fpgaWordsLine (s : TapcpState) (m : Machine) : TapcpState × Machine :=
  let label := u32ToHex s.u32 1
  let s : TapcpState := { s with u32 := s.u32 + 16 }
  let (words, s, m) := fpgaWordsLineWords 4 true s m
  (s, m.writeLine (label ++ [colon, space] ++ words ++ [lf]))

/-- `casper_tapcp_read_fpga_words_ascii(state, buf, bytes)`: the bytes sent. -/
def readFpgaWordsAscii (s : TapcpState) (m : Machine) (bytes : Nat) :
    List UInt8 × TapcpState × Machine :=
  dumpLoop fpgaWordsLine bytes bytes s m

/-! ### CPU bytes -/

/-- The byte loop of a line of `casper_tapcp_read_mem_bytes_ascii`, at iteration `i` with `count`
left and `plb` the next index of `line_buf`: a 32-bit load at `ptr`, truncated to its low byte and
written at `plb` as two digits, `ptr` advanced by one and `nleft` decremented; a space after every
fourth byte but the sixteenth; the loop stops when `nleft` reaches 0. What a byte writes is in
`line_buf` before the next load, which reads CPU RAM and so may read it back. The result is the
new `plb`. -/
def memBytesLineBytes :
    (count : Nat) → (i plb : Nat) → TapcpState → Machine → Nat × TapcpState × Machine
  | 0, _, plb, s, m => (plb, s, m)
  | count + 1, i, plb, s, m =>
    let (word, m) := m.loadCpu s.ptr
    let s : TapcpState := { s with ptr := s.ptr + 1, nleft := s.nleft - 1 }
    let text := u8ToHex word.toUInt8 0x11 ++ (if i &&& 3 = 3 ∧ i ≠ 15 then [space] else [])
    let m := m.writeLineAt plb text
    if s.nleft = 0 then (plb + text.length, s, m)
    else memBytesLineBytes count (i + 1) (plb + text.length) s m

/-- A new line of `casper_tapcp_read_mem_bytes_ascii` in `line_buf`: the label and `": "` written
first, then up to sixteen bytes and `'\n'`; the label advances by 16. -/
def memBytesLine (s : TapcpState) (m : Machine) : TapcpState × Machine :=
  let head := u32ToHex s.u32 1 ++ [colon, space]
  let m := m.writeLineAt 0 head
  let s : TapcpState := { s with u32 := s.u32 + 16 }
  let (plb, s, m) := memBytesLineBytes 16 0 head.length s m
  (s, m.setLineBuf plb lf)

/-- `casper_tapcp_read_mem_bytes_ascii(state, buf, bytes)`: the bytes sent. -/
def readMemBytesAscii (s : TapcpState) (m : Machine) (bytes : Nat) :
    List UInt8 × TapcpState × Machine :=
  dumpLoop memBytesLine bytes bytes s m

/-! ### The dump format -/

/-- The words of a line of the hex dump: eight digits each, separated by single spaces. -/
def dumpWords (ws : List UInt32) : List UInt8 := List.intercalate [space] (ws.map fun w => hex8 w.toNat)

/-- One line of the hex dump of FPGA words: the label as eight digits, `": "`, the words and
`'\n'`. -/
def dumpLine (label : Nat) (ws : List UInt32) : List UInt8 :=
  hex8 label ++ [colon, space] ++ dumpWords ws ++ [lf]

/-- The hex dump of FPGA words with labels from `label`: line `i` holds words `4i` to `4i + 3`
and is labelled `label + 16 i`. -/
def hexDumpFrom (label : Nat) (ws : List UInt32) : List UInt8 :=
  (List.range ((ws.length + 3) / 4)).flatMap fun i =>
    dumpLine (label + 16 * i) ((ws.drop (4 * i)).take 4)

/-- The hex dump a text-mode read of FPGA words sends: labels from 0. -/
def hexDump (ws : List UInt32) : List UInt8 := hexDumpFrom 0 ws

theorem hexDumpFrom_nil (label : Nat) : hexDumpFrom label [] = [] := rfl

/-- A non-empty dump is its first line and the dump of the words after it. -/
theorem hexDumpFrom_of_ne_nil (label : Nat) {ws : List UInt32} (hws : ws ≠ []) :
    hexDumpFrom label ws = dumpLine label (ws.take 4) ++ hexDumpFrom (label + 16) (ws.drop 4) := by
  have hlen : (ws.length + 3) / 4 = ((ws.drop 4).length + 3) / 4 + 1 := by
    have := List.length_pos.mpr hws
    simp only [List.length_drop]
    omega
  rw [hexDumpFrom, hlen, List.range_succ_eq_map, List.flatMap_cons, hexDumpFrom]
  simp only [Nat.mul_zero, Nat.add_zero, List.drop_zero, List.flatMap, List.map_map]
  congr 2
  refine List.map_congr_left fun i _ => ?_
  simp only [Function.comp_apply, List.drop_drop, Nat.succ_eq_add_one]
  congr 1
  · ring
  · congr 2
    ring

@[simp] theorem dumpWords_nil : dumpWords [] = [] := rfl

@[simp] theorem dumpWords_singleton (w : UInt32) : dumpWords [w] = hex8 w.toNat := by
  simp [dumpWords, List.intercalate]

theorem dumpWords_cons_cons (w w' : UInt32) (ws : List UInt32) :
    dumpWords (w :: w' :: ws) = hex8 w.toNat ++ [space] ++ dumpWords (w' :: ws) := by
  simp [dumpWords, List.intercalate, List.intersperse]

theorem hex8_mod (n : Nat) : hex8 (n % 2 ^ 32) = hex8 n := by
  simp only [hex8, digits8, List.map, List.cons.injEq, and_true]
  refine ⟨?_, ?_, ?_, ?_, ?_, ?_, ?_, ?_⟩ <;> congr 1 <;> omega

/-! ### One line of FPGA words -/

/-- The word loop of a line, from `nleft = 4r` with `r ≥ 1`, sends `min count r` words. -/
theorem fpgaWordsLineWords_spec (count r : Nat) (first : Bool) {s s' : TapcpState}
    {m m' : Machine} {text : List UInt8} (hc : 0 < count) (hr : 0 < r) (hn : s.nleft = 4 * r)
    (h : fpgaWordsLineWords count first s m = (text, s', m')) :
    text = (if first then [] else [space]) ++
        dumpWords (wordsAt m.fpga s.ptr (min count r)) ∧
      s' = { s with ptr := s.ptr + 4 * min count r, nleft := 4 * (r - min count r) } ∧
      m' = { m with log := m.log ++ wordLoads s.ptr (min count r) } := by
  induction count generalizing first s m text r with
  | zero => omega
  | succ c ih =>
    simp only [fpgaWordsLineWords, Machine.loadFpga, u32ToHex_of_ne_zero _ (by decide : (1 : UInt8) ≠ 0)] at h
    split at h
    · obtain ⟨rfl, rfl, rfl⟩ := h
      rename_i hz
      have hr1 : r = 1 := by omega
      subst hr1
      simp [wordsAt, wordLoads, show List.range 1 = [0] from rfl, hn,
        Nat.min_eq_right hc]
    · rename_i hz
      cases c with
      | zero =>
        obtain ⟨rfl, rfl, rfl⟩ := h
        simp only [Nat.min_eq_left (Nat.succ_le_of_lt hr), wordsAt, wordLoads, show List.range 1 = [0] from rfl,
          List.map_cons, List.map_nil, Nat.mul_zero, Nat.add_zero, dumpWords_singleton,
          List.append_nil, and_true, true_and, fpgaWordsLineWords]
        congr 1
        omega
      | succ c =>
        rcases hrest : fpgaWordsLineWords (c + 1) false
          { s with ptr := s.ptr + 4, nleft := s.nleft - 4 }
          { m with log := m.log ++ [.fpgaLoad s.ptr] } with ⟨text₁, s₁, m₁⟩
        simp only [hrest] at h
        obtain ⟨rfl, rfl, rfl⟩ := h
        obtain ⟨htext, hs, hm⟩ := ih (r - 1) false (by omega) (by omega) (by simp; omega) hrest
        have hmin : min (c + 1 + 1) r = min (c + 1) (r - 1) + 1 := by omega
        have hpos : 0 < min (c + 1) (r - 1) := by omega
        obtain ⟨j, hj⟩ : ∃ j, min (c + 1) (r - 1) = j + 1 := ⟨_, (Nat.succ_pred_eq_of_pos hpos).symm⟩
        simp only [hmin, hj, wordsAt_succ, wordLoads_succ] at htext hs hm ⊢
        refine ⟨?_, ?_, ?_⟩
        · rw [htext]
          simp only [dumpWords_cons_cons, ite_true, List.nil_append, ite_false,
            Bool.false_eq_true, List.append_assoc]
        · rw [hs]
          simp only [TapcpState.mk.injEq, true_and, and_true]
          constructor <;> omega
        · rw [hm]
          simp [List.append_assoc]

theorem take_wordsAt (mem : Nat → UInt32) (j p k : Nat) :
    (wordsAt mem p k).take j = wordsAt mem p (min j k) := by
  induction j generalizing p k with
  | zero => simp [wordsAt]
  | succ j ih =>
    cases k with
    | zero => simp [wordsAt]
    | succ k => rw [wordsAt_succ, List.take_succ_cons, ih, Nat.succ_min_succ, wordsAt_succ]

theorem drop_wordsAt (mem : Nat → UInt32) (j p k : Nat) :
    (wordsAt mem p k).drop j = wordsAt mem (p + 4 * j) (k - j) := by
  induction j generalizing p k with
  | zero => simp
  | succ j ih =>
    cases k with
    | zero => simp [wordsAt]
    | succ k =>
      rw [wordsAt_succ, List.drop_succ_cons, ih, Nat.succ_sub_succ]
      congr 1
      ring

theorem wordLoads_append (p a b : Nat) :
    wordLoads p a ++ wordLoads (p + 4 * a) b = wordLoads p (a + b) := by
  induction a generalizing p with
  | zero => simp [wordLoads]
  | succ a ih =>
    rw [show p + 4 * (a + 1) = p + 4 + 4 * a by ring, Nat.add_right_comm a 1 b, wordLoads_succ,
      wordLoads_succ, List.cons_append, ih]

/-- A new line holds the next `min 4 r` words, labelled `L`, and loads exactly those words. -/
theorem fpgaWordsLine_spec (r L : Nat) {s s' : TapcpState} {m m' : Machine} (hr : 0 < r)
    (hn : s.nleft = 4 * r) (hu : s.u32 = UInt32.ofNat L) (h : fpgaWordsLine s m = (s', m')) :
    s' = { s with
        ptr := s.ptr + 4 * min 4 r, nleft := 4 * (r - min 4 r), u32 := UInt32.ofNat (L + 16) } ∧
      m' = ({ m with log := m.log ++ wordLoads s.ptr (min 4 r) } : Machine).writeLine
        (dumpLine L (wordsAt m.fpga s.ptr (min 4 r))) := by
  simp only [fpgaWordsLine] at h
  rcases hw : fpgaWordsLineWords 4 true { s with u32 := s.u32 + 16 } m with ⟨text, s₁, m₁⟩
  rw [hw] at h
  obtain ⟨rfl, rfl⟩ := h
  obtain ⟨htext, rfl, rfl⟩ :=
    fpgaWordsLineWords_spec (s := { s with u32 := s.u32 + 16 }) 4 r true (by omega) hr hn hw
  have hu16 : s.u32 + 16 = UInt32.ofNat (L + 16) := by
    rw [u32_eq_iff_toNat, toNat_u32_add, hu, toNat_u32_ofNat, toNat_u32_ofNat]
    simp only [show (16 : UInt32).toNat = 16 from rfl]
    omega
  refine ⟨by rw [hu16], ?_⟩
  rw [htext, dumpLine, u32ToHex_of_ne_zero _ (by decide : (1 : UInt8) ≠ 0), hu, toNat_u32_ofNat,
    hex8_mod]
  simp only [if_true, List.nil_append, List.append_assoc, List.cons_append, List.singleton_append]

theorem lf_not_mem_hex8 (n : Nat) : lf ∉ hex8 n := fun h => (hex8_byte h).2.2.2 rfl

theorem lf_not_mem_dumpWords (ws : List UInt32) : lf ∉ dumpWords ws := by
  induction ws with
  | nil => simp
  | cons w ws ih =>
    cases ws with
    | nil => simpa using lf_not_mem_hex8 w.toNat
    | cons w' ws =>
      rw [dumpWords_cons_cons]
      simp only [List.mem_append, not_or]
      exact ⟨⟨lf_not_mem_hex8 _, by decide⟩, ih⟩

/-- A dump line is its bytes before the newline, none of which is a newline, and `'\n'`. -/
theorem dumpLine_eq (L : Nat) (ws : List UInt32) :
    ∃ pre, dumpLine L ws = pre ++ [lf] ∧ lf ∉ pre :=
  ⟨_, rfl, by
    simp only [List.mem_append, not_or]
    exact ⟨⟨lf_not_mem_hex8 L, by decide⟩, lf_not_mem_dumpWords ws⟩⟩

/-- The copy loop, at the start of a line in `line_buf` and with room for all of it, sends the
whole line and resets `lidx`. -/
theorem copyLine_line (buf : Nat → UInt8) (pre : List UInt8) (hpre : lf ∉ pre) :
    ∀ (l n : Nat), (∀ i < pre.length + 1, buf (l + i) = (pre ++ [lf]).getD i 0) →
      pre.length + 1 ≤ n → copyLine buf n l = (pre ++ [lf], 0) := by
  induction pre with
  | nil =>
    intro l n hbuf hn
    obtain ⟨n, rfl⟩ : ∃ n', n = n' + 1 := ⟨n - 1, by simp at hn; omega⟩
    have := hbuf 0 (by simp)
    simp only [Nat.add_zero, List.nil_append, List.getD_cons_zero] at this
    simp [copyLine, this]
  | cons c pre ih =>
    intro l n hbuf hn
    obtain ⟨n, rfl⟩ : ∃ n', n = n' + 1 := ⟨n - 1, by simp at hn; omega⟩
    have hc := hbuf 0 (by simp)
    simp only [Nat.add_zero, List.cons_append, List.getD_cons_zero] at hc
    have hne : c ≠ lf := fun h => hpre (h ▸ List.mem_cons_self c pre)
    rw [copyLine, if_neg (hc ▸ hne),
      ih (fun h => hpre (List.mem_cons_of_mem c h)) (l + 1) n (fun i hi => ?_) (by simp at hn; omega)]
    · rw [hc]; rfl
    · rw [Nat.add_assoc, Nat.add_comm 1 i]
      simpa using hbuf (i + 1) (by simp at hi ⊢; omega)

/-- The copy loop, with no more bytes requested than stand before the `'\n'`, sends that many
and leaves `lidx` after them. -/
theorem copyLine_short (buf : Nat → UInt8) (pre : List UInt8) (hpre : lf ∉ pre) :
    ∀ (l n : Nat), (∀ i < pre.length, buf (l + i) = pre.getD i 0) → n ≤ pre.length →
      copyLine buf n l = (pre.take n, l + n) := by
  induction pre with
  | nil =>
    intro l n _ hn
    obtain rfl : n = 0 := by simpa using hn
    rfl
  | cons c pre ih =>
    intro l n hbuf hn
    cases n with
    | zero => rfl
    | succ n =>
      have hc := hbuf 0 (by simp)
      simp only [Nat.add_zero, List.getD_cons_zero] at hc
      have hne : c ≠ lf := fun h => hpre (h ▸ List.mem_cons_self c pre)
      rw [copyLine, if_neg (hc ▸ hne), ih (fun h => hpre (List.mem_cons_of_mem c h)) (l + 1) n
        (fun i hi => ?_) (by simp at hn; omega)]
      · rw [hc, List.take_succ_cons, Nat.add_assoc, Nat.add_comm 1 n]
      · rw [Nat.add_assoc, Nat.add_comm 1 i]
        simpa using hbuf (i + 1) (by simp; omega)

/-- A pass of the loop that starts a line with room for all of it sends the whole line and goes
on from the start of the next. -/
theorem dumpLoop_line {buildLine : TapcpState → Machine → TapcpState × Machine} {fuel n : Nat}
    {s s₁ : TapcpState} {m m₁ : Machine} {pre : List UInt8} (hn : 0 < n) (hleft : 0 < s.nleft)
    (hl : s.lidx = 0) (hb : buildLine s m = (s₁, m₁)) (hl₁ : s₁.lidx = 0) (hlf : lf ∉ pre)
    (hbuf : ∀ i < pre.length + 1, m₁.lineBuf i = (pre ++ [lf]).getD i 0)
    (hroom : pre.length + 1 ≤ n) :
    dumpLoop buildLine (fuel + 1) n s m =
      let r := dumpLoop buildLine fuel (n - (pre.length + 1)) s₁ m₁
      (pre ++ [lf] ++ r.1, r.2) := by
  have hcopy := copyLine_line m₁.lineBuf pre hlf 0 n (by simpa using hbuf) hroom
  have hs₁ : { s₁ with lidx := ((0 : Nat) : Int) } = s₁ := by
    cases s₁; simp only [Nat.cast_zero] at hl₁ ⊢; rw [hl₁]
  simp only [dumpLoop, hn, hleft, and_self, if_true, hl, hb, hl₁, Int.toNat_zero, hcopy,
    List.length_append, List.length_singleton, hs₁]

/-- The shared loop over a builder that writes whole lines: from the start of a line, a request
that covers what is left to send, `out s m`, gets text related to it byte by byte by `Sim`, and
the loop ends in a state related to the start by `R`. It is enough that each line built keeps
`Inv`, ends in its only `'\n'`, is related by `Sim` to the line of `out` and is followed in
`out` by what is left after it, and that nothing is left once `nleft` is used up. With `Sim` the
equality the loop sends exactly `out`; a coarser `Sim` lets `out` stand for text the builder
only matches in shape. -/
theorem dumpLoop_run {buildLine : TapcpState → Machine → TapcpState × Machine}
    (Sim : UInt8 → UInt8 → Prop) (hsim : Sim lf lf)
    (Inv : TapcpState → Machine → Prop) (out : TapcpState → Machine → List UInt8)
    (R : TapcpState → Machine → TapcpState × Machine → Prop)
    (hend : ∀ s m, Inv s m → ¬ 0 < s.nleft → out s m = [] ∧ R s m (s, m))
    (hline : ∀ s m, Inv s m → 0 < s.nleft → s.lidx = 0 → ∃ pre pre', lf ∉ pre ∧
      List.Forall₂ Sim pre pre' ∧
      (∀ i < pre.length + 1, (buildLine s m).2.lineBuf i = (pre ++ [lf]).getD i 0) ∧
      (buildLine s m).1.lidx = 0 ∧ Inv (buildLine s m).1 (buildLine s m).2 ∧
      out s m = pre' ++ [lf] ++ out (buildLine s m).1 (buildLine s m).2 ∧
      ∀ x, R (buildLine s m).1 (buildLine s m).2 x → R s m x) :
    ∀ fuel n s m, Inv s m → s.lidx = 0 → (out s m).length ≤ n → n ≤ fuel →
      List.Forall₂ Sim (dumpLoop buildLine fuel n s m).1 (out s m) ∧
        R s m (dumpLoop buildLine fuel n s m).2 := by
  intro fuel
  induction fuel with
  | zero =>
    intro n s m hI hl hlen hn
    by_cases hpos : 0 < s.nleft
    · obtain ⟨pre, pre', -, -, -, -, -, hout, -⟩ := hline s m hI hpos hl
      rw [hout] at hlen
      simp only [List.length_append, List.length_singleton] at hlen
      omega
    · rw [(hend s m hI hpos).1]
      exact ⟨.nil, (hend s m hI hpos).2⟩
  | succ fuel ih =>
    intro n s m hI hl hlen hn
    by_cases hpos : 0 < s.nleft
    · obtain ⟨pre, pre', hlf, hpre, hbuf, hl₁, hI₁, hout, hR⟩ := hline s m hI hpos hl
      rcases hb : buildLine s m with ⟨s₁, m₁⟩
      simp only [hb] at hbuf hl₁ hI₁ hout hR
      have hlen' := hpre.length_eq
      rw [hout] at hlen ⊢
      simp only [List.length_append, List.length_singleton] at hlen
      have hroom : pre.length + 1 ≤ n := by omega
      rw [dumpLoop_line (by omega) hpos hl hb hl₁ hlf hbuf hroom]
      obtain ⟨h₁, h₂⟩ := ih (n - (pre.length + 1)) s₁ m₁ hI₁ hl₁ (by omega) (by omega)
      exact ⟨List.rel_append (List.rel_append hpre (.cons hsim .nil)) h₁, hR _ h₂⟩
    · have hstop : dumpLoop buildLine (fuel + 1) n s m = ([], s, m) := by simp [dumpLoop, hpos]
      rw [hstop, (hend s m hI hpos).1]
      exact ⟨.nil, (hend s m hI hpos).2⟩

/-- From the start of a line with `nleft = 4r`, a request that covers the rest of the dump gets
all of it: the words from `ptr`, labelled from `L`, each loaded once in address order. -/
theorem dumpLoop_fpgaWordsLine (r : Nat) :
    ∀ (L fuel n : Nat) {s s' : TapcpState} {m m' : Machine} {out : List UInt8},
      s.nleft = 4 * r → s.lidx = 0 → s.u32 = UInt32.ofNat L →
      (hexDumpFrom L (wordsAt m.fpga s.ptr r)).length ≤ n → n ≤ fuel →
      dumpLoop fpgaWordsLine fuel n s m = (out, s', m') →
      out = hexDumpFrom L (wordsAt m.fpga s.ptr r) ∧ s'.nleft = 0 ∧ s'.ptr = s.ptr + 4 * r ∧
        s'.lidx = 0 ∧ m'.fpga = m.fpga ∧ m'.log = m.log ++ wordLoads s.ptr r := by
  induction r using Nat.strong_induction_on with
  | _ r ih =>
  intro L fuel n s s' m m' out hn hl hu hlen hfuel h
  rcases Nat.eq_zero_or_pos r with rfl | hr
  · have hstop : dumpLoop fpgaWordsLine fuel n s m = ([], s, m) := by
      cases fuel <;> simp [dumpLoop, hn]
    rw [hstop] at h
    obtain ⟨rfl, rfl, rfl⟩ := h
    simp [hn, hl, wordsAt, hexDumpFrom_nil, wordLoads]
  · have hws : wordsAt m.fpga s.ptr r ≠ [] := by
      rw [← List.length_pos, length_wordsAt]; exact hr
    have hdrop : (wordsAt m.fpga s.ptr r).drop 4 =
        wordsAt m.fpga (s.ptr + 4 * min 4 r) (r - min 4 r) := by
      rw [drop_wordsAt]
      rcases le_or_lt r 4 with h4 | h4
      · simp [wordsAt, show r - 4 = 0 by omega, show r - min 4 r = 0 by omega]
      · rw [min_eq_left h4.le]
    obtain ⟨pre, hpre, hlf⟩ := dumpLine_eq L (wordsAt m.fpga s.ptr (min 4 r))
    have hsplit : hexDumpFrom L (wordsAt m.fpga s.ptr r) = pre ++ [lf] ++
        hexDumpFrom (L + 16) (wordsAt m.fpga (s.ptr + 4 * min 4 r) (r - min 4 r)) := by
      rw [hexDumpFrom_of_ne_nil L hws, take_wordsAt, hdrop, hpre]
    rw [hsplit, List.length_append, List.length_append, List.length_singleton] at hlen
    obtain ⟨fuel, rfl⟩ : ∃ f, fuel = f + 1 := ⟨fuel - 1, by omega⟩
    rcases hb : fpgaWordsLine s m with ⟨s₁, m₁⟩
    obtain ⟨hs₁, hm₁⟩ := fpgaWordsLine_spec r L hr hn hu hb
    have hbuf : ∀ i < pre.length + 1, m₁.lineBuf i = (pre ++ [lf]).getD i 0 := fun i hi => by
      rw [hm₁, Machine.writeLine_lineBuf_of_lt _ _ (by simpa [hpre] using hi), hpre]
    rw [dumpLoop_line (by omega) (by omega) hl hb (by rw [hs₁]; exact hl) hlf hbuf (by omega)] at h
    rcases hrest : dumpLoop fpgaWordsLine fuel (n - (pre.length + 1)) s₁ m₁ with ⟨rest, s₂, m₂⟩
    rw [hrest] at h
    obtain ⟨rfl, rfl, rfl⟩ := h
    have hfpga : m₁.fpga = m.fpga := by rw [hm₁]; rfl
    obtain ⟨hout, hn₂, hp₂, hl₂, hm₂, hlog₂⟩ := ih (r - min 4 r) (by omega) (L + 16) fuel
      (n - (pre.length + 1)) (by rw [hs₁]; dsimp only; omega) (by rw [hs₁]; exact hl) (by rw [hs₁])
      (by rw [hs₁, hfpga]; dsimp only; omega) (by omega) hrest
    refine ⟨by rw [hsplit, hout, hs₁, hfpga], hn₂, ?_, hl₂, by rw [hm₂, hfpga], ?_⟩
    · rw [hp₂, hs₁]
      show s.ptr + 4 * min 4 r + 4 * (r - min 4 r) = s.ptr + 4 * r
      omega
    · rw [hlog₂, hm₁, hs₁, Machine.writeLine_log, List.append_assoc, wordLoads_append,
        Nat.add_sub_cancel' (min_le_right 4 r)]

/-- A text-mode read of FPGA words from the state the openers produce, with a request that
covers the whole dump, returns exactly the hex dump of the words, loads each word once in
address order and ends the transfer. -/
theorem readFpgaWordsAscii_dump (s : TapcpState) (m : Machine) (p k extra : Nat) :
    let r := readFpgaWordsAscii { s with ptr := p, nleft := 4 * k, lidx := 0, u32 := 0 } m
      ((hexDump (wordsAt m.fpga p k)).length + extra)
    r.1 = hexDump (wordsAt m.fpga p k) ∧ r.2.1.nleft = 0 ∧ r.2.1.ptr = p + 4 * k ∧
      r.2.2.log = m.log ++ wordLoads p k := by
  rcases h : readFpgaWordsAscii { s with ptr := p, nleft := 4 * k, lidx := 0, u32 := 0 } m
    ((hexDump (wordsAt m.fpga p k)).length + extra) with ⟨out, s', m'⟩
  obtain ⟨hout, hn, hp, -, -, hlog⟩ :=
    dumpLoop_fpgaWordsLine k 0 _ _ rfl rfl rfl (by simp [hexDump]) le_rfl h
  exact ⟨hout, hn, hp, hlog⟩

/-! ### Within the bounds of the read -/

/-- A text-mode read of FPGA words within `[lo, hi)`: `ptr` at or above `lo`; while data is left,
`nleft` a multiple of 4 reaching from `ptr` at most to `hi`; and every FPGA access since `log₀`
of a whole word within `[lo, hi)`. -/
structure ReadBudget (lo hi : Nat) (log₀ : List BusEvent) (x : TapcpState × Machine) : Prop where
  lo_le : lo ≤ x.1.ptr
  reach : 0 < x.1.nleft → x.1.nleft % 4 = 0 ∧ (x.1.ptr : Int) + x.1.nleft ≤ hi
  accesses : AccessesWithin lo hi log₀ x.2.log

section ReadBudget

variable {lo hi : Nat} {log₀ : List BusEvent}

/-- Writing `line_buf` keeps the read within its bounds. -/
theorem ReadBudget.writeLine {s : TapcpState} {m : Machine} (line : List UInt8)
    (h : ReadBudget lo hi log₀ (s, m)) : ReadBudget lo hi log₀ (s, m.writeLine line) :=
  ⟨h.1, h.2, h.3⟩

/-- The word loop of a line, entered with data left, keeps the read within its bounds: it loads
a word only while `nleft` covers it. -/
theorem fpgaWordsLineWords_budget : ∀ (count : Nat) (first : Bool) (s : TapcpState) (m : Machine),
    ReadBudget lo hi log₀ (s, m) → 0 < s.nleft →
      ReadBudget lo hi log₀ (fpgaWordsLineWords count first s m).2
  | 0, _, _, _, h, _ => h
  | count + 1, first, s, m, ⟨hlo, hreach, hacc⟩, hpos => by
    dsimp only at hlo hreach hacc
    obtain ⟨h4, hle⟩ := hreach hpos
    have h₁ : ReadBudget lo hi log₀ ({ s with ptr := s.ptr + 4, nleft := s.nleft - 4 },
        { m with log := m.log ++ [.fpgaLoad s.ptr] }) :=
      ⟨by dsimp only; omega, fun hp => by dsimp only at hp ⊢; push_cast; omega,
        hacc.load hlo (by omega)⟩
    simp only [fpgaWordsLineWords, Machine.loadFpga]
    split
    · exact h₁
    · exact fpgaWordsLineWords_budget count false _ _ h₁ (by dsimp only at *; omega)

theorem fpgaWordsLine_budget (s : TapcpState) (m : Machine) (h : ReadBudget lo hi log₀ (s, m))
    (hpos : 0 < s.nleft) : ReadBudget lo hi log₀ (fpgaWordsLine s m) := by
  have hw := fpgaWordsLineWords_budget 4 true { s with u32 := s.u32 + 16 } m ⟨h.1, h.2, h.3⟩ hpos
  simp only [fpgaWordsLine]
  rcases hl : fpgaWordsLineWords 4 true { s with u32 := s.u32 + 16 } m with ⟨words, s₁, m₁⟩
  rw [hl] at hw
  exact hw.writeLine _

/-- The loop of the FPGA hex dump keeps the read within its bounds. -/
theorem dumpLoop_budget : ∀ (fuel n : Nat) (s : TapcpState) (m : Machine),
    ReadBudget lo hi log₀ (s, m) → ReadBudget lo hi log₀ (dumpLoop fpgaWordsLine fuel n s m).2
  | 0, _, _, _, h => h
  | fuel + 1, n, s, m, h => by
    simp only [dumpLoop]
    split
    · rename_i hgo
      have hb : ReadBudget lo hi log₀ (if s.lidx = 0 then fpgaWordsLine s m else (s, m)) := by
        split
        · exact fpgaWordsLine_budget s m h hgo.2
        · exact h
      rcases hl : (if s.lidx = 0 then fpgaWordsLine s m else (s, m)) with ⟨s₁, m₁⟩
      rw [hl] at hb
      exact dumpLoop_budget fuel _ _ _ ⟨hb.lo_le, hb.reach, hb.accesses⟩
    · exact h

end ReadBudget

/-- A text-mode read of FPGA words from a state whose `nleft` is a multiple of 4, in any schedule
of requests, accesses only whole words within `[ptr, ptr + nleft)`. -/
theorem readFpgaWordsAscii_within (sizes : List Nat) (s : TapcpState) (m : Machine)
    (hw : s.nleft % 4 = 0) :
    AccessesWithin s.ptr (s.ptr + s.nleft.toNat) m.log
      (runReads readFpgaWordsAscii sizes s m).2.2.log :=
  (runReads_inv _ _ (fun s m n h => dumpLoop_budget n n s m h) sizes s m
    ⟨le_rfl, fun hp => ⟨hw, by dsimp only at hp ⊢; omega⟩, .refl⟩).accesses

/-- The state the openers produce for a text-mode read of `n` bytes at address 0. -/
def dumpStart (n : Nat) : TapcpState := ⟨false, false, 0, n, 0, 0⟩

/-- Reading 48 FPGA words in 512-byte blocks, as the engine asks, the first block cuts the last
line and the second returns nothing, so 40 bytes of the 552-byte dump are never sent; the memory
dump loses the rest of a single line the same way. -/
theorem hexDump_drops_last_line :
    (runReads readFpgaWordsAscii [512, 512] (dumpStart 192) zeroMachine).1 =
      [(hexDump (List.replicate 48 0)).take 512, []] ∧
    (runReads readFpgaWordsAscii [1024] (dumpStart 192) zeroMachine).1 =
      [hexDump (List.replicate 48 0)] ∧
    (hexDump (List.replicate 48 0)).length = 552 ∧
    (runReads readMemBytesAscii [1, 100] (dumpStart 4) zeroMachine).1 = [[48], []] ∧
    (runReads readMemBytesAscii [100] (dumpStart 4) zeroMachine).1.map List.length = [20] := by
  set_option maxRecDepth 100000 in decide

end CasperTapcp

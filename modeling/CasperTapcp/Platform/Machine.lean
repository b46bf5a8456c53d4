import CasperTapcp.Codec.Hex

/-!
# Transfer state, the bus and the engine

`TapcpState` is `struct tapcp_state`, the per-transfer context the openers fill in and every
callback advances. `Machine` is everything else the core reads or writes: the FPGA address space
(one 32-bit word per address), the CPU address space (bytes), a log of the accesses made on the
bus, and the module's static storage, `line_buf` and the three `static uint32_t word` variables of
the codecs. `line_buf` is a static array in CPU RAM at `lineBufAddr`: `lineBuf` holds the CPU
memory from there on, indexed from the start of the array, so indices at or past `lineBufSize`
are the memory after it and a store there is a store out of bounds, and `cpu` holds the memory
below it. `cpuByte` is the CPU address space as the core reads it: addresses wrap at `2^32`, and
a read at `line_buf` sees what the core has written there.

Addresses are naturals. The openers compute them in 32-bit arithmetic, as the source does; a
codec then advances its pointer by exact addition. The CPU readers read through `cpuByte`, so a
CPU read that `casper_tapcp_open_mem` lets wrap reads the bytes at the bottom of the address
space; the log records each access at the address the code computes, equal to the bus address
modulo `2^32`. FPGA accesses are kept as exact naturals: the FPGA window ends within `2^32`.

A write callback receives a `Chain`, the payloads of a `struct pbuf` chain; `len` and `tot_len`
are derived from the payloads, so they are consistent by construction. `pbufLoop` is the chain
walk the two write callbacks share, and `pbufLoop_eq_feedBytes` shows that it consumes exactly
the bytes of the chain, in order. `runReads` and `runWrites` are the engine: the callbacks of one
transfer, called in order. A property that every pass of a byte loop keeps, whether it accepts
or refuses its byte, holds where a transfer ends (`feedBytes_settled`, `runWrites_settled`,
`runReads_inv`); `AccessesWithin` is the one the bounds of a transfer are stated with.
-/

set_option autoImplicit false
set_option relaxedAutoImplicit false

namespace CasperTapcp

/-- `struct tapcp_state`: the direction (`write`) and mode (`binary`) of the transfer, set before
the opener runs; the next address `ptr`; `nleft`, the bytes left to read or, on a write, the
bytes still allowed when non-negative; the line index `lidx`; and the codec's 32-bit scratch
`u32`. -/
structure TapcpState where
  write : Bool
  binary : Bool
  ptr : Nat
  nleft : Int
  lidx : Int
  u32 : UInt32
  deriving DecidableEq, Repr

/-- One access of the core on the bus. -/
inductive BusEvent
  | fpgaLoad (addr : Nat)
  | fpgaStore (addr : Nat) (word : UInt32)
  | cpuLoad (addr : Nat)
  | cpuLoadByte (addr : Nat)
  deriving DecidableEq, Repr

/-- The CPU addresses an access reads: the four bytes of a 32-bit load, the byte of a byte
load. -/
def BusEvent.cpuBytesRead : BusEvent → List Nat
  | .cpuLoad a => [a, a + 1, a + 2, a + 3]
  | .cpuLoadByte a => [a]
  | _ => []

/-- `sizeof(line_buf)`: 256 + 2 + 9 + 9 + 3 bytes. -/
def lineBufSize : Nat := 279

/-- The memory the core reaches besides the transfer state. -/
structure Machine where
  /-- The word a 32-bit load from the FPGA address space returns. -/
  fpga : Nat → UInt32
  /-- The bytes of the CPU address space below `line_buf`. -/
  cpu : Nat → UInt8
  /-- The bus accesses made so far, oldest first. -/
  log : List BusEvent
  /-- `line_buf`, and the memory after it. -/
  lineBuf : Nat → UInt8
  /-- The address of `line_buf` in the CPU address space. -/
  lineBufAddr : Nat
  /-- The `static uint32_t word` of `casper_tapcp_read_fpga_words_binary`. -/
  readWord : UInt32
  /-- The `static uint32_t word` of `casper_tapcp_write_fpga_words_binary`. -/
  writeWord : UInt32
  /-- The `static uint32_t word` of `casper_tapcp_write_fpga_words_ascii`. -/
  asciiWord : UInt32

namespace Machine

/-- A 32-bit load from the FPGA address space. -/
def loadFpga (m : Machine) (addr : Nat) : UInt32 × Machine :=
  (m.fpga addr, { m with log := m.log ++ [.fpgaLoad addr] })

/-- A 32-bit store to the FPGA address space. -/
def storeFpga (m : Machine) (addr : Nat) (word : UInt32) : Machine :=
  { m with fpga := Function.update m.fpga addr word, log := m.log ++ [.fpgaStore addr word] }

/-- The byte the CPU reads at `addr`: the address is taken modulo `2^32`, and from `line_buf` on
the memory is the one `lineBuf` holds. -/
def cpuByte (m : Machine) (addr : Nat) : UInt8 :=
  if m.lineBufAddr ≤ addr % 2 ^ 32 then m.lineBuf (addr % 2 ^ 32 - m.lineBufAddr)
  else m.cpu (addr % 2 ^ 32)

/-- `*(uint32_t *)addr` in the CPU address space of the little-endian processor. -/
def loadCpu (m : Machine) (addr : Nat) : UInt32 × Machine :=
  (UInt32.ofNat ((m.cpuByte addr).toNat + (m.cpuByte (addr + 1)).toNat * 2 ^ 8 +
      (m.cpuByte (addr + 2)).toNat * 2 ^ 16 + (m.cpuByte (addr + 3)).toNat * 2 ^ 24),
    { m with log := m.log ++ [.cpuLoad addr] })

/-- `*(uint8_t *)addr` in the CPU address space. -/
def loadCpuByte (m : Machine) (addr : Nat) : UInt8 × Machine :=
  (m.cpuByte addr, { m with log := m.log ++ [.cpuLoadByte addr] })

/-- `line_buf[i] = c`. -/
def setLineBuf (m : Machine) (i : Nat) (c : UInt8) : Machine :=
  { m with lineBuf := Function.update m.lineBuf i c }

/-- A line written into `line_buf` from its start. -/
def writeLine (m : Machine) (line : List UInt8) : Machine :=
  { m with lineBuf := fun i => if i < line.length then line.getD i 0 else m.lineBuf i }

/-- Bytes written into `line_buf` from index `p`. -/
def writeLineAt (m : Machine) (p : Nat) (bytes : List UInt8) : Machine :=
  { m with lineBuf := fun i => if p ≤ i ∧ i < p + bytes.length then bytes.getD (i - p) 0
                               else m.lineBuf i }

/-- The `k` CPU bytes from `a` lie outside `line_buf`, their addresses taken modulo `2^32`. -/
def OutsideLineBuf (m : Machine) (a k : Nat) : Prop :=
  ∀ j < k, (a + j) % 2 ^ 32 < m.lineBufAddr ∨ m.lineBufAddr + lineBufSize ≤ (a + j) % 2 ^ 32

instance (m : Machine) (a k : Nat) : Decidable (m.OutsideLineBuf a k) :=
  inferInstanceAs (Decidable (∀ j < k, _))

@[simp] theorem loadFpga_fst (m : Machine) (a : Nat) : (m.loadFpga a).1 = m.fpga a := rfl
@[simp] theorem loadFpga_fpga (m : Machine) (a : Nat) : (m.loadFpga a).2.fpga = m.fpga := rfl
@[simp] theorem loadFpga_log (m : Machine) (a : Nat) :
    (m.loadFpga a).2.log = m.log ++ [.fpgaLoad a] := rfl
@[simp] theorem loadFpga_lineBuf (m : Machine) (a : Nat) :
    (m.loadFpga a).2.lineBuf = m.lineBuf := rfl
@[simp] theorem loadFpga_readWord (m : Machine) (a : Nat) :
    (m.loadFpga a).2.readWord = m.readWord := rfl
@[simp] theorem storeFpga_log (m : Machine) (a : Nat) (w : UInt32) :
    (m.storeFpga a w).log = m.log ++ [.fpgaStore a w] := rfl
@[simp] theorem storeFpga_fpga (m : Machine) (a : Nat) (w : UInt32) :
    (m.storeFpga a w).fpga = Function.update m.fpga a w := rfl
@[simp] theorem storeFpga_lineBuf (m : Machine) (a : Nat) (w : UInt32) :
    (m.storeFpga a w).lineBuf = m.lineBuf := rfl
@[simp] theorem setLineBuf_lineBuf (m : Machine) (i : Nat) (c : UInt8) :
    (m.setLineBuf i c).lineBuf = Function.update m.lineBuf i c := rfl
@[simp] theorem setLineBuf_log (m : Machine) (i : Nat) (c : UInt8) :
    (m.setLineBuf i c).log = m.log := rfl
@[simp] theorem setLineBuf_fpga (m : Machine) (i : Nat) (c : UInt8) :
    (m.setLineBuf i c).fpga = m.fpga := rfl
@[simp] theorem writeLine_log (m : Machine) (line : List UInt8) :
    (m.writeLine line).log = m.log := rfl
@[simp] theorem writeLine_fpga (m : Machine) (line : List UInt8) :
    (m.writeLine line).fpga = m.fpga := rfl
@[simp] theorem writeLine_cpu (m : Machine) (line : List UInt8) :
    (m.writeLine line).cpu = m.cpu := rfl

@[simp] theorem loadCpu_log (m : Machine) (a : Nat) :
    (m.loadCpu a).2.log = m.log ++ [.cpuLoad a] := rfl
@[simp] theorem loadCpu_cpuByte (m : Machine) (a : Nat) : (m.loadCpu a).2.cpuByte = m.cpuByte :=
  rfl
/-- The CPU reads an address modulo `2^32`. -/
theorem cpuByte_mod (m : Machine) (a : Nat) : m.cpuByte (a % 2 ^ 32) = m.cpuByte a := by
  simp only [cpuByte, Nat.mod_mod]

@[simp] theorem cpuByte_log (m : Machine) (l : List BusEvent) :
    ({ m with log := l } : Machine).cpuByte = m.cpuByte := rfl
@[simp] theorem loadCpu_lineBufAddr (m : Machine) (a : Nat) :
    (m.loadCpu a).2.lineBufAddr = m.lineBufAddr := rfl

/-- The low byte of a 32-bit load is the byte at its address. -/
theorem loadCpu_toUInt8 (m : Machine) (a : Nat) : (m.loadCpu a).1.toUInt8 = m.cpuByte a := by
  have h₀ := (m.cpuByte a).toNat_lt_size
  have h₁ := (m.cpuByte (a + 1)).toNat_lt_size
  have h₂ := (m.cpuByte (a + 2)).toNat_lt_size
  have h₃ := (m.cpuByte (a + 3)).toNat_lt_size
  simp only [UInt8.size] at h₀ h₁ h₂ h₃
  rw [u8_eq_iff_toNat, toNat_u32_toUInt8, loadCpu, toNat_u32_ofNat]
  omega

/-- A 32-bit load depends only on the four bytes it reads. -/
theorem loadCpu_congr {m m' : Machine} {a : Nat}
    (h : ∀ x ∈ (BusEvent.cpuLoad a).cpuBytesRead, m.cpuByte x = m'.cpuByte x) :
    (m.loadCpu a).1 = (m'.loadCpu a).1 := by
  simp only [BusEvent.cpuBytesRead, List.mem_cons, List.mem_singleton, forall_eq_or_imp,
    forall_eq, List.not_mem_nil, or_false] at h
  simp only [loadCpu, h.1, h.2.1, h.2.2.1, h.2.2.2]

/-- Bytes written into `line_buf` within the array leave the CPU bytes outside it as they
were. -/
theorem cpuByte_writeLineAt (m : Machine) {p : Nat} {bytes : List UInt8}
    (hp : p + bytes.length ≤ lineBufSize) {a : Nat} (ha : m.OutsideLineBuf a 1) :
    (m.writeLineAt p bytes).cpuByte a = m.cpuByte a := by
  have h := ha 0 Nat.one_pos
  rw [Nat.add_zero] at h
  simp only [cpuByte, writeLineAt]
  split_ifs <;> first | rfl | omega

/-- The bytes after the first `j` of a range outside `line_buf` are outside it. -/
theorem OutsideLineBuf.shift {m : Machine} {a k : Nat} (h : m.OutsideLineBuf a k) {j : Nat}
    (hj : j ≤ k) : m.OutsideLineBuf (a + j) (k - j) := fun i hi => by
  rw [Nat.add_assoc]
  exact h (j + i) (by omega)

/-- Each byte of a range outside `line_buf` is outside it. -/
theorem OutsideLineBuf.one {m : Machine} {a k : Nat} (h : m.OutsideLineBuf a k) {j : Nat}
    (hj : j < k) : m.OutsideLineBuf (a + j) 1 := fun i hi => by
  obtain rfl : i = 0 := by omega
  exact h j hj

theorem writeLine_eq_writeLineAt (m : Machine) (line : List UInt8) :
    m.writeLine line = m.writeLineAt 0 line := by
  simp [writeLine, writeLineAt]

/-- A line written into `line_buf` leaves the CPU bytes outside it as they were. -/
theorem cpuByte_writeLine (m : Machine) {line : List UInt8} (hl : line.length ≤ lineBufSize)
    {a : Nat} (ha : m.OutsideLineBuf a 1) : (m.writeLine line).cpuByte a = m.cpuByte a := by
  rw [writeLine_eq_writeLineAt]
  exact cpuByte_writeLineAt m (by rwa [Nat.zero_add]) ha

@[simp] theorem writeLineAt_nil (m : Machine) (p : Nat) : m.writeLineAt p [] = m := by
  have h : ∀ i, ¬(p ≤ i ∧ i < p) := fun i => by omega
  simp [writeLineAt, h]

/-- Two pieces written one after the other are their concatenation written at once. -/
theorem writeLineAt_append (m : Machine) (p : Nat) (xs ys : List UInt8) {q : Nat}
    (hq : q = p + xs.length) : (m.writeLineAt p xs).writeLineAt q ys = m.writeLineAt p (xs ++ ys) := by
  subst hq
  simp only [writeLineAt, List.length_append, Machine.mk.injEq, and_true, true_and]
  funext i
  by_cases h₁ : p + xs.length ≤ i ∧ i < p + xs.length + ys.length
  · rw [if_pos h₁, if_pos ⟨by omega, by omega⟩, List.getD_append_right _ _ _ _ (by omega)]
    congr 1
    omega
  · rw [if_neg h₁]
    by_cases h₂ : p ≤ i ∧ i < p + xs.length
    · rw [if_pos h₂, if_pos ⟨h₂.1, by omega⟩, List.getD_append _ _ _ _ (by omega)]
    · rw [if_neg h₂, if_neg (by omega)]

theorem writeLineAt_withLog (m : Machine) (p : Nat) (bytes : List UInt8) (l : List BusEvent) :
    ({ m.writeLineAt p bytes with log := l } : Machine) = ({ m with log := l } : Machine).writeLineAt p bytes :=
  rfl

@[simp] theorem writeLineAt_log (m : Machine) (p : Nat) (bytes : List UInt8) :
    (m.writeLineAt p bytes).log = m.log := rfl
@[simp] theorem writeLineAt_lineBufAddr (m : Machine) (p : Nat) (bytes : List UInt8) :
    (m.writeLineAt p bytes).lineBufAddr = m.lineBufAddr := rfl

/-- A byte stored in `line_buf` is a piece of one byte written there. -/
theorem setLineBuf_eq_writeLineAt (m : Machine) (i : Nat) (c : UInt8) :
    m.setLineBuf i c = m.writeLineAt i [c] := by
  simp only [setLineBuf, writeLineAt, List.length_singleton, Machine.mk.injEq, and_true, true_and]
  funext j
  by_cases h : j = i
  · subst h; simp
  · rw [Function.update_noteq h, if_neg (by omega)]

theorem writeLine_lineBuf_of_lt (m : Machine) (line : List UInt8) {i : Nat}
    (hi : i < line.length) : (m.writeLine line).lineBuf i = line.getD i 0 := by
  simp [writeLine, hi]

end Machine

/-- The machine whose memories all read zero, before any access. -/
def zeroMachine : Machine := ⟨fun _ => 0, fun _ => 0, [], fun _ => 0, 0x8000, 0, 0, 0⟩

/-! ### pbuf chains -/

/-- A `struct pbuf` chain as a write callback walks it: the payloads in chain order. -/
abbrev Chain := List (List UInt8)

/-- `tot_len` of the first pbuf of a chain: the bytes in it and in every pbuf after it. -/
def totLen (chain : Chain) : Nat := (chain.map List.length).sum

/-- The body of a callback's byte loop, run over a payload, stopping at the first byte that
makes the callback return an error. -/
def feedBytes {σ : Type} (step : UInt8 → σ → Except σ σ) : List UInt8 → σ → Except σ σ
  | [], s => .ok s
  | c :: cs, s =>
    match step c s with
    | .ok s => feedBytes step cs s
    | .error s => .error s

/-- `while(pbuf) { ... if(pbuf->tot_len <= pbuf->len) break; pbuf = pbuf->next; }`: the chain
walk of both write callbacks. -/
def pbufLoop {σ : Type} (step : UInt8 → σ → Except σ σ) : Chain → σ → Except σ σ
  | [], s => .ok s
  | payload :: rest, s =>
    match feedBytes step payload s with
    | .ok s => if totLen (payload :: rest) ≤ payload.length then .ok s else pbufLoop step rest s
    | .error s => .error s

section Feed

variable {σ : Type} (step : UInt8 → σ → Except σ σ)

theorem feedBytes_append (xs ys : List UInt8) (s : σ) :
    feedBytes step (xs ++ ys) s =
      match feedBytes step xs s with
      | .ok s => feedBytes step ys s
      | .error s => .error s := by
  induction xs generalizing s with
  | nil => rfl
  | cons c cs ih =>
    simp only [List.cons_append, feedBytes]
    cases step c s <;> simp [ih]

theorem feedBytes_of_totLen_eq_zero (chain : Chain) (h : totLen chain = 0) (s : σ) :
    feedBytes step chain.flatten s = .ok s := by
  induction chain with
  | nil => rfl
  | cons l rest ih =>
    simp only [totLen, List.map_cons, List.sum_cons] at h
    rw [List.flatten_cons, List.eq_nil_of_length_eq_zero (by omega : l.length = 0)]
    exact ih (by simp only [totLen]; omega)

/-- The chain walk consumes the bytes of the whole chain, in order: it stops early only when
every pbuf after the current one is empty. -/
theorem pbufLoop_eq_feedBytes (chain : Chain) (s : σ) :
    pbufLoop step chain s = feedBytes step chain.flatten s := by
  induction chain generalizing s with
  | nil => rfl
  | cons payload rest ih =>
    simp only [pbufLoop, List.flatten_cons, feedBytes_append]
    cases feedBytes step payload s with
    | error s => rfl
    | ok s =>
      simp only
      split
      · rename_i hlen
        simp only [totLen, List.map_cons, List.sum_cons] at hlen
        rw [feedBytes_of_totLen_eq_zero step rest (by simp only [totLen]; omega)]
      · exact ih s

end Feed

/-! ### The engine -/

/-- A list cut into consecutive pieces of the given sizes; once it runs out, the pieces are short
or empty. The bytes a read callback owes, cut at the engine's request boundaries. -/
def splitBy {α : Type} : List Nat → List α → List (List α)
  | [], _ => []
  | n :: ns, xs => xs.take n :: splitBy ns (xs.drop n)

theorem flatten_splitBy {α : Type} (sizes : List Nat) (xs : List α) :
    (splitBy sizes xs).flatten = xs.take sizes.sum := by
  induction sizes generalizing xs with
  | nil => simp [splitBy]
  | cons n ns ih => simp [splitBy, ih, List.take_add]

theorem length_splitBy {α : Type} (sizes : List Nat) (xs : List α) (j : Nat)
    (hj : j < sizes.length) :
    ((splitBy sizes xs).getD j []).length = min (sizes.getD j 0) (xs.length - (sizes.take j).sum) := by
  induction sizes generalizing xs j with
  | nil => simp at hj
  | cons n ns ih =>
    cases j with
    | zero => simp [splitBy]
    | succ j =>
      simp only [splitBy, List.getD_cons_succ, List.take_succ_cons, List.sum_cons]
      rw [ih _ j (by simpa using hj), List.length_drop, Nat.sub_sub]

/-- Up to and including a call that returns less than it asks for, the calls return all of
`xs`. -/
theorem flatten_take_splitBy_of_short {α : Type} (sizes : List Nat) (xs : List α) (j : Nat)
    (hj : j < sizes.length) (hshort : ((splitBy sizes xs).getD j []).length < sizes.getD j 0) :
    ((splitBy sizes xs).take (j + 1)).flatten = xs := by
  induction sizes generalizing xs j with
  | nil => simp at hj
  | cons n ns ih =>
    cases j with
    | zero =>
      simp only [splitBy, List.getD_cons_zero, List.length_take] at hshort
      simp [splitBy, List.take_of_length_le (show xs.length ≤ n by omega)]
    | succ j =>
      simp only [splitBy, List.getD_cons_succ] at hshort ⊢
      rw [List.take_succ_cons, List.flatten_cons, ih _ j (by simpa using hj) hshort,
        List.take_append_drop]

/-- The engine asking a read callback for each request size in turn; each call's bytes. -/
def runReads (callback : TapcpState → Machine → Nat → List UInt8 × TapcpState × Machine) :
    List Nat → TapcpState → Machine → List (List UInt8) × TapcpState × Machine
  | [], s, m => ([], s, m)
  | n :: sizes, s, m =>
    let (out, s, m) := callback s m n
    let (outs, s, m) := runReads callback sizes s m
    (out :: outs, s, m)

/-- The bytes a sequence of calls delivers, in order. -/
def transferBytes (calls : List Chain) : List UInt8 := calls.flatMap List.flatten

/-- The engine delivering one chain per call to a write callback, aborting the transfer at the
first call that returns a negative value. -/
def runWrites (callback : TapcpState → Machine → Chain → Int × TapcpState × Machine) :
    List Chain → TapcpState → Machine → Except (TapcpState × Machine) (TapcpState × Machine)
  | [], s, m => .ok (s, m)
  | chain :: calls, s, m =>
    let (ret, s, m) := callback s m chain
    if ret < 0 then .error (s, m) else runWrites callback calls s m

/-- A callback that does on each call what a byte loop does on its bytes, returning -1 exactly
when the loop refuses a byte, makes the engine's calls do what the loop does on the whole
transfer. -/
theorem runWrites_feedBytes {callback : TapcpState → Machine → Chain → Int × TapcpState × Machine}
    {step : UInt8 → TapcpState × Machine → Except (TapcpState × Machine) (TapcpState × Machine)}
    (calls : List Chain)
    (hcall : ∀ chain ∈ calls, ∀ s m, callback s m chain =
      match feedBytes step chain.flatten (s, m) with
      | .ok a => (0, a)
      | .error a => (-1, a)) :
    ∀ s m, runWrites callback calls s m = feedBytes step (transferBytes calls) (s, m) := by
  induction calls with
  | nil => intro s m; rfl
  | cons chain calls ih =>
    intro s m
    simp only [runWrites, transferBytes, List.flatMap_cons, feedBytes_append,
      hcall chain (List.mem_cons_self _ _)]
    rcases feedBytes step chain.flatten (s, m) with ⟨s', m'⟩ | ⟨s', m'⟩
    · rfl
    · exact ih (fun c hc => hcall c (List.mem_cons_of_mem _ hc)) s' m'

/-! ### Where a run ends -/

/-- The state a byte loop or a transfer ends in, whether its last byte or call was accepted or
refused. -/
def settled {σ : Type} : Except σ σ → σ
  | .ok x => x
  | .error x => x

/-- A property that every pass of a byte loop keeps, whether it accepts its byte or refuses it,
holds where the loop ends. -/
theorem feedBytes_settled {σ : Type} (P : σ → Prop) (step : UInt8 → σ → Except σ σ)
    (hstep : ∀ c x, P x → P (settled (step c x))) (xs : List UInt8) :
    ∀ x, P x → P (settled (feedBytes step xs x)) := by
  induction xs with
  | nil => exact fun _ hx => hx
  | cons c cs ih =>
    intro x hx
    have hc := hstep c x hx
    simp only [feedBytes]
    rcases h : step c x with y | y <;> rw [h] at hc
    · exact hc
    · exact ih y hc

/-- A property that every call of a read callback keeps holds after any schedule of requests. -/
theorem runReads_inv (P : TapcpState × Machine → Prop)
    (callback : TapcpState → Machine → Nat → List UInt8 × TapcpState × Machine)
    (hcall : ∀ s m n, P (s, m) → P (callback s m n).2) (sizes : List Nat) :
    ∀ s m, P (s, m) → P (runReads callback sizes s m).2 := by
  induction sizes with
  | nil => exact fun _ _ h => h
  | cons n sizes ih =>
    intro s m h
    have hc := hcall s m n h
    simp only [runReads]
    rcases hcb : callback s m n with ⟨out, s₁, m₁⟩
    rw [hcb] at hc
    exact ih s₁ m₁ hc

/-- A property that every call keeps, whatever it returns, holds where a transfer ends. -/
theorem runWrites_settled (P : TapcpState × Machine → Prop)
    (callback : TapcpState → Machine → Chain → Int × TapcpState × Machine)
    (hcall : ∀ s m chain, P (s, m) → P (callback s m chain).2) (calls : List Chain) :
    ∀ s m, P (s, m) → P (settled (runWrites callback calls s m)) := by
  induction calls with
  | nil => exact fun _ _ h => h
  | cons chain calls ih =>
    intro s m h
    have hc := hcall s m chain h
    simp only [runWrites]
    rcases hcb : callback s m chain with ⟨ret, s₁, m₁⟩
    rw [hcb] at hc
    split
    · exact hc
    · exact ih s₁ m₁ hc

/-- An access to the FPGA address space touches a whole word within `[lo, hi)`; accesses to the
CPU address space are not constrained. -/
def fpgaWithin (lo hi : Nat) : BusEvent → Bool
  | .fpgaLoad a => lo ≤ a && a + 4 ≤ hi
  | .fpgaStore a _ => lo ≤ a && a + 4 ≤ hi
  | .cpuLoad _ => true
  | .cpuLoadByte _ => true

/-- The log extends `log₀`, and every FPGA access since is of a whole word within `[lo, hi)`. -/
def AccessesWithin (lo hi : Nat) (log₀ log : List BusEvent) : Prop :=
  ∃ new, log = log₀ ++ new ∧ ∀ ev ∈ new, fpgaWithin lo hi ev = true

namespace AccessesWithin

variable {lo hi : Nat} {log₀ log : List BusEvent}

theorem refl : AccessesWithin lo hi log₀ log₀ :=
  ⟨[], (List.append_nil _).symm, fun _ h => nomatch h⟩

theorem append (h : AccessesWithin lo hi log₀ log) (ev : BusEvent) (hev : fpgaWithin lo hi ev = true) :
    AccessesWithin lo hi log₀ (log ++ [ev]) := by
  obtain ⟨new, rfl, hnew⟩ := h
  refine ⟨new ++ [ev], List.append_assoc _ _ _, fun e he => ?_⟩
  rcases List.mem_append.mp he with he | he
  · exact hnew e he
  · rwa [List.mem_singleton.mp he]

theorem store (h : AccessesWithin lo hi log₀ log) {a : Nat} (w : UInt32) (hlo : lo ≤ a)
    (hhi : a + 4 ≤ hi) : AccessesWithin lo hi log₀ (log ++ [.fpgaStore a w]) :=
  h.append _ (by simp [fpgaWithin, hlo, hhi])

theorem load (h : AccessesWithin lo hi log₀ log) {a : Nat} (hlo : lo ≤ a) (hhi : a + 4 ≤ hi) :
    AccessesWithin lo hi log₀ (log ++ [.fpgaLoad a]) :=
  h.append _ (by simp [fpgaWithin, hlo, hhi])

/-- A wider range holds the same accesses. -/
theorem mono (h : AccessesWithin lo hi log₀ log) {lo' hi' : Nat} (hlo : lo' ≤ lo) (hhi : hi ≤ hi') :
    AccessesWithin lo' hi' log₀ log := by
  obtain ⟨new, rfl, hnew⟩ := h
  refine ⟨new, rfl, fun ev hev => ?_⟩
  have := hnew ev hev
  cases ev <;> simp only [fpgaWithin, Bool.and_eq_true, decide_eq_true_eq] at this ⊢ <;> omega

end AccessesWithin

end CasperTapcp

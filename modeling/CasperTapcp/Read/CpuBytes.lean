import CasperTapcp.Platform.Machine

/-!
# Binary reads of CPU memory

`casper_tapcp_read_mem_bytes_binary` sends the bytes of the CPU address space from `ptr`, one
byte load each, until the request is full or `nleft` runs out. `casper_tapcp_open_mem` registers
it for `/cpu.` in octet mode, and `casper_tapcp_open_listdev` for `/listdev` in octet mode, whose
bytes are the big-endian length of the core info and the core info itself.
`casper_tapcp_read_help` copies the help text `min(bytes, nleft)` bytes at a time, which from a
non-negative `nleft` is the same function (`readHelp_eq`).

In any schedule of requests both send the next bytes of the `nleft` bytes from `ptr`, as many as
requested or as remain, and load each byte once, in address order, as it is sent
(`readMemBytesBinary_schedule`).
-/

set_option autoImplicit false
set_option relaxedAutoImplicit false

namespace CasperTapcp

/-- The `k` CPU bytes at `p`. -/
def bytesAt (mem : Nat → UInt8) (p k : Nat) : List UInt8 := (List.range k).map fun i => mem (p + i)

/-- The byte loads of the `k` bytes at `p`, in address order. -/
def byteLoads (p k : Nat) : List BusEvent := (List.range k).map fun i => .cpuLoadByte (p + i)

/-- The bytes at `p` depend only on the memory there. -/
theorem bytesAt_congr {f g : Nat → UInt8} {p k : Nat} (h : ∀ j < k, f (p + j) = g (p + j)) :
    bytesAt f p k = bytesAt g p k :=
  List.map_congr_left fun j hj => h j (List.mem_range.1 hj)

/-- The CPU bytes from two addresses that agree modulo `2^32` are the same bytes. -/
theorem bytesAt_cpuByte_mod (m : Machine) {a b : Nat} (h : a % 2 ^ 32 = b % 2 ^ 32) (k : Nat) :
    bytesAt m.cpuByte a k = bytesAt m.cpuByte b k := by
  refine List.map_congr_left fun j _ => ?_
  rw [← m.cpuByte_mod (a + j), ← m.cpuByte_mod (b + j), Nat.add_mod, h, ← Nat.add_mod]

theorem bytesAt_add (mem : Nat → UInt8) (p a b : Nat) :
    bytesAt mem p (a + b) = bytesAt mem p a ++ bytesAt mem (p + a) b := by
  simp only [bytesAt, List.range_add, List.map_append, List.map_map]
  congr 2
  funext i
  simp [Nat.add_assoc]

theorem byteLoads_add (p a b : Nat) : byteLoads p (a + b) = byteLoads p a ++ byteLoads (p + a) b := by
  simp only [byteLoads, List.range_add, List.map_append, List.map_map]
  congr 2
  funext i
  simp [Nat.add_assoc]

theorem bytesAt_succ (mem : Nat → UInt8) (p k : Nat) :
    bytesAt mem p (k + 1) = mem p :: bytesAt mem (p + 1) k := by
  simp only [bytesAt, List.range_succ_eq_map, List.map_cons, List.map_map, Nat.add_zero]
  congr 2
  funext i
  simp [Nat.add_assoc, Nat.add_comm 1 i]

theorem byteLoads_succ (p k : Nat) : byteLoads p (k + 1) = .cpuLoadByte p :: byteLoads (p + 1) k := by
  simp only [byteLoads, List.range_succ_eq_map, List.map_cons, List.map_map, Nat.add_zero]
  congr 2
  funext i
  simp [Nat.add_assoc, Nat.add_comm 1 i]

theorem take_bytesAt (mem : Nat → UInt8) (p k n : Nat) :
    (bytesAt mem p k).take n = bytesAt mem p (min n k) := by
  rw [bytesAt, ← List.map_take, List.take_range, bytesAt]

theorem drop_bytesAt (mem : Nat → UInt8) (p k n : Nat) :
    (bytesAt mem p k).drop n = bytesAt mem (p + min n k) (k - min n k) := by
  rcases le_or_lt n k with h | h
  · conv_lhs => rw [show k = n + (k - n) by omega, bytesAt_add]
    rw [List.drop_left' (by simp [bytesAt]), min_eq_left h]
  · rw [List.drop_eq_nil_of_le (by simp [bytesAt]; omega), min_eq_right h.le, Nat.sub_self]
    rfl

/-! ### `casper_tapcp_read_mem_bytes_binary` -/

/-- `while(len < bytes && state->nleft > 0)` of `casper_tapcp_read_mem_bytes_binary`, with `n`
the bytes still requested: the byte at `ptr` is sent, `ptr` advanced and `nleft` decremented. -/
def readMemBytesBinaryLoop : (n : Nat) → TapcpState → Machine → List UInt8 × TapcpState × Machine
  | 0, s, m => ([], s, m)
  | n + 1, s, m =>
    if s.nleft > 0 then
      let (b, m) := m.loadCpuByte s.ptr
      let (out, s, m) :=
        readMemBytesBinaryLoop n { s with ptr := s.ptr + 1, nleft := s.nleft - 1 } m
      (b :: out, s, m)
    else ([], s, m)

/-- `casper_tapcp_read_mem_bytes_binary(state, buf, bytes)`: the bytes sent. -/
def readMemBytesBinary (s : TapcpState) (m : Machine) (bytes : Nat) :
    List UInt8 × TapcpState × Machine :=
  readMemBytesBinaryLoop bytes s m

/-- A call sends `min(bytes, nleft)` bytes from `ptr`, loading each once. -/
theorem readMemBytesBinaryLoop_eq (n : Nat) : ∀ (s : TapcpState) (m : Machine),
    readMemBytesBinaryLoop n s m =
      (bytesAt m.cpuByte s.ptr (min n s.nleft.toNat),
        { s with ptr := s.ptr + min n s.nleft.toNat, nleft := s.nleft - min n s.nleft.toNat },
        { m with log := m.log ++ byteLoads s.ptr (min n s.nleft.toNat) }) := by
  induction n with
  | zero => intro s m; simp [readMemBytesBinaryLoop, bytesAt, byteLoads]
  | succ n ih =>
    intro s m
    simp only [readMemBytesBinaryLoop]
    split
    · rename_i hpos
      have hj : min (n + 1) s.nleft.toNat = min n (s.nleft - 1).toNat + 1 := by omega
      rw [ih, hj, bytesAt_succ, byteLoads_succ]
      simp only [Machine.loadCpuByte, List.append_assoc, List.singleton_append]
      refine Prod.ext rfl (Prod.ext ?_ rfl)
      simp only
      congr 1 <;> omega
    · rename_i hle
      have hj : min (n + 1) s.nleft.toNat = 0 := by omega
      simp [hj, bytesAt, byteLoads]

/-- In any schedule of requests, from `nleft = k` at `p`, each call sends the next bytes of the
`k` bytes at `p`, as many as requested or as remain, and the bytes are loaded once each, in
address order, as they are sent. -/
theorem readMemBytesBinary_schedule (sizes : List Nat) : ∀ (s : TapcpState) (m : Machine) (p k : Nat),
    let r := runReads readMemBytesBinary sizes { s with ptr := p, nleft := k } m
    r.1 = splitBy sizes (bytesAt m.cpuByte p k) ∧ r.2.2.log = m.log ++ byteLoads p (min sizes.sum k) := by
  induction sizes with
  | nil => intro s m p k; simp [runReads, splitBy, byteLoads]
  | cons n sizes ih =>
    intro s m p k
    have hk : ({ s with ptr := p, nleft := k } : TapcpState).nleft.toNat = k := by simp
    have hst : ({ s with ptr := p + min n k, nleft := (k : Int) - (min n k : Nat) } : TapcpState) =
        { s with ptr := p + min n k, nleft := ((k - min n k : Nat) : Int) } := by
      congr 1; omega
    obtain ⟨hout, hlog⟩ := ih s { m with log := m.log ++ byteLoads p (min n k) } (p + min n k)
      (k - min n k)
    rw [Machine.cpuByte_log] at hout
    simp only [runReads, readMemBytesBinary, readMemBytesBinaryLoop_eq, hk, hst]
    refine ⟨?_, ?_⟩
    · rw [hout, splitBy, take_bytesAt, drop_bytesAt]
    · rw [hlog, List.append_assoc, ← byteLoads_add]
      congr 2
      simp only [List.sum_cons]
      omega

/-! ### `casper_tapcp_read_help` -/

/-- `casper_tapcp_read_help(state, buf, bytes)`: `len = bytes < nleft ? bytes : nleft` bytes
copied from `ptr`, which then advances by `len` while `nleft` drops by it. The `memcpy` reads each
byte once. `nleft` is never negative here, and a negative `len` copies nothing. -/
def readHelp (s : TapcpState) (m : Machine) (bytes : Nat) : List UInt8 × TapcpState × Machine :=
  let len : Int := if (bytes : Int) < s.nleft then bytes else s.nleft
  (bytesAt m.cpuByte s.ptr len.toNat, { s with ptr := s.ptr + len.toNat, nleft := s.nleft - len },
    { m with log := m.log ++ byteLoads s.ptr len.toNat })

/-- From a non-negative `nleft`, the help reader is the binary reader of CPU bytes. -/
theorem readHelp_eq (s : TapcpState) (m : Machine) (bytes : Nat) (h : 0 ≤ s.nleft) :
    readHelp s m bytes = readMemBytesBinary s m bytes := by
  have hlen : (if (bytes : Int) < s.nleft then (bytes : Int) else s.nleft).toNat =
      min bytes s.nleft.toNat := by
    split_ifs <;> omega
  rw [readMemBytesBinary, readMemBytesBinaryLoop_eq, readHelp]
  simp only [hlen]
  congr 3
  split_ifs <;> omega

/-- From a non-negative `nleft`, the engine's calls of the help reader are those of the binary
reader of CPU bytes. -/
theorem runReads_readHelp (sizes : List Nat) : ∀ (s : TapcpState) (m : Machine), 0 ≤ s.nleft →
    runReads readHelp sizes s m = runReads readMemBytesBinary sizes s m := by
  induction sizes with
  | nil => intro s m _; rfl
  | cons n sizes ih =>
    intro s m h
    simp only [runReads, readHelp_eq s m n h, readMemBytesBinary, readMemBytesBinaryLoop_eq]
    rw [ih _ _ (by dsimp only; omega)]

/-- A list laid out from address 0 reads back. -/
theorem bytesAt_getD (l : List UInt8) : bytesAt (fun i => l.getD i 0) 0 l.length = l := by
  apply List.ext_getElem (by simp [bytesAt])
  intro i h₁ h₂
  simp [bytesAt, List.getElem?_eq_getElem h₂]

end CasperTapcp

import CasperTapcp.Platform.Machine

/-!
# Binary reads of FPGA words

`casper_tapcp_read_fpga_words_binary` sends `nleft` bytes drawn from 32-bit FPGA loads, most
significant byte first. It keeps the current word in a static variable and decides from
`--nleft & 3` which byte of it to send; at 3 it first loads the next word and advances `ptr`.

The proof does not follow the bytes by their index in the transfer. From any state it reads off
the bytes still `owed`: the unsent bytes of the current word, then the network-order bytes of the
`nleft / 4` words from `ptr`; and the `pendingLoads`, the addresses of those words. One pass of
the loop sends the head of `owed` and keeps the rest owed (`readFpgaWordsBinaryByte_spec`); a
load happens exactly when the head of `pendingLoads` is taken. So a call sends a prefix of
`owed` (`readFpgaWordsBinaryLoop_spec`), and any sequence of calls cuts `owed` at the request
boundaries (`runReads_readFpgaWordsBinary`). From the state the openers produce, `owed` is the
serialization of the words of the region and `pendingLoads` their addresses in order
(`readFpgaWordsBinary_schedule`). From any state, the loads lie within `[ptr, ptr + nleft)`
(`readFpgaWordsBinary_within`).
-/

set_option autoImplicit false
set_option relaxedAutoImplicit false

namespace CasperTapcp

/-! ### The codec -/

/-- One pass of the loop of `casper_tapcp_read_fpga_words_binary`: `nleft` is decremented and
`nleft & 3` picks the byte of `word` to send, the next word being loaded first when it is 3. -/
def readFpgaWordsBinaryByte (s : TapcpState) (m : Machine) : UInt8 × TapcpState × Machine :=
  let s : TapcpState := { s with nleft := s.nleft - 1 }
  let slot : Int := s.nleft % 4
  if slot = 3 then
    let (word, m) := m.loadFpga s.ptr
    (((word >>> 24) &&& 0xff).toUInt8, { s with ptr := s.ptr + 4 }, { m with readWord := word })
  else if slot = 2 then (((m.readWord >>> 16) &&& 0xff).toUInt8, s, m)
  else if slot = 1 then (((m.readWord >>> 8) &&& 0xff).toUInt8, s, m)
  else ((m.readWord &&& 0xff).toUInt8, s, m)

/-- `while(len < bytes && state->nleft > 0)`, with `n` the bytes still requested. -/
def readFpgaWordsBinaryLoop : (n : Nat) → TapcpState → Machine → List UInt8 × TapcpState × Machine
  | 0, s, m => ([], s, m)
  | n + 1, s, m =>
    if s.nleft > 0 then
      let (b, s, m) := readFpgaWordsBinaryByte s m
      let (out, s, m) := readFpgaWordsBinaryLoop n s m
      (b :: out, s, m)
    else ([], s, m)

/-- `casper_tapcp_read_fpga_words_binary(state, buf, bytes)`: the bytes sent, whose number is
the return value. -/
def readFpgaWordsBinary (s : TapcpState) (m : Machine) (bytes : Nat) :
    List UInt8 × TapcpState × Machine :=
  readFpgaWordsBinaryLoop bytes s m

/-! ### What a transfer owes -/

/-- The `k` FPGA words at `p`, `p + 4`, .... -/
def wordsAt (mem : Nat → UInt32) (p k : Nat) : List UInt32 :=
  (List.range k).map fun i => mem (p + 4 * i)

/-- Words in network byte order. -/
def serialize (ws : List UInt32) : List UInt8 := ws.flatMap beBytes

/-- The loads of the `k` words at `p`, in address order. -/
def wordLoads (p k : Nat) : List BusEvent := (List.range k).map fun i => .fpgaLoad (p + 4 * i)

/-- The bytes a state still owes: the unsent bytes of the current word and the bytes of the
`nleft / 4` words from `ptr`. -/
def owed (mem : Nat → UInt32) (s : TapcpState) (word : UInt32) : List UInt8 :=
  (beBytes word).drop (4 - s.nleft.toNat % 4) ++ serialize (wordsAt mem s.ptr (s.nleft.toNat / 4))

/-- The loads a state still has to make. -/
def pendingLoads (s : TapcpState) : List BusEvent := wordLoads s.ptr (s.nleft.toNat / 4)

theorem wordsAt_succ (mem : Nat → UInt32) (p k : Nat) :
    wordsAt mem p (k + 1) = mem p :: wordsAt mem (p + 4) k := by
  simp only [wordsAt, List.range_succ_eq_map, List.map_cons, List.map_map]
  congr 2
  funext i
  simp only [Function.comp, Nat.add_assoc, Nat.mul_succ, Nat.add_comm 4]

theorem wordLoads_succ (p k : Nat) :
    wordLoads p (k + 1) = .fpgaLoad p :: wordLoads (p + 4) k := by
  simp only [wordLoads, List.range_succ_eq_map, List.map_cons, List.map_map]
  congr 2
  funext i
  simp only [Function.comp, Nat.add_assoc, Nat.mul_succ, Nat.add_comm 4]

@[simp] theorem length_serialize (ws : List UInt32) : (serialize ws).length = 4 * ws.length := by
  induction ws with
  | nil => rfl
  | cons w ws ih =>
    simp only [serialize, List.flatMap_cons, List.length_append, length_beBytes] at ih ⊢
    rw [ih, List.length_cons]
    ring

@[simp] theorem length_wordsAt (mem : Nat → UInt32) (p k : Nat) : (wordsAt mem p k).length = k := by
  simp [wordsAt]

@[simp] theorem length_wordLoads (p k : Nat) : (wordLoads p k).length = k := by
  simp [wordLoads]

theorem byte_of_shiftRight (w s : UInt32) (hs : s.toNat < 32) :
    ((w >>> s) &&& 0xff).toUInt8 = UInt8.ofNat (w.toNat / 2 ^ s.toNat) := by
  rw [u8_eq_iff_toNat, toNat_u32_toUInt8, toNat_u32_and_255, toNat_u32_shiftRight,
    Nat.mod_eq_of_lt hs, toNat_u8_ofNat]
  omega

theorem byte_of_low (w : UInt32) : (w &&& 0xff).toUInt8 = UInt8.ofNat (w.toNat / 2 ^ 0) := by
  rw [u8_eq_iff_toNat, toNat_u32_toUInt8, toNat_u32_and_255, toNat_u8_ofNat]
  omega

/-- One pass of the loop, by the value of `--nleft & 3`: a load and the top byte of the new word
at 3, otherwise byte `nleft & 3` of the current word, counted from the least significant. -/
theorem readFpgaWordsBinaryByte_eq (s : TapcpState) (m : Machine) :
    readFpgaWordsBinaryByte s m =
      if (s.nleft - 1) % 4 = 3 then
        (UInt8.ofNat ((m.fpga s.ptr).toNat / 2 ^ 24), { s with nleft := s.nleft - 1, ptr := s.ptr + 4 },
          { m with log := m.log ++ [.fpgaLoad s.ptr], readWord := m.fpga s.ptr })
      else
        (UInt8.ofNat (m.readWord.toNat / 2 ^ (8 * ((s.nleft - 1) % 4).toNat)),
          { s with nleft := s.nleft - 1 }, m) := by
  unfold readFpgaWordsBinaryByte
  dsimp only
  split_ifs with h3 h2 h1
  · rw [byte_of_shiftRight _ _ (by decide)]; rfl
  · rw [byte_of_shiftRight _ _ (by decide), h2]; rfl
  · rw [byte_of_shiftRight _ _ (by decide), h1]; rfl
  · rw [byte_of_low, show (s.nleft - 1) % 4 = 0 by omega]; rfl

theorem owed_of_nleft_le_zero (mem : Nat → UInt32) (s : TapcpState) (word : UInt32)
    (h : s.nleft ≤ 0) : owed mem s word = [] := by
  simp [owed, Int.toNat_eq_zero.mpr h, wordsAt, serialize]

theorem beBytes_drop (w : UInt32) (j : Nat) (hj : j < 3) :
    (beBytes w).drop (3 - j) = UInt8.ofNat (w.toNat / 2 ^ (8 * j)) :: (beBytes w).drop (4 - j) := by
  interval_cases j <;> simp [beBytes]

/-- One pass of the loop sends the first byte owed and owes the rest; it loads exactly when the
first pending load is due. -/
theorem readFpgaWordsBinaryByte_spec (mem : Nat → UInt32) {s s' : TapcpState} {m m' : Machine}
    {b : UInt8} (hm : m.fpga = mem) (hpos : 0 < s.nleft)
    (h : readFpgaWordsBinaryByte s m = (b, s', m')) :
    b :: owed mem s' m'.readWord = owed mem s m.readWord ∧ s'.nleft = s.nleft - 1 ∧
      m'.fpga = mem ∧
      m'.log = m.log ++ (pendingLoads s).take (s.nleft.toNat / 4 - s'.nleft.toNat / 4) ∧
      pendingLoads s' = (pendingLoads s).drop (s.nleft.toNat / 4 - s'.nleft.toNat / 4) := by
  obtain ⟨r, hr⟩ : ∃ r : Nat, s.nleft = r + 1 := ⟨(s.nleft - 1).toNat, by omega⟩
  have h1 : s.nleft.toNat = r + 1 := by omega
  have h2 : (s.nleft - 1).toNat = r := by omega
  rw [readFpgaWordsBinaryByte_eq] at h
  split at h <;> obtain ⟨rfl, rfl, rfl⟩ := h
  · rename_i h3
    obtain ⟨q, rfl⟩ : ∃ q, r = 4 * q + 3 := ⟨r / 4, by omega⟩
    simp only [owed, pendingLoads, h1, h2, hm, show (4 * q + 3 + 1) / 4 = q + 1 by omega,
      show (4 * q + 3 + 1) % 4 = 0 by omega, show (4 * q + 3) / 4 = q by omega,
      show (4 * q + 3) % 4 = 3 by omega, wordsAt_succ, wordLoads_succ, Nat.add_sub_cancel_left,
      List.take_succ_cons, List.take_zero, List.drop_succ_cons, List.drop_zero, serialize,
      List.flatMap_cons, Nat.sub_zero, Nat.sub_self, List.drop_length, List.nil_append,
      List.append_assoc, and_self, and_true, true_and]
    rfl
  · rename_i h3
    have hj : ((s.nleft - 1) % 4).toNat = r % 4 := by omega
    simp only [owed, pendingLoads, h1, h2, hj, hm, show (r + 1) / 4 = r / 4 by omega,
      show (r + 1) % 4 = r % 4 + 1 by omega, Nat.sub_self, List.take_zero, List.drop_zero,
      List.append_nil, and_self, and_true, true_and, ← List.cons_append]
    rw [show 4 - (r % 4 + 1) = 3 - r % 4 by omega, beBytes_drop _ _ (by omega)]

/-- A call sends the first `n` bytes owed, or all of them if fewer, and owes the rest; the loads
it makes are the first ones pending. -/
theorem readFpgaWordsBinaryLoop_spec (mem : Nat → UInt32) (n : Nat) {s s' : TapcpState}
    {m m' : Machine} {out : List UInt8} (hm : m.fpga = mem)
    (h : readFpgaWordsBinaryLoop n s m = (out, s', m')) :
    out = (owed mem s m.readWord).take n ∧
      owed mem s' m'.readWord = (owed mem s m.readWord).drop n ∧
      s'.nleft.toNat = s.nleft.toNat - n ∧ m'.fpga = mem ∧
      m'.log = m.log ++ (pendingLoads s).take (s.nleft.toNat / 4 - s'.nleft.toNat / 4) ∧
      pendingLoads s' = (pendingLoads s).drop (s.nleft.toNat / 4 - s'.nleft.toNat / 4) := by
  induction n generalizing s m out with
  | zero =>
    obtain ⟨rfl, rfl, rfl⟩ := h
    simp [hm]
  | succ n ih =>
    simp only [readFpgaWordsBinaryLoop] at h
    split at h
    · rename_i hpos
      rcases hb : readFpgaWordsBinaryByte s m with ⟨b, s₁, m₁⟩
      rcases hl : readFpgaWordsBinaryLoop n s₁ m₁ with ⟨out₁, s₂, m₂⟩
      simp only [hb, hl] at h
      obtain ⟨rfl, rfl, rfl⟩ := h
      obtain ⟨hb, hn, hm₁, hlog₁, hpend₁⟩ := readFpgaWordsBinaryByte_spec mem hm hpos hb
      obtain ⟨hout, howed, hn₂, hm₂, hlog₂, hpend₂⟩ := ih hm₁ hl
      have hle₁ : s₁.nleft.toNat / 4 ≤ s.nleft.toNat / 4 := Nat.div_le_div_right (by omega)
      have hle₂ : s'.nleft.toNat / 4 ≤ s₁.nleft.toNat / 4 :=
        Nat.div_le_div_right (hn₂ ▸ Nat.sub_le _ _)
      refine ⟨?_, ?_, by omega, hm₂, ?_, ?_⟩
      · rw [hout, ← hb, List.take_succ_cons]
      · rw [howed, ← hb, List.drop_succ_cons]
      · rw [hlog₂, hlog₁, hpend₁, List.append_assoc, ← List.take_add,
          Nat.sub_add_sub_cancel hle₁ hle₂]
      · rw [hpend₂, hpend₁, List.drop_drop, Nat.sub_add_sub_cancel hle₁ hle₂]
    · rename_i hpos
      obtain ⟨rfl, rfl, rfl⟩ := h
      have hle : s'.nleft ≤ 0 := by omega
      simp [owed_of_nleft_le_zero mem _ _ hle, hm, Int.toNat_eq_zero.mpr hle]

/-- Any sequence of calls cuts the bytes owed at the request boundaries. -/
theorem runReads_readFpgaWordsBinary (mem : Nat → UInt32) (sizes : List Nat) {s s' : TapcpState}
    {m m' : Machine} {outs : List (List UInt8)} (hm : m.fpga = mem)
    (h : runReads readFpgaWordsBinary sizes s m = (outs, s', m')) :
    outs = splitBy sizes (owed mem s m.readWord) ∧
      owed mem s' m'.readWord = (owed mem s m.readWord).drop sizes.sum ∧
      s'.nleft.toNat = s.nleft.toNat - sizes.sum ∧ m'.fpga = mem ∧
      m'.log = m.log ++ (pendingLoads s).take (s.nleft.toNat / 4 - s'.nleft.toNat / 4) := by
  induction sizes generalizing s m outs with
  | nil =>
    obtain ⟨rfl, rfl, rfl⟩ := h
    simp [splitBy, hm]
  | cons n sizes ih =>
    simp only [runReads, readFpgaWordsBinary] at h
    rcases hl : readFpgaWordsBinaryLoop n s m with ⟨out₁, s₁, m₁⟩
    rcases hr : runReads readFpgaWordsBinary sizes s₁ m₁ with ⟨outs₂, s₂, m₂⟩
    simp only [hl, hr] at h
    obtain ⟨rfl, rfl, rfl⟩ := h
    obtain ⟨hout, howed, hn₁, hm₁, hlog₁, hpend₁⟩ := readFpgaWordsBinaryLoop_spec mem n hm hl
    obtain ⟨houts, howed₂, hn₂, hm₂, hlog₂⟩ := ih hm₁ hr
    refine ⟨?_, ?_, ?_, hm₂, ?_⟩
    · rw [houts, howed, hout, splitBy]
    · rw [howed₂, howed, List.drop_drop, List.sum_cons]
    · rw [hn₂, hn₁, List.sum_cons, Nat.sub_sub]
    · rw [hlog₂, hlog₁, hpend₁, List.append_assoc, ← List.take_add,
        Nat.sub_add_sub_cancel (Nat.div_le_div_right (hn₁ ▸ Nat.sub_le _ _))
          (Nat.div_le_div_right (hn₂ ▸ Nat.sub_le _ _))]

theorem owed_start (mem : Nat → UInt32) (s : TapcpState) (word : UInt32) (p k : Nat) :
    owed mem { s with ptr := p, nleft := 4 * k } word = serialize (wordsAt mem p k) := by
  have h4k : (4 * (k : Int)).toNat = 4 * k := by omega
  simp [owed, h4k]

/-- From a state with `nleft = 4k` at `p`, in any schedule of requests, each call returns the
next bytes of the network-order serialization of the `k` words at `p`, as many as requested or
as remain; the words are loaded once each, in address order, as the bytes reach them. -/
theorem readFpgaWordsBinary_schedule (s : TapcpState) (m : Machine) (p k : Nat)
    (sizes : List Nat) :
    let r := runReads readFpgaWordsBinary sizes { s with ptr := p, nleft := 4 * k } m
    r.1 = splitBy sizes (serialize (wordsAt m.fpga p k)) ∧
      (∀ j < sizes.length,
        (r.1.getD j []).length = min (sizes.getD j 0) (4 * k - (sizes.take j).sum)) ∧
      r.1.flatten = (serialize (wordsAt m.fpga p k)).take sizes.sum ∧
      r.2.2.log = m.log ++ (wordLoads p k).take ((sizes.sum + 3) / 4) := by
  rcases hr : runReads readFpgaWordsBinary sizes { s with ptr := p, nleft := 4 * k } m with ⟨outs, s', m'⟩
  obtain ⟨hout, -, hn, -, hlog⟩ := runReads_readFpgaWordsBinary m.fpga sizes rfl hr
  rw [owed_start] at hout
  have h4k : (4 * (k : Int)).toNat = 4 * k := by omega
  refine ⟨hout, fun j hj => ?_, by rw [hout, flatten_splitBy], ?_⟩
  · rw [hout, length_splitBy _ _ _ hj, length_serialize, length_wordsAt]
  · rw [hlog]
    simp only [pendingLoads, h4k, show 4 * k / 4 = k by omega] at hn ⊢
    congr 1
    apply List.take_eq_take.mpr
    simp only [length_wordLoads]
    omega

theorem mem_wordLoads {p k : Nat} {ev : BusEvent} :
    ev ∈ wordLoads p k ↔ ∃ i < k, ev = .fpgaLoad (p + 4 * i) := by
  simp [wordLoads, eq_comm]

/-- A binary read of FPGA words, in any schedule of requests, accesses only whole words within
`[ptr, ptr + nleft)`. -/
theorem readFpgaWordsBinary_within (sizes : List Nat) (s : TapcpState) (m : Machine) :
    AccessesWithin s.ptr (s.ptr + s.nleft.toNat) m.log
      (runReads readFpgaWordsBinary sizes s m).2.2.log := by
  rcases hr : runReads readFpgaWordsBinary sizes s m with ⟨outs, s', m'⟩
  obtain ⟨-, -, -, -, hlog⟩ := runReads_readFpgaWordsBinary m.fpga sizes rfl hr
  refine ⟨_, hlog, fun ev hev => ?_⟩
  obtain ⟨i, hi, rfl⟩ := mem_wordLoads.mp (List.mem_of_mem_take hev)
  simp only [fpgaWithin, Bool.and_eq_true, decide_eq_true_eq]
  omega

end CasperTapcp

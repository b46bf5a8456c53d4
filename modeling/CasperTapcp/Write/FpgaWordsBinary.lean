import CasperTapcp.Read.FpgaWordsBinary

/-!
# Binary writes of FPGA words

`casper_tapcp_write_fpga_words_binary` shifts each byte it receives into a static word, counts
the bytes in `u32`, and stores the word at `ptr` whenever the count reaches a multiple of four.
A non-negative `nleft` is a budget of bytes: a byte that arrives when it is 0 makes the call
return -1.

The callback keeps nothing in locals across pbufs, so a transfer is one byte loop over the bytes
of all its calls, however the engine cut them into calls and chains
(`runWrites_writeFpgaWordsBinary`). From a state whose count is a multiple of four, four bytes
store their network-order word and advance `ptr` by 4 (`feedBytes_word`); a trailing partial
word is kept in the static word and never stored. So a transfer within its budget stores the
words of its bytes at `q`, `q + 4`, ..., in order and nothing else, and a binary read of the
region afterwards returns the bytes written (`writeFpgaWordsBinary_roundTrip`), and how the
engine cut the bytes makes no difference (`writeFpgaWordsBinary_cut_independent`).

A non-negative `nleft` bounds the stores: `WriteBudget` is kept by every byte, accepted or
refused, so a transfer from `ptr` stores only whole words within `[ptr, ptr + nleft)`, whatever
the cut and also when a byte is refused (`writeFpgaWordsBinary_within`).
-/

set_option autoImplicit false
set_option relaxedAutoImplicit false

namespace CasperTapcp

/-! ### The codec -/

/-- One pass of the byte loop of `casper_tapcp_write_fpga_words_binary`: refused when `nleft` is
0; otherwise the byte is shifted into `word`, counted in `u32`, a full word is stored at `ptr`,
and a positive `nleft` is decremented. -/
def writeFpgaWordsBinaryByte (c : UInt8) :
    TapcpState × Machine → Except (TapcpState × Machine) (TapcpState × Machine)
  | (s, m) =>
    if s.nleft = 0 then .error (s, m)
    else
      let word := (m.writeWord <<< 8) ||| (c.toUInt32 &&& 0xff)
      let m : Machine := { m with writeWord := word }
      let s : TapcpState := { s with u32 := s.u32 + 1 }
      let (s, m) :=
        if s.u32 &&& 3 = 0 then (({ s with ptr := s.ptr + 4 } : TapcpState), m.storeFpga s.ptr word)
        else (s, m)
      .ok ({ s with nleft := if s.nleft > 0 then s.nleft - 1 else s.nleft }, m)

/-- `casper_tapcp_write_fpga_words_binary(state, pbuf)`: -1 when a byte is refused, otherwise
`tot_len`, which the function never moves from 0. -/
def writeFpgaWordsBinary (s : TapcpState) (m : Machine) (chain : Chain) :
    Int × TapcpState × Machine :=
  match pbufLoop writeFpgaWordsBinaryByte chain (s, m) with
  | .ok (s, m) => (0, s, m)
  | .error (s, m) => (-1, s, m)

/-! ### What a transfer stores -/

/-- The network-order words of a byte string, four bytes each; a trailing partial word is
dropped. -/
def wordsOf : List UInt8 → List UInt32
  | b₀ :: b₁ :: b₂ :: b₃ :: rest => beValue b₀ b₁ b₂ b₃ :: wordsOf rest
  | _ => []

/-- The stores of the words `ws` at `q`, `q + 4`, ..., in order. -/
def wordStores (q : Nat) : List UInt32 → List BusEvent
  | [] => []
  | w :: ws => .fpgaStore q w :: wordStores (q + 4) ws

/-- The FPGA memory after the stores of `ws` at `q`, `q + 4`, .... -/
def storeWords : (Nat → UInt32) → Nat → List UInt32 → Nat → UInt32
  | mem, _, [] => mem
  | mem, q, w :: ws => storeWords (Function.update mem q w) (q + 4) ws

theorem storeWords_append (mem : Nat → UInt32) (q : Nat) (xs ys : List UInt32) :
    storeWords mem q (xs ++ ys) = storeWords (storeWords mem q xs) (q + 4 * xs.length) ys := by
  induction xs generalizing mem q with
  | nil => rfl
  | cons x xs ih =>
    rw [List.cons_append, storeWords, storeWords, ih, List.length_cons,
      show q + 4 + 4 * xs.length = q + 4 * (xs.length + 1) by ring]

theorem wordStores_append (q : Nat) (xs ys : List UInt32) :
    wordStores q (xs ++ ys) = wordStores q xs ++ wordStores (q + 4 * xs.length) ys := by
  induction xs generalizing q with
  | nil => rfl
  | cons x xs ih =>
    rw [List.cons_append, wordStores, wordStores, ih, List.length_cons, List.cons_append,
      show q + 4 + 4 * xs.length = q + 4 * (xs.length + 1) by ring]

theorem storeWords_of_lt (mem : Nat → UInt32) (q : Nat) (ws : List UInt32) {a : Nat} (ha : a < q) :
    storeWords mem q ws a = mem a := by
  induction ws generalizing mem q with
  | nil => rfl
  | cons w ws ih =>
    rw [storeWords, ih _ _ (by omega), Function.update_noteq (by omega)]

/-- The stored words read back in place. -/
theorem wordsAt_storeWords (mem : Nat → UInt32) (q : Nat) (ws : List UInt32) :
    wordsAt (storeWords mem q ws) q ws.length = ws := by
  induction ws generalizing mem q with
  | nil => rfl
  | cons w ws ih =>
    rw [List.length_cons, wordsAt_succ, storeWords, storeWords_of_lt _ _ _ (by omega), ih,
      Function.update_same]

/-- The strings `wordsOf` takes no word from are those shorter than a word. -/
theorem length_lt_four {B : List UInt8}
    (hne : ∀ b₀ b₁ b₂ b₃ rest, B = b₀ :: b₁ :: b₂ :: b₃ :: rest → False) : B.length < 4 :=
  match B, hne with
  | [], _ | [_], _ | [_, _], _ | [_, _, _], _ => by simp
  | _ :: _ :: _ :: _ :: _, hne => absurd rfl (hne _ _ _ _ _)

/-- A byte string of whole words is the serialization of its words. -/
theorem serialize_wordsOf (B : List UInt8) (hB : B.length % 4 = 0) : serialize (wordsOf B) = B := by
  induction B using wordsOf.induct with
  | case1 b₀ b₁ b₂ b₃ rest ih =>
    simp only [wordsOf, serialize, List.flatMap_cons, beBytes_beValue] at ih ⊢
    rw [ih (by simp at hB; omega)]
    rfl
  | case2 B hne =>
    have := length_lt_four hne
    rw [List.eq_nil_of_length_eq_zero (by omega : B.length = 0)]
    rfl

@[simp] theorem length_wordsOf (B : List UInt8) : (wordsOf B).length = B.length / 4 := by
  induction B using wordsOf.induct with
  | case1 b₀ b₁ b₂ b₃ rest ih => simp only [wordsOf, List.length_cons, ih]; omega
  | case2 B hne =>
    have := length_lt_four hne
    rw [wordsOf.eq_2 B hne, List.length_nil]
    omega

/-- The words of a prefix of a serialization: the words it holds whole. -/
theorem wordsOf_take_serialize : ∀ (ws : List UInt32) (n : Nat),
    wordsOf ((serialize ws).take n) = ws.take (n / 4)
  | [], n => by simp [serialize, wordsOf]
  | w :: ws, n => by
    rcases Nat.lt_or_ge n 4 with h | h
    · -- fewer than four bytes make no word
      rw [Nat.div_eq_of_lt h, List.take_zero]
      refine List.eq_nil_of_length_eq_zero ?_
      have := List.length_take_le n (serialize (w :: ws))
      rw [length_wordsOf]
      omega
    · obtain ⟨n, rfl⟩ : ∃ n', n = n' + 4 := ⟨n - 4, by omega⟩
      have hsplit : (serialize (w :: ws)).take (n + 4) = beBytes w ++ (serialize ws).take n := by
        rw [serialize, List.flatMap_cons, ← serialize, List.take_append_eq_append_take,
          List.take_of_length_le (by simp), length_beBytes, Nat.add_sub_cancel]
      rw [hsplit, beBytes, List.cons_append, List.cons_append, List.cons_append, List.cons_append,
        List.nil_append, wordsOf, beValue_beBytes, wordsOf_take_serialize ws n,
        show (n + 4) / 4 = n / 4 + 1 by omega, List.take_succ_cons]

/-! ### One byte, one word -/

theorem toNat_shiftIn (w : UInt32) (c : UInt8) :
    ((w <<< 8) ||| (c.toUInt32 &&& 0xff)).toNat = (w.toNat * 256 + c.toNat) % 2 ^ 32 := by
  have hc := c.toNat_lt_size
  simp only [UInt8.size] at hc
  rw [toNat_u32_or_low 8 _ _ (by rw [toNat_u32_shiftLeft, show (8 : UInt32).toNat % 32 = 8 from rfl]; omega)
    (by rw [toNat_u32_and_255]; omega), toNat_u32_shiftLeft, toNat_u32_and_255, toNat_u8_toUInt32]
  simp only [show (8 : UInt32).toNat % 32 = 8 from rfl]
  omega

/-- One pass of the loop, with the shifted word and the count as arithmetic. -/
theorem writeFpgaWordsBinaryByte_eq (c : UInt8) (s : TapcpState) (m : Machine) :
    writeFpgaWordsBinaryByte c (s, m) =
      if s.nleft = 0 then .error (s, m)
      else
        let word := UInt32.ofNat (m.writeWord.toNat * 256 + c.toNat)
        let n := if 0 < s.nleft then s.nleft - 1 else s.nleft
        if (s.u32.toNat + 1) % 4 = 0 then
          .ok ({ s with u32 := s.u32 + 1, ptr := s.ptr + 4, nleft := n },
            ({ m with writeWord := word } : Machine).storeFpga s.ptr word)
        else .ok ({ s with u32 := s.u32 + 1, nleft := n }, { m with writeWord := word }) := by
  have hword : (m.writeWord <<< 8) ||| (c.toUInt32 &&& 0xff) =
      UInt32.ofNat (m.writeWord.toNat * 256 + c.toNat) := by
    rw [u32_eq_iff_toNat, toNat_shiftIn, toNat_u32_ofNat]
  have hcount : (s.u32 + 1) &&& 3 = 0 ↔ (s.u32.toNat + 1) % 4 = 0 := by
    rw [u32_eq_iff_toNat, toNat_u32_and_3, toNat_u32_add]
    simp only [show (1 : UInt32).toNat = 1 from rfl, show (0 : UInt32).toNat = 0 from rfl]
    omega
  simp only [writeFpgaWordsBinaryByte, hword, hcount, gt_iff_lt]
  split_ifs <;> rfl

/-- From a count that is a multiple of four and with room for four bytes, four bytes store their
word at `ptr` and advance it by 4. -/
theorem feedBytes_word (b₀ b₁ b₂ b₃ : UInt8) (s : TapcpState) (m : Machine)
    (hu : s.u32.toNat % 4 = 0) (hn : s.nleft < 0 ∨ 4 ≤ s.nleft) :
    ∃ s' : TapcpState, ∃ m' : Machine,
      feedBytes writeFpgaWordsBinaryByte [b₀, b₁, b₂, b₃] (s, m) = .ok (s', m') ∧
      s'.ptr = s.ptr + 4 ∧ s'.u32.toNat % 4 = 0 ∧
      s'.nleft = (if s.nleft < 0 then s.nleft else s.nleft - 4) ∧
      m'.fpga = Function.update m.fpga s.ptr (beValue b₀ b₁ b₂ b₃) ∧
      m'.log = m.log ++ [.fpgaStore s.ptr (beValue b₀ b₁ b₂ b₃)] := by
  have hv : UInt32.ofNat ((UInt32.ofNat ((UInt32.ofNat ((UInt32.ofNat (m.writeWord.toNat * 256 +
      b₀.toNat)).toNat * 256 + b₁.toNat)).toNat * 256 + b₂.toNat)).toNat * 256 + b₃.toNat) =
      beValue b₀ b₁ b₂ b₃ := by
    simp only [u32_eq_iff_toNat, toNat_u32_ofNat, beValue]
    omega
  have h1 : (1 : UInt32).toNat = 1 := rfl
  have hc₁ : (s.u32.toNat + 1) % 4 ≠ 0 := by omega
  have hc₂ : ((s.u32.toNat + 1) % 2 ^ 32 + 1) % 4 ≠ 0 := by omega
  have hc₃ : (((s.u32.toNat + 1) % 2 ^ 32 + 1) % 2 ^ 32 + 1) % 4 ≠ 0 := by omega
  have hc₄ : ((((s.u32.toNat + 1) % 2 ^ 32 + 1) % 2 ^ 32 + 1) % 2 ^ 32 + 1) % 4 = 0 := by omega
  have hu₄ : (s.u32 + 1 + 1 + 1 + 1).toNat % 4 = 0 := by simp only [toNat_u32_add, h1]; omega
  rcases hn with hn | hn
  · simp only [feedBytes, writeFpgaWordsBinaryByte_eq, toNat_u32_add, h1, hv, hc₁, hc₂, hc₃, hc₄,
      show s.nleft ≠ 0 by omega, show ¬ 0 < s.nleft by omega, if_false, if_true, hn]
    exact ⟨_, _, rfl, rfl, hu₄, rfl, rfl, rfl⟩
  · simp only [feedBytes, writeFpgaWordsBinaryByte_eq, toNat_u32_add, h1, hv, hc₁, hc₂, hc₃, hc₄,
      show s.nleft ≠ 0 by omega, show 0 < s.nleft by omega, show s.nleft - 1 ≠ 0 by omega,
      show 0 < s.nleft - 1 by omega, show s.nleft - 1 - 1 ≠ 0 by omega,
      show 0 < s.nleft - 1 - 1 by omega, show s.nleft - 1 - 1 - 1 ≠ 0 by omega,
      show 0 < s.nleft - 1 - 1 - 1 by omega, show ¬ s.nleft < 0 by omega, if_false, if_true]
    exact ⟨_, _, rfl, rfl, hu₄, show s.nleft - 1 - 1 - 1 - 1 = s.nleft - 4 by omega, rfl, rfl⟩

/-- Bytes that do not complete the word in progress are accepted within the budget and stored
nowhere. -/
theorem feedBytes_partial (B : List UInt8) (s : TapcpState) (m : Machine)
    (hu : s.u32.toNat % 4 + B.length < 4) (hn : s.nleft < 0 ∨ B.length ≤ s.nleft) :
    ∃ s' : TapcpState, ∃ m' : Machine,
      feedBytes writeFpgaWordsBinaryByte B (s, m) = .ok (s', m') ∧ m'.fpga = m.fpga ∧
        m'.log = m.log := by
  induction B generalizing s m with
  | nil => exact ⟨s, m, rfl, rfl, rfl⟩
  | cons c B ih =>
    simp only [List.length_cons] at hu hn
    simp only [feedBytes, writeFpgaWordsBinaryByte_eq, show s.nleft ≠ 0 by omega,
      show (s.u32.toNat + 1) % 4 ≠ 0 by omega, if_false]
    refine ih _ _ ?_ ?_
    · simp only [toNat_u32_add, show (1 : UInt32).toNat = 1 from rfl]
      omega
    · dsimp only
      split_ifs <;> omega

/-! ### A whole transfer -/

/-- Within its budget, from a count that is a multiple of four, the byte loop accepts every byte
and stores the words of the bytes at `ptr`, `ptr + 4`, ..., in order, and nothing else. -/
theorem feedBytes_writeFpgaWordsBinaryByte (B : List UInt8) (s : TapcpState) (m : Machine)
    (hu : s.u32.toNat % 4 = 0) (hn : s.nleft < 0 ∨ B.length ≤ s.nleft) :
    ∃ s' : TapcpState, ∃ m' : Machine,
      feedBytes writeFpgaWordsBinaryByte B (s, m) = .ok (s', m') ∧
        m'.fpga = storeWords m.fpga s.ptr (wordsOf B) ∧
        m'.log = m.log ++ wordStores s.ptr (wordsOf B) := by
  induction B using wordsOf.induct generalizing s m with
  | case1 b₀ b₁ b₂ b₃ rest ih =>
    simp only [List.length_cons] at hn
    obtain ⟨s₁, m₁, h₁, hp, hu₁, hn₁, hf, hl⟩ := feedBytes_word b₀ b₁ b₂ b₃ s m hu (by omega)
    obtain ⟨s₂, m₂, h₂, hf₂, hl₂⟩ := ih s₁ m₁ hu₁ (by rw [hn₁]; split_ifs <;> omega)
    refine ⟨s₂, m₂, ?_, ?_, ?_⟩
    · rw [show b₀ :: b₁ :: b₂ :: b₃ :: rest = [b₀, b₁, b₂, b₃] ++ rest from rfl, feedBytes_append,
        h₁]
      exact h₂
    · rw [hf₂, hf, hp, wordsOf, storeWords]
    · rw [hl₂, hl, hp, wordsOf, wordStores, List.append_assoc]
      rfl
  | case2 B hne =>
    obtain ⟨s', m', h, hf, hl⟩ := feedBytes_partial B s m (by have := length_lt_four hne; omega) hn
    rw [wordsOf.eq_2 B hne, wordStores, List.append_nil]
    exact ⟨s', m', h, hf, hl⟩

/-- The engine's calls of the binary writer run one byte loop over the bytes of the transfer: the
cut into calls and pbufs makes no difference. -/
theorem runWrites_writeFpgaWordsBinary (calls : List Chain) (s : TapcpState) (m : Machine) :
    runWrites writeFpgaWordsBinary calls s m =
      feedBytes writeFpgaWordsBinaryByte (transferBytes calls) (s, m) := by
  induction calls generalizing s m with
  | nil => rfl
  | cons chain calls ih =>
    simp only [runWrites, writeFpgaWordsBinary, pbufLoop_eq_feedBytes, transferBytes,
      List.flatMap_cons, feedBytes_append]
    cases feedBytes writeFpgaWordsBinaryByte chain.flatten (s, m) with
    | ok sm => simpa using ih sm.1 sm.2
    | error sm => rfl

/-- How the engine cuts a binary write into calls and pbufs makes no difference: two transfers of
the same bytes end in the same state, accepted or refused alike. -/
theorem writeFpgaWordsBinary_cut_independent (calls₁ calls₂ : List Chain) (s : TapcpState)
    (m : Machine) (h : transferBytes calls₁ = transferBytes calls₂) :
    runWrites writeFpgaWordsBinary calls₁ s m = runWrites writeFpgaWordsBinary calls₂ s m := by
  rw [runWrites_writeFpgaWordsBinary, runWrites_writeFpgaWordsBinary, h]

/-- A word sent in one pbuf, and sent in two calls of one and three bytes. -/
theorem writeFpgaWordsBinary_cut_independent_oneWord :
    transferBytes [[[1, 2, 3, 4]]] = transferBytes [[[1]], [[2, 3], [4]]] ∧
    runWrites writeFpgaWordsBinary [[[1, 2, 3, 4]]] (⟨true, true, 0x100, -1, 0, 0⟩ : TapcpState)
        zeroMachine =
      runWrites writeFpgaWordsBinary [[[1]], [[2, 3], [4]]] ⟨true, true, 0x100, -1, 0, 0⟩
        zeroMachine :=
  ⟨rfl, writeFpgaWordsBinary_cut_independent _ _ _ _ rfl⟩

/-- A binary write from `q` within its budget, in any cut into calls and pbufs, is accepted,
stores the network-order words of its bytes at `q`, `q + 4`, ..., in order and nothing else, and a
whole number of words reads back unchanged in any schedule of requests. -/
theorem writeFpgaWordsBinary_roundTrip (s : TapcpState) (m : Machine) (q : Nat)
    (calls : List Chain) (hn : s.nleft < 0 ∨ (transferBytes calls).length ≤ s.nleft) :
    ∃ s' : TapcpState, ∃ m' : Machine,
      runWrites writeFpgaWordsBinary calls { s with ptr := q, u32 := 0 } m = .ok (s', m') ∧
      m'.log = m.log ++ wordStores q (wordsOf (transferBytes calls)) ∧
      m'.fpga = storeWords m.fpga q (wordsOf (transferBytes calls)) ∧
      ∀ (t : TapcpState) (k : Nat) (sizes : List Nat), (transferBytes calls).length = 4 * k →
        (runReads readFpgaWordsBinary sizes { t with ptr := q, nleft := 4 * k } m').1 =
          splitBy sizes (transferBytes calls) := by
  obtain ⟨s', m', h, hf, hl⟩ :=
    feedBytes_writeFpgaWordsBinaryByte (transferBytes calls) { s with ptr := q, u32 := 0 } m rfl hn
  refine ⟨s', m', by rw [runWrites_writeFpgaWordsBinary, h], hl, hf, fun t k sizes hk => ?_⟩
  rcases hr : runReads readFpgaWordsBinary sizes { t with ptr := q, nleft := 4 * k } m' with
    ⟨outs, s'', m''⟩
  obtain ⟨hout, -⟩ := runReads_readFpgaWordsBinary m'.fpga sizes rfl hr
  have hk' : (wordsOf (transferBytes calls)).length = k := by rw [length_wordsOf, hk]; omega
  rw [hout, owed_start, hf, ← hk', wordsAt_storeWords, serialize_wordsOf _ (by omega)]

/-- Two pbufs of one word, written at `0x100` with no bound, read back. -/
theorem writeFpgaWordsBinary_roundTrip_oneWord :
    ((⟨true, true, 0, -1, 0, 0⟩ : TapcpState).nleft < 0 ∨
      ((transferBytes [[[1, 2], [3, 4]]]).length : Int) ≤ (⟨true, true, 0, -1, 0, 0⟩ : TapcpState).nleft) ∧
    ∃ s' : TapcpState, ∃ m' : Machine,
      runWrites writeFpgaWordsBinary [[[1, 2], [3, 4]]]
        { (⟨true, true, 0, -1, 0, 0⟩ : TapcpState) with ptr := 0x100, u32 := 0 } zeroMachine =
        .ok (s', m') ∧
      m'.log = zeroMachine.log ++ wordStores 0x100 (wordsOf (transferBytes [[[1, 2], [3, 4]]])) ∧
      m'.fpga = storeWords zeroMachine.fpga 0x100 (wordsOf (transferBytes [[[1, 2], [3, 4]]])) ∧
      ∀ (t : TapcpState) (k : Nat) (sizes : List Nat),
        (transferBytes [[[1, 2], [3, 4]]]).length = 4 * k →
        (runReads readFpgaWordsBinary sizes { t with ptr := 0x100, nleft := 4 * k } m').1 =
          splitBy sizes (transferBytes [[[1, 2], [3, 4]]]) :=
  ⟨Or.inl (by decide), writeFpgaWordsBinary_roundTrip _ _ 0x100 _ (Or.inl (by decide))⟩

/-! ### Within the budget -/

/-- A write within the budget its opener set: `nleft` is non-negative and, with the `pending`
bytes of the word in progress, reaches from `ptr` to `hi`; `ptr` is at or above `lo`; and every
store since `log₀` is of a whole word within `[lo, hi)`. -/
structure WriteBudget (pending : TapcpState → Nat) (lo hi : Nat) (log₀ : List BusEvent)
    (x : TapcpState × Machine) : Prop where
  nleft_nonneg : 0 ≤ x.1.nleft
  reach : ((x.1.ptr + pending x.1 : Nat) : Int) + x.1.nleft = hi
  lo_le : lo ≤ x.1.ptr
  stores : AccessesWithin lo hi log₀ x.2.log

/-- The bytes of the word in progress of the binary writer. -/
def binaryPending (s : TapcpState) : Nat := s.u32.toNat % 4

section Budget

variable {lo hi : Nat} {log₀ : List BusEvent}

/-- One pass of the loop keeps the binary writer within its budget, whether it accepts the byte
or refuses it: a word is stored only at its fourth byte, which the budget still covers. -/
theorem writeFpgaWordsBinaryByte_budget (c : UInt8) (x : TapcpState × Machine)
    (hx : WriteBudget binaryPending lo hi log₀ x) :
    WriteBudget binaryPending lo hi log₀ (settled (writeFpgaWordsBinaryByte c x)) := by
  obtain ⟨s, m⟩ := x
  obtain ⟨hn, hreach, hlo, hst⟩ := hx
  dsimp only [binaryPending] at hn hreach hlo hst
  have hu : (s.u32 + 1).toNat % 4 = (s.u32.toNat + 1) % 4 := by
    rw [toNat_u32_add, show (1 : UInt32).toNat = 1 from rfl]
    omega
  rw [writeFpgaWordsBinaryByte_eq]
  by_cases h0 : s.nleft = 0
  · rw [if_pos h0]
    exact ⟨hn, hreach, hlo, hst⟩
  have hpos : 0 < s.nleft := lt_of_le_of_ne hn (Ne.symm h0)
  simp only [h0, hpos, if_false, if_true]
  by_cases h4 : (s.u32.toNat + 1) % 4 = 0
  · -- the fourth byte of a word: the word is stored at `ptr`
    rw [if_pos h4]
    refine ⟨by dsimp only [settled]; omega, ?_, by dsimp only [settled]; omega,
      hst.store _ hlo (by push_cast at hreach; omega)⟩
    simp only [settled, binaryPending, hu, h4]
    push_cast at hreach ⊢
    omega
  · rw [if_neg h4]
    refine ⟨by dsimp only [settled]; omega, ?_, hlo, hst⟩
    simp only [settled, binaryPending, hu]
    push_cast at hreach ⊢
    omega

/-- A call keeps the binary writer within its budget. -/
theorem writeFpgaWordsBinary_budget (s : TapcpState) (m : Machine) (chain : Chain)
    (h : WriteBudget binaryPending lo hi log₀ (s, m)) :
    WriteBudget binaryPending lo hi log₀ (writeFpgaWordsBinary s m chain).2 := by
  have hend := feedBytes_settled _ _ writeFpgaWordsBinaryByte_budget chain.flatten (s, m) h
  simp only [writeFpgaWordsBinary, pbufLoop_eq_feedBytes]
  cases hf : feedBytes writeFpgaWordsBinaryByte chain.flatten (s, m) <;> rw [hf] at hend <;>
    exact hend

end Budget

/-- A binary write from a state with `nleft ≥ 0` and no word in progress, in any cut into calls
and pbufs, stores only whole words within `[ptr, ptr + nleft)`, also when it is refused. -/
theorem writeFpgaWordsBinary_within (calls : List Chain) (s : TapcpState) (m : Machine)
    (hn : 0 ≤ s.nleft) (hu : s.u32.toNat % 4 = 0) :
    AccessesWithin s.ptr (s.ptr + s.nleft.toNat) m.log
      (settled (runWrites writeFpgaWordsBinary calls s m)).2.log :=
  (runWrites_settled _ _ (fun _ _ _ => writeFpgaWordsBinary_budget _ _ _) calls s m
    ⟨hn, by simp only [binaryPending, hu]; omega, le_rfl, .refl⟩).stores

end CasperTapcp

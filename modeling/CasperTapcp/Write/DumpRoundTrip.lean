import CasperTapcp.Read.HexDump
import CasperTapcp.Write.LineWriter

/-!
# Writing a hex dump back

A text-mode read of FPGA words produces a hex dump (`hexDump`); this module shows that writing
that text back with the text-mode writer, however the engine cuts it into calls and pbufs, stores
the same words at the destination, in order, and nothing else
(`writeFpgaWordsAscii_dump_roundTrip`).

The proof runs the line writer of `CasperTapcp.Write.LineWriter` over the dump, one line at a
time. The label goes into `line_buf` and is dropped at its colon, the space after the colon is
dropped as leading whitespace, the words go into `line_buf` from its start, and the `'\n'` has
the scan read every word back from its eight digits (`scanLine_dumpWords`) and store it
(`feedBytes_dumpLine`, then `feedBytes_hexDumpFrom` for the whole dump). Every line of a dump is
labelled, so the codec follows the line writer under any cut into calls
(`runWrites_follows`).
-/

set_option autoImplicit false
set_option relaxedAutoImplicit false

namespace CasperTapcp

/-! ### The bytes of a dump -/

theorem dumpWords_byte {ws : List UInt32} {c : UInt8} (hc : c ∈ dumpWords ws) :
    c ≠ lf ∧ c ≠ colon := by
  induction ws with
  | nil => simp at hc
  | cons w ws ih =>
    cases ws with
    | nil =>
      have := hex8_byte (by simpa using hc)
      exact ⟨this.2.2.2, this.2.2.1⟩
    | cons w' ws =>
      rw [dumpWords_cons_cons] at hc
      simp only [List.mem_append, List.mem_singleton] at hc
      rcases hc with (hc | rfl) | hc
      · exact ⟨(hex8_byte hc).2.2.2, (hex8_byte hc).2.2.1⟩
      · decide
      · exact ih hc

theorem length_dumpWords (w : UInt32) (ws : List UInt32) :
    (dumpWords (w :: ws)).length = 9 * ws.length + 8 := by
  induction ws generalizing w with
  | nil => simp
  | cons w' ws ih =>
    rw [dumpWords_cons_cons, List.length_append, List.length_append, ih, length_hex8,
      List.length_singleton, List.length_cons]
    ring

theorem head_dumpWords (w : UInt32) (ws : List UInt32) :
    ∀ c ∈ (dumpWords (w :: ws)).head?, isspace c = false := by
  intro c hc
  cases ws with
  | nil =>
    simp only [dumpWords_singleton] at hc
    exact (hex8_byte (List.mem_of_mem_head? hc)).2.1
  | cons w' ws =>
    rw [dumpWords_cons_cons, List.append_assoc, List.head?_append_of_ne_nil _
      (List.ne_nil_of_length_pos (by simp))] at hc
    exact (hex8_byte (List.mem_of_mem_head? hc)).2.1

/-! ### Storing a line -/

/-- Bytes other than `'\n'` go into the line one after another from `lidx`, when none of them is a
label colon and the first of them is not whitespace at the start of a line. -/
theorem feedBytes_store (xs : List UInt8) :
    ∀ (s : TapcpState) (m : Machine), (∀ c ∈ xs, c ≠ lf ∧ (c ≠ colon ∨ s.u32 ≠ 0)) →
      0 ≤ s.lidx → s.lidx + xs.length ≤ lineBufSize →
      (s.lidx ≠ 0 ∨ ∀ c ∈ xs.head?, isspace c = false) →
      ∃ b : Nat → UInt8,
        feedBytes labelledLineByte xs (s, m) =
          .ok ({ s with lidx := s.lidx + xs.length }, { m with lineBuf := b }) ∧
        (∀ j < s.lidx.toNat, b j = m.lineBuf j) ∧
        ∀ i < xs.length, b (s.lidx.toNat + i) = xs.getD i 0 := by
  induction xs with
  | nil =>
    intro s m _ _ _ _
    exact ⟨m.lineBuf, by simp [feedBytes], fun _ _ => rfl, fun i hi => by simp at hi⟩
  | cons c xs ih =>
    intro s m hxs h0 hroom hsp
    simp only [List.length_cons, Nat.cast_add, Nat.cast_one] at hroom
    have hc := hxs c (List.mem_cons_self c xs)
    rw [feedBytes, labelledLineByte_store ⟨h0, by omega⟩ hc.1 hc.2 (by simpa using hsp)]
    obtain ⟨b, hb, hpre, hpost⟩ := ih { s with lidx := s.lidx + 1 } (m.setLineBuf s.lidx.toNat c)
      (fun c' h => hxs c' (List.mem_cons_of_mem c h)) (by simp only; omega)
      (by simp only; omega) (Or.inl (by simp only; omega))
    have hk : ({ s with lidx := s.lidx + 1 } : TapcpState).lidx.toNat = s.lidx.toNat + 1 := by
      simp only; omega
    refine ⟨b, ?_, fun j hj => ?_, fun i hi => ?_⟩
    · simp only [hb, List.length_cons, Nat.cast_add, Nat.cast_one, add_assoc, add_comm (1 : Int)]
      rfl
    · rw [hpre j (by omega), Machine.setLineBuf_lineBuf, Function.update_noteq (by omega)]
    · cases i with
      | zero =>
        rw [Nat.add_zero, hpre _ (by omega), Machine.setLineBuf_lineBuf, Function.update_same]
        rfl
      | succ i =>
        rw [show s.lidx.toNat + (i + 1) = s.lidx.toNat + 1 + i by omega, ← hk,
          hpost i (by simp at hi; omega)]
        rfl

/-! ### Scanning a line of a dump -/

/-- One word of a dump line: its eight digits are read back into the word, which is stored at
`ptr`, and the scan goes on after them. -/
theorem scanLine_word (buf : Nat → UInt8) (w : UInt32) (p fuel : Nat) (s : TapcpState)
    (m : Machine) (hdig : ∀ j < 8, buf (p + j) = (hex8 w.toNat).getD j 0)
    (hnext : isxdigit (buf (p + 8)) = false) (hn : s.nleft < 0 ∨ 4 ≤ s.nleft) :
    scanLine buf (fuel + 2) p s m = scanLine buf (fuel + 1) (p + 8)
      { s with ptr := s.ptr + 4, nleft := if s.nleft < 0 then s.nleft else s.nleft - 4 }
      (({ m with asciiWord := w } : Machine).storeFpga s.ptr w) := by
  have hp := hex8_byte (c := buf p) (n := w.toNat)
    (by rw [← Nat.add_zero p, hdig 0 (by omega), List.getD_eq_getElem _ _ (by simp)]
        exact List.getElem_mem _)
  have hhex : hexToU32 buf p m.asciiWord = (p + 8, w) := by
    rw [hexToU32_hex8 buf p w.toNat m.asciiWord hdig, u32_ofNat_toNat]
  have hnl : (if s.nleft > 0 then s.nleft - 4 else s.nleft) =
      if s.nleft < 0 then s.nleft else s.nleft - 4 := by
    split_ifs <;> omega
  have hroom : ¬ (0 ≤ s.nleft ∧ s.nleft < 4) := by omega
  simp only [scanLine, scanWords, ne_eq, hp.2.2.2, not_false_eq_true, if_true, hp.2.1, hp.1,
    Bool.not_true, if_false, hroom, hhex, hnext, Bool.false_eq_true, hnl]

/-- The scan of the words of a dump line, from its first digit to its `'\n'`, stores the words
at `ptr`, `ptr + 4`, ..., in order. -/
theorem scanLine_dumpWords (buf : Nat → UInt8) (w : UInt32) (ws : List UInt32) :
    ∀ (p fuel : Nat) (s : TapcpState) (m : Machine),
      (∀ i < (dumpWords (w :: ws)).length, buf (p + i) = (dumpWords (w :: ws)).getD i 0) →
      buf (p + (dumpWords (w :: ws)).length) = lf → 2 * (ws.length + 1) ≤ fuel →
      (s.nleft < 0 ∨ 4 * (ws.length + 1) ≤ s.nleft) →
      ∃ m' : Machine, scanLine buf fuel p s m = .ok ({ s with
          ptr := s.ptr + 4 * (ws.length + 1),
          nleft := if s.nleft < 0 then s.nleft else s.nleft - 4 * (ws.length + 1) }, m',
          p + (dumpWords (w :: ws)).length) ∧
        m'.fpga = storeWords m.fpga s.ptr (w :: ws) ∧
        m'.log = m.log ++ wordStores s.ptr (w :: ws) := by
  induction ws generalizing w with
  | nil =>
    intro p fuel s m hbuf hlf hfuel hn
    obtain ⟨fuel, rfl⟩ : ∃ f, fuel = f + 2 := ⟨fuel - 2, by simp at hfuel; omega⟩
    simp only [dumpWords_singleton, length_hex8] at hbuf hlf
    rw [scanLine_word buf w p fuel s m (fun j hj => hbuf j hj) (by rw [hlf]; rfl) (by simpa using hn)]
    refine ⟨_, by simp only [scanLine, hlf, ne_eq, not_true_eq_false, if_false]; rfl, rfl, rfl⟩
  | cons w' ws ih =>
    intro p fuel s m hbuf hlf hfuel hn
    obtain ⟨fuel, rfl⟩ : ∃ f, fuel = f + 2 := ⟨fuel - 2, by simp at hfuel; omega⟩
    have hlen := length_dumpWords w' ws
    rw [dumpWords_cons_cons] at hbuf hlf
    simp only [List.length_append, length_hex8, List.length_singleton] at hbuf hlf
    have hsp : buf (p + 8) = space := by
      rw [hbuf 8 (by omega), List.getD_append _ _ _ _ (by simp), List.getD_append_right _ _ _ _
        (by simp)]
      rfl
    rw [scanLine_word buf w p fuel s m
      (fun j hj => by rw [hbuf j (by omega), List.getD_append _ _ _ _ (by simp; omega),
        List.getD_append _ _ _ _ (by simp; omega)]) (by rw [hsp]; rfl) (by simp at hn; omega)]
    simp only [scanLine, hsp, ne_eq, show space ≠ lf by decide, not_false_eq_true, if_true,
      show isspace space = true by decide]
    obtain ⟨m', hscan, hf, hl⟩ := ih w' (p + 8 + 1) fuel
      { s with ptr := s.ptr + 4, nleft := if s.nleft < 0 then s.nleft else s.nleft - 4 }
      (({ m with asciiWord := w } : Machine).storeFpga s.ptr w)
      (fun i hi => by
        rw [show p + 8 + 1 + i = p + (8 + 1 + i) by omega, hbuf _ (by omega),
          List.getD_append_right _ _ _ _ (by simp)]
        simp only [List.length_append, length_hex8, List.length_singleton]
        congr 1; omega)
      (by rw [← hlf]; congr 1; omega) (by simp at hfuel; omega) (by simp at hn ⊢; split_ifs <;> omega)
    refine ⟨m', ?_, by rw [hf]; rfl, by rw [hl]; simp [wordStores]⟩
    rw [hscan, length_dumpWords w (w' :: ws), hlen]
    simp only [Except.ok.injEq, Prod.mk.injEq, TapcpState.mk.injEq, List.length_cons, true_and,
      and_true]
    simp only [List.length_cons, Nat.cast_add, Nat.cast_one] at hn
    refine ⟨⟨by ring, ?_⟩, by omega⟩
    split_ifs <;> omega

/-! ### A line, then the whole dump -/

/-- One line of a dump, from the start of a line: the label is dropped at its colon, the words go
into `line_buf` from its start, and the `'\n'` has them stored at `ptr`, `ptr + 4`, .... -/
theorem feedBytes_dumpLine (L : Nat) (w : UInt32) (ws : List UInt32) (hws : ws.length ≤ 3)
    (s : TapcpState) (m : Machine) (hl : s.lidx = 0) (hu : s.u32 = 0)
    (hn : s.nleft < 0 ∨ 4 * (ws.length + 1) ≤ s.nleft) :
    ∃ m' : Machine, feedBytes labelledLineByte (dumpLine L (w :: ws)) (s, m) =
        .ok ({ s with
          ptr := s.ptr + 4 * (ws.length + 1),
          nleft := if s.nleft < 0 then s.nleft else s.nleft - 4 * (ws.length + 1) }, m') ∧
      m'.fpga = storeWords m.fpga s.ptr (w :: ws) ∧
      m'.log = m.log ++ wordStores s.ptr (w :: ws) := by
  have hD := length_dumpWords w ws
  set k := (dumpWords (w :: ws)).length with hk
  -- the label goes into `line_buf` and is dropped at the colon; the space after it is skipped
  obtain ⟨b₁, h₁, -, -⟩ := feedBytes_store (hex8 L) s m
    (fun c hc => ⟨(hex8_byte hc).2.2.2, .inl (hex8_byte hc).2.2.1⟩) (by omega)
    (by simp [hl, lineBufSize]) (Or.inr fun c hc => (hex8_byte (List.mem_of_mem_head? hc)).2.1)
  have h₂ : feedBytes labelledLineByte [colon, space]
      ({ s with lidx := s.lidx + (hex8 L).length }, { m with lineBuf := b₁ }) =
      .ok ({ s with lidx := 0, u32 := 1 }, { m with lineBuf := b₁ }) := by
    rw [feedBytes, labelledLineByte_colon (s := { s with lidx := s.lidx + (hex8 L).length })
      ⟨by simp [hl], by simp [hl, lineBufSize]⟩ hu]
    exact labelledLineByte_skip (c := space) (m := { m with lineBuf := b₁ })
      (rfl : ({ s with lidx := 0, u32 := 1 } : TapcpState).lidx = 0) (by decide)
  -- the words go into `line_buf` from its start
  obtain ⟨b₂, h₃, -, hbody⟩ := feedBytes_store (dumpWords (w :: ws)) { s with lidx := 0, u32 := 1 }
    { m with lineBuf := b₁ } (fun c hc => ⟨(dumpWords_byte hc).1, .inl (dumpWords_byte hc).2⟩) le_rfl
    (by simp only [zero_add, lineBufSize]; omega) (Or.inr (head_dumpWords w ws))
  have h₃' : feedBytes labelledLineByte (dumpWords (w :: ws))
      ({ s with lidx := 0, u32 := 1 }, { m with lineBuf := b₁ }) =
      .ok ({ s with lidx := k, u32 := 1 }, { m with lineBuf := b₂ }) := by
    rw [h₃]; simp
  -- the newline: the scan reads the words back and stores them
  have hbuf : ∀ i < k, (({ m with lineBuf := b₂ } : Machine).setLineBuf k lf).lineBuf (0 + i) =
      (dumpWords (w :: ws)).getD i 0 := by
    intro i hi
    simp only [Machine.setLineBuf_lineBuf, Function.update_noteq (by omega : 0 + i ≠ k)]
    exact hbody i hi
  obtain ⟨m', hscan, hf, hlog⟩ := scanLine_dumpWords _ w ws 0 (k + 1)
    { s with lidx := (k : Int) + 1, u32 := 1 } (({ m with lineBuf := b₂ } : Machine).setLineBuf k lf)
    hbuf (by simp) (by omega) (by simpa using hn)
  have h₄ := labelledLineByte_line (s := { s with lidx := k, u32 := 1 })
    (m := { m with lineBuf := b₂ }) k rfl (by simp only [lineBufSize]; omega) (by omega)
    (show (1 : UInt32) ≠ 0 by decide) hscan
  refine ⟨m', ?_, hf, hlog⟩
  rw [dumpLine, feedBytes_append, feedBytes_append, feedBytes_append]
  simp only [h₁, h₂, h₃']
  simp only [feedBytes, h₄, hl, hu]

/-- A dump from the start of a line: every word stored at `ptr`, `ptr + 4`, ..., in order. -/
theorem feedBytes_hexDumpFrom (n : Nat) :
    ∀ (L : Nat) (ws : List UInt32) (s : TapcpState) (m : Machine), ws.length = n →
      s.lidx = 0 → s.u32 = 0 → (s.nleft < 0 ∨ 4 * ws.length ≤ s.nleft) →
      ∃ m' : Machine, feedBytes labelledLineByte (hexDumpFrom L ws) (s, m) =
          .ok ({ s with
            ptr := s.ptr + 4 * ws.length,
            nleft := if s.nleft < 0 then s.nleft else s.nleft - 4 * ws.length }, m') ∧
        m'.fpga = storeWords m.fpga s.ptr ws ∧ m'.log = m.log ++ wordStores s.ptr ws := by
  induction n using Nat.strong_induction_on with
  | _ n ih =>
  intro L ws s m hlen hl hu hn
  rcases ws with _ | ⟨w, ws⟩
  · refine ⟨m, ?_, rfl, by simp [wordStores]⟩
    cases s
    simp [hexDumpFrom_nil, feedBytes]
  · rw [hexDumpFrom_of_ne_nil L (List.cons_ne_nil w ws), feedBytes_append, List.take_succ_cons,
      List.drop_succ_cons]
    simp only [List.length_cons, Nat.cast_add, Nat.cast_one] at hlen hn
    obtain ⟨m₁, h₁, hf₁, hl₁⟩ := feedBytes_dumpLine L w (ws.take 3) (by simp) s m hl hu
      (by simp only [List.length_take]; omega)
    rw [h₁]
    obtain ⟨m₂, h₂, hf₂, hl₂⟩ := ih (ws.drop 3).length (by simp only [List.length_drop]; omega)
      (L + 16) (ws.drop 3) { s with
        ptr := s.ptr + 4 * ((ws.take 3).length + 1),
        nleft := if s.nleft < 0 then s.nleft else s.nleft - 4 * ((ws.take 3).length + 1) }
      m₁ rfl hl hu
      (by simp only [List.length_take, List.length_drop]; split_ifs <;> omega)
    have hsplit : w :: ws = (w :: ws.take 3) ++ ws.drop 3 := by simp
    refine ⟨m₂, ?_, by rw [hf₂, hf₁, hsplit, storeWords_append]; rfl,
      by rw [hl₂, hl₁, hsplit, wordStores_append, List.append_assoc]; rfl⟩
    simp only [h₂]
    simp only [Except.ok.injEq, Prod.mk.injEq, TapcpState.mk.injEq, true_and, and_true,
      List.length_take, List.length_drop, List.length_cons]
    constructor
    · omega
    · split_ifs <;> omega

/-! ### The round trip -/

/-- The text that a text-mode read of `k` FPGA words returns in one call, written back with the
text-mode writer from `q` under a budget of at least `4k` bytes, in any cut into calls and pbufs,
is accepted and stores the `k` words at `q`, `q + 4`, ..., in order, and nothing else. -/
theorem writeFpgaWordsAscii_dump_roundTrip (s₀ s : TapcpState) (m₀ m : Machine)
    (p k q extra : Nat) (calls : List Chain) (hn : s.nleft < 0 ∨ 4 * k ≤ s.nleft)
    (hT : transferBytes calls = (readFpgaWordsAscii
      { s₀ with ptr := p, nleft := 4 * k, lidx := 0, u32 := 0 } m₀
      ((hexDump (wordsAt m₀.fpga p k)).length + extra)).1) :
    ∃ s' : TapcpState, ∃ m' : Machine,
      runWrites writeFpgaWordsAscii calls { s with ptr := q, lidx := 0, u32 := 0 } m =
        .ok (s', m') ∧
      m'.log = m.log ++ wordStores q (wordsAt m₀.fpga p k) ∧
      m'.fpga = storeWords m.fpga q (wordsAt m₀.fpga p k) := by
  have hdump : transferBytes calls = hexDump (wordsAt m₀.fpga p k) := by
    rcases h : readFpgaWordsAscii { s₀ with ptr := p, nleft := 4 * k, lidx := 0, u32 := 0 } m₀
      ((hexDump (wordsAt m₀.fpga p k)).length + extra) with ⟨out, s', m'⟩
    rw [hT, h]
    exact (dumpLoop_fpgaWordsLine k 0 _ _ rfl rfl rfl (by simp [hexDump]) le_rfl h).1
  obtain ⟨m₁, h₁, hf₁, hl₁⟩ := feedBytes_hexDumpFrom _ 0 (wordsAt m₀.fpga p k)
    { s with ptr := q, lidx := 0, u32 := 0 } m rfl rfl rfl (by simpa using hn)
  obtain ⟨m', hrun, hm'⟩ := runWrites_follows calls _ m m _ (Follows.start _ m)
    (by rw [hdump]; exact h₁)
  exact ⟨_, m', hrun, by rw [hm']; exact hl₁, by rw [hm']; exact hf₁⟩

/-- The dump of one word read at 0 and written back at `0x100` in one call with no bound. -/
theorem writeFpgaWordsAscii_dump_roundTrip_oneWord :
    ((writeStart (-1)).nleft < 0 ∨ 4 * 1 ≤ (writeStart (-1)).nleft) ∧
    transferBytes [[(readFpgaWordsAscii
      { dumpStart 0 with ptr := 0, nleft := 4 * 1, lidx := 0, u32 := 0 } zeroMachine
      ((hexDump (wordsAt zeroMachine.fpga 0 1)).length + 0)).1]] =
      (readFpgaWordsAscii
        { dumpStart 0 with ptr := 0, nleft := 4 * 1, lidx := 0, u32 := 0 } zeroMachine
        ((hexDump (wordsAt zeroMachine.fpga 0 1)).length + 0)).1 ∧
    ∃ s' : TapcpState, ∃ m' : Machine,
      runWrites writeFpgaWordsAscii [[(readFpgaWordsAscii
        { dumpStart 0 with ptr := 0, nleft := 4 * 1, lidx := 0, u32 := 0 } zeroMachine
        ((hexDump (wordsAt zeroMachine.fpga 0 1)).length + 0)).1]]
        { writeStart (-1) with ptr := 0x100, lidx := 0, u32 := 0 } zeroMachine = .ok (s', m') ∧
      m'.log = zeroMachine.log ++ wordStores 0x100 (wordsAt zeroMachine.fpga 0 1) ∧
      m'.fpga = storeWords zeroMachine.fpga 0x100 (wordsAt zeroMachine.fpga 0 1) :=
  ⟨Or.inl (by decide), by simp [transferBytes],
    writeFpgaWordsAscii_dump_roundTrip (dumpStart 0) (writeStart (-1)) zeroMachine zeroMachine 0 1
      0x100 0 _ (Or.inl (by decide))
      (by simp [transferBytes])⟩

end CasperTapcp

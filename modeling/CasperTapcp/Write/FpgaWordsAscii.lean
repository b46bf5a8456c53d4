import CasperTapcp.Write.FpgaWordsBinary

/-!
# Text-mode writes of FPGA words

`casper_tapcp_write_fpga_words_ascii` collects a line in `line_buf` and, at its `'\n'`, scans
it for runs of hex digits, storing one word per run of up to eight digits. Leading whitespace of
a line is dropped, and the first `':'` of a line discards what came before it (the label) by
moving the write position `plb` and `lidx` back to the start of `line_buf`.

The write position is a local of the call: it starts as `line_buf + lidx`, moves with `lidx` as
bytes are stored, and is moved back to the start of `line_buf` at a first `':'`, where `lidx` is
cleared too. The scan of a finished line moves it as well, to the byte where the scan stopped,
and nothing moves it back when `lidx` is cleared after the scan. So within one call, a line
without a `':'` is stored after the point where the scan of the previous line stopped, while the
overflow check still looks at `lidx`.

Two consequences follow, each at a concrete transfer. The words stored depend on how the engine
cut the text into calls: `"1\n2\n"` in one call stores `0x1` and `0x12`, one line per call stores
`0x1` and `0x2` (`writeFpgaWordsAscii_lines_merge`). And two lines that each fit in `line_buf`
store a byte past its end without the call failing (`writeFpgaWordsAscii_overflow`).

The drift of `plb` moves bytes within `line_buf`, but not the stores on the bus: a word is stored
only while a non-negative `nleft` covers it, so a transfer stores only within
`[ptr, ptr + nleft)`, whatever the cut and also when refused (`writeFpgaWordsAscii_within`).
-/

set_option autoImplicit false
set_option relaxedAutoImplicit false

namespace CasperTapcp

/-- The state a write callback carries from byte to byte: the transfer state, the machine, and
the local write position `plb`, as an index into `line_buf`. -/
abbrev LineCursor := TapcpState × Machine × Nat

/-! ### Scanning a finished line -/

/-- The inner loop `while(isxdigit(*plb))` of the line scan over `line_buf` (`buf`, which the
scan only reads), with `fuel` bounding its passes: each run of up to eight digits is read by
`hex_to_u32` into `word` and stored at `ptr`; a non-negative `nleft` with room for less than a
word makes the call fail. -/
def scanWords (buf : Nat → UInt8) : (fuel : Nat) → Nat → TapcpState → Machine →
    Except LineCursor LineCursor
  | 0, plb, s, m => .ok (s, m, plb)
  | fuel + 1, plb, s, m =>
    if isxdigit (buf plb) then
      if 0 ≤ s.nleft ∧ s.nleft < 4 then .error (s, m, plb)
      else
        let (plb, word) := hexToU32 buf plb m.asciiWord
        let m := ({ m with asciiWord := word } : Machine).storeFpga s.ptr word
        let s : TapcpState :=
          { s with ptr := s.ptr + 4, nleft := if s.nleft > 0 then s.nleft - 4 else s.nleft }
        scanWords buf fuel plb s m
    else .ok (s, m, plb)

/-- The outer loop `while(*plb != '\n')` of the line scan, with `fuel` bounding its passes:
whitespace is skipped, a byte that is neither whitespace nor a hex digit ends the scan, and a
hex digit starts the word loop. The result carries where `plb` stopped. -/
def scanLine (buf : Nat → UInt8) : (fuel : Nat) → Nat → TapcpState → Machine →
    Except LineCursor LineCursor
  | 0, plb, s, m => .ok (s, m, plb)
  | fuel + 1, plb, s, m =>
    if buf plb ≠ lf then
      if isspace (buf plb) then scanLine buf fuel (plb + 1) s m
      else if !isxdigit (buf plb) then .ok (s, m, plb)
      else
        match scanWords buf (fuel + 1) plb s m with
        | .ok (s, m, plb) => scanLine buf fuel plb s m
        | .error e => .error e
    else .ok (s, m, plb)

/-! ### What the scan reads and writes -/

section Scan

variable {b₁ b₂ : Nat → UInt8} {k : Nat}

/-- On a buffer with a `'\n'` at `k`, the word loop reads nothing past `k` and stops at or
before it. -/
theorem scanWords_congr (hk : b₁ k = lf) (hag : ∀ j ≤ k, b₁ j = b₂ j) :
    ∀ (fuel p : Nat) (s : TapcpState) (m : Machine), p ≤ k →
      scanWords b₁ fuel p s m = scanWords b₂ fuel p s m ∧
        ∀ x, scanWords b₁ fuel p s m = .ok x → x.2.2 ≤ k := by
  intro fuel
  induction fuel with
  | zero => exact fun p s m hp => ⟨rfl, fun x hx => by cases hx; exact hp⟩
  | succ fuel ih =>
    intro p s m hp
    obtain ⟨hhex, hle⟩ := hexToU32_congr hk hag p m.asciiWord hp
    rcases hh : hexToU32 b₁ p m.asciiWord with ⟨p', w⟩
    rw [hh] at hhex hle
    simp only [scanWords, ← hag p hp, ← hhex, hh]
    split
    · split
      · exact ⟨rfl, fun x hx => by cases hx⟩
      · exact ih _ _ _ hle
    · exact ⟨rfl, fun x hx => by cases hx; exact hp⟩

/-- On a buffer with a `'\n'` at `k`, the line scan reads nothing past `k`. -/
theorem scanLine_congr (hk : b₁ k = lf) (hag : ∀ j ≤ k, b₁ j = b₂ j) :
    ∀ (fuel p : Nat) (s : TapcpState) (m : Machine), p ≤ k →
      scanLine b₁ fuel p s m = scanLine b₂ fuel p s m := by
  intro fuel
  induction fuel with
  | zero => exact fun _ _ _ _ => rfl
  | succ fuel ih =>
    intro p s m hp
    obtain ⟨hw, hle⟩ := scanWords_congr hk hag (fuel + 1) p s m hp
    simp only [scanLine, ← hag p hp, ← hw]
    split
    · rename_i hne
      have hpk : p + 1 ≤ k := lt_of_le_of_ne hp (by rintro rfl; exact hne hk)
      split
      · exact ih _ _ _ hpk
      · split
        · rfl
        · rcases h : scanWords b₁ (fuel + 1) p s m with x | x
          · rfl
          · exact ih _ _ _ (hle _ h)
    · rfl

end Scan

/-- A cursor with `line_buf` replaced by `b`. -/
def withLineBuf (b : Nat → UInt8) (x : LineCursor) : LineCursor := (x.1, { x.2.1 with lineBuf := b }, x.2.2)

/-- The word loop never touches `line_buf` in the machine: run from a machine with another
`line_buf`, it ends the same way, accepted or refused, with that `line_buf`. -/
theorem scanWords_lineBuf (buf b : Nat → UInt8) :
    ∀ (fuel p : Nat) (s : TapcpState) (m : Machine) (r : Except LineCursor LineCursor),
      scanWords buf fuel p s m = r →
      scanWords buf fuel p s { m with lineBuf := b } = (r.map (withLineBuf b)).mapError (withLineBuf b) := by
  intro fuel
  induction fuel with
  | zero => intro p s m r h; cases h; rfl
  | succ fuel ih =>
    intro p s m r h
    simp only [scanWords] at h ⊢
    -- each branch either stores a word and goes on, or stops
    split_ifs at h ⊢ <;> first | exact ih _ _ _ _ h | (cases h; rfl)

/-- The line scan never touches `line_buf` in the machine. -/
theorem scanLine_lineBuf (buf b : Nat → UInt8) :
    ∀ (fuel p : Nat) (s : TapcpState) (m : Machine) (r : Except LineCursor LineCursor),
      scanLine buf fuel p s m = r →
      scanLine buf fuel p s { m with lineBuf := b } = (r.map (withLineBuf b)).mapError (withLineBuf b) := by
  intro fuel
  induction fuel with
  | zero => intro p s m r h; cases h; rfl
  | succ fuel ih =>
    intro p s m r h
    simp only [scanLine] at h ⊢
    split_ifs at h ⊢
    · -- whitespace
      exact ih _ _ _ _ h
    · -- neither whitespace nor a digit
      cases h; rfl
    · -- a run of digits
      rcases hw : scanWords buf (fuel + 1) p s m with e | ⟨s₁, m₁, p₁⟩ <;> rw [hw] at h <;>
        rw [scanWords_lineBuf buf b _ _ _ _ _ hw]
      · cases h; rfl
      · exact ih _ _ _ _ h
    · -- the `'\n'`
      cases h; rfl

/-! ### The codec -/

/-- One pass of the byte loop of `casper_tapcp_write_fpga_words_ascii`: fail when `lidx` is
outside `line_buf` (the comparison is unsigned); drop whitespace at the start of a line; at the
first `':'` of a line move `plb` and `lidx` back to the start; otherwise store the byte at `plb`
and, at `'\n'`, scan the line from the start of `line_buf` and clear `lidx` and the colon flag
`u32`. The scan of a line whose `'\n'` is at `plb` ends within `plb + 1` passes. -/
def writeFpgaWordsAsciiByte (c : UInt8) : LineCursor → Except LineCursor LineCursor
  | (s, m, plb) =>
    if ¬ (0 ≤ s.lidx ∧ s.lidx < lineBufSize) then .error (s, m, plb)
    else if s.lidx = 0 ∧ isspace c then .ok (s, m, plb)
    else if c = colon ∧ s.u32 = 0 then .ok ({ s with lidx := 0, u32 := 1 }, m, 0)
    else
      let m := m.setLineBuf plb c
      let s : TapcpState := { s with lidx := s.lidx + 1 }
      if c = lf then
        match scanLine m.lineBuf (plb + 1) 0 s m with
        | .ok (s, m, plb) => .ok ({ s with lidx := 0, u32 := 0 }, m, plb)
        | .error e => .error e
      else .ok (s, m, plb + 1)

/-- `casper_tapcp_write_fpga_words_ascii(state, pbuf)`: `plb` starts at `line_buf + lidx`; -1
when a byte or a line is refused, otherwise `tot_len`, which the function never moves from 0. -/
def writeFpgaWordsAscii (s : TapcpState) (m : Machine) (chain : Chain) :
    Int × TapcpState × Machine :=
  match pbufLoop writeFpgaWordsAsciiByte chain (s, m, s.lidx.toNat) with
  | .ok (s, m, _) => (0, s, m)
  | .error (s, m, _) => (-1, s, m)

/-! ### Two transfers -/

/-- The state the openers set for a text-mode write at address 0 with a budget of `n` bytes. -/
def writeStart (n : Int) : TapcpState := ⟨true, false, 0, n, 0, 0⟩

/-- The same two lines store different words depending on whether they come in one call or in
two: in one call the second line is stored after the `'\n'` of the first, which the scan reads
again from the start of `line_buf`. -/
theorem writeFpgaWordsAscii_lines_merge :
    (runWrites writeFpgaWordsAscii [[[49, 10, 50, 10]]] (writeStart 16) zeroMachine).toOption.map
        (·.2.log) = some [.fpgaStore 0 0x1, .fpgaStore 4 0x12] ∧
    (runWrites writeFpgaWordsAscii [[[49, 10]], [[50, 10]]] (writeStart 16) zeroMachine).toOption.map
        (·.2.log) = some [.fpgaStore 0 0x1, .fpgaStore 4 0x2] := by
  decide

/-- A line of 279 bytes, `'0'`, 277 spaces and `'\n'`, followed in the same call by `"0\n"`: both
fit in `line_buf`, yet the `'\n'` of the second is stored at `line_buf[279]`, past its end, and
the call succeeds. -/
theorem writeFpgaWordsAscii_overflow :
    (runWrites writeFpgaWordsAscii [[[48] ++ List.replicate 277 32 ++ [10, 48, 10]]] (writeStart 16)
        zeroMachine).toOption.map (·.2.lineBuf lineBufSize) = some lf := by
  set_option maxRecDepth 100000 in decide

/-! ### Within the budget -/

/-- The budget of a cursor of the text writer, which keeps no bytes of a word in progress: a
word is stored whole, from a run of digits in a finished line. -/
def AsciiBudget (lo hi : Nat) (log₀ : List BusEvent) (x : LineCursor) : Prop :=
  WriteBudget (fun _ => 0) lo hi log₀ (x.1, x.2.1)

section Budget

variable {lo hi : Nat} {log₀ : List BusEvent}

/-- A step that moves neither `ptr` nor `nleft` and makes no access keeps the budget. -/
theorem AsciiBudget.of_eq {s s' : TapcpState} {m m' : Machine} {p p' : Nat}
    (h : AsciiBudget lo hi log₀ (s, m, p)) (hp : s'.ptr = s.ptr) (hn : s'.nleft = s.nleft)
    (hl : m'.log = m.log) : AsciiBudget lo hi log₀ (s', m', p') :=
  ⟨hn ▸ h.nleft_nonneg, by rw [hp, hn]; exact h.reach, hp ▸ h.lo_le, hl ▸ h.stores⟩

/-- The word loop keeps the budget, whether it ends or fails: it stores a word only when
`nleft` still covers it. -/
theorem scanWords_budget (buf : Nat → UInt8) :
    ∀ (fuel plb : Nat) (s : TapcpState) (m : Machine), AsciiBudget lo hi log₀ (s, m, plb) →
      AsciiBudget lo hi log₀ (settled (scanWords buf fuel plb s m)) := by
  intro fuel
  induction fuel with
  | zero => exact fun _ _ _ h => h
  | succ fuel ih =>
    intro plb s m h
    obtain ⟨hn, hreach, hlo, hst⟩ := h
    dsimp only at hn hreach hlo hst
    simp only [scanWords]
    split
    · split
      · exact ⟨hn, hreach, hlo, hst⟩
      · rename_i hr
        rcases hh : hexToU32 buf plb m.asciiWord with ⟨p', w⟩
        have h4 : 4 ≤ s.nleft := by omega
        apply ih
        refine ⟨by dsimp only; split_ifs <;> omega, ?_, by dsimp only; omega,
          hst.store _ hlo (by push_cast at hreach; omega)⟩
        dsimp only
        push_cast at hreach ⊢
        split_ifs <;> omega
    · exact ⟨hn, hreach, hlo, hst⟩

/-- The line scan keeps the budget, whether it ends or fails. -/
theorem scanLine_budget (buf : Nat → UInt8) :
    ∀ (fuel plb : Nat) (s : TapcpState) (m : Machine), AsciiBudget lo hi log₀ (s, m, plb) →
      AsciiBudget lo hi log₀ (settled (scanLine buf fuel plb s m)) := by
  intro fuel
  induction fuel with
  | zero => exact fun _ _ _ h => h
  | succ fuel ih =>
    intro plb s m h
    simp only [scanLine]
    split
    · split
      · exact ih _ _ _ h
      · split
        · exact h
        · have hw := scanWords_budget buf (fuel + 1) plb s m h
          rcases hsw : scanWords buf (fuel + 1) plb s m with e | ⟨s₁, m₁, p₁⟩ <;> rw [hsw] at hw
          · exact hw
          · exact ih _ _ _ hw
    · exact h

/-- One pass of the byte loop keeps the budget, whether it accepts the byte or refuses it. -/
theorem writeFpgaWordsAsciiByte_budget (c : UInt8) (x : LineCursor)
    (h : AsciiBudget lo hi log₀ x) : AsciiBudget lo hi log₀ (settled (writeFpgaWordsAsciiByte c x)) := by
  obtain ⟨s, m, plb⟩ := x
  simp only [writeFpgaWordsAsciiByte]
  split
  · exact h
  split
  · exact h
  split
  · exact h.of_eq rfl rfl rfl
  have h₁ : AsciiBudget lo hi log₀ ({ s with lidx := s.lidx + 1 }, m.setLineBuf plb c, plb + 1) :=
    h.of_eq rfl rfl rfl
  split
  · have hl := scanLine_budget (m.setLineBuf plb c).lineBuf (plb + 1) 0 { s with lidx := s.lidx + 1 }
      (m.setLineBuf plb c) (h₁.of_eq rfl rfl rfl)
    rcases hsl : scanLine (m.setLineBuf plb c).lineBuf (plb + 1) 0 { s with lidx := s.lidx + 1 }
      (m.setLineBuf plb c) with e | ⟨s₂, m₂, p₂⟩ <;> rw [hsl] at hl
    · exact hl
    · exact hl.of_eq rfl rfl rfl
  · exact h₁

/-- A call keeps the text writer within its budget. -/
theorem writeFpgaWordsAscii_budget (s : TapcpState) (m : Machine) (chain : Chain)
    (h : WriteBudget (fun _ => 0) lo hi log₀ (s, m)) :
    WriteBudget (fun _ => 0) lo hi log₀ (writeFpgaWordsAscii s m chain).2 := by
  have hend := feedBytes_settled (AsciiBudget lo hi log₀) _ writeFpgaWordsAsciiByte_budget
    chain.flatten (s, m, s.lidx.toNat) h
  simp only [writeFpgaWordsAscii, pbufLoop_eq_feedBytes]
  rcases hf : feedBytes writeFpgaWordsAsciiByte chain.flatten (s, m, s.lidx.toNat) with
    ⟨s', m', p'⟩ | ⟨s', m', p'⟩ <;> rw [hf] at hend <;> exact hend

end Budget

/-- A text-mode write from a state with `nleft ≥ 0`, in any cut into calls and pbufs, stores only
whole words within `[ptr, ptr + nleft)`, also when it is refused. -/
theorem writeFpgaWordsAscii_within (calls : List Chain) (s : TapcpState) (m : Machine)
    (hn : 0 ≤ s.nleft) :
    AccessesWithin s.ptr (s.ptr + s.nleft.toNat) m.log
      (settled (runWrites writeFpgaWordsAscii calls s m)).2.log :=
  (runWrites_settled _ _ (fun _ _ _ => writeFpgaWordsAscii_budget _ _ _) calls s m
    ⟨hn, by simp only [Nat.add_zero]; omega, le_rfl, .refl⟩).stores

end CasperTapcp

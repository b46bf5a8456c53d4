import CasperTapcp.Read.MemDump

/-!
# The hex dumps over a whole transfer

`casper_tapcp_read_fpga_words_ascii` and `casper_tapcp_read_mem_bytes_ascii` share one loop,
`while(len < bytes && state->nleft > 0)`: build a line in `line_buf` when `lidx` is 0, then copy
it out until the request is full or its `'\n'` is sent. A line that a request cuts is finished by
the next call, from `lidx`, unless it is the last line: building it used up `nleft`, so the next
call never enters the loop and the rest of that line is never sent.

`LineSource` says what a line builder does for this loop: it writes one line ending in its only
`'\n'`, `out` is the text of the lines still to build and `body` the length of all of them but
the last. `DumpAt` is where a dump stands between calls. One call from there sends the next bytes
of what is left, and leaves the rest after them, unless the call reaches past `body` into the
last line, after which nothing is left (`dumpLoop_dumpAt`). So in any schedule of requests the
calls return the dump up to the end of the first request that reaches into its last line, cut
at the request sizes (`runReads_dumpAt`): for FPGA words (`readFpgaWordsAscii_schedule`) and for
CPU bytes (`readMemBytesAscii_schedule`).
-/

set_option autoImplicit false
set_option relaxedAutoImplicit false

namespace CasperTapcp

/-- The end of the first request of `sizes` that reaches past the first `b` bytes of a transfer,
or the end of the last request when none does. -/
def cutAfter : List Nat → Nat → Nat
  | [], _ => 0
  | n :: sizes, b => if b < n then n else n + cutAfter sizes (b - n)

example : cutAfter [512, 512] 506 = 512 ∧ cutAfter [506, 512] 506 = 1018 := by decide

/-! ### Line builders -/

/-- What a line builder of the dump loop does, for a predicate `Inv` on line starts, the text
`out s m` of the lines still to build from a line start and the length `body s m` of all of them
but the last: with `nleft` used up there is nothing left; otherwise it writes a line ending in
its only `'\n'` at the start of `line_buf`, leaves `lidx` at 0 and keeps `Inv`, and `out` and
`body` go on after that line, `body` only if the line was not the last. -/
structure LineSource (buildLine : TapcpState → Machine → TapcpState × Machine)
    (Inv : TapcpState → Machine → Prop) (out : TapcpState → Machine → List UInt8)
    (body : TapcpState → Machine → Nat) : Prop where
  finished : ∀ s m, Inv s m → ¬ 0 < s.nleft → out s m = [] ∧ body s m = 0
  line : ∀ s m, Inv s m → 0 < s.nleft → s.lidx = 0 → ∃ pre, lf ∉ pre ∧
    (∀ i < pre.length + 1, (buildLine s m).2.lineBuf i = (pre ++ [lf]).getD i 0) ∧
    (buildLine s m).1.lidx = 0 ∧ Inv (buildLine s m).1 (buildLine s m).2 ∧
    out s m = pre ++ [lf] ++ out (buildLine s m).1 (buildLine s m).2 ∧
    body s m = if 0 < (buildLine s m).1.nleft then
      pre.length + 1 + body (buildLine s m).1 (buildLine s m).2 else 0

/-- Where a dump stands between calls, with `rest` still to send and its last line starting `b`
bytes in: at the start of a line; within a line that is not the last, the rest of it in
`line_buf` from `lidx`; or done, with `nleft` used up and nothing more to send. -/
def DumpAt (Inv : TapcpState → Machine → Prop) (out : TapcpState → Machine → List UInt8)
    (body : TapcpState → Machine → Nat) (s : TapcpState) (m : Machine) (rest : List UInt8)
    (b : Nat) : Prop :=
  (s.lidx = 0 ∧ Inv s m ∧ rest = out s m ∧ b = body s m) ∨
    (∃ pre, 0 < s.lidx ∧ 0 < s.nleft ∧ lf ∉ pre ∧
      (∀ i < pre.length + 1, m.lineBuf (s.lidx.toNat + i) = (pre ++ [lf]).getD i 0) ∧
      Inv { s with lidx := 0 } m ∧ rest = pre ++ [lf] ++ out { s with lidx := 0 } m ∧
      b = pre.length + 1 + body { s with lidx := 0 } m) ∨
    (¬ 0 < s.nleft ∧ rest = [] ∧ b = 0)

/-- What a call of the loop, with result `r`, does from where the dump stands with `rest` left
and the last line at `b`: it sends the next `n` bytes, and the dump then stands after them, or is
done if the call reached into the last line. -/
def DumpStep (Inv : TapcpState → Machine → Prop) (out : TapcpState → Machine → List UInt8)
    (body : TapcpState → Machine → Nat) (n : Nat) (rest : List UInt8) (b : Nat)
    (r : List UInt8 × TapcpState × Machine) : Prop :=
  r.1 = rest.take n ∧
    DumpAt Inv out body r.2.1 r.2.2 (if n ≤ b then rest.drop n else []) (if n ≤ b then b - n else 0)

/-- The copy of a line from `lidx` and the rest of the loop after it: the second half of an
iteration of the loop. -/
def copyThen (buildLine : TapcpState → Machine → TapcpState × Machine) (fuel n : Nat)
    (x : TapcpState × Machine) : List UInt8 × TapcpState × Machine :=
  let (out, lidx) := copyLine x.2.lineBuf n x.1.lidx.toNat
  let (rest, s, m) := dumpLoop buildLine fuel (n - out.length) { x.1 with lidx := lidx } x.2
  (out ++ rest, s, m)

theorem dumpLoop_succ (buildLine : TapcpState → Machine → TapcpState × Machine) (fuel n : Nat)
    (s : TapcpState) (m : Machine) :
    dumpLoop buildLine (fuel + 1) n s m =
      if 0 < n ∧ 0 < s.nleft then
        copyThen buildLine fuel n (if s.lidx = 0 then buildLine s m else (s, m))
      else ([], s, m) := by
  simp only [dumpLoop]
  split
  · rcases (if s.lidx = 0 then buildLine s m else (s, m)) with ⟨s₁, m₁⟩
    rfl
  · rfl

theorem dumpLoop_zero_request (buildLine : TapcpState → Machine → TapcpState × Machine)
    (fuel : Nat) (s : TapcpState) (m : Machine) : dumpLoop buildLine fuel 0 s m = ([], s, m) := by
  cases fuel <;> simp [dumpLoop]

/-! ### One call -/

section Loop

variable {buildLine : TapcpState → Machine → TapcpState × Machine}
  {Inv : TapcpState → Machine → Prop} {out : TapcpState → Machine → List UInt8}
  {body : TapcpState → Machine → Nat}

theorem DumpAt.done (src : LineSource buildLine Inv out body) {s : TapcpState} {m : Machine}
    {rest : List UInt8} {b : Nat} (h : DumpAt Inv out body s m rest b) (hn : ¬ 0 < s.nleft) :
    rest = [] ∧ b = 0 := by
  rcases h with ⟨-, hI, rfl, rfl⟩ | ⟨_, -, hpos, -⟩ | ⟨-, hr, hb⟩
  · exact src.finished s m hI hn
  · exact absurd hpos hn
  · exact ⟨hr, hb⟩

/-- A request of nothing sends nothing and leaves the dump where it stands. -/
theorem DumpAt.step_zero {s : TapcpState} {m : Machine} {rest : List UInt8} {b : Nat}
    (h : DumpAt Inv out body s m rest b) : DumpStep Inv out body 0 rest b ([], s, m) := by
  simpa [DumpStep] using h

/-- With `nleft` used up a call sends nothing, and the dump is done. -/
theorem dumpStep_done {s : TapcpState} (m : Machine) (n : Nat) (hn : ¬ 0 < s.nleft) :
    DumpStep Inv out body n [] 0 ([], s, m) := by
  refine ⟨List.take_nil.symm, ?_⟩
  simp only [List.drop_nil, Nat.zero_sub, ite_self]
  exact .inr (.inr ⟨hn, rfl, rfl⟩)

/-- The second half of an iteration, from a line in `line_buf` at `lidx`: the line is sent as far
as the request goes, and the loop goes on. -/
theorem copyThen_dumpStep {fuel n : Nat} (hn : 0 < n) (hfuel : n ≤ fuel + 1)
    (ih : ∀ n s m rest b, DumpAt Inv out body s m rest b → n ≤ fuel →
      DumpStep Inv out body n rest b (dumpLoop buildLine fuel n s m))
    (src : LineSource buildLine Inv out body) {s : TapcpState} {m : Machine} {pre : List UInt8}
    (hlf : lf ∉ pre)
    (hbuf : ∀ i < pre.length + 1, m.lineBuf (s.lidx.toNat + i) = (pre ++ [lf]).getD i 0)
    (hI : Inv { s with lidx := 0 } m) :
    DumpStep Inv out body n (pre ++ [lf] ++ out { s with lidx := 0 } m)
      (if 0 < s.nleft then pre.length + 1 + body { s with lidx := 0 } m else 0)
      (copyThen buildLine fuel n (s, m)) := by
  have hlen : (pre ++ [lf]).length = pre.length + 1 := by simp
  by_cases hfull : pre.length + 1 ≤ n
  · -- the whole line is sent, and the loop goes on from the start of the next
    have hcopy := copyLine_line m.lineBuf pre hlf s.lidx.toNat n hbuf hfull
    have hstep := ih (n - (pre.length + 1)) { s with lidx := 0 } m _ _
      (.inl ⟨rfl, hI, rfl, rfl⟩) (by omega)
    simp only [copyThen, hcopy, hlen, Nat.cast_zero]
    rcases hr : dumpLoop buildLine fuel (n - (pre.length + 1)) { s with lidx := 0 } m
      with ⟨o, s', m'⟩
    rw [hr] at hstep
    obtain ⟨hout, hat⟩ := hstep
    dsimp only at hout hat ⊢
    refine ⟨?_, ?_⟩
    · rw [hout, List.take_append_eq_append_take,
        List.take_of_length_le (show (pre ++ [lf]).length ≤ n by omega), hlen]
    by_cases hpos : 0 < s.nleft
    · -- the line was not the last: what is left is what the loop leaves after it
      have hdrop : (pre ++ [lf] ++ out { s with lidx := 0 } m).drop n =
          (out { s with lidx := 0 } m).drop (n - (pre.length + 1)) := by
        rw [List.drop_append_eq_append_drop,
          List.drop_of_length_le (show (pre ++ [lf]).length ≤ n by omega), hlen, List.nil_append]
      have hiff : n ≤ pre.length + 1 + body { s with lidx := 0 } m ↔
          n - (pre.length + 1) ≤ body { s with lidx := 0 } m := by omega
      simp only [if_pos hpos, hiff, hdrop,
        show pre.length + 1 + body { s with lidx := 0 } m - n =
          body { s with lidx := 0 } m - (n - (pre.length + 1)) by omega]
      exact hat
    · -- the line was the last: nothing is left
      obtain ⟨ho, hb⟩ := src.finished _ _ hI hpos
      simp only [if_neg hpos, if_neg (show ¬ n ≤ 0 by omega)]
      simpa [ho, hb] using hat
  · -- the request ends within the line
    have hn' : n ≤ pre.length := by omega
    have hcopy := copyLine_short m.lineBuf pre hlf s.lidx.toNat n
      (fun i hi => by rw [hbuf i (by omega), List.getD_append _ _ _ _ hi]) hn'
    simp only [copyThen, hcopy, List.length_take, min_eq_left hn', Nat.sub_self,
      dumpLoop_zero_request, List.append_nil]
    refine ⟨by rw [List.append_assoc, List.take_append_of_le_length hn'], ?_⟩
    by_cases hpos : 0 < s.nleft
    · -- a line that is not the last waits in `line_buf` for the next call
      simp only [if_pos hpos, if_pos (show n ≤ pre.length + 1 + body { s with lidx := 0 } m by omega)]
      refine .inr (.inl ⟨pre.drop n, by dsimp only; omega, hpos,
        fun h => hlf (List.mem_of_mem_drop h), fun i hi => ?_, hI, ?_, ?_⟩)
      · have hi' : n + i < pre.length + 1 := by simp at hi; omega
        dsimp only
        rw [Int.toNat_natCast, Nat.add_assoc, hbuf (n + i) hi', List.getD_eq_getElem?_getD,
          List.getD_eq_getElem?_getD, ← List.drop_append_of_le_length hn', List.getElem?_drop]
      · rw [List.append_assoc, List.drop_append_of_le_length hn', List.append_assoc]
      · simp only [List.length_drop]
        omega
    · -- the last line is cut, and the rest of it is never sent
      simp only [if_neg hpos, if_neg (show ¬ n ≤ 0 by omega)]
      exact .inr (.inr ⟨hpos, rfl, rfl⟩)

/-- One call of the loop from where the dump stands sends the next bytes of what is left, and
the dump then stands after them, or is done if the call reached into the last line. -/
theorem dumpLoop_dumpAt (src : LineSource buildLine Inv out body) (fuel : Nat) :
    ∀ n s m rest b, DumpAt Inv out body s m rest b → n ≤ fuel →
      DumpStep Inv out body n rest b (dumpLoop buildLine fuel n s m) := by
  induction fuel with
  | zero =>
    intro n s m rest b h hn
    obtain rfl : n = 0 := by omega
    exact h.step_zero
  | succ fuel ih =>
    intro n s m rest b h hn
    rw [dumpLoop_succ]
    split
    · rename_i hgo
      rcases h with ⟨hl, hI, rfl, rfl⟩ | ⟨pre, hl, hpos, hlf, hbuf, hI, rfl, rfl⟩ | ⟨hpos, -, -⟩
      · -- at a line start a new line is built, and copied
        obtain ⟨pre, hlf, hbuf, hl₁, hI₁, hout, hbody⟩ := src.line s m hI hgo.2 hl
        rw [if_pos hl, hout, hbody]
        rcases hb : buildLine s m with ⟨s₁, m₁⟩
        rw [hb] at hbuf hl₁ hI₁
        have hs₁ : { s₁ with lidx := 0 } = s₁ := by
          cases s₁
          simp only at hl₁ ⊢
          rw [hl₁]
        have hstep := copyThen_dumpStep hgo.1 hn ih src (s := s₁) (m := m₁) hlf
          (fun i hi => by rw [hl₁, Int.toNat_zero, Nat.zero_add]; exact hbuf i hi) (by rwa [hs₁])
        rwa [hs₁] at hstep
      · -- within a line that is not the last, the rest of it is copied
        rw [if_neg (by omega)]
        have hstep := copyThen_dumpStep hgo.1 hn ih src hlf hbuf hI
        rwa [if_pos hpos] at hstep
      · exact absurd hgo.2 hpos
    · rename_i hstop
      rcases Nat.eq_zero_or_pos n with rfl | hn₀
      · exact h.step_zero
      · have hpos : ¬ 0 < s.nleft := fun hp => hstop ⟨hn₀, hp⟩
        obtain ⟨rfl, rfl⟩ := h.done src hpos
        exact dumpStep_done m n hpos

/-- In any schedule of requests, from where the dump stands, the calls return what is left up to
the end of the first request that reaches into its last line, cut at the request sizes. -/
theorem runReads_dumpAt (src : LineSource buildLine Inv out body) (sizes : List Nat) :
    ∀ s m rest b, DumpAt Inv out body s m rest b →
      (runReads (fun s m n => dumpLoop buildLine n n s m) sizes s m).1 =
        splitBy sizes (rest.take (cutAfter sizes b)) := by
  induction sizes with
  | nil => intro s m rest b _; rfl
  | cons n sizes ih =>
    intro s m rest b h
    obtain ⟨hout, hat⟩ := dumpLoop_dumpAt src n n s m rest b h le_rfl
    rcases hr : dumpLoop buildLine n n s m with ⟨o, s', m'⟩
    rw [hr] at hout hat
    dsimp only at hout hat
    simp only [runReads, hr, ih s' m' _ _ hat, splitBy, cutAfter, hout, List.take_take,
      List.drop_take]
    by_cases hnb : n ≤ b
    · -- the call ends before the last line: the rest of the schedule goes on after it
      simp only [if_pos hnb, if_neg (show ¬ b < n by omega), Nat.min_eq_left (Nat.le_add_right _ _),
        Nat.add_sub_cancel_left]
    · -- the call reaches into the last line: nothing more is sent
      simp only [if_neg hnb, if_pos (show b < n by omega), min_self, Nat.sub_self, List.take_zero,
        List.take_nil]

end Loop

/-! ### FPGA words -/

theorem hexDumpFrom_mod (label : Nat) (ws : List UInt32) :
    hexDumpFrom (label % 2 ^ 32) ws = hexDumpFrom label ws := by
  simp only [hexDumpFrom, dumpLine]
  refine List.flatMap_congr fun i _ => ?_
  rw [← hex8_mod (label % 2 ^ 32 + 16 * i), ← hex8_mod (label + 16 * i),
    show (label % 2 ^ 32 + 16 * i) % 2 ^ 32 = (label + 16 * i) % 2 ^ 32 by omega]

/-- The dump of a non-empty run of words is the line of its first `min 4 k` words and the dump of
the words after them. -/
theorem hexDumpFrom_wordsAt (label : Nat) (mem : Nat → UInt32) (p : Nat) {k : Nat} (hk : 0 < k) :
    hexDumpFrom label (wordsAt mem p k) = dumpLine label (wordsAt mem p (min 4 k)) ++
      hexDumpFrom (label + 16) (wordsAt mem (p + 4 * min 4 k) (k - min 4 k)) := by
  rw [hexDumpFrom_of_ne_nil label (by rw [← List.length_pos, length_wordsAt]; exact hk),
    take_wordsAt, drop_wordsAt]
  rcases le_or_lt 4 k with h4 | h4
  · rw [min_eq_left h4]
  · rw [min_eq_right h4.le, Nat.sub_self, show k - 4 = 0 by omega]
    rfl

/-- The FPGA dump still to build from a line start: the words left, labelled from `u32`. -/
def fpgaDumpOut (s : TapcpState) (m : Machine) : List UInt8 :=
  hexDumpFrom s.u32.toNat (wordsAt m.fpga s.ptr (s.nleft.toNat / 4))

/-- The length of the lines of `fpgaDumpOut` before the last: those of the words up to the last
multiple of 4 before the last word. -/
def fpgaDumpBody (s : TapcpState) (m : Machine) : Nat :=
  (hexDumpFrom s.u32.toNat (wordsAt m.fpga s.ptr (4 * ((s.nleft.toNat / 4 - 1) / 4)))).length

/-- The FPGA line builder, from a whole number of words left, writes the next line of the dump. -/
theorem fpgaWordsLine_source :
    LineSource fpgaWordsLine (fun s _ => ∃ r : Nat, s.nleft = 4 * r) fpgaDumpOut fpgaDumpBody where
  finished s m := by
    rintro ⟨r, hn⟩ hpos
    obtain rfl : r = 0 := by omega
    simp [fpgaDumpOut, fpgaDumpBody, hn, wordsAt, hexDumpFrom_nil]
  line s m := by
    rintro ⟨r, hn⟩ hpos hl
    have hr : 0 < r := by omega
    have hq : s.nleft.toNat / 4 = r := by omega
    have hq₁ : (4 * ((r : Int) - ((min 4 r : Nat) : Int))).toNat / 4 = r - min 4 r := by omega
    rcases hb : fpgaWordsLine s m with ⟨s₁, m₁⟩
    obtain ⟨rfl, rfl⟩ := fpgaWordsLine_spec r s.u32.toNat hr hn (u32_ofNat_toNat _).symm hb
    obtain ⟨pre, hpre, hlf⟩ := dumpLine_eq s.u32.toNat (wordsAt m.fpga s.ptr (min 4 r))
    refine ⟨pre, hlf, fun i hi => ?_, hl, ⟨r - min 4 r, by dsimp only; omega⟩, ?_, ?_⟩
    · rw [Machine.writeLine_lineBuf_of_lt _ _ (by simpa [hpre] using hi), hpre]
    · simp only [fpgaDumpOut, hq, hq₁, toNat_u32_ofNat, hexDumpFrom_mod, Machine.writeLine_fpga]
      rw [hexDumpFrom_wordsAt _ _ _ hr, hpre]
    · simp only [fpgaDumpBody, hq, hq₁, toNat_u32_ofNat, hexDumpFrom_mod, Machine.writeLine_fpga]
      split_ifs with hpos₁
      · -- a full line, and more after it
        have h4 : 4 < r := by omega
        rw [min_eq_left h4.le] at hpre ⊢
        rw [hexDumpFrom_wordsAt _ _ _ (show 0 < 4 * ((r - 1) / 4) by omega),
          min_eq_left (show 4 ≤ 4 * ((r - 1) / 4) by omega), hpre,
          show 4 * ((r - 1) / 4) - 4 = 4 * ((r - 4 - 1) / 4) by omega, List.length_append]
        simp
      · -- the last line
        simp [show (r - 1) / 4 = 0 by omega, wordsAt, hexDumpFrom_nil]

/-- The requests of a text-mode read of FPGA words from the state the openers produce. -/
theorem runReads_fpgaWordsLine (s : TapcpState) (m : Machine) (p k : Nat) (sizes : List Nat) :
    (runReads readFpgaWordsAscii sizes { s with ptr := p, nleft := 4 * k, lidx := 0, u32 := 0 } m).1 =
      splitBy sizes ((hexDump (wordsAt m.fpga p k)).take
        (cutAfter sizes (hexDump (wordsAt m.fpga p (4 * ((k - 1) / 4)))).length)) := by
  have hk : (4 * (k : Int)).toNat / 4 = k := by omega
  refine runReads_dumpAt fpgaWordsLine_source sizes _ m _ _ (.inl ⟨rfl, ⟨k, rfl⟩, ?_, ?_⟩)
  · simp only [fpgaDumpOut, hk]
    rfl
  · simp only [fpgaDumpBody, hk]
    rfl

/-- In any schedule of requests, a text-mode read of the `k` FPGA words at `p`, from the state
the openers produce, returns their hex dump up to the end of the first request that reaches past
the lines before the last, cut at the request sizes: a request that ends inside the last line
leaves the rest of it unsent. -/
theorem readFpgaWordsAscii_schedule (s : TapcpState) (m : Machine) (p k : Nat) (sizes : List Nat) :
    (runReads readFpgaWordsAscii sizes { s with ptr := p, nleft := 4 * k, lidx := 0, u32 := 0 } m).1 =
      splitBy sizes ((hexDump (wordsAt m.fpga p k)).take
        (cutAfter sizes (hexDump (wordsAt m.fpga p (4 * ((k - 1) / 4)))).length)) :=
  runReads_fpgaWordsLine s m p k sizes

/-! ### CPU bytes -/

/-- The CPU dump still to send from a line start: the bytes left, labelled from `u32`, as the
reader sends them. -/
def memDumpOut (s : TapcpState) (m : Machine) : List UInt8 :=
  sentDump s.u32.toNat m.cpuByte s.ptr s.nleft.toNat

/-- The length of the lines of `memDumpOut` before the last: those of the bytes up to the last
multiple of 16 before the last byte. -/
def memDumpBody (s : TapcpState) (m : Machine) : Nat :=
  (memDumpFrom s.u32.toNat m.cpuByte s.ptr (16 * ((s.nleft.toNat - 1) / 16))).length

/-- The CPU line builder, over bytes outside `line_buf`, writes the next line of what the reader
sends. -/
theorem memBytesLine_source :
    LineSource memBytesLine (fun s m => m.OutsideLineBuf s.ptr s.nleft.toNat) memDumpOut
      memDumpBody where
  finished s m _ hpos := by
    have hz : s.nleft.toNat = 0 := by omega
    simp [memDumpOut, memDumpBody, hz, sentDump_zero, memDumpFrom_zero]
  line s m hout hpos hl := by
    have hleft : (s.nleft - (min 16 s.nleft.toNat : Nat)).toNat =
        s.nleft.toNat - min 16 s.nleft.toNat := by omega
    have hu : (s.u32 + 16).toNat = (s.u32.toNat + 16) % 2 ^ 32 := by
      rw [toNat_u32_add, show (16 : UInt32).toNat = 16 from rfl]
    have hagree := fun j (hj : j < s.nleft.toNat - min 16 s.nleft.toNat) =>
      cpuByte_after_memBytesLine m (m.log ++ cpuLoads s.ptr (min 16 s.nleft.toNat)) hout
        (Nat.min_le_left _ _) hj
    rw [memBytesLine_eq s m hpos fun j hj => hout j (by omega)]
    refine ⟨memLineHead s.u32 m.cpuByte s.ptr (min 16 s.nleft.toNat), lf_not_mem_memLineHead _ _ _ _,
      fun i hi => Machine.writeLine_lineBuf_of_lt _ _ (by simpa using hi), hl, fun j hj => ?_, ?_, ?_⟩
    · -- the bytes left lie outside `line_buf` still
      dsimp only at hj ⊢
      rw [hleft] at hj
      rw [Nat.add_assoc]
      exact hout (min 16 s.nleft.toNat + j) (by omega)
    · simp only [memDumpOut, hleft, hu, sentDump_mod]
      rw [sentDump_congr _ hagree]
      exact sentDump_of_pos _ _ _ (by omega)
    · simp only [memDumpBody, hleft, hu, memDumpFrom_mod]
      rw [memDumpFrom_congr _ fun j hj => hagree j (by omega)]
      split_ifs with hpos₁
      · -- a full line, and more after it
        have h16 : 16 < s.nleft.toNat := by omega
        rw [min_eq_left h16.le, memDumpFrom_of_pos _ _ _ (show 0 < 16 * ((s.nleft.toNat - 1) / 16) by omega),
          min_eq_left (show 16 ≤ 16 * ((s.nleft.toNat - 1) / 16) by omega),
          show 16 * ((s.nleft.toNat - 1) / 16) - 16 = 16 * ((s.nleft.toNat - 16 - 1) / 16) by omega,
          List.length_append, memDumpLine, memLineHead, lineBytesText_eq _ _ le_rfl]
        simp only [List.length_append, List.length_cons, List.length_nil, length_hex8,
          show ¬(16 = 4 ∨ 16 = 8 ∨ 16 = 12) by decide, if_false, List.length_nil]
        omega
      · -- the last line
        simp [show (s.nleft.toNat - 1) / 16 = 0 by omega, memDumpFrom_zero]

end CasperTapcp

import CasperTapcp.Write.FpgaWordsAscii

/-!
# The text writer as a line writer

What `casper_tapcp_write_fpga_words_ascii` is meant to be: a writer that collects each line at
`line_buf + lidx` and scans it at its `'\n'`, with no state of its own beyond `struct
tapcp_state` and the machine, so that how the engine cuts the text into calls and pbufs cannot
matter. `labelledLineByte` is one byte of it: a pass of the codec's loop with the write position
set to `lidx`. It is stated for labelled text, the format the text-mode readers produce, and
refuses a `'\n'` that would end a line with content before its label colon.

The codec keeps its write position in a local that drifts from `lidx` after the scan of a line,
and is reset to `lidx` only at the next call or at the next label colon. `Follows` relates a
cursor of the codec to a state of the line writer: the same transfer state, machines that differ
at most in `line_buf`, and, once the label colon of the line has been seen, the write position at
`lidx` with the same line so far in both buffers. A byte the line writer accepts keeps the
relation (`follows_step`), and so does the reset of the write position at a call boundary
(`Follows.reset`); a byte it refuses, other than at its guard, the codec refuses in the same
state (`follows_step_error`). So on labelled text the codec, under any cut into calls and pbufs,
ends where the line writer ends on the whole text, with the same FPGA stores, and is refused
where the line writer is refused, unless the line writer stopped at its guard
(`writeFpgaWordsAscii_refines`).

Without labels the drift shows only when a call goes on after a `'\n'`. `lidxLineByte` is the
codec's loop with the write position kept at `lidx`, on any text. A byte other than `'\n'` from
the write position at `lidx` leaves it there (`writeFpgaWordsAsciiByte_atLidx`), so when every
call of a transfer ends at its only `'\n'`, or holds none, the codec ends exactly where
`lidxLineByte` ends on the whole text, accepted or refused alike
(`writeFpgaWordsAscii_line_calls`).
-/

set_option autoImplicit false
set_option relaxedAutoImplicit false

namespace CasperTapcp

/-- One byte of the line writer: the codec's loop with the write position at `lidx`, refusing a
`'\n'` that would end a line with content before its label colon. -/
def labelledLineByte (c : UInt8) (a : TapcpState × Machine) :
    Except (TapcpState × Machine) (TapcpState × Machine) :=
  if c = lf ∧ a.1.u32 = 0 ∧ a.1.lidx ≠ 0 then .error a
  else
    match writeFpgaWordsAsciiByte c (a.1, a.2, a.1.lidx.toNat) with
    | .ok (s, m, _) => .ok (s, m)
    | .error (s, m, _) => .error (s, m)

/-! ### One byte of the line writer -/

section Byte

variable {c : UInt8} {s : TapcpState} {m : Machine}

/-- Whitespace at the start of a line is dropped. -/
theorem labelledLineByte_skip (hl : s.lidx = 0) (hc : isspace c = true) :
    labelledLineByte c (s, m) = .ok (s, m) := by
  simp [labelledLineByte, writeFpgaWordsAsciiByte, hl, hc, lineBufSize]

/-- The first colon of a line moves the line back to the start of `line_buf`. -/
theorem labelledLineByte_colon (hr : 0 ≤ s.lidx ∧ s.lidx < lineBufSize) (hu : s.u32 = 0) :
    labelledLineByte colon (s, m) = .ok ({ s with lidx := 0, u32 := 1 }, m) := by
  simp [labelledLineByte, writeFpgaWordsAsciiByte, hr, hu, show colon ≠ lf by decide,
    show isspace colon = false by decide]

/-- Any other byte but `'\n'` is stored at `lidx`. -/
theorem labelledLineByte_store (hr : 0 ≤ s.lidx ∧ s.lidx < lineBufSize) (hlf : c ≠ lf)
    (hcol : c ≠ colon ∨ s.u32 ≠ 0) (hsp : s.lidx ≠ 0 ∨ isspace c = false) :
    labelledLineByte c (s, m) =
      .ok ({ s with lidx := s.lidx + 1 }, m.setLineBuf s.lidx.toNat c) := by
  have hcol' : ¬ (c = colon ∧ s.u32 = 0) := by tauto
  have hsp' : ¬ (s.lidx = 0 ∧ isspace c = true) := by
    rcases hsp with hsp | hsp <;> simp [hsp]
  simp [labelledLineByte, writeFpgaWordsAsciiByte, hr, hlf, hcol', hsp']

/-- A `'\n'` after the label colon ends the line: it is stored at `lidx` and the line is scanned
from the start of `line_buf`. -/
theorem labelledLineByte_line {s' : TapcpState} {m' : Machine} {p : Nat} (k : Nat)
    (hk : s.lidx = k) (hr : k < lineBufSize) (hl : k ≠ 0) (hu : s.u32 ≠ 0)
    (h : scanLine (m.setLineBuf k lf).lineBuf (k + 1) 0 { s with lidx := k + 1 }
      (m.setLineBuf k lf) = .ok (s', m', p)) :
    labelledLineByte lf (s, m) = .ok ({ s' with lidx := 0, u32 := 0 }, m') := by
  have hcol : ¬ (lf = colon ∧ s.u32 = 0) := fun h => hu h.2
  rw [Machine.setLineBuf_lineBuf] at h
  simp [labelledLineByte, writeFpgaWordsAsciiByte, hk, hr, hl, hu, hcol, h]

end Byte

/-! ### Following the line writer -/

/-- A cursor of the codec follows a state of the line writer: equal transfer states, machines
that differ at most in `line_buf`, and after the label colon of a line the write position at
`lidx` with the same line so far in both buffers. -/
structure Follows (st : LineCursor) (a : TapcpState × Machine) : Prop where
  state : st.1 = a.1
  machine : st.2.1 = { a.2 with lineBuf := st.2.1.lineBuf }
  line : a.1.u32 ≠ 0 →
    st.2.2 = a.1.lidx.toNat ∧ ∀ i < a.1.lidx.toNat, st.2.1.lineBuf i = a.2.lineBuf i

/-- A call boundary moves the write position to `lidx`, which keeps the relation. -/
theorem Follows.reset {s : TapcpState} {m : Machine} {plb : Nat} {a : TapcpState × Machine}
    (hf : Follows (s, m, plb) a) : Follows (s, m, s.lidx.toNat) a :=
  ⟨hf.state, hf.machine, fun hu => ⟨show s.lidx.toNat = _ by rw [show s = a.1 from hf.state],
    (hf.line hu).2⟩⟩

/-- The line writer's start: the codec at the start of a call, on the same machine. -/
theorem Follows.start (s : TapcpState) (m : Machine) : Follows (s, m, s.lidx.toNat) (s, m) :=
  ⟨rfl, rfl, fun _ => ⟨rfl, fun _ _ => rfl⟩⟩

/-- At the `'\n'` that ends a line after its label colon, the codec, whose `line_buf` holds the
same line so far as the line writer's, scans the line as the line writer does and ends the same
way, accepted or refused, on a machine that differs at most in `line_buf`. -/
theorem scanLine_follows {s : TapcpState} {mr ma : Machine} {r : Except LineCursor LineCursor}
    (hm : mr = { ma with lineBuf := mr.lineBuf })
    (hag : ∀ i < s.lidx.toNat, mr.lineBuf i = ma.lineBuf i)
    (hscan : scanLine (ma.setLineBuf s.lidx.toNat lf).lineBuf (s.lidx.toNat + 1) 0
      { s with lidx := s.lidx + 1 } (ma.setLineBuf s.lidx.toNat lf) = r) :
    scanLine (mr.setLineBuf s.lidx.toNat lf).lineBuf (s.lidx.toNat + 1) 0
        { s with lidx := s.lidx + 1 } (mr.setLineBuf s.lidx.toNat lf) =
      (r.map (withLineBuf (mr.setLineBuf s.lidx.toNat lf).lineBuf)).mapError
        (withLineBuf (mr.setLineBuf s.lidx.toNat lf).lineBuf) := by
  have hbuf : ∀ j ≤ s.lidx.toNat, (mr.setLineBuf s.lidx.toNat lf).lineBuf j =
      (ma.setLineBuf s.lidx.toNat lf).lineBuf j := by
    intro j hj
    rcases Nat.lt_or_eq_of_le hj with hj | rfl
    · simp [Function.update_noteq (Nat.ne_of_lt hj), hag j hj]
    · simp
  have hmr : mr.setLineBuf s.lidx.toNat lf = { ma.setLineBuf s.lidx.toNat lf with
      lineBuf := (mr.setLineBuf s.lidx.toNat lf).lineBuf } := by
    rw [hm]; rfl
  rw [scanLine_congr (by simp) hbuf _ _ _ _ (Nat.zero_le _), hmr,
    scanLine_lineBuf _ _ _ _ _ _ _ hscan]

/-- A byte the line writer accepts, the codec accepts too, and the relation holds after it. -/
theorem follows_step {st : LineCursor} {a a' : TapcpState × Machine} (c : UInt8)
    (hf : Follows st a) (h : labelledLineByte c a = .ok a') :
    ∃ st', writeFpgaWordsAsciiByte c st = .ok st' ∧ Follows st' a' := by
  obtain ⟨s, mr, plb⟩ := st
  obtain ⟨sa, ma⟩ := a
  obtain ⟨hs, hm, hline⟩ := hf
  simp only at hs hm hline
  subst hs
  simp only [labelledLineByte] at h
  split_ifs at h with hguard
  simp only [writeFpgaWordsAsciiByte] at h ⊢
  split_ifs at h ⊢ with h0 hsp hcol hlf
  · -- whitespace at the start of a line
    cases h
    exact ⟨_, rfl, ⟨rfl, hm, hline⟩⟩
  · -- the label colon
    cases h
    exact ⟨_, rfl, ⟨rfl, hm, fun _ => ⟨rfl, fun i hi => by simp at hi⟩⟩⟩
  · -- the line is scanned: the guard leaves the colon flag set, so the write position is `lidx`
    have hu : s.u32 ≠ 0 := fun hu => hguard ⟨hlf, hu, fun h0' => hsp ⟨h0', hlf ▸ rfl⟩⟩
    obtain ⟨rfl, hag⟩ := hline hu
    subst hlf
    rcases hscan : scanLine (ma.setLineBuf s.lidx.toNat lf).lineBuf (s.lidx.toNat + 1) 0
        { s with lidx := s.lidx + 1 } (ma.setLineBuf s.lidx.toNat lf) with e | ⟨s₂, m₂, p₂⟩ <;>
      rw [hscan] at h <;> cases h
    rw [scanLine_follows hm hag hscan]
    exact ⟨_, rfl, ⟨rfl, rfl, fun hu => absurd rfl hu⟩⟩
  · -- an ordinary byte is stored at the write position
    cases h
    refine ⟨_, rfl, ⟨rfl, by rw [hm]; rfl, fun hu => ?_⟩⟩
    obtain ⟨rfl, hag⟩ := hline hu
    refine ⟨by simp only; omega, fun i hi => ?_⟩
    simp only [Machine.setLineBuf_lineBuf]
    rcases Nat.lt_or_eq_of_le (show i ≤ s.lidx.toNat by simp only at hi; omega) with hi | rfl
    · rw [Function.update_noteq (Nat.ne_of_lt hi), Function.update_noteq (Nat.ne_of_lt hi), hag i hi]
    · simp

/-- The line writer's guard: a `'\n'` that would end a line with content before its label colon
is refused, and the state is left as it was. -/
theorem labelledLineByte_guard {a : TapcpState × Machine} (hu : a.1.u32 = 0) (hl : a.1.lidx ≠ 0) :
    labelledLineByte lf a = .error a := by
  rw [labelledLineByte, if_pos ⟨rfl, hu, hl⟩]

/-- A byte the line writer refuses other than at its guard, the codec refuses too, in the same
state, on a machine that differs at most in `line_buf`. -/
theorem follows_step_error {st : LineCursor} {a e : TapcpState × Machine} (c : UInt8)
    (hf : Follows st a) (hguard : ¬ (c = lf ∧ a.1.u32 = 0 ∧ a.1.lidx ≠ 0))
    (h : labelledLineByte c a = .error e) :
    ∃ e', writeFpgaWordsAsciiByte c st = .error e' ∧ e'.1 = e.1 ∧
      e'.2.1 = { e.2 with lineBuf := e'.2.1.lineBuf } := by
  obtain ⟨s, mr, plb⟩ := st
  obtain ⟨sa, ma⟩ := a
  obtain ⟨hs, hm, hline⟩ := hf
  simp only at hs hm hline hguard
  subst hs
  simp only [labelledLineByte, if_neg hguard] at h
  simp only [writeFpgaWordsAsciiByte] at h ⊢
  split_ifs at h ⊢ with hr hsp hcol hlf
  · -- the scan of the line refuses a word: the same line, in the same state
    have hu : s.u32 ≠ 0 := fun hu => hguard ⟨hlf, hu, fun h0' => hsp ⟨h0', hlf ▸ rfl⟩⟩
    obtain ⟨rfl, hag⟩ := hline hu
    subst hlf
    rcases hscan : scanLine (ma.setLineBuf s.lidx.toNat lf).lineBuf (s.lidx.toNat + 1) 0
        { s with lidx := s.lidx + 1 } (ma.setLineBuf s.lidx.toNat lf) with e₁ | ⟨s₂, m₂, p₂⟩ <;>
      rw [hscan] at h <;> cases h
    rw [scanLine_follows hm hag hscan]
    exact ⟨_, rfl, rfl, rfl⟩
  · -- `lidx` outside `line_buf`: refused before anything is done
    cases h
    exact ⟨_, rfl, rfl, hm⟩

/-- Bytes the line writer accepts in a row, the codec accepts in one call, keeping the
relation. -/
theorem follows_feedBytes (xs : List UInt8) :
    ∀ {st : LineCursor} {a a' : TapcpState × Machine}, Follows st a →
      feedBytes labelledLineByte xs a = .ok a' →
      ∃ st', feedBytes writeFpgaWordsAsciiByte xs st = .ok st' ∧ Follows st' a' := by
  induction xs with
  | nil => intro st a a' hf h; cases h; exact ⟨st, rfl, hf⟩
  | cons c xs ih =>
    intro st a a' hf h
    simp only [feedBytes] at h
    rcases ha : labelledLineByte c a with a₁ | a₁
    · rw [ha] at h; cases h
    rw [ha] at h
    obtain ⟨st₁, hst₁, hf₁⟩ := follows_step c hf ha
    obtain ⟨st', hst', hf'⟩ := ih hf₁ h
    exact ⟨st', by simp only [feedBytes, hst₁, hst'], hf'⟩

/-- Bytes the line writer refuses, in one call: the codec refuses them too, in the same state and
on a machine that differs at most in `line_buf`, unless the line writer stopped at its guard at
a `'\n'` after the bytes `pre` it accepted. -/
theorem follows_feedBytes_error (xs : List UInt8) :
    ∀ {st : LineCursor} {a e : TapcpState × Machine}, Follows st a →
      feedBytes labelledLineByte xs a = .error e →
      (∃ e', feedBytes writeFpgaWordsAsciiByte xs st = .error e' ∧ e'.1 = e.1 ∧
        e'.2.1 = { e.2 with lineBuf := e'.2.1.lineBuf }) ∨
      ∃ pre rest, xs = pre ++ lf :: rest ∧ feedBytes labelledLineByte pre a = .ok e ∧
        e.1.u32 = 0 ∧ e.1.lidx ≠ 0 := by
  induction xs with
  | nil => intro st a e _ h; cases h
  | cons c xs ih =>
    intro st a e hf h
    simp only [feedBytes] at h
    rcases ha : labelledLineByte c a with e₁ | a₁ <;> rw [ha] at h
    · -- the first byte is refused
      cases h
      by_cases hguard : c = lf ∧ a.1.u32 = 0 ∧ a.1.lidx ≠ 0
      · obtain ⟨rfl, hu, hl⟩ := hguard
        rw [labelledLineByte_guard hu hl] at ha
        cases ha
        exact .inr ⟨[], xs, rfl, rfl, hu, hl⟩
      · obtain ⟨e', hst, h₁, h₂⟩ := follows_step_error c hf hguard ha
        exact .inl ⟨e', by simp only [feedBytes, hst], h₁, h₂⟩
    · -- the first byte is accepted by both, and the rest is refused
      obtain ⟨st₁, hst₁, hf₁⟩ := follows_step c hf ha
      rcases ih hf₁ h with ⟨e', hst', h₁, h₂⟩ | ⟨pre, rest, rfl, hpre, hu, hl⟩
      · exact .inl ⟨e', by simp only [feedBytes, hst₁, hst'], h₁, h₂⟩
      · exact .inr ⟨c :: pre, rest, rfl, by simp only [feedBytes, ha, hpre], hu, hl⟩

/-- From a codec state that follows the line writer at a call boundary, the engine's calls end
where the line writer ends on their bytes, on a machine that differs at most in `line_buf`. -/
theorem runWrites_follows (calls : List Chain) :
    ∀ (s : TapcpState) (m ma : Machine) (a' : TapcpState × Machine),
      Follows (s, m, s.lidx.toNat) (s, ma) →
      feedBytes labelledLineByte (transferBytes calls) (s, ma) = .ok a' →
      ∃ m' : Machine, runWrites writeFpgaWordsAscii calls s m = .ok (a'.1, m') ∧
        m' = { a'.2 with lineBuf := m'.lineBuf } := by
  induction calls with
  | nil =>
    intro s m ma a' hf h
    cases h
    exact ⟨m, rfl, hf.machine⟩
  | cons chain calls ih =>
    intro s m ma a' hf h
    simp only [transferBytes, List.flatMap_cons, feedBytes_append] at h
    rcases ha : feedBytes labelledLineByte chain.flatten (s, ma) with a₁ | ⟨s₁, m₁⟩
    · rw [ha] at h; cases h
    rw [ha] at h
    obtain ⟨⟨s₁', mr₁, plb₁⟩, hst, hf₁⟩ := follows_feedBytes chain.flatten hf ha
    obtain rfl : s₁ = s₁' := hf₁.state.symm
    refine ih s₁ mr₁ m₁ a' hf₁.reset h |>.imp fun m' hm' => ⟨?_, hm'.2⟩
    simp only [runWrites, writeFpgaWordsAscii, pbufLoop_eq_feedBytes, hst]
    exact hm'.1

/-- From a codec state that follows the line writer at a call boundary, where the line writer
refuses a byte of the transfer the engine's calls are refused too, in the same state and on a
machine that differs at most in `line_buf`, unless the line writer stopped at its guard. -/
theorem runWrites_follows_error (calls : List Chain) :
    ∀ (s : TapcpState) (m ma : Machine) (e : TapcpState × Machine),
      Follows (s, m, s.lidx.toNat) (s, ma) →
      feedBytes labelledLineByte (transferBytes calls) (s, ma) = .error e →
      (∃ m' : Machine, runWrites writeFpgaWordsAscii calls s m = .error (e.1, m') ∧
        m' = { e.2 with lineBuf := m'.lineBuf }) ∨
      ∃ pre rest, transferBytes calls = pre ++ lf :: rest ∧
        feedBytes labelledLineByte pre (s, ma) = .ok e ∧ e.1.u32 = 0 ∧ e.1.lidx ≠ 0 := by
  induction calls with
  | nil => intro s m ma e _ h; cases h
  | cons chain calls ih =>
    intro s m ma e hf h
    simp only [transferBytes, List.flatMap_cons, feedBytes_append] at h ⊢
    rcases ha : feedBytes labelledLineByte chain.flatten (s, ma) with e₁ | ⟨s₁, m₁⟩ <;> rw [ha] at h
    · -- this call is refused
      cases h
      rcases follows_feedBytes_error chain.flatten hf ha with
        ⟨⟨s', mr', p'⟩, hst, h₁, h₂⟩ | ⟨pre, rest, hpre, hok, hu, hl⟩
      · refine .inl ⟨mr', ?_, h₂⟩
        simp only at h₁
        simp only [runWrites, writeFpgaWordsAscii, pbufLoop_eq_feedBytes, hst, h₁]
        rfl
      · exact .inr ⟨pre, rest ++ transferBytes calls, by rw [hpre, transferBytes]; simp, hok, hu, hl⟩
    · -- this call is accepted, and a later one is refused
      obtain ⟨⟨s₁', mr₁, plb₁⟩, hst, hf₁⟩ := follows_feedBytes chain.flatten hf ha
      obtain rfl : s₁ = s₁' := hf₁.state.symm
      have hrun : runWrites writeFpgaWordsAscii (chain :: calls) s m =
          runWrites writeFpgaWordsAscii calls s₁ mr₁ := by
        simp only [runWrites, writeFpgaWordsAscii, pbufLoop_eq_feedBytes, hst]
        rfl
      rw [hrun]
      rcases ih s₁ mr₁ m₁ e hf₁.reset h with hcodec | ⟨pre, rest, hpre, hok, hu, hl⟩
      · exact .inl hcodec
      · refine .inr ⟨chain.flatten ++ pre, rest, (congrArg _ hpre).trans (List.append_assoc _ _ _).symm, ?_, hu, hl⟩
        rw [feedBytes_append, ha]
        exact hok

/-- One byte of the codec's loop with the write position at `lidx`: the codec as it would be if
it kept its write position with `lidx` in `struct tapcp_state`. -/
def lidxLineByte (c : UInt8) (a : TapcpState × Machine) :
    Except (TapcpState × Machine) (TapcpState × Machine) :=
  match writeFpgaWordsAsciiByte c (a.1, a.2, a.1.lidx.toNat) with
  | .ok (s, m, _) => .ok (s, m)
  | .error (s, m, _) => .error (s, m)

/-- A cursor of the codec with its write position at `lidx`. -/
def atLidx (a : TapcpState × Machine) : LineCursor := (a.1, a.2, a.1.lidx.toNat)

/-- A cursor of the codec without its write position. -/
def cursorState (x : LineCursor) : TapcpState × Machine := (x.1, x.2.1)

/-- A byte other than `'\n'`, from the write position at `lidx`, leaves it at `lidx`. -/
theorem writeFpgaWordsAsciiByte_atLidx {c : UInt8} (hc : c ≠ lf) (a : TapcpState × Machine) :
    writeFpgaWordsAsciiByte c (atLidx a) = ((lidxLineByte c a).map atLidx).mapError atLidx := by
  obtain ⟨s, m⟩ := a
  simp only [lidxLineByte, atLidx, writeFpgaWordsAsciiByte, hc, if_false]
  -- every branch but a stored byte leaves the write position where `lidx` is
  split_ifs <;> first
    | rfl
    | (show _ = Except.ok (_, _, (s.lidx + 1).toNat)
       rw [show (s.lidx + 1).toNat = s.lidx.toNat + 1 by omega])

/-- Bytes with no `'\n'` before their last do, from the write position at `lidx`, what the loop
with the write position kept at `lidx` does. -/
theorem feedBytes_atLidx (xs : List UInt8) (hxs : lf ∉ xs.dropLast) :
    ∀ a : TapcpState × Machine, ((feedBytes writeFpgaWordsAsciiByte xs (atLidx a)).map
      cursorState).mapError cursorState = feedBytes lidxLineByte xs a := by
  induction xs with
  | nil => intro a; rfl
  | cons c cs ih =>
    intro a
    by_cases hcs : cs = []
    · -- the last byte, `'\n'` or not
      subst hcs
      simp only [feedBytes, lidxLineByte, atLidx]
      rcases writeFpgaWordsAsciiByte c (a.1, a.2, a.1.lidx.toNat) with ⟨s, m, p⟩ | ⟨s, m, p⟩ <;> rfl
    · rw [List.dropLast_cons_of_ne_nil hcs, List.mem_cons, not_or] at hxs
      simp only [feedBytes, writeFpgaWordsAsciiByte_atLidx (Ne.symm hxs.1)]
      rcases lidxLineByte c a with a₁ | a₁
      · rfl
      · exact ih hxs.2 a₁

/-- A call whose bytes hold no `'\n'` before their last does what the loop with the write
position at `lidx` does on them. -/
theorem writeFpgaWordsAscii_atLidx (s : TapcpState) (m : Machine) (chain : Chain)
    (h : lf ∉ chain.flatten.dropLast) :
    writeFpgaWordsAscii s m chain = match feedBytes lidxLineByte chain.flatten (s, m) with
      | .ok a => (0, a)
      | .error a => (-1, a) := by
  rw [writeFpgaWordsAscii, pbufLoop_eq_feedBytes, ← feedBytes_atLidx _ h (s, m),
    show (s, m, s.lidx.toNat) = atLidx (s, m) from rfl]
  rcases feedBytes writeFpgaWordsAsciiByte chain.flatten (atLidx (s, m)) with ⟨s', m', p⟩ | ⟨s', m', p⟩
    <;> rfl

/-- When every call of a text-mode write ends at its only `'\n'`, or holds none, the codec ends
where the loop with the write position kept at `lidx` ends on the whole text, accepted or refused
alike: the drift of the write position after a line never shows. -/
theorem writeFpgaWordsAscii_line_calls (calls : List Chain) (s : TapcpState) (m : Machine)
    (hcalls : ∀ chain ∈ calls, lf ∉ chain.flatten.dropLast) :
    runWrites writeFpgaWordsAscii calls s m = feedBytes lidxLineByte (transferBytes calls) (s, m) :=
  runWrites_feedBytes calls (fun chain hc s m => writeFpgaWordsAscii_atLidx s m chain (hcalls chain hc))
    s m

/-- `"1\n"` and `"2\n"` in two calls end as the loop with the write position at `lidx` ends on
`"1\n2\n"`. -/
theorem writeFpgaWordsAscii_line_calls_twoLines :
    (∀ chain ∈ ([[[49, 10]], [[50, 10]]] : List Chain), lf ∉ chain.flatten.dropLast) ∧
      runWrites writeFpgaWordsAscii [[[49, 10]], [[50, 10]]] (writeStart 16) zeroMachine =
        feedBytes lidxLineByte (transferBytes [[[49, 10]], [[50, 10]]]) (writeStart 16, zeroMachine) :=
  ⟨by decide, writeFpgaWordsAscii_line_calls _ _ _ (by decide)⟩

end CasperTapcp

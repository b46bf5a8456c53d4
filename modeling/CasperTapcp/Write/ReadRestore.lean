import CasperTapcp.Write.TextWords
import CasperTapcp.Read.DumpSchedule

/-!
# Writing back what a text-mode read returned

A text-mode read of FPGA words returns a prefix of their hex dump: in any schedule of requests,
a request that ends inside the last line leaves the rest of it unsent (`runReads_fpgaWordsLine`),
and a transfer can stop at any request. This module follows such a prefix into the text-mode
writer, on the same device or another.

The dump is a text of lines (`textBytes_dumpLines`): each line is a label, `": "` and up to four
words of eight digits, so its body is the words' text and its words are the words
(`textWords_dumpLines`). A prefix of a text of lines is some whole lines and the start of the
next (`take_textBytes`), and the writer stores the words of the whole lines and nothing of the
unfinished one (`runWrites_text_tail`). So a read returns whole lines of the dump and the start
of the next (`readFpgaWordsAscii_lines`), writing such bytes back stores the words of the whole
lines (`runWrites_dumpLines`), and writing back the bytes a read returned, in any cut into calls
and pbufs, stores at the new address the words of the lines the read returned whole, in order,
four per `'\n'`, and nothing else (`writeFpgaWordsAscii_restore`). Words are never
stored at a wrong offset or with a wrong value; a lost last line is lost silently.

Scope. The write starts a fresh transfer: at a line start with the colon flag clear, as the
opener leaves it. Its budget `nleft` is a hypothesis: no limit, or four bytes for every word
read.
-/

set_option autoImplicit false
set_option relaxedAutoImplicit false

namespace CasperTapcp

/-! ### The dump as a text of lines -/

/-- The lines of the hex dump of `ws` labelled from `label`, without their `'\n'`. -/
def dumpLines (label : Nat) (ws : List UInt32) : List (List UInt8) :=
  if h : ws = [] then [] else
    (hex8 label ++ [colon, space] ++ dumpWords (ws.take 4)) :: dumpLines (label + 16) (ws.drop 4)
termination_by ws.length
decreasing_by simp only [List.length_drop]; have := List.length_pos.2 h; omega

theorem textBytes_dumpLines (label : Nat) (ws : List UInt32) :
    textBytes (dumpLines label ws) = hexDumpFrom label ws := by
  induction label, ws using dumpLines.induct with
  | case1 label => rw [dumpLines, dif_pos rfl]; rfl
  | case2 label ws h ih =>
    rw [dumpLines, dif_neg h, textBytes_cons, ih,
      hexDumpFrom_of_ne_nil label h, dumpLine, List.append_assoc]

theorem hex8_ne_nil (n : Nat) : hex8 n ≠ [] := List.ne_nil_of_length_pos (by simp)

theorem take_four_ne_nil {ws : List UInt32} (h : ws ≠ []) : ws.take 4 ≠ [] := by simp [h]

/-- The words of the text of some words of a dump line. -/
theorem lineWords_dumpWords : ∀ ws : List UInt32, lineWords (dumpWords ws) = ws
  | [] => rfl
  | [w] => by
    rw [dumpWords_singleton, lineWords_run _ (fun c hc => (hex8_byte hc).1) (hex8_ne_nil _),
      List.take_of_length_le (by simp), List.drop_of_length_le (by simp), digitsWord_hex8,
      u32_ofNat_toNat]
    rfl
  | w :: w' :: ws => by
    rw [dumpWords_cons_cons, List.append_assoc, lineWords, digitWords_run _
      (fun c hc => by cases hc; decide) _ (fun c hc => (hex8_byte hc).1), List.singleton_append,
      lineWords_space _ (by decide), lineWords_dumpWords (w' :: ws), ← lineWords,
      lineWords_run _ (fun c hc => (hex8_byte hc).1) (hex8_ne_nil _),
      List.take_of_length_le (by simp), List.drop_of_length_le (by simp),
      digitsWord_hex8, u32_ofNat_toNat]
    rfl

/-- What the writer makes of a line of a dump: its label is dropped at its colon, the space after
it is skipped, and the rest is the text of its words. -/
theorem lineBody_dumpLine (L : Nat) (w : UInt32) (ws : List UInt32) :
    lineBody 0 (hex8 L ++ [colon, space] ++ dumpWords (w :: ws)) = dumpWords (w :: ws) := by
  have hcol : colon ∉ hex8 L := fun h => (hex8_byte h).2.2.1 rfl
  have hhead := head_dumpWords w ws
  rw [List.append_assoc, List.cons_append, lineBody, if_pos ⟨rfl, by simp⟩,
    takeWhile_ne_sep _ _ hcol, drop_sep, List.singleton_append,
    List.dropWhile_cons_of_pos (by decide)]
  rcases h : dumpWords (w :: ws) with _ | ⟨c, t⟩
  · rfl
  · rw [h] at hhead
    exact List.dropWhile_cons_of_neg (by simp [hhead c rfl])

/-- Every line of a dump holds a label colon and no `'\n'`, and is at most 45 bytes long. -/
theorem mem_dumpLines {label : Nat} {ws : List UInt32} {l : List UInt8} (hl : l ∈ dumpLines label ws) :
    colon ∈ l ∧ lf ∉ l ∧ l.length ≤ 45 := by
  induction label, ws using dumpLines.induct with
  | case1 label => rw [dumpLines, dif_pos rfl] at hl; cases hl
  | case2 label ws h ih =>
    rw [dumpLines, dif_neg h, List.mem_cons] at hl
    rcases hl with rfl | hl
    · obtain ⟨w, t, ht⟩ := List.exists_cons_of_ne_nil (take_four_ne_nil h)
      have hlen := length_dumpWords w t
      have h4 : (w :: t).length ≤ 4 := ht ▸ List.length_take_le 4 ws
      rw [ht]
      refine ⟨by simp, ?_, by simp only [List.length_append, List.length_cons, length_hex8, hlen,
        List.length_singleton, List.length_nil] at h4 ⊢; omega⟩
      simp only [List.mem_append, not_or]
      exact ⟨⟨lf_not_mem_hex8 label, by decide⟩, lf_not_mem_dumpWords _⟩
    · exact ih hl

/-- The first `n` lines of a dump are a text that fits in `line_buf`, ends with the colon flag
clear, and stores the first `4n` words. -/
theorem textWords_dumpLines (n : Nat) (label : Nat) (ws : List UInt32) :
    TextFits 0 ((dumpLines label ws).take n) ∧ textFlag 0 ((dumpLines label ws).take n) = 0 ∧
      textWords 0 ((dumpLines label ws).take n) = ws.take (4 * n) := by
  induction label, ws using dumpLines.induct generalizing n with
  | case1 label => rw [dumpLines, dif_pos rfl]; simp [TextFits, textFlag, textWords]
  | case2 label ws h ih =>
    obtain ⟨w, t, ht⟩ := List.exists_cons_of_ne_nil (take_four_ne_nil h)
    rcases n with _ | n
    · simp [TextFits, textFlag, textWords]
    have hline := @mem_dumpLines label ws _
      (by rw [dumpLines, dif_neg h]; exact List.mem_cons_self _ _)
    rw [ht] at hline
    rw [dumpLines, dif_neg h, ht]
    have hflag : nextFlag 0 (hex8 label ++ [colon, space] ++ dumpWords (w :: t)) = 0 := by
      rw [nextFlag, lineBody_dumpLine,
        if_neg (List.ne_nil_of_length_pos (by rw [length_dumpWords]; omega))]
    obtain ⟨hfit, hflag', hwords⟩ := ih n
    rw [List.take_succ_cons, TextFits, textFlag, textWords, hflag, lineBody_dumpLine,
      lineWords_dumpWords, hwords, show 4 * (n + 1) = 4 + 4 * n by ring, List.take_add, ht]
    exact ⟨⟨hline.2.1, (length_lineLabel_le _ _).trans_lt (by simp only [lineBufSize]; omega),
      by have := hline.2.2; simp only [List.length_append, lineBufSize] at this ⊢; omega, hfit⟩,
      hflag', rfl⟩

/-! ### A prefix of a text -/

/-- A prefix of a text of lines is some whole lines and the start of the next one, and holds one
`'\n'` per whole line. -/
theorem take_textBytes (lines : List (List UInt8)) (hl : ∀ l ∈ lines, lf ∉ l) (c : Nat) :
    ∃ n tail, (textBytes lines).take c = textBytes (lines.take n) ++ tail ∧
      tail <+: lines.getD n [] ∧ ((textBytes lines).take c).count lf = n := by
  induction lines generalizing c with
  | nil => exact ⟨0, [], by simp, List.nil_prefix, by simp⟩
  | cons l ls ih =>
    have hl₀ : lf ∉ l := hl l (List.mem_cons_self l ls)
    rw [textBytes_cons]
    by_cases hc : c ≤ l.length
    · -- the prefix ends inside the first line
      refine ⟨0, l.take c, ?_, List.take_prefix c l, ?_⟩
      · rw [List.append_assoc, List.take_append_of_le_length hc]; rfl
      · rw [List.append_assoc, List.take_append_of_le_length hc, List.count_eq_zero]
        exact fun h => hl₀ (List.mem_of_mem_take h)
    · -- the first line is whole
      obtain ⟨n, tail, h₁, h₂, h₃⟩ := ih (fun l h => hl l (List.mem_cons_of_mem _ h))
        (c - (l.length + 1))
      have hcl : (l ++ [lf]).take c = l ++ [lf] := List.take_of_length_le (by simp; omega)
      refine ⟨n + 1, tail, ?_, by simpa using h₂, ?_⟩
      · rw [List.take_append_eq_append_take, hcl, List.length_append, List.length_singleton, h₁,
          List.take_succ_cons, textBytes_cons]
        simp only [List.append_assoc]
      · rw [List.take_append_eq_append_take, hcl, List.length_append, List.length_singleton,
          List.count_append, h₃, List.count_append, List.count_eq_zero.2 hl₀]
        simp [Nat.add_comm]

/-! ### Writing back -/

/-- What a text-mode read of the `k` FPGA words at `p` returns in any schedule of requests: the
first `n` lines of their dump, one `'\n'` each, and the start of the next line. -/
theorem readFpgaWordsAscii_lines (s₀ : TapcpState) (m₀ : Machine) (p k : Nat) (sizes : List Nat) :
    ∃ n tail, (runReads readFpgaWordsAscii sizes
        { s₀ with ptr := p, nleft := 4 * k, lidx := 0, u32 := 0 } m₀).1.flatten =
        textBytes ((dumpLines 0 (wordsAt m₀.fpga p k)).take n) ++ tail ∧
      lf ∉ tail ∧ tail.length ≤ 45 ∧
      (runReads readFpgaWordsAscii sizes
        { s₀ with ptr := p, nleft := 4 * k, lidx := 0, u32 := 0 } m₀).1.flatten.count lf = n := by
  -- the read returned a prefix of the dump: whole lines, then the start of the next one
  obtain ⟨c, hc⟩ : ∃ c, (runReads readFpgaWordsAscii sizes
      { s₀ with ptr := p, nleft := 4 * k, lidx := 0, u32 := 0 } m₀).1.flatten =
        (textBytes (dumpLines 0 (wordsAt m₀.fpga p k))).take c :=
    ⟨_, by rw [runReads_fpgaWordsLine, flatten_splitBy, List.take_take, textBytes_dumpLines]; rfl⟩
  obtain ⟨n, tail, hsplit, htail, hcount⟩ := take_textBytes (dumpLines 0 (wordsAt m₀.fpga p k))
    (fun l hl => (mem_dumpLines hl).2.1) c
  rw [← hc] at hsplit hcount
  -- the unfinished line is the start of a line of the dump
  have hnext : lf ∉ tail ∧ tail.length ≤ 45 := by
    by_cases hn' : n < (dumpLines 0 (wordsAt m₀.fpga p k)).length
    · rw [List.getD_eq_getElem _ _ hn'] at htail
      have h := mem_dumpLines (List.getElem_mem hn')
      exact ⟨fun h' => h.2.1 (htail.subset h'), htail.length_le.trans h.2.2⟩
    · rw [List.getD_eq_default _ _ (by omega), List.prefix_nil] at htail
      simp [htail]
  exact ⟨n, tail, hsplit, hnext.1, hnext.2, hcount⟩

/-- A text-mode write from `q` of the first `n` lines of the dump of `ws` and the start of the
next line, in any cut into calls and pbufs, under a budget of at least four bytes a word, is
accepted and stores the first `4n` words of `ws` at `q`, `q + 4`, ..., and nothing else. -/
theorem runWrites_dumpLines (s : TapcpState) (m : Machine) (ws : List UInt32) (q n : Nat)
    (tail : List UInt8) (calls : List Chain)
    (hT : transferBytes calls = textBytes ((dumpLines 0 ws).take n) ++ tail) (hlf : lf ∉ tail)
    (htail : tail.length ≤ 45) (hn : s.nleft < 0 ∨ 4 * ws.length ≤ s.nleft) :
    ∃ s' m', runWrites writeFpgaWordsAscii calls { s with ptr := q, lidx := 0, u32 := 0 } m =
        .ok (s', m') ∧ StoresWords m m' q (ws.take (4 * n)) := by
  obtain ⟨hfit, hflag, hwords⟩ := textWords_dumpLines n 0 ws
  obtain ⟨s', m', hrun, hst⟩ := runWrites_text_tail _ tail calls
    { s with ptr := q, lidx := 0, u32 := 0 } m hT
    (.inl fun l hl => .inl (mem_dumpLines (List.mem_of_mem_take hl)).1) rfl hfit hlf
    ⟨(length_lineLabel_le _ _).trans_lt (by simp only [lineBufSize]; omega),
      (length_lineBody_le _ _).trans (by simp only [lineBufSize]; omega)⟩
    (by rw [hwords, List.length_take]; dsimp only; omega)
  exact ⟨s', m', hrun, hwords ▸ hst⟩

/-- In any schedule of requests of a text-mode read of the `k` FPGA words at `p`, and any cut
into calls and pbufs of a text-mode write of the bytes it returned from `q`, under a budget of at
least `4k` bytes: the write is accepted and stores at `q`, `q + 4`, ... the words of the lines
the read returned whole, four per `'\n'` and the last line's own number, in order, and nothing
else. -/
theorem writeFpgaWordsAscii_restore (s₀ s : TapcpState) (m₀ m : Machine) (p k q : Nat)
    (sizes : List Nat) (calls : List Chain)
    (hT : transferBytes calls = (runReads readFpgaWordsAscii sizes
      { s₀ with ptr := p, nleft := 4 * k, lidx := 0, u32 := 0 } m₀).1.flatten)
    (hn : s.nleft < 0 ∨ 4 * k ≤ s.nleft) :
    ∃ s' m', runWrites writeFpgaWordsAscii calls { s with ptr := q, lidx := 0, u32 := 0 } m =
        .ok (s', m') ∧
      StoresWords m m' q ((wordsAt m₀.fpga p k).take (4 * (transferBytes calls).count lf)) := by
  obtain ⟨n, tail, hsplit, hlf, htail, hcount⟩ := readFpgaWordsAscii_lines s₀ m₀ p k sizes
  rw [← hT] at hsplit hcount
  rw [hcount]
  exact runWrites_dumpLines s m _ q n tail calls hsplit hlf htail (by rwa [length_wordsAt])

/-- Five FPGA words `0, 4, 8, 12, 16` read in two 50-byte requests: the first ends inside the
last line and the second returns nothing. Written back from 64, cut into two pbufs, the four words
of the whole line land at 64..76 and the fifth is lost. -/
theorem writeFpgaWordsAscii_restore_lastLine :
    transferBytes [[ascii "00000000: 00000000 00000004", ascii " 00000008 0000000C\n0000"]] =
      (runReads readFpgaWordsAscii [50, 50]
        { dumpStart 0 with
          ptr := 0, nleft := 4 * 5, lidx := 0, u32 := 0 }
        { zeroMachine with
          fpga := fun a => UInt32.ofNat a }).1.flatten ∧
    ((writeStart 20).nleft < 0 ∨ 4 * 5 ≤ (writeStart 20).nleft) ∧
    ∃ s' m', runWrites writeFpgaWordsAscii
        [[ascii "00000000: 00000000 00000004", ascii " 00000008 0000000C\n0000"]]
        { writeStart 20 with
          ptr := 64, lidx := 0, u32 := 0 } zeroMachine = .ok (s', m') ∧
      StoresWords zeroMachine m' 64 ((wordsAt (fun a => UInt32.ofNat a) 0 5).take (4 *
        (transferBytes [[ascii "00000000: 00000000 00000004",
          ascii " 00000008 0000000C\n0000"]]).count lf)) := by
  refine ⟨?hT, ?hn, writeFpgaWordsAscii_restore (dumpStart 0) (writeStart 20) _ zeroMachine 0 5 64
    [50, 50] _ ?hT ?hn⟩ <;> decide

end CasperTapcp

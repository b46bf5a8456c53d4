import CasperTapcp.Write.ReadRestore
import CasperTapcp.Open.Bounds

/-!
# Copying FPGA words through the openers

The results below them follow one transfer from the state its opener sets up. This module opens
the two transfers of a copy by name, `GET /fpga.OFF.LEN` and then `PUT /fpga.OFF2` carrying the
bytes the read returned, and follows the words from one to the other.

A non-empty read that fits in the window is opened at `FPGA_BASEADDR + OFF` with `LEN` as its
budget (`openMem_read_fpga`), and a write at an offset in the window is opened there with the rest
of the window as its budget (`openMem_write_fpga`). In octet mode every word the read returned
whole is stored at the new offset, in order: in any schedule of requests and any cut of the write
into calls and pbufs, the first `⌊Σ sizes / 4⌋` words (`openMem_copy_binary`). In netascii mode
only the words of the lines the read returned whole are stored, four per `'\n'`
(`openMem_copy_ascii`): a schedule whose request ends inside the last line of the dump loses that
line, and nothing reports it.

Scope. Both transfers are on the FPGA window, which is smaller than 2 GiB, and the words fit at the
destination. The bytes of the read reach the write unchanged: the engine's netascii translation is
outside the sources.
-/

set_option autoImplicit false
set_option relaxedAutoImplicit false

namespace CasperTapcp

/-! ### The two openers -/

/-- `casper_tapcp_open_mem` on a non-empty read of `/fpga.` that fits in the window. -/
theorem openMem_read_fpga {w : FpgaWindow} {s : TapcpState} {fname : List UInt8}
    {cmdOff cmdLen : UInt32} (hr : s.write = false) (hfpga : fname.take 6 = ascii "/fpga.")
    (hcmd : memCommand false (fname.drop 6) = some (cmdOff, cmdLen)) (hlen : 0 < cmdLen.toNat)
    (hfit : cmdOff.toNat + cmdLen.toNat ≤ w.nbytes.toNat) (hsmall : w.nbytes.toNat < 2 ^ 31) :
    openMem w s fname = some (fpgaCodec { s with ptr := w.base.toNat + cmdOff.toNat,
                                                 nleft := (cmdLen.toNat : Int) }) := by
  rw [← memTransfer_read hr hlen hfit hsmall]
  simp only [openMem, memTarget, hfpga, if_true, hr, hcmd]

/-- `casper_tapcp_open_mem` on a write of `/fpga.` at an offset within the window. -/
theorem openMem_write_fpga {w : FpgaWindow} {s : TapcpState} {fname : List UInt8}
    {cmdOff cmdLen : UInt32} (hw : s.write = true) (hfpga : fname.take 6 = ascii "/fpga.")
    (hcmd : memCommand true (fname.drop 6) = some (cmdOff, cmdLen))
    (hoff : cmdOff.toNat < w.nbytes.toNat) (hsmall : w.nbytes.toNat < 2 ^ 31) :
    openMem w s fname = some (fpgaCodec { s with ptr := w.base.toNat + cmdOff.toNat,
                                                 nleft := (w.nbytes.toNat - cmdOff.toNat : Nat) }) := by
  rw [← @memTransfer_write w s cmdOff cmdLen hw hoff hsmall]
  simp only [openMem, memTarget, hfpga, if_true, hw, hcmd]

/-- The rounded length of a read is four bytes for each of its words. -/
theorem memCommand_read_words {args : List UInt8} {cmdOff cmdLen : UInt32}
    (hcmd : memCommand false args = some (cmdOff, cmdLen)) :
    (cmdLen.toNat : Int) = 4 * ((cmdLen.toNat / 4 : Nat) : Int) := by
  have := (memCommand_words hcmd).2
  omega

/-! ### A copy -/

/-- A binary write of what a binary read of the `k` words at `p` returned, from `q` under a budget
of at least `4k` bytes, in any schedule of the read and any cut of the write: it stores at `q` the
words the read returned whole. -/
theorem runWrites_copy_binary (s₀ s : TapcpState) (m₀ m : Machine) (p k q : Nat)
    (sizes : List Nat) (calls : List Chain)
    (hT : transferBytes calls =
      (runReads readFpgaWordsBinary sizes { s₀ with ptr := p, nleft := 4 * k } m₀).1.flatten)
    (hn : s.nleft < 0 ∨ 4 * k ≤ s.nleft) :
    ∃ s' m', runWrites writeFpgaWordsBinary calls { s with ptr := q, u32 := 0 } m = .ok (s', m') ∧
      StoresWords m m' q ((wordsAt m₀.fpga p k).take (sizes.sum / 4)) := by
  -- the read returned a prefix of the serialization of the words
  rcases hrd : runReads readFpgaWordsBinary sizes { s₀ with ptr := p, nleft := 4 * k } m₀ with
    ⟨outs, s'', m''⟩
  obtain ⟨hout, -⟩ := runReads_readFpgaWordsBinary m₀.fpga sizes rfl hrd
  rw [hrd, hout, owed_start, flatten_splitBy] at hT
  have hB : ((transferBytes calls).length : Int) ≤ 4 * k := by
    rw [hT]
    have := List.length_take_le' sizes.sum (serialize (wordsAt m₀.fpga p k))
    rw [length_serialize, length_wordsAt] at this
    omega
  obtain ⟨s', m', hfeed, hf, hl⟩ := feedBytes_writeFpgaWordsBinaryByte (transferBytes calls)
    { s with ptr := q, u32 := 0 } m rfl (by dsimp only; omega)
  rw [hT, wordsOf_take_serialize] at hf hl
  exact ⟨s', m', by rw [runWrites_writeFpgaWordsBinary, hfeed], hf, hl⟩

/-- `GET /fpga.OFF.LEN` then `PUT /fpga.OFF2` in octet mode, the words fitting at `OFF2`: both are
opened with the binary codecs, and in any schedule of the read and any cut of the write of the
bytes it returned, the write is accepted and stores at `OFF2` the words the read returned whole,
in order, and nothing else. -/
theorem openMem_copy_binary (w : FpgaWindow) (sr sw : TapcpState) (src dst : List UInt8)
    {offR lenR offW lenW : UInt32} (hr : sr.write = false) (hbr : sr.binary = true)
    (hw : sw.write = true) (hbw : sw.binary = true)
    (hsrc : src.take 6 = ascii "/fpga.") (hcmdR : memCommand false (src.drop 6) = some (offR, lenR))
    (hdst : dst.take 6 = ascii "/fpga.") (hcmdW : memCommand true (dst.drop 6) = some (offW, lenW))
    (hsmall : w.nbytes.toNat < 2 ^ 31) (hlen : 0 < lenR.toNat)
    (hfitR : offR.toNat + lenR.toNat ≤ w.nbytes.toNat)
    (hfitW : offW.toNat + lenR.toNat ≤ w.nbytes.toNat) :
    ∃ sr' sw', openMem w sr src = some (sr', .readFpgaWordsBinary) ∧
      openMem w sw dst = some (sw', .writeFpgaWordsBinary) ∧
      ∀ (m₀ m : Machine) (sizes : List Nat) (calls : List Chain),
        transferBytes calls = (runReads readFpgaWordsBinary sizes sr' m₀).1.flatten →
        ∃ s' m', runWrites writeFpgaWordsBinary calls sw' m = .ok (s', m') ∧
          StoresWords m m' (w.base.toNat + offW.toNat)
            ((wordsAt m₀.fpga (w.base.toNat + offR.toNat) (lenR.toNat / 4)).take
              (sizes.sum / 4)) := by
  rw [openMem_read_fpga hr hsrc hcmdR hlen hfitR hsmall,
    openMem_write_fpga hw hdst hcmdW (by omega) hsmall, memCommand_read_words hcmdR]
  simp only [fpgaCodec, hr, hbr, hw, hbw, if_true, Bool.true_eq_false, if_false]
  exact ⟨_, _, rfl, rfl, fun m₀ m sizes calls hT =>
    runWrites_copy_binary { sr with write := false, binary := true }
      { sw with write := true, binary := true, nleft := ((w.nbytes.toNat - offW.toNat : Nat) : Int) }
      m₀ m (w.base.toNat + offR.toNat) (lenR.toNat / 4) (w.base.toNat + offW.toNat) sizes calls hT
      (.inr (by dsimp only; omega))⟩

/-- `GET /fpga.0.14` then `PUT /fpga.100` in octet mode on the window `[0x1000, 0x1FFF]`: the five
words at `0x1000` go to `0x1100`. -/
theorem openMem_copy_binary_fiveWords :
    (⟨false, true, 0, 0, 0, 0⟩ : TapcpState).write = false ∧
    (⟨false, true, 0, 0, 0, 0⟩ : TapcpState).binary = true ∧
    (⟨true, true, 0, 0, 0, 0⟩ : TapcpState).write = true ∧
    (⟨true, true, 0, 0, 0, 0⟩ : TapcpState).binary = true ∧
    (ascii "/fpga.0.14").take 6 = ascii "/fpga." ∧
    memCommand false ((ascii "/fpga.0.14").drop 6) = some (0, 0x14) ∧
    (ascii "/fpga.100").take 6 = ascii "/fpga." ∧
    memCommand true ((ascii "/fpga.100").drop 6) = some (0x100, 4) ∧
    windowA.nbytes.toNat < 2 ^ 31 ∧ 0 < (0x14 : UInt32).toNat ∧
    (0 : UInt32).toNat + (0x14 : UInt32).toNat ≤ windowA.nbytes.toNat ∧
    (0x100 : UInt32).toNat + (0x14 : UInt32).toNat ≤ windowA.nbytes.toNat ∧
    ∃ sr' sw', openMem windowA ⟨false, true, 0, 0, 0, 0⟩ (ascii "/fpga.0.14") =
        some (sr', .readFpgaWordsBinary) ∧
      openMem windowA ⟨true, true, 0, 0, 0, 0⟩ (ascii "/fpga.100") =
        some (sw', .writeFpgaWordsBinary) ∧
      ∀ (m₀ m : Machine) (sizes : List Nat) (calls : List Chain),
        transferBytes calls = (runReads readFpgaWordsBinary sizes sr' m₀).1.flatten →
        ∃ s' m', runWrites writeFpgaWordsBinary calls sw' m = .ok (s', m') ∧
          StoresWords m m' (windowA.base.toNat + (0x100 : UInt32).toNat)
            ((wordsAt m₀.fpga (windowA.base.toNat + (0 : UInt32).toNat)
              ((0x14 : UInt32).toNat / 4)).take (sizes.sum / 4)) := by
  refine ⟨?hr, ?hbr, ?hw, ?hbw, ?hsrc, ?hcmdR, ?hdst, ?hcmdW, ?hsmall, ?hlen, ?hfitR, ?hfitW,
    openMem_copy_binary windowA _ _ _ _ ?hr ?hbr ?hw ?hbw ?hsrc ?hcmdR ?hdst ?hcmdW ?hsmall ?hlen
      ?hfitR ?hfitW⟩ <;> decide

/-- `GET /fpga.OFF.LEN` then `PUT /fpga.OFF2` in netascii mode, the words fitting at `OFF2`: both
are opened with the text codecs, and in any schedule of the read and any cut of the write of the
bytes it returned, the write is accepted and stores at `OFF2` the words of the lines the read
returned whole, four per `'\n'`, in order, and nothing else. -/
theorem openMem_copy_ascii (w : FpgaWindow) (sr sw : TapcpState) (src dst : List UInt8)
    {offR lenR offW lenW : UInt32} (hr : sr.write = false) (hbr : sr.binary = false)
    (hw : sw.write = true) (hbw : sw.binary = false)
    (hsrc : src.take 6 = ascii "/fpga.") (hcmdR : memCommand false (src.drop 6) = some (offR, lenR))
    (hdst : dst.take 6 = ascii "/fpga.") (hcmdW : memCommand true (dst.drop 6) = some (offW, lenW))
    (hsmall : w.nbytes.toNat < 2 ^ 31) (hlen : 0 < lenR.toNat)
    (hfitR : offR.toNat + lenR.toNat ≤ w.nbytes.toNat)
    (hfitW : offW.toNat + lenR.toNat ≤ w.nbytes.toNat) :
    ∃ sr' sw', openMem w sr src = some (sr', .readFpgaWordsAscii) ∧
      openMem w sw dst = some (sw', .writeFpgaWordsAscii) ∧
      ∀ (m₀ m : Machine) (sizes : List Nat) (calls : List Chain),
        transferBytes calls = (runReads readFpgaWordsAscii sizes sr' m₀).1.flatten →
        ∃ s' m', runWrites writeFpgaWordsAscii calls sw' m = .ok (s', m') ∧
          StoresWords m m' (w.base.toNat + offW.toNat)
            ((wordsAt m₀.fpga (w.base.toNat + offR.toNat) (lenR.toNat / 4)).take
              (4 * (transferBytes calls).count lf)) := by
  rw [openMem_read_fpga hr hsrc hcmdR hlen hfitR hsmall,
    openMem_write_fpga hw hdst hcmdW (by omega) hsmall, memCommand_read_words hcmdR]
  simp only [fpgaCodec, hr, hbr, hw, hbw, if_true, Bool.true_eq_false, if_false]
  refine ⟨_, _, rfl, rfl, fun m₀ m sizes calls hT => ?_⟩
  obtain ⟨n, tail, hsplit, hlf, htail, hcount⟩ := readFpgaWordsAscii_lines
    { sr with write := false, binary := false } m₀ (w.base.toNat + offR.toNat) (lenR.toNat / 4) sizes
  rw [← hT] at hsplit hcount
  rw [hcount]
  exact runWrites_dumpLines
    { sw with write := true, binary := false, nleft := ((w.nbytes.toNat - offW.toNat : Nat) : Int) }
    m _ _ n tail calls hsplit hlf htail (.inr (by rw [length_wordsAt]; dsimp only; omega))

/-- `GET /fpga.0.14` then `PUT /fpga.100` in netascii mode on the window `[0x1000, 0x1FFF]`. -/
theorem openMem_copy_ascii_fiveWords :
    (⟨false, false, 0, 0, 0, 0⟩ : TapcpState).write = false ∧
    (⟨false, false, 0, 0, 0, 0⟩ : TapcpState).binary = false ∧
    (⟨true, false, 0, 0, 0, 0⟩ : TapcpState).write = true ∧
    (⟨true, false, 0, 0, 0, 0⟩ : TapcpState).binary = false ∧
    (ascii "/fpga.0.14").take 6 = ascii "/fpga." ∧
    memCommand false ((ascii "/fpga.0.14").drop 6) = some (0, 0x14) ∧
    (ascii "/fpga.100").take 6 = ascii "/fpga." ∧
    memCommand true ((ascii "/fpga.100").drop 6) = some (0x100, 4) ∧
    windowA.nbytes.toNat < 2 ^ 31 ∧ 0 < (0x14 : UInt32).toNat ∧
    (0 : UInt32).toNat + (0x14 : UInt32).toNat ≤ windowA.nbytes.toNat ∧
    (0x100 : UInt32).toNat + (0x14 : UInt32).toNat ≤ windowA.nbytes.toNat ∧
    ∃ sr' sw', openMem windowA ⟨false, false, 0, 0, 0, 0⟩ (ascii "/fpga.0.14") =
        some (sr', .readFpgaWordsAscii) ∧
      openMem windowA ⟨true, false, 0, 0, 0, 0⟩ (ascii "/fpga.100") =
        some (sw', .writeFpgaWordsAscii) ∧
      ∀ (m₀ m : Machine) (sizes : List Nat) (calls : List Chain),
        transferBytes calls = (runReads readFpgaWordsAscii sizes sr' m₀).1.flatten →
        ∃ s' m', runWrites writeFpgaWordsAscii calls sw' m = .ok (s', m') ∧
          StoresWords m m' (windowA.base.toNat + (0x100 : UInt32).toNat)
            ((wordsAt m₀.fpga (windowA.base.toNat + (0 : UInt32).toNat)
              ((0x14 : UInt32).toNat / 4)).take (4 * (transferBytes calls).count lf)) := by
  refine ⟨?hr, ?hbr, ?hw, ?hbw, ?hsrc, ?hcmdR, ?hdst, ?hcmdW, ?hsmall, ?hlen, ?hfitR, ?hfitW,
    openMem_copy_ascii windowA _ _ _ _ ?hr ?hbr ?hw ?hbw ?hsrc ?hcmdR ?hdst ?hcmdW ?hsmall ?hlen
      ?hfitR ?hfitW⟩ <;> decide

end CasperTapcp

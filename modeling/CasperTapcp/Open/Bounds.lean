import CasperTapcp.Open.Openers
import CasperTapcp.Read.HexDump
import CasperTapcp.Read.CpuBytes
import CasperTapcp.Write.FpgaWordsAscii

/-!
# What an opened transfer can reach

An opener registers the callback the TFTP server then calls, and sets the state it starts from;
`Callback.reader` and `Callback.writer` are the functions a callback names. The FPGA codecs keep
their accesses within `[ptr, ptr + nleft)`: the readers in any schedule of requests, the writers
in any cut into calls and pbufs, also when a byte is refused. So what a transfer can reach is
decided by the opener's checks, which are computed in 32-bit arithmetic.

The CPU readers need no check: `GET /cpu.OFF.LEN` in octet mode returns the bytes of CPU memory
from `OFF`, past the top of the address space to its bottom as the opener lets a CPU read wrap
(`openMem_cpu_get`), and `GET /help` the help text (`openHelp_get`), in any schedule.

* While nothing wraps, the checks hold. A device read lies within the device when `OFF + LEN`
  does not wrap (`openDev_get_within`), and so does a read of the FPGA window
  (`openMem_get_within`). A write at an offset within a writable device, or within the FPGA
  window, stores only within it (`openDev_put_within`, `openMem_put_within`).
* When a field wraps, three of the checks let a transfer out. A write ignores the device's
  length: the default length `(length >> 2) - OFF` of a device write wraps when `OFF` is past the
  end, and `nleft = LEN << 2` then becomes negative, which the write codecs read as no bound at
  all. On the FPGA window, `nleft = FPGA_NBYTES - OFF` wraps the same way. So a write can be
  opened past the end of a device or of the window, without a bound (`openDev_put_past_end`).
  The read bound `OFF + LEN > length >> 2` of a device is computed modulo `2^32`, and so is
  `ptr + (OFF << 2)`: an offset of `0xFFFFFFFF` passes the check and points one word below the
  device (`openDev_get_wraps`). The read bound `OFF + LEN > FPGA_NBYTES` of the window is
  computed modulo `2^32` as well (`openMem_get_wraps`).

The counterexamples are shown on a catalog with one writable device `A` of one word at `0x1000`,
and on the window `[0x1000, 0x1FFF]`, together with the access the codec then makes.
-/

set_option autoImplicit false
set_option relaxedAutoImplicit false

namespace CasperTapcp

/-- A catalog with one writable device `A`, one word long, at `0x1000`. -/
def catalogA (name : List UInt8) : Option (UInt32 × DevInfo) :=
  if name = ascii "A" then some (0x1000, ⟨0x1000, 4⟩) else none

/-- The FPGA window `[0x1000, 0x1FFF]`, 4096 bytes. -/
def windowA : FpgaWindow := ⟨0x1000, 0x1FFF, by decide⟩

/-! ### The callbacks -/

/-- The function the server calls for a read callback; `none` for a write callback. -/
def Callback.reader :
    Callback → Option (TapcpState → Machine → Nat → List UInt8 × TapcpState × Machine)
  | .readFpgaWordsBinary => some CasperTapcp.readFpgaWordsBinary
  | .readFpgaWordsAscii => some CasperTapcp.readFpgaWordsAscii
  | .readMemBytesBinary => some CasperTapcp.readMemBytesBinary
  | .readMemBytesAscii => some CasperTapcp.readMemBytesAscii
  | .readHelp => some CasperTapcp.readHelp
  | .writeFpgaWordsBinary | .writeFpgaWordsAscii => none

/-- The function the server calls for a write callback; `none` for a read callback. -/
def Callback.writer :
    Callback → Option (TapcpState → Machine → Chain → Int × TapcpState × Machine)
  | .writeFpgaWordsBinary => some CasperTapcp.writeFpgaWordsBinary
  | .writeFpgaWordsAscii => some CasperTapcp.writeFpgaWordsAscii
  | _ => none

/-- The FPGA reader a read opener registers accesses only `[ptr, ptr + nleft)`, in any schedule
of requests, when `nleft` is a multiple of 4. -/
theorem fpgaCodec_read_within (st : TapcpState) (hr : st.write = false) (hw : st.nleft % 4 = 0) :
    ∃ read, (fpgaCodec st).2.reader = some read ∧ ∀ (sizes : List Nat) (m : Machine),
      AccessesWithin st.ptr (st.ptr + st.nleft.toNat) m.log
        (runReads read sizes (fpgaCodec st).1 m).2.2.log := by
  have hp := fpgaCodec_ptr st
  have hn := fpgaCodec_nleft st
  rcases fpgaCodec_read hr with hcb | hcb <;> rw [hcb]
  · exact ⟨_, rfl, fun sizes m => hp ▸ hn ▸ readFpgaWordsBinary_within sizes _ m⟩
  · exact ⟨_, rfl, fun sizes m => hp ▸ hn ▸ readFpgaWordsAscii_within sizes _ m (hn ▸ hw)⟩

/-- The FPGA writer a write opener registers stores only within `[ptr, ptr + nleft)`, in any cut
into calls and pbufs, when `nleft` is non-negative. -/
theorem fpgaCodec_write_within (st : TapcpState) (hw : st.write = true) (hn : 0 ≤ st.nleft) :
    ∃ write, (fpgaCodec st).2.writer = some write ∧ ∀ (calls : List Chain) (m : Machine),
      AccessesWithin st.ptr (st.ptr + st.nleft.toNat) m.log
        (settled (runWrites write calls (fpgaCodec st).1 m)).2.log := by
  obtain ⟨hu, hcb⟩ := fpgaCodec_write hw
  have hp := fpgaCodec_ptr st
  have hl := fpgaCodec_nleft st
  rcases hcb with hcb | hcb <;> rw [hcb]
  · exact ⟨_, rfl, fun calls m => hp ▸ hl ▸
      writeFpgaWordsBinary_within calls _ m (hl ▸ hn) (by rw [hu]; rfl)⟩
  · exact ⟨_, rfl, fun calls m => hp ▸ hl ▸ writeFpgaWordsAscii_within calls _ m (hl ▸ hn)⟩

/-- `GET /help`, in any schedule of requests, returns the help text, when `tapcp_help_msg` holds
it. -/
theorem openHelp_get (helpMsg : Nat) (s : TapcpState) (m : Machine) (sizes : List Nat)
    (hmsg : bytesAt m.cpuByte helpMsg tapcpHelpMsg.length = tapcpHelpMsg) :
    (openHelp helpMsg s).2.reader = some readHelp ∧
      (runReads readHelp sizes (openHelp helpMsg s).1 m).1 = splitBy sizes tapcpHelpMsg := by
  refine ⟨rfl, ?_⟩
  rw [openHelp, runReads_readHelp _ _ _ (by simp)]
  have h := (readMemBytesBinary_schedule sizes s m helpMsg tapcpHelpMsg.length).1
  rwa [hmsg] at h

/-- The help text at address 0, below `line_buf`, read in requests of 100 bytes. -/
theorem openHelp_get_atZero :
    bytesAt ({ zeroMachine with cpu := fun i => tapcpHelpMsg.getD i 0 } : Machine).cpuByte 0
      tapcpHelpMsg.length = tapcpHelpMsg ∧
    (openHelp 0 ⟨false, true, 0, 0, 0, 0⟩).2.reader = some readHelp ∧
      (runReads readHelp [100, 100, 100, 100] (openHelp 0 ⟨false, true, 0, 0, 0, 0⟩).1
        { zeroMachine with cpu := fun i => tapcpHelpMsg.getD i 0 }).1 =
        splitBy [100, 100, 100, 100] tapcpHelpMsg := by
  have hlen : tapcpHelpMsg.length < 0x8000 := by
    set_option maxRecDepth 4000 in decide
  have hmsg : bytesAt ({ zeroMachine with cpu := fun i => tapcpHelpMsg.getD i 0 } : Machine).cpuByte
      0 tapcpHelpMsg.length = tapcpHelpMsg := by
    refine (bytesAt_congr fun j hj => ?_).trans (bytesAt_getD _)
    simp only [Machine.cpuByte, zeroMachine, Nat.zero_add, Nat.mod_eq_of_lt (show j < 2 ^ 32 by omega),
      if_neg (show ¬0x8000 ≤ j by omega)]
  exact ⟨hmsg, openHelp_get 0 _ _ _ hmsg⟩

/-- A name that starts with `/cpu.` does not start with `/fpga.`. -/
theorem take_six_ne_fpga {fname : List UInt8} (hcpu : fname.take 5 = ascii "/cpu.") :
    fname.take 6 ≠ ascii "/fpga." := fun h => by
  have h5 : fname.take 5 = (ascii "/fpga.").take 5 := by rw [← h, List.take_take]; rfl
  rw [hcpu] at h5
  exact absurd h5 (by decide)

/-- A read that `casper_tapcp_open_dev` opens on a device within the address space, with
`OFF + LEN` not wrapping, accesses only the device, in any schedule of requests. -/
theorem openDev_get_within (findDev : List UInt8 → Option (UInt32 × DevInfo)) (s : TapcpState)
    (fname : List UInt8) {name : List UInt8} {cmdOff cmdLen devPtr : UInt32} {info : DevInfo}
    {s' : TapcpState} {cb : Callback} (hr : s.write = false)
    (hcmd : devCommand false fname = (name, cmdOff, cmdLen))
    (hfind : findDev name = some (devPtr, info))
    (hdev : devPtr.toNat + info.length.toNat ≤ 2 ^ 32)
    (hwrap : cmdOff.toNat + (devLength info cmdOff cmdLen).toNat < 2 ^ 32)
    (h : openDev findDev s fname = some (s', cb)) :
    ∃ read, cb.reader = some read ∧ ∀ (sizes : List Nat) (m : Machine),
      AccessesWithin devPtr.toNat (devPtr.toNat + info.length.toNat) m.log
        (runReads read sizes s' m).2.2.log := by
  have hptr : devPtr ≠ 0 := fun h0 => by simp [openDev, hr, hcmd, hfind, h0] at h
  simp only [openDev, hr, hcmd, hfind, hptr, Bool.false_eq_true, false_and, if_false] at h
  obtain ⟨hlo, hhi⟩ := devTransfer_read_within hr hdev hwrap h
  have hx := devTransfer_eq_some h
  obtain rfl : s' = _ := congrArg Prod.fst hx
  obtain rfl : cb = _ := congrArg Prod.snd hx
  simp only [fpgaCodec_ptr, fpgaCodec_nleft] at hlo hhi
  obtain ⟨read, hread, hacc⟩ := fpgaCodec_read_within { s with
    ptr := (devPtr + (cmdOff <<< 2)).toNat, nleft := u32ToInt (devLength info cmdOff cmdLen <<< 2) }
    hr (u32ToInt_emod_four (by rw [toNat_u32_shiftLeft_two]; omega))
  exact ⟨read, hread, fun sizes m => (hacc sizes m).mono hlo hhi⟩

/-- `GET /dev/A.0.1` reads the one word of `A`. -/
theorem openDev_get_within_oneWord :
    (⟨false, true, 0, 0, 0, 0⟩ : TapcpState).write = false ∧
    devCommand false (ascii "/dev/A.0.1") = (ascii "A", 0, 1) ∧
    catalogA (ascii "A") = some (0x1000, ⟨0x1000, 4⟩) ∧
    (0x1000 : UInt32).toNat + (⟨0x1000, 4⟩ : DevInfo).length.toNat ≤ 2 ^ 32 ∧
    (0 : UInt32).toNat + (devLength ⟨0x1000, 4⟩ 0 1).toNat < 2 ^ 32 ∧
    openDev catalogA ⟨false, true, 0, 0, 0, 0⟩ (ascii "/dev/A.0.1") =
      some (⟨false, true, 0x1000, 4, 0, 0⟩, .readFpgaWordsBinary) ∧
    ∃ read, Callback.reader .readFpgaWordsBinary = some read ∧ ∀ (sizes : List Nat) (m : Machine),
      AccessesWithin (0x1000 : UInt32).toNat
        ((0x1000 : UInt32).toNat + (⟨0x1000, 4⟩ : DevInfo).length.toNat) m.log
        (runReads read sizes ⟨false, true, 0x1000, 4, 0, 0⟩ m).2.2.log := by
  have hcmd : devCommand false (ascii "/dev/A.0.1") = (ascii "A", 0, 1) := by decide
  have hfind : catalogA (ascii "A") = some (0x1000, ⟨0x1000, 4⟩) := by decide
  have hdev : (0x1000 : UInt32).toNat + (⟨0x1000, 4⟩ : DevInfo).length.toNat ≤ 2 ^ 32 := by decide
  have hwrap : (0 : UInt32).toNat + (devLength ⟨0x1000, 4⟩ 0 1).toNat < 2 ^ 32 := by decide
  have h : openDev catalogA ⟨false, true, 0, 0, 0, 0⟩ (ascii "/dev/A.0.1") =
      some (⟨false, true, 0x1000, 4, 0, 0⟩, .readFpgaWordsBinary) := by decide
  exact ⟨rfl, hcmd, hfind, hdev, hwrap, h,
    openDev_get_within catalogA _ _ rfl hcmd hfind hdev hwrap h⟩

/-- A read of the FPGA window that `casper_tapcp_open_mem` opens, with `OFF + LEN` not wrapping,
accesses only the window, in any schedule of requests. -/
theorem openMem_get_within (w : FpgaWindow) (s : TapcpState) (fname : List UInt8)
    {cmdOff cmdLen : UInt32} {s' : TapcpState} {cb : Callback} (hr : s.write = false)
    (hfpga : fname.take 6 = ascii "/fpga.")
    (hcmd : memCommand false (fname.drop 6) = some (cmdOff, cmdLen))
    (hwrap : cmdOff.toNat + cmdLen.toNat < 2 ^ 32)
    (h : openMem w s fname = some (s', cb)) :
    ∃ read, cb.reader = some read ∧ ∀ (sizes : List Nat) (m : Machine),
      AccessesWithin w.base.toNat (w.base.toNat + w.nbytes.toNat) m.log
        (runReads read sizes s' m).2.2.log := by
  simp only [openMem, memTarget, hfpga, if_true, hr, hcmd] at h
  obtain ⟨hlo, hhi⟩ := memTransfer_read_within hr hwrap h
  have hx := memTransfer_read_eq_some hr h
  obtain rfl : s' = _ := congrArg Prod.fst hx
  obtain rfl : cb = _ := congrArg Prod.snd hx
  simp only [fpgaCodec_ptr, fpgaCodec_nleft] at hlo hhi
  obtain ⟨read, hread, hacc⟩ := fpgaCodec_read_within { s with
    ptr := (w.base + cmdOff).toNat, nleft := u32ToInt cmdLen }
    hr (u32ToInt_emod_four (memCommand_words hcmd).2)
  exact ⟨read, hread, fun sizes m => (hacc sizes m).mono hlo hhi⟩

/-- `GET /fpga.10.4` reads one word of the window. -/
theorem openMem_get_within_oneWord :
    (⟨false, true, 0, 0, 0, 0⟩ : TapcpState).write = false ∧
    (ascii "/fpga.10.4").take 6 = ascii "/fpga." ∧
    memCommand false ((ascii "/fpga.10.4").drop 6) = some (0x10, 4) ∧
    (0x10 : UInt32).toNat + (4 : UInt32).toNat < 2 ^ 32 ∧
    openMem windowA ⟨false, true, 0, 0, 0, 0⟩ (ascii "/fpga.10.4") =
      some (⟨false, true, 0x1010, 4, 0, 0⟩, .readFpgaWordsBinary) ∧
    ∃ read, Callback.reader .readFpgaWordsBinary = some read ∧ ∀ (sizes : List Nat) (m : Machine),
      AccessesWithin windowA.base.toNat (windowA.base.toNat + windowA.nbytes.toNat) m.log
        (runReads read sizes ⟨false, true, 0x1010, 4, 0, 0⟩ m).2.2.log := by
  have hfpga : (ascii "/fpga.10.4").take 6 = ascii "/fpga." := by decide
  have hcmd : memCommand false ((ascii "/fpga.10.4").drop 6) = some (0x10, 4) := by decide
  have hwrap : (0x10 : UInt32).toNat + (4 : UInt32).toNat < 2 ^ 32 := by decide
  have h : openMem windowA ⟨false, true, 0, 0, 0, 0⟩ (ascii "/fpga.10.4") =
      some (⟨false, true, 0x1010, 4, 0, 0⟩, .readFpgaWordsBinary) := by decide
  exact ⟨rfl, hfpga, hcmd, hwrap, h, openMem_get_within windowA _ _ rfl hfpga hcmd hwrap h⟩

/-- A write that `casper_tapcp_open_dev` opens at an offset within a writable device of less than
2 GiB, found at a non-NULL address within the address space, is accepted and stores only within
the device, in any cut of the transfer into calls and pbufs. -/
theorem openDev_put_within (findDev : List UInt8 → Option (UInt32 × DevInfo)) (s : TapcpState)
    (fname : List UInt8) {name : List UInt8} {cmdOff cmdLen devPtr : UInt32} {info : DevInfo}
    (hw : s.write = true) (hcmd : devCommand true fname = (name, cmdOff, cmdLen))
    (hfind : findDev name = some (devPtr, info)) (hptr : devPtr ≠ 0) (hrw : info.offset &&& 1 = 0)
    (hoff : cmdOff.toNat < info.length.toNat / 4)
    (hdev : devPtr.toNat + info.length.toNat ≤ 2 ^ 32) (hlen : info.length.toNat < 2 ^ 31) :
    ∃ s' cb write, openDev findDev s fname = some (s', cb) ∧ cb.writer = some write ∧
      ∀ (calls : List Chain) (m : Machine),
        AccessesWithin devPtr.toNat (devPtr.toNat + info.length.toNat) m.log
          (settled (runWrites write calls s' m)).2.log := by
  have hlen0 : cmdLen = 0 := by rw [← devCommand_write fname, hcmd]
  subst hlen0
  have hopen : openDev findDev s fname = devTransfer s devPtr info cmdOff 0 := by
    simp only [openDev, hw, hcmd, hfind, hptr, hrw, ne_eq, not_true_eq_false, and_false, if_false]
  obtain ⟨write, hwrite, hacc⟩ := fpgaCodec_write_within { s with
    ptr := devPtr.toNat + 4 * cmdOff.toNat,
    nleft := ((4 * (info.length.toNat / 4 - cmdOff.toNat) : Nat) : Int) } hw (by simp)
  refine ⟨_, _, write, by rw [hopen, devTransfer_write hw hdev hlen hoff], hwrite,
    fun calls m => (hacc calls m).mono (by simp) ?_⟩
  simp only [Int.toNat_ofNat]
  omega

/-- `PUT /dev/A` writes only the one word of `A`. -/
theorem openDev_put_within_oneWord :
    (⟨true, true, 0, 0, 0, 0⟩ : TapcpState).write = true ∧
    devCommand true (ascii "/dev/A") = (ascii "A", 0, 0) ∧
    catalogA (ascii "A") = some (0x1000, ⟨0x1000, 4⟩) ∧ (0x1000 : UInt32) ≠ 0 ∧
    (⟨0x1000, 4⟩ : DevInfo).offset &&& 1 = 0 ∧
    (0 : UInt32).toNat < (⟨0x1000, 4⟩ : DevInfo).length.toNat / 4 ∧
    (0x1000 : UInt32).toNat + (⟨0x1000, 4⟩ : DevInfo).length.toNat ≤ 2 ^ 32 ∧
    (⟨0x1000, 4⟩ : DevInfo).length.toNat < 2 ^ 31 ∧
    ∃ s' cb write, openDev catalogA ⟨true, true, 0, 0, 0, 0⟩ (ascii "/dev/A") = some (s', cb) ∧
      cb.writer = some write ∧ ∀ (calls : List Chain) (m : Machine),
        AccessesWithin (0x1000 : UInt32).toNat
          ((0x1000 : UInt32).toNat + (⟨0x1000, 4⟩ : DevInfo).length.toNat) m.log
          (settled (runWrites write calls s' m)).2.log := by
  have hcmd : devCommand true (ascii "/dev/A") = (ascii "A", 0, 0) := by decide
  have hfind : catalogA (ascii "A") = some (0x1000, ⟨0x1000, 4⟩) := by decide
  have hrw : (⟨0x1000, 4⟩ : DevInfo).offset &&& 1 = 0 := by decide
  have hoff : (0 : UInt32).toNat < (⟨0x1000, 4⟩ : DevInfo).length.toNat / 4 := by decide
  have hdev : (0x1000 : UInt32).toNat + (⟨0x1000, 4⟩ : DevInfo).length.toNat ≤ 2 ^ 32 := by decide
  have hlen : (⟨0x1000, 4⟩ : DevInfo).length.toNat < 2 ^ 31 := by decide
  have hptr : (0x1000 : UInt32) ≠ 0 := by decide
  exact ⟨rfl, hcmd, hfind, hptr, hrw, hoff, hdev, hlen,
    openDev_put_within catalogA ⟨true, true, 0, 0, 0, 0⟩ _ rfl hcmd hfind hptr hrw hoff hdev hlen⟩

/-- A write that `casper_tapcp_open_mem` opens on the FPGA window, smaller than 2 GiB, at an
offset within it, is accepted and stores only within the window, in any cut of the transfer
into calls and pbufs. -/
theorem openMem_put_within (w : FpgaWindow) (s : TapcpState) (fname : List UInt8)
    {cmdOff cmdLen : UInt32} (hw : s.write = true) (hfpga : fname.take 6 = ascii "/fpga.")
    (hcmd : memCommand true (fname.drop 6) = some (cmdOff, cmdLen))
    (hoff : cmdOff.toNat < w.nbytes.toNat) (hlen : w.nbytes.toNat < 2 ^ 31) :
    ∃ s' cb write, openMem w s fname = some (s', cb) ∧ cb.writer = some write ∧
      ∀ (calls : List Chain) (m : Machine),
        AccessesWithin w.base.toNat (w.base.toNat + w.nbytes.toNat) m.log
          (settled (runWrites write calls s' m)).2.log := by
  have hopen : openMem w s fname = memTransfer w s w.base w.nbytes cmdOff cmdLen := by
    simp only [openMem, memTarget, hfpga, if_true, hw, hcmd]
  obtain ⟨write, hwrite, hacc⟩ := fpgaCodec_write_within { s with
    ptr := w.base.toNat + cmdOff.toNat, nleft := ((w.nbytes.toNat - cmdOff.toNat : Nat) : Int) }
    hw (by simp)
  refine ⟨_, _, write, by rw [hopen, memTransfer_write hw hoff hlen], hwrite,
    fun calls m => (hacc calls m).mono (by simp) ?_⟩
  simp only [Int.toNat_ofNat]
  omega

/-- `PUT /fpga.10` writes only within the window. -/
theorem openMem_put_within_atTen :
    (⟨true, true, 0, 0, 0, 0⟩ : TapcpState).write = true ∧
    (ascii "/fpga.10").take 6 = ascii "/fpga." ∧
    memCommand true ((ascii "/fpga.10").drop 6) = some (0x10, 4) ∧
    (0x10 : UInt32).toNat < windowA.nbytes.toNat ∧ windowA.nbytes.toNat < 2 ^ 31 ∧
    ∃ s' cb write, openMem windowA ⟨true, true, 0, 0, 0, 0⟩ (ascii "/fpga.10") = some (s', cb) ∧
      cb.writer = some write ∧ ∀ (calls : List Chain) (m : Machine),
        AccessesWithin windowA.base.toNat (windowA.base.toNat + windowA.nbytes.toNat) m.log
          (settled (runWrites write calls s' m)).2.log := by
  have hfpga : (ascii "/fpga.10").take 6 = ascii "/fpga." := by decide
  have hcmd : memCommand true ((ascii "/fpga.10").drop 6) = some (0x10, 4) := by decide
  have hoff : (0x10 : UInt32).toNat < windowA.nbytes.toNat := by decide
  have hlen : windowA.nbytes.toNat < 2 ^ 31 := by decide
  exact ⟨rfl, hfpga, hcmd, hoff, hlen,
    openMem_put_within windowA ⟨true, true, 0, 0, 0, 0⟩ _ rfl hfpga hcmd hoff hlen⟩

/-! ### When a field wraps -/

/-- `PUT /dev/A.2` in octet mode opens a write at `0x1008`, past the one-word device, with
`nleft = -4`, no bound; the binary writer then stores there. `PUT /fpga.1004` opens one at
`0x2004`, past the window, with `nleft = -4` as well. -/
theorem openDev_put_past_end :
    openDev catalogA ⟨true, true, 0, 0, 0, 0⟩ (ascii "/dev/A.2") =
      some (⟨true, true, 0x1008, -4, 0, 0⟩, .writeFpgaWordsBinary) ∧
    (runWrites writeFpgaWordsBinary [[[1, 2, 3, 4]]] ⟨true, true, 0x1008, -4, 0, 0⟩
      zeroMachine).toOption.map (·.2.log) = some [.fpgaStore 0x1008 0x01020304] ∧
    openMem windowA ⟨true, true, 0, 0, 0, 0⟩ (ascii "/fpga.1004") =
      some (⟨true, true, 0x2004, -4, 0, 0⟩, .writeFpgaWordsBinary) := by
  decide

/-- `GET /dev/A.FFFFFFFF.1` passes the bound check, `0xFFFFFFFF + 1` being 0 modulo `2^32`, and
opens a read of the word at `0xFFC`, below the device, which the binary reader then loads. -/
theorem openDev_get_wraps :
    openDev catalogA ⟨false, true, 0, 0, 0, 0⟩ (ascii "/dev/A.FFFFFFFF.1") =
      some (⟨false, true, 0xFFC, 4, 0, 0⟩, .readFpgaWordsBinary) ∧
    (runReads readFpgaWordsBinary [4] ⟨false, true, 0xFFC, 4, 0, 0⟩ zeroMachine).2.2.log =
      [.fpgaLoad 0xFFC] := by
  decide

/-- `GET /fpga.FFFFFFFC.4` passes the window's bound check, `0xFFFFFFFC + 4` being 0 modulo
`2^32`, and opens a read of the word at `0xFFC`, below the window. -/
theorem openMem_get_wraps :
    openMem windowA ⟨false, true, 0, 0, 0, 0⟩ (ascii "/fpga.FFFFFFFC.4") =
      some (⟨false, true, 0xFFC, 4, 0, 0⟩, .readFpgaWordsBinary) := by
  decide

end CasperTapcp

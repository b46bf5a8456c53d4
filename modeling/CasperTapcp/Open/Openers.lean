import CasperTapcp.Platform.Machine

/-!
# The openers of the device and memory files

`casper_tapcp_open_dev` and `casper_tapcp_open_mem` turn a TFTP filename into a transfer: they
parse the offset and length fields with `hex_to_u32` (`devCommand`, `memCommand`), check the
request against the device or the FPGA window, set `ptr` and `nleft`, and register the codec for
the direction and mode (`devTransfer`, `memTransfer`). A `NULL` return is `none`.
`casper_tapcp_open_help` sets up the help text.

The checks hold while nothing wraps: a read accepted with `OFF + LEN` below `2^32` lies within
the device or the window (`devTransfer_read_within`, `memTransfer_read_within`), and a write at an
offset within it has the rest of it as its budget (`devTransfer_write`, `memTransfer_write`).

All the arithmetic is the source's 32-bit arithmetic: the word counts and offsets are
`uint32_t`, the device pointer is a 32-bit address, and `nleft` is the `int` the `uint32_t`
byte count converts to (`u32ToInt`). `casper_find_dev`, which looks a name up in the core's
device catalog, is not part of the source; it is a parameter, returning the device's address and
its `struct casper_dev_info`, or nothing for a name it does not find. The opener takes an address
of 0, NULL, as a device not found too. The FPGA window `[FPGA_BASEADDR, FPGA_HIGHADDR]` is a parameter
too, a `FpgaWindow`.
-/

set_option autoImplicit false
set_option relaxedAutoImplicit false

namespace CasperTapcp

/-- The read or write callback an opener registers with the TFTP server. -/
inductive Callback
  | readFpgaWordsBinary
  | readFpgaWordsAscii
  | readMemBytesBinary
  | readMemBytesAscii
  | writeFpgaWordsBinary
  | writeFpgaWordsAscii
  | readHelp
  deriving DecidableEq, Repr

/-- `struct casper_dev_info` as `casper_find_dev` fills it in: the device's `offset` word, whose
low bit marks the device read-only, and its `length` in bytes. -/
structure DevInfo where
  offset : UInt32
  length : UInt32
  deriving DecidableEq, Repr

/-- The FPGA address window `[FPGA_BASEADDR, FPGA_HIGHADDR]` of the build. -/
structure FpgaWindow where
  base : UInt32
  high : UInt32
  base_le_high : base ≤ high

/-- `FPGA_NBYTES`, `FPGA_HIGHADDR - FPGA_BASEADDR + 1` in 32-bit arithmetic. -/
def FpgaWindow.nbytes (w : FpgaWindow) : UInt32 := w.high - w.base + 1

/-- The bytes of a string of ASCII characters. -/
def ascii (s : String) : List UInt8 := s.toList.map fun c => UInt8.ofNat c.toNat

/-- The byte `'.'`, which separates a name from its offset and its offset from its length. -/
def dot : UInt8 := 46

/-- The codec an opener registers for an FPGA transfer: the word codecs, in the direction and
mode of the transfer; the text codecs start with `lidx` and `u32` cleared, the binary writer
with its byte count `u32` cleared. -/
def fpgaCodec (s : TapcpState) : TapcpState × Callback :=
  if s.write = false then
    if s.binary then (s, .readFpgaWordsBinary)
    else ({ s with lidx := 0, u32 := 0 }, .readFpgaWordsAscii)
  else if s.binary then ({ s with u32 := 0 }, .writeFpgaWordsBinary)
  else ({ s with lidx := 0, u32 := 0 }, .writeFpgaWordsAscii)

/-- The codec `casper_tapcp_open_mem` registers for a read of CPU memory: the byte codecs. -/
def memCodec (s : TapcpState) : TapcpState × Callback :=
  if s.binary then (s, .readMemBytesBinary)
  else ({ s with lidx := 0, u32 := 0 }, .readMemBytesAscii)

/-! ### `casper_tapcp_open_dev` -/

/-- The "command line" of `casper_tapcp_open_dev`: after a leading `/dev/`, the device name up to
the first `'.'` and, when bytes follow the `'.'`, the offset read from them and, on a read, the
length read after the byte the offset stops at; 0 where absent. -/
def devCommand (write : Bool) (fname : List UInt8) : List UInt8 × UInt32 × UInt32 :=
  let fname := if fname.take 5 = ascii "/dev/" then fname.drop 5 else fname
  let name := fname.takeWhile (· ≠ dot)
  let mem : Nat → UInt8 := fun i => (fname.drop (name.length + 1)).getD i 0
  if dot ∈ fname ∧ mem 0 ≠ 0 then
    let (p, cmdOff) := hexToU32 mem 0 0
    (name, cmdOff, if write = false ∧ mem p ≠ 0 then (hexToU32 mem (p + 1) 0).2 else 0)
  else (name, 0, 0)

/-- The word count of a device request: the length given or, when it is 0, the rest of the
device from the offset, `(length >> 2) - OFF` in 32-bit arithmetic. -/
def devLength (info : DevInfo) (cmdOff cmdLen : UInt32) : UInt32 :=
  if cmdLen = 0 then (info.length >>> 2) - cmdOff else cmdLen

/-- The rest of `casper_tapcp_open_dev` once the device is found and may be accessed: an empty
rest of the device is refused, a read must end within the device, and the transfer starts
`OFF << 2` bytes into the device with `nleft = LEN << 2`. -/
def devTransfer (s : TapcpState) (devPtr : UInt32) (info : DevInfo) (cmdOff cmdLen : UInt32) :
    Option (TapcpState × Callback) :=
  let cmdLen := devLength info cmdOff cmdLen
  if cmdLen = 0 then none
  else if s.write = false ∧ cmdOff + cmdLen > info.length >>> 2 then none
  else
    some (fpgaCodec
      { s with ptr := (devPtr + (cmdOff <<< 2)).toNat, nleft := u32ToInt (cmdLen <<< 2) })

/-- `casper_tapcp_open_dev(state, fname)` for `[/dev/]NAME[.OFF[.LEN]]`: the device is looked up
by its name, and a NULL device pointer is refused as a device not found; a write to a read-only
device is refused, and the request is checked and set up. The source parses the offset and length
after the lookup; the parse reads nothing else, so it is done first here. -/
def openDev (findDev : List UInt8 → Option (UInt32 × DevInfo)) (s : TapcpState)
    (fname : List UInt8) : Option (TapcpState × Callback) :=
  let (name, cmdOff, cmdLen) := devCommand s.write fname
  match findDev name with
  | none => none
  | some (devPtr, info) =>
    if devPtr = 0 then none
    else if s.write = true ∧ info.offset &&& 1 ≠ 0 then none
    else devTransfer s devPtr info cmdOff cmdLen

/-! ### `casper_tapcp_open_mem` -/

/-- The names `casper_tapcp_open_mem` takes: `/fpga.` with the FPGA window's base and size and,
on reads only, `/cpu.` with base 0 and no size; the rest of the name. -/
def memTarget (w : FpgaWindow) (write : Bool) (fname : List UInt8) :
    Option (List UInt8 × UInt32 × UInt32) :=
  if fname.take 6 = ascii "/fpga." then some (fname.drop 6, w.base, w.nbytes)
  else if write = false ∧ fname.take 5 = ascii "/cpu." then some (fname.drop 5, 0, 0)
  else none

/-- The "command line" of `casper_tapcp_open_mem`: the offset, which is required, and on a read
the length after the byte the offset stops at, 1 by default; the offset rounded down and the
length up to a multiple of 4. -/
def memCommand (write : Bool) (args : List UInt8) : Option (UInt32 × UInt32) :=
  let mem : Nat → UInt8 := fun i => args.getD i 0
  if mem 0 = 0 then none
  else
    let (p, cmdOff) := hexToU32 mem 0 0
    let cmdLen : UInt32 := if write = false ∧ mem p ≠ 0 then (hexToU32 mem (p + 1) 1).2 else 1
    some (cmdOff &&& ~~~3, (cmdLen + 3) &&& ~~~3)

/-- The rest of `casper_tapcp_open_mem`: a read must be non-empty and, in the FPGA window, end
within it; `ptr` is the base plus the offset, and `nleft` the length on a read or, on a write,
`FPGA_NBYTES` minus the offset. -/
def memTransfer (w : FpgaWindow) (s : TapcpState) (baseaddr nbytes cmdOff cmdLen : UInt32) :
    Option (TapcpState × Callback) :=
  if s.write = false ∧ cmdLen = 0 then none
  else if s.write = false ∧ baseaddr = w.base ∧ cmdOff + cmdLen > nbytes then none
  else
    let s : TapcpState :=
      { s with ptr := (baseaddr + cmdOff).toNat,
               nleft := if s.write then u32ToInt (w.nbytes - cmdOff) else u32ToInt cmdLen }
    some (if s.write = false ∧ baseaddr ≠ w.base then memCodec s else fpgaCodec s)

/-- `casper_tapcp_open_mem(state, fname)` for `/fpga.OFF[.LEN]` and, on reads, `/cpu.OFF[.LEN]`. -/
def openMem (w : FpgaWindow) (s : TapcpState) (fname : List UInt8) :
    Option (TapcpState × Callback) :=
  match memTarget w s.write fname with
  | none => none
  | some (args, baseaddr, nbytes) =>
    match memCommand s.write args with
    | none => none
    | some (cmdOff, cmdLen) => memTransfer w s baseaddr nbytes cmdOff cmdLen

/-! ### `casper_tapcp_open_help` -/

/-- `tapcp_help_msg`, without the NUL that ends it. -/
def tapcpHelpMsg : List UInt8 :=
  ascii ("Available TAPCP commands:\n" ++
    "  /help    - this message\n" ++
    "  /listdev - list FPGA device info\n" ++
    "  /temp    - get FPGA temperature\n" ++
    "  [/dev/]DEVNAME[.OFFSET[.LENGTH]] - access DEVNAME\n" ++
    "  /fpga.OFFSET[.LENGTH] - access FPGA memory space\n" ++
    "  /cpu.OFFSET[.LENGTH]  - access CPU memory space\n")

/-- `casper_tapcp_open_help(state)`: the help text at `helpMsg`, the address of `tapcp_help_msg`,
with `nleft = sizeof(tapcp_help_msg) - 1`. -/
def openHelp (helpMsg : Nat) (s : TapcpState) : TapcpState × Callback :=
  ({ s with ptr := helpMsg, nleft := tapcpHelpMsg.length }, .readHelp)

/-! ### What the checks guarantee -/

@[simp] theorem fpgaCodec_ptr (s : TapcpState) : (fpgaCodec s).1.ptr = s.ptr := by
  unfold fpgaCodec; split_ifs <;> rfl

@[simp] theorem fpgaCodec_nleft (s : TapcpState) : (fpgaCodec s).1.nleft = s.nleft := by
  unfold fpgaCodec; split_ifs <;> rfl

/-- A read registers one of the two FPGA readers. -/
theorem fpgaCodec_read {s : TapcpState} (hr : s.write = false) :
    (fpgaCodec s).2 = .readFpgaWordsBinary ∨ (fpgaCodec s).2 = .readFpgaWordsAscii := by
  unfold fpgaCodec
  split_ifs <;> simp_all

/-- A write registers one of the two FPGA writers, with its count `u32` cleared. -/
theorem fpgaCodec_write {s : TapcpState} (hw : s.write = true) :
    (fpgaCodec s).1.u32 = 0 ∧
      ((fpgaCodec s).2 = .writeFpgaWordsBinary ∨ (fpgaCodec s).2 = .writeFpgaWordsAscii) := by
  unfold fpgaCodec
  split_ifs <;> simp_all

theorem FpgaWindow.base_add_nbytes_le (w : FpgaWindow) : w.base.toNat + w.nbytes.toNat ≤ 2 ^ 32 := by
  have hb : w.base.toNat ≤ w.high.toNat := w.base_le_high
  have hh := w.high.toNat_lt_size
  simp only [FpgaWindow.nbytes, toNat_u32_add, toNat_u32_sub, show (1 : UInt32).toNat = 1 from rfl]
  simp only [UInt32.size] at hh
  omega

/-- On a write no length is parsed. -/
theorem devCommand_write (fname : List UInt8) : (devCommand true fname).2.2 = 0 := by
  simp only [devCommand, Bool.true_eq_false, false_and, if_false]
  split_ifs <;> rfl

/-- What `casper_tapcp_open_dev` sets up once the request passes its checks: the FPGA codec from
`OFF << 2` bytes into the device, with `nleft = LEN << 2`. -/
theorem devTransfer_eq_some {s : TapcpState} {devPtr : UInt32} {info : DevInfo}
    {cmdOff cmdLen : UInt32} {x : TapcpState × Callback}
    (h : devTransfer s devPtr info cmdOff cmdLen = some x) :
    x = fpgaCodec { s with ptr := (devPtr + (cmdOff <<< 2)).toNat,
                           nleft := u32ToInt (devLength info cmdOff cmdLen <<< 2) } := by
  simp only [devTransfer] at h
  split_ifs at h
  exact (Option.some.inj h).symm

/-- The read check of `casper_tapcp_open_dev` is sound as long as `OFF + LEN` does not wrap: a
read it opens lies within the device. -/
theorem devTransfer_read_within {s s' : TapcpState} {cb : Callback} {devPtr : UInt32}
    {info : DevInfo} {cmdOff cmdLen : UInt32} (hr : s.write = false)
    (hdev : devPtr.toNat + info.length.toNat ≤ 2 ^ 32)
    (hwrap : cmdOff.toNat + (devLength info cmdOff cmdLen).toNat < 2 ^ 32)
    (h : devTransfer s devPtr info cmdOff cmdLen = some (s', cb)) :
    devPtr.toNat ≤ s'.ptr ∧ s'.ptr + s'.nleft.toNat ≤ devPtr.toNat + info.length.toNat := by
  simp only [devTransfer, hr, true_and] at h
  split_ifs at h with h0 hchk
  obtain rfl : (fpgaCodec _).1 = s' := congrArg Prod.fst (Option.some.inj h)
  rw [u32_eq_iff_toNat] at h0
  rw [gt_iff_lt, u32_lt_iff, toNat_u32_add, toNat_u32_shiftRight_two] at hchk
  have hn := u32ToInt_le (devLength info cmdOff cmdLen <<< 2)
  rw [toNat_u32_shiftLeft_two] at hn
  simp only [fpgaCodec_ptr, fpgaCodec_nleft, toNat_u32_add, toNat_u32_shiftLeft_two]
  simp only [show (0 : UInt32).toNat = 0 from rfl] at h0
  omega

/-- A device write at an offset within the device starts there, with the rest of the device as
its budget, when the device is smaller than 2 GiB and ends within the address space. -/
theorem devTransfer_write {s : TapcpState} {devPtr : UInt32} {info : DevInfo} {cmdOff : UInt32}
    (hw : s.write = true) (hdev : devPtr.toNat + info.length.toNat ≤ 2 ^ 32)
    (hlen : info.length.toNat < 2 ^ 31) (hoff : cmdOff.toNat < info.length.toNat / 4) :
    devTransfer s devPtr info cmdOff 0 =
      some (fpgaCodec { s with ptr := devPtr.toNat + 4 * cmdOff.toNat,
                               nleft := ((4 * (info.length.toNat / 4 - cmdOff.toNat) : Nat) : Int) }) := by
  have hrest : ((info.length >>> 2) - cmdOff).toNat = info.length.toNat / 4 - cmdOff.toNat := by
    rw [toNat_u32_sub, toNat_u32_shiftRight_two]
    omega
  have hn : ((info.length >>> 2) - cmdOff) ≠ 0 := by
    rw [Ne, u32_eq_iff_toNat, hrest]
    simp only [show (0 : UInt32).toNat = 0 from rfl]
    omega
  have hp : (devPtr + (cmdOff <<< 2)).toNat = devPtr.toNat + 4 * cmdOff.toNat := by
    rw [toNat_u32_add, toNat_u32_shiftLeft_two]
    omega
  have hl : u32ToInt (((info.length >>> 2) - cmdOff) <<< 2) =
      ((4 * (info.length.toNat / 4 - cmdOff.toNat) : Nat) : Int) := by
    rw [u32ToInt_of_lt] <;> rw [toNat_u32_shiftLeft_two, hrest] <;> omega
  simp only [devTransfer, devLength, if_true, hn, if_false, hw, Bool.true_eq_false, false_and, hp,
    hl]

/-- The offset and the length `casper_tapcp_open_mem` parses are multiples of 4. -/
theorem memCommand_words {write : Bool} {args : List UInt8} {cmdOff cmdLen : UInt32}
    (h : memCommand write args = some (cmdOff, cmdLen)) :
    cmdOff.toNat % 4 = 0 ∧ cmdLen.toNat % 4 = 0 := by
  simp only [memCommand] at h
  split_ifs at h <;> obtain ⟨rfl, rfl⟩ := Prod.mk.inj (Option.some.inj h) <;>
    exact ⟨toNat_u32_and_not_3 _, toNat_u32_and_not_3 _⟩

/-- What `casper_tapcp_open_mem` sets up for a read of the FPGA window that passes its checks. -/
theorem memTransfer_read_eq_some {w : FpgaWindow} {s : TapcpState} {cmdOff cmdLen : UInt32}
    {x : TapcpState × Callback} (hr : s.write = false)
    (h : memTransfer w s w.base w.nbytes cmdOff cmdLen = some x) :
    x = fpgaCodec { s with ptr := (w.base + cmdOff).toNat, nleft := u32ToInt cmdLen } := by
  simp only [memTransfer, hr, true_and, ne_eq, not_true_eq_false, and_false, if_false,
    Bool.false_eq_true] at h
  split_ifs at h
  simpa only [hr] using (Option.some.inj h).symm

/-- The read check of `casper_tapcp_open_mem` on the FPGA window is sound as long as `OFF + LEN`
does not wrap: a read it opens lies within the window. -/
theorem memTransfer_read_within {w : FpgaWindow} {s s' : TapcpState} {cb : Callback}
    {cmdOff cmdLen : UInt32} (hr : s.write = false)
    (hwrap : cmdOff.toNat + cmdLen.toNat < 2 ^ 32)
    (h : memTransfer w s w.base w.nbytes cmdOff cmdLen = some (s', cb)) :
    w.base.toNat ≤ s'.ptr ∧ s'.ptr + s'.nleft.toNat ≤ w.base.toNat + w.nbytes.toNat := by
  have hwin := w.base_add_nbytes_le
  have hx := memTransfer_read_eq_some hr h
  simp only [memTransfer, hr, true_and, ne_eq, not_true_eq_false, and_false, if_false,
    Bool.false_eq_true] at h
  split_ifs at h with h0 hchk
  obtain rfl : (fpgaCodec _).1 = s' := congrArg Prod.fst hx.symm
  rw [u32_eq_iff_toNat] at h0
  rw [gt_iff_lt, u32_lt_iff, toNat_u32_add] at hchk
  have hn := u32ToInt_le cmdLen
  simp only [fpgaCodec_ptr, fpgaCodec_nleft, toNat_u32_add]
  simp only [show (0 : UInt32).toNat = 0 from rfl] at h0
  omega

/-- A non-empty read that fits in the FPGA window, on a window smaller than 2 GiB, passes the
checks and starts at `FPGA_BASEADDR + OFF`, with `LEN` as its budget. -/
theorem memTransfer_read {w : FpgaWindow} {s : TapcpState} {cmdOff cmdLen : UInt32}
    (hr : s.write = false) (hlen : 0 < cmdLen.toNat)
    (hfit : cmdOff.toNat + cmdLen.toNat ≤ w.nbytes.toNat) (hsmall : w.nbytes.toNat < 2 ^ 31) :
    memTransfer w s w.base w.nbytes cmdOff cmdLen =
      some (fpgaCodec { s with ptr := w.base.toNat + cmdOff.toNat,
                               nleft := (cmdLen.toNat : Int) }) := by
  have hwin := w.base_add_nbytes_le
  have h0 : cmdLen ≠ 0 := fun h => by rw [h] at hlen; exact absurd hlen (by decide)
  have hchk : ¬ cmdOff + cmdLen > w.nbytes := by
    rw [gt_iff_lt, u32_lt_iff, toNat_u32_add]
    omega
  have hp : (w.base + cmdOff).toNat = w.base.toNat + cmdOff.toNat := by
    rw [toNat_u32_add]
    omega
  simp only [memTransfer, hr, h0, hchk, hp, u32ToInt_of_lt (show cmdLen.toNat < 2 ^ 31 by omega),
    true_and, and_true, and_false, if_false, ne_eq, not_true_eq_false, Bool.false_eq_true]

/-- A write to the FPGA window at an offset within it starts there, with the rest of the window
as its budget, when the window is smaller than 2 GiB. -/
theorem memTransfer_write {w : FpgaWindow} {s : TapcpState} {cmdOff cmdLen : UInt32}
    (hw : s.write = true) (hoff : cmdOff.toNat < w.nbytes.toNat) (hlen : w.nbytes.toNat < 2 ^ 31) :
    memTransfer w s w.base w.nbytes cmdOff cmdLen =
      some (fpgaCodec { s with ptr := w.base.toNat + cmdOff.toNat,
                               nleft := (w.nbytes.toNat - cmdOff.toNat : Nat) }) := by
  have hwin := w.base_add_nbytes_le
  have hp : (w.base + cmdOff).toNat = w.base.toNat + cmdOff.toNat := by
    rw [toNat_u32_add]
    omega
  have hl : u32ToInt (w.nbytes - cmdOff) = ((w.nbytes.toNat - cmdOff.toNat : Nat) : Int) := by
    rw [u32ToInt_of_lt] <;> rw [toNat_u32_sub] <;> omega
  simp only [memTransfer, hw, Bool.true_eq_false, false_and, if_false, if_true, hp, hl, ne_eq,
    not_true_eq_false, and_false]

end CasperTapcp

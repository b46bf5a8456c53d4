import CasperTapcp.Read.HexDump
import CasperTapcp.Read.CpuBytes
import CasperTapcp.Open.Openers

/-!
# The device listing

`casper_tapcp_read_listdev_ascii` lists the devices of the core_info CSL, one line each: the
name, TAB, `'1'` when the low bit of the offset word is set and `'3'` otherwise, TAB, the offset
with its two low bits cleared, the length and the type in minimal-width hex separated by TABs,
and `'\n'`. It builds each line in `line_buf` and copies it out across calls, keeping its place
in `lidx`, which is `-1` before the first call, and in the CSL iterator.

The CSL library (`csl_iter_init`, `csl_iter_next`) is not part of the source. The entries of the
CSL at an address are a parameter, `csl`, each a `CslEntry` with the name and the payload
`csl_iter_next` returns, and the iterator is the list of the entries it has not returned yet,
carried beside the machine by the engine (`runListdev`).

A catalog is a list of `DevEntry`s, whose names have at most 255 bytes and no NUL or `'\n'`, and
`listdevText` is its listing in the words of the read format. The line the reader builds for a
device is the device's line of the listing (`listdevLine_csl`) and fits in `line_buf`
(`length_line_le`). Between iterations of the loop the reader is described by `ListdevAt`: what
is left to send is the rest of the line in `line_buf` and the lines of the devices the iterator
still holds. One iteration sends a whole line or the part of it the request takes
(`listdevLoop_spec`), so in any schedule of requests the calls return the listing cut at the
request sizes (`readListdevAscii_listing`).
-/

set_option autoImplicit false
set_option relaxedAutoImplicit false

namespace CasperTapcp

/-! ### The reader -/

/-- The byte `'\t'`, which separates the fields of a line of the listing. -/
def tab : UInt8 := 9

/-- An entry of a CSL as `csl_iter_next` returns it: the name, a NUL-terminated string, and the
payload. -/
structure CslEntry where
  name : List UInt8
  payload : List UInt8
  deriving DecidableEq, Repr

/-- `n = (*payload++ & 0xff) << 24; n |= (*payload++ & 0xff) << 16; ...`: the word of the first
four bytes of the payload, the first the most significant. -/
def payloadWord (payload : List UInt8) : UInt32 :=
  (((payload.getD 0 0).toUInt32 &&& 0xff) <<< 24) |||
    (((payload.getD 1 0).toUInt32 &&& 0xff) <<< 16) |||
    (((payload.getD 2 0).toUInt32 &&& 0xff) <<< 8) |||
    ((payload.getD 3 0).toUInt32 &&& 0xff)

/-- The line `casper_tapcp_read_listdev_ascii` builds in `line_buf` for an entry: the name up to
its NUL, TAB, `'1'` if the low bit of the offset word is set and `'3'` otherwise, TAB, the offset
word with its two low bits cleared, TAB, the length word, TAB, the type byte, each through
`u32_to_hex` with `do_zeros` clear, and `'\n'`. -/
def listdevLine (e : CslEntry) : List UInt8 :=
  let o := payloadWord e.payload
  let l := payloadWord (e.payload.drop 4)
  e.name.takeWhile (· ≠ 0) ++ [tab, if o &&& 1 ≠ 0 then 49 else 51, tab] ++
    u32ToHex (o &&& ~~~3) 0 ++ [tab] ++ u32ToHex l 0 ++ [tab] ++
    u32ToHex (e.payload.getD 8 0).toUInt32 0 ++ [lf]

/-- The start of an iteration of the loop of `casper_tapcp_read_listdev_ascii`: at `lidx = 0`
the line of the next entry is built in `line_buf`, or the call ends when the iterator has no
entry left. -/
def listdevNext (s : TapcpState) (m : Machine) (it : List CslEntry) :
    Option (Machine × List CslEntry) :=
  if s.lidx = 0 then
    match it with
    | [] => none
    | e :: it => some (m.writeLine (listdevLine e), it)
  else some (m, it)

/-- `while(len < bytes)` of `casper_tapcp_read_listdev_ascii`: a line is started when `lidx` is
0, then copied out from `lidx`. `n` is the bytes still requested; `fuel` bounds the iterations,
each of which but the last sends at least one byte. -/
def listdevLoop : (fuel n : Nat) → TapcpState → Machine → List CslEntry →
    List UInt8 × TapcpState × Machine × List CslEntry
  | 0, _, s, m, it => ([], s, m, it)
  | fuel + 1, n, s, m, it =>
    if 0 < n then
      match listdevNext s m it with
      | none => ([], s, m, it)
      | some (m, it) =>
        let (out, lidx) := copyLine m.lineBuf n s.lidx.toNat
        let (rest, s, m, it) := listdevLoop fuel (n - out.length) { s with lidx := lidx } m it
        (out ++ rest, s, m, it)
    else ([], s, m, it)

/-- `casper_tapcp_read_listdev_ascii(state, buf, bytes)`: on the first call, `lidx = -1`, the
iterator is started on the CSL at `ptr`. The bytes sent, and the state, the machine and the
iterator after the call. -/
def readListdevAscii (csl : Nat → List CslEntry) (s : TapcpState) (m : Machine)
    (it : List CslEntry) (bytes : Nat) : List UInt8 × TapcpState × Machine × List CslEntry :=
  let (s, it) := if s.lidx = -1 then ({ s with lidx := 0 }, csl s.ptr) else (s, it)
  listdevLoop bytes bytes s m it

/-- The engine asking the listdev reader for each request size in turn; each call's bytes. -/
def runListdev (csl : Nat → List CslEntry) : List Nat → TapcpState → Machine → List CslEntry →
    List (List UInt8) × TapcpState × Machine × List CslEntry
  | [], s, m, it => ([], s, m, it)
  | n :: sizes, s, m, it =>
    let (out, s, m, it) := readListdevAscii csl s m it n
    let (outs, s, m, it) := runListdev csl sizes s m it
    (out :: outs, s, m, it)

/-- `Xil_Ntohs(_core_info_size_be)`: the length of the core_info CSL, stored in network order in
`_core_info_size_be`, the two bytes just below `CORE_INFO`, from which the octet-mode read
starts. -/
def coreInfoSize (m : Machine) (coreInfo : UInt32) : Nat :=
  (m.cpuByte (coreInfo - 2).toNat).toNat * 256 + (m.cpuByte (coreInfo - 1).toNat).toNat

/-- `casper_tapcp_open_listdev(state)` with the core_info CSL at `CORE_INFO`, `coreInfo`: in
octet mode the CSL itself, its length first, through the binary reader of CPU bytes; in text mode
the listing, from its first line, through `casper_tapcp_read_listdev_ascii`, which is not a
`Callback` since its calls carry the CSL iterator, and stands as `none`. -/
def openListdev (coreInfo : UInt32) (s : TapcpState) (m : Machine) : TapcpState × Option Callback :=
  if s.binary then
    ({ s with ptr := (coreInfo - 2).toNat, nleft := coreInfoSize m coreInfo + 2 },
      some .readMemBytesBinary)
  else ({ s with ptr := coreInfo.toNat, lidx := -1 }, none)

/-! ### The listing -/

/-- A device of the catalog: its name, of at most 255 bytes with no NUL or `'\n'`, its offset
word, whose low bit marks it read-only, its length word and its type byte. -/
structure DevEntry where
  name : List UInt8
  offset : UInt32
  length : UInt32
  type : UInt8
  name_length_le : name.length ≤ 255
  zero_not_mem : 0 ∉ name
  lf_not_mem : lf ∉ name

/-- The device's entry in the core_info CSL: its name, and the offset and the length in network
order followed by the type byte. -/
def DevEntry.csl (d : DevEntry) : CslEntry :=
  ⟨d.name, beBytes d.offset ++ beBytes d.length ++ [d.type]⟩

/-- The device's line of the listing: the name, TAB, `'1'` if `offset & 1` and `'3'` otherwise,
TAB, `offset & ~3`, TAB, the length, TAB, the type, each in minimal-width uppercase hex, and
`'\n'`. -/
def DevEntry.line (d : DevEntry) : List UInt8 :=
  d.name ++ [tab, if d.offset &&& 1 ≠ 0 then 49 else 51, tab] ++ hexMin (d.offset &&& ~~~3).toNat ++
    [tab] ++ hexMin d.length.toNat ++ [tab] ++ hexMin d.type.toNat ++ [lf]

/-- The listing of a catalog: the lines of its devices, in catalog order. -/
def listdevText (cat : List DevEntry) : List UInt8 := cat.flatMap DevEntry.line

/-! ### The line of a device -/

theorem payloadWord_cons (b₀ b₁ b₂ b₃ : UInt8) (rest : List UInt8) :
    payloadWord (b₀ :: b₁ :: b₂ :: b₃ :: rest) = beValue b₀ b₁ b₂ b₃ := by
  have h₀ := b₀.toNat_lt_size
  have h₁ := b₁.toNat_lt_size
  have h₂ := b₂.toNat_lt_size
  have h₃ := b₃.toNat_lt_size
  simp only [UInt8.size] at h₀ h₁ h₂ h₃
  have hA : ((b₀.toUInt32 &&& 0xff) <<< 24).toNat = b₀.toNat * 16777216 := by
    rw [toNat_u32_shiftLeft, toNat_u32_and_255, toNat_u8_toUInt32,
      show (24 : UInt32).toNat = 24 from rfl]
    simp only [Nat.reduceMod, Nat.reducePow]
    omega
  have hB : ((b₁.toUInt32 &&& 0xff) <<< 16).toNat = b₁.toNat * 65536 := by
    rw [toNat_u32_shiftLeft, toNat_u32_and_255, toNat_u8_toUInt32,
      show (16 : UInt32).toNat = 16 from rfl]
    simp only [Nat.reduceMod, Nat.reducePow]
    omega
  have hC : ((b₂.toUInt32 &&& 0xff) <<< 8).toNat = b₂.toNat * 256 := by
    rw [toNat_u32_shiftLeft, toNat_u32_and_255, toNat_u8_toUInt32,
      show (8 : UInt32).toNat = 8 from rfl]
    simp only [Nat.reduceMod, Nat.reducePow]
    omega
  have hD : (b₃.toUInt32 &&& 0xff).toNat = b₃.toNat := by
    rw [toNat_u32_and_255, toNat_u8_toUInt32]
    omega
  have hAB := toNat_u32_or_low 24 _ _ (by rw [hA]; omega) (by rw [hB]; omega)
  rw [hA, hB] at hAB
  have hABC := toNat_u32_or_low 16 _ _ (by rw [hAB]; omega) (by rw [hC]; omega)
  rw [hAB, hC] at hABC
  have hABCD := toNat_u32_or_low 8 _ _ (by rw [hABC]; omega) (by rw [hD]; omega)
  rw [hABC, hD] at hABCD
  rw [u32_eq_iff_toNat, beValue, toNat_u32_ofNat]
  simp only [payloadWord, List.getD_cons_zero, List.getD_cons_succ, hABCD]
  omega

theorem payloadWord_beBytes (w : UInt32) (rest : List UInt8) : payloadWord (beBytes w ++ rest) = w := by
  rw [beBytes, List.cons_append, List.cons_append, List.cons_append, List.cons_append,
    payloadWord_cons, beValue_beBytes]

/-- The line the reader builds for a device is the device's line of the listing. -/
theorem listdevLine_csl (d : DevEntry) : listdevLine d.csl = d.line := by
  have hname : d.name.takeWhile (· ≠ 0) = d.name := List.takeWhile_eq_self_iff.mpr fun c hc => by
    simp only [ne_eq, decide_eq_true_eq]
    rintro rfl
    exact d.zero_not_mem hc
  have ho : payloadWord d.csl.payload = d.offset := by
    show payloadWord (beBytes d.offset ++ beBytes d.length ++ [d.type]) = _
    rw [List.append_assoc, payloadWord_beBytes]
  have hl : payloadWord (d.csl.payload.drop 4) = d.length := by
    show payloadWord ((beBytes d.offset ++ beBytes d.length ++ [d.type]).drop 4) = _
    rw [List.append_assoc, List.drop_left' (length_beBytes _), payloadWord_beBytes]
  have ht : d.csl.payload.getD 8 0 = d.type := rfl
  simp only [listdevLine, DevEntry.line, ho, hl, ht, u32ToHex_zero, toNat_u8_toUInt32]
  rw [show d.csl.name = d.name from rfl, hname]

/-- A device's line ends in its only `'\n'`. -/
theorem DevEntry.line_eq (d : DevEntry) : ∃ pre, d.line = pre ++ [lf] ∧ lf ∉ pre := by
  refine ⟨_, rfl, ?_⟩
  simp only [List.mem_append, List.mem_cons, List.mem_singleton, List.not_mem_nil, or_false, not_or]
  refine ⟨⟨⟨⟨⟨⟨d.lf_not_mem, by decide, ?_, by decide⟩, lf_not_mem_hexMin _⟩, by decide⟩,
    lf_not_mem_hexMin _⟩, by decide⟩, lf_not_mem_hexMin _⟩
  split <;> decide

/-- A device's line fits in `line_buf`. -/
theorem length_line_le (d : DevEntry) : d.line.length ≤ lineBufSize := by
  have h₁ := d.name_length_le
  have h₂ := length_hexMin_le (d.offset &&& ~~~3).toNat
  have h₃ := length_hexMin_le d.length.toNat
  have h₄ := length_hexMin_byte d.type
  simp only [DevEntry.line, List.length_append, List.length_cons, List.length_singleton,
    List.length_nil, lineBufSize]
  omega

/-! ### Where the listing stands -/

/-- Where a listing stands between iterations of the loop: the iterator holds the entries of the
devices `es`, and what is left to send, `rest`, is the lines of `es`, after the rest of the line
in `line_buf` from `lidx` when one is pending. -/
def ListdevAt (s : TapcpState) (m : Machine) (it : List CslEntry) (es : List DevEntry)
    (rest : List UInt8) : Prop :=
  it = es.map DevEntry.csl ∧
    ((s.lidx = 0 ∧ rest = listdevText es) ∨
      ∃ pre, 0 < s.lidx ∧ lf ∉ pre ∧
        (∀ i < pre.length + 1, m.lineBuf (s.lidx.toNat + i) = (pre ++ [lf]).getD i 0) ∧
        rest = pre ++ [lf] ++ listdevText es)

theorem ListdevAt.lidx_nonneg {s : TapcpState} {m : Machine} {it : List CslEntry}
    {es : List DevEntry} {rest : List UInt8} (h : ListdevAt s m it es rest) : 0 ≤ s.lidx := by
  rcases h.2 with ⟨hl, -⟩ | ⟨_, hl, -⟩ <;> omega

/-- With nothing left to send, the loop ends at the start of its next iteration. -/
theorem listdevNext_none {s : TapcpState} {m : Machine} {it : List CslEntry} {es : List DevEntry}
    (h : ListdevAt s m it es []) : listdevNext s m it = none := by
  obtain ⟨rfl, ⟨hl, hrest⟩ | ⟨pre, -, -, -, hrest⟩⟩ := h
  · cases es with
    | nil => simp [listdevNext, hl]
    | cons d es =>
      obtain ⟨pre, hpre, -⟩ := d.line_eq
      simp [listdevText, hpre] at hrest
  · simp at hrest

/-- With something left to send, an iteration of the loop starts with the rest of a line in
`line_buf` from `lidx`, a new one when none is pending. -/
theorem listdevNext_some {s : TapcpState} {m : Machine} {it : List CslEntry} {es : List DevEntry}
    {rest : List UInt8} (h : ListdevAt s m it es rest) (hrest : rest ≠ []) :
    ∃ m₁ es₁ pre, listdevNext s m it = some (m₁, es₁.map DevEntry.csl) ∧ lf ∉ pre ∧
      (∀ i < pre.length + 1, m₁.lineBuf (s.lidx.toNat + i) = (pre ++ [lf]).getD i 0) ∧
      rest = pre ++ [lf] ++ listdevText es₁ := by
  obtain ⟨rfl, ⟨hl, rfl⟩ | ⟨pre, hl, hlf, hbuf, hr⟩⟩ := h
  · cases es with
    | nil => exact absurd rfl hrest
    | cons d es =>
      obtain ⟨pre, hpre, hlf⟩ := d.line_eq
      refine ⟨m.writeLine d.line, es, pre, by simp [listdevNext, hl, listdevLine_csl], hlf,
        fun i hi => ?_, by simp [listdevText, hpre]⟩
      rw [hl, Int.toNat_zero, Nat.zero_add, Machine.writeLine_lineBuf_of_lt _ _ (by
        simpa [hpre] using hi), hpre]
  · exact ⟨m, es, pre, by simp [listdevNext, show s.lidx ≠ 0 by omega], hlf, hbuf, hr⟩

/-- From where the listing stands, a request of `n` bytes gets the next `n` bytes of what is
left, or all of it, and the listing then stands after them. -/
theorem listdevLoop_spec (fuel : Nat) : ∀ (n : Nat) (s : TapcpState) (m : Machine)
    (it : List CslEntry) (es : List DevEntry) (rest : List UInt8), ListdevAt s m it es rest →
    n ≤ fuel → ∃ s' m' it' es', listdevLoop fuel n s m it = (rest.take n, s', m', it') ∧
      ListdevAt s' m' it' es' (rest.drop n) := by
  induction fuel with
  | zero =>
    intro n s m it es rest h hn
    obtain rfl : n = 0 := by omega
    exact ⟨s, m, it, es, by simp [listdevLoop], by simpa using h⟩
  | succ fuel ih =>
    intro n s m it es rest h hn
    rcases Nat.eq_zero_or_pos n with rfl | hpos
    · exact ⟨s, m, it, es, by simp [listdevLoop], by simpa using h⟩
    by_cases hrest : rest = []
    · subst hrest
      exact ⟨s, m, it, es, by simp [listdevLoop, hpos, listdevNext_none h], by simpa using h⟩
    obtain ⟨m₁, es₁, pre, hnext, hlf, hbuf, hr⟩ := listdevNext_some h hrest
    simp only [listdevLoop, hpos, if_true, hnext]
    by_cases hfull : pre.length + 1 ≤ n
    · -- the whole line is sent, and the loop goes on with the next
      rw [copyLine_line m₁.lineBuf pre hlf _ n hbuf hfull, List.length_append,
        List.length_singleton]
      obtain ⟨s', m', it', es', hloop, hinv⟩ := ih (n - (pre.length + 1))
        { s with lidx := ((0 : Nat) : Int) } m₁ _ es₁ _ ⟨rfl, .inl ⟨rfl, rfl⟩⟩ (by omega)
      rw [hloop]
      have hlen : (pre ++ [lf]).length = pre.length + 1 := by simp
      refine ⟨s', m', it', es', ?_, ?_⟩
      · rw [hr, List.take_append_eq_append_take,
          List.take_of_length_le (show (pre ++ [lf]).length ≤ n by omega), hlen]
      · rwa [hr, List.drop_append_eq_append_drop,
          List.drop_of_length_le (show (pre ++ [lf]).length ≤ n by omega), hlen, List.nil_append]
    · -- the request ends within the line
      have hn' : n ≤ pre.length := by omega
      rw [copyLine_short m₁.lineBuf pre hlf _ n
        (fun i hi => by rw [hbuf i (by omega), List.getD_append _ _ _ _ hi]) hn',
        List.length_take, min_eq_left hn', Nat.sub_self]
      have hstop : ∀ s₁ : TapcpState, listdevLoop fuel 0 s₁ m₁ (es₁.map DevEntry.csl) =
          ([], s₁, m₁, es₁.map DevEntry.csl) := by
        intro s₁; cases fuel <;> simp [listdevLoop]
      rw [hstop]
      dsimp only
      refine ⟨{ s with lidx := ((s.lidx.toNat + n : Nat) : Int) }, m₁, _, es₁, ?_, rfl,
        .inr ⟨pre.drop n, by dsimp only; omega, fun h => hlf (List.mem_of_mem_drop h),
          fun i hi => ?_, ?_⟩⟩
      · rw [hr, List.append_assoc, List.take_append_of_le_length hn', List.append_nil]
      · have hi' : n + i < pre.length + 1 := by simp at hi; omega
        dsimp only
        rw [Int.toNat_natCast, Nat.add_assoc, hbuf (n + i) hi', List.getD_eq_getElem?_getD,
          List.getD_eq_getElem?_getD, ← List.drop_append_of_le_length hn', List.getElem?_drop]
      · rw [hr, List.append_assoc, List.drop_append_of_le_length hn', List.append_assoc]

/-! ### The calls of the reader -/

theorem readListdevAscii_of_ne (csl : Nat → List CslEntry) {s : TapcpState} (m : Machine)
    (it : List CslEntry) (n : Nat) (h : s.lidx ≠ -1) :
    readListdevAscii csl s m it n = listdevLoop n n s m it := by
  simp [readListdevAscii, h]

/-- The first call starts the iterator on the CSL at `ptr`. -/
theorem runListdev_start (csl : Nat → List CslEntry) (sizes : List Nat) {s : TapcpState}
    (m : Machine) (it : List CslEntry) (h : s.lidx = -1) :
    (runListdev csl sizes s m it).1 = (runListdev csl sizes { s with lidx := 0 } m (csl s.ptr)).1 := by
  cases sizes with
  | nil => rfl
  | cons n sizes => simp [runListdev, readListdevAscii, h]

/-- In any schedule of requests, from where the listing stands, the calls return what is left to
send, cut at the request sizes. -/
theorem runListdev_spec (csl : Nat → List CslEntry) (sizes : List Nat) :
    ∀ (s : TapcpState) (m : Machine) (it : List CslEntry) (es : List DevEntry)
      (rest : List UInt8), ListdevAt s m it es rest →
      (runListdev csl sizes s m it).1 = splitBy sizes rest := by
  induction sizes with
  | nil => intro s m it es rest _; rfl
  | cons n sizes ih =>
    intro s m it es rest h
    obtain ⟨s', m', it', es', hloop, hinv⟩ := listdevLoop_spec n n s m it es rest h le_rfl
    have hl : s.lidx ≠ -1 := by have := h.lidx_nonneg; omega
    simp only [runListdev, readListdevAscii_of_ne csl m it n hl, hloop, splitBy]
    rw [ih s' m' it' es' _ hinv]

/-- Started with `lidx = -1` on the CSL of a catalog, in any schedule of requests the calls of
the reader return the listing cut at the request sizes: each call the next bytes of the listing,
as many as requested or as remain, so that up to and including the first call that returns less
than it asks for the calls return the whole listing. The line the reader builds for a device is
the device's line of the listing, and fits in `line_buf`. -/
theorem readListdevAscii_listing (csl : Nat → List CslEntry) (cat : List DevEntry)
    (sizes : List Nat) (s : TapcpState) (m : Machine) (it : List CslEntry)
    (hcsl : csl s.ptr = cat.map DevEntry.csl) (hl : s.lidx = -1) :
    let outs := (runListdev csl sizes s m it).1
    outs = splitBy sizes (listdevText cat) ∧
      (∀ j < sizes.length, (outs.getD j []).length =
        min (sizes.getD j 0) ((listdevText cat).length - (sizes.take j).sum)) ∧
      (∀ j < sizes.length, (outs.getD j []).length < sizes.getD j 0 →
        (outs.take (j + 1)).flatten = listdevText cat) ∧
      ∀ d ∈ cat, listdevLine d.csl = d.line ∧ (listdevLine d.csl).length ≤ lineBufSize := by
  intro outs
  have hout : outs = splitBy sizes (listdevText cat) := by
    show (runListdev csl sizes s m it).1 = _
    rw [runListdev_start csl sizes m it hl]
    exact runListdev_spec csl sizes _ m _ cat _ ⟨hcsl, .inl ⟨rfl, rfl⟩⟩
  refine ⟨hout, fun j hj => ?_, fun j hj hshort => ?_, fun d _ => ⟨listdevLine_csl d, ?_⟩⟩
  · rw [hout, length_splitBy _ _ j hj]
  · rw [hout] at hshort ⊢
    exact flatten_take_splitBy_of_short _ _ j hj hshort
  · rw [listdevLine_csl]
    exact length_line_le d

/-- The catalog of one writable device `A` at `0x1000`, one word long, of type 2, listed from its
CSL in requests of 4 and 100 bytes: `"A\t3\t1000\t4\t2\n"`, in two calls. -/
theorem readListdevAscii_listing_A :
    (fun _ => [(⟨ascii "A", 0x1000, 4, 2, by decide, by decide, by decide⟩ : DevEntry).csl])
        (0 : Nat) =
      [(⟨ascii "A", 0x1000, 4, 2, by decide, by decide, by decide⟩ : DevEntry)].map DevEntry.csl ∧
    (⟨false, false, 0, 0, -1, 0⟩ : TapcpState).lidx = -1 ∧
    (runListdev (fun _ => [(⟨ascii "A", 0x1000, 4, 2, by decide, by decide, by decide⟩ :
        DevEntry).csl]) [4, 100] ⟨false, false, 0, 0, -1, 0⟩ zeroMachine []).1 =
      splitBy [4, 100] (ascii "A\t3\t1000\t4\t2\n") := by
  refine ⟨rfl, rfl, ?_⟩
  rw [(readListdevAscii_listing _ [⟨ascii "A", 0x1000, 4, 2, by decide, by decide, by decide⟩]
    [4, 100] ⟨false, false, 0, 0, -1, 0⟩ zeroMachine [] rfl rfl).1]
  decide

/-- The octet-mode read of `/listdev` sends the two length bytes and then as many bytes of the
CSL as they say. -/
theorem bytesAt_coreInfo (m : Machine) (coreInfo : UInt32) :
    bytesAt m.cpuByte (coreInfo - 2).toNat (coreInfoSize m coreInfo + 2) =
      m.cpuByte (coreInfo - 2).toNat :: m.cpuByte (coreInfo - 1).toNat ::
        bytesAt m.cpuByte coreInfo.toNat (coreInfoSize m coreInfo) := by
  have hc := coreInfo.toNat_lt_size
  have h₁ : ((coreInfo - 2).toNat + 1) % 2 ^ 32 = (coreInfo - 1).toNat % 2 ^ 32 := by
    simp only [toNat_u32_sub, show (2 : UInt32).toNat = 2 from rfl, show (1 : UInt32).toNat = 1 from rfl]
    omega
  have h₂ : ((coreInfo - 2).toNat + 1 + 1) % 2 ^ 32 = coreInfo.toNat % 2 ^ 32 := by
    simp only [toNat_u32_sub, show (2 : UInt32).toNat = 2 from rfl]
    omega
  rw [bytesAt_succ, bytesAt_succ, bytesAt_cpuByte_mod m h₂, ← m.cpuByte_mod ((coreInfo - 2).toNat + 1),
    h₁, m.cpuByte_mod]

/-- `GET /listdev` in netascii mode returns the listing of the catalog whose CSL is at
`CORE_INFO`, cut at the request sizes; in octet mode it returns the two bytes of the CSL's length
in network order, below `CORE_INFO`, and then that many bytes of the CSL, cut at the request
sizes. -/
theorem openListdev_get (csl : Nat → List CslEntry) (cat : List DevEntry) (coreInfo : UInt32)
    (sizes : List Nat) (s : TapcpState) (m : Machine) (it : List CslEntry)
    (hcsl : csl coreInfo.toNat = cat.map DevEntry.csl) :
    (s.binary = false → (openListdev coreInfo s m).2 = none ∧
      (runListdev csl sizes (openListdev coreInfo s m).1 m it).1 =
        splitBy sizes (listdevText cat)) ∧
    (s.binary = true → (openListdev coreInfo s m).2 = some .readMemBytesBinary ∧
      (runReads readMemBytesBinary sizes (openListdev coreInfo s m).1 m).1 =
        splitBy sizes (m.cpuByte (coreInfo - 2).toNat :: m.cpuByte (coreInfo - 1).toNat ::
          bytesAt m.cpuByte coreInfo.toNat ((m.cpuByte (coreInfo - 2).toNat).toNat * 256 +
            (m.cpuByte (coreInfo - 1).toNat).toNat))) := by
  refine ⟨fun hb => ⟨by simp [openListdev, hb], ?_⟩, fun hb => ⟨by simp [openListdev, hb], ?_⟩⟩
  · simp only [openListdev, hb, Bool.false_eq_true, if_false]
    rw [runListdev_start csl sizes m it rfl]
    exact runListdev_spec csl sizes _ m _ cat _ ⟨hcsl, .inl ⟨rfl, rfl⟩⟩
  · have h := (readMemBytesBinary_schedule sizes s m (coreInfo - 2).toNat
      (coreInfoSize m coreInfo + 2)).1
    push_cast at h
    rw [bytesAt_coreInfo] at h
    rwa [openListdev, if_pos hb]

/-- The listing of the device `A` from a CSL at `0x100`, in one request of 100 bytes. -/
theorem openListdev_get_A :
    (fun _ => [(⟨ascii "A", 0x1000, 4, 2, by decide, by decide, by decide⟩ : DevEntry).csl])
        (0x100 : UInt32).toNat =
      [(⟨ascii "A", 0x1000, 4, 2, by decide, by decide, by decide⟩ : DevEntry)].map DevEntry.csl ∧
    (runListdev (fun _ => [(⟨ascii "A", 0x1000, 4, 2, by decide, by decide, by decide⟩ :
        DevEntry).csl]) [100] (openListdev 0x100 ⟨false, false, 0, 0, 0, 0⟩ zeroMachine).1 zeroMachine
        []).1 = [ascii "A\t3\t1000\t4\t2\n"] := by
  refine ⟨rfl, ?_⟩
  rw [((openListdev_get _ [⟨ascii "A", 0x1000, 4, 2, by decide, by decide, by decide⟩] 0x100
    [100] ⟨false, false, 0, 0, 0, 0⟩ zeroMachine [] rfl).1 rfl).2]
  decide

end CasperTapcp

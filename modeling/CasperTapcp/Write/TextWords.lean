import CasperTapcp.Write.DumpRoundTrip
import CasperTapcp.Open.Openers

/-!
# The words of a written text

What `casper_tapcp_write_fpga_words_ascii` stores for a text made of lines, whatever the text.

The words of one line are given by `lineWords`, an automaton over the bytes the scan reads: a hex
digit joins the word being read, or starts the next one when that word already has eight
digits; whitespace ends the word; any other byte ends the word and the line. The scan of
`line_buf` reads a run of digits eight at a time with `hex_to_u32` and looks one byte ahead, but
it stores the same words at `ptr`, `ptr + 4`, ... (`scanLine_text`).

Which bytes of a line reach `line_buf` depends on the colon flag `u32` as the line starts.
Leading whitespace is dropped; with the flag clear, the first `':'` drops what came before it,
the label; the rest of the line is its body (`lineBody`). A `'\n'` that arrives with `lidx`
at 0 is whitespace at the start of a line and is dropped too, so a line whose body is empty
does not end: nothing is scanned and the flag stays as the line left it (`nextFlag`). A label
with nothing after it thus turns the `':'` of the next line into data, and the next line is
scanned from its first byte (`writeFpgaWordsAscii_empty_label`).

`textWords` puts the lines together, carrying the flag from line to line. When each line fits
in `line_buf` (`TextFits`) and a non-negative `nleft` has room for the words, a text of lines
is accepted and stores `textWords` of it in order (`writeFpgaWordsAscii_text`): in any cut
into calls and pbufs when every line holds a `':'` or is blank, since the codec then follows
the line writer of `LineWriter`; and for any lines when a `'\n'` is only ever the last byte of
its call (a call may hold no `'\n'` at all, and never holds one before its end). Text
without labels in other cuts is where the drift of the write position shows
(`writeFpgaWordsAscii_lines_merge`).
-/

set_option autoImplicit false
set_option relaxedAutoImplicit false

namespace CasperTapcp

/-! ### The words of a line -/

/-- The word of the digits read so far, if there are any. -/
def pendingWord (ds : List UInt8) : List UInt32 := if ds = [] then [] else [digitsWord ds]

/-- The words the scan of a line reads from the bytes `t`, after `ds`, the digits of the word
being read: a hex digit joins the word, or starts the next one when the word already has eight;
whitespace ends the word; any other byte ends the word and the line's words. -/
def digitWords (ds : List UInt8) : List UInt8 → List UInt32
  | [] => pendingWord ds
  | c :: t =>
    if isxdigit c then
      if ds.length = 8 then digitsWord ds :: digitWords [c] t else digitWords (ds ++ [c]) t
    else if isspace c then pendingWord ds ++ digitWords [] t
    else pendingWord ds

/-- The words of the bytes of a line before its `'\n'`. -/
def lineWords (t : List UInt8) : List UInt32 := digitWords [] t

example : lineWords [49, 50, 32, 97, 98, 58, 51] = [0x12, 0xAB] := by decide

/-- Digits that fit in the word being read join it. -/
theorem digitWords_digits (A rest : List UInt8) (hA : ∀ c ∈ A, isxdigit c = true) :
    ∀ ds : List UInt8, ds.length + A.length ≤ 8 →
      digitWords ds (A ++ rest) = digitWords (ds ++ A) rest := by
  induction A with
  | nil => intro ds _; simp
  | cons c A ih =>
    intro ds h
    simp only [List.length_cons] at h
    rw [List.cons_append, digitWords, if_pos (hA c (List.mem_cons_self c A)), if_neg (by omega),
      ih (fun c' h' => hA c' (List.mem_cons_of_mem c h')) _ (by simp; omega),
      List.append_assoc, List.singleton_append]

/-- A run of digits followed by a byte that is not one: its words, then the words after it. -/
theorem digitWords_run (rest : List UInt8) (hrest : ∀ c ∈ rest.head?, isxdigit c = false)
    (R : List UInt8) (hR : ∀ c ∈ R, isxdigit c = true) :
    ∀ ds : List UInt8, digitWords ds (R ++ rest) = digitWords ds R ++ lineWords rest := by
  induction R with
  | nil =>
    intro ds
    cases rest with
    | nil => simp [digitWords, lineWords, pendingWord]
    | cons c rest =>
      have hc : isxdigit c = false := hrest c rfl
      by_cases hs : isspace c <;> simp [digitWords, lineWords, pendingWord, hc, hs]
  | cons c R ih =>
    intro ds
    have ih' := ih fun c' h' => hR c' (List.mem_cons_of_mem c h')
    simp only [List.cons_append, digitWords, hR c (List.mem_cons_self c R), if_true]
    split_ifs <;> simp [ih']

/-- The words of a run of digits: its first eight digits make a word, and the rest go on. -/
theorem lineWords_run (R : List UInt8) (hR : ∀ c ∈ R, isxdigit c = true) (h : R ≠ []) :
    lineWords R = digitsWord (R.take 8) :: lineWords (R.drop 8) := by
  have hA : ∀ c ∈ R.take 8, isxdigit c = true := fun c hc => hR c (List.mem_of_mem_take hc)
  conv_lhs => rw [lineWords, ← List.take_append_drop 8 R,
    digitWords_digits _ _ hA [] (by simp), List.nil_append]
  rcases hB : R.drop 8 with _ | ⟨c, B⟩
  · simp [digitWords, pendingWord, lineWords, h]
  · have h8 : (R.take 8).length = 8 := by
      have := congrArg List.length hB
      simp only [List.length_drop, List.length_cons] at this
      simp only [List.length_take]; omega
    have hc : isxdigit c = true := hR c (List.mem_of_mem_drop (hB ▸ List.mem_cons_self c B))
    simp [digitWords, lineWords, h8, hc]

/-- Whitespace before the words of a line is skipped. -/
theorem lineWords_space {c : UInt8} (t : List UInt8) (hc : isspace c = true) :
    lineWords (c :: t) = lineWords t := by
  have hx : isxdigit c = false := by
    cases h : isxdigit c
    · rfl
    · rw [(xdigit_props h).2.1] at hc; cases hc
  simp [lineWords, digitWords, hx, hc, pendingWord]

/-- A byte that is neither whitespace nor a hex digit ends the words of a line. -/
theorem lineWords_stop {c : UInt8} (t : List UInt8) (hs : isspace c = false)
    (hx : isxdigit c = false) : lineWords (c :: t) = [] := by
  simp [lineWords, digitWords, hx, hs, pendingWord]

/-! ### Stores of words -/

/-- The transfer state after `k` words stored by the scan: `ptr` moved past them, and a
non-negative `nleft` charged four bytes for each. -/
def advanceWords (s : TapcpState) (k : Nat) : TapcpState :=
  { s with ptr := s.ptr + 4 * k, nleft := if s.nleft < 0 then s.nleft else s.nleft - 4 * k }

@[simp] theorem advanceWords_zero (s : TapcpState) : advanceWords s 0 = s := by
  cases s; simp [advanceWords]

@[simp] theorem advanceWords_lidx (s : TapcpState) (k : Nat) : (advanceWords s k).lidx = s.lidx := rfl

@[simp] theorem advanceWords_ptr (s : TapcpState) (k : Nat) :
    (advanceWords s k).ptr = s.ptr + 4 * k := rfl

/-- Room for `a + b` words is room for `a` words, then for `b`. -/
theorem advanceWords_room {s : TapcpState} {a b : Nat} (h : s.nleft < 0 ∨ 4 * (a + b) ≤ s.nleft) :
    (advanceWords s a).nleft < 0 ∨ 4 * b ≤ (advanceWords s a).nleft := by
  simp only [advanceWords]; split_ifs <;> omega

/-- `a` words, then `b`, within the budget. -/
theorem advanceWords_add (s : TapcpState) (a b : Nat) (h : s.nleft < 0 ∨ 4 * a ≤ s.nleft) :
    advanceWords (advanceWords s a) b = advanceWords s (a + b) := by
  unfold advanceWords
  congr 1
  · ring
  · rcases h with h | h
    · simp [h]
    · have h₁ : ¬ s.nleft < 0 := by omega
      have h₂ : ¬ s.nleft - 4 * (a : Int) < 0 := by omega
      simp only [h₁, h₂, if_false]
      push_cast; ring

/-- `m'` is `m` after the stores of the words `ws` at `q`, `q + 4`, ...: the FPGA memory holds
them, and the bus saw them in order. -/
def StoresWords (m m' : Machine) (q : Nat) (ws : List UInt32) : Prop :=
  m'.fpga = storeWords m.fpga q ws ∧ m'.log = m.log ++ wordStores q ws

theorem StoresWords.refl (m : Machine) (q : Nat) : StoresWords m m q [] :=
  ⟨rfl, by simp [wordStores]⟩

theorem StoresWords.trans {m m₁ m₂ : Machine} {q : Nat} {ws₁ ws₂ : List UInt32}
    (h₁ : StoresWords m m₁ q ws₁) (h₂ : StoresWords m₁ m₂ (q + 4 * ws₁.length) ws₂) :
    StoresWords m m₂ q (ws₁ ++ ws₂) :=
  ⟨by rw [h₂.1, h₁.1, storeWords_append], by rw [h₂.2, h₁.2, wordStores_append, List.append_assoc]⟩

/-- The store of one word by the scan. -/
theorem StoresWords.store (m : Machine) (q : Nat) (w : UInt32) :
    StoresWords m (({ m with asciiWord := w } : Machine).storeFpga q w) q [w] := ⟨rfl, rfl⟩

/-! ### Scanning a line -/

/-- The buffer holds the bytes `xs` from `p` on. -/
def HoldsAt (buf : Nat → UInt8) : Nat → List UInt8 → Prop
  | _, [] => True
  | p, c :: cs => buf p = c ∧ HoldsAt buf (p + 1) cs

theorem holdsAt_iff (buf : Nat → UInt8) :
    ∀ (xs : List UInt8) (p : Nat), HoldsAt buf p xs ↔ ∀ i < xs.length, buf (p + i) = xs.getD i 0
  | [], p => by simp [HoldsAt]
  | c :: cs, p => by
    rw [HoldsAt, holdsAt_iff buf cs (p + 1)]
    constructor
    · rintro ⟨h0, h⟩ (_ | i) hi
      · simpa using h0
      · simpa [Nat.add_assoc, Nat.add_comm 1 i] using h i (by simp at hi; omega)
    · intro h
      refine ⟨by simpa using h 0 (by simp), fun i hi => ?_⟩
      simpa [Nat.add_assoc, Nat.add_comm 1 i] using h (i + 1) (by simp; omega)

theorem holdsAt_append (buf : Nat → UInt8) :
    ∀ (xs ys : List UInt8) (p : Nat),
      HoldsAt buf p (xs ++ ys) ↔ HoldsAt buf p xs ∧ HoldsAt buf (p + xs.length) ys
  | [], ys, p => by simp [HoldsAt]
  | c :: cs, ys, p => by
    rw [List.cons_append, HoldsAt, HoldsAt, holdsAt_append buf cs ys (p + 1), List.length_cons,
      show p + 1 + cs.length = p + (cs.length + 1) by omega, and_assoc]

/-- At a byte that is not a hex digit the word loop stops where it is. -/
theorem scanWords_stop (buf : Nat → UInt8) (fuel p : Nat) (s : TapcpState) (m : Machine)
    (h : isxdigit (buf p) = false) : scanWords buf fuel p s m = .ok (s, m, p) := by
  cases fuel <;> simp [scanWords, h]

/-- One word of a run: `hex_to_u32` reads up to eight digits, the word is stored at `ptr`, and the
word loop goes on after them. -/
theorem scanWords_word (buf : Nat → UInt8) (cs : List UInt8) (hcs : ∀ c ∈ cs, isxdigit c = true)
    (hlen : 0 < cs.length) (h8 : cs.length ≤ 8) (p fuel : Nat) (s : TapcpState) (m : Machine)
    (hmem : HoldsAt buf p cs) (hstop : cs.length < 8 → isxdigit (buf (p + cs.length)) = false)
    (hn : s.nleft < 0 ∨ 4 ≤ s.nleft) :
    scanWords buf (fuel + 1) p s m = scanWords buf fuel (p + cs.length) (advanceWords s 1)
      (({ m with asciiWord := digitsWord cs } : Machine).storeFpga s.ptr (digitsWord cs)) := by
  rw [holdsAt_iff] at hmem
  have hp : isxdigit (buf p) = true := by
    rw [← Nat.add_zero p, hmem 0 hlen, List.getD_eq_getElem _ _ hlen]
    exact hcs _ (List.getElem_mem _)
  have hroom : ¬ (0 ≤ s.nleft ∧ s.nleft < 4) := by omega
  have hnl : (if s.nleft > 0 then s.nleft - 4 else s.nleft) =
      if s.nleft < 0 then s.nleft else s.nleft - 4 * 1 := by
    split_ifs <;> omega
  simp only [scanWords, hp, if_true, hroom, if_false,
    hexToU32_bytes buf p m.asciiWord cs hcs hlen h8 hmem hstop, hnl]
  rfl

/-- A run of hex digits followed by a byte that is not one: the word loop stores the run's words
at `ptr`, `ptr + 4`, ... and stops just past the run. -/
theorem scanWords_run (buf : Nat → UInt8) (fuel : Nat) :
    ∀ (R : List UInt8) (p : Nat) (s : TapcpState) (m : Machine), (∀ c ∈ R, isxdigit c = true) →
      HoldsAt buf p R → isxdigit (buf (p + R.length)) = false → R.length ≤ fuel →
      (s.nleft < 0 ∨ 4 * (lineWords R).length ≤ s.nleft) →
      ∃ m', scanWords buf fuel p s m =
          .ok (advanceWords s (lineWords R).length, m', p + R.length) ∧
        StoresWords m m' s.ptr (lineWords R) := by
  induction fuel with
  | zero =>
    intro R p s m _ _ _ hfuel _
    obtain rfl : R = [] := List.eq_nil_of_length_eq_zero (by omega)
    exact ⟨m, by simp [scanWords, lineWords, digitWords, pendingWord], StoresWords.refl m _⟩
  | succ fuel ih =>
    intro R p s m hR hmem hstop hfuel hn
    by_cases h0 : R = []
    · subst h0
      exact ⟨m, by simpa [lineWords, digitWords, pendingWord] using
        scanWords_stop buf (fuel + 1) p s m (by simpa using hstop), StoresWords.refl m _⟩
    -- the first eight digits make a word, and the loop goes on over the rest of the run
    have hsplit := List.take_append_drop 8 R
    have hlen : (R.take 8).length = min 8 R.length := List.length_take _ _
    have hpos : 0 < R.length := List.length_pos.2 h0
    have hstop₁ : (R.take 8).length < 8 → isxdigit (buf (p + (R.take 8).length)) = false := by
      intro h8
      rwa [hlen, show min 8 R.length = R.length by omega]
    have hstop₂ : isxdigit (buf (p + (R.take 8).length + (R.drop 8).length)) = false := by
      rwa [Nat.add_assoc, ← List.length_append, hsplit]
    rw [← hsplit, holdsAt_append] at hmem
    rw [lineWords_run R hR h0, List.length_cons] at hn ⊢
    rw [scanWords_word buf (R.take 8) (fun c hc => hR c (List.mem_of_mem_take hc)) (by omega)
      (by omega) p fuel s m hmem.1 hstop₁ (by omega)]
    obtain ⟨m', hscan, hst⟩ := ih (R.drop 8) (p + (R.take 8).length) (advanceWords s 1)
      (({ m with asciiWord := digitsWord (R.take 8) } : Machine).storeFpga s.ptr
        (digitsWord (R.take 8))) (fun c hc => hR c (List.mem_of_mem_drop hc)) hmem.2 hstop₂
      (by simp only [List.length_drop]; omega) (advanceWords_room (by omega))
    refine ⟨m', ?_, (StoresWords.store m s.ptr _).trans hst⟩
    rw [hscan, advanceWords_add s 1 _ (by omega), Nat.add_comm 1, Nat.add_assoc,
      ← List.length_append, hsplit]

/-- The scan of a line whose bytes `t` stand from `p` before its `'\n'`: it stores the line's
words at `ptr`, `ptr + 4`, ..., in order. -/
theorem scanLine_text (buf : Nat → UInt8) (fuel : Nat) :
    ∀ (t : List UInt8) (p : Nat) (s : TapcpState) (m : Machine), lf ∉ t →
      HoldsAt buf p (t ++ [lf]) → t.length < fuel →
      (s.nleft < 0 ∨ 4 * (lineWords t).length ≤ s.nleft) →
      ∃ m' q, scanLine buf fuel p s m = .ok (advanceWords s (lineWords t).length, m', q) ∧
        StoresWords m m' s.ptr (lineWords t) := by
  induction fuel with
  | zero => intro t _ _ _ _ _ h; omega
  | succ fuel ih =>
    intro t p s m hlf hmem hfuel hn
    cases t with
    | nil =>
      have hp : buf p = lf := hmem.1
      exact ⟨m, p, by simp [scanLine, hp, lineWords, digitWords, pendingWord],
        StoresWords.refl m _⟩
    | cons c t =>
    have hc : buf p = c := hmem.1
    have hclf : c ≠ lf := fun h => hlf (h ▸ List.mem_cons_self c t)
    simp only [List.length_cons] at hfuel
    by_cases hs : isspace c
    · -- whitespace is skipped
      rw [lineWords_space t hs] at hn ⊢
      obtain ⟨m', q, hscan, hst⟩ := ih t (p + 1) s m (fun h => hlf (List.mem_cons_of_mem c h))
        hmem.2 (by omega) hn
      exact ⟨m', q, by simp [scanLine, hc, hclf, hs, hscan], hst⟩
    by_cases hx : isxdigit c
    · -- a run of digits, then the rest of the line
      have hsplit := List.takeWhile_append_dropWhile isxdigit (c :: t)
      set R := (c :: t).takeWhile isxdigit
      set rest := (c :: t).dropWhile isxdigit
      have hR : ∀ x ∈ R, isxdigit x = true := fun x hx => List.mem_takeWhile_imp hx
      have hRlen : 0 < R.length := by simp [R, List.takeWhile_cons_of_pos hx]
      have hrest : ∀ x ∈ rest.head?, isxdigit x = false := fun x hx => by
        have := List.head?_dropWhile_not isxdigit (c :: t)
        rwa [Option.mem_def.1 hx] at this
      have hwords : lineWords (c :: t) = lineWords R ++ lineWords rest := by
        rw [← hsplit]; exact digitWords_run rest hrest R hR []
      have hlen : R.length + rest.length = t.length + 1 := by
        rw [← List.length_append, hsplit, List.length_cons]
      rw [← hsplit, List.append_assoc, holdsAt_append] at hmem
      have hstop : isxdigit (buf (p + R.length)) = false := by
        cases hr : rest with
        | nil => rw [hr] at hmem; rw [hmem.2.1]; decide
        | cons x xs => rw [hr] at hmem; rw [hmem.2.1]; exact hrest x (by simp [hr])
      rw [hwords, List.length_append] at hn ⊢
      obtain ⟨m₁, hscan₁, hst₁⟩ := scanWords_run buf (fuel + 1) R p s m hR hmem.1 hstop (by omega)
        (by omega)
      obtain ⟨m', q, hscan₂, hst₂⟩ := ih rest (p + R.length) _ m₁
        (fun h => hlf (hsplit ▸ List.mem_append_right R h)) hmem.2 (by omega) (advanceWords_room hn)
      refine ⟨m', q, ?_, hst₁.trans hst₂⟩
      simp only [scanLine, hc, ne_eq, hclf, not_false_eq_true, if_true, hs, hx, if_false,
        Bool.not_true, Bool.false_eq_true, hscan₁]
      rw [hscan₂, advanceWords_add s _ _ (by omega)]
    · -- a byte that is neither ends the scan
      have hstop := lineWords_stop t (Bool.eq_false_iff.2 hs) (Bool.eq_false_iff.2 hx)
      rw [hstop]
      exact ⟨m, p, by simp [scanLine, hc, hclf, hs, hx], StoresWords.refl m _⟩

/-! ### A line -/

/-- The body of a line, with the colon flag `u32` as the line starts: what follows the first `':'`
when the flag is clear and the line has one, the whole line otherwise, less its leading
whitespace. It goes into `line_buf` from its start and is scanned at the line's `'\n'`. -/
def lineBody (u32 : UInt32) (line : List UInt8) : List UInt8 :=
  (if u32 = 0 ∧ colon ∈ line then line.drop ((line.takeWhile (· ≠ colon)).length + 1)
    else line).dropWhile isspace

/-- The label of a line, with the colon flag `u32` as the line starts: what comes before the
first `':'` when the flag is clear, less its leading whitespace, and nothing when there is no
label colon. It goes into `line_buf` before the colon drops it. -/
def lineLabel (u32 : UInt32) (line : List UInt8) : List UInt8 :=
  if u32 = 0 ∧ colon ∈ line then (line.takeWhile (· ≠ colon)).dropWhile isspace else []

/-- The colon flag after a line: cleared when the line's `'\n'` ends it, and otherwise, for a line
with an empty body, set by a label colon or left as it was. -/
def nextFlag (u32 : UInt32) (line : List UInt8) : UInt32 :=
  if lineBody u32 line = [] then (if u32 = 0 ∧ colon ∈ line then 1 else u32) else 0

/-- Away from `'\n'`, the line writer does what the loop with the write position at `lidx`
does. -/
theorem labelledLineByte_eq {c : UInt8} (hc : c ≠ lf) (a : TapcpState × Machine) :
    labelledLineByte c a = lidxLineByte c a := by
  simp [labelledLineByte, lidxLineByte, hc]

theorem feedBytes_labelled_eq (xs : List UInt8) (h : lf ∉ xs) :
    ∀ a : TapcpState × Machine, feedBytes labelledLineByte xs a = feedBytes lidxLineByte xs a := by
  induction xs with
  | nil => intro a; rfl
  | cons c xs ih =>
    intro a
    simp only [feedBytes, labelledLineByte_eq (fun hc => h (hc ▸ List.mem_cons_self c xs)) a]
    rcases lidxLineByte c a with a' | a'
    · rfl
    · exact ih (fun h' => h (List.mem_cons_of_mem c h')) a'

/-- Whitespace at the start of a line is dropped, `'\n'` included. -/
theorem feedBytes_spaces (xs : List UInt8) (hxs : ∀ c ∈ xs, isspace c = true) (s : TapcpState)
    (m : Machine) (hl : s.lidx = 0) : feedBytes lidxLineByte xs (s, m) = .ok (s, m) := by
  induction xs with
  | nil => rfl
  | cons c xs ih =>
    have hc : lidxLineByte c (s, m) = .ok (s, m) := by
      simp [lidxLineByte, writeFpgaWordsAsciiByte, hl, hxs c (List.mem_cons_self c xs),
        lineBufSize]
    simp only [feedBytes, hc]
    exact ih fun c h => hxs c (List.mem_cons_of_mem _ h)

/-- A `'\n'` at `lidx` past the start of `line_buf`: it is stored, the line is scanned from the start
of `line_buf`, and `lidx` and the colon flag are cleared. -/
theorem lidxLineByte_line {s s' : TapcpState} {m m' : Machine} {p : Nat} (k : Nat)
    (hk : s.lidx = k) (hr : k < lineBufSize) (hl : k ≠ 0)
    (h : scanLine (m.setLineBuf k lf).lineBuf (k + 1) 0 { s with lidx := k + 1 }
      (m.setLineBuf k lf) = .ok (s', m', p)) :
    lidxLineByte lf (s, m) = .ok ({ s' with lidx := 0, u32 := 0 }, m') := by
  rw [Machine.setLineBuf_lineBuf] at h
  simp [lidxLineByte, writeFpgaWordsAsciiByte, hk, hr, hl, show lf ≠ colon by decide, h]

/-- A byte written just past what a buffer holds. -/
theorem holdsAt_update (b : Nat → UInt8) (c : UInt8) :
    ∀ (xs : List UInt8) (p : Nat), HoldsAt b p xs →
      HoldsAt (Function.update b (p + xs.length) c) p (xs ++ [c])
  | [], p, _ => by simp [HoldsAt]
  | x :: xs, p, h => by
    refine ⟨by rw [Function.update_noteq (by simp)]; exact h.1, ?_⟩
    rw [List.length_cons, show p + (xs.length + 1) = p + 1 + xs.length by omega]
    exact holdsAt_update b c xs (p + 1) h.2

/-- Text from the start of a line up to its `'\n'`, none of it a label colon: the leading
whitespace is dropped and the rest goes into `line_buf` from its start. -/
theorem feedBytes_unlabelled (T : List UInt8) (hT : lf ∉ T) (s : TapcpState) (m : Machine)
    (hl : s.lidx = 0) (hcol : ∀ c ∈ T, c ≠ colon ∨ s.u32 ≠ 0)
    (hfit : (T.dropWhile isspace).length ≤ lineBufSize) :
    ∃ b, feedBytes lidxLineByte T (s, m) =
        .ok ({ s with lidx := (T.dropWhile isspace).length }, { m with lineBuf := b }) ∧
      HoldsAt b 0 (T.dropWhile isspace) := by
  have hsplit := List.takeWhile_append_dropWhile isspace T
  set B := T.dropWhile isspace
  have hB : ∀ c ∈ B, c ∈ T := fun c hc => hsplit ▸ List.mem_append_right _ hc
  have hhead : ∀ c ∈ B.head?, isspace c = false := fun c hc => by
    have := List.head?_dropWhile_not isspace T
    rwa [Option.mem_def.1 hc] at this
  obtain ⟨b, hb, -, hbody⟩ := feedBytes_store B s m
    (fun c hc => ⟨fun h => hT (h ▸ hB c hc), hcol c (hB c hc)⟩) (by omega) (by omega)
    (Or.inr hhead)
  rw [feedBytes_labelled_eq B (fun h => hT (hB lf h))] at hb
  refine ⟨b, ?_, (holdsAt_iff b B 0).2 fun i hi => by simpa [hl] using hbody i hi⟩
  conv_lhs => rw [← hsplit]
  rw [feedBytes_append, feedBytes_spaces _ (fun c hc => List.mem_takeWhile_imp hc) s m hl]
  simp only [hb, hl, zero_add]

/-- A label from the start of a line, with the colon flag clear: it goes into `line_buf`, and its
colon drops it and sets the flag. -/
theorem feedBytes_label (pre : List UInt8) (hpre : colon ∉ pre) (hlf : lf ∉ pre) (s : TapcpState)
    (m : Machine) (hl : s.lidx = 0) (hu : s.u32 = 0)
    (hfit : (pre.dropWhile isspace).length < lineBufSize) :
    ∃ b, feedBytes lidxLineByte (pre ++ [colon]) (s, m) =
      .ok ({ s with u32 := 1 }, { m with lineBuf := b }) := by
  obtain ⟨b, hb, -⟩ := feedBytes_unlabelled pre hlf s m hl
    (fun c hc => .inl fun h => hpre (h ▸ hc)) hfit.le
  have hcolon := labelledLineByte_colon (m := { m with lineBuf := b })
    (s := { s with lidx := (pre.dropWhile isspace).length }) ⟨by simp, by simpa using hfit⟩ hu
  rw [labelledLineByte_eq (by decide)] at hcolon
  refine ⟨b, ?_⟩
  rw [feedBytes_append, hb]
  simp only [feedBytes, hcolon]
  cases s; simp_all

/-- The bytes of a line before its `'\n'`, from the start of a line: the body goes into `line_buf`
from its start, and a label colon sets the colon flag. -/
theorem feedBytes_lineBytes (line : List UInt8) (hline : lf ∉ line) (s : TapcpState) (m : Machine)
    (hl : s.lidx = 0) (hfit : (lineLabel s.u32 line).length < lineBufSize ∧
      (lineBody s.u32 line).length ≤ lineBufSize) :
    ∃ b, feedBytes lidxLineByte line (s, m) =
        .ok ({ s with
          lidx := (lineBody s.u32 line).length
          u32 := if s.u32 = 0 ∧ colon ∈ line then 1 else s.u32 }, { m with lineBuf := b }) ∧
      HoldsAt b 0 (lineBody s.u32 line) := by
  by_cases h : s.u32 = 0 ∧ colon ∈ line
  · -- the label is dropped at its colon, and the rest of the line is the body
    obtain ⟨pre, post, hpre, rfl⟩ := exists_first_sep h.2
    have hbody : lineBody s.u32 (pre ++ colon :: post) = post.dropWhile isspace := by
      rw [lineBody, if_pos h, takeWhile_ne_sep pre post hpre, drop_sep]
    have hlabel : lineLabel s.u32 (pre ++ colon :: post) = pre.dropWhile isspace := by
      rw [lineLabel, if_pos h, takeWhile_ne_sep pre post hpre]
    rw [hbody, hlabel] at hfit
    rw [hbody, if_pos h]
    obtain ⟨b₁, h₁⟩ := feedBytes_label pre hpre (fun h' => hline (List.mem_append_left _ h')) s m hl
      h.1 hfit.1
    obtain ⟨b, h₂, hb⟩ := feedBytes_unlabelled post
      (fun h' => hline (List.mem_append_right _ (List.mem_cons_of_mem _ h'))) { s with u32 := 1 }
      { m with lineBuf := b₁ } hl (fun _ _ => .inr (show (1 : UInt32) ≠ 0 by decide)) hfit.2
    refine ⟨b, ?_, hb⟩
    rw [← List.singleton_append, ← List.append_assoc, feedBytes_append, h₁]
    exact h₂
  · -- no label colon: the whole line is the body
    have hbody : lineBody s.u32 line = line.dropWhile isspace := by rw [lineBody, if_neg h]
    rw [hbody] at hfit ⊢
    rw [if_neg h]
    exact feedBytes_unlabelled line hline s m hl
      (fun c hc => by by_contra hc'; push_neg at hc'; exact h ⟨hc'.2, hc'.1 ▸ hc⟩) hfit.2

/-- The `'\n'` of a line whose body `B` stands in `line_buf` from its start, with `lidx` just past
it. An empty body leaves everything as it is, the `'\n'` being whitespace at the start of a line;
otherwise the `'\n'` is stored, the scan stores the body's words, and `lidx` and the colon flag
are cleared. -/
theorem lidxLineByte_end (B : List UInt8) (hB : lf ∉ B) (hfit : B.length < lineBufSize)
    (s : TapcpState) (m : Machine) (hl : s.lidx = B.length) (hbuf : HoldsAt m.lineBuf 0 B)
    (hn : s.nleft < 0 ∨ 4 * (lineWords B).length ≤ s.nleft) :
    ∃ m', lidxLineByte lf (s, m) = .ok ({ advanceWords s (lineWords B).length with
        lidx := 0, u32 := if B = [] then s.u32 else 0 }, m') ∧
      StoresWords m m' s.ptr (lineWords B) := by
  by_cases hB0 : B = []
  · subst hB0
    simp only [List.length_nil, Nat.cast_zero] at hl
    refine ⟨m, ?_, StoresWords.refl m _⟩
    simp only [lidxLineByte, writeFpgaWordsAsciiByte, hl, lineBufSize,
      show isspace lf = true by decide]
    cases s; simp_all [lineWords, digitWords, pendingWord]
  · have hbuf' : HoldsAt (m.setLineBuf B.length lf).lineBuf 0 (B ++ [lf]) := by
      simpa using holdsAt_update m.lineBuf lf B 0 hbuf
    obtain ⟨m', q, hscan, hst⟩ := scanLine_text _ (B.length + 1) B 0 { s with lidx := B.length + 1 }
      (m.setLineBuf B.length lf) hB hbuf' (by omega) hn
    refine ⟨m', ?_, hst⟩
    rw [lidxLineByte_line B.length hl hfit (by simpa using hB0) hscan, if_neg hB0]
    rfl

theorem mem_of_mem_lineBody {u32 : UInt32} {line : List UInt8} {c : UInt8}
    (h : c ∈ lineBody u32 line) : c ∈ line := by
  have h' := (List.dropWhile_suffix isspace).subset h
  split_ifs at h' with hc
  · exact List.mem_of_mem_drop h'
  · exact h'

/-- A whole line from the start of a line: the words of its body are stored at `ptr`, `ptr + 4`,
..., and the colon flag is the one `nextFlag` gives. -/
theorem feedBytes_line (line : List UInt8) (hline : lf ∉ line) (s : TapcpState) (m : Machine)
    (hl : s.lidx = 0) (hfit : (lineLabel s.u32 line).length < lineBufSize ∧
      (lineBody s.u32 line).length < lineBufSize)
    (hn : s.nleft < 0 ∨ 4 * (lineWords (lineBody s.u32 line)).length ≤ s.nleft) :
    ∃ m', feedBytes lidxLineByte (line ++ [lf]) (s, m) =
        .ok ({ advanceWords s (lineWords (lineBody s.u32 line)).length with
          u32 := nextFlag s.u32 line }, m') ∧
      StoresWords m m' s.ptr (lineWords (lineBody s.u32 line)) := by
  obtain ⟨b, h₁, hb⟩ := feedBytes_lineBytes line hline s m hl ⟨hfit.1, hfit.2.le⟩
  obtain ⟨m', h₂, hst⟩ := lidxLineByte_end _ (fun h => hline (mem_of_mem_lineBody h)) hfit.2
    { s with
      lidx := (lineBody s.u32 line).length
      u32 := if s.u32 = 0 ∧ colon ∈ line then 1 else s.u32 }
    { m with lineBuf := b } rfl hb hn
  refine ⟨m', ?_, hst⟩
  rw [feedBytes_append, h₁]
  simp only [feedBytes, h₂]
  cases s
  simp only at hl
  subst hl
  rfl

/-- The `'\n'` the line writer refuses is one that ends a line with content and no label colon. -/
theorem labelledLineByte_lf {a : TapcpState × Machine} (h : a.1.u32 ≠ 0 ∨ a.1.lidx = 0) :
    labelledLineByte lf a = lidxLineByte lf a := by
  unfold labelledLineByte lidxLineByte
  rw [if_neg fun ⟨_, hu, hl⟩ => h.elim (· hu) (hl ·)]

/-- On a line with a label colon, or a blank one, the line writer does what the loop with the
write position at `lidx` does, `'\n'` included. -/
theorem feedBytes_labelled_line (line : List UInt8) (hline : lf ∉ line)
    (hlab : colon ∈ line ∨ ∀ c ∈ line, isspace c = true) (s : TapcpState) (m : Machine)
    (hl : s.lidx = 0) (hfit : (lineLabel s.u32 line).length < lineBufSize ∧
      (lineBody s.u32 line).length ≤ lineBufSize) :
    feedBytes labelledLineByte (line ++ [lf]) (s, m) =
      feedBytes lidxLineByte (line ++ [lf]) (s, m) := by
  obtain ⟨b, h₁, -⟩ := feedBytes_lineBytes line hline s m hl hfit
  rw [feedBytes_append, feedBytes_append, feedBytes_labelled_eq line hline, h₁]
  simp only [feedBytes]
  rw [labelledLineByte_lf]
  rcases hlab with hc | hsp
  · -- the label colon has set the flag, or it was set already
    left
    by_cases hu : s.u32 = 0
    · simp only [hu, hc, and_self, if_true]; decide
    · simp [hu]
  · -- a blank line has an empty body
    right
    have hcol : colon ∉ line := fun hc => absurd (hsp colon hc) (by decide)
    have hbody : lineBody s.u32 line = [] := by
      rw [lineBody, if_neg fun h => hcol h.2]
      exact List.dropWhile_eq_nil_iff.2 hsp
    simp [hbody]

/-! ### A text -/

/-- The bytes of a text of lines, each ended by a `'\n'`. -/
def textBytes (lines : List (List UInt8)) : List UInt8 := lines.flatMap (· ++ [lf])

@[simp] theorem textBytes_nil : textBytes [] = [] := rfl

@[simp] theorem textBytes_cons (line : List UInt8) (lines : List (List UInt8)) :
    textBytes (line :: lines) = line ++ [lf] ++ textBytes lines := List.flatMap_cons _ _ _

/-- The words a text of lines stores, with the colon flag `u32` as it starts: the words of each
line's body, in order, with the flag carried from line to line. -/
def textWords : UInt32 → List (List UInt8) → List UInt32
  | _, [] => []
  | u32, line :: lines => lineWords (lineBody u32 line) ++ textWords (nextFlag u32 line) lines

/-- The colon flag after a text of lines. -/
def textFlag : UInt32 → List (List UInt8) → UInt32
  | u32, [] => u32
  | u32, line :: lines => textFlag (nextFlag u32 line) lines

/-- Every line of a text, with the colon flag it comes with, holds no `'\n'`, has a label that
leaves room in `line_buf` for its colon and a body that leaves room for its `'\n'`. -/
def TextFits : UInt32 → List (List UInt8) → Prop
  | _, [] => True
  | u32, line :: lines => lf ∉ line ∧ (lineLabel u32 line).length < lineBufSize ∧
      (lineBody u32 line).length < lineBufSize ∧ TextFits (nextFlag u32 line) lines

instance instDecidableTextFits :
    (u32 : UInt32) → (lines : List (List UInt8)) → Decidable (TextFits u32 lines)
  | _, [] => isTrue trivial
  | u32, line :: lines =>
    have := instDecidableTextFits (nextFlag u32 line) lines
    inferInstanceAs (Decidable (_ ∧ _ ∧ _ ∧ _))

/-- `"0: 1 a"` and `"2"`: the label is dropped, and the flag is clear again for the second
line. -/
example : textWords 0 [[48, 58, 32, 49, 32, 97], [50]] = [1, 10, 2] ∧
    TextFits 0 [[48, 58, 32, 49, 32, 97], [50]] := by decide

theorem advanceWords_u32 (s : TapcpState) (u : UInt32) (k : Nat) :
    advanceWords { s with u32 := u } k = { advanceWords s k with u32 := u } := rfl

/-- A text of lines from the start of a line: the words of every line are stored in order. -/
theorem feedBytes_text (lines : List (List UInt8)) :
    ∀ (s : TapcpState) (m : Machine), s.lidx = 0 → TextFits s.u32 lines →
      (s.nleft < 0 ∨ 4 * (textWords s.u32 lines).length ≤ s.nleft) →
      ∃ m', feedBytes lidxLineByte (textBytes lines) (s, m) =
          .ok ({ advanceWords s (textWords s.u32 lines).length with
            u32 := textFlag s.u32 lines }, m') ∧
        StoresWords m m' s.ptr (textWords s.u32 lines) := by
  induction lines with
  | nil => intro s m _ _ _; exact ⟨m, by simp [feedBytes, textWords, textFlag],
      StoresWords.refl m _⟩
  | cons line lines ih =>
    intro s m hl hfit hn
    obtain ⟨hlf, hlabel, hbody, hrest⟩ := hfit
    simp only [textWords, textFlag, List.length_append] at hn ⊢
    obtain ⟨m₁, h₁, hst₁⟩ := feedBytes_line line hlf s m hl ⟨hlabel, hbody⟩ (by omega)
    obtain ⟨m', h₂, hst₂⟩ := ih { advanceWords s (lineWords (lineBody s.u32 line)).length with
      u32 := nextFlag s.u32 line } m₁ hl hrest (advanceWords_room hn)
    refine ⟨m', ?_, hst₁.trans hst₂⟩
    rw [textBytes_cons, feedBytes_append, h₁]
    simp only [h₂]
    rw [advanceWords_u32, advanceWords_add s _ _ (by omega)]

/-- On a text whose lines all hold a label colon or are blank, the line writer does what the loop
with the write position at `lidx` does. -/
theorem feedBytes_labelled_text (lines : List (List UInt8))
    (hlab : ∀ line ∈ lines, colon ∈ line ∨ ∀ c ∈ line, isspace c = true) :
    ∀ (s : TapcpState) (m : Machine), s.lidx = 0 → TextFits s.u32 lines →
      (s.nleft < 0 ∨ 4 * (textWords s.u32 lines).length ≤ s.nleft) →
      feedBytes labelledLineByte (textBytes lines) (s, m) =
        feedBytes lidxLineByte (textBytes lines) (s, m) := by
  induction lines with
  | nil => intros; rfl
  | cons line lines ih =>
    intro s m hl hfit hn
    obtain ⟨hlf, hlabel, hbody, hrest⟩ := hfit
    simp only [textWords, List.length_append] at hn
    obtain ⟨m₁, h₁, -⟩ := feedBytes_line line hlf s m hl ⟨hlabel, hbody⟩ (by omega)
    rw [textBytes_cons, feedBytes_append labelledLineByte,
      feedBytes_append lidxLineByte, feedBytes_labelled_line line hlf
        (hlab line (List.mem_cons_self _ _)) s m hl ⟨hlabel, hbody.le⟩, h₁]
    exact ih (fun l h => hlab l (List.mem_cons_of_mem _ h)) { advanceWords s
      (lineWords (lineBody s.u32 line)).length with u32 := nextFlag s.u32 line } m₁ hl hrest
      (advanceWords_room hn)

/-- A text whose lines all hold a label colon or are blank, in any cut into calls and pbufs. -/
theorem runWrites_labelled_text (lines : List (List UInt8)) (calls : List Chain) (s : TapcpState)
    (m : Machine) (htext : transferBytes calls = textBytes lines)
    (hlab : ∀ line ∈ lines, colon ∈ line ∨ ∀ c ∈ line, isspace c = true) (hl : s.lidx = 0)
    (hfit : TextFits s.u32 lines) (hn : s.nleft < 0 ∨ 4 * (textWords s.u32 lines).length ≤ s.nleft) :
    ∃ m', runWrites writeFpgaWordsAscii calls s m =
        .ok ({ advanceWords s (textWords s.u32 lines).length with
          u32 := textFlag s.u32 lines }, m') ∧
      StoresWords m m' s.ptr (textWords s.u32 lines) := by
  obtain ⟨m₁, h₁, hst⟩ := feedBytes_text lines s m hl hfit hn
  rw [← feedBytes_labelled_text lines hlab s m hl hfit hn, ← htext] at h₁
  obtain ⟨m', hrun, hm'⟩ := runWrites_follows calls s m m _ (Follows.start s m) h₁
  exact ⟨m', hrun, hm' ▸ hst⟩

theorem length_lineLabel_le (u32 : UInt32) (t : List UInt8) : (lineLabel u32 t).length ≤ t.length := by
  unfold lineLabel
  split_ifs
  · exact ((List.dropWhile_suffix isspace).length_le).trans (List.takeWhile_prefix _).length_le
  · exact Nat.zero_le _

theorem length_lineBody_le (u32 : UInt32) (t : List UInt8) : (lineBody u32 t).length ≤ t.length := by
  refine ((List.dropWhile_suffix isspace).length_le).trans ?_
  split_ifs
  · exact (List.drop_suffix _ _).length_le
  · exact le_rfl

/-- Text that ends inside a line, with no `'\n'` after its last line: the words of its lines are
stored, and nothing of the unfinished line, which waits in `line_buf` for its `'\n'`. Under the
same conditions on the cut as for a text of whole lines. -/
theorem runWrites_text_tail (lines : List (List UInt8)) (tail : List UInt8) (calls : List Chain)
    (s : TapcpState) (m : Machine) (htext : transferBytes calls = textBytes lines ++ tail)
    (hcut : (∀ line ∈ lines, colon ∈ line ∨ ∀ c ∈ line, isspace c = true) ∨
      ∀ chain ∈ calls, lf ∉ chain.flatten.dropLast)
    (hl : s.lidx = 0) (hfit : TextFits s.u32 lines) (hlf : lf ∉ tail)
    (htail : (lineLabel (textFlag s.u32 lines) tail).length < lineBufSize ∧
      (lineBody (textFlag s.u32 lines) tail).length ≤ lineBufSize)
    (hn : s.nleft < 0 ∨ 4 * (textWords s.u32 lines).length ≤ s.nleft) :
    ∃ s' m', runWrites writeFpgaWordsAscii calls s m = .ok (s', m') ∧
      StoresWords m m' s.ptr (textWords s.u32 lines) := by
  obtain ⟨m₁, h₁, hst⟩ := feedBytes_text lines s m hl hfit hn
  -- the unfinished line only goes into `line_buf`
  obtain ⟨b, h₂, -⟩ := feedBytes_lineBytes tail hlf { advanceWords s (textWords s.u32 lines).length
    with u32 := textFlag s.u32 lines } m₁ hl htail
  obtain ⟨a, h₂, hst₂⟩ : ∃ a, feedBytes lidxLineByte tail ({ advanceWords s
      (textWords s.u32 lines).length with u32 := textFlag s.u32 lines }, m₁) = .ok a ∧
      StoresWords m a.2 s.ptr (textWords s.u32 lines) := ⟨_, h₂, hst⟩
  rcases hcut with hlab | hcalls
  · -- labelled lines: any cut, through the line writer
    have h : feedBytes labelledLineByte (transferBytes calls) (s, m) = .ok a := by
      rw [htext, feedBytes_append, feedBytes_labelled_text lines hlab s m hl hfit hn, h₁]
      exact (feedBytes_labelled_eq tail hlf _).trans h₂
    obtain ⟨m', hrun, hm'⟩ := runWrites_follows calls s m m a (Follows.start s m) h
    exact ⟨_, m', hrun, hm' ▸ hst₂⟩
  · -- calls that end at line ends
    refine ⟨a.1, a.2, ?_, hst₂⟩
    rw [runWrites_feedBytes calls
      (fun chain hc s m => writeFpgaWordsAscii_atLidx s m chain (hcalls chain hc)) s m, htext,
      feedBytes_append, h₁]
    exact h₂

/-- A line that holds only a label does not end: its `'\n'` comes with `lidx` at 0 and is dropped
as whitespace, and the colon flag stays set. The next line then goes whole into `line_buf`, its
label and colon included, and the scan reads the words of the whole line: its label is stored as
data, and its colon ends its words. -/
theorem writeFpgaWordsAscii_empty_label (label line : List UInt8) (calls : List Chain)
    (s : TapcpState) (m : Machine) (htext : transferBytes calls = textBytes [label ++ [colon], line])
    (hl : s.lidx = 0) (hu : s.u32 = 0)
    (hlabel : lf ∉ label ∧ colon ∉ label ∧ (label.dropWhile isspace).length < lineBufSize)
    (hline : lf ∉ line ∧ colon ∈ line ∧ (line.dropWhile isspace).length < lineBufSize)
    (hn : s.nleft < 0 ∨ 4 * (lineWords (line.dropWhile isspace)).length ≤ s.nleft) :
    ∃ s' m', runWrites writeFpgaWordsAscii calls s m = .ok (s', m') ∧
      StoresWords m m' s.ptr (lineWords (line.dropWhile isspace)) := by
  have hcolon : (0 : UInt32) = 0 ∧ colon ∈ label ++ [colon] := ⟨rfl, by simp⟩
  have hbody₁ : lineBody 0 (label ++ [colon]) = [] := by
    rw [lineBody, if_pos hcolon, takeWhile_ne_sep label [] hlabel.2.1, drop_sep]; rfl
  have hflag : nextFlag 0 (label ++ [colon]) = 1 := by
    rw [nextFlag, if_pos hbody₁, if_pos hcolon]
  have hbody₂ : lineBody 1 line = line.dropWhile isspace := by
    rw [lineBody, if_neg fun h => absurd h.1 (by decide)]
  have hwords : textWords s.u32 [label ++ [colon], line] = lineWords (line.dropWhile isspace) := by
    simp [textWords, hu, hbody₁, hflag, hbody₂, lineWords, digitWords, pendingWord]
  have hfit : TextFits s.u32 [label ++ [colon], line] := by
    rw [hu]
    refine ⟨by simpa [hlabel.1] using (by decide : lf ≠ colon), ?_, by rw [hbody₁]; decide, ?_⟩
    · rw [lineLabel, if_pos hcolon, takeWhile_ne_sep label [] hlabel.2.1]
      exact hlabel.2.2
    · rw [hflag]
      exact ⟨hline.1, by simp [lineLabel, lineBufSize], by rw [hbody₂]; exact hline.2.2, trivial⟩
  obtain ⟨m', hrun, hst⟩ := runWrites_labelled_text _ calls s m htext (by simp [hline.2.1]) hl hfit
    (hwords ▸ hn)
  exact ⟨_, m', hrun, hwords ▸ hst⟩

/-- `"0:\n00000004: 00000001\n"` in one call stores `0x4`, the label of its second line, and not
the word `0x1`. -/
theorem writeFpgaWordsAscii_empty_label_four :
    transferBytes [[ascii "0:\n00000004: 00000001\n"]] =
      textBytes [ascii "0" ++ [colon], ascii "00000004: 00000001"] ∧
    (writeStart 8).lidx = 0 ∧ (writeStart 8).u32 = 0 ∧
    (lf ∉ ascii "0" ∧ colon ∉ ascii "0" ∧ ((ascii "0").dropWhile isspace).length < lineBufSize) ∧
    (lf ∉ ascii "00000004: 00000001" ∧ colon ∈ ascii "00000004: 00000001" ∧
      ((ascii "00000004: 00000001").dropWhile isspace).length < lineBufSize) ∧
    ((writeStart 8).nleft < 0 ∨
      4 * (lineWords ((ascii "00000004: 00000001").dropWhile isspace)).length ≤
        (writeStart 8).nleft) ∧
    lineWords ((ascii "00000004: 00000001").dropWhile isspace) = [4] ∧
    ∃ s' m', runWrites writeFpgaWordsAscii [[ascii "0:\n00000004: 00000001\n"]] (writeStart 8)
        zeroMachine = .ok (s', m') ∧
      StoresWords zeroMachine m' (writeStart 8).ptr
        (lineWords ((ascii "00000004: 00000001").dropWhile isspace)) :=
  ⟨by decide, rfl, rfl, by decide, by decide, by decide, by decide,
    writeFpgaWordsAscii_empty_label (ascii "0") _ _ _ _ (by decide) rfl rfl (by decide) (by decide)
      (by decide)⟩

end CasperTapcp

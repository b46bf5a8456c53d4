import CasperTapcp.Open.Bounds

/-!
# The offset and length fields of a name

`tapcp_help_msg` writes the names the openers take as `[/dev/]DEVNAME[.OFFSET[.LENGTH]]`,
`/fpga.OFFSET[.LENGTH]` and `/cpu.OFFSET[.LENGTH]`, each field a string of one to eight hex
digits. `offLenField` is that grammar, `hex ('.' hex)?`, of the text after the first dot, and a
`DigitString` is one of its `hex`, in digits of either case as `hex_to_u32` reads them. The
fields of the grammar are the digit strings, alone or two with a dot between them
(`offLenField_cases`), and `fieldOffset` and `fieldLength` are their values.

The fields of the grammar are read as it says: on a read, `memCommand` gives the values of the
digits, the length 1 when it is absent, before aligning them (`memCommand_read_fields`), and the
openers go on with those values, for a device named with `/dev/` or without it too
(`openers_read_grammar`). But the openers never check the grammar, so they take more than it.
`hex_to_u32` stops at the first byte that is not a hex digit, or after eight digits, and the
openers then skip one byte, whatever it is, and read the length from the next; what follows the
length is never looked at. So any byte separates the two fields, and what follows them is ignored
(`memCommand_ignores_separator`); `devCommand` reads the field after a device name the same way
(`devCommand_read_fields`). Names whose field breaks the grammar are opened: a letter in place of
the dot, nine digits, an empty length, a third field, and, on a device, an empty offset
(`openers_accept_malformed`).
-/

set_option autoImplicit false
set_option relaxedAutoImplicit false

namespace CasperTapcp

/-! ### The grammar of the help text -/

/-- One to eight hex digits, the `hex` of the grammar. -/
def hexField (s : List UInt8) : Bool := 0 < s.length && s.length ≤ 8 && s.all isxdigit

/-- The grammar `hex ('.' hex)?` of what follows the first dot of a name. -/
def offLenField (s : List UInt8) : Bool :=
  let off := s.takeWhile (· ≠ dot)
  hexField off && (off.length = s.length || hexField (s.drop (off.length + 1)))

/-- A `hex` of the grammar: one to eight hex digits, in either case, as `hex_to_u32` reads
them. -/
structure DigitString where
  text : List UInt8
  isxdigit_of_mem : ∀ c ∈ text, isxdigit c = true
  length_pos : 0 < text.length
  length_le : text.length ≤ 8

namespace DigitString

/-- The word the digits stand for. -/
def value (d : DigitString) : UInt32 := digitsWord d.text

theorem hexField_text (d : DigitString) : hexField d.text = true := by
  have hall : d.text.all isxdigit = true := List.all_eq_true.mpr d.isxdigit_of_mem
  simp [hexField, d.length_pos, d.length_le, hall]

/-- The `hex` fields of the grammar are the digit strings. -/
def ofHexField (s : List UInt8) (h : hexField s = true) : DigitString :=
  have h' : (0 < s.length ∧ s.length ≤ 8) ∧ ∀ c ∈ s, isxdigit c = true := by
    simpa [hexField] using h
  ⟨s, h'.2, h'.1.1, h'.1.2⟩

theorem dot_not_mem (d : DigitString) : dot ∉ d.text :=
  fun h => absurd (d.isxdigit_of_mem _ h) (by decide)

theorem takeWhile_text (d : DigitString) (rest : List UInt8) :
    (d.text ++ rest).takeWhile (· ≠ dot) = d.text ++ rest.takeWhile (· ≠ dot) :=
  List.takeWhile_append_of_pos fun c hc => by
    simp only [ne_eq, decide_eq_true_eq]
    rintro rfl
    exact d.dot_not_mem hc

/-- `hex_to_u32` at the digits, followed by a byte that is not a hex digit, reads their value
and stops after them. -/
theorem hexToU32_text (d : DigitString) (pre rest : List UInt8) (u32 : UInt32)
    (hstop : isxdigit (rest.getD 0 0) = false) :
    hexToU32 (fun i => (pre ++ d.text ++ rest).getD i 0) pre.length u32 =
      (pre.length + d.text.length, d.value) := by
  refine hexToU32_bytes _ _ _ _ d.isxdigit_of_mem d.length_pos d.length_le (fun j hj => ?_)
    fun _ => ?_
  · rw [List.append_assoc, List.getD_append_right _ _ _ _ (by omega), Nat.add_sub_cancel_left,
      List.getD_append _ _ _ _ hj]
  · rw [List.append_assoc, List.getD_append_right _ _ _ _ (by omega), Nat.add_sub_cancel_left,
      List.getD_append_right _ _ _ _ le_rfl, Nat.sub_self]
    exact hstop

theorem text_head_ne_zero (d : DigitString) (rest : List UInt8) :
    (d.text ++ rest).getD 0 0 ≠ 0 := by
  rw [List.getD_append _ _ _ _ d.length_pos, List.getD_eq_getElem _ _ d.length_pos]
  exact (xdigit_props (d.isxdigit_of_mem _ (List.getElem_mem _))).2.2

end DigitString

/-- The fields of the grammar are one digit string, or two with a dot between them. -/
theorem offLenField_cases {F : List UInt8} (hF : offLenField F = true) :
    (∃ d : DigitString, F = d.text) ∨ ∃ d₁ d₂ : DigitString, F = d₁.text ++ dot :: d₂.text := by
  simp only [offLenField, Bool.and_eq_true, Bool.or_eq_true, decide_eq_true_eq] at hF
  obtain ⟨hoff, hlen⟩ := hF
  by_cases hdot : dot ∈ F
  · -- a dot: the length is the field after it
    obtain ⟨pre, rest, hpre, rfl⟩ := exists_first_sep hdot
    rw [takeWhile_ne_sep pre rest hpre] at hoff hlen
    rw [drop_sep] at hlen
    refine .inr ⟨.ofHexField pre hoff, .ofHexField rest (hlen.resolve_left ?_), rfl⟩
    simp
  · -- no dot: the offset alone
    have hall : F.takeWhile (· ≠ dot) = F :=
      List.takeWhile_eq_self_iff.2 fun c hc => by
        simp only [ne_eq, decide_eq_true_eq]
        rintro rfl
        exact hdot hc
    rw [hall] at hoff
    exact .inl ⟨.ofHexField F hoff, rfl⟩

theorem takeWhile_digits (d : DigitString) : d.text.takeWhile (· ≠ dot) = d.text := by
  simpa using d.takeWhile_text []

/-- A digit string is a field of the grammar. -/
theorem offLenField_digits (d : DigitString) : offLenField d.text = true := by
  simp only [offLenField, takeWhile_digits, d.hexField_text]
  simp

/-- Two digit strings with a dot between them are a field of the grammar. -/
theorem offLenField_dot (d₁ d₂ : DigitString) : offLenField (d₁.text ++ dot :: d₂.text) = true := by
  simp only [offLenField, takeWhile_ne_sep _ _ d₁.dot_not_mem, drop_sep]
  simp [d₁.hexField_text, d₂.hexField_text]

/-! ### The values of a field of the grammar -/

/-- The offset a field of the grammar gives: the value of the digits before its dot. -/
def fieldOffset (F : List UInt8) : UInt32 := digitsWord (F.takeWhile (· ≠ dot))

/-- The length a field of the grammar gives, if it has one: the value of the digits after its
dot. -/
def fieldLength (F : List UInt8) : Option UInt32 :=
  let off := F.takeWhile (· ≠ dot)
  if off.length = F.length then none else some (digitsWord (F.drop (off.length + 1)))

@[simp] theorem fieldOffset_digits (d : DigitString) : fieldOffset d.text = d.value := by
  rw [fieldOffset, takeWhile_digits, DigitString.value]

@[simp] theorem fieldLength_digits (d : DigitString) : fieldLength d.text = none := by
  simp only [fieldLength, takeWhile_digits]
  simp

@[simp] theorem fieldOffset_dot (d₁ d₂ : DigitString) :
    fieldOffset (d₁.text ++ dot :: d₂.text) = d₁.value := by
  rw [fieldOffset, takeWhile_ne_sep _ _ d₁.dot_not_mem, DigitString.value]

@[simp] theorem fieldLength_dot (d₁ d₂ : DigitString) :
    fieldLength (d₁.text ++ dot :: d₂.text) = some d₂.value := by
  simp only [fieldLength, takeWhile_ne_sep _ _ d₁.dot_not_mem, drop_sep, List.length_append,
    List.length_cons]
  rw [if_neg (by omega)]
  rfl

/-! ### What `memCommand` reads -/

/-- What the parse of a field `d₁ c d₂ rest` sees, when `c` and the first byte of `rest` are not
hex digits: a first byte other than NUL, the value of `d₁` read up to `c`, and the value of `d₂`
read from the byte after `c`. -/
theorem field_parse (d₁ d₂ : DigitString) (c : UInt8) (rest : List UInt8)
    (hcx : isxdigit c = false) (hrest : isxdigit (rest.getD 0 0) = false) (u₁ u₂ : UInt32) :
    (d₁.text ++ c :: (d₂.text ++ rest)).getD 0 0 ≠ 0 ∧
      hexToU32 (fun i => (d₁.text ++ c :: (d₂.text ++ rest)).getD i 0) 0 u₁ =
        (d₁.text.length, d₁.value) ∧
      (d₁.text ++ c :: (d₂.text ++ rest)).getD d₁.text.length 0 = c ∧
      (hexToU32 (fun i => (d₁.text ++ c :: (d₂.text ++ rest)).getD i 0)
        (d₁.text.length + 1) u₂).2 = d₂.value := by
  have hoff := d₁.hexToU32_text [] (c :: (d₂.text ++ rest)) u₁ hcx
  have hlen := d₂.hexToU32_text (d₁.text ++ [c]) rest u₂ hrest
  simp only [List.nil_append, List.length_nil, Nat.zero_add] at hoff
  simp only [List.append_assoc, List.singleton_append, List.cons_append, List.nil_append,
    List.length_append, List.length_singleton] at hlen
  refine ⟨d₁.text_head_ne_zero _, hoff, ?_, by rw [hlen]⟩
  rw [List.getD_append_right _ _ _ _ le_rfl]
  simp

/-- On a read, a field of two digit strings is read as their values whatever byte other than
NUL and a hex digit stands between them, and whatever follows a byte that is not a hex digit
after them. -/
theorem memCommand_fields (d₁ d₂ : DigitString) (c : UInt8) (rest : List UInt8) (hc : c ≠ 0)
    (hcx : isxdigit c = false) (hrest : isxdigit (rest.getD 0 0) = false) :
    memCommand false (d₁.text ++ c :: (d₂.text ++ rest)) =
      some (d₁.value &&& ~~~3, (d₂.value + 3) &&& ~~~3) := by
  obtain ⟨h₀, hoff, hsep, hlen⟩ := field_parse d₁ d₂ c rest hcx hrest 0 1
  simp only [memCommand, h₀, if_false, hoff, hsep, ne_eq, hc, not_false_eq_true, and_self, if_true,
    hlen]

/-- What the parse of a field of one digit string sees: a first byte other than NUL, its value,
and NUL after it. -/
theorem digits_parse (d : DigitString) (u : UInt32) :
    d.text.getD 0 0 ≠ 0 ∧ hexToU32 (fun i => d.text.getD i 0) 0 u = (d.text.length, d.value) ∧
      d.text.getD d.text.length 0 = 0 := by
  have hoff := d.hexToU32_text [] [] u (by decide)
  have h₀ := d.text_head_ne_zero []
  simp only [List.append_nil, List.nil_append, List.length_nil, Nat.zero_add] at hoff h₀
  exact ⟨h₀, hoff, List.getD_eq_default _ _ le_rfl⟩

/-- On a read, a field of one digit string is read as its value, with the length 1. -/
theorem memCommand_digits (d : DigitString) :
    memCommand false d.text = some (d.value &&& ~~~3, 4) := by
  obtain ⟨h₀, hoff, hend⟩ := digits_parse d 0
  simp only [memCommand, h₀, if_false, hoff, hend, ne_eq, not_true_eq_false, and_false]
  rfl

/-- A read ignores which byte separates the offset from the length, and what follows the length
after a byte that is not a hex digit. -/
theorem memCommand_ignores_separator (d₁ d₂ : DigitString) (c : UInt8) (rest : List UInt8)
    (hc : c ≠ 0) (hcx : isxdigit c = false) (hrest : isxdigit (rest.getD 0 0) = false) :
    memCommand false (d₁.text ++ c :: (d₂.text ++ rest)) =
      memCommand false (d₁.text ++ dot :: d₂.text) := by
  rw [memCommand_fields d₁ d₂ c rest hc hcx hrest,
    ← memCommand_fields d₁ d₂ dot [] (by decide) (by decide) (by decide), List.append_nil]

/-- `1Xa.8` is read as `1.a`: the `X` separates the fields, and `.8` is ignored. -/
theorem memCommand_ignores_separator_X :
    (88 : UInt8) ≠ 0 ∧ isxdigit 88 = false ∧ isxdigit ([dot, hexDigit 8].getD 0 0) = false ∧
      memCommand false ((⟨ascii "1", by decide, by decide, by decide⟩ : DigitString).text ++
          88 :: ((⟨ascii "a", by decide, by decide, by decide⟩ : DigitString).text ++
            [dot, hexDigit 8])) =
        memCommand false ((⟨ascii "1", by decide, by decide, by decide⟩ : DigitString).text ++
          dot :: (⟨ascii "a", by decide, by decide, by decide⟩ : DigitString).text) :=
  ⟨by decide, by decide, by decide,
    memCommand_ignores_separator _ _ 88 [dot, hexDigit 8] (by decide) (by decide) (by decide)⟩

/-! ### What `devCommand` reads -/

/-- `devCommand` at `/dev/NAME.FIELD`, where `NAME` holds no dot: the name, and the parse of
`FIELD` when it does not start with NUL. -/
theorem devCommand_dev (write : Bool) (name field : List UInt8) (hname : dot ∉ name) :
    devCommand write (ascii "/dev/" ++ name ++ dot :: field) =
      if field.getD 0 0 ≠ 0 then
        let (p, cmdOff) := hexToU32 (field.getD · 0) 0 0
        (name, cmdOff, if write = false ∧ field.getD p 0 ≠ 0 then
          (hexToU32 (field.getD · 0) (p + 1) 0).2 else 0)
      else (name, 0, 0) := by
  have hdot : dot ∈ name ++ dot :: field := by simp
  have h5 : (ascii "/dev/").length = 5 := rfl
  rw [devCommand, List.append_assoc, List.take_left' h5, if_pos rfl, List.drop_left' h5]
  dsimp only
  rw [takeWhile_ne_sep _ _ hname, drop_sep, if_congr (and_iff_right hdot) rfl rfl]

/-- A name that does not start with `/dev/` does not start with it once a dot and a field are
added. -/
theorem take_five_ne_dev {name : List UInt8} (field : List UInt8)
    (hbare : name.take 5 ≠ ascii "/dev/") : (name ++ dot :: field).take 5 ≠ ascii "/dev/" := by
  intro h
  rcases le_or_lt 5 name.length with h5 | h5
  · rw [List.take_append_of_le_length h5] at h
    exact hbare h
  · have hmem : dot ∈ (name ++ dot :: field).take 5 := by
      rw [List.take_append_eq_append_take, List.take_of_length_le h5.le,
        show 5 - name.length = 4 - name.length + 1 by omega, List.take_succ_cons]
      simp
    rw [h] at hmem
    exact absurd hmem (by decide)

/-- A device named without `/dev/` is read as if it had it. -/
theorem devCommand_bare (write : Bool) (name field : List UInt8)
    (hbare : name.take 5 ≠ ascii "/dev/") :
    devCommand write (name ++ dot :: field) = devCommand write (ascii "/dev/" ++ name ++ dot :: field) := by
  have h5 : (ascii "/dev/").length = 5 := rfl
  rw [devCommand, devCommand, if_neg (take_five_ne_dev field hbare), List.append_assoc,
    List.take_left' h5, if_pos rfl, List.drop_left' h5]

/-- A field of the grammar is read by `casper_tapcp_open_mem` as its offset and its length, the
length 1 when it is absent, aligned to words. -/
theorem memCommand_grammar {F : List UInt8} (hF : offLenField F = true) :
    memCommand false F = some (fieldOffset F &&& ~~~3, ((fieldLength F).getD 1 + 3) &&& ~~~3) := by
  rcases offLenField_cases hF with ⟨d, rfl⟩ | ⟨d₁, d₂, rfl⟩
  · rw [memCommand_digits, fieldOffset_digits, fieldLength_digits]
    rfl
  · rw [fieldOffset_dot, fieldLength_dot, Option.getD_some, ← List.append_nil d₂.text]
    exact memCommand_fields d₁ d₂ dot [] (by decide) (by decide) (by decide)

/-- A field of the grammar after `/dev/NAME.` is read by `casper_tapcp_open_dev` as its offset
and its length, the length 0 when it is absent. -/
theorem devCommand_grammar {F : List UInt8} (hF : offLenField F = true) (name : List UInt8)
    (hname : dot ∉ name) :
    devCommand false (ascii "/dev/" ++ name ++ dot :: F) =
      (name, fieldOffset F, (fieldLength F).getD 0) := by
  rcases offLenField_cases hF with ⟨d, rfl⟩ | ⟨d₁, d₂, rfl⟩
  · obtain ⟨h₀, hoff, hend⟩ := digits_parse d 0
    simp only [devCommand_dev _ _ _ hname, ne_eq, h₀, not_false_eq_true, if_true, hoff, hend,
      not_true_eq_false, and_false, if_false, fieldOffset_digits, fieldLength_digits,
      Option.getD_none]
  · obtain ⟨h₀, hoff, hsep, hlen⟩ := field_parse d₁ d₂ dot [] (by decide) (by decide) 0 0
    rw [List.append_nil] at h₀ hoff hsep hlen
    simp only [devCommand_dev _ _ _ hname, ne_eq, h₀, not_false_eq_true, if_true, hoff, hsep,
      show dot ≠ 0 by decide, hlen, and_self, fieldOffset_dot, fieldLength_dot, Option.getD_some]

example : fieldOffset (ascii "10.a") = 0x10 ∧ fieldLength (ascii "10.a") = some 0xA := by decide

end CasperTapcp

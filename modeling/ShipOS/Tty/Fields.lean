/-
**Fields of numbers and strings (`format_unsigned`, `format_signed`, `format_string`).**

What the conversions write, as texts. A number is a lead (its sign or its prefix) with digits behind
it, padded to the width; a string is cut to the precision and padded. `Iso.text` is the text that
ISO C prescribes for `%d`, `%u`, `%o`, `%x` and `%X`, written down from the standard.

* `formatNumber_text` — a number that fits `buf` is laid out by `padField`;
* `number_layout` — the text of a number has the length of its field, and its digits give the value;
* `iso_text_iff` — the text is that of the standard exactly when the conversion is neither a zero
  with precision zero nor a `%#o` whose precision asks for zeros;
* `formatString_truncates` — `format_string` writes the padded string up to the size of `buf`.
-/

import ShipOS.Tty.Digits

namespace ShipOS

open ByteMem Buffer

/-! ### The layout of a number -/

/-- A number padded to its width: with spaces on the right (`-`), with zeros behind the lead (`0`,
unless there is a precision), or with spaces on the left. -/
def padField (spec : FmtSpec) (lead digits : List Byte) : List Byte :=
  let room := spec.width.toNat - (lead.length + digits.length)
  if spec.flags.left then lead ++ digits ++ List.replicate room (chr ' ')
  else if spec.flags.zero ∧ spec.precision < 0 then lead ++ List.replicate room (chr '0') ++ digits
  else List.replicate room (chr ' ') ++ lead ++ digits

/-- The digits with the zeros that make them `count`. -/
def zeroExtend (count : Int) (digits : List Byte) : List Byte :=
  List.replicate (count.toNat - digits.length) (chr '0') ++ digits

theorem zeroExtend_length (count : Int) (digits : List Byte) :
    (zeroExtend count digits).length = max count.toNat digits.length := by
  unfold zeroExtend
  simp
  omega

theorem padField_length (spec : FmtSpec) (lead digits : List Byte) :
    (padField spec lead digits).length = max spec.width.toNat (lead.length + digits.length) := by
  unfold padField
  dsimp only
  split
  · simp
    omega
  · split <;> simp <;> omega

section

variable {lead numbuf : List Byte} {spec : FmtSpec}

theorem padField_zeroExtend_length (spec : FmtSpec) (lead : List Byte) (digits : numbuf ≠ []) :
    ((padField spec lead (zeroExtend spec.precision numbuf)).length : Int) =
      fieldWidth lead.length numbuf.length spec := by
  have one : 1 ≤ numbuf.length := List.length_pos_iff.mpr digits
  rw [padField_length, zeroExtend_length]
  unfold fieldWidth
  omega

theorem numberField_eq (digits : numbuf ≠ []) {p : Padding}
    (done : calcPadding lead.length numbuf.length spec = .ok p) :
    numberField lead numbuf spec.flags.left p =
      padField spec lead (zeroExtend spec.precision numbuf) := by
  have one : 1 ≤ numbuf.length := List.length_pos_iff.mpr digits
  obtain ⟨zeros, paddings⟩ := calcPadding_value one done
  have numZeros : p.numZeros.toNat = spec.precision.toNat - numbuf.length := by omega
  have room : (fieldWidth lead.length numbuf.length spec -
      (lead.length + max (numbuf.length : Int) spec.precision)).toNat =
        spec.width.toNat - (lead.length + (zeroExtend spec.precision numbuf).length) := by
    rw [zeroExtend_length]
    unfold fieldWidth
    omega
  unfold numberField padField
  dsimp only
  rw [← room, numZeros]
  split at paddings <;> rename_i zeroed
  · obtain ⟨noPadding, zeroPad⟩ := paddings
    rw [noPadding, zeroPad, if_neg zeroed.2.1, if_neg zeroed.2.1, if_neg zeroed.2.1,
      if_pos ⟨zeroed.1, zeroed.2.2⟩]
    simp only [zeroExtend, Int.toNat_zero, List.replicate_zero, List.nil_append, List.append_nil,
      List.append_assoc]
  · obtain ⟨noPadding, padding⟩ := paddings
    rw [noPadding, padding]
    cases left : spec.flags.left with
    | true => simp [zeroExtend]
    | false =>
      have spaced : ¬ (spec.flags.zero ∧ spec.precision < 0) :=
        fun both => zeroed ⟨both.1, by simp [left], both.2⟩
      rw [if_neg spaced]
      simp [zeroExtend]

/-- **A number that fits `buf`** is written as its padded field and a NUL; `pos` is the width of the
field. -/
theorem formatNumber_text (digits : numbuf ≠ [])
    (fits : fieldWidth lead.length numbuf.length spec ≤ 255) :
    formatNumber lead numbuf spec =
      .ok (fieldWidth lead.length numbuf.length spec,
        padField spec lead (zeroExtend spec.precision numbuf) ++ [0]) := by
  have one : 1 ≤ numbuf.length := List.length_pos_iff.mpr digits
  obtain ⟨p, done⟩ := calcPadding_ok one (fits.trans (by decide))
  have length := padField_zeroExtend_length spec lead digits
  rw [formatNumber, done, ok_bind, buildNumber_eq, numberField_eq digits done, if_pos, length]
  unfold bufSize
  omega

/-- Spaces, the lead, zeros, the digits and spaces, with spaces on one side at most. -/
theorem padField_segments (spec : FmtSpec) (lead numbuf : List Byte) :
    ∃ left zeros right, (left = 0 ∨ right = 0) ∧
      padField spec lead (zeroExtend spec.precision numbuf) =
        List.replicate left (chr ' ') ++ lead ++ List.replicate zeros (chr '0') ++ numbuf ++
          List.replicate right (chr ' ') := by
  unfold padField zeroExtend
  dsimp only
  generalize spec.width.toNat - _ = room
  generalize spec.precision.toNat - _ = zeros
  split
  · exact ⟨0, zeros, room, .inl rfl, by simp⟩
  · split
    · refine ⟨0, room + zeros, 0, .inl rfl, ?_⟩
      simp only [List.replicate_add, List.replicate_zero, List.nil_append, List.append_nil,
        List.append_assoc]
    · exact ⟨room, zeros, 0, .inr rfl, by simp⟩

end

/-- **The text of a number**: what leads it, zeros and the numeral of `n`, with spaces on one side at
most. -/
def NumberText (lead : List Byte) (radix n : Nat) (text : List Byte) : Prop :=
  ∃ left zeros right digits, (left = 0 ∨ right = 0) ∧ Canonical radix n digits ∧
    text = List.replicate left (chr ' ') ++ lead ++ List.replicate zeros (chr '0') ++ digits ++
      List.replicate right (chr ' ')

/-- The number with a sign and an absolute value. -/
def withSign (sign : List Byte) (n : Nat) : Int := if sign = ascii "-" then -n else n

theorem withSign_signLead (num : Int) (flags : FmtFlags) :
    withSign (signLead num flags) (absNum num) = num := by
  have unsigned : (if flags.plus then ascii "+" else if flags.space then ascii " " else []) ≠
      ascii "-" := by
    cases flags.plus <;> cases flags.space <;> decide
  unfold withSign signLead absNum
  by_cases negative : num < 0
  · rw [if_pos negative, if_pos negative, if_pos rfl]
    omega
  · rw [if_neg negative, if_neg negative, if_neg unsigned]
    omega

theorem radixLead_mem (num radix : Nat) (numbuf : List Byte) (flags : FmtFlags) :
    radixLead num radix numbuf flags ∈
      [[], ascii "0", ascii "0x", ascii "0X", ascii "0b", ascii "0B"] := by
  unfold radixLead
  split_ifs <;> decide

theorem formatNumber_layout {radix n : Nat} {lead numbuf : List Byte} {spec : FmtSpec}
    (canonical : Canonical radix n numbuf)
    (fits : fieldWidth lead.length numbuf.length spec < 256) :
    ∃ text, formatNumber lead numbuf spec =
        .ok (fieldWidth lead.length numbuf.length spec, text ++ [0]) ∧
      (text.length : Int) = fieldWidth lead.length numbuf.length spec ∧
        NumberText lead radix n text := by
  obtain ⟨left, zeros, right, side, segments⟩ := padField_segments spec lead numbuf
  exact ⟨_, formatNumber_text canonical.nonempty (Int.le_of_lt_add_one fits),
    padField_zeroExtend_length spec lead canonical.nonempty, left, zeros, right, numbuf, side,
    canonical, segments⟩

/-- **Formatted numbers never misstate the value or the layout**: in every radix, with every flag,
width and precision for which the field stays below 256 characters. What is returned is the number
of characters before the NUL. -/
theorem number_layout (num : Word) {radix : Nat} (known : radix ∈ [2, 8, 10, 16]) (spec : FmtSpec) :
    (signedLength num.toInt radix spec < 256 →
      ∃ text n, formatSigned num.toInt radix spec =
          .ok (signedLength num.toInt radix spec, text ++ [0]) ∧
        (text.length : Int) = signedLength num.toInt radix spec ∧
        NumberText (signLead num.toInt spec.flags) radix n text ∧
        withSign (signLead num.toInt spec.flags) n = num.toInt) ∧
    (unsignedLength num.toNat radix spec < 256 →
      ∃ text lead, formatUnsigned num.toNat radix spec =
          .ok (unsignedLength num.toNat radix spec, text ++ [0]) ∧
        (text.length : Int) = unsignedLength num.toNat radix spec ∧
        lead ∈ [[], ascii "0", ascii "0x", ascii "0X", ascii "0b", ascii "0B"] ∧
        NumberText lead radix num.toNat text) := by
  have bounds : 2 ≤ radix ∧ radix ≤ 16 := by
    simp only [List.mem_cons, List.not_mem_nil, or_false] at known
    omega
  constructor
  · intro fits
    obtain ⟨text, done, length, shape⟩ :=
      formatNumber_layout (utoa64_canonical bounds.1 bounds.2 (absNum num.toInt) false) fits
    exact ⟨text, absNum num.toInt, done, length, shape, withSign_signLead ..⟩
  · intro fits
    obtain ⟨text, done, length, shape⟩ :=
      formatNumber_layout (utoa64_canonical bounds.1 bounds.2 num.toNat spec.flags.upper) fits
    exact ⟨text, _, done, length, radixLead_mem .., shape⟩

/-- The least `int64_t` in a field of 24 characters, and the same bits in octal with a prefix. -/
theorem number_layout_least :
    (∃ text n, formatSigned (-2 ^ 63) 10 { width := 24 } = .ok (24, text ++ [0]) ∧
        (text.length : Int) = 24 ∧ NumberText (ascii "-") 10 n text ∧
        withSign (ascii "-") n = -2 ^ 63) ∧
      ∃ text lead, formatUnsigned (2 ^ 63) 8 { flags := { hash := true } } = .ok (23, text ++ [0]) ∧
        (text.length : Int) = 23 ∧
        lead ∈ [[], ascii "0", ascii "0x", ascii "0X", ascii "0b", ascii "0B"] ∧
        NumberText lead 8 (2 ^ 63) text :=
  have signed : signedLength (BitVec.intMin 64).toInt 10 { width := 24 } = 24 := by decide +kernel
  have unsigned : unsignedLength (BitVec.intMin 64).toNat 8 { flags := { hash := true } } = 23 := by
    decide +kernel
  ⟨signed ▸ (number_layout (BitVec.intMin 64) (by decide) { width := 24 }).1 (by rw [signed]; decide),
    unsigned ▸ (number_layout (BitVec.intMin 64) (by decide) { flags := { hash := true } }).2
      (by rw [unsigned]; decide)⟩

/-! ### The conversions of ISO C -/

/-- The integer conversions that the standard defines and the interpreters have. -/
inductive Conversion
  | d | u | o | x | X
  deriving DecidableEq, Repr

/-- What the interpreters call for a conversion. -/
def Conversion.callFormat (num : Word) (spec : FmtSpec) : Conversion → Except Fault (Int × List Byte)
  | .d => formatSigned num.toInt 10 spec
  | .u => formatUnsigned num.toNat 10 { spec with flags.upper := false }
  | .o => formatUnsigned num.toNat 8 { spec with flags.upper := false }
  | .x => formatUnsigned num.toNat 16 { spec with flags.upper := false }
  | .X => formatUnsigned num.toNat 16 { spec with flags.upper := true }

/-- What a conversion leaves in `buf`. -/
def Conversion.run (num : Word) (spec : FmtSpec) (conv : Conversion) : Except Fault (List Byte) :=
  leftInBuf (conv.callFormat num spec)

def Conversion.radix : Conversion → Nat
  | .d | .u => 10
  | .o => 8
  | .x | .X => 16

/-- The absolute value that is converted. -/
def Conversion.value (num : Word) : Conversion → Nat
  | .d => num.toInt.natAbs
  | _ => num.toNat

namespace Iso

/-- The digits of a value, none for zero. -/
def digits (conv : Conversion) (num : Word) : List Byte :=
  (Nat.digits conv.radix (conv.value num)).reverse.map fun digit =>
    (digitChars (conv = .X)).getD digit 0

/-- At least as many digits as the precision says, which is 1 by default: a zero with precision zero
has none. The `#` of `%o` increases the precision, if and only if necessary, to make the first digit
a zero. -/
def body (conv : Conversion) (num : Word) (spec : FmtSpec) : List Byte :=
  let digits := zeroExtend (if spec.precision < 0 then 1 else spec.precision) (digits conv num)
  if conv = .o ∧ spec.flags.hash ∧ digits.head? ≠ some (chr '0') then chr '0' :: digits else digits

/-- The sign of `%d`, and the `0x` or `0X` that `#` puts before a nonzero value. -/
def lead (conv : Conversion) (num : Word) (spec : FmtSpec) : List Byte :=
  match conv with
  | .d =>
    if num.toInt < 0 then ascii "-"
    else if spec.flags.plus then ascii "+" else if spec.flags.space then ascii " " else []
  | .x => if spec.flags.hash ∧ num ≠ 0 then ascii "0x" else []
  | .X => if spec.flags.hash ∧ num ≠ 0 then ascii "0X" else []
  | .u | .o => []

/-- **The characters that ISO C prescribes.** -/
def text (conv : Conversion) (num : Word) (spec : FmtSpec) : List Byte :=
  padField spec (lead conv num spec) (body conv num spec)

/-- The flags that have a meaning: `#` has none for `%d` and `%u`. -/
def Defined (conv : Conversion) (spec : FmtSpec) : Prop :=
  conv = .d ∨ conv = .u → spec.flags.hash = false

end Iso

/-- **Where the code departs from the standard**: a zero with precision zero (but for `%#o`, which is
to print it), and `%#o` with a precision beyond the digits, which gets a zero too many. -/
def Departs (conv : Conversion) (num : Word) (spec : FmtSpec) : Prop :=
  (num = 0 ∧ spec.precision = 0 ∧ ¬ (conv = .o ∧ spec.flags.hash)) ∨
    (num ≠ 0 ∧ conv = .o ∧ spec.flags.hash ∧ (Iso.digits conv num).length < spec.precision)

instance (conv : Conversion) (num : Word) (spec : FmtSpec) : Decidable (Departs conv num spec) :=
  inferInstanceAs (Decidable (_ ∨ _))

/-- What the code puts before the digits. -/
def Conversion.lead (conv : Conversion) (num : Word) (spec : FmtSpec) : List Byte :=
  if conv = .o ∧ spec.flags.hash ∧ num ≠ 0 then ascii "0" else Iso.lead conv num spec

/-- The digits of the code: those of the value, `0` for zero. -/
def Conversion.numbuf (conv : Conversion) (num : Word) : List Byte :=
  if num = 0 then [chr '0'] else Iso.digits conv num

section

variable {conv : Conversion} {num : Word} {spec : FmtSpec}

theorem value_eq_zero : conv.value num = 0 ↔ num = 0 := by
  have unsigned : num.toNat = 0 ↔ num = 0 := (BitVec.toNat_eq (x := num) (y := 0)).symm
  cases conv with
  | d =>
    rw [Conversion.value, Int.natAbs_eq_zero, ← BitVec.toInt_zero, BitVec.toInt_inj]
    rfl
  | _ => exact unsigned

theorem digits_zero : Iso.digits conv 0 = [] := by
  rw [Iso.digits, value_eq_zero.mpr rfl, Nat.digits_zero]
  rfl

theorem numbuf_eq : utoa64 (conv.value num) conv.radix (conv = .X) = conv.numbuf num := by
  have low : 2 ≤ conv.radix := by cases conv <;> decide
  have high : conv.radix ≤ 16 := by cases conv <;> decide
  rw [utoa64_digits low high, Conversion.numbuf]
  by_cases zero : num = 0
  · rw [if_pos zero, if_pos (value_eq_zero.mpr zero)]
    rfl
  · rw [if_neg zero, if_neg fun isZero => zero (value_eq_zero.mp isZero), ← List.map_reverse]
    rfl

theorem numbuf_ne_nil (conv : Conversion) (num : Word) : conv.numbuf num ≠ [] :=
  numbuf_eq ▸ utoa64_ne_nil _ _ _

/-- The first digit of a nonzero value is not zero. -/
theorem digits_head (conv : Conversion) (nonzero : num ≠ 0) :
    (Iso.digits conv num).head? ≠ some (chr '0') := by
  have low : 2 ≤ conv.radix := by cases conv <;> decide
  have high : conv.radix ≤ 16 := by cases conv <;> decide
  have canonical := utoa64_canonical low high (conv.value num) (conv = .X)
  rw [numbuf_eq, Conversion.numbuf, if_neg nonzero] at canonical
  intro leading
  have value := canonical.value
  rw [canonical.leading leading] at value
  refine nonzero (value_eq_zero.mp (value.symm.trans ?_))
  show 0 * conv.radix + 0 = 0
  rw [Nat.zero_mul]

theorem numbuf_head (conv : Conversion) (nonzero : num ≠ 0) :
    (conv.numbuf num).headD 0 ≠ chr '0' := by
  have head := digits_head conv nonzero
  rw [Conversion.numbuf, if_neg nonzero, List.headD_eq_head?_getD]
  cases first : (Iso.digits conv num).head? with
  | none => exact by decide
  | some c => exact fun zero => head (first.trans (congrArg some zero))

/-- The prefixes of the code. -/
theorem radixLead_eq (num : Word) (unsigned : conv ≠ .d) (defined : Iso.Defined conv spec) :
    radixLead num.toNat conv.radix (conv.numbuf num)
      { spec.flags with upper := conv = .X } = conv.lead num spec := by
  have nonzero : num.toNat ≠ 0 ↔ num ≠ 0 := not_congr (BitVec.toNat_eq (x := num) (y := 0)).symm
  unfold radixLead Conversion.lead Iso.lead
  dsimp only
  by_cases hash : spec.flags.hash
  · by_cases zero : num = 0
    · cases conv <;> simp [hash, zero, Conversion.radix] at unsigned ⊢
    · have head := numbuf_head conv zero
      cases conv with
      | d => exact absurd rfl unsigned
      | u => cases (defined (.inr rfl)).symm.trans hash
      | o =>
        have prefixed : Conversion.radix .o = 8 ∧ num.toNat ≠ 0 ∧
          (Conversion.numbuf .o num).headD 0 ≠ chr '0' := ⟨rfl, nonzero.mpr zero, head⟩
        rw [if_pos hash, if_neg (fun hex => absurd hex.1 (by decide)), if_pos prefixed,
          if_pos ⟨rfl, hash, zero⟩]
      | x => simp [hash, Conversion.radix, nonzero]
      | X => simp [hash, Conversion.radix, nonzero]
  · cases conv <;> simp [hash] at unsigned ⊢

/-- The code formats these digits behind this lead. -/
theorem callFormat_eq (defined : Iso.Defined conv spec) :
    conv.callFormat num spec = formatNumber (conv.lead num spec) (conv.numbuf num) spec := by
  have lead := fun unsigned => radixLead_eq num unsigned defined
  rw [← numbuf_eq] at lead ⊢
  cases conv with
  | d =>
    have same : absNum num.toInt = num.toInt.natAbs := by
      unfold absNum
      split <;> omega
    show formatNumber (signLead num.toInt spec.flags) (utoa64 (absNum num.toInt) 10 false) spec = _
    rw [same]
    rfl
  | _ =>
    rw [← lead (by decide)]
    rfl

/-! ### The texts compared -/

/-- The text of the code. -/
def Conversion.text (conv : Conversion) (num : Word) (spec : FmtSpec) : List Byte :=
  padField spec (conv.lead num spec) (zeroExtend spec.precision (conv.numbuf num))

/-- A zero as the lead or as the first digit. -/
theorem padField_zero (digits : List Byte) :
    padField spec (ascii "0") digits = padField spec [] (chr '0' :: digits) := by
  have lead : ascii "0" = [chr '0'] := rfl
  unfold padField
  rw [lead, List.length_singleton, List.length_nil, List.length_cons, Nat.zero_add, Nat.add_comm 1]
  dsimp only
  split
  · rfl
  · split
    · rw [List.nil_append, List.singleton_append, ← List.replicate_succ, List.replicate_succ',
        List.append_assoc, List.singleton_append]
    · simp

theorem zeroExtend_of_le {count : Int} {digits : List Byte} (enough : count ≤ digits.length) :
    zeroExtend count digits = digits := by
  rw [zeroExtend, Nat.sub_eq_zero_of_le (by omega)]
  rfl

/-- The digits of zero: none with precision zero. -/
theorem body_zero (shown : ¬ (spec.precision = 0 ∧ ¬ (conv = .o ∧ spec.flags.hash))) :
    Iso.body conv 0 spec = zeroExtend spec.precision [chr '0'] := by
  unfold Iso.body zeroExtend
  rw [digits_zero]
  simp only [List.length_nil, Nat.sub_zero, List.append_nil, List.length_singleton]
  by_cases noDigits : spec.precision = 0
  · have alternative : conv = .o ∧ spec.flags.hash := not_not.mp fun not => shown ⟨noDigits, not⟩
    rw [noDigits, if_pos ⟨alternative.1, alternative.2, by decide⟩]
    rfl
  · obtain ⟨count, positive⟩ : ∃ count,
        (if spec.precision < 0 then 1 else spec.precision).toNat = count + 1 :=
      Nat.exists_eq_succ_of_ne_zero (by split <;> omega)
    have before : spec.precision.toNat - 1 = count := by
      split at positive <;> omega
    rw [positive, before, List.replicate_succ, if_neg (by simp), ← List.replicate_succ,
      List.replicate_succ']

/-- The digits of any other value. -/
theorem body_digits (nonzero : num ≠ 0) :
    Iso.body conv num spec =
      if conv = .o ∧ spec.flags.hash ∧ spec.precision ≤ (Iso.digits conv num).length then
        chr '0' :: Iso.digits conv num
      else zeroExtend spec.precision (Iso.digits conv num) := by
  have one : 1 ≤ (Iso.digits conv num).length := by
    have nonempty := numbuf_ne_nil conv num
    rw [Conversion.numbuf, if_neg nonzero] at nonempty
    exact List.length_pos_iff.mpr nonempty
  have least : zeroExtend (if spec.precision < 0 then 1 else spec.precision) (Iso.digits conv num) =
      zeroExtend spec.precision (Iso.digits conv num) := by
    split
    · rw [zeroExtend_of_le (by omega), zeroExtend_of_le (by omega)]
    · rfl
  unfold Iso.body
  dsimp only
  rw [least]
  by_cases enough : spec.precision ≤ (Iso.digits conv num).length
  · rw [zeroExtend_of_le enough]
    have head := digits_head conv nonzero
    by_cases alternative : conv = .o ∧ spec.flags.hash
    · rw [if_pos ⟨alternative.1, alternative.2, head⟩, if_pos ⟨alternative.1, alternative.2, enough⟩]
    · rw [if_neg fun all => alternative ⟨all.1, all.2.1⟩,
        if_neg fun all => alternative ⟨all.1, all.2.1⟩]
  · obtain ⟨zeros, missing⟩ : ∃ zeros,
        spec.precision.toNat - (Iso.digits conv num).length = zeros + 1 :=
      Nat.exists_eq_succ_of_ne_zero (by omega)
    have head : (zeroExtend spec.precision (Iso.digits conv num)).head? = some (chr '0') := by
      rw [zeroExtend, missing]
      rfl
    rw [if_neg fun all => all.2.2 head, if_neg fun all => enough all.2.2]

/-- **The code follows the standard** where it does not depart from it. -/
theorem text_eq (follows : ¬ Departs conv num spec) :
    conv.text num spec = Iso.text conv num spec := by
  unfold Conversion.text Iso.text Conversion.lead Conversion.numbuf
  by_cases zero : num = 0
  · subst zero
    have shown : ¬ (spec.precision = 0 ∧ ¬ (conv = .o ∧ spec.flags.hash)) :=
      fun both => follows (.inl ⟨rfl, both⟩)
    rw [if_neg fun all => all.2.2 rfl, if_pos rfl, body_zero shown]
  · rw [if_neg zero, body_digits zero]
    by_cases alternative : conv = .o ∧ spec.flags.hash
    · obtain ⟨rfl, hash⟩ := alternative
      have enough : spec.precision ≤ (Iso.digits .o num).length :=
        Int.not_lt.mp fun more => follows (.inr ⟨zero, rfl, hash, more⟩)
      rw [if_pos ⟨rfl, hash, zero⟩, if_pos ⟨rfl, hash, enough⟩, zeroExtend_of_le enough, padField_zero]
      rfl
    · rw [if_neg fun all => alternative ⟨all.1, all.2.1⟩,
        if_neg fun all => alternative ⟨all.1, all.2.1⟩]

/-- The number of characters other than spaces. -/
def ink (text : List Byte) : Nat := text.countP (· ≠ chr ' ')

theorem ink_append (a b : List Byte) : ink (a ++ b) = ink a + ink b := List.countP_append

theorem ink_padField (spaced : ¬ spec.precision < 0) (lead digits : List Byte) :
    ink (padField spec lead digits) = ink lead + ink digits := by
  have spaces : ∀ n, ink (List.replicate n (chr ' ')) = 0 := by
    intro n
    rw [ink, List.countP_replicate]
    simp
  unfold padField
  dsimp only
  split
  · rw [ink_append, ink_append, spaces, Nat.add_zero]
  · rw [if_neg fun both => spaced both.2, ink_append, ink_append, spaces, Nat.zero_add]

/-- **Where it departs** there is one character too many. -/
theorem ink_text (departs : Departs conv num spec) :
    ink (conv.text num spec) = ink (Iso.text conv num spec) + 1 := by
  unfold Conversion.text Iso.text Conversion.lead Conversion.numbuf
  obtain ⟨rfl, noDigits, plain⟩ | ⟨nonzero, rfl, hash, more⟩ := departs
  · have body : Iso.body conv 0 spec = [] := by
      unfold Iso.body zeroExtend
      dsimp only
      rw [digits_zero, noDigits, if_neg fun all => plain ⟨all.1, all.2.1⟩]
      rfl
    rw [ink_padField (by omega), ink_padField (by omega), body, if_neg fun all => all.2.2 rfl,
      if_pos rfl, noDigits]
    rfl
  · have lead : ink (Iso.lead .o num spec) = 0 := rfl
    have zero : ink (ascii "0") = 1 := rfl
    rw [ink_padField (by omega), ink_padField (by omega), if_neg nonzero, if_pos ⟨rfl, hash, nonzero⟩,
      body_digits nonzero, if_neg fun all => absurd all.2.2 (by omega), lead, zero, Nat.zero_add,
      Nat.add_comm]

/-- **Integer conversions follow ISO C exactly where they do not depart**, for every value and
every flag, width and precision that the standard defines and whose text fits `buf`. -/
theorem iso_text_iff (defined : Iso.Defined conv spec)
    (fits : (Iso.text conv num spec).length ≤ 255) :
    conv.run num spec = .ok (Iso.text conv num spec ++ [0]) ↔ ¬ Departs conv num spec := by
  have nonempty := numbuf_ne_nil conv num
  have length := padField_zeroExtend_length spec (conv.lead num spec) nonempty
  rw [Conversion.run, callFormat_eq defined]
  constructor
  · intro done departs
    have small := (formatNumber_ok_iff nonempty).mp (leftInBuf_ok_iff.mp ⟨_, done⟩)
    rw [formatNumber_text nonempty small] at done
    have same := List.append_cancel_right (Except.ok.inj done)
    have more := ink_text departs
    rw [Conversion.text, same] at more
    exact Nat.succ_ne_self _ more.symm
  · intro follows
    have same := text_eq follows
    rw [← same] at fits ⊢
    rw [formatNumber_text nonempty (length ▸ Int.ofNat_le.mpr fits)]
    rfl

end

/-- `%#5o` of eight. -/
theorem iso_text_iff_octal :
    Conversion.run 8 { flags := { hash := true }, width := 5 } .o = .ok (ascii "  010" ++ [0]) :=
  (iso_text_iff (fun other => by simp at other) (by decide +kernel)).mpr (by decide +kernel)

/-- **Two departures**: `%.0d` of zero prints a digit, and `%#.3o` of eight a second zero. -/
theorem departures :
    Conversion.run 0 { precision := 0 } .d = .ok (ascii "0" ++ [0]) ∧
      Iso.text .d 0 { precision := 0 } = [] ∧
      Conversion.run 8 { flags := { hash := true }, precision := 3 } .o = .ok (ascii "0010" ++ [0]) ∧
      Iso.text .o 8 { flags := { hash := true }, precision := 3 } = ascii "010" := by
  decide +kernel

/-! ### Strings -/

/-- The reference text: the string cut to the precision and padded to the width. -/
def stringField (spec : FmtSpec) (str : List Byte) : List Byte :=
  let shown := if 0 ≤ spec.precision then str.take spec.precision.toNat else str
  let spaces := List.replicate (spec.width.toNat - shown.length) (chr ' ')
  if spec.flags.left then shown ++ spaces else spaces ++ shown

/-- The string that is converted. -/
def stringArg (text : Word → List Byte) (str : Word) : List Byte :=
  cstr (if str = 0 then ascii "(null)" else text str)

/-- The part of the string that is shown. -/
theorem take_precision (precision : Int) (str : List Byte) :
    str.take (if 0 ≤ precision ∧ precision.toNat < str.length then precision.toNat else str.length) =
      if 0 ≤ precision then str.take precision.toNat else str := by
  by_cases given : 0 ≤ precision
  · rw [if_pos given]
    by_cases cut : precision.toNat < str.length
    · rw [if_pos ⟨given, cut⟩]
    · rw [if_neg fun both => cut both.2, List.take_of_length_le (Nat.le_refl _),
        List.take_of_length_le (Nat.le_of_not_lt cut)]
  · rw [if_neg given, if_neg fun both => given both.1, List.take_of_length_le (Nat.le_refl _)]

/-- **`format_string` truncates exactly**: the reference text up to one character less than the
size, and a NUL, in a buffer of that size. -/
theorem formatString_truncates (text : Word → List Byte) (str : Word) {spec : FmtSpec}
    (width : spec.width ≤ intMax) {size : Nat} (one : 1 ≤ size) (small : size ≤ 2 ^ 31 - 1) :
    formatString size text str size spec =
      .ok ((min (size - 1) (stringField spec (stringArg text str)).length : Nat),
        (stringField spec (stringArg text str)).take (size - 1) ++ [0]) := by
  unfold formatString stringField stringArg
  dsimp only
  generalize cstr (if str = 0 then ascii "(null)" else text str) = string
  have shown := take_precision spec.precision string
  have slen := congrArg List.length shown
  rw [List.length_take, Nat.min_eq_left (by split <;> omega)] at slen
  rw [shown, slen]
  generalize (if 0 ≤ spec.precision then string.take spec.precision.toNat else string) = shown
  have padding : (if 0 < spec.width ∧ shown.length < spec.width.toNat then
      spec.width - shown.length else 0).toNat = spec.width.toNat - shown.length := by
    split <;> omega
  rw [checkIf_of (by omega), ok_bind, padding, storePadded_eq (Nat.sub_le size 1), ok_bind]
  generalize (if spec.flags.left then _ else _ : List Byte) = field
  have length : (field.take (size - 1)).length = min (size - 1) field.length := List.length_take
  rw [store_of_lt (by omega), ok_bind, length]
  have returned : (BitVec.ofNat 32 (min (size - 1) field.length)).toInt =
      (min (size - 1) field.length : Nat) := by
    rw [BitVec.toInt_eq_toNat_of_lt]
    · rw [BitVec.toNat_ofNat, Nat.mod_eq_of_lt (by omega)]
    · rw [BitVec.toNat_ofNat]
      omega
  rw [returned]

/-- A null pointer cut by the precision, and again by a buffer of four characters. -/
theorem formatString_truncates_null :
    formatString 4 (fun _ => []) 0 4 { width := 6, precision := 5 } =
      .ok (3, ascii " (n" ++ [0]) :=
  formatString_truncates (fun _ => []) 0 (by decide) (by decide) (by decide)

end ShipOS

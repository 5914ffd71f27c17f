/-
**Formatted numbers and strings (`str_utils.c`).**

`format_unsigned`, `format_signed` and `format_string` write a value into the 256-byte `buf` of
`printf` and `serial_printf`. Every `int` computation goes through `checkInt`, which fails where C
leaves the result undefined, and every store through `Buffer.store`, which fails past the end of
`buf`; a list stands for what has been stored. The functions return it with their `pos`.

* `calcPadding_length` — paddings, zeros, digits and what leads them add up to the `fieldWidth`;
* `formatNumber_ok_iff` — a number is written without a fault exactly when its field has at most
  255 characters;
* `formatString_ok` — `format_string`, which is given the size of `buf`, always writes.
-/

import Mathlib.Data.Nat.Digits.Defs
import ShipOS.Lib.Text
import ShipOS.Memory.Layout

namespace ShipOS

open ByteMem Buffer

/-! ### Characters, `int` and `buf` -/

/-- What a call does that C does not define: an `int` result out of range, a store past `buf`. -/
inductive Fault
  | overflow
  | overrun
  deriving DecidableEq, Repr

def chr (c : Char) : Byte := BitVec.ofNat 8 c.toNat

def ascii (s : String) : List Byte := s.toList.map chr

/-- The characters of a string before its NUL. -/
def cstr (s : List Byte) : List Byte := s.takeWhile (· ≠ 0)

def intMax : Int := 2 ^ 31 - 1

/-- The result of an `int` computation. -/
def checkInt (i : Int) : Except Fault Int :=
  if -2 ^ 31 ≤ i ∧ i ≤ intMax then .ok i else .error .overflow

/-- `int x = 0; if (cond) x = i;`. -/
def checkIf (cond : Prop) [Decidable cond] (i : Int) : Except Fault Int :=
  if cond then checkInt i else .ok 0

/-- `sizeof(buf)`. -/
def bufSize : Nat := 256

/-- `if (cond) loop`, for a loop that stores into `buf`. -/
def onlyIf (cond : Bool) (loop : List Byte → Except Fault (List Byte)) (buf : List Byte) :
    Except Fault (List Byte) :=
  if cond then loop buf else .ok buf

theorem checkInt_of_le {i : Int} (nonneg : 0 ≤ i) (le : i ≤ intMax) : checkInt i = .ok i :=
  if_pos ⟨by omega, le⟩

theorem checkInt_of_lt {i : Int} (lt : intMax < i) : checkInt i = .error .overflow :=
  if_neg (by omega)

theorem checkInt_ok {i j : Int} (done : checkInt i = .ok j) : j = i := by
  unfold checkInt at done
  split at done
  · exact (Except.ok.inj done).symm
  · cases done

theorem checkIf_ok {cond : Prop} [Decidable cond] {i j : Int} (done : checkIf cond i = .ok j) :
    j = if cond then i else 0 := by
  unfold checkIf at done
  split at done <;> rename_i holds
  · rw [if_pos holds, checkInt_ok done]
  · rw [if_neg holds, Except.ok.inj done]

theorem checkIf_of {cond : Prop} [Decidable cond] {i : Int} (fits : cond → 0 ≤ i ∧ i ≤ intMax) :
    checkIf cond i = .ok (if cond then i else 0) := by
  unfold checkIf
  split <;> rename_i holds
  · exact checkInt_of_le (fits holds).1 (fits holds).2
  · rfl

/-! ### Format specifications -/

/-- The `FMT_FLAG_*` bits. -/
structure FmtFlags where
  left : Bool := false
  plus : Bool := false
  space : Bool := false
  hash : Bool := false
  zero : Bool := false
  upper : Bool := false
  deriving DecidableEq, Repr

/-- The `FMT_LEN_*` values. -/
inductive FmtLen
  | default | hh | h | l | ll | z
  deriving DecidableEq, Repr

/-- `struct fmt_spec`; a width or a precision of `-1` is not specified. -/
structure FmtSpec where
  flags : FmtFlags := {}
  width : Int := -1
  precision : Int := -1
  length : FmtLen := .default
  deriving DecidableEq, Repr

/-! ### Numbers -/

/-- `utoa64`: the loop `while (num)` stores the digits from the least significant one on and
`reverse_str` turns them round. -/
def utoa64 (num radix : Nat) (uppercase : Bool) : List Byte :=
  let radix := if radix < 2 ∨ radix > 16 then 10 else radix
  let digits := if uppercase then ascii "0123456789ABCDEF" else ascii "0123456789abcdef"
  let str :=
    if num = 0 then [chr '0'] else (Nat.digits radix num).map fun digit => digits.getD digit 0
  str.reverse

/-- The padding of a number: spaces, zeros for the width and zeros for the precision. -/
structure Padding where
  padding : Int
  zeroPad : Int
  numZeros : Int

/-- The part `Calculate padding` that `format_unsigned` and `format_signed` have in common;
`leadLen` is the length of the prefix or of the sign. -/
def calcPadding (leadLen numlen : Nat) (spec : FmtSpec) : Except Fault Padding := do
  let precision := if spec.precision < 0 then 1 else spec.precision
  let numZeros ← checkIf (numlen < precision) (precision - numlen)
  let totalDigits ← checkInt (numlen + numZeros)
  let totalLen ← checkInt (leadLen + totalDigits)
  let padding ← checkIf (spec.width > totalLen) (spec.width - totalLen)
  let zeroed := spec.flags.zero ∧ ¬ spec.flags.left ∧ spec.precision < 0
  .ok { padding := if zeroed then 0 else padding
        zeroPad := if zeroed then padding else 0
        numZeros := numZeros }

/-- The part `Build output` that both have in common. -/
def buildNumber (lead numbuf : List Byte) (left : Bool) (p : Padding) :
    Except Fault (Int × List Byte) := do
  let put := storeAll bufSize Fault.overrun
  let spaces := List.replicate p.padding.toNat (chr ' ')
  let buf ← onlyIf (!left) (put spaces) []
  let buf ← put lead buf
  let buf ← put (List.replicate p.zeroPad.toNat (chr '0')) buf
  let buf ← put (List.replicate p.numZeros.toNat (chr '0')) buf
  let buf ← put numbuf buf
  let buf ← onlyIf left (put spaces) buf
  let pos := buf.length
  let buf ← store bufSize .overrun 0 buf
  .ok (pos, buf)

/-- A number with what leads its digits. -/
def formatNumber (lead numbuf : List Byte) (spec : FmtSpec) : Except Fault (Int × List Byte) := do
  let p ← calcPadding lead.length numbuf.length spec
  buildNumber lead numbuf spec.flags.left p

/-- The prefix that `format_unsigned` determines. -/
def radixLead (num radix : Nat) (numbuf : List Byte) (flags : FmtFlags) : List Byte :=
  if flags.hash then
    if radix = 16 ∧ num ≠ 0 then if flags.upper then ascii "0X" else ascii "0x"
    else if radix = 8 ∧ num ≠ 0 ∧ numbuf.headD 0 ≠ chr '0' then ascii "0"
    else if radix = 2 ∧ num ≠ 0 then if flags.upper then ascii "0B" else ascii "0b"
    else []
  else []

def formatUnsigned (num radix : Nat) (spec : FmtSpec) : Except Fault (Int × List Byte) :=
  let numbuf := utoa64 num radix spec.flags.upper
  formatNumber (radixLead num radix numbuf spec.flags) numbuf spec

/-- The sign that `format_signed` determines. -/
def signLead (num : Int) (flags : FmtFlags) : List Byte :=
  if num < 0 then ascii "-"
  else if flags.plus then ascii "+"
  else if flags.space then ascii " "
  else []

/-- `abs_num`, in 64 bits also for the least `int64_t`. -/
def absNum (num : Int) : Nat := if num < 0 then (-(num + 1)).toNat + 1 else num.toNat

def formatSigned (num : Int) (radix : Nat) (spec : FmtSpec) : Except Fault (Int × List Byte) :=
  formatNumber (signLead num spec.flags) (utoa64 (absNum num) radix false) spec

/-! ### Strings -/

/-- The three loops of `format_string`, which share `pos` and its limit. -/
def storePadded (cap limit : Nat) (left : Bool) (spaces shown : List Byte) :
    Except Fault (List Byte) := do
  let put := storeUpTo cap Fault.overrun limit
  let buf ← onlyIf (!left) (put spaces) []
  let buf ← put shown buf
  onlyIf left (put spaces) buf

/-- `format_string` into a buffer of `cap` characters; `text` gives the string at an address. What is
returned is a `size_t`, cut to an `int`. -/
def formatString (cap : Nat) (text : Word → List Byte) (str : Word) (bufSize' : Nat)
    (spec : FmtSpec) : Except Fault (Int × List Byte) := do
  let str := cstr (if str = 0 then ascii "(null)" else text str)
  let slen := str.length
  let slen := if 0 ≤ spec.precision ∧ spec.precision.toNat < slen then spec.precision.toNat
    else slen
  let padding ← checkIf (0 < spec.width ∧ slen < spec.width.toNat) (spec.width - slen)
  let spaces := List.replicate padding.toNat (chr ' ')
  let buf ← storePadded cap (bufSize' - 1) spec.flags.left spaces (str.take slen)
  let pos := buf.length
  let buf ← store cap .overrun 0 buf
  .ok ((BitVec.ofNat 32 pos).toInt, buf)

/-- What one of these calls leaves in `buf`. -/
def leftInBuf (call : Except Fault (Int × List Byte)) : Except Fault (List Byte) := Prod.snd <$> call

theorem leftInBuf_ok_iff {call : Except Fault (Int × List Byte)} :
    (∃ buf, leftInBuf call = .ok buf) ↔ ∃ result, call = .ok result := by
  cases call with
  | error fault => exact ⟨nofun, nofun⟩
  | ok result => exact ⟨fun _ => ⟨result, rfl⟩, fun _ => ⟨result.2, rfl⟩⟩

/-! ### The length of a field -/

/-- The number of characters a number takes. -/
def fieldWidth (leadLen numlen : Nat) (spec : FmtSpec) : Int :=
  max spec.width (leadLen + max (numlen : Int) spec.precision)

/-- The characters of a signed number: the width, or the sign and the digits that are needed. -/
def signedLength (num : Int) (radix : Nat) (spec : FmtSpec) : Int :=
  fieldWidth (signLead num spec.flags).length (utoa64 (absNum num) radix false).length spec

/-- The characters of an unsigned number. -/
def unsignedLength (num radix : Nat) (spec : FmtSpec) : Int :=
  let numbuf := utoa64 num radix spec.flags.upper
  fieldWidth (radixLead num radix numbuf spec.flags).length numbuf.length spec

section

variable {leadLen numlen : Nat} {spec : FmtSpec} {p : Padding}

/-- The paddings: the zeros that the precision asks for, and what is missing to the width as zeros
or as spaces. -/
theorem calcPadding_value (one : 1 ≤ numlen) (done : calcPadding leadLen numlen spec = .ok p) :
    p.numZeros = max (numlen : Int) spec.precision - numlen ∧
      if spec.flags.zero ∧ ¬ spec.flags.left ∧ spec.precision < 0 then
        p.padding = 0 ∧
          p.zeroPad = fieldWidth leadLen numlen spec - (leadLen + max (numlen : Int) spec.precision)
      else
        p.zeroPad = 0 ∧
          p.padding = fieldWidth leadLen numlen spec -
            (leadLen + max (numlen : Int) spec.precision) := by
  unfold calcPadding at done
  obtain ⟨numZeros, zeros, afterZeros⟩ := bind_ok done
  obtain ⟨totalDigits, digits, afterDigits⟩ := bind_ok afterZeros
  obtain ⟨totalLen, total, afterTotal⟩ := bind_ok afterDigits
  obtain ⟨padding, padded, last⟩ := bind_ok afterTotal
  have zerosEq : numZeros = max (numlen : Int) spec.precision - numlen := by
    rw [checkIf_ok zeros]
    split <;> split <;> omega
  have totalEq : totalLen = leadLen + max (numlen : Int) spec.precision := by
    rw [checkInt_ok total, checkInt_ok digits, zerosEq]
    omega
  have paddingEq : padding = max spec.width totalLen - totalLen := by
    rw [checkIf_ok padded]
    split <;> omega
  obtain rfl := Except.ok.inj last
  refine ⟨zerosEq, ?_⟩
  unfold fieldWidth
  rw [← totalEq, ← paddingEq]
  split <;> exact ⟨rfl, rfl⟩

theorem calcPadding_length (one : 1 ≤ numlen) (done : calcPadding leadLen numlen spec = .ok p) :
    0 ≤ p.padding ∧ 0 ≤ p.zeroPad ∧ 0 ≤ p.numZeros ∧
      p.padding + p.zeroPad + p.numZeros + leadLen + numlen = fieldWidth leadLen numlen spec := by
  obtain ⟨zeros, paddings⟩ := calcPadding_value one done
  unfold fieldWidth at paddings ⊢
  split at paddings <;> omega

theorem calcPadding_ok (one : 1 ≤ numlen) (small : fieldWidth leadLen numlen spec ≤ intMax) :
    ∃ p, calcPadding leadLen numlen spec = .ok p := by
  unfold fieldWidth at small
  unfold calcPadding
  dsimp only
  rw [checkIf_of (by split <;> omega), ok_bind]
  rw [checkInt_of_le (by split <;> split <;> omega) (by split <;> split <;> omega), ok_bind]
  rw [checkInt_of_le (by split <;> split <;> omega) (by split <;> split <;> omega), ok_bind]
  rw [checkIf_of (by split <;> split <;> omega), ok_bind]
  exact ⟨_, rfl⟩

end

section

variable {lead numbuf : List Byte} {left : Bool} {spec : FmtSpec}

/-- What `buildNumber` stores before the terminating NUL. -/
def numberField (lead numbuf : List Byte) (left : Bool) (p : Padding) : List Byte :=
  let spaces := List.replicate p.padding.toNat (chr ' ')
  (if left then [] else spaces) ++ lead ++ List.replicate p.zeroPad.toNat (chr '0') ++
    List.replicate p.numZeros.toNat (chr '0') ++ numbuf ++ (if left then spaces else [])

theorem onlyIf_storeAll (cond : Bool) (xs buf : List Byte) :
    onlyIf cond (storeAll bufSize .overrun xs) buf =
      storeAll bufSize .overrun (if cond then xs else []) buf := by
  cases cond <;> rfl

theorem buildNumber_eq (p : Padding) :
    buildNumber lead numbuf left p =
      if (numberField lead numbuf left p).length < bufSize then
        .ok ((numberField lead numbuf left p).length, numberField lead numbuf left p ++ [0])
      else .error .overrun := by
  have stores : buildNumber lead numbuf left p =
      (storeAll bufSize Fault.overrun (numberField lead numbuf left p) [] >>= fun buf =>
        store bufSize Fault.overrun 0 buf >>= fun buf' => .ok (↑buf.length, buf')) := by
    unfold buildNumber numberField
    simp only [onlyIf_storeAll, storeAll_append]
    cases left <;> simp
  rw [stores, storeAll_eq _ (Nat.zero_le _), List.length_nil, Nat.zero_add, List.nil_append]
  by_cases small : (numberField lead numbuf left p).length < bufSize
  · rw [if_pos (Nat.le_of_lt small), ok_bind, store_of_lt small, ok_bind, if_pos small]
  · rw [if_neg small]
    split
    · rw [ok_bind, store, if_neg small]
      rfl
    · rfl

/-- **A number is written without a fault exactly when its field fits** into `buf` with its NUL. -/
theorem formatNumber_ok_iff (digits : numbuf ≠ []) :
    (∃ result, formatNumber lead numbuf spec = .ok result) ↔
      fieldWidth lead.length numbuf.length spec ≤ 255 := by
  have one : 1 ≤ numbuf.length := List.length_pos_iff.mpr digits
  have length : ∀ p, calcPadding lead.length numbuf.length spec = .ok p →
      ((numberField lead numbuf spec.flags.left p).length : Int) =
        fieldWidth lead.length numbuf.length spec := by
    intro p done
    obtain ⟨padding, zeroPad, numZeros, total⟩ := calcPadding_length one done
    rw [← total]
    unfold numberField
    cases spec.flags.left <;> simp <;> omega
  constructor
  · intro written
    obtain ⟨buf, written⟩ := written
    obtain ⟨p, done, built⟩ := bind_ok written
    rw [buildNumber_eq] at built
    split at built
    · rename_i small
      rw [← length p done]
      exact Int.ofNat_le.mpr (Nat.le_of_lt_succ small)
    · cases built
  · intro fits
    obtain ⟨p, done⟩ := calcPadding_ok one (fits.trans (by decide))
    have small : (numberField lead numbuf spec.flags.left p).length < bufSize := by
      have := length p done
      unfold bufSize
      omega
    rw [formatNumber, done, ok_bind, buildNumber_eq, if_pos small]
    exact ⟨_, rfl⟩

end

/-- Whichever of the loops meets the limit, together they store what one loop stores. -/
theorem storePadded_eq {cap limit : Nat} (small : limit ≤ cap) (left : Bool)
    (spaces shown : List Byte) :
    storePadded cap limit left spaces shown =
      .ok ((if left then shown ++ spaces else spaces ++ shown).take limit) := by
  have both : ∀ xs ys : List Byte,
      (storeUpTo cap Fault.overrun limit xs [] >>= storeUpTo cap Fault.overrun limit ys) =
        .ok ((xs ++ ys).take limit) := by
    intro xs ys
    rw [← storeUpTo_append]
    exact storeUpTo_eq small (xs ++ ys) (Nat.zero_le limit)
  unfold storePadded
  cases left with
  | true => exact both shown spaces
  | false => exact (bind_congr fun buf => bind_pure _).trans (both spaces shown)

/-- `format_string` leaves room for the NUL whatever the string and the width. -/
theorem formatString_ok (text : Word → List Byte) (str : Word) {spec : FmtSpec}
    (width : spec.width ≤ intMax) :
    ∃ result, formatString bufSize text str bufSize spec = .ok result := by
  unfold formatString
  dsimp only
  rw [checkIf_of (by omega), ok_bind, storePadded_eq (by decide), ok_bind, store_of_lt, ok_bind]
  · exact ⟨_, rfl⟩
  · rw [List.length_take]
    exact (Nat.min_le_left _ _).trans_lt (by decide)

theorem utoa64_ne_nil (num radix : Nat) (uppercase : Bool) : utoa64 num radix uppercase ≠ [] := by
  unfold utoa64
  dsimp only
  rw [Ne, List.reverse_eq_nil_iff]
  split
  · simp
  · rename_i nonzero
    simpa [Nat.digits_eq_nil_iff_eq_zero] using nonzero

end ShipOS

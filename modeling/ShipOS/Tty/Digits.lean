/-
**Digits in place (`utoa64`, `itoa64`).**

Both functions store the digits of a number from the least significant one on, by a loop of
divisions, and turn them round in place (`reverse_str`); the array they write to is a function of
the index. A numeral is read by `numeral`, from its most significant digit on.

* `reverseLoop_eq` — the loop of `reverse_str` from any `i` and `j`;
* `digitLoop_eq` — the division loop stores the digits `Nat.digits` has;
* `utoa64Into_eq`, `itoa64Into_eq` — what the two functions leave in the array, and return;
* `utoa64_canonical` — the digits are below the radix, their value is the number, and none of them
  is a leading zero;
* `digits_in_place` — the two conversions, for every number and every radix.
-/

import Mathlib.Data.Nat.Digits.Lemmas
import ShipOS.Tty.Format

namespace ShipOS

open ByteMem Buffer

/-! ### `reverse_str` -/

/-- `while (i < j)`: the two characters are exchanged. -/
def reverseLoop (str : Nat → Byte) (i : Nat) (j : Int) : Nat → Byte :=
  if _more : i < j then
    let tmp := str i
    let str := Function.update str i (str j.toNat)
    reverseLoop (Function.update str j.toNat tmp) (i + 1) (j - 1)
  else str
termination_by (j - i).toNat

def reverseStr (str : Nat → Byte) (n : Nat) : Nat → Byte := reverseLoop str 0 (n - 1)

/-- **The loop turns round the cells from `i` to `j`** and keeps the others. -/
theorem reverseLoop_eq (str : Nat → Byte) (i : Nat) (j : Int) :
    reverseLoop str i j =
      fun k => if i ≤ k ∧ k ≤ j then str (i + j - k).toNat else str k := by
  induction str, i, j using reverseLoop.induct with
  | case1 str i j more tmp str' ih =>
    rw [reverseLoop, dif_pos more]
    refine ih.trans (funext fun k => ?_)
    by_cases first : k = i
    · subst first
      rw [if_neg (by omega), if_pos (by omega), Function.update_of_ne (by omega),
        show (k + j - k).toNat = j.toNat by omega]
      exact Function.update_self ..
    by_cases last : k = j.toNat
    · subst last
      rw [if_neg (by omega), if_pos (by omega), Function.update_self,
        show (i + j - j.toNat).toNat = i by omega]
    by_cases between : i ≤ k ∧ k ≤ j
    · rw [if_pos (by omega), if_pos between, Function.update_of_ne (by omega),
        show ((i + 1 : Nat) + (j - 1) - k).toNat = (i + j - k).toNat by omega]
      exact Function.update_of_ne (by omega) ..
    · rw [if_neg (by omega), if_neg between, Function.update_of_ne last]
      exact Function.update_of_ne first ..
  | case2 str i j done =>
    rw [reverseLoop, dif_neg done]
    funext k
    split
    · rw [show (i + j - k).toNat = k by omega]
    · rfl

theorem reverseStr_put (str : Nat → Byte) (xs : List Byte) :
    reverseStr (put str 0 xs) xs.length = put str 0 xs.reverse := by
  rw [reverseStr, reverseLoop_eq, ← turn_put]
  funext k
  by_cases inside : k < xs.length
  · rw [if_pos (by omega), if_pos inside, show ((0 : Nat) + ((xs.length : Int) - 1) - k).toNat =
      xs.length - 1 - k by omega]
  · rw [if_neg (by omega), if_neg inside]

/-! ### The conversions -/

/-- The radix that the loops divide by. -/
structure Radix where
  val : Nat
  low : 2 ≤ val
  high : val ≤ 16

/-- `if (radix < 2 || radix > 16) radix = 10;`. -/
def Radix.ofInt (radix : Int) : Radix :=
  if bad : radix < 2 ∨ radix > 16 then ⟨10, by decide, by decide⟩
  else ⟨radix.toNat, by omega, by omega⟩

def Radix.word (radix : Radix) : Word := BitVec.ofNat 64 radix.val

theorem Radix.word_toNat (radix : Radix) : radix.word.toNat = radix.val :=
  Nat.mod_eq_of_lt (Nat.lt_of_le_of_lt radix.high (by decide))

/-- `digits_upper` and `digits_lower`. -/
def digitChars (uppercase : Bool) : List Byte :=
  if uppercase then ascii "0123456789ABCDEF" else ascii "0123456789abcdef"

theorem word_div_lt {num : Word} (more : num ≠ 0) (radix : Radix) :
    (num / radix.word).toNat < num.toNat := by
  rw [BitVec.toNat_udiv, radix.word_toNat]
  have positive : 0 < num.toNat :=
    Nat.pos_of_ne_zero fun zero => more (BitVec.eq_of_toNat_eq zero)
  exact Nat.div_lt_self positive radix.low

/-- `while (num) { str[i++] = digits[num % radix]; num /= radix; }`. -/
def digitLoop (digits : List Byte) (radix : Radix) (num : Word) (i : Nat) (str : Nat → Byte) :
    Nat × (Nat → Byte) :=
  if _more : num ≠ 0 then
    digitLoop digits radix (num / radix.word) (i + 1)
      (Function.update str i (digits.getD (num % radix.word).toNat 0))
  else (i, str)
termination_by num.toNat
decreasing_by exact word_div_lt _more radix

/-- The digits of a number from the least significant one on. -/
def storeDigits (digits : List Byte) (radix : Radix) (num : Word) (str : Nat → Byte) :
    Nat × (Nat → Byte) :=
  if num = 0 then (1, Function.update str 0 (chr '0')) else digitLoop digits radix num 0 str

/-- `reverse_str(str, i); str[i] = '\0'; return i;`. -/
def finishDigits (stored : Nat × (Nat → Byte)) : Nat × (Nat → Byte) :=
  (stored.1, Function.update (reverseStr stored.2 stored.1) stored.1 0)

/-- `utoa64` on the array `str`: the number it returns, and the array. -/
def utoa64Into (num : Word) (str : Nat → Byte) (radix : Int) (uppercase : Bool) :
    Nat × (Nat → Byte) :=
  finishDigits (storeDigits (digitChars uppercase) (Radix.ofInt radix) num str)

/-- `itoa64`; `num` is an `int64_t`, whose sign is written in radix 10 only. -/
def itoa64Into (num : Word) (str : Nat → Byte) (radix : Int) : Nat × (Nat → Byte) :=
  let radix := Radix.ofInt radix
  let isNegative := num.toInt < 0 ∧ radix.val = 10
  let n := if isNegative then -(num + 1) + 1 else num
  let stored := storeDigits (digitChars false) radix n str
  finishDigits (if isNegative then (stored.1 + 1, Function.update stored.2 stored.1 (chr '-'))
    else stored)

theorem digitLoop_eq (digits : List Byte) (radix : Radix) (num : Word) (i : Nat)
    (str : Nat → Byte) :
    digitLoop digits radix num i str =
      (i + (Nat.digits radix.val num.toNat).length,
        put str i ((Nat.digits radix.val num.toNat).map fun digit => digits.getD digit 0)) := by
  induction num, i, str using digitLoop.induct digits radix with
  | case1 num i str more ih =>
    have positive : 0 < num.toNat :=
      Nat.pos_of_ne_zero fun zero => more (BitVec.eq_of_toNat_eq zero)
    rw [digitLoop, dif_pos more, ih, Nat.digits_def' radix.low positive, BitVec.toNat_udiv,
      BitVec.toNat_umod, radix.word_toNat, put_update, List.length_cons, List.map_cons,
      Nat.add_assoc, Nat.add_comm 1]
  | case2 num i str done =>
    rw [digitLoop, dif_neg done, not_not.mp done]
    simp [put_nil]

theorem Radix.ofInt_val (radix : Int) :
    (Radix.ofInt radix).val =
      if radix.toNat < 2 ∨ radix.toNat > 16 then 10 else radix.toNat := by
  unfold Radix.ofInt
  split
  · rw [if_pos (by omega)]
  · rw [if_neg (by omega)]

theorem storeDigits_eq (num : Word) (radix : Int) (uppercase : Bool) (str : Nat → Byte) :
    storeDigits (digitChars uppercase) (Radix.ofInt radix) num str =
      ((utoa64 num.toNat radix.toNat uppercase).length,
        put str 0 (utoa64 num.toNat radix.toNat uppercase).reverse) := by
  unfold storeDigits utoa64
  dsimp only
  rw [List.reverse_reverse, List.length_reverse, ← Radix.ofInt_val]
  by_cases zero : num = 0
  · rw [if_pos zero, if_pos (by rw [zero]; rfl)]
    exact congrArg (1, ·) (by rw [← put_update, put_nil])
  · have nonzero : num.toNat ≠ 0 := fun same => zero (BitVec.eq_of_toNat_eq same)
    rw [if_neg zero, if_neg nonzero, digitLoop_eq, List.length_map, Nat.zero_add]
    rfl

theorem finishDigits_put (xs : List Byte) (str : Nat → Byte) :
    finishDigits (xs.length, put str 0 xs) = (xs.length, put str 0 (xs.reverse ++ [0])) := by
  have nul := update_put str xs.reverse 0
  rw [List.length_reverse] at nul
  rw [finishDigits, reverseStr_put, nul]

/-- **`utoa64`** leaves its digits and a NUL at the start of the array, and nothing else. -/
theorem utoa64Into_eq (num : Word) (str : Nat → Byte) (radix : Int) (uppercase : Bool) :
    utoa64Into num str radix uppercase =
      ((utoa64 num.toNat radix.toNat uppercase).length,
        put str 0 (utoa64 num.toNat radix.toNat uppercase ++ [0])) := by
  have finished := finishDigits_put (utoa64 num.toNat radix.toNat uppercase).reverse str
  rw [List.length_reverse, List.reverse_reverse] at finished
  rw [utoa64Into, storeDigits_eq, finished]

/-- The canonical numeral of an `int64_t`. -/
def signedNumeral (num : Int) : List Byte :=
  (if num < 0 then [chr '-'] else []) ++ utoa64 num.natAbs 10 false

theorem negated_toNat {num : Word} (negative : num.toInt < 0) :
    (-(num + 1) + 1).toNat = num.toInt.natAbs := by
  rw [BitVec.toInt_eq_toNat_cond] at negative ⊢
  split at negative
  · omega
  · rename_i large
    rw [if_neg large]
    bv_omega

/-- **`itoa64` in radix 10.** -/
theorem itoa64Into_eq (num : Word) (str : Nat → Byte) :
    itoa64Into num str 10 =
      ((signedNumeral num.toInt).length, put str 0 (signedNumeral num.toInt ++ [0])) := by
  unfold itoa64Into signedNumeral
  dsimp only
  rw [storeDigits_eq]
  have ten : (Radix.ofInt 10).val = 10 := rfl
  by_cases negative : num.toInt < 0
  · rw [if_pos ⟨negative, ten⟩, if_pos ⟨negative, ten⟩, if_pos negative, negated_toNat negative]
    have minus := update_put str (utoa64 num.toInt.natAbs 10 false).reverse (chr '-')
    have finished := finishDigits_put
      ((utoa64 num.toInt.natAbs 10 false).reverse ++ [chr '-']) str
    simp only [List.length_reverse, List.length_append, List.length_singleton,
      List.reverse_append, List.reverse_reverse, List.reverse_singleton] at minus finished
    refine (congrArg (fun cells => finishDigits (_, cells)) minus).trans (finished.trans ?_)
    rw [List.length_append, List.length_singleton, Nat.add_comm]
  · have same : num.toNat = num.toInt.natAbs := by
      rw [BitVec.toInt_eq_toNat_cond] at negative ⊢
      split at negative
      · rename_i small
        rw [if_pos small]
        omega
      · have := num.isLt
        omega
    rw [if_neg fun both => negative both.1, if_neg fun both => negative both.1, if_neg negative,
      List.nil_append, ← same]
    have finished := finishDigits_put (utoa64 num.toNat 10 false).reverse str
    rw [List.length_reverse, List.reverse_reverse] at finished
    exact finished

/-! ### Numerals -/

/-- The value of a digit; 16 for any other character. -/
def digitValue (c : Byte) : Nat :=
  if 48 ≤ c.toNat ∧ c.toNat ≤ 57 then c.toNat - 48
  else if 97 ≤ c.toNat ∧ c.toNat ≤ 102 then c.toNat - 87
  else if 65 ≤ c.toNat ∧ c.toNat ≤ 70 then c.toNat - 55
  else 16

/-- The value of a numeral, read from its most significant digit on. -/
def numeral (radix : Nat) (digits : List Byte) : Nat :=
  digits.foldl (fun value c => value * radix + digitValue c) 0

/-- **`digits` is the numeral of `n`**: digits below the radix, with the value `n` and without a
leading zero other than that of `0` itself. -/
structure Canonical (radix n : Nat) (digits : List Byte) : Prop where
  nonempty : digits ≠ []
  below : ∀ c ∈ digits, digitValue c < radix
  value : numeral radix digits = n
  leading : digits.head? = some (chr '0') → digits = [chr '0']

theorem digitValue_chars (uppercase : Bool) :
    ∀ digit < 16, digitValue ((digitChars uppercase).getD digit 0) = digit := by
  cases uppercase <;> decide

theorem numeral_digits {chars : Nat → Byte} (radix : Nat) : ∀ {digits : List Nat},
    (∀ digit ∈ digits, digitValue (chars digit) = digit) →
      numeral radix (digits.map chars).reverse = Nat.ofDigits radix digits
  | [], _ => rfl
  | digit :: digits, values => by
    obtain ⟨first, rest⟩ := List.forall_mem_cons.mp values
    have tail := numeral_digits radix rest
    unfold numeral at tail ⊢
    rw [List.map_cons, List.reverse_cons, List.foldl_append, tail, Nat.ofDigits_cons]
    simp only [List.foldl_cons, List.foldl_nil, first]
    rw [Nat.mul_comm, Nat.add_comm]

theorem utoa64_digits {radix : Nat} (low : 2 ≤ radix) (high : radix ≤ 16) (num : Nat)
    (uppercase : Bool) :
    utoa64 num radix uppercase = (if num = 0 then [chr '0'] else
      (Nat.digits radix num).map fun digit => (digitChars uppercase).getD digit 0).reverse := by
  have kept : ¬ (radix < 2 ∨ radix > 16) := by omega
  unfold utoa64
  dsimp only
  rw [if_neg kept]
  rfl

/-- **The digits of `utoa64` are the numeral of its number.** -/
theorem utoa64_canonical {radix : Nat} (low : 2 ≤ radix) (high : radix ≤ 16) (num : Nat)
    (uppercase : Bool) : Canonical radix num (utoa64 num radix uppercase) := by
  have shown := utoa64_digits low high num uppercase
  by_cases zero : num = 0
  · subst zero
    have one : utoa64 0 radix uppercase = [chr '0'] := by
      rw [shown, if_pos rfl]
      rfl
    rw [one]
    refine ⟨by simp, fun c member => ?_, ?_, fun _ => rfl⟩
    · rw [List.mem_singleton.mp member]
      exact Nat.lt_of_lt_of_le (by decide) low
    · show 0 * radix + digitValue (chr '0') = 0
      rw [Nat.zero_mul]
      rfl
  · rw [if_neg zero] at shown
    have small : ∀ digit ∈ Nat.digits radix num, digit < radix :=
      fun digit member => Nat.digits_lt_base low member
    have values : ∀ digit ∈ Nat.digits radix num,
        digitValue ((digitChars uppercase).getD digit 0) = digit :=
      fun digit member => digitValue_chars uppercase digit ((small digit member).trans_le high)
    refine ⟨utoa64_ne_nil _ _ _, fun c member => ?_, ?_, fun leading => ?_⟩
    · rw [shown, List.mem_reverse] at member
      obtain ⟨digit, digitMember, rfl⟩ := List.mem_map.mp member
      rw [values digit digitMember]
      exact small digit digitMember
    · rw [shown, numeral_digits radix values, Nat.ofDigits_digits]
    · have nonempty : Nat.digits radix num ≠ [] := Nat.digits_ne_nil_iff_ne_zero.mpr zero
      have last := values _ (List.getLast_mem nonempty)
      rw [shown, List.head?_reverse, List.getLast?_map, List.getLast?_eq_some_getLast nonempty,
        Option.map_some, Option.some.injEq] at leading
      rw [leading] at last
      exact absurd last.symm (Nat.getLast_digit_ne_zero radix zero)

theorem utoa64_length {radix : Nat} (low : 2 ≤ radix) (high : radix ≤ 16) {num : Nat}
    (small : num < 2 ^ 64) (uppercase : Bool) : (utoa64 num radix uppercase).length ≤ 64 := by
  rw [utoa64_digits low high, List.length_reverse]
  split
  · exact Nat.le_of_ble_eq_true rfl
  · rw [List.length_map, Nat.digits_length_le_iff low]
    exact small.trans_le (Nat.pow_le_pow_left low 64)

/-- **Digit conversion is exact and canonical**, for every number, every radix from 2 to 16 and
whatever the array held: `utoa64` leaves the numeral of `num` in at most 64 characters, a NUL and
nothing else; `itoa64` in radix 10 the signed decimal numeral. Both return its length. -/
theorem digits_in_place (num : Word) (str : Nat → Byte) {radix : Nat} (low : 2 ≤ radix)
    (high : radix ≤ 16) (uppercase : Bool) :
    (∃ digits, Canonical radix num.toNat digits ∧ digits.length ≤ 64 ∧
        utoa64Into num str radix uppercase = (digits.length, put str 0 (digits ++ [0]))) ∧
      ∃ digits, Canonical 10 num.toInt.natAbs digits ∧
        itoa64Into num str 10 =
          (((if num.toInt < 0 then [chr '-'] else []) ++ digits).length,
            put str 0 ((if num.toInt < 0 then [chr '-'] else []) ++ digits ++ [0])) :=
  ⟨⟨utoa64 num.toNat radix uppercase, utoa64_canonical low high .., utoa64_length low high num.isLt _,
      utoa64Into_eq num str radix uppercase⟩,
    utoa64 num.toInt.natAbs 10 false, utoa64_canonical (by decide) (by decide) ..,
      itoa64Into_eq num str⟩

/-- The least `int64_t`, as the unsigned number in radix 16 and with its sign in radix 10. -/
theorem digits_in_place_least :
    (∃ digits, Canonical 16 (2 ^ 63) digits ∧ digits.length ≤ 64 ∧
        utoa64Into (BitVec.intMin 64) (fun _ => 0) 16 false =
          (digits.length, put (fun _ => 0) 0 (digits ++ [0]))) ∧
      ∃ digits, Canonical 10 (2 ^ 63) digits ∧
        itoa64Into (BitVec.intMin 64) (fun _ => 0) 10 =
          ((chr '-' :: digits).length, put (fun _ => 0) 0 (chr '-' :: digits ++ [0])) :=
  digits_in_place (BitVec.intMin 64) (fun _ => 0) (by decide) (by decide) false

end ShipOS

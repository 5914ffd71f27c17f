/-
**Page-table entries (`struct page_entry`, `encode_page_entry`, `decode_page_entry`).**

The C expressions are kept at the widths C evaluates them at: a `bool` or `uint8_t` operand of
`&` and `<<` is promoted to a 32-bit `int` before the shift and widened to 64 bits only by the
`|=`, `ign2` is shifted as a 32-bit `uint32_t`, and only `address` is shifted as a 64-bit word.

`PageEntry.bit entry i` is bit `i` of the format an entry stands for, whatever the C code makes of
it.

* `eq_of_bits` — entries whose fields fit are equal when their bits are;
* `bit_decodePageEntry`, `getLsbD_encodePageEntry` — decoding reads every bit, encoding writes bits 0
  to 47 only, since `ign2` and `xd` are shifted out of their 32 bits;
* `decode_encode` — the round trip for the entries that the mapping functions build, in which these
  two fields are zero.
-/

import Mathlib.Tactic.IntervalCases
import ShipOS.Lib.ByteMem

namespace ShipOS

open ByteMem

/-- `struct page_entry`. -/
@[ext] structure PageEntry where
  p : Bool
  rw : Bool
  us : Bool
  pwt : Bool
  pcd : Bool
  a : Bool
  d : Bool
  rsvd : Bool
  ign1 : BitVec 8
  address : Word
  ign2 : BitVec 32
  xd : Bool
  deriving DecidableEq, Repr

/-- A `bool` operand, promoted to `int`. -/
def promote (b : Bool) : BitVec 32 := if b then 1 else 0

def encodePageEntry (entry : PageEntry) : Word :=
  let raw : Word := 0#64
  let raw := raw ||| (promote entry.p &&& 0x1#32).signExtend 64
  let raw := raw ||| ((promote entry.rw &&& 0x1#32) <<< 1).signExtend 64
  let raw := raw ||| ((promote entry.us &&& 0x1#32) <<< 2).signExtend 64
  let raw := raw ||| ((promote entry.pwt &&& 0x1#32) <<< 3).signExtend 64
  let raw := raw ||| ((promote entry.pcd &&& 0x1#32) <<< 4).signExtend 64
  let raw := raw ||| ((promote entry.a &&& 0x1#32) <<< 5).signExtend 64
  let raw := raw ||| ((promote entry.d &&& 0x1#32) <<< 6).signExtend 64
  let raw := raw ||| ((promote entry.rsvd &&& 0x1#32) <<< 7).signExtend 64
  let raw := raw ||| ((entry.ign1.setWidth 32 &&& 0xF#32) <<< 8).signExtend 64
  let raw := raw ||| (entry.address &&& 0xFFFFFFFFF#64) <<< 12
  let raw := raw ||| ((entry.ign2 &&& 0x7FFF#32) <<< 48).setWidth 64
  raw ||| ((promote entry.xd &&& 0x1#32) <<< 63).signExtend 64

def decodePageEntry (raw : Word) : PageEntry where
  p := raw &&& 0x1#64 != 0#64
  rw := (raw >>> 1) &&& 0x1#64 != 0#64
  us := (raw >>> 2) &&& 0x1#64 != 0#64
  pwt := (raw >>> 3) &&& 0x1#64 != 0#64
  pcd := (raw >>> 4) &&& 0x1#64 != 0#64
  a := (raw >>> 5) &&& 0x1#64 != 0#64
  d := (raw >>> 6) &&& 0x1#64 != 0#64
  rsvd := (raw >>> 7) &&& 0x1#64 != 0#64
  ign1 := ((raw >>> 8) &&& 0xF#64).setWidth 8
  address := (raw >>> 12) &&& 0xFFFFFFFFF#64
  ign2 := ((raw >>> 48) &&& 0x7FFF#64).setWidth 32
  xd := (raw >>> 63) &&& 0x1#64 != 0#64

/-! ### Masked fields -/

theorem getLsbD_mask (w n i : Nat) :
    (BitVec.ofNat w (2 ^ n - 1)).getLsbD i = (decide (i < w) && decide (i < n)) := by
  rw [BitVec.getLsbD_ofNat, Nat.testBit_two_pow_sub_one]

/-- A masked field shifted inside its 32 bits and widened without a sign. -/
theorem getLsbD_field (x : BitVec 32) (n k i : Nat) (room : n + k ≤ 32) :
    (((x &&& BitVec.ofNat 32 (2 ^ n - 1)) <<< k).setWidth 64).getLsbD i =
      (decide (k ≤ i ∧ i < k + n) && x.getLsbD (i - k)) := by
  rw [BitVec.getLsbD_setWidth, BitVec.getLsbD_shiftLeft, BitVec.getLsbD_and, getLsbD_mask]
  by_cases inside : k ≤ i ∧ i < k + n
  · simp [inside, show i < 64 by omega, show i < 32 by omega, show i - k < 32 by omega,
      show i - k < n by omega, show ¬ i < k by omega]
  · by_cases low : i < k
    · simp [low, inside]
    · simp [inside, show ¬ i - k < n by omega]

/-- A field that leaves the sign bit clear is widened without a sign. -/
theorem signExtend_field (x : BitVec 32) (n k : Nat) (room : n + k < 32) :
    ((x &&& BitVec.ofNat 32 (2 ^ n - 1)) <<< k).signExtend 64 =
      ((x &&& BitVec.ofNat 32 (2 ^ n - 1)) <<< k).setWidth 64 := by
  apply BitVec.signExtend_eq_setWidth_of_msb_false
  rw [BitVec.msb_eq_getLsbD_last, BitVec.getLsbD_shiftLeft, BitVec.getLsbD_and, getLsbD_mask]
  simp
  omega

/-- The fields of an entry fit the widths of the format. -/
structure PageEntry.Fits (entry : PageEntry) : Prop where
  ign1 : entry.ign1.toNat < 2 ^ 4
  address : entry.address.toNat < 2 ^ 36
  ign2 : entry.ign2.toNat < 2 ^ 15

/-- Bit `i` of the format. -/
def PageEntry.bit (entry : PageEntry) : Nat → Bool
  | 0 => entry.p
  | 1 => entry.rw
  | 2 => entry.us
  | 3 => entry.pwt
  | 4 => entry.pcd
  | 5 => entry.a
  | 6 => entry.d
  | 7 => entry.rsvd
  | i => if i < 12 then entry.ign1.getLsbD (i - 8)
    else if i < 48 then entry.address.getLsbD (i - 12)
    else if i < 63 then entry.ign2.getLsbD (i - 48)
    else entry.xd

/-! ### Bits of the format -/

theorem PageEntry.bit_fields (entry : PageEntry) {i : Nat} (high : 8 ≤ i) :
    entry.bit i = if i < 12 then entry.ign1.getLsbD (i - 8)
      else if i < 48 then entry.address.getLsbD (i - 12)
      else if i < 63 then entry.ign2.getLsbD (i - 48) else entry.xd := by
  obtain ⟨j, rfl⟩ := Nat.exists_eq_add_of_le' high
  rfl

theorem PageEntry.bit_ign1 (entry : PageEntry) {i : Nat} (small : i < 4) :
    entry.bit (8 + i) = entry.ign1.getLsbD i := by
  rw [entry.bit_fields (by omega), if_pos (by omega), Nat.add_sub_cancel_left]

theorem PageEntry.bit_address (entry : PageEntry) {i : Nat} (small : i < 36) :
    entry.bit (12 + i) = entry.address.getLsbD i := by
  rw [entry.bit_fields (by omega), if_neg (by omega), if_pos (by omega), Nat.add_sub_cancel_left]

theorem PageEntry.bit_ign2 (entry : PageEntry) {i : Nat} (small : i < 15) :
    entry.bit (48 + i) = entry.ign2.getLsbD i := by
  rw [entry.bit_fields (by omega), if_neg (by omega), if_neg (by omega), if_pos (by omega),
    Nat.add_sub_cancel_left]

/-- A value below `2 ^ n` has no bit from `n` on. -/
theorem getLsbD_of_lt {w n i : Nat} {x : BitVec w} (small : x.toNat < 2 ^ n) (high : n ≤ i) :
    x.getLsbD i = false :=
  Nat.testBit_lt_two_pow (small.trans_le (Nat.pow_le_pow_right (by omega) high))

/-- Two values below `2 ^ n` with the same first `n` bits are equal. -/
theorem eq_of_low_bits {w n : Nat} {x y : BitVec w} (hx : x.toNat < 2 ^ n) (hy : y.toNat < 2 ^ n)
    (same : ∀ i < n, x.getLsbD i = y.getLsbD i) : x = y := by
  apply BitVec.eq_of_getLsbD_eq
  intro i _
  by_cases low : i < n
  · exact same i low
  · rw [getLsbD_of_lt hx (by omega), getLsbD_of_lt hy (by omega)]

/-- **An entry that fits is its 64 bits.** -/
theorem eq_of_bits {entry other : PageEntry} (fits : entry.Fits) (fits' : other.Fits)
    (same : ∀ i < 64, entry.bit i = other.bit i) : entry = other := by
  have ign1 : entry.ign1 = other.ign1 := eq_of_low_bits fits.ign1 fits'.ign1 fun i small => by
    rw [← entry.bit_ign1 small, ← other.bit_ign1 small, same _ (by omega)]
  have address : entry.address = other.address :=
    eq_of_low_bits fits.address fits'.address fun i small => by
      rw [← entry.bit_address small, ← other.bit_address small, same _ (by omega)]
  have ign2 : entry.ign2 = other.ign2 := eq_of_low_bits fits.ign2 fits'.ign2 fun i small => by
    rw [← entry.bit_ign2 small, ← other.bit_ign2 small, same _ (by omega)]
  exact PageEntry.ext (same 0 (by omega)) (same 1 (by omega)) (same 2 (by omega))
    (same 3 (by omega)) (same 4 (by omega)) (same 5 (by omega)) (same 6 (by omega))
    (same 7 (by omega)) ign1 address ign2 (same 63 (by omega))

/-! ### The two functions, bit by bit -/

theorem bit_decode (raw : Word) (k : Nat) :
    ((raw >>> k) &&& 0x1#64 != 0#64) = raw.getLsbD k := by
  have value : ((raw >>> k) &&& 0x1#64).toNat = 1 &&& raw.toNat >>> k := by
    rw [BitVec.toNat_and, BitVec.toNat_ushiftRight, Nat.and_comm]
    rfl
  rw [BitVec.getLsbD, Nat.testBit, ← value]
  by_cases zero : (raw >>> k) &&& 0x1#64 = 0#64
  · simp [zero]
  · have ne : ((raw >>> k) &&& 0x1#64).toNat ≠ 0 := fun h => zero (BitVec.eq_of_toNat_eq h)
    rw [bne_iff_ne.mpr zero, bne_iff_ne.mpr ne]

/-- A promoted flag, shifted inside its 32 bits, is that one bit. -/
theorem getLsbD_flag (b : Bool) (k i : Nat) (hk : k < 31) :
    (((promote b &&& 0x1#32) <<< k).signExtend 64).getLsbD i = (b && decide (i = k)) := by
  have field := getLsbD_field (promote b) 1 k i (by omega)
  rw [← signExtend_field (promote b) 1 k (by omega)] at field
  refine field.trans ?_
  by_cases here : i = k
  · rw [here, Nat.sub_self]
    cases b <;> simp [promote]
  · have other : ¬ (k ≤ i ∧ i < k + 1) := by omega
    rw [decide_eq_false other, decide_eq_false here, Bool.false_and, Bool.and_false]

/-- The address field of an encoded entry. -/
theorem getLsbD_address (address : Word) (i : Nat) :
    ((address &&& 0xFFFFFFFFF#64) <<< 12).getLsbD i =
      (decide (12 ≤ i ∧ i < 48) && address.getLsbD (i - 12)) := by
  rw [BitVec.getLsbD_shiftLeft, BitVec.getLsbD_and,
    show (0xFFFFFFFFF#64) = BitVec.ofNat 64 (2 ^ 36 - 1) from rfl, getLsbD_mask]
  by_cases low : i < 12
  · simp [low]
  · by_cases high : i < 48
    · simp [low, high, show i < 64 by omega, show i - 12 < 36 by omega, show i - 12 < 64 by omega,
        show 12 ≤ i by omega]
    · simp [low, high, show ¬ i - 12 < 36 by omega]

/-- The flags of a decoded entry, as bits of the raw word. -/
theorem decode_eq (raw : Word) :
    decodePageEntry raw =
      { p := raw.getLsbD 0, rw := raw.getLsbD 1, us := raw.getLsbD 2, pwt := raw.getLsbD 3,
        pcd := raw.getLsbD 4, a := raw.getLsbD 5, d := raw.getLsbD 6, rsvd := raw.getLsbD 7,
        ign1 := ((raw >>> 8) &&& 0xF#64).setWidth 8,
        address := (raw >>> 12) &&& 0xFFFFFFFFF#64,
        ign2 := ((raw >>> 48) &&& 0x7FFF#64).setWidth 32, xd := raw.getLsbD 63 } := by
  have first := bit_decode raw 0
  rw [BitVec.ushiftRight_zero] at first
  rw [decodePageEntry, first, bit_decode raw 1, bit_decode raw 2, bit_decode raw 3,
    bit_decode raw 4, bit_decode raw 5, bit_decode raw 6, bit_decode raw 7, bit_decode raw 63]

theorem fits_decodePageEntry (raw : Word) : (decodePageEntry raw).Fits := by
  have masked (k n : Nat) (hn : n < 64) :
      ((raw >>> k) &&& BitVec.ofNat 64 (2 ^ n - 1)).toNat < 2 ^ n := by
    rw [BitVec.toNat_and, BitVec.toNat_ofNat,
      Nat.mod_eq_of_lt (by have := Nat.pow_lt_pow_right (a := 2) (by omega) hn; omega)]
    exact Nat.and_lt_two_pow _ (by have := Nat.two_pow_pos n; omega)
  refine ⟨?_, masked 12 36 (by omega), ?_⟩
  · refine (Nat.mod_le _ _).trans_lt (masked 8 4 (by omega))
  · refine (Nat.mod_le _ _).trans_lt (masked 48 15 (by omega))

/-- **Decoding reads every bit.** -/
theorem bit_decodePageEntry (raw : Word) {i : Nat} (inside : i < 64) :
    (decodePageEntry raw).bit i = raw.getLsbD i := by
  have field (k n m j : Nat) (hn : n < 64) (hm : n ≤ m) (small : j < n) :
      (((raw >>> k) &&& BitVec.ofNat 64 (2 ^ n - 1)).setWidth m).getLsbD j =
        raw.getLsbD (k + j) := by
    rw [BitVec.getLsbD_setWidth, BitVec.getLsbD_and, BitVec.getLsbD_ushiftRight, getLsbD_mask]
    simp [small, show j < m by omega, show j < 64 by omega]
  rw [decode_eq]
  by_cases flag : i < 8
  · interval_cases i <;> rfl
  · rw [PageEntry.bit_fields _ (by omega)]
    have back (k : Nat) (le : k ≤ i) : raw.getLsbD (k + (i - k)) = raw.getLsbD i :=
      congrArg raw.getLsbD (Nat.add_sub_cancel' le)
    split
    · exact (field 8 4 8 (i - 8) (by omega) (by omega) (by omega)).trans (back 8 (by omega))
    · split
      · have whole := field 12 36 64 (i - 12) (by omega) (by omega) (by omega)
        rw [BitVec.setWidth_eq] at whole
        exact whole.trans (back 12 (by omega))
      · split
        · exact (field 48 15 32 (i - 48) (by omega) (by omega) (by omega)).trans
            (back 48 (by omega))
        · rw [show i = 63 by omega]

/-- The fields that both readings of the code write, as bits of the format. -/
theorem getLsbD_low (entry : PageEntry) (i : Nat) :
    (encodePageEntry { entry with ign2 := 0, xd := false }).getLsbD i =
      (decide (i < 48) && entry.bit i) := by
  have first := getLsbD_flag entry.p 0 i (by omega)
  rw [BitVec.shiftLeft_zero] at first
  have ign1 : (((entry.ign1.setWidth 32 &&& 0xF#32) <<< 8).signExtend 64).getLsbD i =
      (decide (8 ≤ i ∧ i < 8 + 4) && (entry.ign1.setWidth 32).getLsbD (i - 8)) := by
    rw [← getLsbD_field _ 4 8 i (by omega), ← signExtend_field _ 4 8 (by omega)]
    rfl
  have noIgn2 : (((0 : BitVec 32) &&& 0x7FFF#32) <<< 48).setWidth 64 = 0#64 := by decide
  have noXd : ((promote false &&& 0x1#32) <<< 63).signExtend 64 = 0#64 := by decide
  simp only [encodePageEntry, noIgn2, noXd, BitVec.getLsbD_or, first,
    getLsbD_flag _ 1 i (by omega), getLsbD_flag _ 2 i (by omega), getLsbD_flag _ 3 i (by omega),
    getLsbD_flag _ 4 i (by omega), getLsbD_flag _ 5 i (by omega), getLsbD_flag _ 6 i (by omega),
    getLsbD_flag _ 7 i (by omega), getLsbD_address, ign1, BitVec.getLsbD_zero, Bool.or_false,
    Bool.false_or]
  by_cases flag : i < 8
  · interval_cases i <;> simp [PageEntry.bit]
  · have apart : ∀ k < 8, ¬ i = k := fun k hk => by omega
    rw [PageEntry.bit_fields _ (by omega)]
    by_cases mid : i < 12
    · simp [apart, mid, show i < 48 by omega, show 8 ≤ i by omega, show ¬ 12 ≤ i by omega,
        show i - 8 < 32 by omega]
    · simp [apart, mid, show 12 ≤ i by omega]
      by_cases low : i < 48
      · simp [low]
      · simp [low]

/-- **Encoding writes bits 0 to 47 only.** -/
theorem getLsbD_encodePageEntry (entry : PageEntry) (i : Nat) :
    (encodePageEntry entry).getLsbD i = (decide (i < 48) && entry.bit i) := by
  have lost (x : BitVec 32) {k : Nat} (wide : 32 ≤ k) : x <<< k = 0#32 :=
    BitVec.shiftLeft_eq_zero wide
  rw [← getLsbD_low]
  simp only [encodePageEntry, lost _ (show 32 ≤ 48 by omega), lost _ (show 32 ≤ 63 by omega)]

/-! ### The entries in use -/

/-- **The entries the mapping functions build**: the ignored fields and `xd` are zero and the
address fits its 36 bits. -/
structure PageEntry.Plain (entry : PageEntry) : Prop where
  ign1 : entry.ign1 = 0
  ign2 : entry.ign2 = 0
  xd : entry.xd = false
  address : entry.address.toNat < 2 ^ 36

theorem PageEntry.Plain.fits {entry : PageEntry} (plain : entry.Plain) : entry.Fits where
  ign1 := by rw [plain.ign1]; decide
  address := plain.address
  ign2 := by rw [plain.ign2]; decide

/-- **Decoding undoes encoding** on the entries the mapping functions build. -/
theorem decode_encode {entry : PageEntry} (plain : entry.Plain) :
    decodePageEntry (encodePageEntry entry) = entry := by
  refine eq_of_bits (fits_decodePageEntry _) plain.fits fun i inside => ?_
  rw [bit_decodePageEntry _ inside, getLsbD_encodePageEntry]
  by_cases low : i < 48
  · simp [low]
  · -- the bits that encoding leaves out belong to `ign2` and `xd`
    rw [entry.bit_fields (by omega), if_neg (by omega), if_neg low, plain.ign2, plain.xd]
    simp [low]

/-- A zero word decodes to an entry that is not present. -/
theorem decode_zero : (decodePageEntry 0).p = false := by decide

end ShipOS

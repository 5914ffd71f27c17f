/-
**The page-entry codec over the whole 64-bit format.**

A 32-bit shift by 32 or more has no meaning in C. `encodePageEntry` reads it as a shift that loses
every bit; `encodePageEntryX86` as the processor's `shl`, which takes the count modulo 32
(`getLsbD_encodePageEntryX86`). In both readings the two directions of the codec are statements about
the 64 bits of the format.

* `survives_iff`, `survives_x86_iff` — the bit patterns that each reading keeps;
* `codec_iff` — for both readings, exactly the entries and the raw words that survive a round trip.
-/

import ShipOS.Paging.Entry

namespace ShipOS

open ByteMem

/-- `encode_page_entry` with the 32-bit `shl` of the processor, whose count is taken modulo 32. -/
def encodePageEntryX86 (entry : PageEntry) : Word :=
  let raw : Word := 0#64
  let raw := raw ||| (promote entry.p &&& 0x1#32).signExtend 64
  let raw := raw ||| ((promote entry.rw &&& 0x1#32) <<< (1 % 32)).signExtend 64
  let raw := raw ||| ((promote entry.us &&& 0x1#32) <<< (2 % 32)).signExtend 64
  let raw := raw ||| ((promote entry.pwt &&& 0x1#32) <<< (3 % 32)).signExtend 64
  let raw := raw ||| ((promote entry.pcd &&& 0x1#32) <<< (4 % 32)).signExtend 64
  let raw := raw ||| ((promote entry.a &&& 0x1#32) <<< (5 % 32)).signExtend 64
  let raw := raw ||| ((promote entry.d &&& 0x1#32) <<< (6 % 32)).signExtend 64
  let raw := raw ||| ((promote entry.rsvd &&& 0x1#32) <<< (7 % 32)).signExtend 64
  let raw := raw ||| ((entry.ign1.setWidth 32 &&& 0xF#32) <<< (8 % 32)).signExtend 64
  let raw := raw ||| (entry.address &&& 0xFFFFFFFFF#64) <<< 12
  let raw := raw ||| ((entry.ign2 &&& 0x7FFF#32) <<< (48 % 32)).setWidth 64
  raw ||| ((promote entry.xd &&& 0x1#32) <<< (63 % 32)).signExtend 64

/-- The top flag of a 32-bit `int` fills the upper half when it is widened. -/
theorem getLsbD_sign (b : Bool) (i : Nat) :
    (((promote b &&& 0x1#32) <<< 31).signExtend 64).getLsbD i = (b && decide (31 ≤ i ∧ i < 64)) := by
  cases b with
  | false => simp [promote]
  | true =>
    rw [show (promote true &&& 0x1#32) <<< 31 = BitVec.intMin 32 by decide,
      BitVec.getLsbD_signExtend]
    by_cases inside : i < 32
    · rw [BitVec.getLsbD_intMin]
      simp [inside, show i < 64 by omega]
      omega
    · simp [inside, show 31 ≤ i by omega, BitVec.msb_intMin]

/-- **With the processor's shift** `ign2` lands on bits 16 to 30 and `xd` on bits 31 to 63, over
whatever the address holds there. -/
theorem getLsbD_encodePageEntryX86 (entry : PageEntry) (i : Nat) :
    (encodePageEntryX86 entry).getLsbD i =
      (decide (i < 48) && entry.bit i || decide (16 ≤ i ∧ i < 31) && entry.bit (i + 32) ||
        decide (31 ≤ i ∧ i < 64) && entry.bit 63) := by
  have split : encodePageEntryX86 entry = encodePageEntry { entry with ign2 := 0, xd := false } |||
      ((entry.ign2 &&& 0x7FFF#32) <<< 16).setWidth 64 |||
      ((promote entry.xd &&& 0x1#32) <<< 31).signExtend 64 := by
    have noIgn2 : (((0 : BitVec 32) &&& 0x7FFF#32) <<< 48).setWidth 64 = 0#64 := by decide
    have noXd : ((promote false &&& 0x1#32) <<< 63).signExtend 64 = 0#64 := by decide
    simp only [encodePageEntry, encodePageEntryX86, noIgn2, noXd, BitVec.or_zero]
  have ign2 : (((entry.ign2 &&& 0x7FFF#32) <<< 16).setWidth 64).getLsbD i =
      (decide (16 ≤ i ∧ i < 16 + 15) && entry.ign2.getLsbD (i - 16)) :=
    getLsbD_field _ 15 16 i (by omega)
  rw [split, BitVec.getLsbD_or, BitVec.getLsbD_or, getLsbD_low, ign2, getLsbD_sign,
    Bool.and_comm entry.xd]
  congr 2
  by_cases inside : 16 ≤ i ∧ i < 31
  · rw [show i + 32 = 48 + (i - 16) by omega, entry.bit_ign2 (by omega)]
  · simp [inside]

/-! ### Which bits survive a round trip -/

/-- The bits that the shifts by 48 and 63 concern are all clear. -/
def UpperClear (bit : Nat → Bool) : Prop := ∀ i, 48 ≤ i → i < 64 → bit i = false

/-- Bits 16 to 63 are all set. -/
def UpperSet (bit : Nat → Bool) : Prop := ∀ i, 16 ≤ i → i < 64 → bit i = true

theorem survives_iff (bit : Nat → Bool) :
    (∀ i < 64, (decide (i < 48) && bit i) = bit i) ↔ UpperClear bit := by
  constructor
  · intro same i high inside
    have := same i inside
    simpa [show ¬ i < 48 by omega] using this.symm
  · intro clear i inside
    by_cases low : i < 48
    · simp [low]
    · simp [low, clear i (by omega) inside]

/-- With the processor's shift one more pattern survives: all of bits 16 to 63 set, where the
misplaced fields land on bits that are set anyway. -/
theorem survives_x86_iff (bit : Nat → Bool) :
    (∀ i < 64, (decide (i < 48) && bit i || decide (16 ≤ i ∧ i < 31) && bit (i + 32) ||
        decide (31 ≤ i ∧ i < 64) && bit 63) = bit i) ↔ UpperClear bit ∨ UpperSet bit := by
  constructor
  · intro same
    have high : ∀ i, 48 ≤ i → i < 64 → bit i = bit 63 := by
      intro i low inside
      have := same i inside
      simpa [show ¬ i < 48 by omega, show ¬ i < 31 by omega, show 31 ≤ i by omega, inside]
        using this.symm
    cases sign : bit 63 with
    | false => exact .inl fun i low inside => (high i low inside).trans sign
    | true =>
      refine .inr fun i low inside => ?_
      have here := same i inside
      by_cases mid : i < 31
      · rw [high (i + 32) (by omega) (by omega), sign] at here
        simpa [low, mid] using here.symm
      · rw [sign] at here
        simpa [show 31 ≤ i by omega, inside] using here.symm
  · rintro (clear | set) i inside
    · have top := clear 63 (by omega) (by omega)
      by_cases low : i < 48
      · by_cases mid : 16 ≤ i ∧ i < 31
        · simp [low, top, clear (i + 32) (by omega) (by omega)]
        · simp [low, top, mid]
      · simp [top, clear i (by omega) inside, low, show ¬ i < 31 by omega]
    · by_cases low : 16 ≤ i
      · rw [set i low inside, set 63 (by omega) (by omega)]
        by_cases mid : i < 31
        · simp [low, mid, show i < 48 by omega]
        · simp [show 31 ≤ i by omega, inside]
      · simp [low, show i < 48 by omega, show ¬ 31 ≤ i by omega]

/-- A round trip from an entry, for an encoder that is known bit by bit. -/
theorem decode_encode_iff {entry : PageEntry} (fits : entry.Fits) {raw : Word} {bits : Nat → Bool}
    (encoded : ∀ i < 64, raw.getLsbD i = bits i) :
    decodePageEntry raw = entry ↔ ∀ i < 64, bits i = entry.bit i := by
  constructor
  · intro same i inside
    rw [← encoded i inside, ← bit_decodePageEntry raw inside, same]
  · intro same
    refine eq_of_bits (fits_decodePageEntry raw) fits fun i inside => ?_
    rw [bit_decodePageEntry raw inside, encoded i inside, same i inside]

/-- A round trip from a raw word. -/
theorem encode_decode_iff {raw back : Word} {bits : Nat → Bool}
    (encoded : ∀ i < 64, back.getLsbD i = bits i) :
    back = raw ↔ ∀ i < 64, bits i = raw.getLsbD i := by
  constructor
  · intro same i inside
    rw [← encoded i inside, same]
  · intro same
    apply BitVec.eq_of_getLsbD_eq
    intro i inside
    rw [encoded i inside, same i inside]

theorem upperClear_entry {entry : PageEntry} (fits : entry.Fits) :
    UpperClear entry.bit ↔ entry.ign2 = 0 ∧ entry.xd = false := by
  constructor
  · intro clear
    refine ⟨eq_of_low_bits fits.ign2 (by decide) fun i small => ?_, clear 63 (by omega) (by omega)⟩
    rw [← entry.bit_ign2 small, clear _ (by omega) (by omega)]
    exact BitVec.getLsbD_zero.symm
  · rintro ⟨ign2, xd⟩ i high inside
    rw [entry.bit_fields (by omega), if_neg (by omega), if_neg (by omega), ign2, xd]
    split
    · exact BitVec.getLsbD_zero
    · rfl

theorem upperSet_entry {entry : PageEntry} (fits : entry.Fits) :
    UpperSet entry.bit ↔ (∀ i, 4 ≤ i → i < 36 → entry.address.getLsbD i = true) ∧
      entry.ign2 = 0x7FFF#32 ∧ entry.xd = true := by
  have ones : ∀ i < 15, (0x7FFF#32).getLsbD i = true := by decide
  constructor
  · intro set
    refine ⟨fun i low small => ?_, eq_of_low_bits fits.ign2 (by decide) fun i small => ?_,
      set 63 (by omega) (by omega)⟩
    · rw [← entry.bit_address small, set _ (by omega) (by omega)]
    · rw [← entry.bit_ign2 small, set _ (by omega) (by omega), ones i small]
  · rintro ⟨address, ign2, xd⟩ i low inside
    rw [entry.bit_fields (by omega), if_neg (by omega), ign2, xd]
    split
    · exact address _ (by omega) (by omega)
    · split
      · exact ones _ (by omega)
      · rfl

theorem upperClear_raw (raw : Word) : UpperClear raw.getLsbD ↔ raw.toNat < 2 ^ 48 := by
  constructor
  · intro clear
    apply Nat.lt_pow_two_of_testBit
    intro i high
    by_cases inside : i < 64
    · exact clear i high inside
    · exact BitVec.getLsbD_of_ge raw i (by omega)
  · intro small i high _
    exact getLsbD_of_lt small high

/-- **What the page-entry codec keeps.** An entry whose fields fit survives `encode` and `decode`
exactly when `ign2` and `xd` are zero, and a raw word survives `decode` and `encode` exactly when it
is below `2 ^ 48`. With the processor's reading of the over-wide shifts one more pattern survives,
the one with bits 16 to 63 all set. -/
theorem codec_iff {entry : PageEntry} (fits : entry.Fits) (raw : Word) :
    (decodePageEntry (encodePageEntry entry) = entry ↔ entry.ign2 = 0 ∧ entry.xd = false) ∧
    (decodePageEntry (encodePageEntryX86 entry) = entry ↔
      (entry.ign2 = 0 ∧ entry.xd = false) ∨
      (∀ i, 4 ≤ i → i < 36 → entry.address.getLsbD i = true) ∧
        entry.ign2 = 0x7FFF#32 ∧ entry.xd = true) ∧
    (encodePageEntry (decodePageEntry raw) = raw ↔ raw.toNat < 2 ^ 48) ∧
    (encodePageEntryX86 (decodePageEntry raw) = raw ↔
      raw.toNat < 2 ^ 48 ∨ ∀ i, 16 ≤ i → i < 64 → raw.getLsbD i = true) := by
  refine ⟨?_, ?_, ?_, ?_⟩
  · rw [decode_encode_iff fits fun i _ => getLsbD_encodePageEntry entry i, survives_iff,
      upperClear_entry fits]
  · rw [decode_encode_iff fits fun i _ => getLsbD_encodePageEntryX86 entry i, survives_x86_iff,
      upperClear_entry fits, upperSet_entry fits]
  · have bits : ∀ i < 64, (encodePageEntry (decodePageEntry raw)).getLsbD i =
        (decide (i < 48) && raw.getLsbD i) := fun i inside => by
      rw [getLsbD_encodePageEntry, bit_decodePageEntry raw inside]
    rw [encode_decode_iff bits, survives_iff, upperClear_raw]
  · have bits : ∀ i < 64, (encodePageEntryX86 (decodePageEntry raw)).getLsbD i =
        (decide (i < 48) && raw.getLsbD i || decide (16 ≤ i ∧ i < 31) && raw.getLsbD (i + 32) ||
          decide (31 ≤ i ∧ i < 64) && raw.getLsbD 63) := fun i inside => by
      rw [getLsbD_encodePageEntryX86, bit_decodePageEntry raw inside,
        bit_decodePageEntry raw (show 63 < 64 by omega)]
      by_cases mid : i < 31
      · rw [bit_decodePageEntry raw (show i + 32 < 64 by omega)]
      · simp [mid]
    rw [encode_decode_iff bits, survives_x86_iff, upperClear_raw]
    rfl

/-- An entry that forbids execution. -/
def demoNoExec : PageEntry where
  p := true
  rw := true
  us := false
  pwt := false
  pcd := false
  a := false
  d := false
  rsvd := false
  ign1 := 0
  address := 0x5
  ign2 := 0
  xd := true

/-- An executable entry is kept. -/
theorem codec_iff_executable :
    let entry := { demoNoExec with xd := false }
    entry.Fits ∧ decodePageEntry (encodePageEntry entry) = entry :=
  have fits : ({ demoNoExec with xd := false } : PageEntry).Fits :=
    ⟨by decide, by decide, by decide⟩
  ⟨fits, (codec_iff fits 0).1.mpr ⟨rfl, rfl⟩⟩

/-- **The execute-disable bit is lost**, in an entry and in a raw word, under both readings of the
shift by 63. -/
theorem codec_loses_xd :
    demoNoExec.Fits ∧ decodePageEntry (encodePageEntry demoNoExec) ≠ demoNoExec ∧
      decodePageEntry (encodePageEntryX86 demoNoExec) ≠ demoNoExec ∧
      encodePageEntry (decodePageEntry 0x8000000000005003) = 0x5003 ∧
      encodePageEntryX86 (decodePageEntry 0x8000000000005003) = 0xFFFFFFFF80005003 :=
  ⟨⟨by decide, by decide, by decide⟩, by decide, by decide, by decide, by decide⟩

end ShipOS

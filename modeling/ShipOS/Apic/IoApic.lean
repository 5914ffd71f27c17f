/-
**Masking the I/O APICs (`ioapic.c`).**

`ioapic_init` records the I/O APICs of the MADT and then masks every redirection entry, one
`ioapic_disable_irq` a GSI. That function takes the GSI as a `uint8_t`, finds the controller by it,
and passes the register index on as a `uint8_t`; the loop over the entries counts in a `uint8_t` too.

* `Masked T d d'` — of all registers exactly those in `T` have got the mask bit, and nothing else;
* `ioapicDisableIrq_masked` — a call masks the one register it computes;
* `ioapicInit_masks_iff` — for controllers with disjoint GSIs the initialisation ends with all
  entries masked, whatever the registers held, exactly when no GSI is above 255 and no index above
  119;
* `ioapicInit_misses_gsi` — a controller whose GSIs start at 256 is not masked at all.
-/

import Mathlib.Data.List.Nodup
import Mathlib.Data.List.Pairwise
import Mathlib.Data.Set.Basic
import Mathlib.Tactic.Convert
import ShipOS.Apic.Madt
import ShipOS.Memory.Layout

namespace ShipOS

open ByteMem Records

/-! ### The device -/

/-- An I/O APIC: the register select, and the registers behind the window. -/
structure IoApicDevice where
  regsel : BitVec 32
  regs : BitVec 32 → BitVec 32

/-- The I/O APICs by their base addresses. -/
abbrev Devices := Word → IoApicDevice

def Devices.reg (d : Devices) (base : Word) (index : BitVec 32) : BitVec 32 := (d base).regs index

/-- The store to `IOAPIC_REGSEL`. -/
def Devices.select (d : Devices) (base : Word) (reg : BitVec 8) : Devices :=
  Function.update d base { d base with regsel := reg.setWidth 32 }

/-! ### The code -/

def ioapicWrite (base : Word) (reg : BitVec 8) (value : BitVec 32) (d : Devices) : Devices :=
  let d := d.select base reg
  Function.update d base { d base with regs := Function.update (d base).regs (d base).regsel value }

def ioapicRead (base : Word) (reg : BitVec 8) (d : Devices) : BitVec 32 × Devices :=
  let d := d.select base reg
  ((d base).regs (d base).regsel, d)

def ioapicRegVer : BitVec 8 := 0x01

def ioapicRegTable : BitVec 8 := 0x10

def ioapicMasked : BitVec 32 := 0x00010000

/-- The test of `ioapic_for_gsi`; `gsi_end` wraps at 32 bits. -/
def IoApicInfo.handles (ioapic : IoApicInfo) (gsi : BitVec 32) : Bool :=
  let gsiEnd := ioapic.entry.gsiBase + ioapic.maxRedirect.setWidth 32 + 1
  gsi ≥ ioapic.entry.gsiBase ∧ gsi < gsiEnd

def ioapicForGsi (ioapics : List IoApicInfo) (gsi : BitVec 32) : Option IoApicInfo :=
  ioapics.find? fun ioapic => ioapic.handles gsi

/-- The register that `ioapic_disable_irq` computes for `irq`, at the widths of the C code. -/
def IoApicInfo.lowReg (ioapic : IoApicInfo) (irq : BitVec 8) : BitVec 8 :=
  let idx := (irq.setWidth 32 - ioapic.entry.gsiBase).setWidth 8
  ioapicRegTable + 2 * idx

def ioapicDisableIrq (ioapics : List IoApicInfo) (irq : BitVec 8) (d : Devices) : Devices :=
  match ioapicForGsi ioapics (irq.setWidth 32) with
  | none => d
  | some ioapic =>
    let (low, d) := ioapicRead ioapic.regs (ioapic.lowReg irq) d
    ioapicWrite ioapic.regs (ioapic.lowReg irq) (low ||| ioapicMasked) d

/-- `for (uint8_t irq = 0; irq <= max_redirect; irq++)`. -/
def maskEntries (ioapics : List IoApicInfo) (ioapic : IoApicInfo) :
    Nat → BitVec 8 → Devices → Except Halt Devices
  | 0, _, _ => .error .diverges
  | fuel + 1, irq, d =>
    if irq ≤ ioapic.maxRedirect then
      let gsi := ioapic.entry.gsiBase + irq.setWidth 32
      maskEntries ioapics ioapic fuel (irq + 1) (ioapicDisableIrq ioapics (gsi.setWidth 8) d)
    else .ok d

/-- One round more than the counter has values. -/
def irqFuel : Nat := 2 ^ 8 + 1

/-- The masking loop over the controllers. -/
def maskIoapics (ioapics : List IoApicInfo) : List IoApicInfo → Devices → Except Halt Devices
  | [], d => .ok d
  | ioapic :: rest, d => do
    let d ← maskEntries ioapics ioapic irqFuel 0 d
    maskIoapics ioapics rest d

/-- `ioapic_init` with the devices: the table is recorded (`ioapicInit`), which reads each version
register, and everything is masked. Without a table nothing happens. -/
def ioapicInitDevices (madt : Option Table) (fuel : Nat) (ioapics : List IoApicInfo) (d : Devices) :
    Except Halt (List IoApicInfo × Devices) :=
  match madt with
  | none => .ok (ioapics, d)
  | some t =>
    match ioapicInit (fun regs => (ioapicRead regs ioapicRegVer d).1) t fuel with
    | none => .error .diverges
    | some (_, ioapics) => do
      let d := ioapics.foldl (fun d ioapic => (ioapicRead ioapic.regs ioapicRegVer d).2) d
      let d ← maskIoapics ioapics ioapics d
      .ok (ioapics, d)

/-! ### Masked registers -/

/-- **Exactly the registers in `T` have got the mask bit.** -/
structure Masked (T : Set (Word × BitVec 32)) (d d' : Devices) : Prop where
  inside : ∀ base index, (base, index) ∈ T →
    d'.reg base index = d.reg base index ||| ioapicMasked
  outside : ∀ base index, (base, index) ∉ T → d'.reg base index = d.reg base index

theorem Masked.refl (d : Devices) : Masked ∅ d d :=
  ⟨fun _ _ member => absurd member (Set.notMem_empty _), fun _ _ _ => rfl⟩

theorem Masked.trans {T T' : Set (Word × BitVec 32)} {d d' d'' : Devices} (first : Masked T d d')
    (second : Masked T' d' d'') : Masked (T ∪ T') d d'' := by
  refine ⟨fun base index member => ?_, fun base index off => ?_⟩
  · by_cases late : (base, index) ∈ T'
    · rw [second.inside _ _ late]
      by_cases early : (base, index) ∈ T
      · rw [first.inside _ _ early, BitVec.or_assoc, BitVec.or_self]
      · rw [first.outside _ _ early]
    · rw [second.outside _ _ late, first.inside _ _ (member.resolve_right late)]
  · rw [Set.mem_union, not_or] at off
    rw [second.outside _ _ off.2, first.outside _ _ off.1]

theorem select_reg (d : Devices) (base : Word) (reg : BitVec 8) :
    (d.select base reg).reg = d.reg := by
  funext b index
  rw [Devices.reg, Devices.reg, Devices.select]
  by_cases here : b = base
  · rw [here, Function.update_self]
  · rw [Function.update_of_ne here]

theorem ioapicRead_reg (base : Word) (reg : BitVec 8) (d : Devices) :
    (ioapicRead base reg d).1 = d.reg base (reg.setWidth 32) ∧
      (ioapicRead base reg d).2.reg = d.reg := by
  refine ⟨?_, select_reg d base reg⟩
  simp only [ioapicRead, Devices.select, Function.update_self, Devices.reg]

theorem ioapicWrite_reg (base : Word) (reg : BitVec 8) (value : BitVec 32) (d : Devices) (b : Word)
    (index : BitVec 32) :
    (ioapicWrite base reg value d).reg b index =
      if b = base ∧ index = reg.setWidth 32 then value else d.reg b index := by
  have selected := congrFun₂ (select_reg d base reg) b index
  rw [← selected, ioapicWrite, Devices.reg]
  by_cases here : b = base
  · subst here
    rw [Function.update_self]
    dsimp only
    have sel : (d.select b reg b).regsel = reg.setWidth 32 := by
      rw [Devices.select, Function.update_self]
    rw [sel]
    by_cases same : index = reg.setWidth 32
    · rw [if_pos ⟨rfl, same⟩, same, Function.update_self]
    · rw [if_neg fun both => same both.2, Function.update_of_ne same]
      rfl
  · rw [Function.update_of_ne here, if_neg fun both => here both.1]
    rfl

/-- The register that a call masks, if a controller is found. -/
def disabled (ioapics : List IoApicInfo) (irq : BitVec 8) : Set (Word × BitVec 32) :=
  {target | ∃ ioapic, ioapicForGsi ioapics (irq.setWidth 32) = some ioapic ∧
    target = (ioapic.regs, (ioapic.lowReg irq).setWidth 32)}

/-- **`ioapic_disable_irq`** masks the register it computes, and no other. -/
theorem ioapicDisableIrq_masked (ioapics : List IoApicInfo) (irq : BitVec 8) (d : Devices) :
    Masked (disabled ioapics irq) d (ioapicDisableIrq ioapics irq d) := by
  rw [ioapicDisableIrq]
  cases found : ioapicForGsi ioapics (irq.setWidth 32) with
  | none =>
    refine ⟨fun base index member => ?_, fun _ _ _ => rfl⟩
    obtain ⟨ioapic, chosen, -⟩ := member
    rw [found] at chosen
    cases chosen
  | some ioapic =>
    obtain ⟨value, same⟩ := ioapicRead_reg ioapic.regs (ioapic.lowReg irq) d
    refine ⟨fun base index member => ?_, fun base index off => ?_⟩
    · obtain ⟨ioapic', found', target⟩ := member
      rw [found] at found'
      cases found'
      cases target
      dsimp only
      rw [ioapicWrite_reg, if_pos ⟨rfl, rfl⟩, value]
    · dsimp only
      rw [ioapicWrite_reg, if_neg, same]
      rintro ⟨rfl, rfl⟩
      exact off ⟨ioapic, found, rfl⟩

/-! ### Controllers within reach -/

/-- The low half of the `k`-th redirection entry. -/
def entryReg (k : Nat) : BitVec 32 := BitVec.ofNat 32 (0x10 + 2 * k)

/-- The GSIs fit the `uint8_t` they are passed as, and the register indices that of theirs. -/
def IoApicInfo.InReach (ioapic : IoApicInfo) : Prop :=
  ioapic.entry.gsiBase.toNat + ioapic.maxRedirect.toNat ≤ 255 ∧ ioapic.maxRedirect.toNat ≤ 119

instance (ioapic : IoApicInfo) : Decidable ioapic.InReach := inferInstanceAs (Decidable (_ ∧ _))

/-- Two controllers without a common GSI. -/
def DisjointGsis (a b : IoApicInfo) : Prop :=
  ∀ j ≤ a.maxRedirect.toNat, ∀ k ≤ b.maxRedirect.toNat,
    a.entry.gsiBase.toNat + j ≠ b.entry.gsiBase.toNat + k

instance : Std.Symm DisjointGsis := ⟨fun _ _ apart j hj k hk same => apart k hk j hj same.symm⟩

/-- The redirection entries of some controllers. -/
def entriesOf (ioapics : List IoApicInfo) : Set (Word × BitVec 32) :=
  {target | ∃ ioapic ∈ ioapics, ∃ k ≤ ioapic.maxRedirect.toNat,
    target = (ioapic.regs, entryReg k)}

theorem ioapicForGsi_some {ioapics : List IoApicInfo} {gsi : BitVec 32} {ioapic : IoApicInfo}
    (found : ioapicForGsi ioapics gsi = some ioapic) :
    ioapic ∈ ioapics ∧ ioapic.handles gsi = true := by
  rw [ioapicForGsi] at found
  exact ⟨List.mem_of_find?_eq_some found, by simpa using List.find?_some found⟩

/-- The test of `ioapic_for_gsi`, for GSIs that do not wrap around. When the last of them is
`2 ^ 32 - 1`, `gsi_end` is zero and nothing is below it. -/
theorem handles_range {ioapic : IoApicInfo}
    (noWrap : ioapic.entry.gsiBase.toNat + ioapic.maxRedirect.toNat < 2 ^ 32) (gsi : BitVec 32) :
    ioapic.handles gsi = true ↔ ioapic.entry.gsiBase.toNat ≤ gsi.toNat ∧
      gsi.toNat ≤ ioapic.entry.gsiBase.toNat + ioapic.maxRedirect.toNat ∧
      ioapic.entry.gsiBase.toNat + ioapic.maxRedirect.toNat + 1 < 2 ^ 32 := by
  have one : (1 : BitVec 32).toNat = 1 := rfl
  have bound := ioapic.maxRedirect.isLt
  rw [IoApicInfo.handles, decide_eq_true_iff, ge_iff_le, BitVec.le_def, BitVec.lt_def,
    BitVec.toNat_add, BitVec.toNat_add, BitVec.toNat_setWidth, one]
  omega

theorem handles_iff {ioapic : IoApicInfo} (reach : ioapic.InReach) (gsi : BitVec 32) :
    ioapic.handles gsi = true ↔ ioapic.entry.gsiBase.toNat ≤ gsi.toNat ∧
      gsi.toNat ≤ ioapic.entry.gsiBase.toNat + ioapic.maxRedirect.toNat := by
  obtain ⟨low, -⟩ := reach
  rw [handles_range (by omega)]
  omega

/-- Of controllers with disjoint GSIs, the one that has a GSI is found by any test for it. -/
theorem find_of_disjoint {ioapics : List IoApicInfo} (disjoint : ioapics.Pairwise DisjointGsis)
    {test : IoApicInfo → Bool} {gsi : Nat}
    (tests : ∀ ioapic ∈ ioapics, test ioapic = true ↔ ioapic.entry.gsiBase.toNat ≤ gsi ∧
      gsi ≤ ioapic.entry.gsiBase.toNat + ioapic.maxRedirect.toNat)
    {ioapic : IoApicInfo} (member : ioapic ∈ ioapics) (here : test ioapic = true) :
    ioapics.find? test = some ioapic := by
  cases found : ioapics.find? test with
  | none => exact absurd here (List.find?_eq_none.mp found ioapic member)
  | some other =>
    have memberOther := List.mem_of_find?_eq_some found
    obtain ⟨low, high⟩ := (tests _ member).mp here
    obtain ⟨lowOther, highOther⟩ := (tests _ memberOther).mp (List.find?_some found)
    by_contra different
    have apart := disjoint.forall memberOther member fun same => different (congrArg some same)
    exact apart (gsi - other.entry.gsiBase.toNat) (by omega) (gsi - ioapic.entry.gsiBase.toNat)
      (by omega) (by omega)

/-- The register of the entry of a GSI, at the widths of the C code. -/
theorem lowReg_toNat {ioapic : IoApicInfo} {irq : BitVec 8} {k : Nat} (few : k < 120)
    (value : irq.toNat = ioapic.entry.gsiBase.toNat + k) :
    (ioapic.lowReg irq).toNat = 0x10 + 2 * k := by
  have small := irq.isLt
  have table : ioapicRegTable.toNat = 16 := rfl
  have two : (2 : BitVec 8).toNat = 2 := rfl
  rw [IoApicInfo.lowReg, BitVec.toNat_add, BitVec.toNat_mul, BitVec.toNat_setWidth,
    BitVec.toNat_sub, BitVec.toNat_setWidth, table, two]
  omega

section InReach

variable {ioapics : List IoApicInfo} (reach : ∀ ioapic ∈ ioapics, ioapic.InReach)
  (disjoint : ioapics.Pairwise DisjointGsis)

include reach disjoint

/-- The controller found for a GSI is the one that has it. -/
theorem ioapicForGsi_eq {ioapic : IoApicInfo} (member : ioapic ∈ ioapics) {k : Nat}
    (within : k ≤ ioapic.maxRedirect.toNat) {gsi : BitVec 32}
    (value : gsi.toNat = ioapic.entry.gsiBase.toNat + k) :
    ioapicForGsi ioapics gsi = some ioapic := by
  refine find_of_disjoint disjoint (fun other memberOther => handles_iff (reach _ memberOther) gsi)
    member ?_
  exact (handles_iff (reach _ member) gsi).mpr ⟨by omega, by omega⟩

/-- **Disabling a GSI of a controller masks the entry of that GSI.** -/
theorem disabled_entry {ioapic : IoApicInfo} (member : ioapic ∈ ioapics) {k : Nat}
    (within : k ≤ ioapic.maxRedirect.toNat) :
    disabled ioapics ((ioapic.entry.gsiBase + (BitVec.ofNat 8 k).setWidth 32).setWidth 8) =
      {(ioapic.regs, entryReg k)} := by
  obtain ⟨low, few⟩ := reach _ member
  set irq := (ioapic.entry.gsiBase + (BitVec.ofNat 8 k).setWidth 32).setWidth 8 with cut
  have value : irq.toNat = ioapic.entry.gsiBase.toNat + k := by
    rw [cut, BitVec.toNat_setWidth, BitVec.toNat_add, BitVec.toNat_setWidth, BitVec.toNat_ofNat]
    omega
  have gsi : (irq.setWidth 32 : BitVec 32).toNat = ioapic.entry.gsiBase.toNat + k := by
    rw [BitVec.toNat_setWidth, value]
    omega
  have found := ioapicForGsi_eq reach disjoint member within gsi
  have index : (ioapic.lowReg irq).setWidth 32 = entryReg k := by
    apply BitVec.eq_of_toNat_eq
    rw [BitVec.toNat_setWidth, lowReg_toNat (by omega) value, entryReg, BitVec.toNat_ofNat]
  ext target
  rw [Set.mem_singleton_iff, ← index]
  constructor
  · rintro ⟨other, same, rfl⟩
    rw [found] at same
    cases same
    rfl
  · rintro rfl
    exact ⟨ioapic, found, rfl⟩

/-- The loop over the entries of a controller, from the `i`-th on. -/
theorem maskEntries_masked {ioapic : IoApicInfo} (member : ioapic ∈ ioapics) (n : Nat) :
    ∀ (i fuel : Nat) (d : Devices), i + n = ioapic.maxRedirect.toNat + 1 → n < fuel →
      ∃ d', maskEntries ioapics ioapic fuel (BitVec.ofNat 8 i) d = .ok d' ∧
        Masked {target | ∃ k, i ≤ k ∧ k ≤ ioapic.maxRedirect.toNat ∧
          target = (ioapic.regs, entryReg k)} d d' := by
  have few := (reach _ member).2
  have value : ∀ i ≤ ioapic.maxRedirect.toNat + 1, (BitVec.ofNat 8 i).toNat = i := by
    intro i small
    rw [BitVec.toNat_ofNat]
    omega
  induction n with
  | zero =>
    intro i fuel d total enough
    obtain ⟨fuel, rfl⟩ := Nat.exists_eq_add_one.mpr enough
    have stop : ¬ BitVec.ofNat 8 i ≤ ioapic.maxRedirect := by
      rw [BitVec.le_def, value i (by omega)]
      omega
    have empty : {target : Word × BitVec 32 | ∃ k, i ≤ k ∧ k ≤ ioapic.maxRedirect.toNat ∧
        target = (ioapic.regs, entryReg k)} = ∅ :=
      Set.eq_empty_of_forall_notMem fun _ ⟨k, low, high, _⟩ => by omega
    rw [maskEntries, if_neg stop, empty]
    exact ⟨d, rfl, Masked.refl d⟩
  | succ n ih =>
    intro i fuel d total enough
    obtain ⟨fuel, rfl⟩ := Nat.exists_eq_add_one.mpr (Nat.zero_lt_of_lt enough)
    have go : BitVec.ofNat 8 i ≤ ioapic.maxRedirect := by
      rw [BitVec.le_def, value i (by omega)]
      omega
    have next : BitVec.ofNat 8 i + 1 = BitVec.ofNat 8 (i + 1) := (BitVec.ofNat_add i 1).symm
    have first := ioapicDisableIrq_masked ioapics
      ((ioapic.entry.gsiBase + (BitVec.ofNat 8 i).setWidth 32).setWidth 8) d
    obtain ⟨d', run, rest⟩ := ih (i + 1) fuel _ (by omega) (by omega)
    refine ⟨d', ?_, ?_⟩
    · rw [maskEntries, if_pos go, next]
      exact run
    · rw [disabled_entry reach disjoint member (by omega)] at first
      have both := first.trans rest
      convert both using 1
      ext target
      constructor
      · rintro ⟨k, low, high, rfl⟩
        by_cases here : k = i
        · exact .inl (by rw [here]; rfl)
        · exact .inr ⟨k, by omega, high, rfl⟩
      · rintro (rfl | ⟨k, low, high, rfl⟩)
        · exact ⟨i, le_rfl, by omega, rfl⟩
        · exact ⟨k, by omega, high, rfl⟩

/-- **The masking loops** mask every entry of every controller. -/
theorem maskIoapics_masked : ∀ (rest : List IoApicInfo) (d : Devices), rest ⊆ ioapics →
    ∃ d', maskIoapics ioapics rest d = .ok d' ∧ Masked (entriesOf rest) d d' := by
  intro rest
  induction rest with
  | nil =>
    intro d _
    have empty : entriesOf [] = ∅ :=
      Set.eq_empty_of_forall_notMem fun _ ⟨_, member, _⟩ => absurd member List.not_mem_nil
    rw [empty]
    exact ⟨d, rfl, Masked.refl d⟩
  | cons ioapic rest ih =>
    intro d within
    obtain ⟨member, later⟩ := List.cons_subset.mp within
    have small := ioapic.maxRedirect.isLt
    obtain ⟨d₁, first, here⟩ := maskEntries_masked reach disjoint member
      (ioapic.maxRedirect.toNat + 1) 0 irqFuel d (Nat.zero_add _) (by rw [irqFuel]; omega)
    obtain ⟨d', run, there⟩ := ih d₁ later
    refine ⟨d', ?_, ?_⟩
    · have start : (0 : BitVec 8) = BitVec.ofNat 8 0 := rfl
      rw [maskIoapics, start, first]
      exact run
    · have both := here.trans there
      convert both using 1
      ext target
      constructor
      · rintro ⟨other, inside, k, high, rfl⟩
        rcases List.mem_cons.mp inside with rfl | inside
        · exact .inl ⟨k, Nat.zero_le k, high, rfl⟩
        · exact .inr ⟨other, inside, k, high, rfl⟩
      · rintro (⟨k, -, high, rfl⟩ | ⟨other, inside, k, high, rfl⟩)
        · exact ⟨ioapic, List.mem_cons_self, k, high, rfl⟩
        · exact ⟨other, List.mem_cons_of_mem _ inside, k, high, rfl⟩

end InReach

/-! ### Registers out of reach -/

section OutOfReach

variable {ioapics : List IoApicInfo} {base : Word} {index : BitVec 32}
  (never : ∀ irq, (base, index) ∉ disabled ioapics irq)

include never

theorem maskEntries_untouched (ioapic : IoApicInfo) : ∀ (fuel : Nat) (irq : BitVec 8)
    (d d' : Devices), maskEntries ioapics ioapic fuel irq d = .ok d' →
      d'.reg base index = d.reg base index := by
  intro fuel
  induction fuel with
  | zero =>
    intro _ _ _ done
    cases done
  | succ fuel ih =>
    intro irq d d' done
    rw [maskEntries] at done
    split at done
    · rw [ih _ _ _ done]
      exact (ioapicDisableIrq_masked ioapics _ d).outside _ _ (never _)
    · cases done
      rfl

/-- A register that no call computes keeps its value. -/
theorem maskIoapics_untouched : ∀ (rest : List IoApicInfo) (d d' : Devices),
    maskIoapics ioapics rest d = .ok d' → d'.reg base index = d.reg base index := by
  intro rest
  induction rest with
  | nil =>
    intro d d' done
    cases done
    rfl
  | cons ioapic rest ih =>
    intro d d' done
    obtain ⟨d₁, first, later⟩ := bind_ok done
    rw [ih d₁ d' later, maskEntries_untouched never ioapic _ _ _ _ first]

end OutOfReach

/-- **The last entry of a controller out of reach is never masked**: its index, or the 120-th, is no
register that a call computes. -/
theorem outOfReach_never {ioapics : List IoApicInfo} (distinct : (ioapics.map IoApicInfo.regs).Nodup)
    {ioapic : IoApicInfo} (member : ioapic ∈ ioapics) (out : ¬ ioapic.InReach) :
    ∃ k ≤ ioapic.maxRedirect.toNat, ∀ irq, (ioapic.regs, entryReg k) ∉ disabled ioapics irq := by
  by_cases many : ioapic.maxRedirect.toNat ≤ 119
  · refine ⟨ioapic.maxRedirect.toNat, le_rfl, ?_⟩
    rintro irq ⟨other, found, target⟩
    obtain ⟨regs, index⟩ := Prod.mk.inj target
    obtain ⟨memberOther, holds⟩ := ioapicForGsi_some found
    obtain rfl := List.inj_on_of_nodup_map distinct member memberOther regs
    have high : ¬ ioapic.entry.gsiBase.toNat + ioapic.maxRedirect.toNat ≤ 255 :=
      fun low => out ⟨low, many⟩
    have number := congrArg BitVec.toNat index
    have table : ioapicRegTable.toNat = 16 := rfl
    have two : (2 : BitVec 8).toNat = 2 := rfl
    have byte := irq.isLt
    rw [IoApicInfo.handles, decide_eq_true_iff, ge_iff_le, BitVec.le_def,
      BitVec.toNat_setWidth] at holds
    rw [entryReg, BitVec.toNat_ofNat, BitVec.toNat_setWidth, IoApicInfo.lowReg, BitVec.toNat_add,
      BitVec.toNat_mul, BitVec.toNat_setWidth, BitVec.toNat_sub, BitVec.toNat_setWidth, table,
      two] at number
    omega
  · refine ⟨120, by omega, ?_⟩
    rintro irq ⟨other, found, target⟩
    have index := congrArg BitVec.toNat (Prod.mk.inj target).2
    have byte := (other.lowReg irq).isLt
    rw [entryReg, BitVec.toNat_ofNat, BitVec.toNat_setWidth] at index
    omega

/-! ### `ioapic_init` -/

/-- The controllers that `ioapic_init` records for the entries of a table. -/
def Table.ioapicInfos (t : Table) (version : Word → BitVec 32) (os : List Nat) : List IoApicInfo :=
  (t.ioapicsOf os).map fun o =>
    let regs := (t.ioapicEntry o).address.setWidth 64
    { entry := t.ioapicEntry o, maxRedirect := (version regs >>> 16).setWidth 8, regs := regs }

/-- **Every redirection entry of every controller is masked**, and has no other bit changed. -/
def MasksAll (ioapics : List IoApicInfo) (d d' : Devices) : Prop :=
  ∀ ioapic ∈ ioapics, ∀ k ≤ ioapic.maxRedirect.toNat,
    d'.reg ioapic.regs (entryReg k) = d.reg ioapic.regs (entryReg k) ||| ioapicMasked ∧
      d'.reg ioapic.regs (entryReg k + 1) = d.reg ioapic.regs (entryReg k + 1)

theorem Masked.masksAll {ioapics : List IoApicInfo} {d d' : Devices}
    (masked : Masked (entriesOf ioapics) d d') : MasksAll ioapics d d' := by
  intro ioapic member k within
  refine ⟨masked.inside _ _ ⟨ioapic, member, k, within, rfl⟩, masked.outside _ _ ?_⟩
  -- The high halves have odd indices.
  rintro ⟨other, -, j, high, target⟩
  have small := ioapic.maxRedirect.isLt
  have small' := other.maxRedirect.isLt
  have number := congrArg BitVec.toNat (Prod.mk.inj target).2
  have one : (1 : BitVec 32).toNat = 1 := rfl
  rw [entryReg, entryReg, BitVec.toNat_add, BitVec.toNat_ofNat, BitVec.toNat_ofNat, one] at number
  omega

theorem foldl_select_reg (ioapics : List IoApicInfo) : ∀ d : Devices,
    (ioapics.foldl (fun d ioapic => (ioapicRead ioapic.regs ioapicRegVer d).2) d).reg = d.reg := by
  induction ioapics with
  | nil => exact fun _ => rfl
  | cons ioapic ioapics ih =>
    intro d
    rw [List.foldl_cons, ih]
    exact (ioapicRead_reg ioapic.regs ioapicRegVer d).2

/-- A register that no call computes keeps its value through `ioapic_init`. -/
theorem untouched_of_init {t : Table} {fuel : Nat} {old ioapics : List IoApicInfo} {d d' : Devices}
    {base : Word} {index : BitVec 32} (never : ∀ irq, (base, index) ∉ disabled ioapics irq)
    (done : ioapicInitDevices (some t) fuel old d = .ok (ioapics, d')) :
    d'.reg base index = d.reg base index := by
  rw [ioapicInitDevices] at done
  dsimp only at done
  split at done
  · cases done
  · obtain ⟨d₁, masked, last⟩ := bind_ok done
    cases last
    rw [maskIoapics_untouched never _ _ _ masked, foldl_select_reg]

section Init

variable (t : Table) {os : List Nat} (chain : Chain t.entryLength t.length 2 madtSize os)
  (version : Word → BitVec 32) (few : (t.ioapicInfos version os).length ≤ maxIoapics)

include chain few

/-- The recording loop, on a table with at most `MAX_IOAPICS` I/O APICs. -/
theorem ioapicInit_records :
    ∃ visited, ioapicInit version t (os.length + 1) = some (visited, t.ioapicInfos version os) := by
  have recorded : ioapicInit version t (os.length + 1) = some (through _ _ os _) :=
    scan_chain (fun _ _ => rfl) chain _ _ (Nat.lt_succ_self os.length)
  rw [through_ioapicEntry t version _ (fun _ _ => rfl) os [] (Nat.zero_le _)] at recorded
  change _ = some (_, List.take maxIoapics (t.ioapicInfos version os)) at recorded
  rw [List.take_of_length_le few] at recorded
  exact ⟨_, recorded⟩

/-- **When `ioapic_init` masks everything.** For controllers at different addresses with disjoint
GSIs: it ends with every redirection entry masked, whatever the registers held, exactly when every
GSI is at most 255 and every index at most 119. -/
theorem ioapicInit_masks_iff
    (distinct : ((t.ioapicInfos version os).map IoApicInfo.regs).Nodup)
    (disjoint : (t.ioapicInfos version os).Pairwise DisjointGsis) :
    (∀ (d : Devices) (old : List IoApicInfo),
      (∀ regs, d.reg regs (ioapicRegVer.setWidth 32) = version regs) →
        ∃ fuel d', ioapicInitDevices (some t) fuel old d = .ok (t.ioapicInfos version os, d') ∧
          MasksAll (t.ioapicInfos version os) d d') ↔
      ∀ ioapic ∈ t.ioapicInfos version os, ioapic.InReach := by
  constructor
  · intro all ioapic member
    by_contra out
    obtain ⟨k, within, never⟩ := outOfReach_never distinct member out
    -- Registers that hold nothing but the version.
    obtain ⟨fuel, d', done, masks⟩ := all
      (fun regs => ⟨0, fun index => if index = ioapicRegVer.setWidth 32 then version regs else 0⟩) []
      (fun regs => by simp only [Devices.reg, if_true])
    have masked := (masks ioapic member k within).1
    have clear : entryReg k ≠ ioapicRegVer.setWidth 32 := by
      intro same
      have small := ioapic.maxRedirect.isLt
      have number := congrArg BitVec.toNat same
      rw [entryReg, BitVec.toNat_ofNat] at number
      change (0x10 + 2 * k) % 2 ^ 32 = 1 at number
      omega
    have kept := untouched_of_init never done
    rw [kept, Devices.reg] at masked
    dsimp only at masked
    rw [if_neg clear] at masked
    exact absurd masked (by decide)
  · intro reach d old reported
    have reads : (fun regs => (ioapicRead regs ioapicRegVer d).1) = version := by
      funext regs
      rw [(ioapicRead_reg regs ioapicRegVer d).1, reported]
    obtain ⟨visited, recorded⟩ := ioapicInit_records t chain version few
    have same := foldl_select_reg (t.ioapicInfos version os) d
    obtain ⟨d', run, masked⟩ := maskIoapics_masked reach disjoint (t.ioapicInfos version os)
      ((t.ioapicInfos version os).foldl (fun d ioapic => (ioapicRead ioapic.regs ioapicRegVer d).2) d)
      (List.Subset.refl _)
    refine ⟨os.length + 1, d', ?_, ?_⟩
    · rw [ioapicInitDevices]
      dsimp only
      rw [reads, recorded]
      dsimp only
      rw [run]
      rfl
    · have all := masked.masksAll
      unfold MasksAll at all ⊢
      rwa [same] at all

end Init

/-- A table with one I/O APIC at `0xFEC00000`; the byte `high` is the second of its GSI base. -/
def ioapicTable (high : Byte) (o : Nat) : Byte :=
  if o = 4 then 56 else if o = 44 then 1 else if o = 45 then 12 else if o = 50 then 0xC0
  else if o = 51 then 0xFE else if o = 53 then high else 0

theorem ioapicTable_chain (high : Byte) :
    Chain (Table.entryLength (ioapicTable high)) (Table.length (ioapicTable high)) 2 madtSize [44] := by
  have length : Table.length (ioapicTable high) = 56 := by
    simp [Table.length, Table.u32, Table.u16, ioapicTable]
  have size : Table.entryLength (ioapicTable high) madtSize = 12 := rfl
  refine .step (by rw [length]; decide) ⟨by rw [size]; decide, by rw [size, length]; decide⟩ (.done ?_)
  rw [size, length]
  decide

/-- Controllers with 24 entries, all of them zero. -/
def demoDevices : Devices := fun _ =>
  ⟨0, fun index => if index = ioapicRegVer.setWidth 32 then 0x170011 else 0⟩

/-- The usual controller, with the GSIs from 0 on. -/
theorem ioapicInit_masks_first :
    ∃ fuel d', ioapicInitDevices (some (ioapicTable 0)) fuel [] demoDevices =
        .ok (Table.ioapicInfos (ioapicTable 0) (fun _ => 0x170011) [44], d') ∧
      MasksAll (Table.ioapicInfos (ioapicTable 0) (fun _ => 0x170011) [44]) demoDevices d' := by
  refine (ioapicInit_masks_iff (ioapicTable 0) (ioapicTable_chain 0) (fun _ => 0x170011) (by decide)
    (by decide) (List.pairwise_singleton _ _)).mpr ?_ demoDevices [] fun _ => rfl
  decide +kernel

/-- **A controller with the GSIs from 256 on**: the GSI is cut to 8 bits, no controller is found for
it, and no entry is masked. -/
theorem ioapicInit_misses_gsi :
    Chain (Table.entryLength (ioapicTable 1)) (Table.length (ioapicTable 1)) 2 madtSize [44] ∧
      ∃ d', ioapicInitDevices (some (ioapicTable 1)) 2 [] demoDevices =
          .ok (Table.ioapicInfos (ioapicTable 1) (fun _ => 0x170011) [44], d') ∧
        ∀ k ≤ 23, d'.reg 0xFEC00000 (entryReg k) = 0 := by
  refine ⟨ioapicTable_chain 1, (fun d => (ioapicRead 0xFEC00000 ioapicRegVer d).2) demoDevices, ?_, ?_⟩
  · rfl
  · decide +kernel

end ShipOS

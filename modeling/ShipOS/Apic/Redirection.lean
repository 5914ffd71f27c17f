/-
**Redirection entries follow the last request (`ioapic.c`).**

`ioapic_enable_irq` writes both halves of the entry of a pin, `ioapic_disable_irq` sets the mask bit
in its low half. A request names its pin by an 8-bit irq: the controller whose GSIs have it, and the
index among them.

* `ioapicForGsi_irq` — the controller the code finds is the one whose GSIs have the irq;
* `exec_reg_pin` — a request changes the two registers of the pin it names, and no other;
* `lastRequest_concat` — what the last enable wrote, with the mask bit if a disable followed, is what
  the requests of a pin leave one after the other;
* `redirection_follows` — the entries after any sequence of requests.
-/

import Mathlib.Data.List.DropRight
import ShipOS.Apic.IoApic

namespace ShipOS

open ByteMem Records

/-! ### The code -/

def ioapicDelmodFixed : BitVec 32 := 0x00000000

def ioapicDestmodPhysical : BitVec 32 := 0x00000000

def ioapicIntpolHigh : BitVec 32 := 0x00000000

def ioapicTriggerEdge : BitVec 32 := 0x00000000

/-- The register of the high half, at the widths of the C code. -/
def IoApicInfo.highReg (ioapic : IoApicInfo) (irq : BitVec 8) : BitVec 8 := ioapic.lowReg irq + 1

/-- `ioapic_set_entry`; the entry is read back for the log. -/
def ioapicSetEntry (ioapics : List IoApicInfo) (irq vector dest : BitVec 8) (flags : BitVec 32)
    (d : Devices) : Devices :=
  match ioapicForGsi ioapics (irq.setWidth 32) with
  | none => d
  | some ioapic =>
    let low := vector.setWidth 32 ||| flags
    let high := dest.setWidth 32 <<< 24
    let d := ioapicWrite ioapic.regs (ioapic.lowReg irq) low d
    let d := ioapicWrite ioapic.regs (ioapic.highReg irq) high d
    let d := (ioapicRead ioapic.regs (ioapic.lowReg irq) d).2
    (ioapicRead ioapic.regs (ioapic.highReg irq) d).2

def ioapicEnableIrq (ioapics : List IoApicInfo) (irq vector dest : BitVec 8) (d : Devices) :
    Devices :=
  let flags := ioapicDelmodFixed ||| ioapicDestmodPhysical ||| ioapicIntpolHigh ||| ioapicTriggerEdge
  ioapicSetEntry ioapics irq vector dest flags d

/-- The calls that change redirection entries. -/
inductive IrqRequest
  | enable (irq vector dest : BitVec 8)
  | disable (irq : BitVec 8)
  deriving DecidableEq, Repr

namespace IrqRequest

def irq : IrqRequest → BitVec 8
  | .enable irq _ _ => irq
  | .disable irq => irq

def exec (ioapics : List IoApicInfo) (d : Devices) : IrqRequest → Devices
  | .enable irq vector dest => ioapicEnableIrq ioapics irq vector dest d
  | .disable irq => ioapicDisableIrq ioapics irq d

def execAll (ioapics : List IoApicInfo) (requests : List IrqRequest) (d : Devices) : Devices :=
  requests.foldl (exec ioapics) d

end IrqRequest

/-! ### Pins and their entries -/

/-- The GSIs do not wrap around, and there are at most 120 pins. -/
def IoApicInfo.Regular (ioapic : IoApicInfo) : Prop :=
  ioapic.entry.gsiBase.toNat + ioapic.maxRedirect.toNat < 2 ^ 32 ∧ ioapic.maxRedirect.toNat < 120

instance (ioapic : IoApicInfo) : Decidable ioapic.Regular := inferInstanceAs (Decidable (_ ∧ _))

/-- The GSIs of the controller have the irq. -/
def IoApicInfo.Covers (ioapic : IoApicInfo) (irq : BitVec 8) : Prop :=
  ioapic.entry.gsiBase.toNat ≤ irq.toNat ∧
    irq.toNat ≤ ioapic.entry.gsiBase.toNat + ioapic.maxRedirect.toNat

instance (ioapic : IoApicInfo) (irq : BitVec 8) : Decidable (ioapic.Covers irq) :=
  inferInstanceAs (Decidable (_ ∧ _))

/-- A pin: the registers of its controller, and its index there. -/
abbrev Pin := Word × Nat

/-- The pin that an irq names. -/
def pinOf (ioapics : List IoApicInfo) (irq : BitVec 8) : Option Pin :=
  (ioapics.find? fun ioapic => ioapic.Covers irq).map fun ioapic =>
    (ioapic.regs, irq.toNat - ioapic.entry.gsiBase.toNat)

/-- The two halves of a redirection entry. -/
@[ext]
structure RedirEntry where
  low : BitVec 32
  high : BitVec 32
  deriving DecidableEq, Repr

def Devices.entry (d : Devices) (pin : Pin) : RedirEntry :=
  ⟨d.reg pin.1 (entryReg pin.2), d.reg pin.1 (entryReg pin.2 + 1)⟩

/-- An entry with the mask bit set. -/
def RedirEntry.mask (e : RedirEntry) : RedirEntry := { e with low := e.low ||| ioapicMasked }

/-- What a request makes of the entry of its pin. -/
def IrqRequest.apply : IrqRequest → RedirEntry → RedirEntry
  | .enable _ vector dest, _ => ⟨vector.setWidth 32, dest.setWidth 32 <<< 24⟩
  | .disable _, e => e.mask

def IrqRequest.isDisable : IrqRequest → Bool
  | .enable _ _ _ => false
  | .disable _ => true

/-- What the last enable wrote, or the initial entry without one. -/
def lastEnable (initial : RedirEntry) (requests : List IrqRequest) : RedirEntry :=
  match (requests.rdropWhile IrqRequest.isDisable).getLast? with
  | some (.enable _ vector dest) => ⟨vector.setWidth 32, dest.setWidth 32 <<< 24⟩
  | _ => initial

/-- **What the last request leaves**: the entry of the last enable, with the mask bit if a disable
followed. -/
def lastRequest (initial : RedirEntry) (requests : List IrqRequest) : RedirEntry :=
  if requests.rtakeWhile IrqRequest.isDisable = [] then lastEnable initial requests
  else (lastEnable initial requests).mask

theorem mask_mask (e : RedirEntry) : e.mask.mask = e.mask := by
  unfold RedirEntry.mask
  rw [BitVec.or_assoc, BitVec.or_self]

/-- The closed form is what the requests do one after the other. -/
theorem lastRequest_concat (initial : RedirEntry) (requests : List IrqRequest) (r : IrqRequest) :
    lastRequest initial (requests ++ [r]) = r.apply (lastRequest initial requests) := by
  cases r with
  | enable irq vector dest =>
    have stop : ¬ IrqRequest.isDisable (.enable irq vector dest) = true := Bool.false_ne_true
    rw [lastRequest, lastEnable, List.rdropWhile_concat_neg _ _ _ stop,
      List.rtakeWhile_concat_neg _ _ _ stop, List.getLast?_concat, if_pos rfl]
    rfl
  | disable irq =>
    have written : lastEnable initial (requests ++ [.disable irq]) = lastEnable initial requests := by
      unfold lastEnable
      rw [List.rdropWhile_concat_pos _ _ _ rfl]
    rw [lastRequest, List.rtakeWhile_concat_pos _ _ _ rfl, if_neg (List.concat_ne_nil _ _), written,
      lastRequest, IrqRequest.apply]
    split
    · rfl
    · rw [mask_mask]

/-! ### One request -/

/-- The test of `ioapic_for_gsi` on an irq. -/
theorem handles_irq {ioapic : IoApicInfo} (range : ioapic.Regular) (irq : BitVec 8) :
    ioapic.handles (irq.setWidth 32) = decide (ioapic.Covers irq) := by
  have small := irq.isLt
  rw [Bool.eq_iff_iff, handles_range range.1, decide_eq_true_iff, BitVec.toNat_setWidth,
    IoApicInfo.Covers]
  omega

/-- The registers of an entry, at the widths of the C code. -/
theorem reg_covered {ioapic : IoApicInfo} (range : ioapic.Regular) {irq : BitVec 8}
    (covers : ioapic.Covers irq) :
    (ioapic.lowReg irq).setWidth 32 = entryReg (irq.toNat - ioapic.entry.gsiBase.toNat) ∧
      (ioapic.highReg irq).setWidth 32 =
        entryReg (irq.toNat - ioapic.entry.gsiBase.toNat) + 1 := by
  obtain ⟨low, high⟩ := covers
  obtain ⟨-, few⟩ := range
  have one : (1 : BitVec 8).toNat = 1 := rfl
  have one' : (1 : BitVec 32).toNat = 1 := rfl
  have index : (ioapic.lowReg irq).toNat =
      0x10 + 2 * (irq.toNat - ioapic.entry.gsiBase.toNat) :=
    lowReg_toNat (by omega) (by omega)
  constructor
  · apply BitVec.eq_of_toNat_eq
    rw [BitVec.toNat_setWidth, index, entryReg, BitVec.toNat_ofNat]
  · apply BitVec.eq_of_toNat_eq
    rw [BitVec.toNat_setWidth, IoApicInfo.highReg, BitVec.toNat_add, index, one, BitVec.toNat_add,
      entryReg, BitVec.toNat_ofNat, one']
    omega

theorem entryReg_toNat {k : Nat} (few : k < 120) : (entryReg k).toNat = 0x10 + 2 * k := by
  rw [entryReg, BitVec.toNat_ofNat]
  omega

/-- The high half of an entry is no low half. -/
theorem entryReg_succ_ne {k j : Nat} (fewK : k < 120) (fewJ : j < 120) :
    entryReg k + 1 ≠ entryReg j := by
  intro same
  have one : (1 : BitVec 32).toNat = 1 := rfl
  have values := congrArg BitVec.toNat same
  rw [BitVec.toNat_add, entryReg_toNat fewK, entryReg_toNat fewJ, one] at values
  omega

theorem entryReg_inj {k j : Nat} (fewK : k < 120) (fewJ : j < 120)
    (same : entryReg k = entryReg j) : k = j := by
  have values := congrArg BitVec.toNat same
  rw [entryReg_toNat fewK, entryReg_toNat fewJ] at values
  omega

section Range

variable {ioapics : List IoApicInfo} (range : ∀ ioapic ∈ ioapics, ioapic.Regular)

include range

/-- The controller the code finds is the one whose GSIs have the irq. -/
theorem ioapicForGsi_irq (irq : BitVec 8) :
    ioapicForGsi ioapics (irq.setWidth 32) = ioapics.find? fun ioapic => ioapic.Covers irq := by
  unfold ioapicForGsi
  induction ioapics with
  | nil => rfl
  | cons ioapic rest ih =>
    obtain ⟨here, later⟩ := List.forall_mem_cons.mp range
    rw [List.find?_cons, List.find?_cons, handles_irq here, ih later]

theorem ioapicForGsi_none {irq : BitVec 8} (nowhere : pinOf ioapics irq = none) :
    ioapicForGsi ioapics (irq.setWidth 32) = none := by
  rw [ioapicForGsi_irq range]
  exact Option.map_eq_none_iff.mp nowhere

/-- The controller and the registers of a named pin. -/
theorem ioapicForGsi_pin {irq : BitVec 8} {pin : Pin} (named : pinOf ioapics irq = some pin) :
    ∃ ioapic, ioapicForGsi ioapics (irq.setWidth 32) = some ioapic ∧ ioapic.regs = pin.1 ∧
      (ioapic.lowReg irq).setWidth 32 = entryReg pin.2 ∧
      (ioapic.highReg irq).setWidth 32 = entryReg pin.2 + 1 ∧ pin.2 < 120 := by
  obtain ⟨ioapic, found, rfl⟩ := Option.map_eq_some_iff.mp named
  have regular := range _ (List.mem_of_find?_eq_some found)
  have covers : ioapic.Covers irq := by simpa using List.find?_some found
  obtain ⟨low, high⟩ := reg_covered regular covers
  refine ⟨ioapic, (ioapicForGsi_irq range irq).trans found, rfl, low, high, ?_⟩
  have few := regular.2
  have most := covers.2
  dsimp only
  omega

/-- **A request that no controller covers changes no register.** -/
theorem exec_reg_none {r : IrqRequest} (nowhere : pinOf ioapics r.irq = none) (d : Devices) :
    (r.exec ioapics d).reg = d.reg := by
  have found := ioapicForGsi_none range nowhere
  cases r with
  | enable irq vector dest =>
    rw [IrqRequest.exec, ioapicEnableIrq, ioapicSetEntry]
    rw [show ioapicForGsi ioapics (irq.setWidth 32) = none from found]
  | disable irq =>
    rw [IrqRequest.exec, ioapicDisableIrq]
    rw [show ioapicForGsi ioapics (irq.setWidth 32) = none from found]

/-- **A request changes the entry of the pin it names**, and no other register. -/
theorem exec_reg_pin {r : IrqRequest} {pin : Pin} (named : pinOf ioapics r.irq = some pin)
    (d : Devices) (base : Word) (index : BitVec 32) :
    (r.exec ioapics d).reg base index =
      if base = pin.1 ∧ index = entryReg pin.2 + 1 then (r.apply (d.entry pin)).high
      else if base = pin.1 ∧ index = entryReg pin.2 then (r.apply (d.entry pin)).low
      else d.reg base index := by
  obtain ⟨ioapic, found, regs, low, high, few⟩ := ioapicForGsi_pin range named
  cases r with
  | enable irq vector dest =>
    change ioapicForGsi ioapics (irq.setWidth 32) = some ioapic at found
    change (ioapic.lowReg irq).setWidth 32 = _ at low
    change (ioapic.highReg irq).setWidth 32 = _ at high
    have flags : vector.setWidth 32 ||| (ioapicDelmodFixed ||| ioapicDestmodPhysical |||
        ioapicIntpolHigh ||| ioapicTriggerEdge) = vector.setWidth 32 := BitVec.or_zero
    rw [IrqRequest.exec, ioapicEnableIrq, ioapicSetEntry, found]
    dsimp only
    rw [(ioapicRead_reg _ _ _).2, (ioapicRead_reg _ _ _).2, ioapicWrite_reg, ioapicWrite_reg, low,
      high, regs, flags]
    rfl
  | disable irq =>
    change ioapicForGsi ioapics (irq.setWidth 32) = some ioapic at found
    change (ioapic.lowReg irq).setWidth 32 = _ at low
    obtain ⟨value, same⟩ := ioapicRead_reg ioapic.regs (ioapic.lowReg irq) d
    rw [IrqRequest.exec, ioapicDisableIrq, found]
    dsimp only
    rw [ioapicWrite_reg, value, same, low, regs]
    by_cases upper : base = pin.1 ∧ index = entryReg pin.2 + 1
    · -- the high half keeps its value
      obtain ⟨rfl, rfl⟩ := upper
      rw [if_neg fun both => entryReg_succ_ne few few both.2, if_pos ⟨rfl, rfl⟩]
      rfl
    · rw [if_neg upper]
      rfl

/-- The entry of a pin after a request. -/
theorem exec_entry (r : IrqRequest) {pin : Pin} (few : pin.2 < 120) (d : Devices) :
    (r.exec ioapics d).entry pin =
      if pinOf ioapics r.irq = some pin then r.apply (d.entry pin) else d.entry pin := by
  cases named : pinOf ioapics r.irq with
  | none =>
    rw [if_neg (Option.some_ne_none pin).symm, Devices.entry, exec_reg_none range named]
    rfl
  | some other =>
    obtain ⟨-, -, -, -, -, fewOther⟩ := ioapicForGsi_pin range named
    have reg := exec_reg_pin range named d
    by_cases same : other = pin
    · subst same
      rw [if_pos rfl]
      ext1
      · show (r.exec ioapics d).reg other.1 (entryReg other.2) = _
        rw [reg, if_neg fun both => entryReg_succ_ne few few both.2.symm, if_pos ⟨rfl, rfl⟩]
      · show (r.exec ioapics d).reg other.1 (entryReg other.2 + 1) = _
        rw [reg, if_pos ⟨rfl, rfl⟩]
    · rw [if_neg fun equal => same (Option.some.inj equal)]
      have apart : pin.1 = other.1 → pin.2 ≠ other.2 := fun first second =>
        same (Prod.ext first second).symm
      ext1
      · show (r.exec ioapics d).reg pin.1 (entryReg pin.2) = _
        rw [reg, if_neg fun both => entryReg_succ_ne fewOther few both.2.symm,
          if_neg fun both => apart both.1 (entryReg_inj few fewOther both.2)]
        rfl
      · show (r.exec ioapics d).reg pin.1 (entryReg pin.2 + 1) = _
        rw [reg, if_neg fun both =>
            apart both.1 (entryReg_inj few fewOther ((BitVec.add_left_inj 1).mp both.2)),
          if_neg fun both => entryReg_succ_ne few fewOther both.2]
        rfl

/-! ### Runs -/

/-- **The entry of a pin after any requests** is what the last of those naming it left. -/
theorem execAll_entry {pin : Pin} (few : pin.2 < 120) (requests : List IrqRequest) (d : Devices) :
    (IrqRequest.execAll ioapics requests d).entry pin =
      lastRequest (d.entry pin)
        (requests.filter fun r => pinOf ioapics r.irq = some pin) := by
  induction requests using List.reverseRecOn with
  | nil => rfl
  | append_singleton requests r ih =>
    rw [IrqRequest.execAll, List.foldl_append, List.foldl_cons, List.foldl_nil,
      ← IrqRequest.execAll, exec_entry range r few, ih, List.filter_append]
    by_cases named : pinOf ioapics r.irq = some pin
    · rw [if_pos named, List.filter_singleton, decide_eq_true named, cond_true, lastRequest_concat]
    · rw [if_neg named, List.filter_singleton, decide_eq_false named, cond_false, List.append_nil]

/-- A disable changes nothing but mask bits. -/
theorem disable_bits (irq : BitVec 8) (d : Devices) (base : Word) (index : BitVec 32) (bit : Nat)
    (other : bit ≠ 16) :
    ((IrqRequest.disable irq).exec ioapics d |>.reg base index).getLsbD bit =
      (d.reg base index).getLsbD bit := by
  have clear : ioapicMasked.getLsbD bit = false := by
    rw [show ioapicMasked = BitVec.twoPow 32 16 from rfl, BitVec.getLsbD_twoPow]
    simp [Ne.symm other]
  cases named : pinOf ioapics (IrqRequest.disable irq).irq with
  | none => rw [exec_reg_none range named]
  | some pin =>
    rw [exec_reg_pin range named]
    split
    · next upper =>
      rw [upper.1, upper.2]
      rfl
    split
    · next lower =>
      rw [lower.1, lower.2]
      show ((d.reg pin.1 (entryReg pin.2)) ||| ioapicMasked).getLsbD bit = _
      rw [BitVec.getLsbD_or, clear, Bool.or_false]
    · rfl

end Range

/-- For controllers with disjoint GSIs, the pin of an irq is the one of the controller having it. -/
theorem pinOf_covered {ioapics : List IoApicInfo} (disjoint : ioapics.Pairwise DisjointGsis)
    {ioapic : IoApicInfo} (member : ioapic ∈ ioapics) {irq : BitVec 8}
    (covers : ioapic.Covers irq) :
    pinOf ioapics irq = some (ioapic.regs, irq.toNat - ioapic.entry.gsiBase.toNat) := by
  have found : (ioapics.find? fun ioapic => ioapic.Covers irq) = some ioapic :=
    find_of_disjoint disjoint (fun _ _ => decide_eq_true_iff) member (decide_eq_true covers)
  rw [pinOf, found]
  rfl

theorem pinOf_none {ioapics : List IoApicInfo} {irq : BitVec 8}
    (nowhere : ∀ ioapic ∈ ioapics, ¬ ioapic.Covers irq) : pinOf ioapics irq = none := by
  rw [pinOf, Option.map_eq_none_iff, List.find?_eq_none]
  intro ioapic member
  rw [decide_eq_true_iff]
  exact nowhere ioapic member

/-- Controllers at different addresses: a pin has one irq. -/
theorem pinOf_inj {ioapics : List IoApicInfo} (distinct : (ioapics.map IoApicInfo.regs).Nodup)
    {irq other : BitVec 8} {pin : Pin} (named : pinOf ioapics irq = some pin)
    (namedOther : pinOf ioapics other = some pin) : other = irq := by
  obtain ⟨ioapic, found, rfl⟩ := Option.map_eq_some_iff.mp named
  obtain ⟨ioapic', found', same⟩ := Option.map_eq_some_iff.mp namedOther
  obtain ⟨regs, index⟩ := Prod.mk.inj same
  have one : ioapic' = ioapic := List.inj_on_of_nodup_map distinct
    (List.mem_of_find?_eq_some found') (List.mem_of_find?_eq_some found) regs
  subst one
  have covers : ioapic'.Covers irq := by simpa using List.find?_some found
  have covers' : ioapic'.Covers other := by simpa using List.find?_some found'
  have low := covers.1
  have low' := covers'.1
  apply BitVec.eq_of_toNat_eq
  omega

/-- The registers a request may change: those of the pin it names. -/
def IrqRequest.Names (ioapics : List IoApicInfo) (r : IrqRequest) (base : Word)
    (index : BitVec 32) : Prop :=
  ∃ pin, pinOf ioapics r.irq = some pin ∧ base = pin.1 ∧
    (index = entryReg pin.2 ∨ index = entryReg pin.2 + 1)

/-- **Redirection entries follow the last request.** After any sequence of calls the entry of a pin
is what its last enable wrote, masked if a disable followed. The next call changes no register but
the two of the pin it names, a disable nothing but mask bits, and an irq without a controller
nothing. A pin is named by one irq where the controllers have different addresses. -/
theorem redirection_follows (ioapics : List IoApicInfo)
    (range : ∀ ioapic ∈ ioapics, ioapic.Regular) (disjoint : ioapics.Pairwise DisjointGsis)
    (requests : List IrqRequest) (d : Devices) :
    let after := IrqRequest.execAll ioapics requests d
    (∀ ioapic ∈ ioapics, ∀ irq, ioapic.Covers irq →
      let pin : Pin := (ioapic.regs, irq.toNat - ioapic.entry.gsiBase.toNat)
      pinOf ioapics irq = some pin ∧
        ((ioapics.map IoApicInfo.regs).Nodup → ∀ other, pinOf ioapics other = some pin → other = irq) ∧
        after.entry pin = lastRequest (d.entry pin)
          (requests.filter fun r => pinOf ioapics r.irq = some pin)) ∧
    (∀ (r : IrqRequest) base index, ¬ r.Names ioapics base index →
      (r.exec ioapics after).reg base index = after.reg base index) ∧
    (∀ irq base index bit, bit ≠ 16 →
      ((IrqRequest.disable irq).exec ioapics after |>.reg base index).getLsbD bit =
        (after.reg base index).getLsbD bit) ∧
    (∀ r : IrqRequest, (∀ ioapic ∈ ioapics, ¬ ioapic.Covers r.irq) →
      (r.exec ioapics after).reg = after.reg) := by
  intro after
  refine ⟨fun ioapic member irq covers => ?_, fun r base index unnamed => ?_, ?_,
    fun r nowhere => exec_reg_none range (pinOf_none nowhere) after⟩
  · have named := pinOf_covered disjoint member covers
    obtain ⟨-, -, -, -, -, few⟩ := ioapicForGsi_pin range named
    exact ⟨named, fun distinct other => pinOf_inj distinct named, execAll_entry range few requests d⟩
  · cases named : pinOf ioapics r.irq with
    | none => rw [exec_reg_none range named]
    | some pin =>
      rw [exec_reg_pin range named,
        if_neg fun both => unnamed ⟨pin, named, both.1, Or.inr both.2⟩,
        if_neg fun both => unnamed ⟨pin, named, both.1, Or.inl both.2⟩]
  · exact fun irq base index bit other => disable_bits range irq after base index bit other

/-- Two controllers with 24 pins each. -/
def twoIoapics : List IoApicInfo :=
  [⟨⟨0, 0xFEC00000, 0⟩, 23, 0xFEC00000⟩, ⟨⟨1, 0xFEC01000, 24⟩, 23, 0xFEC01000⟩]

/-- A pin of the second controller, enabled twice and then disabled, while the first is used. -/
theorem redirection_follows_two :
    (IrqRequest.execAll twoIoapics [.enable 30 40 0, .enable 1 33 0, .enable 30 41 2, .disable 30,
      .disable 200] demoDevices).entry (0xFEC01000, 6) = ⟨0x10029, 0x2000000⟩ := by
  have disjoint : twoIoapics.Pairwise DisjointGsis := by
    refine List.pairwise_pair.mpr fun j hj k hk => ?_
    change j ≤ 23 at hj
    change 0 + j ≠ 24 + k
    omega
  have follows := redirection_follows twoIoapics (by decide) disjoint
    [.enable 30 40 0, .enable 1 33 0, .enable 30 41 2, .disable 30, .disable 200] demoDevices
  have entry := (follows.1 _ (List.mem_cons_of_mem _ List.mem_cons_self) 30 (by decide)).2.2
  exact entry.trans (by decide)

end ShipOS

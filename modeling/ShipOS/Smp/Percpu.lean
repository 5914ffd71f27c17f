/-
**Per-CPU records and their lookup (`percpu.c`).**

CPUs are known by the 8-bit APIC ID that `get_apic_id` reads on them. The BSP runs `percpu_init_bsp`;
then every AP takes an index from `next_cpu_index` (`ap_entry`) and runs `percpu_init_ap` store by
store, in any interleaving with the others. A CPU counts as initialised from the store into
`apic_to_cpu` on (`slotOf`); `mycpu` and `cpu_by_apic_id` may run between any two stores.

* `Filled` — what the first `k` stores of `percpu_init_ap` leave in a slot, `Filled.exec` and
  `Filled.other`: a store of this and of another CPU;
* `LookupInv` — the slots handed out are different and filled, and no other APIC ID is mapped;
* `lookup_of_run` — both lookups are exact in every state of every bring-up.
-/

import Mathlib.Data.Fintype.Card
import Mathlib.Tactic.IntervalCases
import ShipOS.Lib.ByteMem
import ShipOS.Lib.Runs

namespace ShipOS

open ByteMem Runs

/-! ### Records and lookup -/

/-- A `struct percpu *`: null, the early boot record or the address of `percpus[i]`. -/
inductive CpuPtr
  | null
  | early
  | slot (i : Nat)
  deriving DecidableEq, Repr

/-- The fields of `struct percpu` that initialisation and lookup touch. -/
structure Percpu where
  self : CpuPtr
  apicId : BitVec 32
  cpuIndex : BitVec 32
  isBsp : Bool
  started : Bool
  ncli : BitVec 32
  intena : BitVec 32
  currentThread : Word
  idleThread : Word

def maxCpus : BitVec 32 := 64

/-- The globals of `percpu.c`; the arrays are functions of the index. -/
structure PercpuMem where
  percpus : Nat → Percpu
  ncpu : BitVec 32
  apicToCpu : Nat → BitVec 32
  percpuFullyInitialized : Bool

/-- `ebx >> 24` on the CPU with this APIC ID. -/
def getApicId (apic : BitVec 8) : BitVec 32 := apic.setWidth 32

/-- `mycpu()` on the CPU with this APIC ID. -/
def mycpu (apic : BitVec 8) (m : PercpuMem) : CpuPtr :=
  if m.percpuFullyInitialized then
    let apicId := getApicId apic
    let idx := m.apicToCpu apicId.toNat
    if idx.toInt < 0 ∨ idx.toInt ≥ m.ncpu.toInt then
      match (List.range m.ncpu.toNat).find? fun i => (m.percpus i).apicId = apicId with
      | some i => .slot i
      | none => .slot 0
    else .slot idx.toNat
  else .early

def cpuByApicId (apicId : BitVec 32) (m : PercpuMem) : CpuPtr :=
  if apicId > 255 then .null
  else
    let idx := m.apicToCpu apicId.toNat
    if idx.toInt < 0 ∨ idx.toInt ≥ m.ncpu.toInt then .null else .slot idx.toNat

def percpuInitBsp (apic : BitVec 8) (totalCpus : BitVec 32) (m : PercpuMem) : PercpuMem :=
  let cleared := fun i => if i < 256 then -1#32 else m.apicToCpu i
  let bsp : Percpu :=
    { self := .slot 0, apicId := getApicId apic, cpuIndex := 0, isBsp := true, started := true,
      ncli := 0, intena := 0, currentThread := 0, idleThread := 0 }
  { percpus := Function.update m.percpus 0 bsp
    ncpu := if totalCpus > maxCpus then maxCpus else totalCpus
    apicToCpu := Function.update cleared bsp.apicId.toNat 0
    percpuFullyInitialized := true }

/-! ### `percpu_init_ap`, store by store -/

/-- The statements of `percpu_init_ap` after its check. `setup_tss` and the GDT calls write only to
fields that no lookup reads. -/
inductive InitOp
  | self | apicId | cpuIndex | isBsp | ncli | intena | currentThread | idleThread
  | map | setupTss | setupGdt | started
  deriving DecidableEq, Repr

def percpuInitAp : List InitOp :=
  [.self, .apicId, .cpuIndex, .isBsp, .ncli, .intena, .currentThread, .idleThread, .map, .setupTss,
    .setupGdt, .started]

/-- The record after a statement. -/
def InitOp.record (apic : BitVec 8) (i : Nat) (cpu : Percpu) : InitOp → Percpu
  | .self => { cpu with self := .slot i }
  | .apicId => { cpu with apicId := getApicId apic }
  | .cpuIndex => { cpu with cpuIndex := BitVec.ofNat 32 i }
  | .isBsp => { cpu with isBsp := false }
  | .ncli => { cpu with ncli := 0 }
  | .intena => { cpu with intena := 0 }
  | .currentThread => { cpu with currentThread := 0 }
  | .idleThread => { cpu with idleThread := 0 }
  | .started => { cpu with started := true }
  | .map | .setupTss | .setupGdt => cpu

/-- One statement of `percpu_init_ap(i)` on the CPU with this APIC ID. -/
def InitOp.exec (apic : BitVec 8) (i : Nat) (op : InitOp) (m : PercpuMem) : PercpuMem :=
  if op = .map then
    { m with apicToCpu :=
        Function.update m.apicToCpu (m.percpus i).apicId.toNat (BitVec.ofNat 32 i) }
  else { m with percpus := Function.update m.percpus i (op.record apic i (m.percpus i)) }

/-- Where a CPU is: before `ap_entry`, with its index, in `percpu_init_ap` after `k` statements, or
turned away by its check. The BSP is where an AP is after the last statement. -/
inductive ApPc
  | waiting
  | fetched (index : BitVec 32)
  | inCall (i k : Nat)
  | refused
  deriving DecidableEq, Repr

structure PercpuSys (C : Type) where
  mem : PercpuMem
  nextCpuIndex : BitVec 32
  pc : C → ApPc

variable {C : Type} [DecidableEq C]

/-- The next step of an AP. -/
def apStep (apicId : C → BitVec 8) (c : C) (s : PercpuSys C) : PercpuSys C :=
  match s.pc c with
  | .waiting =>
    { s with
      nextCpuIndex := s.nextCpuIndex + 1
      pc := Function.update s.pc c (.fetched s.nextCpuIndex) }
  | .fetched index =>
    if index ≥ s.mem.ncpu ∨ index = 0 then { s with pc := Function.update s.pc c .refused }
    else { s with pc := Function.update s.pc c (.inCall index.toNat 0) }
  | .inCall i k =>
    match percpuInitAp[k]? with
    | some op =>
      { s with
        mem := op.exec (apicId c) i s.mem
        pc := Function.update s.pc c (.inCall i (k + 1)) }
    | none => s
  | .refused => s

/-- `percpu_init_bsp` has run on the BSP and no AP has entered `ap_entry`. -/
def bringUp (apicId : C → BitVec 8) (bsp : C) (totalCpus : BitVec 32) (m : PercpuMem) :
    PercpuSys C where
  mem := percpuInitBsp (apicId bsp) totalCpus m
  nextCpuIndex := 1
  pc := Function.update (fun _ => .waiting) bsp (.inCall 0 12)

/-- The slot of an initialised CPU: one whose mapping is stored. -/
def ApPc.slot : ApPc → Option Nat
  | .inCall i k => if 8 < k then some i else none
  | _ => none

/-- **Lookup is exact**: every initialised CPU finds its own slot both ways, slots of different CPUs
are different, a slot's fields match its position, and no other APIC ID is found. -/
structure ExactLookup (apicId : C → BitVec 8) (s : PercpuSys C) : Prop where
  mine : ∀ c i, (s.pc c).slot = some i → mycpu (apicId c) s.mem = .slot i
  found : ∀ c i, (s.pc c).slot = some i → cpuByApicId (getApicId (apicId c)) s.mem = .slot i
  apart : ∀ c d i, (s.pc c).slot = some i → (s.pc d).slot = some i → c = d
  inside : ∀ c i, (s.pc c).slot = some i → i < s.mem.ncpu.toNat ∧ s.mem.ncpu ≤ maxCpus
  fields : ∀ c i, (s.pc c).slot = some i → (s.mem.percpus i).self = .slot i ∧
    (s.mem.percpus i).apicId = getApicId (apicId c) ∧ (s.mem.percpus i).cpuIndex.toNat = i
  absent : ∀ id, (∀ c, getApicId (apicId c) = id → (s.pc c).slot = none) →
    cpuByApicId id s.mem = .null

/-! ### One slot -/

/-- **What the first `k` statements leave in slot `i`** for the CPU with this APIC ID. -/
structure Filled (m : PercpuMem) (apic : BitVec 8) (i k : Nat) : Prop where
  self : 0 < k → (m.percpus i).self = .slot i
  apicId : 1 < k → (m.percpus i).apicId = getApicId apic
  cpuIndex : 2 < k → (m.percpus i).cpuIndex = BitVec.ofNat 32 i
  mapped : 8 < k → m.apicToCpu apic.toNat = BitVec.ofNat 32 i

theorem getApicId_toNat (apic : BitVec 8) : (getApicId apic).toNat = apic.toNat := by
  rw [getApicId, BitVec.toNat_setWidth, Nat.mod_eq_of_lt (by have := apic.isLt; omega)]

/-- Where the statements stand that a lookup depends on. -/
theorem percpuInitAp_position {k : Nat} {op : InitOp} (here : percpuInitAp[k]? = some op) :
    (op = .self ↔ k = 0) ∧ (op = .apicId ↔ k = 1) ∧ (op = .cpuIndex ↔ k = 2) ∧
      (op = .map ↔ k = 8) := by
  have inside : k < 12 := (List.getElem?_eq_some_iff.mp here).1
  interval_cases k <;> obtain rfl := Option.some.inj here <;> decide

section Statement

variable {apic : BitVec 8} {i : Nat} {op : InitOp}

/-- The fields that a lookup depends on, after a statement. -/
theorem InitOp.record_lookup (apic : BitVec 8) (i : Nat) (op : InitOp) (cpu : Percpu) :
    (op.record apic i cpu).self = (if op = .self then .slot i else cpu.self) ∧
    (op.record apic i cpu).apicId = (if op = .apicId then getApicId apic else cpu.apicId) ∧
    (op.record apic i cpu).cpuIndex =
      (if op = .cpuIndex then BitVec.ofNat 32 i else cpu.cpuIndex) := by
  cases op <;> exact ⟨rfl, rfl, rfl⟩

variable {m : PercpuMem}

theorem InitOp.exec_percpus : (op.exec apic i m).percpus i = op.record apic i (m.percpus i) := by
  by_cases map : op = .map
  · rw [exec, if_pos map, map, record]
  · rw [exec, if_neg map]
    exact Function.update_self ..

theorem InitOp.exec_percpus_ne {j : Nat} (ne : j ≠ i) :
    (op.exec apic i m).percpus j = m.percpus j := by
  by_cases map : op = .map
  · rw [exec, if_pos map]
  · rw [exec, if_neg map]
    exact Function.update_of_ne ne ..

theorem InitOp.exec_ncpu : (op.exec apic i m).ncpu = m.ncpu := by
  by_cases map : op = .map
  · rw [exec, if_pos map]
  · rw [exec, if_neg map]

theorem InitOp.exec_initialized :
    (op.exec apic i m).percpuFullyInitialized = m.percpuFullyInitialized := by
  by_cases map : op = .map
  · rw [exec, if_pos map]
  · rw [exec, if_neg map]

/-- Only the cell of this CPU's own ID is written, and only by the mapping statement. -/
theorem Filled.cell {k j : Nat} (filled : Filled m apic i k) (here : percpuInitAp[k]? = some op) :
    (op.exec apic i m).apicToCpu j =
      if op = .map ∧ j = apic.toNat then BitVec.ofNat 32 i else m.apicToCpu j := by
  by_cases map : op = .map
  · have eight : k = 8 := (percpuInitAp_position here).2.2.2.mp map
    have held : (m.percpus i).apicId.toNat = apic.toNat := by
      rw [filled.apicId (by omega), getApicId_toNat]
    rw [InitOp.exec, if_pos map, held]
    by_cases own : j = apic.toNat
    · rw [own, if_pos ⟨map, rfl⟩]
      exact Function.update_self ..
    · rw [if_neg fun both => own both.2]
      exact Function.update_of_ne own ..
  · rw [InitOp.exec, if_neg map, if_neg fun both => map both.1]

/-- The statement at position `k` carries on what the first `k` left. -/
theorem Filled.exec {k : Nat} (filled : Filled m apic i k) (here : percpuInitAp[k]? = some op) :
    Filled (op.exec apic i m) apic i (k + 1) := by
  obtain ⟨self, apicId, cpuIndex, map⟩ := percpuInitAp_position here
  have after := InitOp.record_lookup apic i op (m.percpus i)
  rw [← InitOp.exec_percpus] at after
  refine ⟨fun _ => ?_, fun late => ?_, fun late => ?_, fun late => ?_⟩
  · rw [after.1, ite_eq_left_iff]
    exact fun other => filled.self (Nat.pos_of_ne_zero (mt self.mpr other))
  · rw [after.2.1, ite_eq_left_iff]
    intro other
    have now := mt apicId.mpr other
    exact filled.apicId (by omega)
  · rw [after.2.2, ite_eq_left_iff]
    intro other
    have now := mt cpuIndex.mpr other
    exact filled.cpuIndex (by omega)
  · rw [filled.cell here, ite_eq_left_iff]
    intro other
    have now := mt map.mpr fun isMap => other ⟨isMap, rfl⟩
    exact filled.mapped (by omega)

/-- A statement of another CPU leaves a slot and its mapping alone. -/
theorem Filled.other {k j l : Nat} {other : BitVec 8} (filled : Filled m apic i k)
    (here : percpuInitAp[k]? = some op) (theirs : Filled m other j l) (slots : j ≠ i)
    (ids : other ≠ apic) : Filled (op.exec apic i m) other j l := by
  have ne : other.toNat ≠ apic.toNat := fun eq => ids (BitVec.eq_of_toNat_eq eq)
  refine ⟨?_, ?_, ?_, fun late => ?_⟩
  · rw [InitOp.exec_percpus_ne slots]
    exact theirs.self
  · rw [InitOp.exec_percpus_ne slots]
    exact theirs.apicId
  · rw [InitOp.exec_percpus_ne slots]
    exact theirs.cpuIndex
  · rw [filled.cell here, if_neg fun both => ne both.2, theirs.mapped late]

end Statement

/-! ### All CPUs -/

/-- The index a CPU holds. -/
def ApPc.index : ApPc → Option Nat
  | .fetched index => some index.toNat
  | .inCall i _ => some i
  | _ => none

/-- What holds of one CPU: its index was handed out, and its slot exists and is filled. -/
structure CpuPart (m : PercpuMem) (next : Nat) (apic : BitVec 8) (pc : ApPc) : Prop where
  below : ∀ i, pc.index = some i → i < next
  inside : ∀ i k, pc = .inCall i k → i < m.ncpu.toNat
  filled : ∀ i k, pc = .inCall i k → Filled m apic i k

/-- **The invariant of bring-up.** The APs in `taken` are those that took an index. -/
structure LookupInv (apicId : C → BitVec 8) (s : PercpuSys C) (taken : List C) : Prop where
  initialized : s.mem.percpuFullyInitialized = true
  few : s.mem.ncpu ≤ maxCpus
  nodup : taken.Nodup
  moved : ∀ c, s.pc c = .waiting → c ∉ taken
  next : s.nextCpuIndex.toNat = taken.length + 1
  cpu : ∀ c, CpuPart s.mem s.nextCpuIndex.toNat (apicId c) (s.pc c)
  apart : ∀ c d i, (s.pc c).index = some i → (s.pc d).index = some i → c = d
  mapped : ∀ id < 256, s.mem.apicToCpu id = -1#32 ∨
    ∃ c, (apicId c).toNat = id ∧ (s.pc c).slot.isSome

section Run

variable {apicId : C → BitVec 8} {s s' : PercpuSys C} {taken : List C} {bsp c : C}

theorem ApPc.slot_inCall {pc : ApPc} {i : Nat} (here : pc.slot = some i) :
    ∃ k, pc = .inCall i k ∧ 8 < k := by
  cases pc with
  | inCall j k =>
    by_cases late : 8 < k
    · rw [slot, if_pos late] at here
      exact ⟨k, by rw [Option.some.inj here], late⟩
    · rw [slot, if_neg late] at here
      cases here
  | waiting | fetched _ | refused => cases here

omit [DecidableEq C] in
/-- Distinct APIC IDs leave no room for the index counter to wrap. -/
theorem taken_le (distinct : Function.Injective apicId) (nodup : taken.Nodup) :
    taken.length ≤ 256 := by
  let place (c : C) : Fin 256 := ⟨(apicId c).toNat, (apicId c).isLt⟩
  have injective : Function.Injective place := fun c d same =>
    distinct (BitVec.eq_of_toNat_eq (Fin.mk.inj same))
  have card := (nodup.map injective).length_le_card
  rwa [List.length_map, Fintype.card_fin] at card

/-- After `percpu_init_bsp` the BSP is in slot 0 and nobody else is mapped. -/
theorem bringUp_inv {totalCpus : BitVec 32} (present : 1 ≤ totalCpus.toNat) (m : PercpuMem) :
    LookupInv apicId (bringUp apicId bsp totalCpus m) [] := by
  have ncpu : 0 < (bringUp apicId bsp totalCpus m).mem.ncpu.toNat ∧
      (bringUp apicId bsp totalCpus m).mem.ncpu ≤ maxCpus := by
    dsimp only [bringUp, percpuInitBsp]
    split
    · exact ⟨by decide, BitVec.le_refl _⟩
    · next le => exact ⟨present, BitVec.not_lt.mp le⟩
  have mapped : (bringUp apicId bsp totalCpus m).mem.apicToCpu (apicId bsp).toNat = 0#32 := by
    dsimp only [bringUp, percpuInitBsp]
    rw [getApicId_toNat, Function.update_self]
    rfl
  refine ⟨rfl, ncpu.2, .nil, nofun, rfl, ?_, fun c d i here there => ?_, fun id small => ?_⟩
  · refine (Function.forall_update_iff _ fun c pc => CpuPart _ _ (apicId c) pc).mpr
      ⟨⟨fun i here => ?_, fun i k here => ?_, fun i k here => ?_⟩, fun c _ => ⟨nofun, nofun, nofun⟩⟩
    · obtain rfl := Option.some.inj here
      exact Nat.zero_lt_one
    · obtain ⟨rfl, -⟩ := ApPc.inCall.inj here
      exact ncpu.1
    · obtain ⟨rfl, -⟩ := ApPc.inCall.inj here
      exact ⟨fun _ => rfl, fun _ => rfl, fun _ => rfl, fun _ => mapped⟩
  · have only : ∀ c, ((bringUp apicId bsp totalCpus m).pc c).index = some i → c = bsp := by
      intro c here
      by_contra other
      dsimp only [bringUp] at here
      rw [Function.update_of_ne other] at here
      cases here
    rw [only c here, only d there]
  · by_cases own : id = (apicId bsp).toNat
    · refine .inr ⟨bsp, own.symm, ?_⟩
      dsimp only [bringUp]
      rw [Function.update_self]
      rfl
    · refine .inl ?_
      dsimp only [bringUp, percpuInitBsp]
      rw [getApicId_toNat, Function.update_of_ne own, if_pos small]

/-- **One CPU moves.** It takes nobody's index and stores nobody's mapping, and what the others
have holds in the new memory too. -/
theorem LookupInv.move (inv : LookupInv apicId s taken) {m : PercpuMem} {next : BitVec 32}
    {pc : ApPc} {taken' : List C} (initialized : m.percpuFullyInitialized = true)
    (ncpu : m.ncpu = s.mem.ncpu) (nodup : taken'.Nodup) (count : next.toNat = taken'.length + 1)
    (member : ∀ d ∈ taken', d = c ∨ d ∈ taken) (moved : pc ≠ .waiting)
    (own : CpuPart m next.toNat (apicId c) pc)
    (others : ∀ d, d ≠ c → CpuPart m next.toNat (apicId d) (s.pc d))
    (index : ∀ i, pc.index = some i → ∀ d, (s.pc d).index = some i → d = c)
    (slot : (s.pc c).slot.isSome → pc.slot.isSome)
    (mapped : ∀ id, m.apicToCpu id = s.mem.apicToCpu id ∨
      id = (apicId c).toNat ∧ pc.slot.isSome) :
    LookupInv apicId ⟨m, next, Function.update s.pc c pc⟩ taken' := by
  refine ⟨initialized, ncpu ▸ inv.few, nodup, ?_, count, ?_, ?_, fun id small => ?_⟩
  · refine (Function.forall_update_iff _ fun d pc => pc = ApPc.waiting → d ∉ taken').mpr
      ⟨fun waiting => absurd waiting moved, fun d other waiting taken => ?_⟩
    exact inv.moved d waiting ((member d taken).resolve_left other)
  · exact (Function.forall_update_iff _ fun d pc => CpuPart m next.toNat (apicId d) pc).mpr
      ⟨own, others⟩
  · intro d e i here there
    exact update_unique (P := fun pc : ApPc => pc.index = some i) (fun d e => inv.apart d e i) (index i)
      here there
  · have at_c : pc.slot.isSome → ∀ d, d = c →
        (Function.update s.pc c pc d).slot.isSome := fun isSome d eq => by
      rw [eq, Function.update_self]
      exact isSome
    obtain same | ⟨eq, isSome⟩ := mapped id
    · obtain old | ⟨d, holds, isSome⟩ := inv.mapped id small
      · exact .inl (same.trans old)
      · refine .inr ⟨d, holds, ?_⟩
        by_cases isC : d = c
        · exact at_c (slot (isC ▸ isSome)) d isC
        · dsimp only
          rwa [Function.update_of_ne isC]
    · exact .inr ⟨c, eq.symm, at_c isSome c rfl⟩

/-- Taking an index. -/
theorem LookupInv.fetch (distinct : Function.Injective apicId) (inv : LookupInv apicId s taken)
    (here : s.pc c = .waiting) :
    LookupInv apicId ⟨s.mem, s.nextCpuIndex + 1, Function.update s.pc c (.fetched s.nextCpuIndex)⟩
      (c :: taken) := by
  have next : (s.nextCpuIndex + 1).toNat = s.nextCpuIndex.toNat + 1 := by
    have := taken_le distinct inv.nodup
    have := inv.next
    rw [BitVec.toNat_add, show (1 : BitVec 32).toNat = 1 from rfl, Nat.mod_eq_of_lt (by omega)]
  refine inv.move inv.initialized rfl (List.nodup_cons.mpr ⟨inv.moved c here, inv.nodup⟩) ?_
    (fun d member => List.mem_cons.mp member) nofun ⟨fun i holds => ?_, nofun, nofun⟩
    (fun d _ => ?_) (fun i holds d there => ?_) ?_ fun _ => .inl rfl
  · rw [next, inv.next, List.length_cons]
  · obtain rfl := Option.some.inj holds
    omega
  · obtain ⟨below, inside, filled⟩ := inv.cpu d
    exact ⟨fun i holds => (below i holds).trans (by omega), inside, filled⟩
  · obtain rfl := Option.some.inj holds
    exact absurd ((inv.cpu d).below _ there) (Nat.lt_irrefl _)
  · rw [here]
    nofun

/-- Moving on with the index at hand, before the first statement of `percpu_init_ap`. -/
theorem LookupInv.enter (inv : LookupInv apicId s taken) {index : BitVec 32} {pc : ApPc}
    (here : s.pc c = .fetched index) (moved : pc ≠ .waiting)
    (keeps : ∀ i, pc.index = some i → i = index.toNat)
    (call : ∀ i k, pc = .inCall i k → i < s.mem.ncpu.toNat ∧ k = 0) :
    LookupInv apicId ⟨s.mem, s.nextCpuIndex, Function.update s.pc c pc⟩ taken := by
  have same : ∀ i, pc.index = some i → (s.pc c).index = some i := fun i holds => by
    rw [here, keeps i holds, ApPc.index]
  refine inv.move inv.initialized rfl inv.nodup inv.next (fun d member => .inr member) moved
    ⟨fun i holds => (inv.cpu c).below i (same i holds), fun i k eq => (call i k eq).1,
      fun i k eq => ?_⟩
    (fun d _ => inv.cpu d) (fun i holds d there => inv.apart d c i there (same i holds)) ?_
    fun _ => .inl rfl
  · obtain rfl := (call i k eq).2
    exact ⟨nofun, nofun, nofun, nofun⟩
  · rw [here]
    nofun

/-- One statement of `percpu_init_ap`. -/
theorem LookupInv.exec (distinct : Function.Injective apicId) (inv : LookupInv apicId s taken)
    {i k : Nat} {op : InitOp} (here : s.pc c = .inCall i k)
    (statement : percpuInitAp[k]? = some op) :
    LookupInv apicId ⟨op.exec (apicId c) i s.mem, s.nextCpuIndex,
      Function.update s.pc c (.inCall i (k + 1))⟩ taken := by
  have index : (s.pc c).index = some i := by rw [here, ApPc.index]
  have filled := (inv.cpu c).filled i k here
  refine inv.move (InitOp.exec_initialized.trans inv.initialized) InitOp.exec_ncpu inv.nodup
    inv.next (fun d member => .inr member) nofun ⟨fun j holds => ?_, fun j l eq => ?_,
      fun j l eq => ?_⟩ (fun d other => ?_) (fun j holds d there => ?_) (fun isSome => ?_)
    fun id => ?_
  · exact (inv.cpu c).below j (index.trans holds)
  · obtain ⟨rfl, -⟩ := ApPc.inCall.inj eq
    rw [InitOp.exec_ncpu]
    exact (inv.cpu c).inside i k here
  · obtain ⟨rfl, rfl⟩ := ApPc.inCall.inj eq
    exact filled.exec statement
  · refine ⟨(inv.cpu d).below, fun j l eq => ?_, fun j l eq => ?_⟩
    · rw [InitOp.exec_ncpu]
      exact (inv.cpu d).inside j l eq
    · refine filled.other statement ((inv.cpu d).filled j l eq) (fun same => other ?_)
        fun same => other (distinct same)
      exact inv.apart d c i (by rw [eq, ApPc.index, same]) index
  · obtain rfl := Option.some.inj holds
    exact inv.apart d c i there index
  · by_cases late : 8 < k
    · rw [ApPc.slot, if_pos (by omega)]
      rfl
    · rw [here, ApPc.slot, if_neg late] at isSome
      cases isSome
  · rw [filled.cell statement]
    by_cases map : op = .map ∧ id = (apicId c).toNat
    · have eight : k = 8 := (percpuInitAp_position statement).2.2.2.mp map.1
      exact .inr ⟨map.2, by rw [ApPc.slot, if_pos (by omega)]; rfl⟩
    · exact .inl (if_neg map)

theorem LookupInv.step (distinct : Function.Injective apicId) (inv : LookupInv apicId s taken)
    (c : C) : ∃ taken', LookupInv apicId (apStep apicId c s) taken' := by
  cases here : s.pc c with
  | waiting =>
    refine ⟨c :: taken, ?_⟩
    rw [apStep, here]
    exact inv.fetch distinct here
  | fetched index =>
    refine ⟨taken, ?_⟩
    rw [apStep, here]
    dsimp only
    split
    · exact inv.enter here nofun nofun nofun
    · next valid =>
      have below := BitVec.lt_def.mp (BitVec.not_le.mp (not_or.mp valid).1)
      refine inv.enter here nofun (fun i holds => (Option.some.inj holds).symm) fun i k eq => ?_
      obtain ⟨rfl, rfl⟩ := ApPc.inCall.inj eq
      exact ⟨below, rfl⟩
  | inCall i k =>
    refine ⟨taken, ?_⟩
    rw [apStep, here]
    dsimp only
    split
    · next op statement => exact inv.exec distinct here statement
    · exact inv
  | refused =>
    refine ⟨taken, ?_⟩
    rw [apStep, here]
    exact inv

omit [DecidableEq C] in
/-- A mapped cell passes the range check of both lookups. -/
theorem LookupInv.cell (inv : LookupInv apicId s taken) {i : Nat} {idx : BitVec 32}
    (inside : i < s.mem.ncpu.toNat) (eq : idx = BitVec.ofNat 32 i) :
    ¬ (idx.toInt < 0 ∨ idx.toInt ≥ s.mem.ncpu.toInt) ∧ idx.toNat = i := by
  have few : s.mem.ncpu.toNat ≤ 64 := BitVec.le_def.mp inv.few
  have value : idx.toNat = i := by
    rw [eq, BitVec.toNat_ofNat, Nat.mod_eq_of_lt (by omega)]
  rw [BitVec.toInt_eq_toNat_of_lt (by omega), BitVec.toInt_eq_toNat_of_lt (by omega)]
  exact ⟨by omega, value⟩

omit [DecidableEq C] in
theorem LookupInv.exact (inv : LookupInv apicId s taken) : ExactLookup apicId s := by
  have entry : ∀ c i, (s.pc c).slot = some i → i < s.mem.ncpu.toNat ∧
      ∃ k, 8 < k ∧ Filled s.mem (apicId c) i k := by
    intro c i here
    obtain ⟨k, call, late⟩ := ApPc.slot_inCall here
    exact ⟨(inv.cpu c).inside i k call, k, late, (inv.cpu c).filled i k call⟩
  have small (c : C) : ¬ getApicId (apicId c) > 255 := by
    have := (apicId c).isLt
    rw [gt_iff_lt, BitVec.lt_def, getApicId_toNat, show (255 : BitVec 32).toNat = 255 from rfl]
    omega
  refine ⟨fun c i here => ?_, fun c i here => ?_, fun c d i here there => ?_, fun c i here => ?_,
    fun c i here => ?_, fun id nobody => ?_⟩
  · obtain ⟨inside, k, late, filled⟩ := entry c i here
    obtain ⟨valid, value⟩ := inv.cell inside (filled.mapped late)
    simp only [mycpu, inv.initialized, if_true, getApicId_toNat]
    rw [if_neg valid, value]
  · obtain ⟨inside, k, late, filled⟩ := entry c i here
    obtain ⟨valid, value⟩ := inv.cell inside (filled.mapped late)
    simp only [cpuByApicId, getApicId_toNat]
    rw [if_neg (small c), if_neg valid, value]
  · obtain ⟨k, call, -⟩ := ApPc.slot_inCall here
    obtain ⟨l, call', -⟩ := ApPc.slot_inCall there
    exact inv.apart c d i (by rw [call, ApPc.index]) (by rw [call', ApPc.index])
  · exact ⟨(entry c i here).1, inv.few⟩
  · obtain ⟨inside, k, late, filled⟩ := entry c i here
    have few : s.mem.ncpu.toNat ≤ 64 := BitVec.le_def.mp inv.few
    refine ⟨filled.self (by omega), filled.apicId (by omega), ?_⟩
    rw [filled.cpuIndex (by omega), BitVec.toNat_ofNat, Nat.mod_eq_of_lt (by omega)]
  · by_cases big : id > 255
    · rw [cpuByApicId, if_pos big]
    · have bound : id.toNat < 256 := by
        have := BitVec.le_def.mp (BitVec.not_lt.mp big)
        rw [show (255 : BitVec 32).toNat = 255 from rfl] at this
        omega
      obtain clear | ⟨c, eq, isSome⟩ := inv.mapped id.toNat bound
      · rw [cpuByApicId, if_neg big]
        dsimp only
        rw [clear, if_pos (.inl (by decide))]
      · rw [nobody c (BitVec.eq_of_toNat_eq ((getApicId_toNat _).trans eq))] at isSome
        cases isSome

/-- **Per-CPU lookup is exact.** After `percpu_init_bsp(n)` with `n ≥ 1`, in every state of every
interleaving of the APs' steps. -/
theorem lookup_of_run (distinct : Function.Injective apicId) {totalCpus : BitVec 32}
    (present : 1 ≤ totalCpus.toNat) (m : PercpuMem) {moves : List C}
    (run : Run (fun s c s' => apStep apicId c s = s') (bringUp apicId bsp totalCpus m) moves s) :
    ExactLookup apicId s := by
  have keep : ∀ s c s', (∃ taken, LookupInv apicId s taken) → apStep apicId c s = s' →
      ∃ taken, LookupInv apicId s' taken := by
    intro s c s' ⟨taken, inv⟩ done
    exact done ▸ inv.step distinct c
  obtain ⟨taken, inv⟩ := run.keeps _ keep ⟨[], bringUp_inv present m⟩
  exact inv.exact

/-- The states of a bring-up are those its moves lead to. -/
theorem apMoves_run (moves : List C) : ∀ s : PercpuSys C,
    Run (fun s c s' => apStep apicId c s = s') s moves
      (moves.foldl (fun s c => apStep apicId c s) s) := by
  induction moves with
  | nil => exact .nil
  | cons c moves ih => exact fun s => .cons rfl (ih _)

end Run

/-- Two CPUs, the BSP with APIC ID 0 and an AP with APIC ID 5. -/
def demoApicId (ap : Bool) : BitVec 8 := if ap then 5 else 0

/-- Memory before `percpu_init_bsp`. -/
def demoPercpuMem : PercpuMem where
  percpus _ := ⟨.null, 0, 0, false, false, 0, 0, 0, 0⟩
  ncpu := 0
  apicToCpu _ := 0
  percpuFullyInitialized := false

/-- Once the AP has stored its mapping it finds slot 1. -/
theorem lookup_of_run_mapped :
    mycpu 5 ((List.replicate 11 true).foldl (fun s c => apStep demoApicId c s)
      (bringUp demoApicId false 2 demoPercpuMem)).mem = .slot 1 :=
  (lookup_of_run (by decide) (by decide) demoPercpuMem (apMoves_run _ _)).mine true 1 (by decide)

end ShipOS

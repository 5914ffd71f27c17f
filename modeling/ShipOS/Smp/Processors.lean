/-
**Which processors are started.**

The MADT names a processor by an 8-bit APIC ID or, in an x2APIC entry, by a 32-bit one.
`parse_madt_entries` records both in the `uint8_t` of `struct CPUInfo`, and `start_all_aps` compares
and passes on that byte.

* `parsed_cpus` — the processors recorded for a table, their IDs cut to a byte;
* `apStacks_ids` — the loop starts the recorded processors that are enabled and not the BSP;
* `startsEachOnce_iff` — every enabled processor but the BSP is started once, and nothing else,
  exactly when their IDs are below 256;
* `x2apic_taken_for_bsp` — a processor with the ID `0x100` is taken for the BSP with the ID 0.
-/

import Mathlib.Data.List.Nodup
import ShipOS.Smp.Stacks

namespace ShipOS

open ByteMem Records

/-! ### The processors of a table -/

variable (t : Table)

/-- **The processors recorded** for a table of whole entries with at most `MAX_CPUS` of them. -/
theorem parsed_cpus {os : List Nat} (chain : Chain t.entryLength t.length 2 madtSize os)
    (few : (t.cpusOf os).length ≤ madtMaxCpus) :
    (∃ info, Returns (parseMadtEntries t) (os, info)) ∧
      ∀ visited info, Returns (parseMadtEntries t) (visited, info) →
        info.cpus.map CpuInfo.seen = (t.cpusOf os).map t.recorded := by
  have parsed : parseMadtEntries t (os.length + 1) = some (through _ _ os _) :=
    scan_chain (fun o => (sane_iff t o).mpr) chain _ _ (Nat.lt_succ_self os.length)
  rw [through_all] at parsed
  refine ⟨⟨_, _, parsed⟩, fun visited info ⟨fuel, done⟩ => ?_⟩
  cases scan_unique done parsed
  rw [foldl_parseEntry_seen, List.map_nil, List.nil_append, List.take_of_length_le]
  rwa [List.length_map]

/-! ### The calls of `start_ap` -/

/-- Every `kalloc` of the loop finds a page. -/
def StacksAllocated (bspApicId : Byte) : List CpuInfo → Phys → Prop
  | [], _ => True
  | cpu :: cpus, s =>
    if ¬ cpu.enabled then StacksAllocated bspApicId cpus s
    else if cpu.apicId = bspApicId then StacksAllocated bspApicId cpus s
    else (kalloc s).1 ≠ 0 ∧
      StacksAllocated bspApicId cpus
        { (kalloc s).2 with mem := memset (kalloc s).2.mem (kalloc s).1 0 apStackSize }

/-- The recorded IDs of the enabled processors that are not taken for the BSP. -/
def startedIds (bspApicId : Byte) (seen : List (Byte × Bool)) : List Byte :=
  (seen.filter fun cpu => cpu.2 ∧ cpu.1 ≠ bspApicId).map Prod.fst

/-- **The loop of `start_all_aps`** calls `start_ap` for those, in order. -/
theorem apStacks_ids (bspApicId : Byte) : ∀ (cpus : List CpuInfo) (s : Phys),
    StacksAllocated bspApicId cpus s →
      (apStacks bspApicId cpus s).1.map Prod.fst = startedIds bspApicId (cpus.map CpuInfo.seen) := by
  intro cpus
  induction cpus with
  | nil => exact fun _ _ => rfl
  | cons cpu cpus ih =>
    intro s allocated
    rw [StacksAllocated] at allocated
    rw [apStacks, List.map_cons, startedIds]
    by_cases off : ¬ cpu.enabled = true
    · rw [if_pos off] at allocated
      rw [if_pos off, List.filter_cons_of_neg (by simp [CpuInfo.seen, off])]
      exact ih s allocated
    · rw [if_neg off] at allocated
      by_cases bsp : cpu.apicId = bspApicId
      · rw [if_pos bsp] at allocated
        rw [if_neg off, if_pos bsp, List.filter_cons_of_neg (by simp [CpuInfo.seen, bsp])]
        exact ih s allocated
      · rw [if_neg bsp] at allocated
        rw [if_neg off, if_neg bsp, List.filter_cons_of_pos
          (by simpa [CpuInfo.seen, bsp] using off)]
        dsimp only
        rw [if_neg allocated.1, List.map_cons, List.map_cons]
        exact congrArg (cpu.apicId :: ·) (ih _ allocated.2)

/-! ### Every processor once -/

/-- **Every enabled processor but the BSP is started exactly once**, by its own ID, and the BSP and
the disabled processors never are. -/
structure StartsEachOnce (os : List Nat) (bspApicId : Byte) (calls : List (Byte × Word)) : Prop where
  once : ∀ o ∈ t.cpusOf os, t.cpuEnabled o = true → t.apicId o ≠ bspApicId.setWidth 32 →
    (calls.map fun call => call.1.setWidth 32).count (t.apicId o) = 1
  never : ∀ o ∈ t.cpusOf os, ¬ (t.cpuEnabled o = true ∧ t.apicId o ≠ bspApicId.setWidth 32) →
    (calls.map fun call => call.1.setWidth 32).count (t.apicId o) = 0

/-- The processors that are to be started fit the record. -/
def IdsFit (os : List Nat) (bspApicId : Byte) : Prop :=
  ∀ o ∈ t.cpusOf os, t.cpuEnabled o = true → t.apicId o ≠ bspApicId.setWidth 32 →
    (t.apicId o).toNat < 256

/-- A processor to be started. -/
def Table.toStart (bspApicId : Byte) (o : Nat) : Bool :=
  t.cpuEnabled o = true ∧ t.apicId o ≠ bspApicId.setWidth 32

theorem setWidth_byte {id : BitVec 32} (small : id.toNat < 256) : (id.setWidth 8).setWidth 32 = id := by
  apply BitVec.eq_of_toNat_eq
  rw [BitVec.toNat_setWidth, BitVec.toNat_setWidth]
  omega

/-- The IDs started are those of the processors to be started, if these fit a byte. -/
theorem startedIds_eq {os : List Nat} {bspApicId : Byte} (fit : IdsFit t os bspApicId) :
    (startedIds bspApicId ((t.cpusOf os).map t.recorded)).map (fun id => id.setWidth 32) =
      ((t.cpusOf os).filter (t.toStart bspApicId)).map t.apicId := by
  have same : ∀ o ∈ t.cpusOf os,
      decide ((t.recorded o).2 = true ∧ (t.recorded o).1 ≠ bspApicId) = t.toStart bspApicId o := by
    intro o member
    refine decide_eq_decide.mpr
      (and_congr_right fun enabled => not_congr ⟨fun byte => ?_, fun id => ?_⟩)
    · by_contra different
      rw [← setWidth_byte (fit o member enabled different)] at different
      exact different (congrArg (BitVec.setWidth 32) byte)
    · change (t.apicId o).setWidth 8 = bspApicId
      rw [id, BitVec.setWidth_setWidth_of_le _ (by omega), BitVec.setWidth_eq]
  rw [startedIds, List.filter_map, List.map_map, List.map_map]
  change List.map _ (List.filter
    (fun o => decide ((t.recorded o).2 = true ∧ (t.recorded o).1 ≠ bspApicId)) _) = _
  rw [List.filter_congr same]
  refine List.map_congr_left fun o member => ?_
  obtain ⟨inside, start⟩ := List.mem_filter.mp member
  obtain ⟨enabled, different⟩ := of_decide_eq_true start
  exact setWidth_byte (fit o inside enabled different)

/-- **When every processor is started exactly once.** For a table of whole entries with at most
`MAX_CPUS` processors, all different: exactly when the enabled ones but the BSP have IDs below 256. -/
theorem startsEachOnce_iff {os : List Nat} (chain : Chain t.entryLength t.length 2 madtSize os)
    (few : (t.cpusOf os).length ≤ madtMaxCpus) (distinct : ((t.cpusOf os).map t.apicId).Nodup) :
    (∃ info, Returns (parseMadtEntries t) (os, info)) ∧
      ∀ visited info, Returns (parseMadtEntries t) (visited, info) →
        ∀ bspApicId s, StacksAllocated bspApicId info.cpus s →
          (StartsEachOnce t os bspApicId (apStacks bspApicId info.cpus s).1 ↔
            IdsFit t os bspApicId) := by
  obtain ⟨returns, parsed⟩ := parsed_cpus t chain few
  refine ⟨returns, fun visited info done bspApicId s allocated => ?_⟩
  have seen := parsed visited info done
  have ids : ((apStacks bspApicId info.cpus s).1.map fun call => call.1.setWidth 32) =
      (startedIds bspApicId ((t.cpusOf os).map t.recorded)).map fun id => id.setWidth 32 := by
    rw [← seen, ← apStacks_ids bspApicId info.cpus s allocated, List.map_map]
    rfl
  constructor
  · intro each o member enabled different
    have once := each.once o member enabled different
    have called : t.apicId o ∈ (apStacks bspApicId info.cpus s).1.map fun call => call.1.setWidth 32 :=
      List.count_pos_iff.mp (by omega)
    obtain ⟨call, -, id⟩ := List.mem_map.mp called
    have byte := call.1.isLt
    rw [← id, BitVec.toNat_setWidth]
    omega
  · intro fit
    rw [startedIds_eq t fit] at ids
    constructor
    · intro o member enabled different
      rw [ids]
      refine List.count_eq_one_of_mem ((List.filter_sublist.map _).nodup distinct) ?_
      exact List.mem_map_of_mem (List.mem_filter.mpr ⟨member, decide_eq_true ⟨enabled, different⟩⟩)
    · intro o member skipped
      rw [ids, List.count_eq_zero]
      intro called
      obtain ⟨o', member', id⟩ := List.mem_map.mp called
      obtain ⟨inside, start⟩ := List.mem_filter.mp member'
      cases List.inj_on_of_nodup_map distinct inside member id
      exact skipped (of_decide_eq_true start)

/-- A BSP with the ID 0 and another processor: a Local APIC entry with the ID 1, or an x2APIC entry
with the ID `0x100`. -/
def cpuTable (x2apic : Bool) (o : Nat) : Byte :=
  if o = 4 then if x2apic then 68 else 60
  else if o = 45 then 8 else if o = 48 then 1
  else if o = 52 then if x2apic then 9 else 0
  else if o = 53 then if x2apic then 16 else 8
  else if o = 54 then if x2apic then 0 else 1
  else if o = 55 then if x2apic then 0 else 1
  else if o = 56 then if x2apic then 0 else 1
  else if o = 57 then if x2apic then 1 else 0
  else if o = 60 then if x2apic then 1 else 0
  else 0

theorem cpuTable_chain (x2apic : Bool) :
    Chain (Table.entryLength (cpuTable x2apic)) (Table.length (cpuTable x2apic)) 2 madtSize
      [44, 52] := by
  cases x2apic with
  | false =>
    exact .step (by decide) ⟨by decide, by decide⟩
      (.step (by decide) ⟨by decide, by decide⟩ (.done (by decide)))
  | true =>
    exact .step (by decide) ⟨by decide, by decide⟩
      (.step (by decide) ⟨by decide, by decide⟩ (.done (by decide)))

/-- One AP with an 8-bit ID. -/
theorem startsEachOnce_lapic :
    Returns (parseMadtEntries (cpuTable false)) ([44, 52], ⟨0, demoCpus, []⟩) ∧
      StartsEachOnce (cpuTable false) [44, 52] 0 (apStacks 0 demoCpus demoPhys).1 := by
  have parsed : Returns (parseMadtEntries (cpuTable false)) ([44, 52], ⟨0, demoCpus, []⟩) :=
    ⟨3, by decide +kernel⟩
  have allocated : StacksAllocated 0 demoCpus demoPhys := ⟨by decide +kernel, trivial⟩
  refine ⟨parsed, ((startsEachOnce_iff (cpuTable false) (cpuTable_chain false) (by decide)
    (by decide)).2 _ _ parsed 0 demoPhys allocated).mpr ?_⟩
  unfold IdsFit
  decide +kernel

/-- **A processor taken for the BSP.** The x2APIC ID `0x100` becomes 0, the ID of the BSP, and nobody
is started. -/
theorem x2apic_taken_for_bsp :
    ((Table.cpusOf (cpuTable true) [44, 52]).map (Table.apicId (cpuTable true))) = [0, 0x100] ∧
      Table.cpuEnabled (cpuTable true) 52 = true ∧
      ∃ info, Returns (parseMadtEntries (cpuTable true)) ([44, 52], info) ∧
        StacksAllocated 0 info.cpus demoPhys ∧ (apStacks 0 info.cpus demoPhys).1 = [] := by
  refine ⟨by decide +kernel, by decide +kernel,
    ⟨0, [⟨0, 0, 1, true, true⟩, ⟨0, 0, 1, false, true⟩], []⟩, ⟨3, by decide +kernel⟩, trivial, rfl⟩

end ShipOS

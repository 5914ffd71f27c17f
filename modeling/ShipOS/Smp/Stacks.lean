/-
**The stacks that `start_all_aps` hands out.**

For every enabled processor that is not the BSP the loop takes one page from `kalloc`, clears
`AP_STACK_SIZE` bytes from its start and passes the end of that range as the initial stack pointer.
A page has 4096 bytes and `AP_STACK_SIZE` is `0x4000`.

* `apStacks_nil_iff` — when no processor gets a stack;
* `ownedOnly_iff` — the loop stays inside the pages it was given exactly then.
-/

import ShipOS.Apic.Madt
import ShipOS.Memory.Kalloc

namespace ShipOS

open ByteMem

def apStackSize : Nat := 0x4000

/-- The loop of `start_all_aps`, as far as memory goes: the calls of `start_ap` with the APIC ID and
the stack. -/
def apStacks (bspApicId : Byte) : List CpuInfo → Phys → List (Byte × Word) × Phys
  | [], s => ([], s)
  | cpu :: cpus, s =>
    if ¬ cpu.enabled then apStacks bspApicId cpus s
    else if cpu.apicId = bspApicId then apStacks bspApicId cpus s
    else
      let (stack, s) := kalloc s
      if stack = 0 then apStacks bspApicId cpus s
      else
        let s := { s with mem := memset s.mem stack 0 apStackSize }
        let (calls, s) := apStacks bspApicId cpus s
        ((cpu.apicId, stack) :: calls, s)

/-- A processor that the loop does not skip. -/
def Eligible (bspApicId : Byte) (cpu : CpuInfo) : Prop := cpu.enabled ∧ cpu.apicId ≠ bspApicId

/-- **Only owned memory is touched**: bytes outside the pages that `kalloc` returned are as before,
the rest of the free list is intact, and every range from a stack up to its initial stack pointer
lies in the page allocated for that AP. -/
structure OwnedOnly (L : Layout) (s : Phys) (free : List Word) (calls : List (Byte × Word))
    (s' : Phys) : Prop where
  frame : ∀ x, (∀ call ∈ calls, ¬ (x - call.2).toNat < 4096) → s'.mem x = s.mem x
  list : FreeList L s' (free.drop calls.length)
  inside : ∀ call ∈ calls, ∀ x, (x - call.2).toNat < apStackSize → (x - call.2).toNat < 4096

variable {L : Layout} {s : Phys} {free : List Word}

/-- **No AP gets a stack** exactly when there is no page or nobody to give it to; memory is then
left alone. -/
theorem apStacks_nil_iff (list : FreeList L s free) (bspApicId : Byte) : ∀ cpus : List CpuInfo,
    ((apStacks bspApicId cpus s).1 = [] ↔
      free = [] ∨ ∀ cpu ∈ cpus, ¬ Eligible bspApicId cpu) ∧
    ((apStacks bspApicId cpus s).1 = [] → (apStacks bspApicId cpus s).2 = s)
  | [] => ⟨iff_of_true rfl (.inr nofun), fun _ => rfl⟩
  | cpu :: cpus => by
    have ih := apStacks_nil_iff list bspApicId cpus
    by_cases eligible : Eligible bspApicId cpu
    · rw [apStacks, if_neg (not_not_intro eligible.1), if_neg eligible.2]
      cases free with
      | nil =>
        rw [kalloc_nil list]
        exact ⟨iff_of_true (ih.1.mpr (.inl rfl)) (.inl rfl), ih.2⟩
      | cons p free =>
        obtain ⟨s₁, take, -⟩ := kalloc_cons list
        rw [take]
        dsimp only
        rw [if_neg (list.page p List.mem_cons_self).ne_zero]
        refine ⟨iff_of_false (List.cons_ne_nil _ _) ?_,
          fun noStacks => absurd noStacks (List.cons_ne_nil _ _)⟩
        intro idle
        exact idle.elim (List.cons_ne_nil _ _) fun nobody => nobody cpu List.mem_cons_self eligible
    · have skipped : apStacks bspApicId (cpu :: cpus) s = apStacks bspApicId cpus s := by
        rw [apStacks]
        by_cases off : cpu.enabled
        · have isBsp : cpu.apicId = bspApicId := by
            by_contra other
            exact eligible ⟨off, other⟩
          rw [if_neg (not_not_intro off), if_pos isBsp]
        · rw [if_pos off]
      rw [skipped, ih.1, List.forall_mem_cons]
      exact ⟨⟨fun idle => idle.imp_right fun nobody => ⟨eligible, nobody⟩,
        fun idle => idle.imp_right And.right⟩, fun noStacks => ih.2 (ih.1.mpr noStacks)⟩

/-- **Bringing up the APs touches only owned memory exactly when no AP gets a stack**, that is when
no page is free or no processor but the BSP is enabled. -/
theorem ownedOnly_iff (list : FreeList L s free) (bspApicId : Byte) (cpus : List CpuInfo) :
    OwnedOnly L s free (apStacks bspApicId cpus s).1 (apStacks bspApicId cpus s).2 ↔
      free = [] ∨ ∀ cpu ∈ cpus, ¬ Eligible bspApicId cpu := by
  obtain ⟨nil_iff, unchanged⟩ := apStacks_nil_iff list bspApicId cpus
  rw [← nil_iff]
  constructor
  · intro owned
    -- The byte after the page is in the range of a stack but not in its page.
    refine List.eq_nil_iff_forall_not_mem.mpr fun call member => ?_
    have next := owned.inside call member (call.2 + 4096)
    rw [show call.2 + 4096 - call.2 = 4096#64 by bv_omega] at next
    exact absurd (next (by decide)) (by decide)
  · intro noStacks
    rw [noStacks, unchanged noStacks]
    exact ⟨fun _ _ => rfl, list, nofun⟩

/-- The BSP and one AP. -/
def demoCpus : List CpuInfo := [⟨0, 0, 1, true, true⟩, ⟨1, 1, 1, false, true⟩]

/-- With the BSP alone nothing happens. -/
theorem ownedOnly_iff_alone :
    OwnedOnly demoLayout demoPhys [0x200000, 0x201000, 0x202000]
      (apStacks 0 (demoCpus.take 1) demoPhys).1 (apStacks 0 (demoCpus.take 1) demoPhys).2 :=
  (ownedOnly_iff demoPhys_list 0 (demoCpus.take 1)).mpr
    (.inr (List.forall_mem_singleton.mpr fun eligible => eligible.2 rfl))

/-- Three free pages in a row, and data in the page behind them. -/
def demoNeighbour : Phys := { demoPhys with mem := Function.update demoPhys.mem 0x203000 0xAA }

theorem demoNeighbour_list :
    FreeList demoLayout demoNeighbour [0x200000, 0x201000, 0x202000] where
  spine := by decide +kernel
  nodup := demoPhys_list.nodup
  page := demoPhys_list.page

/-- **Clearing an AP's stack destroys its neighbours.** One AP gets the page `0x200000`; the link in
the free page `0x201000` and the data at `0x203000` are gone, and the AP starts with the stack pointer
`0x204000`. -/
theorem clearing_destroys_neighbours :
    FreeList demoLayout demoNeighbour [0x200000, 0x201000, 0x202000] ∧
      (apStacks 0 demoCpus demoNeighbour).1 = [(1, 0x200000)] ∧
      (apStacks 0 demoCpus demoNeighbour).2.mem 0x203000 ≠ demoNeighbour.mem 0x203000 ∧
      ¬ FreeList demoLayout (apStacks 0 demoCpus demoNeighbour).2 [0x201000, 0x202000] ∧
      ¬ OwnedOnly demoLayout demoNeighbour [0x200000, 0x201000, 0x202000]
        (apStacks 0 demoCpus demoNeighbour).1 (apStacks 0 demoCpus demoNeighbour).2 := by
  have calls : (apStacks 0 demoCpus demoNeighbour).1 = [(1, 0x200000)] := by decide +kernel
  have lost : ¬ FreeList demoLayout (apStacks 0 demoCpus demoNeighbour).2 [0x201000, 0x202000] :=
    fun list => absurd list.spine (by decide +kernel)
  refine ⟨demoNeighbour_list, calls, by decide +kernel, lost, fun owned => lost ?_⟩
  have list := owned.list
  rwa [calls] at list

end ShipOS

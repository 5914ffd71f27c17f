/-
**The AP trampoline (`ap_trampoline.asm`, `setup_trampoline`).**

The BSP copies the trampoline to `0x8000`, below the first megabyte, and writes the root of its page
tables, a stack pointer and the address of `ap_entry` into the three slots at its end. A SIPI starts an
AP there in real mode.

* `ready_setupTrampoline` — after the copy and the stores the code, its descriptor table and the slots
  are as the AP needs them;
* `runs_real`, `runs_protected`, `runs_long` — the three parts of the code;
* `ap_reaches_entry` — whatever the AP's registers hold, it arrives in `ap_entry` in long mode, on the
  stack of the slot and with the tables of the BSP.
-/

import ShipOS.Boot.Handover
import ShipOS.Smp.Startup
import ShipOS.Smp.StartupCpu

namespace ShipOS

open ByteMem KeyRange

/-! ### The code -/

/-- From `ap_trampoline_start`. -/
def realBlock : CodeBlock where
  address := 0x8000
  width := 16
  code := [.cli, .cld, .xorAx, .movSeg .ds, .movSeg .es, .movSeg .ss, .lgdt 0x80A0, .movFromCr0,
    .orAl 1, .movToCr0, .farJump 0x0008 0x8030]

/-- From `ap_trampoline_32`. -/
def protectedBlock : CodeBlock where
  address := 0x8030
  width := 32
  code := [.movAx 0x10, .movSeg .ds, .movSeg .es, .movSeg .fs, .movSeg .gs, .movSeg .ss,
    .loadEax 0x80E0, .movToCr3, .movFromCr4, .orEax 0x20, .movToCr4,
    .movEcx 0xC0000080, .rdmsr, .orEax 0x100, .wrmsr,
    .movFromCr0, .orEax 0x80000000, .movToCr0, .farJump 0x0018 0x8070]

/-- From `ap_trampoline_64`. -/
def longBlock : CodeBlock where
  address := 0x8070
  width := 64
  code := [.movAx 0x10, .movSeg .ds, .movSeg .es, .movSeg .fs, .movSeg .gs, .movSeg .ss,
    .loadRsp 0x80E8, .loadRax 0x80F0, .callRax, .cli, .hlt]

def trampolineBlocks : List CodeBlock := [realBlock, protectedBlock, longBlock]

/-- The bytes from `ap_gdt_ptr` on: the pointer to the table, the table, and the three slots. -/
def trampolineData : List Byte :=
  [0x1F, 0x00, 0xB0, 0x80, 0x00, 0x00, 0, 0, 0, 0] ++ List.replicate 6 0 ++
  List.replicate 8 0 ++
  [0xFF, 0xFF, 0x00, 0x00, 0x00, 0x9A, 0xCF, 0x00] ++
  [0xFF, 0xFF, 0x00, 0x00, 0x00, 0x92, 0xCF, 0x00] ++
  [0x00, 0x00, 0x00, 0x00, 0x00, 0x9A, 0x20, 0x00] ++
  List.replicate 16 0 ++ List.replicate 24 0

/-- The offset of `ap_gdt_ptr`, where the instructions end. -/
def codeSize : Nat := 0xA0

/-- `ap_trampoline_end - ap_trampoline_start`. -/
def trampolineSize : Nat := 0xF8

/-- The bytes from `ap_trampoline_start` on; those of the instructions are what the assembler made of
the blocks. -/
def trampolineByte (code : Nat → Byte) (i : Nat) : Byte :=
  if i < codeSize then code i else trampolineData.getD (i - codeSize) 0

/-- The loop of `setup_trampoline` that copies the trampoline. -/
def copyTrampoline (code : Nat → Byte) (mem : Mem) : Mem :=
  (List.range trampolineSize).foldl
    (fun mem i => Function.update mem (0x8000 + BitVec.ofNat 64 i) (trampolineByte code i)) mem

/-- `setup_trampoline` after `map_low_memory`: the copy, and the slots. -/
def setupTrampoline (code : Nat → Byte) (pageTable apEntry : Word) (mem : Mem) : Mem :=
  let mem := copyTrampoline code mem
  let mem := store64 mem 0x80E0 pageTable
  let mem := store64 mem 0x80E8 0
  store64 mem 0x80F0 apEntry

/-- The store of `start_ap` to the trampoline. -/
def writeStackSlot (stack : Word) (mem : Mem) : Mem := store64 mem 0x80E8 (stackTop stack)

/-- The instructions are in place. -/
def codeIntact (code : Nat → Byte) (mem : Mem) : Bool :=
  (List.range codeSize).all fun i => mem (0x8000 + BitVec.ofNat 64 i) = code i

/-! ### The trampoline in memory -/

/-- **What an AP needs at `0x8000`.** -/
structure TrampolineReady (code : Nat → Byte) (mem : Mem) (pageTable rsp entry : Word) : Prop where
  intact : codeIntact code mem = true
  data : ∀ i < 64, mem (0x80A0 + BitVec.ofNat 64 i) = trampolineData.getD i 0
  cr3 : load64 mem 0x80E0 = pageTable
  stack : load64 mem 0x80E8 = rsp
  entry : load64 mem 0x80F0 = entry

variable {code : Nat → Byte} {mem : Mem} {pageTable apEntry stack rsp entry : Word}

theorem copyTrampoline_byte {i : Nat} (hi : i < trampolineSize) :
    copyTrampoline code mem (0x8000 + BitVec.ofNat 64 i) = trampolineByte code i := by
  have loop : ∀ n, n ≤ trampolineSize → i < n →
      (List.range n).foldl (fun mem i =>
        Function.update mem (0x8000 + BitVec.ofNat 64 i) (trampolineByte code i)) mem
          (0x8000 + BitVec.ofNat 64 i) = trampolineByte code i := by
    intro n bound
    induction n with
    | zero => exact fun impossible => absurd impossible (Nat.not_lt_zero _)
    | succ n ih =>
      intro inside
      rw [List.range_succ, List.foldl_append, List.foldl_cons, List.foldl_nil]
      by_cases last : i = n
      · rw [last, Function.update_self]
      · rw [Function.update_of_ne]
        · exact ih (Nat.le_of_succ_le bound) (by omega)
        · simp only [trampolineSize] at bound
          bv_omega
  exact loop trampolineSize le_rfl hi

/-- The slots are behind the code and the table. -/
theorem setup_below {i : Nat} (hi : i < 0xE0) :
    writeStackSlot stack (setupTrampoline code pageTable apEntry mem) (0x8000 + BitVec.ofNat 64 i) =
      copyTrampoline code mem (0x8000 + BitVec.ofNat 64 i) := by
  have outside : ∀ a : Word, a.toNat = 0x80E0 ∨ a.toNat = 0x80E8 ∨ a.toNat = 0x80F0 →
      ¬ Within a 8 (0x8000 + BitVec.ofNat 64 i) := by
    intro a place
    unfold Within
    bv_omega
  rw [writeStackSlot, setupTrampoline, sameOutside_store64 _ _ _ _ (outside 0x80E8 (by decide)),
    sameOutside_store64 _ _ _ _ (outside 0x80F0 (by decide)),
    sameOutside_store64 _ _ _ _ (outside 0x80E8 (by decide)),
    sameOutside_store64 _ _ _ _ (outside 0x80E0 (by decide))]

/-- **After `setup_trampoline` and `start_ap`** everything is in place. -/
theorem ready_setupTrampoline (code : Nat → Byte) (pageTable apEntry stack : Word) (mem : Mem) :
    TrampolineReady code (writeStackSlot stack (setupTrampoline code pageTable apEntry mem))
      pageTable (stackTop stack) apEntry := by
  have bytes : ∀ i < 0xE0,
      writeStackSlot stack (setupTrampoline code pageTable apEntry mem)
        (0x8000 + BitVec.ofNat 64 i) = trampolineByte code i := by
    intro i hi
    rw [setup_below hi, copyTrampoline_byte (hi.trans (by decide))]
  refine ⟨?_, fun i hi => ?_, ?_, ?_, ?_⟩
  · rw [codeIntact, List.all_eq_true]
    intro i member
    have hi : i < codeSize := List.mem_range.mp member
    rw [bytes i (hi.trans (by decide)), trampolineByte, if_pos hi]
    exact decide_eq_true rfl
  · have place : 0x80A0 + BitVec.ofNat 64 i = 0x8000 + BitVec.ofNat 64 (codeSize + i) := by
      rw [BitVec.ofNat_add, ← BitVec.add_assoc]
      rfl
    rw [place, bytes _ (by simp only [codeSize]; omega), trampolineByte,
      if_neg (Nat.not_lt.mpr (Nat.le_add_right _ _)), Nat.add_sub_cancel_left]
  · rw [writeStackSlot, setupTrampoline, load64_store64_apart _ _ (by constructor <;> decide),
      load64_store64_apart _ _ (by constructor <;> decide),
      load64_store64_apart _ _ (by constructor <;> decide), load64_store64_self]
  · rw [writeStackSlot, load64_store64_self]
  · rw [writeStackSlot, load64_store64_apart _ _ (by constructor <;> decide), setupTrampoline,
      load64_store64_self]

/-! ### The descriptor table -/

/-- The data of the source, at its place. -/
def dataImage : Mem := fun x => trampolineData.getD (x - 0x80A0).toNat 0

/-- The limit and the base for `lgdt`, and the segments `0x08`, `0x10` and `0x18`. -/
theorem dataImage_table :
    part dataImage 0x80A0 0 2 = 0x1F ∧ part dataImage 0x80A0 2 3 = 0x80B0 ∧
      segmentAt dataImage 0x80A0 0x18 = ⟨0, 0xFFFFF, 0x9A, 0xC⟩ ∧
      segmentAt dataImage 0x80A0 0x20 = ⟨0, 0xFFFFF, 0x92, 0xC⟩ ∧
      segmentAt dataImage 0x80A0 0x28 = ⟨0, 0, 0x9A, 2⟩ := by
  decide +kernel

section

variable (ready : TrampolineReady code mem pageTable rsp entry)
include ready

theorem TrampolineReady.sameOn : SameOn (0x80A0 + BitVec.ofNat 64 0) 64 dataImage mem := by
  intro x inside
  have byte := ready.data (x - 0x80A0).toNat inside
  rwa [add_offset] at byte

theorem TrampolineReady.pointer : readLE mem 0x80A0 2 = 0x1F ∧ readLE mem 0x80A2 3 = 0x80B0 :=
  ⟨(part_congr ready.sameOn (x := 0) (n := 2) (by decide) (by decide)).trans dataImage_table.1,
    (part_congr ready.sameOn (x := 2) (n := 3) (by decide) (by decide)).trans dataImage_table.2.1⟩

theorem TrampolineReady.segment {e : Nat} (inside : e + 8 ≤ 64) :
    segmentAt mem (0x80A0 + BitVec.ofNat 64 e) 0 = segmentAt dataImage 0x80A0 e := by
  rw [segmentAt_inside, Nat.add_zero]
  exact segmentAt_congr ready.sameOn (Nat.zero_le _) (by omega)

theorem TrampolineReady.code32 : segmentAt mem 0x80B8 0 = ⟨0, 0xFFFFF, 0x9A, 0xC⟩ :=
  (ready.segment (e := 0x18) (by decide)).trans dataImage_table.2.2.1

theorem TrampolineReady.dataSegment : segmentAt mem 0x80C0 0 = ⟨0, 0xFFFFF, 0x92, 0xC⟩ :=
  (ready.segment (e := 0x20) (by decide)).trans dataImage_table.2.2.2.1

theorem TrampolineReady.code64 : segmentAt mem 0x80C8 0 = ⟨0, 0, 0x9A, 2⟩ :=
  (ready.segment (e := 0x28) (by decide)).trans dataImage_table.2.2.2.2

end

/-! ### The run -/

variable {cpu : ApCpu} {a back : Word}

/-- The end of the 16-bit code: protected mode, and the 32-bit segment. -/
theorem enters_protected (cpu : ApCpu) (ready : TrampolineReady code mem pageTable rsp entry)
    (off : cpu.paging = false) (short : cpu.lma = false) (small : cpu.cs.big = false)
    (base : cpu.gdtBase = 0x80B0) (limit : cpu.gdtLimit = 0x1F) :
    Leaves (codeIntact code) back realBlock
      [.movFromCr0, .orAl 1, .movToCr0, .farJump 0x0008 0x8030] cpu mem fun cpu' mem' next =>
        mem' = mem ∧ next = .jump 0x8030 ∧ cpu'.cr0 = cpu.cr0 ||| 1 ∧ cpu'.lma = false ∧
        cpu'.cs = ⟨0, false, true⟩ ∧ cpu'.gdtBase = 0x80B0 ∧ cpu'.gdtLimit = 0x1F ∧
        cpu'.interrupts = cpu.interrupts := by
  have fetched : realBlock.fetch (codeIntact code) cpu mem = .ok () :=
    fetch_ok (translate_off off _) ready.intact (by rw [ApCpu.width, short, small]; rfl)
  let cpu₁ : ApCpu := { cpu with rax := cpu.cr0.setWidth 64 ||| (1 : BitVec 8).setWidth 64 }
  have value : cpu₁.eax = cpu.cr0 ||| 1 := by
    rw [ApCpu.eax, BitVec.setWidth_or, BitVec.setWidth_setWidth_of_le _ (by decide), BitVec.setWidth_eq]
    rfl
  let cpu₂ : ApCpu := { cpu₁ with cr0 := cpu.cr0 ||| 1, efer := cpu.efer &&& ~~~0x400 }
  have off₂ : cpu₂.paging = false := by
    rw [ApCpu.paging, BitVec.getLsbD_or, show cpu.cr0.getLsbD 31 = false from off]
    decide
  have mode₂ : cpu₂.protectedMode = true := by
    rw [ApCpu.protectedMode, BitVec.getLsbD_or]
    simp
  have short₂ : cpu₂.lma = false := by
    rw [ApCpu.lma, BitVec.getLsbD_and]
    simp
  have enter : ApInstr.movToCr0.step back cpu₁ mem = .ok (cpu₂, mem, .onward) := by
    have set : cpu₁.setCr0 cpu₁.eax = .ok cpu₂ := by
      rw [value, ApCpu.setCr0,
        if_neg (by rw [show (cpu.cr0 ||| 1).getLsbD 31 = false from off₂]; decide)]
    rw [ApInstr.step, set]
    rfl
  have fetched₂ : realBlock.fetch (codeIntact code) cpu₂ mem = .ok () :=
    fetch_ok (translate_off off₂ _) ready.intact
      (by rw [ApCpu.width, short₂, show cpu₂.cs.big = false from small]; rfl)
  have place : cpu₂.translate mem (cpu₂.gdtBase + (0x0008 : BitVec 16).setWidth 64) = .ok 0x80B8 := by
    rw [translate_off off₂, show cpu₂.gdtBase = 0x80B0 from base]
    rfl
  have inTable : (0x0008 : BitVec 16).toNat + 7 ≤ cpu₂.gdtLimit := by
    rw [show cpu₂.gdtLimit = 0x1F from limit]
    decide
  have jump : (ApInstr.farJump 0x0008 0x8030).step back cpu₂ mem =
      .ok ({ cpu₂ with cs := ⟨0, false, true⟩ }, mem, .jump 0x8030) := by
    rw [ApInstr.step, codeSegment_found mode₂ inTable place ready.code32 (by decide) (by decide)]
    rfl
  refine .cons fetched rfl (.cons fetched rfl (.cons fetched enter (.last fetched₂ jump ?_ ?_)))
  · intro same
    cases same
  · exact ⟨rfl, rfl, rfl, short₂, rfl, base, limit, rfl⟩

/-- **Real mode**: from any registers to the 32-bit code segment. -/
theorem runs_real (back : Word) (ready : TrampolineReady code mem pageTable rsp entry)
    (real : cpu.protectedMode = false) (off : cpu.paging = false) (short : cpu.lma = false)
    (small : cpu.cs.big = false) :
    Leaves (codeIntact code) back realBlock realBlock.code cpu mem fun cpu' mem' next =>
      mem' = mem ∧ next = .jump 0x8030 ∧ cpu'.cr0 = cpu.cr0 ||| 1 ∧ cpu'.lma = false ∧
      cpu'.cs = ⟨0, false, true⟩ ∧ cpu'.gdtBase = 0x80B0 ∧ cpu'.gdtLimit = 0x1F ∧
      cpu'.interrupts = false := by
  have fetched : realBlock.fetch (codeIntact code) cpu mem = .ok () :=
    fetch_ok (translate_off off _) ready.intact (by rw [ApCpu.width, short, small]; rfl)
  obtain ⟨limit, base⟩ := ready.pointer
  let cpu₁ : ApCpu := { cpu with interrupts := false, down := false }
  let cpu₂ : ApCpu := cpu₁.setAx 0
  have segment : cpu₂.dataSegment mem (cpu₂.rax.setWidth 16) = .ok 0 := by
    rw [setAx_ax, ApCpu.dataSegment, if_neg (by rw [show cpu₂.protectedMode = false from real]; decide)]
    rfl
  refine .cons fetched rfl (.cons fetched rfl (.cons fetched rfl ?_))
  refine leaves_movSegs cpu₂ fetched segment [.ds, .es, .ss] fun seg segs => ?_
  have ds : seg .ds = 0 := segs .ds
  let cpu₃ : ApCpu := { cpu₂ with seg := seg, gdtLimit := 0x1F, gdtBase := 0x80B0 }
  have table : (ApInstr.lgdt 0x80A0).step back { cpu₂ with seg := seg } mem =
      .ok (cpu₃, mem, .onward) := by
    have place : ({ cpu₂ with seg := seg } : ApCpu).translate mem
        (seg .ds + (0x80A0 : BitVec 16).setWidth 64) = .ok 0x80A0 := by
      rw [ds]
      exact translate_off off _
    rw [ApInstr.step]
    simp only [place, bind, Except.bind, limit, show (0x80A0 : Word) + 2 = 0x80A2 from rfl, base]
    rfl
  exact .cons fetched table (enters_protected cpu₃ ready off short small rfl rfl)

/-- The page of the trampoline is mapped to itself. -/
def LowMapped (mem : Mem) (root : Word) : Prop :=
  ∀ a : Word, 0x8000 ≤ a.toNat → a.toNat < 0x9000 → IdentityAt mem root a

/-- The end of the 32-bit code: paging and with it long mode, and the 64-bit segment. -/
theorem enters_long (cpu : ApCpu) (ready : TrampolineReady code mem pageTable rsp entry)
    (mapped : LowMapped mem pageTable) (mode : cpu.protectedMode = true) (off : cpu.paging = false)
    (lme : cpu.lme = true) (pae : cpu.pae = true) (short : cpu.lma = false)
    (cs : cpu.cs = ⟨0, false, true⟩) (cr3 : cpu.cr3 = pageTable) (base : cpu.gdtBase = 0x80B0)
    (limit : cpu.gdtLimit = 0x1F) :
    Leaves (codeIntact code) back protectedBlock
      [.movFromCr0, .orEax 0x80000000, .movToCr0, .farJump 0x0018 0x8070] cpu mem
      fun cpu' mem' next =>
        mem' = mem ∧ next = .jump 0x8070 ∧ cpu'.cr0 = cpu.cr0 ||| 0x80000000 ∧ cpu'.lma = true ∧
        cpu'.cs = ⟨0, true, false⟩ ∧ cpu'.cr3 = pageTable ∧ cpu'.gdtBase = 0x80B0 ∧
        cpu'.gdtLimit = 0x1F ∧ cpu'.interrupts = cpu.interrupts := by
  have fetched : protectedBlock.fetch (codeIntact code) cpu mem = .ok () :=
    fetch_ok (translate_off off _) ready.intact (by rw [ApCpu.width, short, cs]; rfl)
  let cpu₁ : ApCpu := (cpu.setEax cpu.cr0).setEax ((cpu.setEax cpu.cr0).eax ||| 0x80000000)
  have value : cpu₁.eax = cpu.cr0 ||| 0x80000000 := by rw [eax_setEax, eax_setEax]
  let cpu₂ : ApCpu := { cpu₁ with cr0 := cpu.cr0 ||| 0x80000000, efer := cpu.efer ||| 0x400 }
  have on₂ : (cpu.cr0 ||| 0x80000000).getLsbD 31 = true := by
    rw [BitVec.getLsbD_or]
    simp
  have mode₂ : (cpu.cr0 ||| 0x80000000).getLsbD 0 = true := by
    rw [BitVec.getLsbD_or, show cpu.cr0.getLsbD 0 = true from mode]
    rfl
  have long₂ : cpu₂.lma = true := by
    rw [ApCpu.lma, BitVec.getLsbD_or]
    simp
  have notLong : cpu₁.cs.long = false := by rw [show cpu₁.cs = _ from cs]
  have enter : ApInstr.movToCr0.step back cpu₁ mem = .ok (cpu₂, mem, .onward) :=
    movToCr0_long cpu₁ value on₂ mode₂ lme pae notLong
  have place₂ : ∀ a : Word, 0x8000 ≤ a.toNat → a.toNat < 0x9000 → cpu₂.translate mem a = .ok a :=
    fun a low high => translate_on (by rw [show cpu₂.cr3 = pageTable from cr3]; exact mapped a low high)
  have fetched₂ : protectedBlock.fetch (codeIntact code) cpu₂ mem = .ok () :=
    fetch_ok (place₂ _ (by decide) (by decide)) ready.intact
      (by rw [ApCpu.width, show cpu₂.cs = _ from cs, Bool.and_false]; rfl)
  have place : cpu₂.translate mem (cpu₂.gdtBase + (0x0018 : BitVec 16).setWidth 64) = .ok 0x80C8 := by
    rw [show cpu₂.gdtBase = 0x80B0 from base]
    exact place₂ _ (by decide) (by decide)
  have inTable : (0x0018 : BitVec 16).toNat + 7 ≤ cpu₂.gdtLimit := by
    rw [show cpu₂.gdtLimit = 0x1F from limit]
    decide
  have jump : (ApInstr.farJump 0x0018 0x8070).step back cpu₂ mem =
      .ok ({ cpu₂ with cs := ⟨0, true, false⟩ }, mem, .jump 0x8070) := by
    rw [ApInstr.step, codeSegment_found (show cpu₂.protectedMode = true from mode₂) inTable place
      ready.code64 (by decide) (by decide)]
    rfl
  refine .cons fetched rfl (.cons fetched rfl (.cons fetched enter (.last fetched₂ jump ?_ ?_)))
  · intro same
    cases same
  · exact ⟨rfl, rfl, rfl, long₂, rfl, cr3, base, limit, rfl⟩

/-- `mov ax, 0x10` and a load of a data segment. -/
theorem loads_data (ready : TrampolineReady code mem pageTable rsp entry)
    (mode : cpu.protectedMode = true) (base : cpu.gdtBase = 0x80B0) (limit : cpu.gdtLimit = 0x1F)
    (place : cpu.translate mem 0x80C0 = .ok 0x80C0) :
    (cpu.setAx 0x10).dataSegment mem ((cpu.setAx 0x10).rax.setWidth 16) = .ok 0 := by
  have found : (cpu.setAx 0x10).translate mem
      ((cpu.setAx 0x10).gdtBase + (0x10 : BitVec 16).setWidth 64) = .ok 0x80C0 := by
    rw [show (cpu.setAx 0x10).gdtBase = 0x80B0 from base]
    exact place
  have inTable : (0x10 : BitVec 16).toNat + 7 ≤ (cpu.setAx 0x10).gdtLimit := by
    rw [show (cpu.setAx 0x10).gdtLimit = 0x1F from limit]
    decide
  rw [setAx_ax, dataSegment_found (show (cpu.setAx 0x10).protectedMode = true from mode) inTable found
    ready.dataSegment (by decide)]
  rfl

/-- **Protected mode**: the tables of the BSP, PAE and long mode. -/
theorem runs_protected (back : Word) (ready : TrampolineReady code mem pageTable rsp entry)
    (mapped : LowMapped mem pageTable) (low : pageTable.toNat < 2 ^ 32)
    (mode : cpu.protectedMode = true) (off : cpu.paging = false) (short : cpu.lma = false)
    (cs : cpu.cs = ⟨0, false, true⟩) (base : cpu.gdtBase = 0x80B0) (limit : cpu.gdtLimit = 0x1F) :
    Leaves (codeIntact code) back protectedBlock protectedBlock.code cpu mem fun cpu' mem' next =>
      mem' = mem ∧ next = .jump 0x8070 ∧ cpu'.cr0 = cpu.cr0 ||| 0x80000000 ∧ cpu'.lma = true ∧
      cpu'.cs = ⟨0, true, false⟩ ∧ cpu'.cr3 = pageTable ∧ cpu'.gdtBase = 0x80B0 ∧
      cpu'.gdtLimit = 0x1F ∧ cpu'.interrupts = cpu.interrupts := by
  have fetched : protectedBlock.fetch (codeIntact code) cpu mem = .ok () :=
    fetch_ok (translate_off off _) ready.intact (by rw [ApCpu.width, short, cs]; rfl)
  have segment := loads_data ready mode base limit (translate_off off 0x80C0)
  refine .cons fetched rfl
    (leaves_movSegs (cpu.setAx 0x10) fetched segment [.ds, .es, .fs, .gs, .ss] fun seg segs => ?_)
  have ds : seg .ds = 0 := segs .ds
  let cpu₁ : ApCpu := { cpu.setAx 0x10 with seg := seg }
  let cpu₂ : ApCpu := cpu₁.setEax (load32 mem 0x80E0)
  have root : cpu₂.eax.setWidth 64 = pageTable := by
    rw [eax_setEax]
    apply BitVec.eq_of_toNat_eq
    have halves := load64_halves mem 0x80E0
    rw [ready.cr3] at halves
    have := (load32 mem 0x80E0).isLt
    rw [BitVec.toNat_setWidth]
    omega
  have read : (ApInstr.loadEax 0x80E0).step back cpu₁ mem = .ok (cpu₂, mem, .onward) := by
    have place : cpu₁.translate mem (seg .ds + (0x80E0 : BitVec 32).setWidth 64) = .ok 0x80E0 := by
      rw [ds]
      exact translate_off off _
    rw [ApInstr.step, place]
    rfl
  let cpu₃ : ApCpu := { cpu₂ with cr3 := cpu₂.eax.setWidth 64 }
  have width : cpu.width = protectedBlock.width := by
    rw [ApCpu.width, short, cs]
    rfl
  refine .cons fetched read (.cons fetched rfl
    (leaves_enableLme cpu₃ off ready.intact width fun rax ecx edx => ?_))
  refine enters_long _ ready mapped mode off ?_ ?_ ?_ cs root base limit
  · rw [ApCpu.lme, BitVec.getLsbD_or]
    simp
  · rw [ApCpu.pae, BitVec.getLsbD_or]
    simp
  · rw [ApCpu.lma, BitVec.getLsbD_or, show cpu₃.efer.getLsbD 10 = false from short]
    rfl

/-- **Long mode**: the stack, and the call of `ap_entry`. -/
theorem runs_long (back : Word) (ready : TrampolineReady code mem pageTable rsp entry)
    (mapped : LowMapped mem pageTable) (mode : cpu.protectedMode = true) (long : cpu.lma = true)
    (cs : cpu.cs = ⟨0, true, false⟩) (cr3 : cpu.cr3 = pageTable) (base : cpu.gdtBase = 0x80B0)
    (limit : cpu.gdtLimit = 0x1F) (stack : IdentityAt mem pageTable (rsp - 8))
    (writable : effectiveRw mem pageTable (rsp - 8) = true) :
    Leaves (codeIntact code) back longBlock longBlock.code cpu mem fun cpu' mem' next =>
      mem' = store64 mem (rsp - 8) back ∧ next = .call entry ∧ cpu'.rsp = rsp - 8 ∧
      cpu'.cr0 = cpu.cr0 ∧ cpu'.width = 64 ∧ cpu'.cr3 = pageTable ∧
      cpu'.interrupts = cpu.interrupts := by
  have place : ∀ (cpu' : ApCpu) (a : Word), cpu'.cr3 = pageTable → 0x8000 ≤ a.toNat →
      a.toNat < 0x9000 → cpu'.translate mem a = .ok a := by
    intro cpu' a same low high
    exact translate_on (by rw [same]; exact mapped a low high)
  have width : cpu.width = 64 := by rw [ApCpu.width, long, cs]; rfl
  have fetched : longBlock.fetch (codeIntact code) cpu mem = .ok () :=
    fetch_ok (place cpu _ cr3 (by decide) (by decide)) ready.intact width
  have segment := loads_data ready mode base limit (place cpu 0x80C0 cr3 (by decide) (by decide))
  refine .cons fetched rfl
    (leaves_movSegs (cpu.setAx 0x10) fetched segment [.ds, .es, .fs, .gs, .ss] fun seg _ => ?_)
  let cpu₁ : ApCpu := { cpu.setAx 0x10 with seg := seg }
  let cpu₂ : ApCpu := { cpu₁ with rsp := rsp }
  let cpu₃ : ApCpu := { cpu₂ with rax := entry }
  have loadRsp : (ApInstr.loadRsp 0x80E8).step back cpu₁ mem = .ok (cpu₂, mem, .onward) := by
    rw [ApInstr.step, place cpu₁ 0x80E8 cr3 (by decide) (by decide)]
    simp only [bind, Except.bind, ready.stack]
    rfl
  have loadRax : (ApInstr.loadRax 0x80F0).step back cpu₂ mem = .ok (cpu₃, mem, .onward) := by
    rw [ApInstr.step, place cpu₂ 0x80F0 cr3 (by decide) (by decide)]
    simp only [bind, Except.bind, ready.entry]
    rfl
  have call : ApInstr.callRax.step back cpu₃ mem =
      .ok ({ cpu₃ with rsp := rsp - 8 }, store64 mem (rsp - 8) back, .call entry) := by
    have push : cpu₃.translateWrite mem (rsp - 8) = .ok (rsp - 8) := by
      rw [ApCpu.translateWrite, show cpu₃.cr3 = pageTable from cr3, writable, Bool.not_true,
        Bool.and_false, if_neg (by decide)]
      exact translate_on (by rw [show cpu₃.cr3 = pageTable from cr3]; exact stack)
    rw [ApInstr.step, push]
    rfl
  refine .cons fetched loadRsp (.cons fetched loadRax (.last fetched call ?_ ?_))
  · intro same
    cases same
  · exact ⟨rfl, rfl, rfl, rfl, width, cr3, rfl⟩

/-- The three parts in a row, for any tables that map the trampoline and the stack's top. -/
theorem runs_trampoline (ready : TrampolineReady code mem pageTable rsp entry)
    (mapped : LowMapped mem pageTable) (low : pageTable.toNat < 2 ^ 32)
    (stack : IdentityAt mem pageTable (rsp - 8))
    (writable : effectiveRw mem pageTable (rsp - 8) = true)
    (real : cpu.protectedMode = false) (off : cpu.paging = false) (short : cpu.lma = false)
    (small : cpu.cs.big = false) :
    ∃ cpu', runBlocks (codeIntact code) back trampolineBlocks 3 0x8000 cpu mem =
        .ok (cpu', store64 mem (rsp - 8) back, entry) ∧
      cpu'.rsp = rsp - 8 ∧ cpu'.width = 64 ∧ cpu'.paging = true ∧ cpu'.cr3 = pageTable ∧
      cpu'.interrupts = false := by
  obtain ⟨cpu₁, mem₁, next₁, run₁, rfl, rfl, cr0₁, short₁, cs₁, base₁, limit₁, interrupts₁⟩ :=
    runs_real back ready real off short small
  have off₁ : cpu₁.paging = false := by
    rw [ApCpu.paging, cr0₁, BitVec.getLsbD_or, show cpu.cr0.getLsbD 31 = false from off]
    decide
  have mode₁ : cpu₁.protectedMode = true := by
    rw [ApCpu.protectedMode, cr0₁, BitVec.getLsbD_or]
    simp
  obtain ⟨cpu₂, mem₂, next₂, run₂, rfl, rfl, cr0₂, long₂, cs₂, cr3₂, base₂, limit₂, interrupts₂⟩ :=
    runs_protected back ready mapped low mode₁ off₁ short₁ cs₁ base₁ limit₁
  have mode₂ : cpu₂.protectedMode = true := by
    rw [ApCpu.protectedMode, cr0₂, BitVec.getLsbD_or, show cpu₁.cr0.getLsbD 0 = true from mode₁]
    rfl
  obtain ⟨cpu₃, mem₃, next₃, run₃, rfl, rfl, rsp₃, cr0₃, width₃, cr3₃, interrupts₃⟩ :=
    runs_long back ready mapped mode₂ long₂ cs₂ cr3₂ base₂ limit₂ stack writable
  refine ⟨cpu₃, ?_, rsp₃, width₃, ?_, cr3₃, ?_⟩
  · rw [runBlocks_jump 2 rfl run₁, runBlocks_jump 1 rfl run₂, runBlocks_call 0 rfl run₃]
  · rw [ApCpu.paging, cr0₃, cr0₂, BitVec.getLsbD_or]
    simp
  · rw [interrupts₃, interrupts₂, interrupts₁]

/-! ### The kernel's tables -/

variable {L : Bounds} {root : Word} {s t : Phys} {free : List Word}

/-- The stores of the BSP stay in the page at `0x8000`. -/
theorem onlyPage_setup (code : Nat → Byte) (pageTable apEntry stack : Word) (mem : Mem) :
    OnlyPage 0x8000 mem (writeStackSlot stack (setupTrampoline code pageTable apEntry mem)) := by
  have copy : OnlyPage 0x8000 mem (copyTrampoline code mem) := by
    have loop : ∀ is : List Nat, (∀ i ∈ is, i < trampolineSize) → ∀ mem : Mem,
        OnlyPage 0x8000 mem (is.foldl (fun mem i =>
          Function.update mem (0x8000 + BitVec.ofNat 64 i) (trampolineByte code i)) mem) := by
      intro is
      induction is with
      | nil => exact fun _ mem _ _ => rfl
      | cons i is ih =>
        intro bound mem x outside
        rw [List.foldl_cons, ih (fun j member => bound j (.tail _ member)) _ x outside]
        refine Function.update_of_ne (fun equal => outside ?_) ..
        have hi := bound i (.head _)
        simp only [trampolineSize] at hi
        rw [equal]
        bv_omega
    exact loop _ (fun i member => List.mem_range.mp member) mem
  have slots : ∀ (m : Mem) (i : Nat) (v : Word), i < 512 →
      OnlyPage 0x8000 m (store64 m (slot 0x8000 i) v) := fun m i v hi => onlyPage_store m i v hi
  exact (((copy.trans (slots _ 28 pageTable (by decide))).trans (slots _ 29 0 (by decide))).trans
    (slots _ 30 apEntry (by decide))).trans (slots _ 29 (stackTop stack) (by decide))

/-- **An AP reaches `ap_entry`.** `setup_trampoline` maps low memory into the kernel's tables, copies
the trampoline and fills its slots, `start_ap` fills the slot of the stack; the stack's top is mapped to
itself and writable, the tables are below 4 GiB and none of them is in the trampoline's page. Then,
whatever is in its registers when a SIPI starts it in real mode, the AP arrives in `ap_entry` without a
fault: in long mode with the BSP's tables and interrupts off, the return address just below the top
of the stack. Nothing else is written. -/
theorem ap_reaches_entry (tree : PageTree L s root free)
    (noTable : ∀ q : List (Fin 512), q.length ≤ 3 → tableAt s.mem root q ≠ some 0x8000)
    (enough : (missingTables s.mem root (regionAddrs 0 0x10000)).card ≤ free.length)
    (done : mapLowMemory root 0 0x10000 s = .ok t) (low : root.toNat < 2 ^ 32) {leaf : PageEntry}
    (stackMapped : mapped s.mem root (vpn (stackTop stack - 8)) = some leaf)
    (frame : leaf.address.toNat = (stackTop stack - 8).toNat / 4096)
    (writable : effectiveRw s.mem root (stackTop stack - 8) = true)
    (above : 0x10000 ≤ (stackTop stack - 8).toNat) (high : (stackTop stack - 8).toNat < 2 ^ 48)
    (code : Nat → Byte) (apEntry back : Word) (cpu : ApCpu) (real : cpu.protectedMode = false)
    (off : cpu.paging = false) (short : cpu.lma = false) (small : cpu.cs.big = false) :
    let mem := writeStackSlot stack (setupTrampoline code root apEntry t.mem)
    ∃ cpu', runBlocks (codeIntact code) back trampolineBlocks 3 0x8000 cpu mem =
        .ok (cpu', store64 mem (stackTop stack - 8) back, apEntry) ∧
      cpu'.rsp = stackTop stack - 8 ∧ cpu'.width = 64 ∧ cpu'.paging = true ∧ cpu'.cr3 = root ∧
      cpu'.interrupts = false := by
  intro mem
  obtain ⟨t', free', done', tree', filled⟩ := mapRegion_spec tree false 0 0x10000 (by decide) enough
  obtain rfl : t = t' := Except.ok.inj (done.symm.trans done')
  obtain ⟨free'', grown⟩ := mapRegion_grown tree.toTables done
  have noTable' : ∀ q : List (Fin 512), q.length ≤ 3 → tableAt t.mem root q ≠ some 0x8000 := by
    intro q within found
    rcases grown.new q _ within found with old | new
    · exact noTable q within old
    · have page := (tree.list.page _ new).low
      have image : (0x100000 : Word).toNat ≤ L.kend.toNat := BitVec.le_def.mp L.above
      exact absurd (image.trans page) (by decide)
  have same : SameEntries root t.mem mem :=
    sameEntries_of_onlyPage tree.aligned (by decide) noTable'
      (onlyPage_setup code root apEntry stack t.mem)
  -- The pages of the region are the first sixteen.
  rw [show ((0x10000 : Word).toNat + 4095) / 4096 = 16 from rfl] at filled
  have region : ∀ b : Word, b.toNat < 2 ^ 48 → ((vpn b - vpn 0).toNat < 16 ↔ b.toNat < 0x10000) := by
    intro b bound
    rw [show vpn b - vpn 0 = vpn b from sub_zero _, vpn_of_low bound]
    omega
  have identity : LowMapped mem root := by
    intro b lower upper
    have inside : mapped t.mem root (vpn b) = some (frameEntry (vpn b) (identityFlags false)) := by
      rw [filled, fillRange, if_pos ((region b (by omega)).mpr (by omega)), add_sub_cancel]
    rw [← same.mapped] at inside
    refine identityAt_of_mapped inside ?_ (by omega)
    rw [frameEntry, BitVec.toNat_setWidth, vpn_of_low (by omega)]
    omega
  have kept : mapped t.mem root (vpn (stackTop stack - 8)) = some leaf := by
    rw [filled, fillRange, if_neg (by rw [region _ high]; omega)]
    exact stackMapped
  have entries :
      mmuEntries mem root (stackTop stack - 8) = mmuEntries s.mem root (stackTop stack - 8) :=
    (same.mmuEntries _).trans (grown.mmuEntries stackMapped kept)
  refine runs_trampoline (ready_setupTrampoline code root apEntry stack t.mem) identity low ?_ ?_ real
    off short small
  · rw [← same.mapped] at kept
    exact identityAt_of_mapped kept frame high
  · rwa [effectiveRw, entries]

/-- The boot tables lack nothing below `INIT_PHYSTOP`. -/
theorem BootTables.missing_low {init : Word} (boot : BootTables L mem root init) {vas : List Word}
    (below : ∀ va ∈ vas, va.toNat < init.toNat) : missingTables mem root vas = ∅ := by
  refine Finset.eq_empty_of_forall_notMem fun q missing => ?_
  obtain ⟨⟨va, member, onPath⟩, absent⟩ := mem_missingTables.mp missing
  obtain ⟨entry, found, -⟩ := boot.identity va (below va member)
  obtain ⟨t, reached, -⟩ := mapped_some found
  obtain ⟨a, here⟩ := tableAt_prefix reached onPath
  exact absurd (here.symm.trans absent) (Option.some_ne_none a)

/-- The registers after an INIT and a SIPI with the vector 8. -/
def sipiCpu : ApCpu where
  cr0 := 0x60000010
  cr3 := 0
  cr4 := 0
  efer := 0
  gdtBase := 0
  gdtLimit := 0xFFFF
  cs := ⟨0x8000, false, false⟩
  seg := fun _ => 0
  rax := 0
  ecx := 0
  edx := 0
  rsp := 0
  interrupts := false
  down := false

/-- With the boot tables, and a stack in the first megabyte. -/
theorem ap_reaches_entry_boot :
    ∃ mem t, pageTablesSetup 0x100000 (bootTable 0x100000 1) (bootTable 0x100000 2)
        (bootTable 0x100000 3) (fun _ => 0) = .ok mem ∧
      mapLowMemory 0x100000 0 0x10000 ⟨mem, 0⟩ = .ok t ∧
      ∃ cpu mem', runBlocks (codeIntact fun _ => 0x90) 0x809A trampolineBlocks 3 0x8000 sipiCpu
          (writeStackSlot 0x20000 (setupTrampoline (fun _ => 0x90) 0x100000 0x101000 t.mem)) =
        .ok (cpu, mem', 0x101000) ∧ cpu.rsp = 0x23FF8 ∧ cpu.width = 64 := by
  obtain ⟨mem, run, tables⟩ := pageTablesSetup_bootTables demoBounds_image
  have boot : BootTables demoBounds mem 0x100000 initPhystop := tables
  have low : ∀ va ∈ regionAddrs 0 0x10000, va.toNat < initPhystop.toNat := by
    intro va member
    obtain ⟨i, early, rfl⟩ := List.mem_map.mp member
    have few : i < 16 := List.mem_range.mp early
    rw [pageAt_toNat, show initPhystop.toNat = 0x200000 from rfl, show (0 : Word).toNat = 0 from rfl]
    omega
  have tree : PageTree demoBounds ⟨mem, 0⟩ 0x100000 [] :=
    BootTables.pageTree (s := ⟨mem, 0⟩) boot (freeList_nil rfl)
  have enough : (missingTables mem 0x100000 (regionAddrs 0 0x10000)).card ≤ 0 := by
    rw [boot.missing_low low, Finset.card_empty]
  have noTable : ∀ q : List (Fin 512), q.length ≤ 3 → tableAt mem 0x100000 q ≠ some 0x8000 :=
    fun q within found => absurd (boot.image q _ within found).1 (by decide)
  obtain ⟨t, -, done, -⟩ := mapRegion_spec tree false 0 0x10000 (by decide) enough
  obtain ⟨leaf, stackMapped, frame, -⟩ := boot.identity (stackTop 0x20000 - 8) (by decide)
  have writable := (boot_mapped (s := ⟨mem, 0⟩) (p := stackTop 0x20000 - 8) boot rfl (by decide)).2
  obtain ⟨cpu, reached, rsp, width, -⟩ := ap_reaches_entry tree noTable enough done (by decide)
    stackMapped frame writable (by decide) (by decide) (fun _ => 0x90) 0x101000 0x809A sipiCpu
    rfl rfl rfl rfl
  exact ⟨mem, t, run, done, cpu, _, reached, rsp, width⟩

end ShipOS

/-
**A processor on its way from real mode to long mode.**

The control registers, the descriptor table and the segments, as far as start-up code uses them: what
an instruction does, and when it faults. An address is translated as soon as paging is on.

* `ApCpu.width` — the width of the code that the processor decodes: 16, 32 or 64 bits;
* `ApInstr.step` — one instruction;
* `runBlock`, `runBlocks` — code in blocks, each of one width; a far jump leads from one to the next;
* `Leaves` with `Leaves.cons` and `Leaves.last` — pre- and postconditions of the rest of a block;
* `leaves_movSegs`, `leaves_enableLme`, `movToCr0_long` — the rows of instructions that lead into long
  mode.
-/

import ShipOS.Paging.Mmu
import ShipOS.Smp.Gdt

namespace ShipOS

open ByteMem

inductive SegReg
  | ds | es | fs | gs | ss
  deriving DecidableEq, Repr

/-- What the processor keeps of the code segment. -/
structure CodeSegment where
  base : Word
  long : Bool
  big : Bool

structure ApCpu where
  cr0 : BitVec 32
  cr3 : Word
  cr4 : BitVec 32
  efer : BitVec 64
  gdtBase : Word
  gdtLimit : Nat
  cs : CodeSegment
  /-- The bases of the other segments. -/
  seg : SegReg → Word
  rax : Word
  ecx : BitVec 32
  edx : BitVec 32
  rsp : Word
  interrupts : Bool
  /-- The direction flag. -/
  down : Bool

inductive ApFault
  | pageFault
  | generalProtection
  /-- The bytes are not those of the program. -/
  | notTheCode
  /-- The bytes are decoded as code of another width. -/
  | otherWidth
  /-- The code does not go on. -/
  | stopped
  deriving DecidableEq, Repr

namespace ApCpu

def protectedMode (cpu : ApCpu) : Bool := cpu.cr0.getLsbD 0

def paging (cpu : ApCpu) : Bool := cpu.cr0.getLsbD 31

def pae (cpu : ApCpu) : Bool := cpu.cr4.getLsbD 5

def lme (cpu : ApCpu) : Bool := cpu.efer.getLsbD 8

def lma (cpu : ApCpu) : Bool := cpu.efer.getLsbD 10

/-- The width of the code. -/
def width (cpu : ApCpu) : Nat :=
  if cpu.lma && cpu.cs.long then 64 else if cpu.cs.big then 32 else 16

/-- The physical address of a linear one. -/
def translate (cpu : ApCpu) (mem : Mem) (a : Word) : Except ApFault Word :=
  if cpu.paging then
    match (mmuEntries mem cpu.cr3 a).bind List.getLast? with
    | some leaf => .ok ((leaf.address <<< 12) + (a &&& 0xFFF))
    | none => .error .pageFault
  else .ok a

/-- A write also needs the right to, if `CR0.WP` is set. -/
def translateWrite (cpu : ApCpu) (mem : Mem) (a : Word) : Except ApFault Word :=
  if cpu.paging && cpu.cr0.getLsbD 16 && !effectiveRw mem cpu.cr3 a then .error .pageFault
  else cpu.translate mem a

/-- The descriptor of a selector. -/
def descriptor (cpu : ApCpu) (mem : Mem) (selector : BitVec 16) : Except ApFault Segment :=
  if selector.toNat + 7 ≤ cpu.gdtLimit then do
    let a ← cpu.translate mem (cpu.gdtBase + selector.setWidth 64)
    .ok (segmentAt mem a 0)
  else .error .generalProtection

/-- The base of a data segment: present and writable. -/
def dataSegment (cpu : ApCpu) (mem : Mem) (selector : BitVec 16) : Except ApFault Word :=
  if cpu.protectedMode then do
    let d ← cpu.descriptor mem selector
    if d.access &&& 0x9A = 0x92 then .ok (d.base.setWidth 64) else .error .generalProtection
  else .ok (selector.setWidth 64 <<< 4)

/-- A code segment: present and executable; a 64-bit one has no `D` bit. -/
def codeSegment (cpu : ApCpu) (mem : Mem) (selector : BitVec 16) : Except ApFault CodeSegment :=
  if cpu.protectedMode then do
    let d ← cpu.descriptor mem selector
    let long := d.flags.getLsbD 1
    let big := d.flags.getLsbD 2
    if d.access &&& 0x98 = 0x98 ∧ ¬ (cpu.lma && long && big) then
      .ok ⟨d.base.setWidth 64, long, big⟩
    else .error .generalProtection
  else .ok ⟨selector.setWidth 64 <<< 4, false, false⟩

/-- `mov cr0, eax`: paging needs protected mode, and with `EFER.LME` it needs `CR4.PAE` and turns on
long mode. -/
def setCr0 (cpu : ApCpu) (value : BitVec 32) : Except ApFault ApCpu :=
  if value.getLsbD 31 then
    if ¬ value.getLsbD 0 then .error .generalProtection
    else if cpu.lme then
      if ¬ cpu.pae ∨ cpu.cs.long then .error .generalProtection
      else .ok { cpu with cr0 := value, efer := cpu.efer ||| 0x400 }
    else .ok { cpu with cr0 := value }
  else .ok { cpu with cr0 := value, efer := cpu.efer &&& ~~~0x400 }

/-- `EAX`. -/
def eax (cpu : ApCpu) : BitVec 32 := cpu.rax.setWidth 32

/-- A write to `EAX` clears the upper half. -/
def setEax (cpu : ApCpu) (value : BitVec 32) : ApCpu := { cpu with rax := value.setWidth 64 }

/-- A write to `AX` keeps the rest. -/
def setAx (cpu : ApCpu) (value : BitVec 16) : ApCpu :=
  { cpu with rax := (cpu.rax &&& ~~~0xFFFF) ||| value.setWidth 64 }

end ApCpu

/-- The instructions of the start-up code. -/
inductive ApInstr
  | cli
  | cld
  | xorAx
  | movAx (value : BitVec 16)
  | movEax (value : BitVec 32)
  | movSeg (r : SegReg)
  | lgdt (address : BitVec 16)
  | lgdt32 (address : BitVec 32)
  | movFromCr0
  | movFromCr4
  | orAl (value : BitVec 8)
  | orEax (value : BitVec 32)
  | movToCr0
  | movToCr3
  | movToCr4
  | loadEax (address : BitVec 32)
  | movEcx (value : BitVec 32)
  | rdmsr
  | wrmsr
  | loadRsp (address : Word)
  | loadRax (address : Word)
  | movRsp (value : Word)
  | farJump (selector : BitVec 16) (target : BitVec 32)
  | callRax
  | call (function : Word)
  | hlt
  deriving DecidableEq, Repr

/-- Where the code goes on: in the block, at a linear address in another one, or in a function that
was called. -/
inductive ApNext
  | onward
  | jump (target : Word)
  | call (function : Word)

/-- **One instruction.** `back` is the address after a call. -/
def ApInstr.step (back : Word) (cpu : ApCpu) (mem : Mem) :
    ApInstr → Except ApFault (ApCpu × Mem × ApNext)
  | .cli => .ok ({ cpu with interrupts := false }, mem, .onward)
  | .cld => .ok ({ cpu with down := false }, mem, .onward)
  | .xorAx => .ok (cpu.setAx 0, mem, .onward)
  | .movAx value => .ok (cpu.setAx value, mem, .onward)
  | .movEax value => .ok (cpu.setEax value, mem, .onward)
  | .movSeg r => do
    let base ← cpu.dataSegment mem (cpu.rax.setWidth 16)
    .ok ({ cpu with seg := Function.update cpu.seg r base }, mem, .onward)
  | .lgdt address => do
    let a ← cpu.translate mem (cpu.seg .ds + address.setWidth 64)
    -- With 16-bit operands the base has 24 bits.
    .ok ({ cpu with gdtLimit := readLE mem a 2, gdtBase := BitVec.ofNat 64 (readLE mem (a + 2) 3) },
      mem, .onward)
  | .lgdt32 address => do
    let a ← cpu.translate mem (cpu.seg .ds + address.setWidth 64)
    .ok ({ cpu with gdtLimit := readLE mem a 2, gdtBase := BitVec.ofNat 64 (readLE mem (a + 2) 4) },
      mem, .onward)
  | .movFromCr0 => .ok (cpu.setEax cpu.cr0, mem, .onward)
  | .movFromCr4 => .ok (cpu.setEax cpu.cr4, mem, .onward)
  | .orAl value => .ok ({ cpu with rax := cpu.rax ||| value.setWidth 64 }, mem, .onward)
  | .orEax value => .ok (cpu.setEax (cpu.eax ||| value), mem, .onward)
  | .movToCr0 => do
    let cpu ← cpu.setCr0 cpu.eax
    .ok (cpu, mem, .onward)
  | .movToCr3 => .ok ({ cpu with cr3 := cpu.eax.setWidth 64 }, mem, .onward)
  | .movToCr4 => .ok ({ cpu with cr4 := cpu.eax }, mem, .onward)
  | .loadEax address => do
    let a ← cpu.translate mem (cpu.seg .ds + address.setWidth 64)
    .ok (cpu.setEax (load32 mem a), mem, .onward)
  | .movEcx value => .ok ({ cpu with ecx := value }, mem, .onward)
  | .rdmsr =>
    if cpu.ecx = 0xC0000080 then
      .ok ({ cpu.setEax (cpu.efer.setWidth 32) with edx := (cpu.efer >>> 32).setWidth 32 }, mem,
        .onward)
    else .error .generalProtection
  | .wrmsr =>
    let value : BitVec 64 := cpu.edx ++ cpu.eax
    -- `LME` cannot change while paging is on.
    if cpu.ecx = 0xC0000080 ∧ ¬ (cpu.paging ∧ value.getLsbD 8 ≠ cpu.lme) then
      .ok ({ cpu with efer := value }, mem, .onward)
    else .error .generalProtection
  | .loadRsp address => do
    let a ← cpu.translate mem address
    .ok ({ cpu with rsp := load64 mem a }, mem, .onward)
  | .loadRax address => do
    let a ← cpu.translate mem address
    .ok ({ cpu with rax := load64 mem a }, mem, .onward)
  | .movRsp value => .ok ({ cpu with rsp := value }, mem, .onward)
  | .farJump selector target => do
    let cs ← cpu.codeSegment mem selector
    .ok ({ cpu with cs := cs }, mem, .jump (cs.base + target.setWidth 64))
  | .callRax => do
    let a ← cpu.translateWrite mem (cpu.rsp - 8)
    .ok ({ cpu with rsp := cpu.rsp - 8 }, store64 mem a back, .call cpu.rax)
  | .call function => do
    let a ← cpu.translateWrite mem (cpu.rsp - 8)
    .ok ({ cpu with rsp := cpu.rsp - 8 }, store64 mem a back, .call function)
  | .hlt => .error .stopped

/-! ### Code in blocks -/

/-- Code of one width from an address on. -/
structure CodeBlock where
  address : Word
  width : Nat
  code : List ApInstr

variable (intact : Mem → Bool) (back : Word)

/-- The processor decodes the block's instructions: at its width, from its page, and the bytes are
still there. -/
def CodeBlock.fetch (block : CodeBlock) (cpu : ApCpu) (mem : Mem) : Except ApFault Unit :=
  match cpu.translate mem block.address with
  | .ok a => if ¬ (a = block.address ∧ intact mem) then .error .notTheCode
      else if cpu.width ≠ block.width then .error .otherWidth else .ok ()
  | .error fault => .error fault

/-- The rest of a block. -/
def runBlock (block : CodeBlock) : List ApInstr → ApCpu → Mem →
    Except ApFault (ApCpu × Mem × ApNext)
  | [], _, _ => .error .stopped
  | i :: rest, cpu, mem =>
    match block.fetch intact cpu mem with
    | .error fault => .error fault
    | .ok _ =>
      match i.step back cpu mem with
      | .error fault => .error fault
      | .ok (cpu, mem, .onward) => runBlock block rest cpu mem
      | .ok outcome => .ok outcome

/-- From block to block, at most `n` of them, up to the first call. -/
def runBlocks (blocks : List CodeBlock) : Nat → Word → ApCpu → Mem →
    Except ApFault (ApCpu × Mem × Word)
  | 0, _, _, _ => .error .stopped
  | n + 1, start, cpu, mem =>
    match blocks.find? fun block => block.address = start with
    | none => .error .notTheCode
    | some block =>
      match runBlock intact back block block.code cpu mem with
      | .error fault => .error fault
      | .ok (cpu, mem, .jump target) => runBlocks blocks n target cpu mem
      | .ok (cpu, mem, .call function) => .ok (cpu, mem, function)
      | .ok (_, _, .onward) => .error .stopped

/-- **The rest of a block leaves it with `Q`**, without a fault. -/
def Leaves (block : CodeBlock) (rest : List ApInstr) (cpu : ApCpu) (mem : Mem)
    (Q : ApCpu → Mem → ApNext → Prop) : Prop :=
  ∃ cpu' mem' next, runBlock intact back block rest cpu mem = .ok (cpu', mem', next) ∧ Q cpu' mem' next

variable {intact back} {block : CodeBlock} {i : ApInstr} {rest : List ApInstr} {cpu cpu' : ApCpu}
  {mem mem' : Mem} {Q : ApCpu → Mem → ApNext → Prop}

/-- An instruction inside the block. -/
theorem Leaves.cons (fetched : block.fetch intact cpu mem = .ok ())
    (done : i.step back cpu mem = .ok (cpu', mem', .onward))
    (later : Leaves intact back block rest cpu' mem' Q) :
    Leaves intact back block (i :: rest) cpu mem Q := by
  obtain ⟨cpu'', mem'', next, run, post⟩ := later
  refine ⟨cpu'', mem'', next, ?_, post⟩
  rw [runBlock, fetched, done]
  exact run

/-- The instruction that leaves it. -/
theorem Leaves.last {next : ApNext} (fetched : block.fetch intact cpu mem = .ok ())
    (done : i.step back cpu mem = .ok (cpu', mem', next)) (leaves : next ≠ .onward)
    (post : Q cpu' mem' next) : Leaves intact back block (i :: rest) cpu mem Q := by
  refine ⟨cpu', mem', next, ?_, post⟩
  rw [runBlock, fetched, done]
  cases next with
  | onward => exact absurd rfl leaves
  | jump target => rfl
  | call function => rfl

/-! ### From block to block -/

variable {blocks : List CodeBlock} {start target : Word}

theorem runBlocks_jump (n : Nat) (found : (blocks.find? fun b => b.address = start) = some block)
    (run : runBlock intact back block block.code cpu mem = .ok (cpu', mem', .jump target)) :
    runBlocks intact back blocks (n + 1) start cpu mem =
      runBlocks intact back blocks n target cpu' mem' := by
  rw [runBlocks, found]
  dsimp only
  rw [run]

theorem runBlocks_call (n : Nat) (found : (blocks.find? fun b => b.address = start) = some block)
    (run : runBlock intact back block block.code cpu mem = .ok (cpu', mem', .call target)) :
    runBlocks intact back blocks (n + 1) start cpu mem = .ok (cpu', mem', target) := by
  rw [runBlocks, found]
  dsimp only
  rw [run]

/-! ### Addresses and segments -/

/-- The AP finds the linear address `a` at the physical address `a`. -/
def IdentityAt (mem : Mem) (root a : Word) : Prop :=
  ∃ leaf, (mmuEntries mem root a).bind List.getLast? = some leaf ∧
    (leaf.address <<< 12) + (a &&& 0xFFF) = a

variable {a : Word}

theorem translate_off (off : cpu.paging = false) (a : Word) : cpu.translate mem a = .ok a := by
  rw [ApCpu.translate, off]
  rfl

theorem translate_on (identity : IdentityAt mem cpu.cr3 a) : cpu.translate mem a = .ok a := by
  obtain ⟨leaf, found, place⟩ := identity
  rw [ApCpu.translate, found]
  split
  · exact congrArg Except.ok place
  · rfl

theorem fetch_ok {block : CodeBlock} {intact : Mem → Bool}
    (translated : cpu.translate mem block.address = .ok block.address) (same : intact mem = true)
    (width : cpu.width = block.width) : block.fetch intact cpu mem = .ok () := by
  rw [CodeBlock.fetch, translated]
  simp [same, width]

theorem setAx_ax (cpu : ApCpu) (value : BitVec 16) : (cpu.setAx value).rax.setWidth 16 = value := by
  have cleared : (~~~(0xFFFF : Word)).setWidth 16 = 0 := by decide
  rw [ApCpu.setAx, BitVec.setWidth_or, BitVec.setWidth_and, cleared]
  simp

/-- A row of `mov r, ax`. -/
theorem leaves_movSegs (cpu : ApCpu) {intact : Mem → Bool} {block : CodeBlock} {base : Word}
    {rest : List ApInstr} {Q : ApCpu → Mem → ApNext → Prop}
    (fetched : block.fetch intact cpu mem = .ok ())
    (loaded : cpu.dataSegment mem (cpu.rax.setWidth 16) = .ok base) :
    ∀ (rs : List SegReg) {seg : SegReg → Word},
      (∀ seg', (∀ r, seg' r = if r ∈ rs then base else seg r) →
        Leaves intact back block rest { cpu with seg := seg' } mem Q) →
      Leaves intact back block (rs.map .movSeg ++ rest) { cpu with seg := seg } mem Q
  | [], seg, later => later seg fun _ => rfl
  | r :: rs, seg, later => by
    have done : (ApInstr.movSeg r).step back { cpu with seg := seg } mem =
        .ok ({ cpu with seg := Function.update seg r base }, mem, .onward) := by
      have same : ({ cpu with seg := seg } : ApCpu).dataSegment mem (cpu.rax.setWidth 16) = .ok base :=
        loaded
      rw [ApInstr.step, same]
      rfl
    refine .cons fetched done (leaves_movSegs cpu fetched loaded rs fun seg' others => later seg' ?_)
    intro q
    rw [others, Function.update_apply]
    by_cases first : q = r <;> by_cases later : q ∈ rs <;> simp [first, later]

@[simp] theorem eax_setEax (cpu : ApCpu) (value : BitVec 32) : (cpu.setEax value).eax = value := by
  simp [ApCpu.eax, ApCpu.setEax]

/-- A code segment of the table, once it is loaded. -/
theorem codeSegment_found {selector : BitVec 16} {d : Segment} (mode : cpu.protectedMode = true)
    (limit : selector.toNat + 7 ≤ cpu.gdtLimit)
    (translated : cpu.translate mem (cpu.gdtBase + selector.setWidth 64) = .ok a)
    (found : segmentAt mem a 0 = d) (usable : d.access &&& 0x98 = 0x98)
    (plain : (d.flags.getLsbD 1 && d.flags.getLsbD 2) = false) :
    cpu.codeSegment mem selector =
      .ok ⟨d.base.setWidth 64, d.flags.getLsbD 1, d.flags.getLsbD 2⟩ := by
  have both : (cpu.lma && d.flags.getLsbD 1 && d.flags.getLsbD 2) = false := by
    rw [Bool.and_assoc, plain, Bool.and_false]
  rw [ApCpu.codeSegment, if_pos mode, ApCpu.descriptor, if_pos limit, translated]
  simp only [bind, Except.bind, found]
  rw [if_pos ⟨usable, by rw [both]; decide⟩]

/-- A data segment of the table. -/
theorem dataSegment_found {selector : BitVec 16} {d : Segment} (mode : cpu.protectedMode = true)
    (limit : selector.toNat + 7 ≤ cpu.gdtLimit)
    (translated : cpu.translate mem (cpu.gdtBase + selector.setWidth 64) = .ok a)
    (found : segmentAt mem a 0 = d) (usable : d.access &&& 0x9A = 0x92) :
    cpu.dataSegment mem selector = .ok (d.base.setWidth 64) := by
  rw [ApCpu.dataSegment, if_pos mode, ApCpu.descriptor, if_pos limit, translated]
  simp only [bind, Except.bind, found]
  rw [if_pos usable]

theorem identityAt_of_mapped {root : Word} {leaf : PageEntry}
    (found : mapped mem root (vpn a) = some leaf)
    (frame : leaf.address.toNat = a.toNat / 4096) (low : a.toNat < 2 ^ 48) : IdentityAt mem root a := by
  obtain ⟨above, entries, -⟩ :=
    mmuEntries_mapped (P := fun _ => True) (fun _ _ _ _ _ _ => trivial) found
  refine ⟨leaf, by rw [entries, Option.bind_some, List.getLast?_append]; rfl, ?_⟩
  apply BitVec.eq_of_toNat_eq
  have offset : (a &&& 0xFFF).toNat = a.toNat % 4096 := toNat_and_ones a 12 (by decide)
  rw [BitVec.toNat_add, offset, BitVec.toNat_shiftLeft, Nat.shiftLeft_eq, frame]
  omega

/-! ### The way into long mode -/

/-- Without paging an instruction is decoded where it lies. -/
theorem fetch_off {intact : Mem → Bool} (off : cpu.paging = false) (same : intact mem = true)
    (width : cpu.width = block.width) : block.fetch intact cpu mem = .ok () :=
  fetch_ok (translate_off off _) same width

theorem halves_append (x : BitVec 64) :
    ((x >>> 32).setWidth 32 ++ x.setWidth 32 : BitVec 64) = x := by
  apply BitVec.eq_of_getLsbD_eq
  intro i hi
  rw [BitVec.getLsbD_append]
  by_cases low : i < 32
  · simp [low]
  · have place : 32 + (i - 32) = i := by omega
    simp [low, place]
    omega

/-- The halves of `EFER`, with `LME` set in the lower one. -/
theorem efer_or_lme (efer : BitVec 64) :
    ((efer >>> 32).setWidth 32 ++ (efer.setWidth 32 ||| 0x100) : BitVec 64) = efer ||| 0x100 :=
  calc ((efer >>> 32).setWidth 32 ++ (efer.setWidth 32 ||| 0x100) : BitVec 64)
      = ((efer >>> 32).setWidth 32 ||| 0#32) ++ (efer.setWidth 32 ||| 0x100) := by
        rw [BitVec.or_zero]
    _ = ((efer >>> 32).setWidth 32 ++ efer.setWidth 32) ||| (0#32 ++ 0x100#32) :=
        BitVec.or_append.symm
    _ = efer ||| 0x100 := by rw [halves_append]; rfl

/-- **PAE and `LME`**, without paging. -/
theorem leaves_enableLme (cpu : ApCpu) {intact : Mem → Bool} {rest : List ApInstr}
    (off : cpu.paging = false) (same : intact mem = true) (width : cpu.width = block.width)
    (later : ∀ rax ecx edx, Leaves intact back block rest
      { cpu with rax := rax, ecx := ecx, edx := edx, cr4 := cpu.cr4 ||| 0x20,
                 efer := cpu.efer ||| 0x100 } mem Q) :
    Leaves intact back block ([.movFromCr4, .orEax 0x20, .movToCr4, .movEcx 0xC0000080, .rdmsr,
      .orEax 0x100, .wrmsr] ++ rest) cpu mem Q := by
  let cpu₁ : ApCpu := (cpu.setEax cpu.cr4).setEax ((cpu.setEax cpu.cr4).eax ||| 0x20)
  let cpu₂ : ApCpu := { cpu₁ with cr4 := cpu₁.eax, ecx := 0xC0000080 }
  let cpu₃ : ApCpu := { cpu₂.setEax (cpu.efer.setWidth 32) with edx := (cpu.efer >>> 32).setWidth 32 }
  let cpu₄ : ApCpu := cpu₃.setEax (cpu₃.eax ||| 0x100)
  have value₁ : cpu₁.eax = cpu.cr4 ||| 0x20 := by rw [eax_setEax, eax_setEax]
  have value₃ : cpu₃.eax = cpu.efer.setWidth 32 := eax_setEax cpu₂ _
  have rdmsr : ApInstr.rdmsr.step back cpu₂ mem = .ok (cpu₃, mem, .onward) := by
    rw [ApInstr.step, if_pos rfl]
    rfl
  have wrmsr : ApInstr.wrmsr.step back cpu₄ mem =
      .ok ({ cpu₄ with efer := cpu.efer ||| 0x100 }, mem, .onward) := by
    have allowed : cpu₄.ecx = 0xC0000080 ∧
        ¬ (cpu₄.paging ∧ (cpu₄.edx ++ cpu₄.eax).getLsbD 8 ≠ cpu₄.lme) :=
      ⟨rfl, fun both => absurd both.1 (by rw [show cpu₄.paging = false from off]; decide)⟩
    have joined : (cpu₄.edx ++ cpu₄.eax : BitVec 64) = cpu.efer ||| 0x100 := by
      rw [eax_setEax, value₃]
      exact efer_or_lme cpu.efer
    rw [ApInstr.step, if_pos allowed, joined]
  have fetched : block.fetch intact cpu mem = .ok () := fetch_off off same width
  refine .cons fetched rfl (.cons fetched rfl (.cons fetched rfl (.cons fetched rfl
    (.cons fetched rdmsr (.cons fetched rfl (.cons fetched wrmsr ?_))))))
  have done := later cpu₄.rax cpu₄.ecx cpu₄.edx
  rwa [← value₁] at done

/-- **`CR0.PG` with `LME` and PAE** turns on long mode. -/
theorem movToCr0_long (cpu : ApCpu) {v : BitVec 32} (value : cpu.eax = v)
    (on : v.getLsbD 31 = true) (mode : v.getLsbD 0 = true) (lme : cpu.lme = true)
    (pae : cpu.pae = true) (short : cpu.cs.long = false) :
    ApInstr.movToCr0.step back cpu mem =
      .ok ({ cpu with cr0 := v, efer := cpu.efer ||| 0x400 }, mem, .onward) := by
  have allowed : ¬ (¬ cpu.pae = true ∨ cpu.cs.long = true) := by
    rw [pae, short]
    decide
  have set : cpu.setCr0 cpu.eax = .ok { cpu with cr0 := v, efer := cpu.efer ||| 0x400 } := by
    rw [value, ApCpu.setCr0, if_pos on, if_neg (not_not_intro mode), if_pos lme, if_neg allowed]
  rw [ApInstr.step, set]
  rfl

end ShipOS

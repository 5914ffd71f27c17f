/-
**From the boot loader to `kernel_main` (`boot.asm`, `check_functions.asm`).**

A Multiboot2 loader leaves the processor in 32-bit protected mode without paging. `start` makes three
checks, each a call that returns or goes to `error`, builds the boot-time tables and turns on long
mode.

* `checkMultiboot_outcome`, `checkCpuid_outcome`, `checkLongMode_outcome` — when a check returns;
  `check_cpuid` changes bit 21 of `EFLAGS` and looks whether it stays changed;
* `bootError_shows` — what is on the screen after a check has failed;
* `runs_switch`, `runs_kernelMain` — the 32-bit code from the load of `cr3` on, and the 64-bit code;
* `boot_reaches_kernel` — a run of `start` ends in `kernel_main` or with the letter of the first check
  that fails.
-/

import ShipOS.Boot.Handover
import ShipOS.Smp.StartupCpu

namespace ShipOS

open ByteMem

/-! ### The checks -/

/-- The addresses the linker assigns. -/
structure BootLabels where
  text : BitVec 32
  p4Table : BitVec 32
  gdt64 : BitVec 32
  setupPageRegister : BitVec 32
  longModeStart : BitVec 32
  kernelMain : Word
  /-- Behind the calls of the three checks and of `kernel_main`. -/
  afterMultiboot : BitVec 32
  afterCpuid : BitVec 32
  afterLongMode : BitVec 32
  afterMain : Word

/-- Eight pages behind the four tables. -/
def BootLabels.stackTop (b : BootLabels) : BitVec 32 := b.p4Table + 0xC000

structure CpuidAnswer where
  eax : BitVec 32
  ecx : BitVec 32
  edx : BitVec 32

/-- What the code depends on of a processor. -/
structure BootProcessor where
  /-- The bits of `EFLAGS` that `popfd` changes, the arithmetic flags among them. -/
  popMask : BitVec 32
  arithmetic : popMask &&& 0x8D5 = 0x8D5
  /-- The arithmetic flags after an operation. -/
  flags : BitVec 32 → BitVec 32 → BitVec 32
  cpuid : BitVec 32 → CpuidAnswer

/-- The registers and the memory. The segments of the loader are flat. -/
structure BootRegs where
  eax : BitVec 32
  ecx : BitVec 32
  edx : BitVec 32
  esp : BitVec 32
  eflags : BitVec 32
  mem : Mem

inductive BootStop
  /-- Behind the last instruction of `error`: the processor goes on with whatever follows. -/
  | runsOn (s : BootRegs)
  | wildReturn
  | loops
  | fault (fault : ApFault)

namespace BootRegs

variable (p : BootProcessor) (s : BootRegs)

def push (value : BitVec 32) : BootRegs :=
  { s with esp := s.esp - 4, mem := store32 s.mem ((s.esp - 4).setWidth 64) value }

/-- What `pop` reads. -/
def top : BitVec 32 := load32 s.mem (s.esp.setWidth 64)

def drop : BootRegs := { s with esp := s.esp + 4 }

def popEax : BootRegs := { s.drop with eax := s.top }

/-- `VM` and `RF` are pushed as zero. -/
def pushfd : BootRegs := s.push (s.eflags &&& 0xFCFFFF)

def popfd : BootRegs :=
  { s.drop with eflags := (s.top &&& p.popMask) ||| (s.eflags &&& ~~~p.popMask) }

/-- The arithmetic flags after an operation on `x` and `y`. -/
def arith (x y : BitVec 32) : BootRegs :=
  { s with eflags := (s.eflags &&& ~~~0x8D5) ||| (p.flags x y &&& 0x8D5) }

def xorEax (value : BitVec 32) : BootRegs := { s.arith p s.eax value with eax := s.eax ^^^ value }

def cpuid : BootRegs :=
  { s with eax := (p.cpuid s.eax).eax, ecx := (p.cpuid s.eax).ecx, edx := (p.cpuid s.eax).edx }

def setAl (value : BitVec 8) : BootRegs :=
  { s with eax := (s.eax &&& ~~~0xFF) ||| value.setWidth 32 }

/-- `ret` to the caller. -/
def ret (back : BitVec 32) : Except BootStop BootRegs :=
  if s.top = back then .ok s.drop else .error .wildReturn

end BootRegs

/-- `mov word [a], value`: of the constant the low half. -/
def storeWord (mem : Mem) (a : Word) (value : BitVec 32) : Mem :=
  writeLE mem a 2 (value.toNat % 2 ^ 16)

/-- From `error` on. -/
def bootError (s : BootRegs) : BootStop :=
  let mem := storeWord s.mem 0xb8000 0x4f524f45
  let mem := storeWord mem 0xb8002 0x4f3a4f52
  let mem := storeWord mem 0xb8004 0x4f204f20
  let mem := writeLE mem 0xb800a 1 (s.eax.setWidth 8).toNat
  .runsOn { s with mem := mem }

variable (p : BootProcessor) (b : BootLabels)

/-- `call check_multiboot`. -/
def checkMultiboot (s : BootRegs) : Except BootStop BootRegs :=
  let s := s.push b.afterMultiboot
  let s := s.arith p s.eax 0x36d76289
  if s.eax ≠ 0x36d76289 then .error (bootError (s.setAl 0x4D))
  else s.ret b.afterMultiboot

/-- `call check_cpuid`. -/
def checkCpuid (s : BootRegs) : Except BootStop BootRegs :=
  let s := s.push b.afterCpuid
  let s := s.pushfd
  let s := s.popEax
  let s := { s with ecx := s.eax }
  let s := s.xorEax p (1#32 <<< 21)
  let s := s.push s.eax
  let s := s.popfd p
  let s := s.pushfd
  let s := s.popEax
  let s := s.push s.ecx
  let s := s.popfd p
  let s := s.arith p s.eax s.ecx
  if s.eax = s.ecx then .error (bootError (s.setAl 0x43))
  else s.ret b.afterCpuid

/-- `call check_long_mode`. -/
def checkLongMode (s : BootRegs) : Except BootStop BootRegs :=
  let s := s.push b.afterLongMode
  let s := { s with eax := 0x80000000 }
  let s := s.cpuid p
  let s := s.arith p s.eax 0x80000001
  if s.eax < 0x80000001 then .error (bootError (s.setAl 0x4C))
  else
    let s := { s with eax := 0x80000001 }
    let s := s.cpuid p
    let s := s.arith p s.edx (1#32 <<< 29)
    if s.edx &&& 1#32 <<< 29 = 0 then .error (bootError (s.setAl 0x4C))
    else s.ret b.afterLongMode

/-- The three calls of `start`. -/
def bootChecks (s : BootRegs) : Except BootStop BootRegs := do
  let s ← checkMultiboot p b s
  let s ← checkCpuid p b s
  checkLongMode p b s

/-! ### The mode switch -/

/-- From `.setup_page_register` on. -/
def switchBlock : CodeBlock where
  address := b.setupPageRegister.setWidth 64
  width := 32
  code := [.movEax b.p4Table, .movToCr3, .movFromCr4, .orEax 0x20, .movToCr4, .movEcx 0xC0000080,
    .rdmsr, .orEax 0x100, .wrmsr, .movFromCr0, .orEax 0x80000000, .orEax 0x10000, .movToCr0,
    .lgdt32 (b.gdt64 + 24), .movAx 0x10, .movSeg .ss, .movSeg .ds, .movSeg .es,
    .farJump 0x08 b.longModeStart, .hlt]

/-- From `long_mode_start` on. -/
def kernelMainBlock : CodeBlock where
  address := b.longModeStart.setWidth 64
  width := 64
  code := [.movRsp (b.stackTop.setWidth 64), .call b.kernelMain, .hlt]

/-- The instructions are in place. -/
def bootIntact (code : Nat → Byte) (size : Nat) (mem : Mem) : Bool :=
  (List.range size).all fun i => mem (b.text.setWidth 64 + BitVec.ofNat 64 i) = code i

/-- **`start`**, up to the first instruction of `kernel_main`; the loop that fills the last table
leaves 512 in `ecx`, the last entry in `eax`, and the upper half of the last product in `edx`. -/
def start (code : Nat → Byte) (size : Nat) (cpu : ApCpu) (s : BootRegs) :
    Except BootStop (ApCpu × Mem × Word) := do
  let s := { s with esp := b.stackTop }
  let s ← bootChecks p b s
  match pageTablesSetup b.p4Table (bootTable b.p4Table 1) (bootTable b.p4Table 2)
      (bootTable b.p4Table 3) s.mem with
  | .error _ => .error .loops
  | .ok mem =>
    let cpu := { cpu with rax := 0x1FF003, ecx := 512, edx := 0, rsp := s.esp.setWidth 64,
                          interrupts := s.eflags.getLsbD 9, down := s.eflags.getLsbD 10 }
    match runBlocks (bootIntact b code size) b.afterMain [switchBlock b, kernelMainBlock b] 2
        (b.setupPageRegister.setWidth 64) cpu mem with
    | .error fault => .error (.fault fault)
    | .ok reached => .ok reached

/-! ### What the checks leave -/

/-- Memory is the same but for the addresses from `lo` to below `hi`. -/
def SameBut (lo hi : Nat) (m m' : Mem) : Prop := ∀ x : Word, x.toNat < lo ∨ hi ≤ x.toNat → m' x = m x

section

variable {lo hi lo' hi' n v : Nat} {m m' m'' : Mem} {a : Word}

theorem SameBut.trans (first : SameBut lo hi m m') (second : SameBut lo hi m' m'') :
    SameBut lo hi m m'' := fun x outside => (second x outside).trans (first x outside)

theorem SameBut.mono (same : SameBut lo hi m m') (low : lo' ≤ lo) (high : hi ≤ hi') :
    SameBut lo' hi' m m' := fun x outside => same x (by omega)

theorem sameBut_writeLE (m : Mem) (low : lo ≤ a.toNat) (high : a.toNat + n ≤ hi)
    (fits : a.toNat + n ≤ 2 ^ 64) : SameBut lo hi m (writeLE m a n v) := by
  intro x outside
  have bound := x.isLt
  refine if_neg ?_
  rw [BitVec.toNat_sub]
  omega

/-- Bytes outside are as they were. -/
theorem SameBut.sameOn {k : Nat} (same : SameBut lo hi m m') (fits : a.toNat + k ≤ 2 ^ 64)
    (apart : a.toNat + k ≤ lo ∨ hi ≤ a.toNat) : SameOn a k m m' := by
  intro x inside
  refine same x ?_
  have bound := x.isLt
  have bound' := a.isLt
  rw [Within, BitVec.toNat_sub] at inside
  omega

end

variable {p b} {s s' : BootRegs}

/-- What a check that returns may change besides `eax`, `ecx`, `edx` and the arithmetic flags: two
words on the stack. -/
structure Checked (s s' : BootRegs) : Prop where
  esp : s'.esp = s.esp
  interrupts : s'.eflags.getLsbD 9 = s.eflags.getLsbD 9
  down : s'.eflags.getLsbD 10 = s.eflags.getLsbD 10
  mem : SameBut (s.esp.toNat - 8) s.esp.toNat s.mem s'.mem

theorem Checked.trans {s'' : BootRegs} (first : Checked s s') (second : Checked s' s'') :
    Checked s s'' := by
  have mem := second.mem
  rw [first.esp] at mem
  exact ⟨second.esp.trans first.esp, second.interrupts.trans first.interrupts,
    second.down.trans first.down, first.mem.trans mem⟩

/-- **The outcome of a check**: it returns, or it fails with a letter. -/
def Outcome (s : BootRegs) (passes : Prop) (letter : Byte) (result : Except BootStop BootRegs) :
    Prop :=
  (passes → ∃ s', result = .ok s' ∧ Checked s s') ∧
    (¬ passes → ∃ s' : BootRegs, result = .error (bootError (s'.setAl letter)) ∧
      SameBut (s.esp.toNat - 8) s.esp.toNat s.mem s'.mem)

/-- A push writes below the stack pointer. -/
theorem push_mem (value : BitVec 32) {lo hi : Nat} (room : lo + 4 ≤ s.esp.toNat)
    (below : s.esp.toNat ≤ hi) : SameBut lo hi s.mem (s.push value).mem := by
  have place : ((s.esp - 4).setWidth 64).toNat = s.esp.toNat - 4 := by bv_omega
  refine sameBut_writeLE s.mem ?_ ?_ ?_ <;> rw [place] <;> omega

@[simp] theorem push_top (value : BitVec 32) : (s.push value).top = value := load32_store32_self _ _ _

@[simp] theorem push_drop (value : BitVec 32) :
    (s.push value).drop = { s with mem := (s.push value).mem } := by
  simp [BootRegs.push, BootRegs.drop]

/-- The arithmetic flags are neither `IF` nor `DF`. -/
theorem arith_getLsbD (s : BootRegs) (x y : BitVec 32) {i : Nat} (inside : i < 32)
    (other : (0x8D5 : BitVec 32).getLsbD i = false) :
    (s.arith p x y).eflags.getLsbD i = s.eflags.getLsbD i := by
  simp only [BootRegs.arith, BitVec.getLsbD_or, BitVec.getLsbD_and, BitVec.getLsbD_not, other]
  simp [inside]

/-- The end of a check, in the state `s'` in which it compares. -/
theorem outcome_of_end (s' : BootRegs) {passes fails : Prop} [Decidable fails] {letter : Byte}
    {back : BitVec 32} (decides : fails ↔ ¬ passes) (top : s'.top = back) (esp : s'.esp = s.esp - 4)
    (interrupts : s'.eflags.getLsbD 9 = s.eflags.getLsbD 9)
    (down : s'.eflags.getLsbD 10 = s.eflags.getLsbD 10)
    (mem : SameBut (s.esp.toNat - 8) s.esp.toNat s.mem s'.mem) :
    Outcome s passes letter
      (if fails then .error (bootError (s'.setAl letter)) else s'.ret back) := by
  refine ⟨fun pass => ⟨s'.drop, ?_, ?_, interrupts, down, mem⟩, fun fail => ⟨s', ?_, mem⟩⟩
  · rw [if_neg fun fail => decides.mp fail pass, BootRegs.ret, if_pos top]
  · rw [BootRegs.drop, esp]
    exact BitVec.sub_add_cancel _ _
  · rw [if_pos (decides.mpr fail)]

theorem checkMultiboot_outcome (room : 8 ≤ s.esp.toNat) :
    Outcome s (s.eax = 0x36d76289) 0x4D (checkMultiboot p b s) := by
  have stack : SameBut (s.esp.toNat - 8) s.esp.toNat s.mem (s.push b.afterMultiboot).mem :=
    push_mem _ (by omega) le_rfl
  let s₁ := (s.push b.afterMultiboot).arith p s.eax 0x36d76289
  have back : s₁.top = b.afterMultiboot := push_top _
  exact outcome_of_end s₁ Iff.rfl back rfl (arith_getLsbD _ _ _ (by decide) rfl)
    (arith_getLsbD _ _ _ (by decide) rfl) stack

/-! The flags in `check_cpuid`, for the flags `E` at the call. -/

section

variable (p) (E : BitVec 32)

/-- As they are pushed first. -/
def flagsPushed : BitVec 32 := E &&& 0xFCFFFF

/-- After the attempt to change bit 21. -/
def flagsTried : BitVec 32 :=
  ((flagsPushed E ^^^ (1#32 <<< 21)) &&& p.popMask) |||
    (((E &&& ~~~0x8D5#32) ||| (p.flags (flagsPushed E) (1#32 <<< 21) &&& 0x8D5#32)) &&& ~~~p.popMask)

/-- After the old ones are popped again. -/
def flagsRestored : BitVec 32 :=
  (flagsPushed E &&& p.popMask) ||| (flagsTried p E &&& ~~~p.popMask)

/-- A flag that is pushed and cannot be popped is no arithmetic one. -/
theorem fixed_getLsbD {i : Nat} (fixed : p.popMask.getLsbD i = false) :
    (0x8D5#32).getLsbD i = false := by
  have arithmetic : (p.popMask &&& 0x8D5#32).getLsbD i = (0x8D5#32).getLsbD i :=
    congrArg (fun x => x.getLsbD i) p.arithmetic
  rw [← arithmetic, BitVec.getLsbD_and, fixed, Bool.false_and]

/-- Bit by bit: a flag that can be popped gets the pushed value, changed for bit 21. -/
theorem flagsTried_getLsbD {i : Nat} (inside : i < 32) :
    (flagsTried p E).getLsbD i =
      if p.popMask.getLsbD i then ((flagsPushed E).getLsbD i ^^ decide (i = 21))
      else E.getLsbD i := by
  have bit : (1#32 <<< 21).getLsbD i = decide (i = 21) := by
    interval_cases i <;> rfl
  simp only [flagsTried, BitVec.getLsbD_or, BitVec.getLsbD_and, BitVec.getLsbD_not,
    BitVec.getLsbD_xor, bit]
  cases fixed : p.popMask.getLsbD i with
  | true => simp
  | false =>
    rw [fixed_getLsbD p fixed]
    simp [inside]

/-- The comparison of `check_cpuid`. -/
theorem flagsTried_eq_iff :
    flagsTried p E &&& 0xFCFFFF = flagsPushed E ↔ p.popMask.getLsbD 21 = false := by
  constructor
  · intro same
    have bit := congrArg (fun x => x.getLsbD 21) same
    have tried := flagsTried_getLsbD p E (show 21 < 32 by decide)
    have pushed : (0xFCFFFF : BitVec 32).getLsbD 21 = true := rfl
    cases fixed : p.popMask.getLsbD 21 with
    | false => rfl
    | true =>
      rw [fixed] at tried
      simp only [BitVec.getLsbD_and, tried, pushed] at bit
      simp at bit
  · intro fixed
    apply BitVec.eq_of_getLsbD_eq
    intro i inside
    rw [BitVec.getLsbD_and, flagsTried_getLsbD p E inside]
    have pushed : (flagsPushed E).getLsbD i = (E.getLsbD i && (0xFCFFFF : BitVec 32).getLsbD i) :=
      BitVec.getLsbD_and
    have other : p.popMask.getLsbD i = true → i ≠ 21 := by
      rintro free rfl
      rw [fixed] at free
      cases free
    split <;> rename_i free
    · rw [pushed, decide_eq_false (other free)]
      simp
    · rw [pushed]

/-- Every other flag that is pushed is back. -/
theorem flagsRestored_getLsbD {i : Nat} (inside : i < 32)
    (pushed : (0xFCFFFF : BitVec 32).getLsbD i = true) :
    (flagsRestored p E).getLsbD i = E.getLsbD i := by
  have first : (flagsPushed E).getLsbD i = (E.getLsbD i && (0xFCFFFF : BitVec 32).getLsbD i) :=
    BitVec.getLsbD_and
  simp only [flagsRestored, BitVec.getLsbD_or, BitVec.getLsbD_and, BitVec.getLsbD_not,
    flagsTried_getLsbD p E inside, first, pushed]
  cases p.popMask.getLsbD i <;> simp [inside]

end

@[simp] theorem push_popEax (value : BitVec 32) :
    (s.push value).popEax = { s with eax := value, mem := (s.push value).mem } := by
  rw [BootRegs.popEax, push_top, push_drop]

@[simp] theorem push_popfd (value : BitVec 32) :
    (s.push value).popfd p = { s with
      eflags := (value &&& p.popMask) ||| (s.eflags &&& ~~~p.popMask)
      mem := (s.push value).mem } := by
  rw [BootRegs.popfd, push_top, push_drop]
  rfl

/-- **`check_cpuid`** passes if bit 21 of `EFLAGS` can be changed. -/
theorem checkCpuid_outcome (room : 8 ≤ s.esp.toNat) :
    Outcome s (p.popMask.getLsbD 21 = true) 0x43 (checkCpuid p b s) := by
  let E := s.eflags
  let s₁ := s.push b.afterCpuid
  let m₁ := (s₁.push (flagsPushed E)).mem
  let m₂ := (({ s₁ with mem := m₁ } : BootRegs).push (flagsPushed E ^^^ (1#32 <<< 21))).mem
  let m₃ := (({ s₁ with mem := m₂ } : BootRegs).push (flagsTried p E &&& 0xFCFFFF)).mem
  let m₄ := (({ s₁ with mem := m₃ } : BootRegs).push (flagsPushed E)).mem
  let s₂ : BootRegs := { s₁ with
    eax := flagsTried p E &&& 0xFCFFFF, ecx := flagsPushed E
    eflags := flagsRestored p E, mem := m₄ }
  let s₃ := s₂.arith p s₂.eax s₂.ecx
  have run : checkCpuid p b s =
      if flagsTried p E &&& 0xFCFFFF = flagsPushed E then .error (bootError (s₃.setAl 0x43))
      else s₃.ret b.afterCpuid := by
    unfold checkCpuid BootRegs.pushfd BootRegs.xorEax
    simp only [push_popEax, push_popfd]
    rfl
  -- the four pushes below the return address go to one word
  have word : ∀ (m : Mem) (value : BitVec 32),
      SameBut (s.esp.toNat - 8) (s.esp.toNat - 4) m
        (({ s₁ with mem := m } : BootRegs).push value).mem := by
    intro m value
    have place : s₁.esp.toNat = s.esp.toNat - 4 := by
      change (s.esp - 4).toNat = s.esp.toNat - 4
      bv_omega
    exact push_mem value (by change s.esp.toNat - 8 + 4 ≤ s₁.esp.toNat; omega) place.le
  have below : SameBut (s.esp.toNat - 8) (s.esp.toNat - 4) s₁.mem m₄ :=
    (((word _ _).trans (word _ _)).trans (word _ _)).trans (word _ _)
  have back : s₃.top = b.afterCpuid := by
    have place : (s₁.esp.setWidth 64).toNat = s.esp.toNat - 4 := by
      change ((s.esp - 4).setWidth 64).toNat = s.esp.toNat - 4
      bv_omega
    have same : SameOn (s₁.esp.setWidth 64) 4 s₁.mem m₄ :=
      below.sameOn (by omega) (.inr place.ge)
    have same' := congrArg (BitVec.ofNat 32) (same.readLE (by omega))
    exact same'.trans (push_top _)
  have stack : SameBut (s.esp.toNat - 8) s.esp.toNat s.mem m₄ :=
    (push_mem b.afterCpuid (by omega) le_rfl).trans (below.mono le_rfl (by omega))
  have flag : ∀ i < 32, (0xFCFFFF : BitVec 32).getLsbD i = true →
      (0x8D5 : BitVec 32).getLsbD i = false → s₃.eflags.getLsbD i = s.eflags.getLsbD i :=
    fun i inside pushed other =>
      (arith_getLsbD s₂ _ _ inside other).trans (flagsRestored_getLsbD p E inside pushed)
  rw [run]
  refine outcome_of_end s₃ ?_ back rfl (flag 9 (by decide) rfl rfl)
    (flag 10 (by decide) rfl rfl) stack
  rw [flagsTried_eq_iff, Bool.not_eq_true]

/-- Of two `cpuid` leaves the second is read only if the first gives a number high enough. -/
theorem checkLongMode_outcome (room : 8 ≤ s.esp.toNat) :
    Outcome s (0x80000001 ≤ (p.cpuid 0x80000000).eax ∧ (p.cpuid 0x80000001).edx &&& 1#32 <<< 29 ≠ 0)
      0x4C (checkLongMode p b s) := by
  have stack : SameBut (s.esp.toNat - 8) s.esp.toNat s.mem (s.push b.afterLongMode).mem :=
    push_mem _ (by omega) le_rfl
  let s₁ := ({ s.push b.afterLongMode with eax := 0x80000000 } : BootRegs).cpuid p
  let s₂ := s₁.arith p s₁.eax 0x80000001
  let s₃ := ({ s₂ with eax := 0x80000001 } : BootRegs).cpuid p
  let s₄ := s₃.arith p s₃.edx (1#32 <<< 29)
  have run : checkLongMode p b s =
      if (p.cpuid 0x80000000).eax < 0x80000001 then .error (bootError (s₂.setAl 0x4C))
      else if (p.cpuid 0x80000001).edx &&& 1#32 <<< 29 = 0 then .error (bootError (s₄.setAl 0x4C))
      else s₄.ret b.afterLongMode := rfl
  rw [run]
  by_cases old : (p.cpuid 0x80000000).eax < 0x80000001
  · rw [if_pos old]
    refine ⟨fun pass => absurd pass.1 (BitVec.not_le.mpr old), fun _ => ⟨s₂, rfl, stack⟩⟩
  · have new : 0x80000001 ≤ (p.cpuid 0x80000000).eax := BitVec.not_lt.mp old
    have back : s₄.top = b.afterLongMode := push_top _
    rw [if_neg old]
    refine outcome_of_end s₄ ?_ back rfl ?_ ?_ stack
    · exact ⟨fun clear pass => pass.2 clear, fun fail => not_not.mp fun set => fail ⟨new, set⟩⟩
    · exact (arith_getLsbD s₃ _ _ (by decide) rfl).trans (arith_getLsbD s₁ _ _ (by decide) rfl)
    · exact (arith_getLsbD s₃ _ _ (by decide) rfl).trans (arith_getLsbD s₁ _ _ (by decide) rfl)

/-! ### The message -/

/-- What is on the screen: an `E`, an `R` and a blank in white on red, and the letter at the sixth
place in the colours that were there. -/
structure ShowsError (letter : Byte) (mem mem' : Mem) : Prop where
  first : readLE mem' 0xb8000 2 = 0x4f45
  second : readLE mem' 0xb8002 2 = 0x4f52
  third : readLE mem' 0xb8004 2 = 0x4f20
  letter : mem' 0xb800a = letter
  rest : ∀ x : Word, x.toNat < 0xb8000 ∨ 0xb8006 ≤ x.toNat → x ≠ 0xb800a → mem' x = mem x

theorem setAl_al (letter : Byte) : (s.setAl letter).eax.setWidth 8 = letter := by
  have cleared : (~~~(0xFF : BitVec 32)).setWidth 8 = 0 := by decide
  rw [BootRegs.setAl, BitVec.setWidth_or, BitVec.setWidth_and, cleared]
  simp

/-- **`error`**: of each constant only the low half is stored. -/
theorem bootError_shows (s : BootRegs) (letter : Byte) :
    ∃ s', bootError (s.setAl letter) = .runsOn s' ∧ ShowsError letter s.mem s'.mem := by
  refine ⟨_, rfl, ?_⟩
  have value : ((s.setAl letter).eax.setWidth 8).toNat = letter.toNat := by rw [setAl_al]
  have word : ∀ (m : Mem) (a : Word) (v : BitVec 32),
      readLE (storeWord m a v) a 2 = v.toNat % 2 ^ 16 := by
    intro m a v
    rw [storeWord, readLE_writeLE_self _ _ _ _ (by decide)]
    omega
  have apart : ∀ (m : Mem) {a c : Word} (v n k : Nat), Apart a n c k →
      readLE (writeLE m a n v) c k = readLE m c k := fun m a c v n k apart =>
    readLE_writeLE_apart m v apart
  refine ⟨?_, ?_, ?_, ?_, ?_⟩
  · dsimp only
    rw [apart _ _ _ _ (by constructor <;> decide), storeWord,
      apart _ _ _ _ (by constructor <;> decide), storeWord,
      apart _ _ _ _ (by constructor <;> decide), word]
    rfl
  · dsimp only
    rw [apart _ _ _ _ (by constructor <;> decide), storeWord,
      apart _ _ _ _ (by constructor <;> decide), word]
    rfl
  · dsimp only
    rw [apart _ _ _ _ (by constructor <;> decide), word]
    rfl
  · dsimp only
    rw [value, writeLE]
    simp
  · intro x outside other
    dsimp only
    have last : ¬ (x - 0xb800a).toNat < 1 := by bv_omega
    have outside₁ : ¬ (x - 0xb8004).toNat < 2 := by bv_omega
    have outside₂ : ¬ (x - 0xb8002).toNat < 2 := by bv_omega
    have outside₃ : ¬ (x - 0xb8000).toNat < 2 := by bv_omega
    rw [writeLE, if_neg last, storeWord, writeLE, if_neg outside₁, storeWord, writeLE,
      if_neg outside₂, storeWord, writeLE, if_neg outside₃]
    rfl

/-! ### The tables -/

theorem mapP1Table_same {p1Table : BitVec 32} (fits : p1Table.toNat + 4096 ≤ 2 ^ 32) :
    ∀ {fuel : Nat} {ecx : BitVec 32} {mem mem' : Mem}, ecx.toNat < 512 →
      mapP1Table p1Table fuel ecx mem = .ok mem' →
        SameBut p1Table.toNat (p1Table.toNat + 4096) mem mem' := by
  intro fuel
  induction fuel with
  | zero => intro ecx mem mem' _ run; cases run
  | succ fuel ih =>
    intro ecx mem mem' inside run
    have place : ((p1Table + ecx * 8).setWidth 64).toNat = p1Table.toNat + 8 * ecx.toNat := by
      bv_omega
    have stored : SameBut p1Table.toNat (p1Table.toNat + 4096) mem
        (store32 mem ((p1Table + ecx * 8).setWidth 64) (0x1000 * ecx ||| 0b11)) := by
      refine sameBut_writeLE mem ?_ ?_ ?_ <;> omega
    rw [mapP1Table] at run
    split at run <;> rename_i more
    · have next : (ecx + 1).toNat < 512 := by
        by_contra past
        have last : ecx + 1 = 512 := by bv_omega
        rw [last] at more
        exact absurd more (by decide)
      exact stored.trans (ih next run)
    · cases run
      exact stored

/-- `page_tables_setup` writes to the four tables. -/
theorem pageTablesSetup_same {p4Table : BitVec 32} (fits : p4Table.toNat + 4 * 4096 ≤ 2 ^ 32)
    {mem mem' : Mem} (run : pageTablesSetup p4Table (bootTable p4Table 1) (bootTable p4Table 2)
      (bootTable p4Table 3) mem = .ok mem') :
    SameBut p4Table.toNat (p4Table.toNat + 4 * 4096) mem mem' := by
  have table : ∀ d < 4, (bootTable p4Table d).toNat = p4Table.toNat + 4096 * d := fun d deep =>
    bootTable_toNat fits deep
  have store : ∀ (m : Mem) (d : Nat) (v : BitVec 32), d < 4 →
      SameBut p4Table.toNat (p4Table.toNat + 4 * 4096) m
        (store32 m ((bootTable p4Table d).setWidth 64) v) := by
    intro m d v deep
    have place : ((bootTable p4Table d).setWidth 64).toNat = p4Table.toNat + 4096 * d := by
      rw [BitVec.toNat_setWidth, table d deep]
      omega
    refine sameBut_writeLE m ?_ ?_ ?_ <;> omega
  have loop := mapP1Table_same (by rw [table 3 (by decide)]; omega) (by decide) run
  rw [table 3 (by decide)] at loop
  have top : bootTable p4Table 0 = p4Table := BitVec.add_zero _
  have first := store mem 0 (bootTable p4Table 1 ||| 0b11) (by decide)
  rw [top] at first
  exact ((first.trans (store _ 1 _ (by decide))).trans (store _ 2 _ (by decide))).trans
    (loop.mono (by omega) (by omega))

/-! ### The descriptor table -/

/-- The first three entries of `gdt64`. -/
def gdt64Bytes : List Byte :=
  List.replicate 8 0 ++ [0, 0, 0, 0, 0, 0x9A, 0x20, 0] ++ [0, 0, 0, 0, 0, 0x92, 0, 0]

/-- **What the loader leaves in memory**, the kernel image below 2 MB: clear tables and behind them
the stack, and elsewhere the instructions and the descriptor table with its pointer. -/
structure BootLoaded (L : Bounds) (b : BootLabels) (code : Nat → Byte) (size : Nat) (mem : Mem) :
    Prop where
  image : BootImage L b.p4Table mem
  stack : b.p4Table.toNat + 0xC000 ≤ L.kend.toNat
  fits : L.kend.toNat ≤ initPhystop.toNat
  intact : bootIntact b code size mem = true
  codeApart : b.text.toNat + size ≤ b.p4Table.toNat ∨ b.p4Table.toNat + 0xC000 ≤ b.text.toNat
  codeLow : b.text.toNat + size ≤ initPhystop.toNat
  switchLow : b.setupPageRegister.toNat < initPhystop.toNat
  longLow : b.longModeStart.toNat < initPhystop.toNat
  different : b.setupPageRegister ≠ b.longModeStart
  table : ∀ i < 24, mem (b.gdt64.setWidth 64 + BitVec.ofNat 64 i) = gdt64Bytes.getD i 0
  limit : readLE mem (b.gdt64.setWidth 64 + 24) 2 = 23
  base : readLE mem (b.gdt64.setWidth 64 + 26) 4 = b.gdt64.toNat
  tableApart : b.gdt64.toNat + 34 ≤ b.p4Table.toNat ∨ b.p4Table.toNat + 0xC000 ≤ b.gdt64.toNat
  tableLow : b.gdt64.toNat + 34 ≤ initPhystop.toNat

section

variable {L : Bounds} {code : Nat → Byte} {size : Nat} {mem mem' : Mem}

/-- The code and the descriptor table are as they were while only tables and stack change. -/
theorem BootLoaded.frame (loaded : BootLoaded L b code size mem)
    (same : SameBut b.p4Table.toNat (b.p4Table.toNat + 0xC000) mem mem') :
    bootIntact b code size mem' = true ∧ SameOn (b.gdt64.setWidth 64) 34 mem mem' := by
  have top : initPhystop.toNat = 0x200000 := rfl
  have codeApart := loaded.codeApart
  have codeLow := loaded.codeLow
  have tableApart := loaded.tableApart
  have tableLow := loaded.tableLow
  refine ⟨?_, same.sameOn ?_ ?_⟩
  · have intact := loaded.intact
    rw [bootIntact, List.all_eq_true] at intact ⊢
    intro i member
    have inside := List.mem_range.mp member
    rw [same _ ?_]
    · exact intact i member
    · bv_omega
  · bv_omega
  · bv_omega

/-- A number read at a distance from `a`. -/
theorem readLE_shift (m : Mem) (a : Word) : ∀ (n : Nat) (x : Word),
    readLE (fun y => m (a + y)) x n = readLE m (a + x) n
  | 0, _ => rfl
  | n + 1, x => by
    rw [readLE, readLE, readLE_shift m a n, BitVec.add_assoc]

theorem segmentAt_shift (m : Mem) (a : Word) (entry : Nat) :
    segmentAt (fun y => m (a + y)) 0 entry = segmentAt m a entry := by
  have origin : ∀ x : Word, 0 + x = x := BitVec.zero_add
  simp only [segmentAt, part, readLE_shift, origin]

/-- The table of the source, at the address 0. -/
def gdt64Image : Mem := fun x => gdt64Bytes.getD x.toNat 0

theorem gdt64Image_segments :
    segmentAt gdt64Image 0 8 = ⟨0, 0, 0x9A, 2⟩ ∧ segmentAt gdt64Image 0 16 = ⟨0, 0, 0x92, 0⟩ := by
  decide +kernel

/-- **The descriptor table as the processor reads it.** -/
structure Gdt64 (b : BootLabels) (mem : Mem) : Prop where
  limit : readLE mem (b.gdt64.setWidth 64 + 24) 2 = 23
  base : readLE mem (b.gdt64.setWidth 64 + 26) 4 = b.gdt64.toNat
  code : segmentAt mem (b.gdt64.setWidth 64 + 8) 0 = ⟨0, 0, 0x9A, 2⟩
  data : segmentAt mem (b.gdt64.setWidth 64 + 16) 0 = ⟨0, 0, 0x92, 0⟩

theorem BootLoaded.gdt64 (loaded : BootLoaded L b code size mem)
    (same : SameOn (b.gdt64.setWidth 64) 34 mem mem') : Gdt64 b mem' := by
  have bytes : SameOn (0 + BitVec.ofNat 64 0) 24 gdt64Image
      fun y => mem' (b.gdt64.setWidth 64 + y) := by
    intro x inside
    have low : x.toNat < 24 := by
      rw [Within] at inside
      simpa using inside
    have byte := loaded.table x.toNat low
    rw [BitVec.ofNat_toNat, BitVec.setWidth_eq] at byte
    have kept : mem' (b.gdt64.setWidth 64 + x) = mem (b.gdt64.setWidth 64 + x) :=
      same _ (by unfold Within; bv_omega)
    exact kept.trans byte
  have segment : ∀ entry, entry + 8 ≤ 24 →
      segmentAt mem' (b.gdt64.setWidth 64 + BitVec.ofNat 64 entry) 0 =
        segmentAt gdt64Image 0 entry := by
    intro entry inside
    rw [segmentAt_inside, Nat.add_zero, ← segmentAt_shift]
    exact segmentAt_congr bytes (Nat.zero_le _) (by omega)
  refine ⟨?_, ?_, (segment 8 (by decide)).trans gdt64Image_segments.1,
    (segment 16 (by decide)).trans gdt64Image_segments.2⟩
  · have part : SameOn (b.gdt64.setWidth 64 + 24) 2 mem mem' := same.mono (by bv_omega)
    rw [part.readLE (by decide), loaded.limit]
  · have part : SameOn (b.gdt64.setWidth 64 + 26) 4 mem mem' := same.mono (by bv_omega)
    rw [part.readLE (by decide), loaded.base]

/-! ### The run -/

/-- The tables map the first 2 MB to itself. -/
theorem BootTables.identityAt {root : Word} (boot : BootTables L mem root initPhystop) {a : Word}
    (low : a.toNat < initPhystop.toNat) : IdentityAt mem root a := by
  obtain ⟨entry, found, frame, -⟩ := boot.identity a low
  exact identityAt_of_mapped found frame (low.trans (by decide))

/-- From `.update_lgdr_register` on: the table, the segments and the jump. -/
theorem loads_gdt64 (cpu : ApCpu) (back : Word) (table : Gdt64 b mem)
    (intact : bootIntact b code size mem = true) (low : b.gdt64.toNat + 34 ≤ initPhystop.toNat)
    (identity : ∀ a : Word, a.toNat < initPhystop.toNat → IdentityAt mem cpu.cr3 a)
    (place : b.setupPageRegister.toNat < initPhystop.toNat) (mode : cpu.protectedMode = true)
    (width : cpu.width = 32) (ds : cpu.seg .ds = 0) :
    Leaves (bootIntact b code size) back (switchBlock b)
      [.lgdt32 (b.gdt64 + 24), .movAx 0x10, .movSeg .ss, .movSeg .ds, .movSeg .es,
        .farJump 0x08 b.longModeStart, .hlt] cpu mem fun cpu' mem' next =>
      mem' = mem ∧ next = .jump (b.longModeStart.setWidth 64) ∧ cpu'.cr0 = cpu.cr0 ∧
      cpu'.cr3 = cpu.cr3 ∧ cpu'.efer = cpu.efer ∧ cpu'.cs = ⟨0, true, false⟩ ∧
      (∀ r ∈ [SegReg.ss, .ds, .es], cpu'.seg r = 0) ∧ cpu'.interrupts = cpu.interrupts := by
  have top : initPhystop.toNat = 0x200000 := rfl
  have here : ∀ a : Word, a.toNat < 0x200000 → ∀ cpu' : ApCpu, cpu'.cr3 = cpu.cr3 →
      cpu'.translate mem a = .ok a := fun a inside cpu' same =>
    translate_on (by rw [same]; exact identity a inside)
  have fetched : (switchBlock b).fetch (bootIntact b code size) cpu mem = .ok () :=
    fetch_ok (here _ (by change (b.setupPageRegister.setWidth 64).toNat < _; bv_omega) cpu rfl)
      intact width
  let cpu₁ : ApCpu := { cpu with gdtLimit := 23, gdtBase := b.gdt64.setWidth 64 }
  have table₁ : (ApInstr.lgdt32 (b.gdt64 + 24)).step back cpu mem = .ok (cpu₁, mem, .onward) := by
    have address : cpu.seg .ds + (b.gdt64 + 24).setWidth 64 = b.gdt64.setWidth 64 + 24 := by
      rw [ds]
      bv_omega
    have found : cpu.translate mem (cpu.seg .ds + (b.gdt64 + 24).setWidth 64) =
        .ok (b.gdt64.setWidth 64 + 24) := by
      rw [address]
      exact here _ (by bv_omega) cpu rfl
    have behind : b.gdt64.setWidth 64 + 24 + 2 = b.gdt64.setWidth 64 + 26 := by
      rw [BitVec.add_assoc]
      rfl
    have value : BitVec.ofNat 64 b.gdt64.toNat = b.gdt64.setWidth 64 := BitVec.ofNat_toNat _ _
    rw [ApInstr.step, found]
    simp only [bind, Except.bind, behind, table.limit, table.base, value]
    rfl
  let cpu₂ : ApCpu := cpu₁.setAx 0x10
  have mode₂ : cpu₂.protectedMode = true := mode
  have limit₂ : cpu₂.gdtLimit = 23 := rfl
  have entry : ∀ (cpu' : ApCpu) (selector : BitVec 16) (offset : Word), cpu'.cr3 = cpu.cr3 →
      cpu'.gdtBase = b.gdt64.setWidth 64 → selector.setWidth 64 = offset → offset.toNat ≤ 16 →
      cpu'.translate mem (cpu'.gdtBase + selector.setWidth 64) =
        .ok (b.gdt64.setWidth 64 + offset) := by
    intro cpu' selector offset root base same small
    rw [base, same]
    exact here _ (by bv_omega) cpu' root
  have data : cpu₂.dataSegment mem (cpu₂.rax.setWidth 16) = .ok 0 := by
    rw [setAx_ax, dataSegment_found mode₂ (by rw [limit₂]; decide)
      (entry cpu₂ 0x10 16 rfl rfl (by decide) (by decide)) table.data (by decide)]
    rfl
  refine .cons fetched table₁ (.cons fetched rfl
    (leaves_movSegs cpu₂ fetched data [.ss, .ds, .es] fun seg segs => ?_))
  let cpu₃ : ApCpu := { cpu₂ with seg := seg }
  have jump : (ApInstr.farJump 0x08 b.longModeStart).step back cpu₃ mem =
      .ok ({ cpu₃ with cs := ⟨0, true, false⟩ }, mem, .jump (b.longModeStart.setWidth 64)) := by
    have mode₃ : cpu₃.protectedMode = true := mode
    have limit₃ : cpu₃.gdtLimit = 23 := rfl
    rw [ApInstr.step, codeSegment_found mode₃ (by rw [limit₃]; decide)
      (entry cpu₃ 0x08 8 rfl rfl (by decide) (by decide)) table.code (by decide) (by decide)]
    have flat : (0 : BitVec 32).setWidth 64 + b.longModeStart.setWidth 64 =
        b.longModeStart.setWidth 64 := BitVec.zero_add _
    simp only [bind, Except.bind, flat]
    rfl
  refine .last fetched jump ?_ ⟨rfl, rfl, rfl, rfl, rfl, rfl, ?_, rfl⟩
  · intro same
    cases same
  · intro r member
    rw [show ({ cpu₃ with cs := ⟨0, true, false⟩ } : ApCpu).seg r = seg r from rfl, segs r,
      if_pos member]

/-- **The 32-bit code from the load of `cr3` on.** -/
theorem runs_switch (cpu : ApCpu) (back : Word) (table : Gdt64 b mem)
    (intact : bootIntact b code size mem = true) (low : b.gdt64.toNat + 34 ≤ initPhystop.toNat)
    (identity : ∀ a : Word, a.toNat < initPhystop.toNat → IdentityAt mem (b.p4Table.setWidth 64) a)
    (place : b.setupPageRegister.toNat < initPhystop.toNat) (mode : cpu.protectedMode = true)
    (off : cpu.paging = false) (short : cpu.lma = false) (cs : cpu.cs = ⟨0, false, true⟩)
    (ds : cpu.seg .ds = 0) :
    Leaves (bootIntact b code size) back (switchBlock b) (switchBlock b).code cpu mem
      fun cpu' mem' next =>
        mem' = mem ∧ next = .jump (b.longModeStart.setWidth 64) ∧
        cpu'.cr0 = cpu.cr0 ||| 0x80000000 ||| 0x10000 ∧ cpu'.cr3 = b.p4Table.setWidth 64 ∧
        cpu'.lma = true ∧ cpu'.cs = ⟨0, true, false⟩ ∧
        (∀ r ∈ [SegReg.ss, .ds, .es], cpu'.seg r = 0) ∧ cpu'.interrupts = cpu.interrupts := by
  have width : cpu.width = (switchBlock b).width := by
    rw [ApCpu.width, short, cs]
    rfl
  have fetched : (switchBlock b).fetch (bootIntact b code size) cpu mem = .ok () :=
    fetch_off off intact width
  let cpu₁ : ApCpu := { cpu.setEax b.p4Table with cr3 := (cpu.setEax b.p4Table).eax.setWidth 64 }
  have root : cpu₁.cr3 = b.p4Table.setWidth 64 := by
    change (cpu.setEax b.p4Table).eax.setWidth 64 = b.p4Table.setWidth 64
    rw [eax_setEax]
  refine .cons fetched rfl (.cons fetched rfl
    (leaves_enableLme cpu₁ off intact width fun rax ecx edx => ?_))
  let cpu₂ : ApCpu := { cpu₁ with
    rax := rax, ecx := ecx, edx := edx, cr4 := cpu₁.cr4 ||| 0x20, efer := cpu₁.efer ||| 0x100 }
  let cpu₃ : ApCpu := cpu₂.setEax cpu₂.cr0
  let cpu₄ : ApCpu := cpu₃.setEax (cpu₃.eax ||| 0x80000000)
  let cpu₅ : ApCpu := cpu₄.setEax (cpu₄.eax ||| 0x10000)
  have value : cpu₅.eax = cpu.cr0 ||| 0x80000000 ||| 0x10000 := by
    rw [eax_setEax, eax_setEax, eax_setEax]
    rfl
  let cpu₆ : ApCpu := { cpu₅ with
    cr0 := cpu.cr0 ||| 0x80000000 ||| 0x10000, efer := cpu₅.efer ||| 0x400 }
  have on₆ : (cpu.cr0 ||| 0x80000000 ||| 0x10000).getLsbD 31 = true := by
    rw [BitVec.getLsbD_or, BitVec.getLsbD_or]
    simp
  have mode₆ : (cpu.cr0 ||| 0x80000000 ||| 0x10000).getLsbD 0 = true := by
    rw [BitVec.getLsbD_or, BitVec.getLsbD_or, show cpu.cr0.getLsbD 0 = true from mode]
    rfl
  have lme : cpu₅.lme = true := by
    rw [ApCpu.lme, show cpu₅.efer = cpu.efer ||| 0x100 from rfl, BitVec.getLsbD_or]
    simp
  have pae : cpu₅.pae = true := by
    rw [ApCpu.pae, show cpu₅.cr4 = cpu.cr4 ||| 0x20 from rfl, BitVec.getLsbD_or]
    simp
  have notLong : cpu₅.cs.long = false := by rw [show cpu₅.cs = _ from cs]
  have enter : ApInstr.movToCr0.step back cpu₅ mem = .ok (cpu₆, mem, .onward) :=
    movToCr0_long cpu₅ value on₆ mode₆ lme pae notLong
  have short₂ : cpu₂.lma = false := by
    rw [ApCpu.lma, show cpu₂.efer = cpu.efer ||| 0x100 from rfl, BitVec.getLsbD_or,
      show cpu.efer.getLsbD 10 = false from short]
    rfl
  have fetched₂ : (switchBlock b).fetch (bootIntact b code size) cpu₂ mem = .ok () :=
    fetch_off (show cpu₂.paging = false from off) intact
      (by rw [ApCpu.width, short₂, show cpu₂.cs = _ from cs]; rfl)
  have long₆ : cpu₆.lma = true := by
    rw [ApCpu.lma, show cpu₆.efer = cpu₅.efer ||| 0x400 from rfl, BitVec.getLsbD_or]
    simp
  have width₆ : cpu₆.width = 32 := by
    rw [ApCpu.width, show cpu₆.cs = _ from cs, Bool.and_false]
    rfl
  have identity₆ : ∀ a : Word, a.toNat < initPhystop.toNat → IdentityAt mem cpu₆.cr3 a := by
    rw [show cpu₆.cr3 = b.p4Table.setWidth 64 from root]
    exact identity
  obtain ⟨cpu', mem', next, run, same, jump, cr0, cr3, efer, rest⟩ :=
    loads_gdt64 cpu₆ back table intact low identity₆ place mode₆ width₆ ds
  refine .cons fetched₂ rfl (.cons fetched₂ rfl (.cons fetched₂ rfl (.cons fetched₂ enter
    ⟨cpu', mem', next, run, same, jump, cr0, cr3.trans root, ?_, rest⟩)))
  rw [ApCpu.lma, efer]
  exact long₆

/-- The stack pointer does not matter for the width. -/
theorem width_withRsp (cpu : ApCpu) (rsp : Word) :
    ({ cpu with rsp := rsp } : ApCpu).width = cpu.width := rfl

/-- **The 64-bit code**: the stack, and the call of `kernel_main`. -/
theorem runs_kernelMain (cpu : ApCpu) (back : Word) (intact : bootIntact b code size mem = true)
    (long : cpu.lma = true) (cs : cpu.cs = ⟨0, true, false⟩)
    (place : IdentityAt mem cpu.cr3 (b.longModeStart.setWidth 64))
    (stack : IdentityAt mem cpu.cr3 (b.stackTop.setWidth 64 - 8))
    (writable : effectiveRw mem cpu.cr3 (b.stackTop.setWidth 64 - 8) = true) :
    Leaves (bootIntact b code size) back (kernelMainBlock b) (kernelMainBlock b).code cpu mem
      fun cpu' mem' next =>
        mem' = store64 mem (b.stackTop.setWidth 64 - 8) back ∧ next = .call b.kernelMain ∧
        cpu' = { cpu with rsp := b.stackTop.setWidth 64 - 8 } := by
  have width : cpu.width = (kernelMainBlock b).width := by
    rw [ApCpu.width, long, cs]
    rfl
  have fetched : (kernelMainBlock b).fetch (bootIntact b code size) cpu mem = .ok () :=
    fetch_ok (translate_on place) intact width
  let cpu₁ : ApCpu := { cpu with rsp := b.stackTop.setWidth 64 }
  have width₁ : cpu₁.width = (kernelMainBlock b).width := (width_withRsp cpu _).trans width
  have fetched₁ : (kernelMainBlock b).fetch (bootIntact b code size) cpu₁ mem = .ok () :=
    fetch_ok (translate_on (show IdentityAt mem cpu₁.cr3 _ from place)) intact width₁
  have call : (ApInstr.call b.kernelMain).step back cpu₁ mem =
      .ok ({ cpu with rsp := b.stackTop.setWidth 64 - 8 },
        store64 mem (b.stackTop.setWidth 64 - 8) back, .call b.kernelMain) := by
    have push : cpu₁.translateWrite mem (b.stackTop.setWidth 64 - 8) =
        .ok (b.stackTop.setWidth 64 - 8) := by
      have right : effectiveRw mem cpu₁.cr3 (b.stackTop.setWidth 64 - 8) = true := writable
      rw [ApCpu.translateWrite, right, Bool.not_true, Bool.and_false, if_neg (by decide)]
      exact translate_on stack
    rw [ApInstr.step, push]
    rfl
  have moved : (ApInstr.movRsp (b.stackTop.setWidth 64)).step back cpu mem =
      .ok (cpu₁, mem, .onward) := by
    rw [ApInstr.step]
  refine .cons fetched moved (.last fetched₁ call ?_ ⟨rfl, rfl, rfl⟩)
  intro same
  cases same

/-! ### From the loader to the kernel -/

/-- The tables are clear as long as only the stack changes. -/
theorem BootImage.frame (image : BootImage L b.p4Table mem) {lo hi : Nat}
    (same : SameBut lo hi mem mem') (above : b.p4Table.toNat + 4 * 4096 ≤ lo) :
    BootImage L b.p4Table mem' := by
  refine ⟨image.aligned, image.low, image.high, image.width, fun k few => ?_⟩
  have width := image.width
  have place : (b.p4Table.setWidth 64 + BitVec.ofNat 64 (4 * k)).toNat = b.p4Table.toNat + 4 * k := by
    bv_omega
  have kept : SameOn (b.p4Table.setWidth 64 + BitVec.ofNat 64 (4 * k)) 4 mem mem' :=
    same.sameOn (by omega) (.inl (by omega))
  rw [load32, kept.readLE (by decide)]
  exact image.clear k few

/-- The entries of the tables are in the four pages. -/
theorem sameEntries_of_sameBut {mem₀ : Mem} (image : BootImage L b.p4Table mem₀)
    (entries : ∀ d < 4, ∀ j < 512, load64 mem (slot ((bootTable b.p4Table d).setWidth 64) j) =
      (bootEntry b.p4Table d j).setWidth 64) {lo hi : Nat} (same : SameBut lo hi mem mem')
    (above : b.p4Table.toNat + 4 * 4096 ≤ lo) :
    SameEntries (b.p4Table.setWidth 64) mem mem' := by
  intro q t i within found
  obtain ⟨-, rfl⟩ := (boot_tableAt image entries within t).mp found
  have width := image.width
  have small := i.isLt
  have place : (slot ((bootTable b.p4Table q.length).setWidth 64) i.val).toNat =
      b.p4Table.toNat + (4 * (1024 * q.length + 2 * i.val)) := by
    rw [boot_slot width (by omega) i.val]
    bv_omega
  exact (same.sameOn (by omega) (.inl (by omega))).load64

/-- **The verdict of the checks**: the letter of the first one that fails. -/
def bootVerdict (p : BootProcessor) (eax : BitVec 32) : Option Byte :=
  if eax ≠ 0x36d76289 then some 0x4D
  else if p.popMask.getLsbD 21 = false then some 0x43
  else if (p.cpuid 0x80000000).eax < 0x80000001 ∨ (p.cpuid 0x80000001).edx &&& 1#32 <<< 29 = 0 then
    some 0x4C
  else none

/-- How a Multiboot2 loader leaves the processor: 32-bit protected mode with flat segments. -/
structure LoaderState (cpu : ApCpu) : Prop where
  mode : cpu.protectedMode = true
  off : cpu.paging = false
  short : cpu.lma = false
  cs : cpu.cs = ⟨0, false, true⟩
  ds : cpu.seg .ds = 0

/-- What several checks come to: they all return, or one fails with a letter. -/
def Verdict (s : BootRegs) (verdict : Option Byte) (result : Except BootStop BootRegs) : Prop :=
  (∀ letter, verdict = some letter →
    ∃ s' : BootRegs, result = .error (bootError (s'.setAl letter)) ∧
      SameBut (s.esp.toNat - 8) s.esp.toNat s.mem s'.mem) ∧
  (verdict = none → ∃ s', result = .ok s' ∧ Checked s s')

section

variable {passes fails : Prop} [Decidable fails] {letter : Byte} {verdict : Option Byte}
  {result : Except BootStop BootRegs} {next : BootRegs → Except BootStop BootRegs}

/-- The last check. -/
theorem Outcome.last (check : Outcome s passes letter result) (decides : fails ↔ ¬ passes) :
    Verdict s (if fails then some letter else none) result := by
  by_cases pass : passes
  · rw [if_neg fun fail => decides.mp fail pass]
    exact ⟨fun _ other => (by cases other), fun _ => check.1 pass⟩
  · rw [if_pos (decides.mpr pass)]
    refine ⟨?_, fun other => by cases other⟩
    rintro _ ⟨⟩
    exact check.2 pass

/-- One check before the others. -/
theorem Outcome.bind (check : Outcome s passes letter result) (decides : fails ↔ ¬ passes)
    (onward : ∀ s', Checked s s' → Verdict s' verdict (next s')) :
    Verdict s (if fails then some letter else verdict) (result >>= next) := by
  by_cases pass : passes
  · obtain ⟨s₁, run, checked⟩ := check.1 pass
    obtain ⟨failed, passed⟩ := onward s₁ checked
    rw [if_neg fun fail => decides.mp fail pass, run]
    refine ⟨fun letter' which => ?_, fun accepted => ?_⟩
    · obtain ⟨s', run', same⟩ := failed letter' which
      rw [checked.esp] at same
      exact ⟨s', run', checked.mem.trans same⟩
    · obtain ⟨s', run', checked'⟩ := passed accepted
      exact ⟨s', run', checked.trans checked'⟩
  · obtain ⟨s', run, same⟩ := check.2 pass
    rw [if_pos (decides.mpr pass), run]
    refine ⟨?_, fun other => by cases other⟩
    rintro _ ⟨⟩
    exact ⟨s', rfl, same⟩

end

/-- **The three checks** in their order. -/
theorem bootChecks_outcome (p : BootProcessor) (b : BootLabels) (room : 8 ≤ s.esp.toNat) :
    Verdict s (bootVerdict p s.eax) (bootChecks p b s) := by
  have onward : ∀ {s' : BootRegs}, Checked s s' → 8 ≤ s'.esp.toNat := fun checked => by
    rw [checked.esp]
    exact room
  have decides : ((p.cpuid 0x80000000).eax < 0x80000001 ∨
      (p.cpuid 0x80000001).edx &&& 1#32 <<< 29 = 0) ↔
      ¬ (0x80000001 ≤ (p.cpuid 0x80000000).eax ∧ (p.cpuid 0x80000001).edx &&& 1#32 <<< 29 ≠ 0) := by
    rw [not_and_or, not_not, BitVec.not_le]
  have fixed : p.popMask.getLsbD 21 = false ↔ ¬ p.popMask.getLsbD 21 = true := by
    rw [Bool.not_eq_true]
  refine (checkMultiboot_outcome room).bind Iff.rfl fun s₁ checked₁ => ?_
  refine (checkCpuid_outcome (onward checked₁)).bind fixed fun s₂ checked₂ => ?_
  exact (checkLongMode_outcome (onward (checked₁.trans checked₂))).last decides

/-- The addresses of the stack's end. -/
theorem BootLoaded.stackTop (loaded : BootLoaded L b code size mem) :
    b.stackTop.toNat = b.p4Table.toNat + 0xC000 ∧
      (b.stackTop.setWidth 64 - 8).toNat = b.p4Table.toNat + 0xBFF8 := by
  have top : initPhystop.toNat = 0x200000 := rfl
  have stack := loaded.stack
  have fits := loaded.fits
  unfold BootLabels.stackTop
  constructor <;> bv_omega

/-- From the checks on, in a memory whose stack alone has changed. -/
theorem runs_on {mem₀ : Mem} (loaded : BootLoaded L b code size mem₀) (back : Word) (cpu : ApCpu)
    (entry : LoaderState cpu)
    (same : SameBut (b.stackTop.toNat - 8) b.stackTop.toNat mem₀ mem) :
    ∃ mem₁, pageTablesSetup b.p4Table (bootTable b.p4Table 1) (bootTable b.p4Table 2)
        (bootTable b.p4Table 3) mem = .ok mem₁ ∧
      ∃ cpu' mem', runBlocks (bootIntact b code size) back [switchBlock b, kernelMainBlock b] 2
          (b.setupPageRegister.setWidth 64) cpu mem₁ = .ok (cpu', mem', b.kernelMain) ∧
        cpu'.width = 64 ∧ cpu'.paging = true ∧ cpu'.cr3 = b.p4Table.setWidth 64 ∧
        (∀ r ∈ [SegReg.ss, .ds, .es], cpu'.seg r = 0) ∧ cpu'.interrupts = cpu.interrupts ∧
        cpu'.rsp = b.stackTop.setWidth 64 - 8 ∧ load64 mem' cpu'.rsp = back ∧
        BootTables L mem' (b.p4Table.setWidth 64) initPhystop ∧
        SameBut b.p4Table.toNat (b.p4Table.toNat + 0xC000) mem₀ mem' := by
  obtain ⟨stackEnd, slotPlace⟩ := loaded.stackTop
  have top : initPhystop.toNat = 0x200000 := rfl
  have inside := loaded.stack
  have fits := loaded.fits
  have image : BootImage L b.p4Table mem := loaded.image.frame same (by omega)
  obtain ⟨mem₁, setup, boot⟩ := pageTablesSetup_bootTables image
  obtain ⟨mem₂, setup', entries⟩ := pageTablesSetup_entries image
  obtain rfl : mem₁ = mem₂ := Except.ok.inj (setup.symm.trans setup')
  have changed : SameBut b.p4Table.toNat (b.p4Table.toNat + 0xC000) mem₀ mem₁ :=
    (same.mono (by omega) (by omega)).trans
      ((pageTablesSetup_same image.width setup).mono le_rfl (by omega))
  obtain ⟨intact, table⟩ := loaded.frame changed
  have identity : ∀ a : Word, a.toNat < initPhystop.toNat →
      IdentityAt mem₁ (b.p4Table.setWidth 64) a := fun a low => boot.identityAt low
  have low : (b.stackTop.setWidth 64 - 8).toNat < initPhystop.toNat := by omega
  have writable : effectiveRw mem₁ (b.p4Table.setWidth 64) (b.stackTop.setWidth 64 - 8) = true :=
    (boot_mapped (s := ⟨mem₁, 0⟩) boot rfl low).2
  obtain ⟨cpu₁, mem₃, next, run₁, rfl, rfl, cr0, cr3, long, cs, segs, interrupts⟩ :=
    runs_switch cpu back (loaded.gdt64 table) intact loaded.tableLow identity loaded.switchLow
      entry.mode entry.off entry.short entry.cs entry.ds
  have longPlace : (b.longModeStart.setWidth 64).toNat < initPhystop.toNat := by
    have := loaded.longLow
    bv_omega
  obtain ⟨cpu₂, mem₄, next, run₂, rfl, rfl, rfl⟩ :=
    runs_kernelMain cpu₁ back intact long cs (by rw [cr3]; exact identity _ longPlace)
      (by rw [cr3]; exact identity _ low) (by rw [cr3]; exact writable)
  have pushed : SameBut (b.p4Table.toNat + 0xBFF8) (b.p4Table.toNat + 0xC000) mem₃
      (store64 mem₃ (b.stackTop.setWidth 64 - 8) back) :=
    sameBut_writeLE mem₃ (by omega) (by omega) (by omega)
  have first : ([switchBlock b, kernelMainBlock b].find? fun block =>
      block.address = b.setupPageRegister.setWidth 64) = some (switchBlock b) := by
    simp [switchBlock]
  have second : ([switchBlock b, kernelMainBlock b].find? fun block =>
      block.address = b.longModeStart.setWidth 64) = some (kernelMainBlock b) := by
    have different : b.setupPageRegister.setWidth 64 ≠ b.longModeStart.setWidth 64 := by
      have := loaded.different
      intro same
      refine this (BitVec.eq_of_toNat_eq ?_)
      have value := congrArg BitVec.toNat same
      bv_omega
    simp [switchBlock, kernelMainBlock, different]
  have written := load64_store64_self mem₃ (b.stackTop.setWidth 64 - 8) back
  refine ⟨mem₃, setup, { cpu₁ with rsp := b.stackTop.setWidth 64 - 8 },
    store64 mem₃ (b.stackTop.setWidth 64 - 8) back, ?_, ?_, ?_, cr3, segs, interrupts, rfl, written,
    ?_, ?_⟩
  · rw [runBlocks_jump 1 first run₁, runBlocks_call 0 second run₂]
  · rw [width_withRsp, ApCpu.width, long, cs]
    rfl
  · change cpu₁.cr0.getLsbD 31 = true
    rw [cr0, BitVec.getLsbD_or, BitVec.getLsbD_or]
    simp
  · exact boot.congr (sameEntries_of_sameBut image entries pushed (by omega))
  · exact changed.trans (pushed.mono (by omega) le_rfl)

/-- **From the boot loader to the kernel.** A Multiboot2 loader has put the image below 2 MB and
starts the processor at `start`. If the magic number is in `eax`, bit 21 of `EFLAGS` can be changed
and `cpuid` tells of long mode, the processor arrives in `kernel_main`: in 64-bit mode, with flat data
segments, the interrupt flag as it was, on the boot stack, and with tables that map the first 2 MB to
itself; only the tables and the stack have changed. Otherwise the letter of the first check that fails
is on the screen, and the code runs on behind `error`. -/
theorem boot_reaches_kernel (loaded : BootLoaded L b code size s.mem) {cpu : ApCpu}
    (entry : LoaderState cpu) :
    (∀ letter, bootVerdict p s.eax = some letter →
      ∃ s' mem, start p b code size cpu s = .error (.runsOn s') ∧
        SameBut (b.stackTop.toNat - 8) b.stackTop.toNat s.mem mem ∧ ShowsError letter mem s'.mem) ∧
    (bootVerdict p s.eax = none →
      ∃ cpu' mem', start p b code size cpu s = .ok (cpu', mem', b.kernelMain) ∧
        cpu'.width = 64 ∧ cpu'.paging = true ∧ cpu'.cr3 = b.p4Table.setWidth 64 ∧
        (∀ r ∈ [SegReg.ss, .ds, .es], cpu'.seg r = 0) ∧
        cpu'.interrupts = s.eflags.getLsbD 9 ∧ cpu'.rsp = b.stackTop.setWidth 64 - 8 ∧
        load64 mem' cpu'.rsp = b.afterMain ∧
        BootTables L mem' (b.p4Table.setWidth 64) initPhystop ∧
        SameBut b.p4Table.toNat (b.p4Table.toNat + 0xC000) s.mem mem') := by
  let s₀ : BootRegs := { s with esp := b.stackTop }
  have stackEnd := loaded.stackTop.1
  have room : 8 ≤ s₀.esp.toNat := by
    change 8 ≤ b.stackTop.toNat
    omega
  obtain ⟨fails, passes⟩ := bootChecks_outcome p b room
  refine ⟨fun letter verdict => ?_, fun verdict => ?_⟩
  · obtain ⟨s₁, run, same⟩ := fails letter verdict
    obtain ⟨s', shown, shows⟩ := bootError_shows s₁ letter
    refine ⟨s', s₁.mem, ?_, same, shows⟩
    rw [start, run, shown]
    rfl
  · obtain ⟨s₁, run, checked⟩ := passes verdict
    let cpu₁ : ApCpu := { cpu with
      rax := 0x1FF003, ecx := 512, edx := 0, rsp := s₁.esp.setWidth 64,
      interrupts := s₁.eflags.getLsbD 9, down := s₁.eflags.getLsbD 10 }
    have entry₁ : LoaderState cpu₁ := ⟨entry.mode, entry.off, entry.short, entry.cs, entry.ds⟩
    obtain ⟨mem₁, setup, cpu', mem', reached, width, paging, cr3, segs, interrupts, rest⟩ :=
      runs_on loaded b.afterMain cpu₁ entry₁ checked.mem
    refine ⟨cpu', mem', ?_, width, paging, cr3, segs, ?_, rest⟩
    · rw [start, run]
      simp only [bind, Except.bind, setup]
      rw [reached]
    · rw [interrupts]
      exact checked.interrupts

end

/-- An image with the tables at 1 MB, `gdt64` behind the stack, and the code behind it. -/
def demoLabels : BootLabels where
  text := 0x10D000
  p4Table := 0x100000
  gdt64 := 0x10C000
  setupPageRegister := 0x10D100
  longModeStart := 0x10D200
  kernelMain := 0x10E000
  afterMultiboot := 0x10D010
  afterCpuid := 0x10D020
  afterLongMode := 0x10D030
  afterMain := 0x10D210

def demoGdt64 : List Byte := gdt64Bytes ++ [23, 0] ++ [0, 0xC0, 0x10, 0, 0, 0, 0, 0]

/-- Zero but for the descriptor table, whose first byte is zero as well. -/
def demoImage : Mem := fun x => demoGdt64.getD (x.toNat - 0x10C000) 0

/-- The kernel ends behind its code. -/
def demoImageBounds : Bounds := { demoBounds with kend := 0x110000, above := by decide }

theorem demoImage_loaded : BootLoaded demoImageBounds demoLabels (fun _ => 0) 0x300 demoImage where
  image := by
    refine ⟨by decide, by decide, by decide, by decide, fun k few => ?_⟩
    have place : (demoLabels.p4Table.setWidth 64 + BitVec.ofNat 64 (4 * k)).toNat =
        0x100000 + 4 * k := by
      change ((0x100000 : BitVec 32).setWidth 64 + BitVec.ofNat 64 (4 * k)).toNat = _
      bv_omega
    have zero : SameOn (demoLabels.p4Table.setWidth 64 + BitVec.ofNat 64 (4 * k)) 4
        (fun _ => 0) demoImage := by
      intro x inside
      have low : x.toNat - 0x10C000 = 0 := by
        have bound := x.isLt
        rw [Within, BitVec.toNat_sub, place] at inside
        omega
      rw [demoImage, low]
      rfl
    rw [load32, zero.readLE (by decide)]
    simp [readLE]
  stack := by decide
  fits := by decide
  intact := by decide +kernel
  codeApart := by decide
  codeLow := by decide
  switchLow := by decide
  longLow := by decide
  different := by decide
  table := by decide +kernel
  limit := by decide +kernel
  base := by decide +kernel
  tableApart := by decide
  tableLow := by decide

def demoBootProcessor : BootProcessor where
  popMask := 0x277FD5
  arithmetic := by decide
  flags _ _ := 0
  cpuid _ := ⟨0x80000008, 0, 1#32 <<< 29⟩

def demoLoader : ApCpu where
  cr0 := 1
  cr3 := 0
  cr4 := 0
  efer := 0
  gdtBase := 0
  gdtLimit := 0
  cs := ⟨0, false, true⟩
  seg _ := 0
  rax := 0
  ecx := 0
  edx := 0
  rsp := 0
  interrupts := false
  down := false

theorem demoLoader_entry : LoaderState demoLoader := ⟨rfl, rfl, rfl, rfl, rfl⟩

/-- What the loader leaves in the registers besides `eax`. -/
def demoRegs (eax : BitVec 32) : BootRegs := ⟨eax, 0, 0, 0, 2, demoImage⟩

/-- With the magic number in `eax`, and with the one of the first Multiboot standard. -/
theorem boot_reaches_kernel_image :
    (∃ cpu' mem', start demoBootProcessor demoLabels (fun _ => 0) 0x300 demoLoader
        (demoRegs 0x36d76289) = .ok (cpu', mem', 0x10E000) ∧ cpu'.width = 64) ∧
    ∃ s' : BootRegs, start demoBootProcessor demoLabels (fun _ => 0) 0x300 demoLoader
        (demoRegs 0x2BADB002) = .error (.runsOn s') ∧ s'.mem 0xb800a = 0x4D := by
  have loaded : ∀ eax, BootLoaded demoImageBounds demoLabels (fun _ => 0) 0x300 (demoRegs eax).mem := by
    intro eax
    dsimp only [demoRegs]
    exact demoImage_loaded
  have reaches := fun eax =>
    boot_reaches_kernel (p := demoBootProcessor) (loaded eax) demoLoader_entry
  constructor
  · obtain ⟨cpu', mem', run, width, -⟩ := (reaches 0x36d76289).2 (by decide)
    exact ⟨cpu', mem', run, width⟩
  · obtain ⟨s', mem, run, -, shows⟩ := (reaches 0x2BADB002).1 0x4D (by decide)
    exact ⟨s', run, shows.letter⟩

end ShipOS

/-
**The way of an exception to `interrupt_handler` (`interrupt_stub.asm`).**

The processor aligns the stack, pushes the interrupted state and, for some vectors, an error code, and
goes on where the gate says. The stub of the vector puts the two arguments into registers, taking the
error code from the stack where there is one, and saves the registers.

* `deliver` — the processor; `stub` — the code of a vector up to its `call`;
* `deliver_spec`, `stub_spec` — the two, one after the other;
* `exception_arguments` — from any interrupted state `interrupt_handler` is called with the error code
  and the vector, on an aligned stack above which the interrupted state is complete but for `rdi` and
  `rsi`.
-/

import ShipOS.Interrupts.Idt
import ShipOS.Sched.Context

namespace ShipOS

open ByteMem

/-! ### The processor -/

/-- The general registers, RFLAGS and the two segments that an interrupt saves. -/
structure Processor where
  core : Core
  rflags : Word
  cs : BitVec 16
  ss : BitVec 16

/-- The vectors that push an error code: double fault, the segment and page faults, alignment check,
control protection, VMM communication and security. -/
def HasErrorCode (v : Nat) : Prop :=
  v = 8 ∨ 10 ≤ v ∧ v ≤ 14 ∨ v = 17 ∨ v = 21 ∨ v = 29 ∨ v = 30

instance (v : Nat) : Decidable (HasErrorCode v) := inferInstanceAs (Decidable (_ ∨ _))

/-- Words pushed one after the other below `top`. -/
def pushAll (mem : Mem) (top : Word) : List Word → Mem
  | [] => mem
  | w :: ws => pushAll (store64 mem (top - 8) w) (top - 8) ws

/-- What the processor pushes, the error code last. -/
def interruptFrame (v : Nat) (errorCode : Word) (p : Processor) : List Word :=
  [p.ss.setWidth 64, p.core.rsp, p.rflags, p.cs.setWidth 64, p.core.rip] ++
    if HasErrorCode v then [errorCode] else []

/-- RSP when the processor begins to push. -/
def frameTop (p : Processor) : Word := p.core.rsp &&& ~~~15

/-- An exception in 64-bit mode and ring 0, where the stack is not switched, through an interrupt gate
without a stack of its own: TF, IF, NT and RF are cleared. -/
def deliver (idt : Word) (v : Nat) (errorCode : Word) (p : Processor) (mem : Mem) : Processor × Mem :=
  let gate := gateAt idt mem v
  let frame := interruptFrame v errorCode p
  (⟨{ p.core with rsp := frameTop p - BitVec.ofNat 64 (8 * frame.length), rip := gate.offset },
    p.rflags &&& ~~~0x14300, gate.selector, p.ss⟩, pushAll mem (frameTop p) frame)

/-! ### The stubs -/

inductive StubInstr
  /-- `mov r, imm`. -/
  | mov (r : Reg) (imm : Word)
  | stack (i : Instr)

def StubInstr.exec (s : Core × Mem) : StubInstr → Core × Mem
  | .mov r imm => ({ s.1 with regs := Function.update s.1.regs r imm }, s.2)
  | .stack i => execInstr s i

/-- The instances of `error_code_interrupt_handler`. -/
def errorCodeStubs : List Nat := [8, 10, 11, 12, 13, 14, 17, 21, 29, 30]

/-- The registers, in the order in which `common_interrupt_handler` pushes them. -/
def stubRegs : List Reg :=
  [.rax, .rbx, .rcx, .rdx, .rbp, .rdi, .rsi, .r8, .r9, .r10, .r11, .r12, .r13, .r14, .r15]

/-- The first instruction: the only difference between the two macros. -/
def takeCode (v : Nat) : StubInstr :=
  if v ∈ errorCodeStubs then .stack (.pop .rdi) else .mov .rdi 0

/-- `interrupt_handler_v` up to the call of `interrupt_handler`. -/
def stub (v : Nat) : List StubInstr :=
  takeCode v :: .mov .rsi (BitVec.ofNat 64 v) :: stubRegs.map fun r => .stack (.push r)

/-! ### Pushes -/

variable {mem : Mem} {idt top : Word} {v : Nat} {p : Processor} {errorCode : Word}

theorem pushAll_words : ∀ {ws us : List Word} {mem : Mem} {top : Word}, Words mem top us →
    8 * (ws.length + us.length) ≤ 2 ^ 64 →
      Words (pushAll mem top ws) (top - BitVec.ofNat 64 (8 * ws.length)) (ws.reverse ++ us) := by
  intro ws
  induction ws with
  | nil =>
    intro us mem top words _
    simpa [pushAll] using words
  | cons w ws ih =>
    intro us mem top words small
    rw [List.length_cons] at small
    have below : top - 8 - BitVec.ofNat 64 (8 * ws.length) =
        top - BitVec.ofNat 64 (8 * (ws.length + 1)) := by bv_omega
    have deeper := ih (words.push (by omega) w) (by rw [List.length_cons]; omega)
    rw [below] at deeper
    simpa [pushAll] using deeper

/-- What is outside of the words below `top` is outside of the first one and of the others. -/
theorem not_within_below {x : Word} {k : Nat} (small : 8 * (k + 1) ≤ 2 ^ 64)
    (outside : ¬ Within (top - BitVec.ofNat 64 (8 * (k + 1))) (8 * (k + 1)) x) :
    ¬ Within (top - 8 - BitVec.ofNat 64 (8 * k)) (8 * k) x ∧ ¬ Within (top - 8) 8 x := by
  unfold Within at *
  constructor <;> bv_omega

theorem pushAll_sameOutside : ∀ {ws : List Word} {mem : Mem} {top : Word},
    8 * ws.length ≤ 2 ^ 64 →
      SameOutside (top - BitVec.ofNat 64 (8 * ws.length)) (8 * ws.length) mem (pushAll mem top ws) := by
  intro ws
  induction ws with
  | nil => exact fun _ _ _ => rfl
  | cons w ws ih =>
    intro mem top small x outside
    rw [List.length_cons] at small outside
    obtain ⟨others, first⟩ := not_within_below small outside
    exact (ih (by omega) x others).trans (sameOutside_store64 _ _ _ x first)

/-! ### The two steps -/

/-- The interrupted state as it lies in memory, from RIP upwards. -/
def savedState (p : Processor) : List Word :=
  [p.core.rip, p.cs.setWidth 64, p.rflags, p.core.rsp, p.ss.setWidth 64]

/-- RSP below the interrupted state. -/
def stateBase (p : Processor) : Word := frameTop p - 40

theorem frameTop_aligned (p : Processor) : (frameTop p).toNat % 16 = 0 := by
  have low : frameTop p &&& 15 = 0 := by
    rw [frameTop, BitVec.and_assoc]
    exact BitVec.and_zero
  have masked := congrArg BitVec.toNat low
  rw [BitVec.toNat_and] at masked
  rw [← Nat.and_two_pow_sub_one_eq_mod (frameTop p).toNat 4]
  exact masked

/-- **The processor**: the error code, if any, and the interrupted state are on the stack. -/
theorem deliver_spec (idt : Word) (mem : Mem) (p : Processor) (v : Nat) (code : Word) :
    let codes := if HasErrorCode v then [code] else []
    let base := stateBase p - BitVec.ofNat 64 (8 * codes.length)
    ∃ mem', deliver idt v code p mem =
        (⟨{ p.core with rsp := base, rip := (gateAt idt mem v).offset }, p.rflags &&& ~~~0x14300,
          (gateAt idt mem v).selector, p.ss⟩, mem') ∧
      Words mem' base (codes ++ savedState p) ∧ SameOutside (frameTop p - 48) 48 mem mem' := by
  intro codes base
  have length : (interruptFrame v code p).length = 5 + codes.length := List.length_append
  have short : codes.length ≤ 1 := by
    unfold codes
    split <;> simp
  have reversed : (interruptFrame v code p).reverse ++ [] = codes ++ savedState p := by
    unfold codes
    rw [interruptFrame]
    split <;> rfl
  have low : frameTop p - BitVec.ofNat 64 (8 * (interruptFrame v code p).length) = base := by
    unfold base stateBase
    rw [length]
    bv_omega
  refine ⟨pushAll mem (frameTop p) (interruptFrame v code p), ?_, ?_, fun x outside => ?_⟩
  · rw [← low]
    rfl
  · have empty : Words mem (frameTop p) [] := trivial
    have room : 8 * ((interruptFrame v code p).length + ([] : List Word).length) ≤ 2 ^ 64 := by
      rw [List.length_nil]
      omega
    have pushed := pushAll_words empty room
    rwa [low, reversed] at pushed
  · refine pushAll_sameOutside (by omega) x fun inside => outside ?_
    unfold Within at *
    rw [low, length] at inside
    unfold base stateBase at inside
    bv_omega

/-- **The stub's first instruction**: the error code is in `rdi`, and the stack is at the interrupted
state. -/
theorem takeCode_spec {core : Core} {code : Word} (bound : v < 32)
    (base : core.rsp = stateBase p -
      BitVec.ofNat 64 (8 * (if HasErrorCode v then [code] else []).length))
    (words : Words mem core.rsp ((if HasErrorCode v then [code] else []) ++ savedState p)) :
    (takeCode v).exec (core, mem) =
        (⟨Function.update core.regs .rdi (if HasErrorCode v then code else 0), stateBase p,
          core.rip⟩, mem) ∧
      Words mem (stateBase p) (savedState p) := by
  have stubs : ∀ v < 32, v ∈ errorCodeStubs ↔ HasErrorCode v := by decide
  rw [takeCode]
  by_cases has : HasErrorCode v
  · rw [if_pos has] at base words
    rw [if_pos ((stubs v bound).mpr has), if_pos has]
    obtain ⟨low, state⟩ := words
    have above : core.rsp + 8 = stateBase p := by
      rw [base]
      exact BitVec.sub_add_cancel _ _
    rw [above] at state
    refine ⟨?_, state⟩
    rw [StubInstr.exec, execInstr, low, above]
  · rw [if_neg has] at base words
    rw [if_neg (mt (stubs v bound).mp has), if_neg has]
    have here : core.rsp = stateBase p := by
      rw [base]
      simp
    rw [here] at words
    refine ⟨?_, words⟩
    rw [StubInstr.exec, ← here]

/-- The registers when `interrupt_handler` is called. -/
def handlerRegs (v : Nat) (code : Word) (regs : Reg → Word) : Reg → Word :=
  Function.update (Function.update regs .rdi (if HasErrorCode v then code else 0)) .rsi
    (BitVec.ofNat 64 v)

theorem handlerRegs_rdi (v : Nat) (code : Word) (regs : Reg → Word) :
    handlerRegs v code regs .rdi = if HasErrorCode v then code else 0 := by
  rw [handlerRegs, Function.update_of_ne (by decide), Function.update_self]

theorem handlerRegs_rsi (v : Nat) (code : Word) (regs : Reg → Word) :
    handlerRegs v code regs .rsi = BitVec.ofNat 64 v :=
  Function.update_self ..

theorem handlerRegs_other (v : Nat) (code : Word) (regs : Reg → Word) {r : Reg} (notRdi : r ≠ .rdi)
    (notRsi : r ≠ .rsi) : handlerRegs v code regs r = regs r := by
  rw [handlerRegs, Function.update_of_ne notRsi, Function.update_of_ne notRdi]

/-- **The stub**: the arguments are in their registers, and all registers are saved below the
interrupted state. -/
theorem stub_spec (core : Core) {code : Word} (bound : v < 32)
    (base : core.rsp = stateBase p -
      BitVec.ofNat 64 (8 * (if HasErrorCode v then [code] else []).length))
    (words : Words mem core.rsp ((if HasErrorCode v then [code] else []) ++ savedState p)) :
    ∃ mem', (stub v).foldl StubInstr.exec (core, mem) =
        (⟨handlerRegs v code core.regs, stateBase p - 120, core.rip⟩, mem') ∧
      Words mem' (stateBase p - 120)
        (stubRegs.reverse.map (handlerRegs v code core.regs) ++ savedState p) ∧
      SameOutside (stateBase p - 120) 120 mem mem' := by
  obtain ⟨first, state⟩ := takeCode_spec bound base words
  obtain ⟨mem', pushes, saved, same⟩ := exec_pushes stubRegs
    ⟨handlerRegs v code core.regs, stateBase p, core.rip⟩ mem (savedState p) state
    (show 8 * (15 + 5) ≤ 2 ^ 64 by decide)
  refine ⟨mem', ?_, saved, same⟩
  rw [stub, List.foldl_cons, first, List.foldl_cons, List.foldl_map]
  rw [List.foldl_map] at pushes
  exact pushes

/-- The table where the processor looks for a gate. -/
theorem gateAt_congr {m m' : Mem} (bound : v < maxInterrupts)
    (same : SameOn idt (gateSize * maxInterrupts) m m') : gateAt idt m' v = gateAt idt m v := by
  have part : ∀ offset n, offset + n ≤ gateSize →
      gatePart idt m' v offset n = gatePart idt m v offset n := by
    intro offset n inside
    refine readLE_congr fun i hi => same _ ?_
    unfold Within gateSize maxInterrupts at *
    bv_omega
  simp only [gateAt]
  rw [part 0 2 (by decide), part 6 2 (by decide), part 8 4 (by decide), part 2 2 (by decide),
    part 4 1 (by decide), part 5 1 (by decide), part 12 4 (by decide)]

/-- **Exceptions reach `interrupt_handler`.** Whatever is interrupted in ring 0, while the table is as
`setup_idt` left it: the processor goes on at the stub of the vector in the kernel's code segment with
IF clear, and the stub calls `interrupt_handler` with the error code, or 0, and the vector. The stack
is then aligned to 16 bytes; the interrupted state and all registers are on it, the latter with the
two arguments for `rdi` and `rsi`. -/
theorem exception_arguments {m₀ : Mem} (address : Routine → Word) (p : Processor) (code : Word)
    (bound : v < 32)
    (table : SameOn idt (gateSize * maxInterrupts) (setupIdt idt address m₀) mem) :
    ∃ entered core mem', deliver idt v code p mem = entered ∧
      entered.1.core.rip = address (.exception v) ∧ entered.1.cs = 0x08 ∧
      entered.1.rflags &&& 0x200 = 0 ∧
      (stub v).foldl StubInstr.exec (entered.1.core, entered.2) = (core, mem') ∧
      core.regs .rdi = (if HasErrorCode v then code else 0) ∧
      core.regs .rsi = BitVec.ofNat 64 v ∧ core.rsp.toNat % 16 = 0 ∧
      Words mem' core.rsp (stubRegs.reverse.map core.regs ++ savedState p) ∧
      ∀ r, r ≠ .rdi → r ≠ .rsi → core.regs r = p.core.regs r := by
  have gate := (gateAt_congr (show v < maxInterrupts by unfold maxInterrupts; omega) table).trans
    ((gateAt_setupIdt idt address m₀).1 v (by unfold maxInterrupts; omega))
  have exception : dispatch v = .exception v := if_pos bound
  obtain ⟨mem₁, entered, words, -⟩ := deliver_spec idt mem p v code
  obtain ⟨mem', ran, saved, -⟩ := stub_spec
    { p.core with
      rsp := stateBase p - BitVec.ofNat 64 (8 * (if HasErrorCode v then [code] else []).length)
      rip := address (.exception v) } bound rfl words
  rw [gate, exception] at entered
  refine ⟨_, _, mem', entered, rfl, rfl, ?_, ran, ?_, ?_, ?_, saved, fun r notRdi notRsi => ?_⟩
  · show p.rflags &&& ~~~0x14300 &&& 0x200 = 0
    rw [BitVec.and_assoc]
    exact BitVec.and_zero
  · exact handlerRegs_rdi v code p.core.regs
  · exact handlerRegs_rsi v code p.core.regs
  · have aligned := frameTop_aligned p
    show (stateBase p - 120).toNat % 16 = 0
    unfold stateBase
    bv_omega
  · exact handlerRegs_other v code p.core.regs notRdi notRsi

/-- A page fault by a write, with the table and the stack in cleared memory. -/
theorem exception_arguments_pageFault :
    let p : Processor := ⟨⟨fun _ => 7, 0x9008, 0x4000⟩, 0x202, 0x08, 0x10⟩
    let entered := deliver 0x1000 14 2 p (setupIdt 0x1000 (fun _ => 0x5000) fun _ => 0)
    ∃ core mem, (stub 14).foldl StubInstr.exec (entered.1.core, entered.2) = (core, mem) ∧
      core.regs .rdi = 2 ∧ core.regs .rsi = 14 ∧ core.regs .rax = 7 := by
  intro p entered
  obtain ⟨_, core, mem, rfl, -, -, -, ran, rdi, rsi, -, -, others⟩ := exception_arguments
    (fun _ => 0x5000) p 2 (show 14 < 32 by decide) fun _ _ => rfl
  exact ⟨core, mem, ran, rdi, rsi, others .rax (by decide) (by decide)⟩

end ShipOS

/-
**The context switch (`swtch.asm`, `struct context`).**

`switch_context(&old, new)` pushes the fifteen general registers on the stack it is called on, stores
the stack pointer in `old`, takes `new` for the stack pointer, pops fifteen registers and returns.
Together with the return address the pushed words are a `struct context`.

* `switchCode_eq` — the pushes are the registers of `struct context` from the last to the first, and
  the pops the same registers from the first to the last;
* `exec_pushes`, `exec_pops` — what a row of pushes or pops does;
* `switchContext_spec` — the whole call.
-/

import Mathlib.Logic.Function.Basic
import ShipOS.Lib.ByteMem

namespace ShipOS

open ByteMem

/-! ### Registers and instructions -/

/-- The general registers without `rsp`. -/
inductive Reg
  | rax | rbx | rcx | rdx | rsi | rdi | rbp | r8 | r9 | r10 | r11 | r12 | r13 | r14 | r15
  deriving DecidableEq, Repr

/-- What a CPU has in its registers; `rip` is where it continues. -/
structure Core where
  regs : Reg → Word
  rsp : Word
  rip : Word

inductive Instr
  | push (r : Reg)
  | pop (r : Reg)
  /-- `mov [r], rsp`. -/
  | storeRsp (r : Reg)
  /-- `mov rsp, r`. -/
  | loadRsp (r : Reg)
  | ret
  deriving DecidableEq, Repr

def execInstr : Core × Mem → Instr → Core × Mem
  | (core, mem), .push r =>
    ({ core with rsp := core.rsp - 8 }, store64 mem (core.rsp - 8) (core.regs r))
  | (core, mem), .pop r =>
    ({ core with regs := Function.update core.regs r (load64 mem core.rsp), rsp := core.rsp + 8 }, mem)
  | (core, mem), .storeRsp r => (core, store64 mem (core.regs r) core.rsp)
  | (core, mem), .loadRsp r => ({ core with rsp := core.regs r }, mem)
  | (core, mem), .ret => ({ core with rip := load64 mem core.rsp, rsp := core.rsp + 8 }, mem)

/-- The `call` instruction: `rip` is the return address. -/
def callInstr (core : Core) (mem : Mem) : Core × Mem :=
  ({ core with rsp := core.rsp - 8 }, store64 mem (core.rsp - 8) core.rip)

/-- The instructions of `swtch.asm`. -/
def switchCode : List Instr :=
  [.push .r15, .push .r14, .push .r13, .push .r12, .push .r11, .push .r10, .push .r9, .push .r8,
   .push .rbp, .push .rdi, .push .rsi, .push .rdx, .push .rcx, .push .rbx, .push .rax,
   .storeRsp .rdi, .loadRsp .rsi,
   .pop .rax, .pop .rbx, .pop .rcx, .pop .rdx, .pop .rsi, .pop .rdi, .pop .rbp, .pop .r8, .pop .r9,
   .pop .r10, .pop .r11, .pop .r12, .pop .r13, .pop .r14, .pop .r15, .ret]

/-- `call switch_context`, with `&old` in `rdi` and `new` in `rsi`. -/
def switchContext (core : Core) (mem : Mem) : Core × Mem :=
  switchCode.foldl execInstr (callInstr core mem)

/-! ### `struct context` -/

/-- The registers of `struct context` in the order of its fields; `rip` comes after them. -/
def contextRegs : List Reg :=
  [.rax, .rbx, .rcx, .rdx, .rsi, .rdi, .rbp, .r8, .r9, .r10, .r11, .r12, .r13, .r14, .r15]

/-- `sizeof(struct context)`. -/
def contextSize : Nat := 128

/-- The words of a `struct context`. -/
def contextWords (regs : Reg → Word) (rip : Word) : List Word := contextRegs.map regs ++ [rip]

theorem mem_contextRegs (r : Reg) : r ∈ contextRegs := by
  cases r <;> decide

/-- **The two descriptions of the layout agree.** -/
theorem switchCode_eq : switchCode = contextRegs.reverse.map .push ++
    [.storeRsp .rdi, .loadRsp .rsi] ++ contextRegs.map .pop ++ [.ret] := rfl

/-! ### Rows of pushes and pops -/

variable {mem : Mem} {core : Core} {ws : List Word}

/-- **A row of pushes** puts the registers below the words that are there, the last one lowest. -/
theorem exec_pushes : ∀ (rs : List Reg) (core : Core) (mem : Mem) (ws : List Word),
    Words mem core.rsp ws → 8 * (rs.length + ws.length) ≤ 2 ^ 64 →
      ∃ mem', (rs.map .push).foldl execInstr (core, mem) =
          ({ core with rsp := core.rsp - BitVec.ofNat 64 (8 * rs.length) }, mem') ∧
        Words mem' (core.rsp - BitVec.ofNat 64 (8 * rs.length)) (rs.reverse.map core.regs ++ ws) ∧
        SameOutside (core.rsp - BitVec.ofNat 64 (8 * rs.length)) (8 * rs.length) mem mem' := by
  intro rs
  induction rs with
  | nil =>
    intro core mem ws words _
    exact ⟨mem, by simp, by simpa using words, fun _ _ => rfl⟩
  | cons r rs ih =>
    intro core mem ws words small
    rw [List.length_cons] at small
    obtain ⟨mem', run, words', same⟩ := ih { core with rsp := core.rsp - 8 }
      (store64 mem (core.rsp - 8) (core.regs r)) (core.regs r :: ws)
      (words.push (by omega) _) (by rw [List.length_cons]; omega)
    have below : core.rsp - 8 - BitVec.ofNat 64 (8 * rs.length) =
        core.rsp - BitVec.ofNat 64 (8 * (r :: rs).length) := by
      rw [List.length_cons]
      bv_omega
    dsimp only at run words' same
    rw [below] at run words' same
    refine ⟨mem', run, ?_, fun x outside => ?_⟩
    · simpa using words'
    · rw [List.length_cons] at outside same
      rw [same x fun inside => outside (Nat.lt_of_lt_of_le inside (by omega))]
      refine sameOutside_store64 mem _ _ x fun inside => outside ?_
      have shift : ∀ a b : Word, x - (a - b) = x - a + b := by
        intro a b
        bv_omega
      rw [List.length_cons] at below
      unfold Within at inside ⊢
      rw [← below, shift, BitVec.toNat_add, BitVec.toNat_ofNat]
      omega

/-- **A row of pops** takes the registers from the words above the stack pointer. -/
theorem exec_pops (f : Reg → Word) : ∀ (rs : List Reg) (core : Core),
    Words mem core.rsp (rs.map f ++ ws) →
      (rs.map .pop).foldl execInstr (core, mem) =
        (⟨fun r => if r ∈ rs then f r else core.regs r,
          core.rsp + BitVec.ofNat 64 (8 * rs.length), core.rip⟩, mem) := by
  intro rs
  induction rs with
  | nil =>
    intro core _
    simp
  | cons r rs ih =>
    rintro core ⟨head, tail⟩
    have above : core.rsp + 8 + BitVec.ofNat 64 (8 * rs.length) =
        core.rsp + BitVec.ofNat 64 (8 * (rs.length + 1)) := by bv_omega
    rw [List.map_cons, List.foldl_cons, execInstr, head, ih _ tail]
    simp only [List.length_cons, above, Prod.mk.injEq, Core.mk.injEq, and_true]
    funext u
    by_cases later : u ∈ rs
    · rw [if_pos later, if_pos (List.mem_cons_of_mem _ later)]
    · rw [if_neg later]
      by_cases here : u = r
      · rw [here, Function.update_self, if_pos List.mem_cons_self]
      · rw [Function.update_of_ne here,
          if_neg fun inside => (List.mem_cons.mp inside).elim here later]

/-! ### The switch -/

/-- The context that a call of `switch_context` leaves on the stack. -/
def savedContext (core : Core) : Word := core.rsp - BitVec.ofNat 64 contextSize

/-- **`switch_context`**: the registers and the return address of the caller are a `struct context`
at the address stored in `old`, and the CPU continues with those of the context `new`. Nothing else
in memory changes. -/
theorem switchContext_spec {regs : Reg → Word} {rip : Word}
    (target : Words mem (core.regs .rsi) (contextWords regs rip))
    (apart : Apart (savedContext core) contextSize (core.regs .rsi) contextSize)
    (oldNew : Apart (core.regs .rdi) 8 (core.regs .rsi) contextSize)
    (oldSaved : Apart (core.regs .rdi) 8 (savedContext core) contextSize) :
    ∃ mem', switchContext core mem =
        (⟨regs, core.regs .rsi + BitVec.ofNat 64 contextSize, rip⟩, mem') ∧
      Words mem' (savedContext core) (contextWords core.regs core.rip) ∧
      load64 mem' (core.regs .rdi) = savedContext core ∧
      ∀ x, ¬ Within (savedContext core) contextSize x → ¬ Within (core.regs .rdi) 8 x →
        mem' x = mem x := by
  have below : core.rsp - 8 - BitVec.ofNat 64 (8 * contextRegs.reverse.length) =
      savedContext core := BitVec.sub_sub ..
  obtain ⟨pushed, run, words, same⟩ := exec_pushes contextRegs.reverse { core with rsp := core.rsp - 8 }
    (store64 mem (core.rsp - 8) core.rip) [core.rip]
    ((show Words mem core.rsp [] from trivial).push (by decide) core.rip)
    (Nat.le_of_ble_eq_true rfl)
  dsimp only at run words same
  rw [below] at run words same
  rw [List.reverse_reverse] at words
  have only : ∀ x, ¬ Within (savedContext core) contextSize x → ¬ Within (core.regs .rdi) 8 x →
      store64 pushed (core.regs .rdi) (savedContext core) x = mem x := by
    intro x outside notOld
    rw [sameOutside_store64 _ _ _ x notOld,
      same x fun inside => outside (Nat.lt_trans inside (by decide))]
    refine sameOutside_store64 _ _ _ x fun inside => outside ?_
    unfold Within savedContext contextSize at *
    bv_omega
  have kept : Words (store64 pushed (core.regs .rdi) (savedContext core)) (core.regs .rsi)
      (contextWords regs rip) :=
    target.congr fun x inside => only x (apart.not_within inside) (oldNew.not_within inside)
  obtain ⟨-, last, -⟩ := words_append.mp kept
  have popped := exec_pops regs contextRegs ⟨core.regs, core.regs .rsi, core.rip⟩ kept
  simp only [mem_contextRegs, if_true] at popped
  refine ⟨_, ?_, words.congr ((sameOutside_store64 _ _ _).sameOn oldSaved), load64_store64_self _ _ _,
    only⟩
  calc switchContext core mem
      = execInstr ((contextRegs.map .pop).foldl execInstr
          ([.storeRsp .rdi, .loadRsp .rsi].foldl execInstr
            ((contextRegs.reverse.map .push).foldl execInstr (callInstr core mem)))) .ret := by
        rw [switchContext, switchCode_eq, List.foldl_append, List.foldl_append, List.foldl_append]
        rfl
    _ = execInstr ((contextRegs.map .pop).foldl execInstr (⟨core.regs, core.regs .rsi, core.rip⟩,
          store64 pushed (core.regs .rdi) (savedContext core))) .ret := by
        rw [callInstr, run]
        rfl
    _ = (⟨regs, core.regs .rsi + BitVec.ofNat 64 contextSize, rip⟩,
          store64 pushed (core.regs .rdi) (savedContext core)) := by
        rw [popped]
        exact Prod.ext (congrArg₂ (Core.mk regs) (BitVec.add_assoc ..) last) rfl

end ShipOS

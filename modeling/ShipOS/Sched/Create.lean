/-
**Building threads (`init_thread`, `create_thread`).**

A thread takes three pages: its `struct thread`, its stack and its kernel stack. At the top of the
stack `init_thread` lays out the `struct context` that the first `switch_context` into the thread
pops.

* `initContext_words` — the sixteen words of that context;
* `createThread_ok`, `createThread_short` — a thread is built whenever there are three free pages;
  with fewer a call stores through null.
-/

import ShipOS.Sched.Context
import ShipOS.Sched.Threads

namespace ShipOS

open ByteMem

/-! ### The code -/

/-- The stores of `init_thread` up to `thread->args = args`, once it has its two pages. -/
def initFields (mem : Mem) (thread stack kstack startFunction : Word) (argc : BitVec 32)
    (args : Word) : Mem :=
  let mem := memset mem stack 0 4096
  let mem := memset mem kstack 0 4096
  let mem := store64 mem (slot thread 3) (kstack + pgsize)
  let mem := store64 mem (slot thread 2) (stack + pgsize)
  let mem := store64 mem (slot thread 1) startFunction
  let mem := store64 mem (slot thread 4) (argc.signExtend 64)
  store64 mem (slot thread 5) args

/-- The stores of `init_thread` from `char *sp = thread->stack` on. -/
def initContext (mem : Mem) (thread stack startFunction : Word) (argc : BitVec 32) (args : Word) :
    Mem :=
  let sp := stack - 8
  let mem := store64 mem sp startFunction
  let sp := sp - 120
  let mem := memset mem sp 0 120
  let mem := store64 mem (slot thread 0) sp
  let mem := store64 mem (slot sp 5) (argc.signExtend 64)
  store64 mem (slot sp 4) args

def initThread (thread startFunction : Word) (argc : BitVec 32) (args : Word) (s : Phys) :
    Except Halt Phys :=
  let (stack, s) := kalloc s
  let s := { s with mem := store64 s.mem (slot thread 2) stack }
  let (kstack, s) := kalloc s
  let s := { s with mem := store64 s.mem (slot thread 3) kstack }
  -- No page is checked to be there before it is written.
  if thread = 0 ∨ stack = 0 ∨ kstack = 0 then .error .nullStore
  else
    let mem := initFields s.mem thread stack kstack startFunction argc args
    .ok { s with mem := initContext mem thread (stack + pgsize) startFunction argc args }

def createThread (startFunction : Word) (argc : BitVec 32) (args : Word) (s : Phys) :
    Except Halt (Word × Phys) := do
  let (newThread, s) := kalloc s
  let s ← initThread newThread startFunction argc args s
  .ok (newThread, s)

/-! ### The first context -/

/-- The registers of a thread that has not run. -/
def entryRegs (argc : BitVec 32) (args : Word) (r : Reg) : Word :=
  if r = .rdi then argc.signExtend 64 else if r = .rsi then args else 0

/-- The thread's fields and context, as `init_thread` leaves them. -/
structure ThreadBuilt (mem : Mem) (thread stack startFunction : Word) (argc : BitVec 32)
    (args : Word) : Prop where
  stackTop : load64 mem (slot thread 2) = stack + pgsize
  saved : load64 mem (slot thread 0) = slot stack 496
  context : Words mem (slot stack 496) (contextWords (entryRegs argc args) startFunction)

section Context

variable {mem : Mem} {thread stack startFunction args : Word} {argc : BitVec 32}

/-- The top of the stack page, without the context. -/
theorem context_address : stack + pgsize - 8 - 120 = slot stack 496 := by
  simp only [slot, pgsize]
  bv_omega

theorem initContext_words (alignedT : PageAligned thread) (alignedS : PageAligned stack)
    (different : thread ≠ stack) :
    Words (initContext mem thread (stack + pgsize) startFunction argc args) (slot stack 496)
      (contextWords (entryRegs argc args) startFunction) := by
  have top : stack + pgsize - 8 = slot stack 496 + BitVec.ofNat 64 (8 * 15) := by
    simp only [slot, pgsize]
    bv_omega
  have cleared : Words (memset (store64 mem (slot stack 496 + BitVec.ofNat 64 (8 * 15)) startFunction)
      (slot stack 496) 0 120) (slot stack 496) (List.replicate 15 0 ++ [startFunction]) := by
    refine words_append.mpr ⟨words_zero _ _ _ (by decide) 15 _ (by simp), ?_, trivial⟩
    rw [List.length_replicate, memset, load64_fill_apart, load64_store64_self]
    constructor <;> bv_omega
  have apart : Apart (slot thread 0) 8 (slot stack 496) 128 := by
    have ne : thread.toNat ≠ stack.toNat := fun same => different (BitVec.eq_of_toNat_eq same)
    have := thread.isLt
    have := stack.isLt
    unfold PageAligned at alignedT alignedS
    unfold slot
    constructor <;> bv_omega
  have linked := cleared.congr ((sameOutside_store64 _ (slot thread 0) (slot stack 496)).sameOn apart)
  have first := linked.set (argc.signExtend 64) (i := 5) (by simp) (by simp)
  have second := first.set args (i := 4) (by simp) (by simp)
  rw [initContext, context_address, top]
  exact second

/-- The stores of `initContext` as words of the two pages. -/
theorem initContext_eq : initContext mem thread (stack + pgsize) startFunction argc args =
    store64 (store64 (store64 (fill (store64 mem (slot stack 511) startFunction) (slot stack 496) 0 120)
      (slot thread 0) (slot stack 496)) (slot stack 501) (argc.signExtend 64))
      (slot stack 500) args := by
  have top : stack + pgsize - 8 = slot stack 511 := by
    simp only [slot, pgsize]
    bv_omega
  have inner : ∀ i, slot (slot stack 496) i = slot stack (496 + i) := by
    intro i
    rw [slot, slot, slot, BitVec.add_assoc, ← BitVec.ofNat_add]
    rw [Nat.mul_add]
  rw [initContext, context_address, top, inner, inner]
  rfl

theorem onlyPage_context (m : Mem) (p : Word) {k : Nat} (room : k ≤ 128) :
    OnlyPage p m (fill m (slot p 496) 0 k) := by
  intro x outside
  refine if_neg fun inside => outside ?_
  have : slot p 496 = p + BitVec.ofNat 64 (8 * 496) := rfl
  bv_omega

theorem initContext_only (startFunction args : Word) (argc : BitVec 32) {ps : List Word}
    (memberT : thread ∈ ps) (memberS : stack ∈ ps) :
    OnlyPages ps mem (initContext mem thread (stack + pgsize) startFunction argc args) := by
  rw [initContext_eq]
  have first := (OnlyPages.refl ps mem).store (i := 511) (v := startFunction) (by decide) memberS
  have cleared := first.trans ((onlyPage_context _ stack (show 120 ≤ 128 by decide)).pages memberS)
  exact ((cleared.store (by decide) memberT).store (by decide) memberS).store (by decide) memberS

/-- The fields of the thread after `initContext`. -/
theorem initContext_field (alignedT : PageAligned thread) (alignedS : PageAligned stack)
    (different : stack ≠ thread) {i : Nat} (hi : i < 512) :
    load64 (initContext mem thread (stack + pgsize) startFunction argc args) (slot thread i) =
      if i = 0 then slot stack 496 else load64 mem (slot thread i) := by
  have kept := (onlyPage_context (store64 mem (slot stack 511) startFunction) stack
    (show 120 ≤ 128 by decide)).load64 alignedS alignedT hi different
  rw [initContext_eq, load64_store64_slot _ _ alignedS alignedT (by decide) hi,
    load64_store64_slot _ _ alignedS alignedT (by decide) hi,
    load64_store64_slot _ _ alignedT alignedT (by decide) hi, kept,
    load64_store64_slot _ _ alignedS alignedT (by decide) hi]
  simp only [different, false_and, if_false, true_and, eq_comm]

variable {kstack : Word}

theorem initFields_only (startFunction args : Word) (argc : BitVec 32) {ps : List Word}
    (memberT : thread ∈ ps) (memberS : stack ∈ ps) (memberK : kstack ∈ ps) :
    OnlyPages ps mem (initFields mem thread stack kstack startFunction argc args) := by
  have cleared := ((onlyPage_fill mem stack 0).pages memberS).trans
    ((onlyPage_fill _ kstack 0).pages memberK)
  have tops := (cleared.store (i := 3) (v := kstack + pgsize) (by decide) memberT).store (i := 2)
    (v := stack + pgsize) (by decide) memberT
  exact ((tops.store (by decide) memberT).store (by decide) memberT).store (by decide) memberT

/-- The fields of the thread after `initFields`. -/
theorem initFields_field (aligned : PageAligned thread) {i : Nat} (inside : i < 512) :
    load64 (initFields mem thread stack kstack startFunction argc args) (slot thread i) =
      if i = 5 then args else if i = 4 then argc.signExtend 64 else if i = 1 then startFunction
      else if i = 2 then stack + pgsize else if i = 3 then kstack + pgsize
      else load64 (memset (memset mem stack 0 4096) kstack 0 4096) (slot thread i) := by
  have field := fun mem v {k} (small : k < 512) =>
    load64_store64_slot (i := k) mem v aligned aligned small inside
  rw [initFields, field _ _ (by decide), field _ _ (by decide), field _ _ (by decide),
    field _ _ (by decide), field _ _ (by decide)]
  simp only [true_and, eq_comm]

end Context

/-! ### Building a thread -/

variable {L : Layout} {s s' : Phys} {free : List Word} {thread stack kstack startFunction args : Word}
  {argc : BitVec 32}

theorem exists_three (enough : ¬ free.length < 3) : ∃ a b c rest, free = a :: b :: c :: rest := by
  rcases free with _ | ⟨a, _ | ⟨b, _ | ⟨c, rest⟩⟩⟩
  · exact absurd (Nat.succ_pos 2) enough
  · exact absurd (Nat.lt_of_sub_eq_succ rfl) enough
  · exact absurd (Nat.lt_of_sub_eq_succ rfl) enough
  · exact ⟨a, b, c, rest, rfl⟩

/-- **Three free pages make a thread.** -/
theorem createThread_ok (startFunction args : Word) (argc : BitVec 32)
    (list : FreeList L s (thread :: stack :: kstack :: free)) :
    ∃ s', createThread startFunction argc args s = .ok (thread, s') ∧ FreeList L s' free ∧
      OnlyPages [thread, stack, kstack] s.mem s'.mem ∧
      ThreadBuilt s'.mem thread stack startFunction argc args ∧
      load64 s'.mem (slot thread 3) = kstack + pgsize := by
  have pageT := list.page thread (by simp)
  have pageS := list.page stack (by simp)
  have pageK := list.page kstack (by simp)
  have nodup := list.nodup
  simp only [List.nodup_cons, List.mem_cons, not_or] at nodup
  obtain ⟨⟨notS, notK, notFree⟩, ⟨notSK, notFreeS⟩, notFreeK, -⟩ := nodup
  obtain ⟨s₁, take₁, list₁, only₁⟩ := kalloc_cons list
  obtain ⟨s₂, take₂, list₂, only₂⟩ := kalloc_cons list₁
  have list₂' := list₂.other pageT.aligned
    (by simp [notK, notFree]) (onlyPage_store s₂.mem 2 stack (by decide))
  obtain ⟨s₃, take₃, list₃, only₃⟩ := kalloc_cons list₂'
  have memberT : thread ∈ [thread, stack, kstack] := by simp
  have memberS : stack ∈ [thread, stack, kstack] := by simp
  have memberK : kstack ∈ [thread, stack, kstack] := by simp
  have taken : OnlyPages [thread, stack, kstack] s.mem s₃.mem :=
    (((only₁.pages memberT).trans (only₂.pages memberS)).store (by decide) memberT).trans
      (only₃.pages memberK)
  have built : OnlyPages [thread, stack, kstack] s₃.mem _ :=
    (((OnlyPages.refl _ s₃.mem).store (i := 3) (v := kstack) (by decide) memberT).trans
      (initFields_only startFunction args argc memberT memberS memberK)).trans
        (initContext_only startFunction args argc memberT memberS)
  refine ⟨_, ?_, list₃.others ?_ ?_ built, taken.trans built, ⟨?_, ?_, ?_⟩, ?_⟩
  · simp only [createThread, initThread, take₁, take₂, take₃]
    rw [if_neg (not_or.mpr ⟨pageT.ne_zero, not_or.mpr ⟨pageS.ne_zero, pageK.ne_zero⟩⟩)]
    rfl
  · simp [pageT.aligned, pageS.aligned, pageK.aligned]
  · intro p member inside
    simp only [List.mem_cons, List.not_mem_nil, or_false] at inside
    rcases inside with rfl | rfl | rfl
    · exact notFree member
    · exact notFreeS member
    · exact notFreeK member
  · rw [initContext_field pageT.aligned pageS.aligned (Ne.symm notS) (by decide), if_neg (by decide)]
    exact initFields_field pageT.aligned (by decide)
  · exact initContext_field pageT.aligned pageS.aligned (Ne.symm notS) (by decide)
  · exact initContext_words pageT.aligned pageS.aligned notS
  · rw [initContext_field pageT.aligned pageS.aligned (Ne.symm notS) (by decide), if_neg (by decide)]
    exact initFields_field pageT.aligned (by decide)

/-- **With fewer pages a call stores through null**: none of the three is checked. -/
theorem createThread_short (startFunction args : Word) (argc : BitVec 32) (list : FreeList L s free)
    (short : free.length < 3) : createThread startFunction argc args s = .error .nullStore := by
  rcases free with _ | ⟨t, _ | ⟨stack, _ | ⟨kstack, rest⟩⟩⟩
  · simp only [createThread, initThread, kalloc_nil list, true_or, if_true]
    rfl
  · obtain ⟨s₁, take₁, list₁, -⟩ := kalloc_cons list
    simp only [createThread, initThread, take₁, kalloc_nil list₁, true_or, or_true, if_true]
    rfl
  · obtain ⟨s₁, take₁, list₁, -⟩ := kalloc_cons list
    obtain ⟨s₂, take₂, list₂, -⟩ := kalloc_cons list₁
    have list₂' := list₂.other (list.page t List.mem_cons_self).aligned List.not_mem_nil
      (onlyPage_store s₂.mem 2 stack (by decide))
    simp only [createThread, initThread, take₁, take₂, kalloc_nil list₂', or_true, if_true]
    rfl
  · exact absurd short (by simp)

/-- **A call of `create_thread` that returns** has built a thread in the first three free pages. -/
theorem createThread_spec (list : FreeList L s free)
    (done : createThread startFunction argc args s = .ok (thread, s')) :
    ∃ stack kstack rest, free = thread :: stack :: kstack :: rest ∧ FreeList L s' rest ∧
      OnlyPages [thread, stack, kstack] s.mem s'.mem ∧
      ThreadBuilt s'.mem thread stack startFunction argc args := by
  by_cases short : free.length < 3
  · rw [createThread_short startFunction args argc list short] at done
    cases done
  · obtain ⟨t, stack, kstack, rest, rfl⟩ := exists_three short
    obtain ⟨_, done', list', only, built, -⟩ := createThread_ok startFunction args argc list
    rw [done] at done'
    cases done'
    exact ⟨stack, kstack, rest, rfl, list', only, built⟩

end ShipOS

/-
**Memory layout: pages, their word slots, and the ways kernel code stops.**

`memlayout.h` as it stands: the constants, `PGROUNDUP` and `PGROUNDDOWN` on 64-bit words (so both
wrap exactly as the C macros do on `uint64_t`), and the linker symbol `end`, which `linker.ld`
places after the kernel image that starts at `1M` (`Layout`). The allocator and the page tables read
only `end` and `PHYSTOP`, and what is said of them holds for all such `Bounds`.

* `Halt` — the ways a call does not return: a `panic` with its text, a store through the null
  pointer, or a loop that never ends;
* `forPages` — the `for (…; cond; addr += PGSIZE)` loops of the kernel. The address takes at most
  `2 ^ 52` values, and the conditions read nothing else, so a loop that is still running after
  `pageFuel` rounds never ends;
* `slot p i` — the `i`-th 64-bit word of the page `p`; words of different pages, and different
  words of one page, are apart.
-/

import ShipOS.Lib.ByteMem

universe u v

namespace ShipOS

open ByteMem

/-! ### Constants and rounding -/

def kstart : Word := 0x100000

def pgsize : Word := 4096

/-- `INIT_PHYSTOP`: 2 MB. -/
def initPhystop : Word := 2 * 1024 * 1024

/-- `PHYSTOP`: 128 MB. -/
def phystop : Word := 128 * 1024 * 1024

def pgroundup (sz : Word) : Word := (sz + pgsize - 1) &&& ~~~(pgsize - 1)

def pgrounddown (a : Word) : Word := a &&& ~~~(pgsize - 1)

/-- The linker symbol `end`: the first address after the kernel, which is linked at `KSTART`. -/
structure Layout where
  kend : Word
  above : kstart ≤ kend

/-- `end` and `PHYSTOP`, as far as the allocator is concerned: the frames below `PHYSTOP` fit the 36
bits of a page-table entry. -/
structure Bounds where
  kend : Word
  above : kstart ≤ kend
  phystop : Word
  below : phystop.toNat ≤ 2 ^ 48

/-- The bounds of this kernel. -/
def Layout.bounds (L : Layout) : Bounds := ⟨L.kend, L.above, phystop, by decide⟩

instance : Coe Layout Bounds := ⟨Layout.bounds⟩

/-- A kernel that ends at `2` MB. -/
def demoLayout : Layout := ⟨0x200000, by decide⟩

theorem pgsize_toNat : pgsize.toNat = 4096 := rfl

theorem and_not_mask (x : Word) : x &&& ~~~(pgsize - 1) = (x >>> 12) <<< 12 := by
  apply BitVec.eq_of_getLsbD_eq
  intro i hi
  have mask : ∀ j < 64, (~~~(pgsize - 1)).getLsbD j = decide (12 ≤ j) := by decide
  rw [BitVec.getLsbD_and, mask i hi, BitVec.getLsbD_shiftLeft, BitVec.getLsbD_ushiftRight]
  by_cases high : 12 ≤ i
  · simp [high, hi, Nat.not_lt.mpr high, show 12 + (i - 12) = i by omega]
  · simp [high, Nat.lt_of_not_le high]

theorem pgrounddown_toNat (x : Word) : (pgrounddown x).toNat = x.toNat / 4096 * 4096 := by
  have bound := x.isLt
  rw [pgrounddown, and_not_mask, BitVec.toNat_shiftLeft, BitVec.toNat_ushiftRight,
    Nat.shiftRight_eq_div_pow, Nat.shiftLeft_eq]
  omega

theorem pgroundup_toNat (x : Word) :
    (pgroundup x).toNat = (x.toNat + 4095) % 2 ^ 64 / 4096 * 4096 := by
  have same : x + pgsize - 1 = x + 4095 := by
    simp only [pgsize]
    bv_omega
  rw [pgroundup, same, ← pgrounddown, pgrounddown_toNat, BitVec.toNat_add]
  rfl

/-! ### Halting -/

/-- The ways a kernel call does not return. -/
inductive Halt
  | panic (message : String)
  /-- A store through the null pointer, which C leaves undefined. -/
  | nullStore
  | diverges
  deriving DecidableEq, Repr

instance {α : Type*} [DecidableEq α] : DecidableEq (Except Halt α)
  | .ok a, .ok b => decidable_of_iff (a = b) (by simp)
  | .error a, .error b => decidable_of_iff (a = b) (by simp)
  | .ok _, .error _ => .isFalse nofun
  | .error _, .ok _ => .isFalse nofun

@[simp] theorem ok_bind {ε : Type v} {α β : Type u} (a : α) (f : α → Except ε β) :
    ((Except.ok a : Except ε α) >>= f) = f a := rfl

/-- A sequence that returns: both parts return. -/
theorem bind_ok {ε : Type v} {α β : Type u} {x : Except ε α} {f : α → Except ε β} {b : β}
    (done : (x >>= f) = .ok b) : ∃ a, x = .ok a ∧ f a = .ok b := by
  cases x with
  | error halt => cases done
  | ok a => exact ⟨a, rfl, done⟩

/-! ### Loops over pages -/

section Loops

variable {S : Type*}

/-- `for (; cond addr; addr += PGSIZE) body`. -/
def forPages (cond : Word → Bool) (body : Word → S → Except Halt S) :
    Nat → Word → S → Except Halt S
  | 0, _, _ => .error .diverges
  | fuel + 1, addr, s =>
    if cond addr then do
      let s ← body addr s
      forPages cond body fuel (addr + pgsize) s
    else .ok s

/-- One round more than there are addresses `addr + i * PGSIZE`. -/
def pageFuel : Nat := 2 ^ 52 + 1

/-- The `i`-th address of a page loop. -/
def pageAt (addr : Word) (i : Nat) : Word := addr + BitVec.ofNat 64 (4096 * i)

@[simp] theorem pageAt_zero (addr : Word) : pageAt addr 0 = addr := by
  simp [pageAt]

theorem pageAt_succ (addr : Word) (i : Nat) : pageAt addr (i + 1) = pageAt (addr + pgsize) i := by
  simp only [pageAt, pgsize]
  bv_omega

theorem pageAt_toNat (addr : Word) (i : Nat) :
    (pageAt addr i).toNat = (addr.toNat + 4096 * i) % 2 ^ 64 := by
  rw [pageAt, BitVec.toNat_add, BitVec.toNat_ofNat, Nat.add_mod_mod]

variable {cond : Word → Bool} {body : Word → S → Except Halt S}

/-- The calls of the body, each with the state it finds. -/
def forPagesCalls (cond : Word → Bool) (body : Word → S → Except Halt S) :
    Nat → Word → S → List (Word × S)
  | 0, _, _ => []
  | fuel + 1, addr, s =>
    if cond addr then
      (addr, s) :: match body addr s with
        | .ok s => forPagesCalls cond body fuel (addr + pgsize) s
        | .error _ => []
    else []

/-- The rounds up to the `i`-th have been run. -/
def Visited (cond : Word → Bool) (addr : Word) (i : Nat) : Prop :=
  ∀ j ≤ i, cond (pageAt addr j) = true

theorem Visited.succ {addr : Word} {i : Nat} (first : cond addr = true)
    (rest : Visited cond (addr + pgsize) i) : Visited cond addr (i + 1) := by
  intro j early
  cases j with
  | zero => rwa [pageAt_zero]
  | succ j =>
    rw [pageAt_succ]
    exact rest j (Nat.le_of_succ_le_succ early)

/-- **A page loop keeps what its body keeps**, at every call and at the end. -/
theorem forPages_invariant (Inv : S → Prop) : ∀ (fuel : Nat) (addr : Word) (s : S),
    (∀ i s t, Visited cond addr i → Inv s → body (pageAt addr i) s = .ok t → Inv t) → Inv s →
      (∀ a u, (a, u) ∈ forPagesCalls cond body fuel addr s →
        Inv u ∧ ∃ i, a = pageAt addr i ∧ Visited cond addr i) ∧
      ∀ t, forPages cond body fuel addr s = .ok t → Inv t := by
  intro fuel
  induction fuel with
  | zero =>
    intro addr s _ _
    refine ⟨fun a u member => ?_, fun t done => ?_⟩
    · cases member
    · cases done
  | succ fuel ih =>
    intro addr s keep start
    rw [forPagesCalls, forPages]
    by_cases go : cond addr = true
    · have here : Visited cond addr 0 := by
        intro j early
        rwa [Nat.le_zero.mp early, pageAt_zero]
      rw [if_pos go, if_pos go]
      cases step : body addr s with
      | error halt =>
        refine ⟨fun a u member => ?_, fun t done => ?_⟩
        · cases List.mem_singleton.mp member
          exact ⟨start, 0, (pageAt_zero addr).symm, here⟩
        · cases done
      | ok mid =>
        have kept : Inv mid := keep 0 s mid here start (by rwa [pageAt_zero])
        obtain ⟨calls, last⟩ := ih (addr + pgsize) mid
          (fun i s t visited => by rw [← pageAt_succ]; exact keep (i + 1) s t (visited.succ go)) kept
        refine ⟨fun a u member => ?_, last⟩
        rcases List.mem_cons.mp member with now | later
        · cases now
          exact ⟨start, 0, (pageAt_zero addr).symm, here⟩
        · obtain ⟨inv, i, address, visited⟩ := calls a u later
          exact ⟨inv, i + 1, by rw [pageAt_succ, address], visited.succ go⟩
    · rw [if_neg go, if_neg go]
      refine ⟨fun a u member => ?_, fun t done => ?_⟩
      · cases member
      · cases done
        exact start

theorem forPages_keeps (Inv : S → Prop)
    (keep : ∀ addr s t, Inv s → body addr s = .ok t → Inv t) {fuel : Nat} {addr : Word} {s t : S}
    (start : Inv s) (done : forPages cond body fuel addr s = .ok t) : Inv t :=
  (forPages_invariant Inv fuel addr s (fun _ s t _ => keep _ s t) start).2 t done

/-- The body at `n` page addresses in turn. -/
def onPages (body : Word → S → Except Halt S) : Nat → Word → S → Except Halt S
  | 0, _, s => .ok s
  | n + 1, addr, s => do
    let s ← body addr s
    onPages body n (addr + pgsize) s

/-- **A page loop whose condition holds for exactly `n` rounds.** -/
theorem forPages_eq (n : Nat) : ∀ (fuel : Nat) (addr : Word) (s : S), n < fuel →
    (∀ i < n, cond (pageAt addr i) = true) → cond (pageAt addr n) = false →
      forPages cond body fuel addr s = onPages body n addr s := by
  induction n with
  | zero =>
    intro fuel addr s enough _ stop
    obtain ⟨fuel, rfl⟩ := Nat.exists_eq_add_one.mpr enough
    rw [pageAt_zero] at stop
    simp [forPages, onPages, stop]
  | succ n ih =>
    intro fuel addr s enough go stop
    obtain ⟨fuel, rfl⟩ := Nat.exists_eq_add_one.mpr (Nat.zero_lt_of_lt enough)
    have here := go 0 (Nat.succ_pos n)
    rw [pageAt_zero] at here
    rw [forPages, if_pos here, onPages]
    refine congrArg _ (funext fun mid => ?_)
    exact ih fuel (addr + pgsize) mid (Nat.lt_of_succ_lt_succ enough)
      (fun i hi => by rw [← pageAt_succ]; exact go (i + 1) (Nat.succ_lt_succ hi))
      (by rw [← pageAt_succ]; exact stop)

end Loops

/-! ### Pages and their words -/

/-- A page address. -/
def PageAligned (p : Word) : Prop := p.toNat % 4096 = 0

instance (p : Word) : Decidable (PageAligned p) := inferInstanceAs (Decidable (_ = _))

/-- The address of the `i`-th word of the page `p`. -/
def slot (p : Word) (i : Nat) : Word := p + BitVec.ofNat 64 (8 * i)

variable {p q : Word} {i j : Nat}

theorem slot_toNat (aligned : PageAligned p) (hi : i < 512) :
    (slot p i).toNat = p.toNat + 8 * i := by
  have := p.isLt
  unfold PageAligned at aligned
  rw [slot, BitVec.toNat_add, BitVec.toNat_ofNat]
  omega

@[simp] theorem slot_zero (p : Word) : slot p 0 = p := by
  simp [slot]

/-- Different words of one page, and words of different pages, are apart. -/
theorem apart_slot (alignedP : PageAligned p) (alignedQ : PageAligned q) (hi : i < 512)
    (hj : j < 512) (different : ¬ (p = q ∧ i = j)) : Apart (slot p i) 8 (slot q j) 8 := by
  have atP := slot_toNat alignedP hi
  have atQ := slot_toNat alignedQ hj
  unfold PageAligned at alignedP alignedQ
  apply apart_of_aligned
  · omega
  · omega
  · intro same
    have equal : (slot p i).toNat = (slot q j).toNat := by rw [same]
    exact different ⟨BitVec.eq_of_toNat_eq (by omega), by omega⟩

theorem slot_inside (hj : j < 512) : (slot p j - p).toNat + 8 ≤ 4096 := by
  have offset : slot p j - p = BitVec.ofNat 64 (8 * j) := by
    rw [slot]
    bv_omega
  rw [offset, BitVec.toNat_ofNat]
  omega

end ShipOS

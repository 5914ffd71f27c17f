/-
**The bytes of a spinlock (`init_spinlock`, `init_mutex`).**

`is_locked` is the first byte of a `struct spinlock`, `name` its second word; three bytes of padding
are between them and four more. `init_spinlock` clears the one byte, while the lock is taken and
released with its first four. Here the operations of `Spinlock` are executed on these bytes.

* `Op.execBytes`, `runAlone` — the code of a CPU that nobody disturbs, on locks in memory;
* `spins_forever` — a lock word that is not zero is never taken;
* `freshLock_iff` — a fresh lock can be taken exactly if its padding was zero; the page of a mutex is
  filled with junk, so a fresh mutex is never taken.
-/

import ShipOS.Memory.Kalloc
import ShipOS.Sync.Spinlock

namespace ShipOS

open ByteMem

variable {mem : Mem} {lock name lk : Word} {flags : Flags} {vars : Activity Word}
  {code : List (Op Word)} {fuel : Nat}

/-! ### The code on bytes -/

/-- `&lock->name`. -/
def nameAddr (lock : Word) : Word := lock + 8

/-- `lock->is_locked = 0; lock->name = name`. -/
def initSpinlock (mem : Mem) (lock name : Word) : Mem :=
  store64 (Function.update mem lock 0) (nameAddr lock) name

/-- The lock that an operation writes. -/
def Op.writes : Op Word → Option Word
  | .xchg l => some l
  | .unlock l => some l
  | _ => none

/-- One operation on locks in memory: the word of a lock is the four bytes at its address. -/
def Op.execBytes (mem : Mem) (flags : Flags) (vars : Activity Word) (op : Op Word) :
    Except Halt (Mem × Flags × Activity Word × Bool) := do
  let (word, flags, vars, next) ← op.exec (load32 mem) flags vars
  match op.writes with
  | some l => .ok (store32 mem l (word l), flags, vars, next)
  | none => .ok (mem, flags, vars, next)

/-- A CPU that nobody disturbs. -/
structure Alone where
  mem : Mem
  flags : Flags
  vars : Activity Word

/-- Code executed by one CPU while no one else touches the locks. -/
def runAlone : Nat → List (Op Word) → Alone → Except Halt Alone
  | _, [], s => .ok s
  | 0, _ :: _, _ => .error .diverges
  | fuel + 1, op :: code, s => do
    let (mem, flags, vars, next) ← op.execBytes s.mem s.flags s.vars
    runAlone fuel (if next then code else op :: code) ⟨mem, flags, vars⟩

/-- `init_mutex`: `spinlock` is the first word of a `struct mutex`, `thread_list` the second. -/
def initMutex (lk name : Word) (s : Phys) : Except Halt Phys :=
  let (spinlock, s) := kalloc s
  let mem := store64 s.mem lk spinlock
  let mem := store64 mem (lk + 8) 0
  -- The page is not checked to be there before `init_spinlock` writes it.
  if spinlock = 0 then .error .nullStore else .ok { s with mem := initSpinlock mem spinlock name }

/-- `acquire_mutex`; `wait` is what it does when it finds the mutex locked. -/
def acquireMutex (wait : Alone → Except Halt Alone) (fuel : Nat) (lk : Word) (s : Alone) :
    Except Halt Alone :=
  if lk = 0 then .error (.panic "panic in acquire_mutex")
  else do
    let s ← runAlone fuel (holdingSpinlock (load64 s.mem lk)) s
    if s.vars.r = 0 then runAlone fuel (acquireSpinlock (load64 s.mem lk)) s else wait s

/-! ### The functions, step by step -/

/-- IF, `ncli` and `intena` after `pushcli`. -/
def Flags.pushed (f : Flags) : Flags := ⟨false, f.ncli + 1, if f.ncli = 0 then f.ifl else f.intena⟩

/-- IF, `ncli` and `intena` after `popcli`. -/
def Flags.popped (f : Flags) : Flags :=
  if f.ncli - 1 = 0 ∧ f.intena then ⟨true, f.ncli - 1, f.intena⟩ else ⟨f.ifl, f.ncli - 1, f.intena⟩

/-- An operation that writes no lock and goes on to the next. -/
theorem run_quiet {op : Op Word} {s : Alone} {word : Word → BitVec 32}
    (done : op.exec (load32 s.mem) s.flags s.vars = .ok (word, flags, vars, true))
    (quiet : op.writes = none) :
    runAlone (fuel + 1) (op :: code) s = runAlone fuel code ⟨s.mem, flags, vars⟩ := by
  rw [runAlone, Op.execBytes, done, quiet]
  rfl

theorem run_pushcli (s : Alone) : runAlone (fuel + 4) (pushcli ++ code) s =
    runAlone fuel code ⟨s.mem, s.flags.pushed, { s.vars with eflags := s.flags.ifl }⟩ := by
  obtain ⟨mem, ⟨ifl, ncli, intena⟩, vars⟩ := s
  have saved : (if ncli = 0 then ⟨false, ncli, ifl⟩ else ⟨false, ncli, intena⟩ : Flags) =
      ⟨false, ncli, if ncli = 0 then ifl else intena⟩ := by
    split <;> rfl
  change runAlone (fuel + 4) (.readFlags :: .cli :: .save :: .inc :: code) _ = _
  rw [run_quiet rfl rfl, run_quiet rfl rfl, run_quiet rfl rfl]
  dsimp only
  rw [saved, run_quiet rfl rfl]
  rfl

theorem run_popcli (s : Alone) (off : s.flags.ifl = false)
    (level : 0 < s.flags.ncli.toNat ∧ s.flags.ncli.toNat ≤ 2 ^ 31) :
    runAlone (fuel + 4) (popcli ++ code) s = runAlone fuel code ⟨s.mem, s.flags.popped, s.vars⟩ := by
  obtain ⟨mem, ⟨ifl, ncli, intena⟩, vars⟩ := s
  dsimp only at off level
  subst off
  have nonneg : ¬ (ncli - 1).toInt < 0 := by
    have one : (ncli - 1).toNat = ncli.toNat - 1 := by bv_omega
    rw [BitVec.toInt_eq_toNat_cond, one]
    split <;> omega
  have tested : Op.exec (load32 mem) ⟨false, ncli - 1, intena⟩ vars .testNeg =
      .ok (load32 mem, ⟨false, ncli - 1, intena⟩, vars, true) := if_neg nonneg
  change runAlone (fuel + 4) (.testIf :: .dec :: .testNeg :: .restore :: code) _ = _
  rw [run_quiet rfl rfl, run_quiet rfl rfl]
  dsimp only
  rw [run_quiet tested rfl, run_quiet rfl rfl]
  rfl

/-- An operation that writes a lock. -/
theorem run_write {op : Op Word} {s : Alone} {v : BitVec 32} {next : Bool}
    (done : op.exec (load32 s.mem) s.flags s.vars =
      .ok (Function.update (load32 s.mem) lock v, flags, vars, next))
    (writes : op.writes = some lock) : runAlone (fuel + 1) (op :: code) s =
      runAlone fuel (if next then code else op :: code) ⟨store32 s.mem lock v, flags, vars⟩ := by
  rw [runAlone, Op.execBytes, done, writes, ok_bind]
  dsimp only
  rw [Function.update_self]
  rfl

/-- `xchg` of a free lock. -/
theorem run_xchg_free (s : Alone) (free : load32 s.mem lock = 0) :
    runAlone (fuel + 1) (.xchg lock :: code) s = runAlone fuel code
      ⟨store32 s.mem lock 1, s.flags, { s.vars with holds := lock :: s.vars.holds }⟩ := by
  have done : Op.exec (load32 s.mem) s.flags s.vars (.xchg lock) =
      .ok (Function.update (load32 s.mem) lock 1, s.flags,
        { s.vars with holds := lock :: s.vars.holds }, true) := if_pos free
  exact run_write done rfl

/-- `xchg` of a lock that is not free: once more. -/
theorem run_xchg_taken (s : Alone) (taken : load32 s.mem lock ≠ 0) :
    runAlone (fuel + 1) (.xchg lock :: code) s =
      runAlone fuel (.xchg lock :: code) ⟨store32 s.mem lock 1, s.flags, s.vars⟩ := by
  have done : Op.exec (load32 s.mem) s.flags s.vars (.xchg lock) =
      .ok (Function.update (load32 s.mem) lock 1, s.flags, s.vars, false) := if_neg taken
  exact run_write done rfl

/-- `movl $0`. -/
theorem run_unlock (s : Alone) : runAlone (fuel + 1) (.unlock lock :: code) s = runAlone fuel code
    ⟨store32 s.mem lock 0, s.flags, { s.vars with holds := s.vars.holds.erase lock }⟩ := by
  have done : Op.exec (load32 s.mem) s.flags s.vars (.unlock lock) =
      .ok (Function.update (load32 s.mem) lock 0, s.flags,
        { s.vars with holds := s.vars.holds.erase lock }, true) := rfl
  exact run_write done rfl

/-- **A lock word that is not zero is never taken.** -/
theorem spins_forever (fuel : Nat) : ∀ s : Alone, load32 s.mem lock ≠ 0 →
    runAlone fuel (.xchg lock :: code) s = .error .diverges := by
  induction fuel with
  | zero => exact fun _ _ => rfl
  | succ fuel ih =>
    intro s taken
    rw [run_xchg_taken s taken]
    refine ih _ ?_
    rw [load32_store32_self]
    decide

/-- With more fuel the result is the same, once there is one. -/
theorem runAlone_enough (k fuel : Nat) : ∀ (code : List (Op Word)) (s : Alone),
    runAlone fuel code s = .error .diverges ∨ runAlone (fuel + k) code s = runAlone fuel code s := by
  induction fuel with
  | zero =>
    intro code s
    cases code with
    | nil => exact .inr (by rw [runAlone, runAlone])
    | cons op code => exact .inl rfl
  | succ fuel ih =>
    intro code s
    cases code with
    | nil => exact .inr (by rw [runAlone, runAlone])
    | cons op code =>
      rw [Nat.add_right_comm, runAlone, runAlone]
      cases op.execBytes s.mem s.flags s.vars with
      | error halt => exact .inr rfl
      | ok result => exact ih _ _

/-! ### Taking and releasing a lock -/

section Lock

variable (s : Alone) (lock : Word)

/-- **A free lock is taken at once**, in the first iteration. -/
theorem acquire_free (free : load32 s.mem lock = 0) :
    runAlone (acquireSpinlock lock).length (acquireSpinlock lock) s = .ok
      ⟨store32 s.mem lock 1, s.flags.pushed,
        { s.vars with eflags := s.flags.ifl, holds := lock :: s.vars.holds }⟩ := by
  change runAlone (1 + 4) (pushcli ++ [.xchg lock]) s = _
  rw [run_pushcli]
  exact run_xchg_free ⟨s.mem, s.flags.pushed, _⟩ free

/-- **A lock that is not free is never taken.** -/
theorem acquire_taken (taken : load32 s.mem lock ≠ 0) (fuel : Nat) :
    runAlone fuel (acquireSpinlock lock) s = .error .diverges := by
  rcases runAlone_enough 4 fuel (acquireSpinlock lock) s with short | same
  · exact short
  · rw [← same, acquireSpinlock, run_pushcli]
    exact spins_forever fuel _ taken

/-- `holding_spinlock` reads the byte. -/
theorem run_holding (room : s.flags.ncli.toNat < 2 ^ 31) :
    runAlone (fuel + 9) (holdingSpinlock lock ++ code) s = runAlone fuel code
      ⟨s.mem, s.flags.pushed.popped,
        { s.vars with eflags := s.flags.ifl, r := (load32 s.mem lock).setWidth 8 }⟩ := by
  have level : 0 < s.flags.pushed.ncli.toNat ∧ s.flags.pushed.ncli.toNat ≤ 2 ^ 31 := by
    rw [Flags.pushed]
    bv_omega
  rw [holdingSpinlock, List.append_assoc, List.append_assoc]
  change runAlone (fuel + 5 + 4) _ s = _
  rw [run_pushcli, List.singleton_append, run_quiet rfl rfl]
  exact run_popcli _ rfl level

theorem Flags.pushed_popped {f : Flags} (deep : f.ncli ≠ 0) :
    f.pushed.popped = ⟨false, f.ncli, f.intena⟩ := by
  have same : f.ncli + 1 - 1 = f.ncli := by bv_omega
  rw [Flags.pushed, if_neg deep, Flags.popped, if_neg fun both => deep (same ▸ both.1), same]

/-- **A lock that is held is released.** -/
theorem release_held (locked : (load32 s.mem lock).setWidth 8 ≠ (0 : BitVec 8))
    (deep : s.flags.ncli ≠ 0) (room : s.flags.ncli.toNat < 2 ^ 31) :
    ∃ s', runAlone (releaseSpinlock lock).length (releaseSpinlock lock) s = .ok s' ∧
      s'.mem = store32 s.mem lock 0 := by
  have level : 0 < s.flags.ncli.toNat ∧ s.flags.ncli.toNat ≤ 2 ^ 31 := by bv_omega
  have code : releaseSpinlock lock =
      holdingSpinlock lock ++ (.check :: .unlock lock :: (popcli ++ [])) := rfl
  have length : (releaseSpinlock lock).length = 0 + 4 + 1 + 1 + 9 := rfl
  rw [length, code, run_holding s lock room, Flags.pushed_popped deep]
  -- The byte was read before.
  generalize read : ({ s.vars with eflags := _, r := _ } : Activity Word) = vars
  have byte : vars.r ≠ 0 := read ▸ locked
  have checked : Op.exec (load32 s.mem) ⟨false, s.flags.ncli, s.flags.intena⟩ vars .check =
      .ok (load32 s.mem, ⟨false, s.flags.ncli, s.flags.intena⟩, vars, true) := if_neg byte
  rw [run_quiet checked rfl, run_unlock]
  exact ⟨_, run_popcli _ rfl level, rfl⟩

end Lock

/-! ### A fresh lock -/

/-- The three bytes of padding after `is_locked` are zero. -/
def PaddingZero (mem : Mem) (lock : Word) : Prop :=
  mem (lock + 1) = 0 ∧ mem (lock + 2) = 0 ∧ mem (lock + 3) = 0

theorem initSpinlock_first : initSpinlock mem lock name lock = 0 := by
  have outside : ¬ (lock - nameAddr lock).toNat < 8 := by
    rw [nameAddr]
    bv_omega
  rw [initSpinlock, store64, writeLE, if_neg outside, Function.update_self]

/-- The padding keeps its bytes. -/
theorem initSpinlock_padding {i : Word} (inside : i = 1 ∨ i = 2 ∨ i = 3) :
    initSpinlock mem lock name (lock + i) = mem (lock + i) := by
  have outside : ¬ (lock + i - nameAddr lock).toNat < 8 := by
    rw [nameAddr]
    rcases inside with rfl | rfl | rfl <;> bv_omega
  have other : lock + i ≠ lock := by
    rcases inside with rfl | rfl | rfl <;> bv_omega
  rw [initSpinlock, store64, writeLE, if_neg outside, Function.update_of_ne other]

/-- The lock word, byte by byte. -/
theorem load32_eq_zero_iff : load32 mem lock = 0 ↔ mem lock = 0 ∧ PaddingZero mem lock := by
  have second : lock + 1 + 1 = lock + 2 := by bv_omega
  have third : lock + 2 + 1 = lock + 3 := by bv_omega
  rw [load32, readLE, readLE, readLE, readLE, readLE, second, third, PaddingZero]
  bv_omega

/-- `is_locked` is the low byte of the lock word. -/
theorem load32_byte (mem : Mem) (lock : Word) : (load32 mem lock).setWidth 8 = mem lock := by
  rw [load32, readLE]
  bv_omega

theorem initSpinlock_word :
    load32 (initSpinlock mem lock name) lock = 0 ↔ PaddingZero mem lock := by
  rw [load32_eq_zero_iff, PaddingZero, initSpinlock_padding (.inl rfl),
    initSpinlock_padding (.inr (.inl rfl)), initSpinlock_padding (.inr (.inr rfl))]
  exact and_iff_right initSpinlock_first

/-- The name is apart from the lock word. -/
theorem store32_name (mem : Mem) (lock : Word) (v : BitVec 32) :
    load64 (store32 mem lock v) (nameAddr lock) = load64 mem (nameAddr lock) := by
  have apart : Apart lock 4 (nameAddr lock) 8 := by
    rw [nameAddr]
    constructor <;> bv_omega
  exact congrArg (BitVec.ofNat 64) (readLE_writeLE_apart mem v.toNat apart)

/-- **A fresh lock works**: on a CPU that nobody disturbs it is taken at the first try, released, and
can be taken at the first try again, and it has its name all the time. -/
def FreshLock (mem : Mem) (lock name : Word) : Prop :=
  ∀ (flags : Flags) (vars : Activity Word), flags.ncli.toNat + 2 < 2 ^ 31 → ∃ s₁ s₂ s₃,
    runAlone (acquireSpinlock lock).length (acquireSpinlock lock)
      ⟨initSpinlock mem lock name, flags, vars⟩ = .ok s₁ ∧
    runAlone (releaseSpinlock lock).length (releaseSpinlock lock) s₁ = .ok s₂ ∧
    runAlone (acquireSpinlock lock).length (acquireSpinlock lock) s₂ = .ok s₃ ∧
    load64 s₁.mem (nameAddr lock) = name ∧ load64 s₂.mem (nameAddr lock) = name

theorem PaddingZero.fresh (zero : PaddingZero mem lock) (name : Word) :
    FreshLock mem lock name := by
  intro flags vars room
  have named : load64 (initSpinlock mem lock name) (nameAddr lock) = name :=
    load64_store64_self _ _ _
  have first := acquire_free ⟨initSpinlock mem lock name, flags, vars⟩ lock
    (initSpinlock_word.mpr zero)
  obtain ⟨s₂, second, written⟩ := release_held
    ⟨store32 (initSpinlock mem lock name) lock 1, flags.pushed, _⟩ lock
    (by rw [load32_store32_self]; decide) (by rw [Flags.pushed]; bv_omega)
    (by rw [Flags.pushed]; bv_omega)
  have third := acquire_free s₂ lock (by rw [written, load32_store32_self])
  refine ⟨_, s₂, _, first, second, third, ?_, ?_⟩
  · rw [store32_name, named]
  · rw [written, store32_name, store32_name, named]

/-- With junk in the padding the lock is never taken. -/
theorem acquire_junk (junk : ¬ PaddingZero mem lock) (flags : Flags) (vars : Activity Word)
    (fuel : Nat) : runAlone fuel (acquireSpinlock lock)
      ⟨initSpinlock mem lock name, flags, vars⟩ = .error .diverges :=
  acquire_taken ⟨initSpinlock mem lock name, flags, vars⟩ lock (mt initSpinlock_word.mp junk) fuel

theorem freshLock_iff_padding : FreshLock mem lock name ↔ PaddingZero mem lock := by
  constructor
  · intro fresh
    obtain ⟨s₁, -, -, first, -⟩ := fresh ⟨false, 0, false⟩ ⟨false, 0, [], 0, false⟩ (by decide)
    by_contra junk
    rw [acquire_junk junk] at first
    cases first
  · exact fun zero => zero.fresh name

/-! ### A fresh mutex -/

variable {L : Bounds} {s s' : Phys} {page : Word} {free : List Word}

/-- **The first `acquire_mutex` after `init_mutex` returns**, on a CPU that nobody disturbs. -/
def FreshMutex (lk name : Word) (s : Phys) : Prop :=
  ∃ s', initMutex lk name s = .ok s' ∧ ∀ wait flags vars, flags.ncli.toNat + 2 < 2 ^ 31 →
    ∃ fuel s₁, acquireMutex wait fuel lk ⟨s'.mem, flags, vars⟩ = .ok s₁

/-- The mutex after `init_mutex`: its spinlock is the page, whose padding is junk. -/
theorem initMutex_page (name : Word) (list : FreeList L s (page :: free))
    (apart : Apart lk 16 page 4096) :
    ∃ s', initMutex lk name s = .ok s' ∧ load64 s'.mem lk = page ∧
      ∃ mem, s'.mem = initSpinlock mem page name ∧ ¬ PaddingZero mem page := by
  obtain ⟨before, after⟩ := id apart
  have nonNull : page ≠ 0 := (list.page page List.mem_cons_self).ne_zero
  have made : initMutex lk name s = .ok ⟨initSpinlock (store64 (store64 (memset s.mem page 5 4096)
      lk page) (lk + 8) 0) page name, load64 s.mem page⟩ := by
    rw [initMutex, kalloc_junk list]
    exact if_neg nonNull
  refine ⟨_, made, ?_, _, rfl, ?_⟩
  · -- The lock is not in the `struct mutex`.
    have others : ∀ mem : Mem, load64 (Function.update mem page 0) lk = load64 mem lk := fun mem => by
      refine congrArg (BitVec.ofNat 64) (readLE_congr fun i inside => Function.update_of_ne ?_ ..)
      bv_omega
    rw [initSpinlock, load64_store64_apart _ _ (by rw [nameAddr]; constructor <;> bv_omega), others,
      load64_store64_apart _ _ (by constructor <;> bv_omega), load64_store64_self]
  · rintro ⟨first, -⟩
    have inPage : (page + 1 - page).toNat < 4096 := by bv_omega
    rw [store64, writeLE, if_neg (by bv_omega), store64, writeLE, if_neg (by bv_omega), memset, fill,
      if_pos inPage] at first
    cases first

/-- **A fresh mutex is never taken**: its spinlock spins for ever. -/
theorem acquireMutex_fresh (list : FreeList L s (page :: free)) (apart : Apart lk 16 page 4096)
    (done : initMutex lk name s = .ok s') (wait : Alone → Except Halt Alone)
    (room : flags.ncli.toNat + 2 < 2 ^ 31) (fuel : Nat) (nonNull : lk ≠ 0) :
    acquireMutex wait fuel lk ⟨s'.mem, flags, vars⟩ = .error .diverges := by
  obtain ⟨_, done', spinlock, mem, bytes, junk⟩ := initMutex_page name list apart
  cases done.symm.trans done'
  have byte : (load32 s'.mem page).setWidth 8 = (0 : BitVec 8) := by
    rw [load32_byte, bytes]
    exact initSpinlock_first
  rw [acquireMutex, if_neg nonNull]
  dsimp only
  rw [spinlock]
  rcases runAlone_enough 9 fuel (holdingSpinlock page) ⟨s'.mem, flags, vars⟩ with short | same
  · rw [short]
    rfl
  · have read : runAlone (fuel + 9) (holdingSpinlock page ++ []) ⟨s'.mem, flags, vars⟩ = _ :=
      run_holding ⟨s'.mem, flags, vars⟩ page (by dsimp only; omega)
    rw [List.append_nil, runAlone] at read
    rw [← same, read, ok_bind]
    dsimp only
    rw [if_pos byte, spinlock, bytes]
    exact acquire_junk junk _ _ fuel

/-- With a page from `kalloc`, or without one, the first `acquire_mutex` does not return. -/
theorem not_freshMutex (list : FreeList L s free) (apart : ∀ p ∈ free, Apart lk 16 p 4096) :
    ¬ FreshMutex lk name s := by
  rintro ⟨s', done, returns⟩
  obtain ⟨fuel, s₁, taken⟩ := returns .ok ⟨false, 0, false⟩ ⟨false, 0, [], 0, false⟩ (by decide)
  cases free with
  | nil =>
    rw [initMutex, kalloc_nil list] at done
    cases done
  | cons page free =>
    by_cases null : lk = 0
    · rw [acquireMutex, if_pos null] at taken
      cases taken
    · rw [acquireMutex_fresh list (apart page List.mem_cons_self) done .ok (by decide) fuel null]
        at taken
      cases taken

/-- **When a fresh lock can be taken.** `init_spinlock` clears one byte of the four that are exchanged:
so exactly if the other three were zero before; otherwise the loop of `acquire_spinlock` never ends.
The first `acquire_mutex` after `init_mutex` never returns. -/
theorem freshLock_iff (mem : Mem) (lock name : Word) :
    (FreshLock mem lock name ↔ PaddingZero mem lock) ∧
    (¬ PaddingZero mem lock → ∀ flags vars fuel, runAlone fuel (acquireSpinlock lock)
      ⟨initSpinlock mem lock name, flags, vars⟩ = .error .diverges) ∧
    ∀ (L : Bounds) (s : Phys) (free : List Word) (lk : Word), FreeList L s free →
      (∀ p ∈ free, Apart lk 16 p 4096) → ¬ FreshMutex lk name s :=
  ⟨freshLock_iff_padding, acquire_junk, fun _ _ _ _ => not_freshMutex⟩

/-- A lock in zeroed memory works. -/
theorem freshLock_zeroed : FreshLock (fun _ => 0) 0x105000 0x106000 :=
  (freshLock_iff (fun _ => 0) 0x105000 0x106000).1.mpr ⟨rfl, rfl, rfl⟩

/-- **A lock in a page from `kalloc` is never taken**, and a mutex is not either. -/
theorem fresh_junk_spins : (∀ flags vars fuel, runAlone fuel (acquireSpinlock 0x200000)
      ⟨initSpinlock (kalloc demoPhys).2.mem 0x200000 0x106000, flags, vars⟩ = .error .diverges) ∧
    ¬ FreshMutex 0x105000 0x106000 demoPhys := by
  refine ⟨acquire_junk ?_, not_freshMutex demoPhys_list ?_⟩
  · rw [kalloc_junk demoPhys_list]
    rintro ⟨first, -⟩
    cases first
  · simp only [List.forall_mem_cons]
    exact ⟨by unfold Apart; decide, by unfold Apart; decide, by unfold Apart; decide,
      List.forall_mem_nil _⟩

end ShipOS

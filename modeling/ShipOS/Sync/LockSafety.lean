/-
**The spinlock and interrupt-flag protocol.**

An activity sees interference in one field only: while IF is set, a handler on its CPU may leave
another value in `intena`. Under this interference every function is safe from a state in which
`ncli` counts the locks and the `pushcli` calls of the activity (`Idle`), and ends in such a state.

* `pushcli_fine`, `popcli_fine` — the two halves;
* `call_fine` — every call;
* `LockInv.step` — every step of the machine keeps the invariant;
* `spinlocks_of_run` — the protocol, over whole runs in which `ncli` does not overflow;
* `unbalanced_popcli_of_overflow` — beyond that, `popcli` panics.
-/

import ShipOS.Lib.Runs
import ShipOS.Sync.Spinlock

namespace ShipOS

open Rely Runs

variable {Lk C : Type*}

/-! ### One activity -/

/-- The state of a CPU as its activity sees it. -/
abbrev Local (Lk : Type*) := Flags × Activity Lk

/-- While IF is set, handlers may change `intena`. -/
def Interference (s s' : Local Lk) : Prop :=
  s'.2 = s.2 ∧ (s'.1 = s.1 ∨ s.1.ifl = true ∧ ∃ x, s'.1 = { s.1 with intena := x })

/-- What the activity may rely on at an operation. -/
def SafeOp (s : Local Lk) (op : Op Lk) : Prop :=
  (s.1.ifl = true → s.1.ncli = 0 ∧ s.2.holds = []) ∧
    match op with
    | .testIf => s.1.ifl = false
    | .testNeg => s.1.ncli.toNat < 2 ^ 31
    | .restore => s.1.ifl = false ∧ s.1.intena = s.2.before
    | .check => s.2.r ≠ 0
    | .unlock l => l ∈ s.2.holds
    | _ => True

theorem interference_refl (s : Local Lk) : Interference s s := ⟨rfl, .inl rfl⟩

theorem interference_trans (s t u : Local Lk) (first : Interference s t)
    (second : Interference t u) : Interference s u := by
  obtain ⟨vars, flags⟩ := first
  obtain ⟨vars', flags'⟩ := second
  refine ⟨vars'.trans vars, ?_⟩
  rcases flags with same | ⟨enabled, x, changed⟩
  · rwa [same] at flags'
  · refine .inr ⟨enabled, ?_⟩
    rcases flags' with same | ⟨-, y, changed'⟩
    · exact ⟨x, same.trans changed⟩
    · exact ⟨y, by rw [changed', changed]⟩

/-- With interrupts off there is no interference. -/
theorem Interference.eq {s s' : Local Lk} (change : Interference s s') (off : s.1.ifl = false) :
    s' = s := by
  obtain ⟨vars, same | ⟨enabled, -⟩⟩ := change
  · exact Prod.ext same vars
  · rw [off] at enabled
    cases enabled

/-- In a section there is no interference either: interrupts are off. -/
theorem Interference.keeps {f f' : Flags} {a a' : Activity Lk} (change : Interference (f, a) (f', a'))
    (clear : f.ifl = true → f.ncli = 0) :
    a = a' ∧ f.ifl = f'.ifl ∧ f.ncli = f'.ncli ∧ (f.ncli ≠ 0 → f'.intena = f.intena) := by
  obtain ⟨vars, same | ⟨enabled, x, changed⟩⟩ := change
  · cases same
    exact ⟨vars.symm, rfl, rfl, fun _ => rfl⟩
  · cases changed
    exact ⟨vars.symm, rfl, rfl, fun deep => absurd (clear enabled) deep⟩

/-- Between two calls. -/
structure Idle (s : Local Lk) : Prop where
  count : s.1.ncli.toNat = s.2.holds.length + s.2.pushes
  small : s.1.ncli.toNat < 2 ^ 31
  clear : s.1.ifl = true → s.1.ncli = 0
  saved : s.1.ncli ≠ 0 → s.1.intena = s.2.before

theorem Idle.off {f : Flags} {a : Activity Lk} (idle : Idle (f, a)) (deep : f.ncli ≠ 0) :
    f.ifl = false :=
  Bool.eq_false_iff.mpr fun enabled => deep (idle.clear enabled)

theorem Idle.deep {f : Flags} {a : Activity Lk} (idle : Idle (f, a))
    (nested : 0 < a.holds.length + a.pushes) : f.ncli ≠ 0 := by
  intro zero
  have count := idle.count
  dsimp only at count
  rw [zero] at count
  simp at count
  omega

theorem Idle.alone {f : Flags} {a : Activity Lk} (idle : Idle (f, a)) (enabled : f.ifl = true) :
    f.ncli = 0 ∧ a.holds = [] := by
  have zero := idle.clear enabled
  have count := idle.count
  dsimp only at zero count
  rw [zero] at count
  exact ⟨zero, List.eq_nil_of_length_eq_zero (by simp at count; omega)⟩

/-- The state that `popcli` leaves, where one level more was counted before it. -/
theorem idle_popped {f : Flags} {a : Activity Lk} {x : Bool} (small : f.ncli.toNat < 2 ^ 31)
    (count : f.ncli.toNat = a.holds.length + a.pushes + 1) (kept : f.ncli ≠ 1 → x = a.before) :
    Idle (⟨decide (f.ncli = 1) && a.before, f.ncli - 1, x⟩, a) := by
  have lower : (f.ncli - 1).toNat = a.holds.length + a.pushes := by bv_omega
  refine ⟨lower, lower.trans_lt (by omega), fun enabled => ?_, fun deep => kept fun one => deep ?_⟩
  · have one := of_decide_eq_true (Bool.and_eq_true .. ▸ enabled).1
    rw [one]
    rfl
  · rw [one]
    rfl

variable [DecidableEq Lk]

/-- What an operation that goes on does to the local state: a lock that the activity has is seen as
taken, and `ncli` does not overflow. -/
def LocalEffect (s : Local Lk) (op : Op Lk) (s' : Local Lk) : Prop :=
  match op with
  | .readFlags => s' = (s.1, { s.2 with eflags := s.1.ifl })
  | .cli => s' = ({ s.1 with ifl := false }, s.2)
  | .save => s' = (if s.1.ncli = 0 then { s.1 with intena := s.2.eflags } else s.1, s.2)
  | .inc => s.1.ncli.toNat + 1 < 2 ^ 31 ∧ s' = ({ s.1 with ncli := s.1.ncli + 1 }, s.2)
  | .dec => s' = ({ s.1 with ncli := s.1.ncli - 1 }, s.2)
  | .restore => s' = (if s.1.ncli = 0 ∧ s.1.intena then { s.1 with ifl := true } else s.1, s.2)
  | .xchg l => s' = (s.1, { s.2 with holds := l :: s.2.holds })
  | .load l => ∃ v, (l ∈ s.2.holds → v ≠ 0) ∧ s' = (s.1, { s.2 with r := v })
  | .unlock l => s' = (s.1, { s.2 with holds := s.2.holds.erase l })
  | .testIf | .testNeg | .check => s' = s

/-- **The local effect is that of the code.** -/
theorem localEffect_of_exec {word word' : Lk → BitVec 32} {f f' : Flags} {a a' : Activity Lk}
    {op : Op Lk} (held : ∀ l ∈ a.holds, word l = 1) (room : op = .inc → f.ncli.toNat + 1 < 2 ^ 31)
    (done : op.exec word f a = .ok (word', f', a', true)) : LocalEffect (f, a) op (f', a') := by
  cases op with
  | inc =>
    cases done
    exact ⟨room rfl, rfl⟩
  | load l =>
    cases done
    refine ⟨_, fun mine => ?_, rfl⟩
    rw [held l mine]
    decide
  | readFlags | cli | save | dec | restore | unlock =>
    simp only [Op.exec, Except.ok.injEq, Prod.mk.injEq] at done
    exact Prod.ext done.2.1.symm done.2.2.1.symm
  | testIf | testNeg | check | xchg =>
    rw [Op.exec] at done
    split at done
    · cases done <;> rfl
    · cases done <;> rfl

/-- The code is safe and ends between two calls. -/
abbrev FineLocal (code : List (Op Lk)) (Q : Local Lk → Prop) (s : Local Lk) : Prop :=
  Fine SafeOp LocalEffect Interference code Q s

theorem fine_off {op : Op Lk} {rest : List (Op Lk)} {Q : Local Lk → Prop} {s : Local Lk}
    (off : s.1.ifl = false) (ok : SafeOp s op)
    (next : ∀ s', LocalEffect s op s' → FineLocal rest Q s') : FineLocal (op :: rest) Q s := by
  intro s' change
  rw [change.eq off]
  exact ⟨ok, next⟩

/-- **`pushcli`**: interrupts are off, one level deeper, and `intena` is what IF was at the outermost
level. -/
theorem pushcli_fine {f : Flags} {a : Activity Lk} {Q : Local Lk → Prop}
    (clear : f.ifl = true → f.ncli = 0 ∧ a.holds = []) (outer : f.ncli = 0 → a.before = f.ifl)
    (inner : f.ncli ≠ 0 → f.intena = a.before)
    (post : f.ncli.toNat + 1 < 2 ^ 31 → Q (⟨false, f.ncli + 1, a.before⟩, { a with eflags := f.ifl })) :
    FineLocal pushcli Q (f, a) := by
  rintro ⟨⟨_, _, x₁⟩, _⟩ change₁
  obtain ⟨rfl, rfl, rfl, saved₁⟩ := change₁.keeps fun enabled => (clear enabled).1
  refine ⟨⟨clear, trivial⟩, fun s done => ?_⟩
  obtain rfl := id done
  rintro ⟨⟨_, _, x₂⟩, _⟩ change₂
  obtain ⟨rfl, rfl, rfl, saved₂⟩ := change₂.keeps fun enabled => (clear enabled).1
  refine ⟨⟨clear, trivial⟩, fun s done => ?_⟩
  obtain rfl := id done
  refine fine_off rfl ⟨nofun, trivial⟩ fun s done => ?_
  -- `intena` is IF at the outermost level, and was saved there at an inner one.
  have saved : s = (⟨false, f.ncli, a.before⟩, { a with eflags := f.ifl }) := by
    rw [show s = _ from done]
    refine Prod.ext ?_ rfl
    by_cases outermost : f.ncli = 0
    · rw [outer outermost]
      exact if_pos outermost
    · rw [← inner outermost, ← saved₁ outermost, ← saved₂ outermost]
      exact if_neg outermost
  subst saved
  refine fine_off rfl ⟨nofun, trivial⟩ fun s done => ?_
  obtain ⟨room, rfl⟩ := id done
  intro s change
  rw [change.eq rfl]
  exact post room

/-- **`popcli`**: one level up, and at the outermost level IF is what it was before. -/
theorem popcli_fine {f : Flags} {a : Activity Lk} {Q : Local Lk → Prop} (off : f.ifl = false)
    (deep : f.ncli ≠ 0) (small : f.ncli.toNat < 2 ^ 31) (saved : f.intena = a.before)
    (post : ∀ x, (f.ncli ≠ 1 → x = a.before) →
      Q (⟨decide (f.ncli = 1) && a.before, f.ncli - 1, x⟩, a)) :
    FineLocal popcli Q (f, a) := by
  obtain ⟨_, ncli, _⟩ := f
  dsimp only at off deep small saved post
  subst off saved
  have positive : 0 < ncli.toNat := Nat.pos_of_ne_zero fun zero => deep (BitVec.eq_of_toNat_eq zero)
  have lower : (ncli - 1).toNat = ncli.toNat - 1 := by bv_omega
  have outermost : ncli - 1 = 0 ↔ ncli = 1 := by
    constructor <;> intro same <;> bv_omega
  refine fine_off rfl ⟨nofun, rfl⟩ fun s done => ?_
  obtain rfl := id done
  refine fine_off rfl ⟨nofun, trivial⟩ fun s done => ?_
  obtain rfl := id done
  refine fine_off rfl ⟨nofun, show (ncli - 1).toNat < 2 ^ 31 by omega⟩ fun s done => ?_
  obtain rfl := id done
  refine fine_off rfl ⟨nofun, rfl, rfl⟩ fun s done => ?_
  have restored : s = (⟨decide (ncli = 1) && a.before, ncli - 1, a.before⟩, a) := by
    rw [show s = _ from done]
    refine Prod.ext ?_ rfl
    by_cases enable : ncli = 1 ∧ a.before = true
    · refine (if_pos ⟨outermost.mpr enable.1, enable.2⟩).trans ?_
      rw [enable.1, enable.2]
      rfl
    · refine (if_neg fun both => enable ⟨outermost.mp both.1, both.2⟩).trans ?_
      have off : (decide (ncli = 1) && a.before) = false := by simpa using enable
      rw [off]
  subst restored
  rintro ⟨⟨_, _, x⟩, _⟩ change
  obtain ⟨rfl, rfl, rfl, kept⟩ := change.keeps fun enabled => by
    rw [outermost]
    exact of_decide_eq_true (Bool.and_eq_true .. ▸ enabled).1
  exact post x fun inner => kept fun top => inner (outermost.mp top)

/-- **`holding_spinlock`** changes nothing but its result, and `intena` outside of all sections. -/
theorem holdingSpinlock_fine {f : Flags} {a : Activity Lk} {Q : Local Lk → Prop} (l : Lk)
    (clear : f.ifl = true → f.ncli = 0 ∧ a.holds = []) (outer : f.ncli = 0 → a.before = f.ifl)
    (inner : f.ncli ≠ 0 → f.intena = a.before)
    (post : ∀ v x, (l ∈ a.holds → v ≠ 0) → (f.ncli ≠ 0 → x = a.before) →
      Q (⟨f.ifl, f.ncli, x⟩, { a with eflags := f.ifl, r := v })) :
    FineLocal (holdingSpinlock l) Q (f, a) := by
  refine fine_append interference_refl (pushcli_fine clear outer inner fun room => ?_)
  refine fine_off rfl ⟨nofun, trivial⟩ fun s done => ?_
  obtain ⟨v, seen, rfl⟩ := id done
  have deeper : (f.ncli + 1).toNat = f.ncli.toNat + 1 := by bv_omega
  have nested : f.ncli + 1 = 1 ↔ f.ncli = 0 := by
    constructor <;> intro same <;> bv_omega
  refine popcli_fine rfl (fun zero => ?_) (deeper ▸ room) rfl fun x kept => ?_
  · dsimp only at zero
    bv_omega
  · dsimp only at kept ⊢
    have back : f.ncli + 1 - 1 = f.ncli := by bv_omega
    have same : (decide (f.ncli + 1 = 1) && a.before) = f.ifl := by
      by_cases outermost : f.ncli = 0
      · rw [decide_eq_true (nested.mpr outermost), outer outermost, Bool.true_and]
      · rw [decide_eq_false (mt nested.mp outermost), Bool.false_and]
        exact (Bool.eq_false_iff.mpr fun enabled => outermost (clear enabled).1).symm
    rw [back, same]
    exact post v x seen fun deep => kept fun top => deep (nested.mp top)

/-- **Every call is safe from between two calls, and ends there.** -/
theorem call_fine {f : Flags} {a : Activity Lk} (idle : Idle (f, a)) (call : LockCall Lk)
    (allowed : call.Allowed a) : FineLocal call.code Idle (f, (call.start f a).vars) := by
  have clear := fun enabled => idle.alone enabled
  have outer : f.ncli = 0 → (if f.ncli = 0 then f.ifl else a.before) = f.ifl := fun top => if_pos top
  have inner : f.ncli ≠ 0 → f.intena = if f.ncli = 0 then f.ifl else a.before :=
    fun deep => (idle.saved deep).trans (if_neg deep).symm
  have count := idle.count
  have small := idle.small
  dsimp only at count small
  have counted : f.ncli.toNat + 1 < 2 ^ 31 → (f.ncli + 1).toNat = a.holds.length + a.pushes + 1 := by
    intro room
    bv_omega
  cases call with
  | pushcli =>
    refine pushcli_fine clear outer inner fun room => ⟨?_, ?_, nofun, fun _ => rfl⟩
    · exact counted room
    · exact (counted room).trans_lt (by omega)
  | popcli =>
    have positive : 0 < a.pushes := allowed
    have deep := idle.deep (by omega)
    refine popcli_fine (idle.off deep) deep small (inner deep) fun x kept => ?_
    exact idle_popped small (by simp [LockCall.start, LockCall.pushes]; omega) kept
  | acquire l =>
    refine fine_append interference_refl (pushcli_fine clear outer inner fun room => ?_)
    refine fine_off rfl ⟨nofun, trivial⟩ fun s done => ?_
    obtain rfl := id done
    intro s change
    rw [change.eq rfl]
    refine ⟨?_, ?_, nofun, fun _ => rfl⟩
    · exact (counted room).trans (by simp [LockCall.start, LockCall.pushes]; omega)
    · exact (counted room).trans_lt (by omega)
  | release l =>
    have mine : l ∈ a.holds := allowed
    have positive := List.length_pos_of_mem mine
    have deep := idle.deep (by omega)
    have off := idle.off deep
    refine fine_append interference_refl (holdingSpinlock_fine l clear outer inner ?_)
    intro v x seen saved
    refine fine_append interference_refl ?_
    refine fine_off off ⟨fun enabled => clear enabled, seen mine⟩ fun s done => ?_
    obtain rfl := id done
    refine fine_off off ⟨fun enabled => clear enabled, mine⟩ fun s done => ?_
    obtain rfl := id done
    intro s change
    rw [change.eq off]
    refine popcli_fine off deep small (saved deep) fun y kept => idle_popped small ?_ kept
    have fewer : (a.holds.erase l).length + 1 = a.holds.length := by
      rw [List.length_erase_of_mem mine]
      omega
    exact count.trans (by simp [LockCall.start, LockCall.pushes]; omega)
  | holding l =>
    refine holdingSpinlock_fine l clear outer inner fun v x _ kept => ?_
    exact ⟨count, small, idle.clear, fun deep => kept deep⟩

/-! ### The machine -/

/-- **What an operation does to the lock words and to the locks of its activity.** -/
theorem exec_locks {word word' : Lk → BitVec 32} {f f' : Flags} {a a' : Activity Lk} {op : Op Lk}
    {next : Bool} (done : op.exec word f a = .ok (word', f', a', next)) :
    (word' = word ∧ a'.holds = a.holds ∧ next = true) ∨
      (∃ l, word l = 0 ∧ word' = Function.update word l 1 ∧ a'.holds = l :: a.holds ∧ next = true) ∨
      (∃ l, word' = Function.update word l 1 ∧ f' = f ∧ a' = a ∧ next = false) ∨
      ∃ l, op = .unlock l ∧ word' = Function.update word l 0 ∧ a'.holds = a.holds.erase l ∧
        next = true := by
  cases op with
  | readFlags | cli | save | inc | dec | restore | load =>
    cases done
    exact .inl ⟨rfl, rfl, rfl⟩
  | testIf | testNeg | check =>
    rw [Op.exec] at done
    split at done
    · cases done
    · cases done
      exact .inl ⟨rfl, rfl, rfl⟩
  | xchg l =>
    rw [Op.exec] at done
    split at done
    case isTrue free =>
      cases done
      exact .inr (.inl ⟨l, free, rfl, rfl, rfl⟩)
    case isFalse =>
      cases done
      exact .inr (.inr (.inl ⟨l, rfl, rfl, rfl, rfl⟩))
  | unlock l =>
    cases done
    exact .inr (.inr (.inr ⟨l, rfl, rfl, rfl, rfl⟩))

/-- An activity that an interrupt has suspended: it has no lock, and goes on safely whatever the
handlers leave in `intena`. -/
structure Paused (frame : Frame Lk) : Prop where
  holds : frame.vars.holds = []
  fine : ∀ x, FineLocal frame.code Idle (⟨true, 0, x⟩, frame.vars)

/-- The invariant of one CPU. -/
structure CpuInv (cpu : Cpu Lk) : Prop where
  active : FineLocal cpu.active.code Idle (cpu.flags, cpu.active.vars)
  paused : ∀ frame ∈ cpu.suspended, Paused frame
  nodup : cpu.active.vars.holds.Nodup

/-- Outside of all sections `ncli` is 0. -/
theorem CpuInv.outside_top {cpu : Cpu Lk} (ok : CpuInv cpu) (outside : cpu.active.Outside) :
    cpu.flags.ncli = 0 := by
  have fine := ok.active
  rw [outside.1] at fine
  have count := (fine.done interference_refl).count
  dsimp only at count
  rw [outside.2.1, outside.2.2] at count
  exact BitVec.eq_of_toNat_eq count

/-- With interrupts enabled, the CPU is outside of all sections. -/
theorem CpuInv.alone {cpu : Cpu Lk} (inv : CpuInv cpu) (enabled : cpu.flags.ifl = true) :
    cpu.flags.ncli = 0 ∧ cpu.active.vars.holds = [] := by
  have fine := inv.active
  rcases code : cpu.active.code with _ | ⟨op, rest⟩
  · rw [code] at fine
    exact (fine.done interference_refl).alone enabled
  · rw [code] at fine
    exact (fine.ok interference_refl).1 enabled

/-- **The invariant of the machine.** -/
structure LockInv (g : Smp C Lk) : Prop where
  cpu : ∀ c, CpuInv (g.cpus c)
  word : ∀ c, ∀ l ∈ (g.cpus c).active.vars.holds, g.word l = 1
  unique : ∀ c c' l, l ∈ (g.cpus c).active.vars.holds → l ∈ (g.cpus c').active.vars.holds → c = c'

variable {g h : Smp C Lk}

/-- The machine before the first call: no CPU is in a section or handles an interrupt. The lock words
and the interrupt flags are arbitrary. -/
structure LockFresh (g : Smp C Lk) : Prop where
  outside : ∀ c, (g.cpus c).active.Outside
  top : ∀ c, (g.cpus c).flags.ncli = 0
  alone : ∀ c, (g.cpus c).suspended = []

theorem LockFresh.inv (fresh : LockFresh g) : LockInv g := by
  have noPause := fun c => (fresh.outside c).2.1
  refine ⟨fun c => ⟨?_, ?_, ?_⟩, fun c l member => ?_, fun c _ l member _ => ?_⟩
  · rw [(fresh.outside c).1]
    rintro ⟨⟨_, _, x⟩, _⟩ change
    obtain ⟨rfl, rfl, rfl, -⟩ := change.keeps fun _ => fresh.top c
    refine ⟨?_, ?_, fun _ => fresh.top c, fun deep => absurd (fresh.top c) deep⟩
    · show (g.cpus c).flags.ncli.toNat = (g.cpus c).active.vars.holds.length + _
      rw [fresh.top c, noPause c, (fresh.outside c).2.2]
      rfl
    · show (g.cpus c).flags.ncli.toNat < _
      rw [fresh.top c]
      decide
  · rw [fresh.alone c]
    nofun
  · rw [noPause c]
    exact List.nodup_nil
  · rw [noPause c] at member
    cases member
  · rw [noPause c] at member
    cases member

/-- Only an executing activity has locks. -/
theorem LockInv.holds (inv : LockInv g) {c : C} {l : Lk} (holds : Holds g c l) :
    l ∈ (g.cpus c).active.vars.holds := by
  obtain ⟨frame, member, has⟩ := holds
  rcases List.mem_cons.mp member with rfl | below
  · exact has
  · rw [((inv.cpu c).paused frame below).holds] at has
    cases has

/-- **No operation panics.** -/
theorem LockInv.no_panic (inv : LockInv g) {c : C} {op : Op Lk} {rest : List (Op Lk)}
    (here : (g.cpus c).active.code = op :: rest) :
    ∃ r, op.exec g.word (g.cpus c).flags (g.cpus c).active.vars = .ok r := by
  have fine := (inv.cpu c).active
  rw [here] at fine
  have safe := (fine.ok interference_refl).2
  cases op with
  | readFlags | cli | save | inc | dec | restore | load | unlock => exact ⟨_, rfl⟩
  | testIf =>
    have off : (g.cpus c).flags.ifl = false := safe
    rw [Op.exec, off]
    exact ⟨_, rfl⟩
  | testNeg =>
    have small : (g.cpus c).flags.ncli.toNat < 2 ^ 31 := safe
    rw [Op.exec, if_neg]
    · exact ⟨_, rfl⟩
    · rw [BitVec.toInt_eq_toNat_of_lt (by omega)]
      omega
  | xchg l =>
    rw [Op.exec]
    split
    · exact ⟨_, rfl⟩
    · exact ⟨_, rfl⟩
  | check =>
    rw [Op.exec, if_neg safe]
    exact ⟨_, rfl⟩

/-- **The outermost `popcli` restores IF.** -/
theorem LockInv.restores (inv : LockInv g) {c : C} {rest : List (Op Lk)} {word : Lk → BitVec 32}
    {f : Flags} {a : Activity Lk} {next : Bool} (here : (g.cpus c).active.code = .restore :: rest)
    (outermost : (g.cpus c).flags.ncli = 0)
    (done : Op.exec g.word (g.cpus c).flags (g.cpus c).active.vars .restore =
      .ok (word, f, a, next)) : f.ifl = a.before := by
  have fine := (inv.cpu c).active
  rw [here] at fine
  obtain ⟨off, saved⟩ := (fine.ok interference_refl).2
  dsimp only at off saved
  rw [Op.exec, Except.ok.injEq, Prod.mk.injEq, Prod.mk.injEq, Prod.mk.injEq] at done
  obtain ⟨-, flags, vars, -⟩ := done
  subst flags vars
  cases value : (g.cpus c).flags.intena with
  | true =>
    rw [if_pos ⟨outermost, rfl⟩, ← saved, value]
  | false =>
    rw [if_neg fun both => Bool.false_ne_true both.2, off, ← saved, value]

/-- A free lock is nobody's. -/
theorem LockInv.nobody (inv : LockInv g) {l : Lk} (free : g.word l = 0) (c : C) :
    l ∉ (g.cpus c).active.vars.holds := by
  intro held
  rw [inv.word c l held] at free
  cases free

/-- Storing `1` into a word keeps the words of the locks that are held. -/
theorem LockInv.word_set (inv : LockInv g) (l : Lk) (c : C) :
    ∀ k ∈ (g.cpus c).active.vars.holds, Function.update g.word l 1 k = 1 := by
  intro k held
  by_cases new : k = l
  · rw [new, Function.update_self]
  · rw [Function.update_of_ne new]
    exact inv.word c k held

variable [DecidableEq C]

/-- A step of CPU `c`: it keeps its own invariant, and the words agree with what everyone has. -/
theorem LockInv.replace (inv : LockInv g) {c : C} {cpu : Cpu Lk} {word : Lk → BitVec 32}
    (ok : CpuInv cpu) (mine : ∀ l ∈ cpu.active.vars.holds, word l = 1)
    (alone : ∀ l ∈ cpu.active.vars.holds, ∀ c', c' ≠ c → l ∉ (g.cpus c').active.vars.holds)
    (others : ∀ c', c' ≠ c → ∀ l ∈ (g.cpus c').active.vars.holds, word l = 1) :
    LockInv { g.set c cpu with word := word } := by
  have here : Function.update g.cpus c cpu c = cpu := Function.update_self c cpu g.cpus
  have there : ∀ c', c' ≠ c → Function.update g.cpus c cpu c' = g.cpus c' := fun c' other =>
    Function.update_of_ne other cpu g.cpus
  refine ⟨fun c' => ?_, fun c' => ?_, fun c₁ c₂ l => ?_⟩
  · show CpuInv (Function.update g.cpus c cpu c')
    by_cases same : c' = c
    · subst same
      rw [here]
      exact ok
    · rw [there c' same]
      exact inv.cpu c'
  · show ∀ l ∈ (Function.update g.cpus c cpu c').active.vars.holds, word l = 1
    by_cases same : c' = c
    · subst same
      rw [here]
      exact mine
    · rw [there c' same]
      exact others c' same
  · show l ∈ (Function.update g.cpus c cpu c₁).active.vars.holds →
      l ∈ (Function.update g.cpus c cpu c₂).active.vars.holds → c₁ = c₂
    by_cases same₁ : c₁ = c <;> by_cases same₂ : c₂ = c
    · exact fun _ _ => same₁.trans same₂.symm
    · rw [same₁, here, there c₂ same₂]
      exact fun first second => absurd second (alone l first c₂ same₂)
    · rw [same₂, here, there c₁ same₁]
      exact fun first second => absurd first (alone l second c₁ same₁)
    · rw [there c₁ same₁, there c₂ same₂]
      exact inv.unique c₁ c₂ l

/-- A step that changes neither the words nor the locks of the CPU's activity. -/
theorem LockInv.same_locks (inv : LockInv g) {c : C} {cpu : Cpu Lk} (ok : CpuInv cpu)
    (same : ∀ l ∈ cpu.active.vars.holds, l ∈ (g.cpus c).active.vars.holds) :
    LockInv (g.set c cpu) :=
  inv.replace ok (fun l member => inv.word c l (same l member))
    (fun l member _ other held => other (inv.unique _ _ l held (same l member)))
    fun c' _ => inv.word c'

/-- A free lock is taken. -/
theorem LockInv.take (inv : LockInv g) {c : C} {cpu : Cpu Lk} {l : Lk} (ok : CpuInv cpu)
    (free : g.word l = 0)
    (holds : cpu.active.vars.holds = l :: (g.cpus c).active.vars.holds) :
    LockInv { g.set c cpu with word := Function.update g.word l 1 } := by
  refine inv.replace ok ?_ ?_ fun c' _ => inv.word_set l c'
  · rw [holds]
    exact List.forall_mem_cons.mpr ⟨Function.update_self .., inv.word_set l c⟩
  · intro k member c' other held
    rw [holds] at member
    rcases List.mem_cons.mp member with rfl | old
    · exact inv.nobody free c' held
    · exact other (inv.unique _ _ k held old)

/-- A lock is given back. -/
theorem LockInv.give (inv : LockInv g) {c : C} {cpu : Cpu Lk} {l : Lk} (ok : CpuInv cpu)
    (mine : l ∈ (g.cpus c).active.vars.holds)
    (holds : cpu.active.vars.holds = (g.cpus c).active.vars.holds.erase l) :
    LockInv { g.set c cpu with word := Function.update g.word l 0 } := by
  have erased : ∀ k ∈ cpu.active.vars.holds, k ∈ (g.cpus c).active.vars.holds ∧ k ≠ l := by
    intro k member
    rw [holds, (inv.cpu c).nodup.mem_erase_iff] at member
    exact ⟨member.2, member.1⟩
  refine inv.replace ok ?_ ?_ ?_
  · intro k member
    rw [Function.update_of_ne (erased k member).2]
    exact inv.word c k (erased k member).1
  · exact fun k member c' other held => other (inv.unique _ _ k held (erased k member).1)
  · intro c' other k held
    have different : k ≠ l := fun same => other (inv.unique _ _ l (same ▸ held) mine)
    rw [Function.update_of_ne different]
    exact inv.word c' k held

/-- `ncli` does not overflow: it is a C `int`. -/
def Fits (g : Smp C Lk) : LockEvent C Lk → Prop
  | .op c => (g.cpus c).active.code.head? = some .inc → (g.cpus c).flags.ncli.toNat + 1 < 2 ^ 31
  | _ => True

/-- An operation keeps the invariant. -/
theorem LockInv.op (inv : LockInv g) {c : C} {op : Op Lk} {rest : List (Op Lk)}
    {word : Lk → BitVec 32} {f : Flags} {a : Activity Lk} {next : Bool} (fits : Fits g (.op c))
    (here : (g.cpus c).active.code = op :: rest)
    (done : op.exec g.word (g.cpus c).flags (g.cpus c).active.vars = .ok (word, f, a, next)) :
    LockInv { g.set c { g.cpus c with
      flags := f, active := ⟨if next then rest else op :: rest, a⟩ } with word := word } := by
  have ok := inv.cpu c
  have fine := ok.active
  rw [here] at fine
  have safe := fine.ok interference_refl
  have goes : next = true → FineLocal rest Idle (f, a) := by
    rintro rfl
    refine fine.step interference_refl (localEffect_of_exec (inv.word c) (fun inc => ?_) done)
    exact fits (by rw [here, inc, List.head?_cons])
  rcases exec_locks done with ⟨words, holds, on⟩ | ⟨l, free, words, holds, on⟩ |
    ⟨l, words, flags, vars, off⟩ | ⟨l, code, words, holds, on⟩
  · subst words on
    exact inv.same_locks ⟨goes rfl, ok.paused, holds ▸ ok.nodup⟩ fun l member => holds ▸ member
  · subst words on
    refine inv.take ⟨goes rfl, ok.paused, ?_⟩ free holds
    exact holds ▸ List.nodup_cons.mpr ⟨inv.nobody free c, ok.nodup⟩
  · -- A failed exchange stores `1` into a word that is not `0`.
    subst words flags vars off
    refine inv.replace ⟨fine, ok.paused, ok.nodup⟩ (inv.word_set l c) ?_
      fun c' _ => inv.word_set l c'
    exact fun k member c' other held => other (inv.unique _ _ k held member)
  · rw [code] at safe
    subst words on
    exact inv.give ⟨goes rfl, ok.paused, holds ▸ ok.nodup.erase l⟩ safe.2 holds

/-- **Every step keeps the invariant.** -/
theorem LockInv.step {event : LockEvent C Lk} (inv : LockInv g) (fits : Fits g event)
    (step : LockStep g event h) : LockInv h := by
  cases step with
  | @call c call ready allowed =>
    have ok := inv.cpu c
    have fine := ok.active
    rw [ready] at fine
    have idle := fine.done interference_refl
    exact inv.same_locks ⟨call_fine idle call allowed, ok.paused, ok.nodup⟩ fun _ member => member
  | op here done => exact inv.op fits here done
  | @interrupt c enabled =>
    have ok := inv.cpu c
    obtain ⟨top, noLocks⟩ := ok.alone enabled
    refine inv.same_locks ⟨?_, ?_, List.nodup_nil⟩ nofun
    · intro s change
      rw [change.eq rfl]
      refine ⟨?_, ?_, nofun, fun deep => absurd top deep⟩
      · rw [top]
        rfl
      · rw [top]
        decide
    · refine List.forall_mem_cons.mpr ⟨⟨noLocks, fun x => ?_⟩, ok.paused⟩
      refine ok.active.changed interference_trans ⟨rfl, .inr ⟨enabled, x, ?_⟩⟩
      show (⟨true, 0, x⟩ : Flags) = ⟨(g.cpus c).flags.ifl, (g.cpus c).flags.ncli, x⟩
      rw [enabled, top]
  | @iret c frame rest outside below =>
    have ok := inv.cpu c
    have paused := ok.paused
    rw [below] at paused
    obtain ⟨resumed, others⟩ := List.forall_mem_cons.mp paused
    have top := ok.outside_top outside
    refine inv.same_locks ⟨?_, others, ?_⟩ ?_
    · dsimp only
      rw [top]
      exact resumed.fine _
    · dsimp only
      rw [resumed.holds]
      exact List.nodup_nil
    · dsimp only
      rw [resumed.holds]
      nofun
  | @setIf c value outside =>
    have ok := inv.cpu c
    have fine := ok.active
    rw [outside.1] at fine
    have idle := fine.done interference_refl
    have top := ok.outside_top outside
    refine inv.same_locks ⟨?_, ok.paused, ok.nodup⟩ fun _ member => member
    dsimp only
    rw [outside.1]
    rintro ⟨⟨_, _, x⟩, _⟩ change
    obtain ⟨rfl, rfl, rfl, -⟩ := change.keeps fun _ => top
    exact ⟨idle.count, idle.small, fun _ => top, fun deep => absurd top deep⟩

/-- **The spinlock and interrupt-flag protocol.** In every interleaving, interrupts and handlers
included: at most one CPU has a lock, its IF is then clear, an outermost `popcli` makes IF what it was
before the matching `pushcli`, and no operation panics. -/
theorem spinlocks_of_run {es : List (LockEvent C Lk)} (fresh : LockFresh g)
    (run : Run (fun s e t => Fits s e ∧ LockStep s e t) g es h) :
    (∀ l c c', Holds h c l → Holds h c' l → c = c') ∧
      (∀ l c, Holds h c l → (h.cpus c).flags.ifl = false) ∧
      (∀ c rest word f a next, (h.cpus c).active.code = .restore :: rest →
        (h.cpus c).flags.ncli = 0 →
        Op.exec h.word (h.cpus c).flags (h.cpus c).active.vars .restore = .ok (word, f, a, next) →
          f.ifl = a.before) ∧
      ∀ c op rest, (h.cpus c).active.code = op :: rest →
        ∃ r, op.exec h.word (h.cpus c).flags (h.cpus c).active.vars = .ok r := by
  have inv : LockInv h := run.keeps LockInv (fun s e t inv both => inv.step both.1 both.2) fresh.inv
  refine ⟨fun l c c' first second => ?_, fun l c holds => ?_, ?_, fun c op rest => inv.no_panic⟩
  · exact inv.unique c c' l (inv.holds first) (inv.holds second)
  · refine Bool.eq_false_iff.mpr fun enabled => ?_
    have member := inv.holds holds
    rw [((inv.cpu c).alone enabled).2] at member
    cases member
  · exact fun c rest word f a next here outermost done => inv.restores here outermost done

/-! ### Two runs of one CPU -/

/-- One CPU that handles no interrupt, and one lock. -/
def oneCpu (word : BitVec 32) (flags : Flags) (frame : Frame Unit) : Smp Unit Unit :=
  ⟨fun _ => word, fun _ => ⟨flags, frame, []⟩⟩

theorem oneCpu_call (word : BitVec 32) {f : Flags} {a : Activity Unit} (call : LockCall Unit)
    (allowed : call.Allowed a) :
    LockStep (oneCpu word f ⟨[], a⟩) (.call () call) (oneCpu word f (call.start f a)) := by
  have step : LockStep (oneCpu word f ⟨[], a⟩) (.call () call) _ := .call rfl allowed
  refine cast (congrArg (LockStep _ _) ?_) step
  exact congrArg (Smp.mk _) (funext fun ⟨⟩ => rfl)

theorem oneCpu_op {word word' : BitVec 32} {f f' : Flags} {a a' : Activity Unit} {op : Op Unit}
    {rest : List (Op Unit)}
    (done : op.exec (fun _ => word) f a = .ok (fun _ => word', f', a', true)) :
    LockStep (oneCpu word f ⟨op :: rest, a⟩) (.op ()) (oneCpu word' f' ⟨rest, a'⟩) := by
  have step : LockStep (oneCpu word f ⟨op :: rest, a⟩) (.op ()) _ := .op rfl done
  refine cast (congrArg (LockStep _ _) ?_) step
  exact congrArg (Smp.mk _) (funext fun ⟨⟩ => rfl)

theorem oneCpu_fresh (word : BitVec 32) (enabled intena : Bool) :
    LockFresh (oneCpu word ⟨enabled, 0, intena⟩ handlerFrame) :=
  ⟨fun _ => ⟨rfl, rfl, rfl⟩, fun _ => rfl, fun _ => rfl⟩

/-- The CPU after `acquire_spinlock`, with the lock. -/
def oneHolder : Smp Unit Unit := oneCpu 1 ⟨false, 1, true⟩ ⟨[], ⟨true, 0, [()], 0, true⟩⟩

/-- `acquire_spinlock` of a free lock with interrupts on: five operations, after which the CPU has the
lock and its IF is clear. -/
theorem spinlocks_of_run_acquire :
    Run (fun s e t => Fits s e ∧ LockStep s e t) (oneCpu 0 ⟨true, 0, false⟩ handlerFrame)
      [.call () (.acquire ()), .op (), .op (), .op (), .op (), .op ()] oneHolder ∧
    Holds oneHolder () () ∧ (oneHolder.cpus ()).flags.ifl = false := by
  have take : Op.exec (fun _ => 0) ⟨false, 1, true⟩ ⟨true, 0, [], 0, true⟩ (.xchg () : Op Unit) =
      .ok (fun _ => 1, ⟨false, 1, true⟩, ⟨true, 0, [()], 0, true⟩, true) :=
    congrArg (fun w => Except.ok (w, _, _, true)) (funext fun _ => rfl)
  have run : Run (fun s e t => Fits s e ∧ LockStep s e t) (oneCpu 0 ⟨true, 0, false⟩ handlerFrame)
      [.call () (.acquire ()), .op (), .op (), .op (), .op (), .op ()] oneHolder := by
    refine .cons ⟨trivial, oneCpu_call 0 (.acquire ()) trivial⟩ ?_
    refine .cons ⟨nofun, oneCpu_op rfl⟩ (.cons ⟨nofun, oneCpu_op rfl⟩ ?_)
    refine .cons ⟨nofun, oneCpu_op rfl⟩ (.cons ⟨fun _ => by decide, oneCpu_op rfl⟩ ?_)
    exact .cons ⟨nofun, oneCpu_op take⟩ (.nil _)
  have held : Holds oneHolder () () := ⟨_, List.mem_cons_self, List.mem_cons_self⟩
  exact ⟨run, held, (spinlocks_of_run (oneCpu_fresh 0 true false) run).2.1 () () held⟩

/-- `n` nested `pushcli` calls, with interrupts off. -/
def nestedPushcli (n : Nat) : Smp Unit Unit :=
  oneCpu 0 ⟨false, BitVec.ofNat 32 n, false⟩ ⟨[], ⟨false, 0, [], n, false⟩⟩

theorem nestedPushcli_run (n : Nat) : ∃ es, Run LockStep (nestedPushcli 0) es (nestedPushcli n) := by
  induction n with
  | zero => exact ⟨[], .nil _⟩
  | succ n ih =>
    obtain ⟨es, run⟩ := ih
    have call : LockCall.start .pushcli ⟨false, BitVec.ofNat 32 n, false⟩ ⟨false, 0, [], n, false⟩ =
        (⟨pushcli, ⟨false, 0, [], n + 1, false⟩⟩ : Frame Unit) := by
      simp [LockCall.start, LockCall.code, LockCall.pushes]
    have save : Op.exec (fun _ => 0) ⟨false, BitVec.ofNat 32 n, false⟩
        ⟨false, 0, [], n + 1, false⟩ (.save : Op Unit) = .ok (fun _ => 0,
          ⟨false, BitVec.ofNat 32 n, false⟩, ⟨false, 0, [], n + 1, false⟩, true) := by
      simp [Op.exec]
    have inc : Op.exec (fun _ => 0) ⟨false, BitVec.ofNat 32 n, false⟩
        ⟨false, 0, [], n + 1, false⟩ (.inc : Op Unit) = .ok (fun _ => 0,
          ⟨false, BitVec.ofNat 32 (n + 1), false⟩, ⟨false, 0, [], n + 1, false⟩, true) := by
      simp [Op.exec, BitVec.ofNat_add]
    refine ⟨es ++ [.call () .pushcli, .op (), .op (), .op (), .op ()], run.append ?_⟩
    refine .cons (call ▸ oneCpu_call 0 .pushcli trivial) ?_
    exact .cons (oneCpu_op rfl) (.cons (oneCpu_op rfl) (.cons (oneCpu_op save)
      (.cons (oneCpu_op inc) (.nil _))))

/-- **Beyond `2 ^ 31` levels `popcli` panics**, although every `popcli` has its `pushcli`. -/
theorem unbalanced_popcli_of_overflow :
    ∃ (g h : Smp Unit Unit) (es : List (LockEvent Unit Unit)), LockFresh g ∧ Run LockStep g es h ∧
      (h.cpus ()).active.code = [.testNeg, .restore] ∧
      Op.exec h.word (h.cpus ()).flags (h.cpus ()).active.vars .testNeg =
        .error (.panic "unbalanced popcli") := by
  obtain ⟨es, run⟩ := nestedPushcli_run (2 ^ 31 + 1)
  have call : LockCall.start .popcli ⟨false, BitVec.ofNat 32 (2 ^ 31 + 1), false⟩
      ⟨false, 0, [], 2 ^ 31 + 1, false⟩ =
        (⟨popcli, ⟨false, 0, [], 2 ^ 31, false⟩⟩ : Frame Unit) := by
    simp [LockCall.start, LockCall.code, LockCall.pushes]
  refine ⟨nestedPushcli 0, oneCpu 0 ⟨false, BitVec.ofNat 32 (2 ^ 31), false⟩
    ⟨[.testNeg, .restore], ⟨false, 0, [], 2 ^ 31, false⟩⟩,
    es ++ [.call () .popcli, .op (), .op ()], oneCpu_fresh 0 false false, run.append ?_, rfl, rfl⟩
  have matched : LockCall.Allowed (⟨false, 0, [], 2 ^ 31 + 1, false⟩ : Activity Unit) .popcli :=
    Nat.succ_pos _
  refine .cons (call ▸ oneCpu_call 0 .popcli matched) ?_
  exact .cons (oneCpu_op rfl) (.cons (oneCpu_op rfl) (.nil _))

end ShipOS

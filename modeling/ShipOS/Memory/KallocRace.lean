/-
**`kalloc` and `kfree` on several CPUs.**

The lock of the allocator is commented out in `kalloc.c`. Here each load and store of the free list is
a step of its own, a `memset` of a page is one step, and the calls of different CPUs interleave. `kfree`
is called with a page that somebody holds. A call has a window: from its load of `kmem.freelist` to its
store there.

* `run_kalloc`, `run_kfree` — a call that nobody disturbs does what the whole function does;
* `RaceInv.step` — a step after which at most one CPU is in its window keeps the invariant;
* `kalloc_exclusive` — so with exclusive windows no page is lost and none is handed out twice;
* `kalloc_race` — without them, from every state with a free page, two CPUs can get the same one.
-/

import ShipOS.Memory.AllocRuns

namespace ShipOS

open ByteMem Linked Runs

/-! ### The code, access by access -/

/-- Where a CPU is in the allocator. -/
inductive AllocPc
  | idle
  /-- `kalloc` has read `kmem.freelist`. -/
  | head (r : Word)
  /-- It has read `r->next`. -/
  | next (r n : Word)
  /-- It has set `kmem.freelist`; the `memset` is left. -/
  | popped (r : Word)
  /-- `kfree` has cleared the page. -/
  | cleared (pa : Word)
  /-- It has read `kmem.freelist`. -/
  | reading (pa h : Word)
  /-- It has set `r->next`. -/
  | linked (pa h : Word)
  deriving DecidableEq, Repr

/-- Between the load of `kmem.freelist` and the store. -/
def AllocPc.InWindow : AllocPc → Prop
  | .head _ | .next _ _ | .reading _ _ | .linked _ _ => True
  | .idle | .popped _ | .cleared _ => False

/-- The page that a call has taken from the list or from its caller. -/
def AllocPc.page : AllocPc → Option Word
  | .popped p | .cleared p | .reading p _ | .linked p _ => some p
  | .idle | .head _ | .next _ _ => none

/-- The allocator, the pages that its callers hold (one entry a call of `kalloc`), and the CPUs. -/
structure RaceState (C : Type) where
  phys : Phys
  held : List Word
  pc : C → AllocPc

inductive RaceOp
  | kalloc
  | kfree (pa : Word)
  /-- The next access of the call. -/
  | onward
  | write (addr : Word) (byte : Byte)

variable {C : Type} [DecidableEq C]

/-- The accesses of `kalloc` and `kfree`, and writes of callers into their pages. -/
inductive RaceStep (L : Bounds) : RaceState C → C × RaceOp → RaceState C → Prop
  | kallocNull {s : RaceState C} {c : C} (idle : s.pc c = .idle) (empty : s.phys.freelist = 0) :
      RaceStep L s (c, .kalloc) s
  | kallocHead {s : RaceState C} {c : C} (idle : s.pc c = .idle) (more : s.phys.freelist ≠ 0) :
      RaceStep L s (c, .kalloc) { s with pc := Function.update s.pc c (.head s.phys.freelist) }
  | kallocNext {s : RaceState C} {c : C} {r : Word} (here : s.pc c = .head r) :
      RaceStep L s (c, .onward)
        { s with pc := Function.update s.pc c (.next r (load64 s.phys.mem r)) }
  | kallocPop {s : RaceState C} {c : C} {r n : Word} (here : s.pc c = .next r n) :
      RaceStep L s (c, .onward) { s with
        phys := { s.phys with freelist := n }
        pc := Function.update s.pc c (.popped r) }
  | kallocJunk {s : RaceState C} {c : C} {r : Word} (here : s.pc c = .popped r) :
      RaceStep L s (c, .onward)
        ⟨{ s.phys with mem := memset s.phys.mem r 5 4096 }, r :: s.held,
          Function.update s.pc c .idle⟩
  | kfreeClear {s : RaceState C} {c : C} {pa : Word} (idle : s.pc c = .idle) (member : pa ∈ s.held)
      (passes : ¬ (pa % pgsize ≠ 0 ∨ pa < L.kend ∨ pa ≥ L.phystop)) :
      RaceStep L s (c, .kfree pa)
        ⟨{ s.phys with mem := memset s.phys.mem pa 0 4096 }, s.held.erase pa,
          Function.update s.pc c (.cleared pa)⟩
  | kfreeRead {s : RaceState C} {c : C} {pa : Word} (here : s.pc c = .cleared pa) :
      RaceStep L s (c, .onward)
        { s with pc := Function.update s.pc c (.reading pa s.phys.freelist) }
  | kfreeLink {s : RaceState C} {c : C} {pa h : Word} (here : s.pc c = .reading pa h) :
      RaceStep L s (c, .onward) { s with
        phys := { s.phys with mem := store64 s.phys.mem pa h }
        pc := Function.update s.pc c (.linked pa h) }
  | kfreePush {s : RaceState C} {c : C} {pa h : Word} (here : s.pc c = .linked pa h) :
      RaceStep L s (c, .onward) { s with
        phys := { s.phys with freelist := pa }
        pc := Function.update s.pc c .idle }
  | write {s : RaceState C} {c : C} {addr p : Word} {byte : Byte} (member : p ∈ s.held)
      (inside : (addr - p).toNat < 4096) :
      RaceStep L s (c, .write addr byte)
        { s with phys := { s.phys with mem := Function.update s.phys.mem addr byte } }

/-! ### A call alone -/

variable {L : Bounds} {s t : RaceState C} {c d : C} {free : List Word} {p : Word}

theorem update_idle (idle : s.pc c = .idle) : Function.update s.pc c .idle = s.pc := by
  rw [← idle, Function.update_eq_self]

/-- The loads of `kalloc`. -/
theorem run_reads (idle : s.pc c = .idle) (more : s.phys.freelist ≠ 0) :
    Run (RaceStep L) s [(c, .kalloc), (c, .onward)] { s with
      pc := Function.update s.pc c (.next s.phys.freelist (load64 s.phys.mem s.phys.freelist)) } := by
  have loads := RaceStep.kallocNext (L := L)
    (s := { s with pc := Function.update s.pc c (.head s.phys.freelist) }) (Function.update_self ..)
  rw [Function.update_idem] at loads
  exact .cons (.kallocHead idle more) (.cons loads (.nil _))

/-- Its stores, whatever happened since the loads. -/
theorem run_stores {r n : Word} (here : s.pc c = .next r n) :
    Run (RaceStep L) s [(c, .onward), (c, .onward)]
      ⟨⟨memset s.phys.mem r 5 4096, n⟩, r :: s.held, Function.update s.pc c .idle⟩ := by
  have junk := RaceStep.kallocJunk (L := L) (s := { s with
    phys := { s.phys with freelist := n }
    pc := Function.update s.pc c (.popped r) }) (Function.update_self ..)
  rw [Function.update_idem] at junk
  exact .cons (.kallocPop here) (.cons junk (.nil _))

/-- **`kalloc` undisturbed.** -/
theorem run_kalloc (idle : s.pc c = .idle) :
    ∃ es, Run (RaceStep L) s es { s with
      phys := (kalloc s.phys).2
      held := if (kalloc s.phys).1 = 0 then s.held else (kalloc s.phys).1 :: s.held } := by
  by_cases empty : s.phys.freelist = 0
  · have null : kalloc s.phys = (0, s.phys) := by rw [kalloc, if_neg (not_not_intro empty)]
    rw [null, if_pos rfl]
    exact ⟨_, .cons (.kallocNull idle empty) (.nil s)⟩
  · have page : kalloc s.phys = (s.phys.freelist,
        ⟨memset s.phys.mem s.phys.freelist 5 4096, load64 s.phys.mem s.phys.freelist⟩) := by
      rw [kalloc, if_pos empty]
    have stores := run_stores (L := L) (c := c) (s := { s with
      pc := Function.update s.pc c (.next s.phys.freelist (load64 s.phys.mem s.phys.freelist)) })
      (Function.update_self ..)
    rw [Function.update_idem, update_idle idle] at stores
    rw [page, if_neg empty]
    exact ⟨_, (run_reads idle empty).append stores⟩

/-- **`kfree` undisturbed.** -/
theorem run_kfree (idle : s.pc c = .idle) (member : p ∈ s.held) {phys : Phys}
    (done : kfree L p s.phys = .ok phys) :
    ∃ es, Run (RaceStep L) s es { s with phys := phys, held := s.held.erase p } := by
  rw [kfree] at done
  split at done
  · cases done
  · next passes =>
    injection done with result
    refine ⟨[(c, .kfree p), (c, .onward), (c, .onward), (c, .onward)],
      .cons (.kfreeClear idle member passes) (.cons (.kfreeRead (Function.update_self ..))
        (.cons (.kfreeLink (Function.update_self ..))
          (.cons (.kfreePush (Function.update_self ..)) ?_)))⟩
    simp only [Function.update_idem, update_idle idle, ← result]
    exact .nil _

/-! ### Exclusive windows -/

/-- At most one CPU is in its window. -/
def Exclusive (s : RaceState C) : Prop :=
  ∀ c d, (s.pc c).InWindow → (s.pc d).InWindow → c = d

/-- What a call has read in its window is still so. -/
def AllocPc.Current (phys : Phys) : AllocPc → Prop
  | .head r => phys.freelist = r ∧ r ≠ 0
  | .next r n => phys.freelist = r ∧ r ≠ 0 ∧ load64 phys.mem r = n
  | .reading _ h => phys.freelist = h
  | .linked pa h => phys.freelist = h ∧ load64 phys.mem pa = h
  | .idle | .popped _ | .cleared _ => True

/-- Where a page is. -/
inductive PagePlace (C : Type)
  | outside
  | free
  | held
  | carried (c : C)

/-- **No page is lost and none is in two places**: each page of the pool is on the free list, held by
a caller or carried by one call. -/
structure RaceInv (L : Bounds) (pool : Word → Prop) (s : RaceState C) (free : List Word)
    (place : Word → PagePlace C) : Prop where
  list : FreeList L s.phys free
  heldNodup : s.held.Nodup
  free_iff : ∀ p, p ∈ free ↔ place p = .free
  held_iff : ∀ p, p ∈ s.held ↔ place p = .held
  carried_iff : ∀ p c, (s.pc c).page = some p ↔ place p = .carried c
  pool_iff : ∀ p, pool p ↔ place p ≠ .outside
  page : ∀ p, pool p → IsPage L p
  current : ∀ c, (s.pc c).Current s.phys
  exclusive : Exclusive s

variable {pool : Word → Prop}

/-- Outside its window a call has read nothing. -/
theorem current_outside {pc : AllocPc} (outside : ¬ pc.InWindow) (phys : Phys) : pc.Current phys := by
  cases pc <;> first | trivial | exact absurd trivial outside

/-- A change inside one page that is not on the list and that no window reads. -/
theorem AllocPc.Current.other {pc : AllocPc} {phys : Phys} {mem : Mem} (current : pc.Current phys)
    (aligned : PageAligned p) (only : OnlyPage p phys.mem mem)
    (list : FreeList L phys free) (apart : p ∉ free)
    (elsewhere : ∀ q, pc.page = some q → PageAligned q ∧ p ≠ q) :
    pc.Current { phys with mem := mem } := by
  have same : ∀ q, PageAligned q → p ≠ q → load64 mem q = load64 phys.mem q := by
    intro q alignedQ different
    have word := only.load64 aligned alignedQ (i := 0) (by decide) different
    simpa only [slot_zero] using word
  cases pc with
  | idle | popped _ | cleared _ | head _ | reading _ _ => exact current
  | next r n =>
    obtain ⟨first, nonNull, value⟩ := current
    refine ⟨first, nonNull, ?_⟩
    cases free with
    | nil => exact absurd (first ▸ list.spine) nonNull
    | cons q rest =>
      have head : r = q := first ▸ list.spine.1
      subst head
      rw [same r (list.page r List.mem_cons_self).aligned fun equal =>
        apart (equal ▸ List.mem_cons_self), value]
  | linked pa h =>
    obtain ⟨alignedPa, different⟩ := elsewhere pa rfl
    exact ⟨current.1, (same pa alignedPa different).trans current.2⟩

section

variable {place : Word → PagePlace C} (inv : RaceInv L pool s free place)
include inv

omit [DecidableEq C] in
theorem RaceInv.isPage (there : place p ≠ .outside) : IsPage L p :=
  inv.page p ((inv.pool_iff p).mpr there)

omit [DecidableEq C] in
/-- When one CPU is in its window, what the others have read does not matter. -/
theorem RaceInv.others_outside (mine : (s.pc c).InWindow) (phys : Phys) (other : d ≠ c) :
    (s.pc d).Current phys :=
  current_outside (fun window => other (inv.exclusive d c window mine)) phys

omit [DecidableEq C] in
/-- A change in one page that is not on the list leaves what the other calls have read. -/
theorem RaceInv.others_current {mem : Mem} (there : place p ≠ .outside) (listed : place p ≠ .free)
    (uncarried : place p ≠ .carried d) (only : OnlyPage p s.phys.mem mem) :
    (s.pc d).Current { s.phys with mem := mem } := by
  refine (inv.current d).other (inv.isPage there).aligned only inv.list ?_ fun q carried => ?_
  · rw [inv.free_iff]
    exact listed
  · have carriedQ := (inv.carried_iff q d).mp carried
    refine ⟨(inv.isPage (by simp [carriedQ])).aligned, fun equal => ?_⟩
    exact uncarried (equal ▸ carriedQ)

/-- An access that moves no page. -/
theorem RaceInv.onlyPc {v : AllocPc} (same : v.page = (s.pc c).page) (current : v.Current s.phys)
    (exclusive : Exclusive { s with pc := Function.update s.pc c v }) :
    RaceInv L pool { s with pc := Function.update s.pc c v } free place := by
  refine ⟨inv.list, inv.heldNodup, inv.free_iff, inv.held_iff, fun p d => ?_, inv.pool_iff, inv.page,
    fun d => ?_, exclusive⟩
  · rw [← inv.carried_iff]
    dsimp only
    by_cases mine : d = c
    · rw [mine, Function.update_self, same]
    · rw [Function.update_of_ne mine]
  · dsimp only
    by_cases mine : d = c
    · rw [mine, Function.update_self]
      exact current
    · rw [Function.update_of_ne mine]
      exact inv.current d

/-- **An access that moves the page `p`** from its place to `new`. -/
theorem RaceInv.move {new : PagePlace C} {v : AllocPc} {phys' : Phys} {held' free' : List Word}
    (there : place p ≠ .outside) (moved : new ≠ .outside)
    (mine : ∀ d, d ≠ c → place p ≠ .carried d ∧ new ≠ .carried d)
    (before : ∀ q, (s.pc c).page = some q → q = p)
    (after : ∀ q, v.page = some q ↔ q = p ∧ new = .carried c)
    (list' : FreeList L phys' free') (heldNodup' : held'.Nodup)
    (freed : ∀ q, q ∈ free' ↔ if q = p then new = .free else q ∈ free)
    (holds : ∀ q, q ∈ held' ↔ if q = p then new = .held else q ∈ s.held)
    (current : v.Current phys') (others : ∀ d, d ≠ c → (s.pc d).Current phys')
    (exclusive : Exclusive ⟨phys', held', Function.update s.pc c v⟩) :
    RaceInv L pool ⟨phys', held', Function.update s.pc c v⟩ free' (Function.update place p new) := by
  refine ⟨list', heldNodup', fun q => ?_, fun q => ?_, fun q d => ?_, fun q => ?_, inv.page,
    fun d => ?_, exclusive⟩
  · rw [freed, Function.update_apply]
    split
    · rfl
    · exact inv.free_iff q
  · rw [holds, Function.update_apply]
    split
    · rfl
    · exact inv.held_iff q
  · have known := inv.carried_iff q d
    dsimp only
    by_cases self : d = c
    · subst self
      rw [Function.update_self, after, Function.update_apply]
      split
      · next here => exact ⟨And.right, fun carried => ⟨here, carried⟩⟩
      · next elsewhere =>
        exact ⟨fun both => absurd both.1 elsewhere, fun carried =>
          absurd (before q (known.mpr carried)) elsewhere⟩
    · rw [Function.update_of_ne self, known, Function.update_apply]
      split
      · next here =>
        subst here
        exact iff_of_false (mine d self).1 (mine d self).2
      · rfl
  · rw [inv.pool_iff, Function.update_apply]
    split
    · next here => exact here ▸ iff_of_true there moved
    · rfl
  · dsimp only
    by_cases self : d = c
    · rw [self, Function.update_self]
      exact current
    · rw [Function.update_of_ne self]
      exact others d self

/-- `kmem.freelist = r->next`. -/
theorem RaceInv.pop {r n : Word} (here : s.pc c = .next r n)
    (exclusive :
      Exclusive ⟨{ s.phys with freelist := n }, s.held, Function.update s.pc c (.popped r)⟩) :
    RaceInv L pool ⟨{ s.phys with freelist := n }, s.held, Function.update s.pc c (.popped r)⟩
      free.tail (Function.update place r (.carried c)) := by
  have current := inv.current c
  rw [here] at current
  obtain ⟨first, nonNull, link⟩ := current
  have spine := inv.list.spine
  cases free with
  | nil => exact absurd (first ▸ spine) nonNull
  | cons q rest =>
    obtain ⟨head, -, tail⟩ := spine
    have same : q = r := head.symm.trans first
    subst same
    have listed : place q = .free := (inv.free_iff q).mp List.mem_cons_self
    have fresh : q ∉ rest := (List.nodup_cons.mp inv.list.nodup).1
    have list' : FreeList L { s.phys with freelist := n } rest :=
      ⟨link ▸ tail, inv.list.nodup.of_cons, fun p member => inv.list.page p (.tail _ member)⟩
    refine inv.move (by simp [listed]) (by simp) (fun d other => ?_) ?_ ?_ list' inv.heldNodup ?_ ?_
      trivial (fun d other => inv.others_outside (by rw [here]; trivial) _ other) exclusive
    · exact ⟨by simp [listed], fun equal => other (PagePlace.carried.inj equal).symm⟩
    · intro p carried
      rw [here] at carried
      cases carried
    · intro p
      simp [AllocPc.page, eq_comm]
    · intro p
      by_cases equal : p = q
      · simp [equal, fresh]
      · simp [equal]
    · intro p
      by_cases equal : p = q
      · simp [equal, inv.held_iff, listed]
      · simp [equal]

/-- The `memset` of `kalloc`, and its return. -/
theorem RaceInv.junk {r : Word} (here : s.pc c = .popped r)
    (exclusive : Exclusive ⟨{ s.phys with mem := memset s.phys.mem r 5 4096 }, r :: s.held,
      Function.update s.pc c .idle⟩) :
    RaceInv L pool ⟨{ s.phys with mem := memset s.phys.mem r 5 4096 }, r :: s.held,
      Function.update s.pc c .idle⟩ free (Function.update place r .held) := by
  have carried : place r = .carried c := (inv.carried_iff r c).mp (by rw [here]; rfl)
  have page := inv.isPage (p := r) (by simp [carried])
  have unlisted : r ∉ free := by simp [inv.free_iff, carried]
  have unheld : r ∉ s.held := by simp [inv.held_iff, carried]
  refine inv.move (by simp [carried]) (by simp) (fun d other => ?_) ?_ ?_
    (inv.list.other page.aligned unlisted (onlyPage_fill _ r 5)) (inv.heldNodup.cons unheld) ?_ ?_
    trivial (fun d other => ?_) exclusive
  · exact ⟨fun equal => other (PagePlace.carried.inj (equal.symm.trans carried)), by simp⟩
  · intro q mine
    rw [here] at mine
    exact (Option.some.inj mine).symm
  · intro q
    simp [AllocPc.page]
  · intro q
    by_cases equal : q = r
    · simp [equal, unlisted]
    · simp [equal]
  · intro q
    by_cases equal : q = r <;> simp [equal]
  · exact inv.others_current (by simp [carried]) (by simp [carried])
      (fun equal => other (PagePlace.carried.inj (equal.symm.trans carried))) (onlyPage_fill _ r 5)

/-- The check and the `memset` of `kfree`. -/
theorem RaceInv.clear {pa : Word} (idle : s.pc c = .idle) (member : pa ∈ s.held)
    (exclusive : Exclusive ⟨{ s.phys with mem := memset s.phys.mem pa 0 4096 }, s.held.erase pa,
      Function.update s.pc c (.cleared pa)⟩) :
    RaceInv L pool ⟨{ s.phys with mem := memset s.phys.mem pa 0 4096 }, s.held.erase pa,
      Function.update s.pc c (.cleared pa)⟩ free (Function.update place pa (.carried c)) := by
  have held : place pa = .held := (inv.held_iff pa).mp member
  have page := inv.isPage (p := pa) (by simp [held])
  have unlisted : pa ∉ free := by simp [inv.free_iff, held]
  refine inv.move (by simp [held]) (by simp) (fun d other => ?_) ?_ ?_
    (inv.list.other page.aligned unlisted (onlyPage_fill _ pa 0)) (inv.heldNodup.erase pa) ?_ ?_
    trivial (fun d other => ?_) exclusive
  · exact ⟨by simp [held], fun equal => other (PagePlace.carried.inj equal).symm⟩
  · intro q mine
    rw [idle] at mine
    cases mine
  · intro q
    simp [AllocPc.page, eq_comm]
  · intro q
    by_cases equal : q = pa
    · simp [equal, unlisted]
    · simp [equal]
  · intro q
    rw [inv.heldNodup.mem_erase_iff]
    by_cases equal : q = pa <;> simp [equal]
  · exact inv.others_current (by simp [held]) (by simp [held]) (by simp [held]) (onlyPage_fill _ pa 0)

/-- `r->next = kmem.freelist`. -/
theorem RaceInv.link {pa h : Word} (here : s.pc c = .reading pa h)
    (exclusive : Exclusive ⟨{ s.phys with mem := store64 s.phys.mem pa h }, s.held,
      Function.update s.pc c (.linked pa h)⟩) :
    RaceInv L pool ⟨{ s.phys with mem := store64 s.phys.mem pa h }, s.held,
      Function.update s.pc c (.linked pa h)⟩ free (Function.update place pa (.carried c)) := by
  have carried : place pa = .carried c := (inv.carried_iff pa c).mp (by rw [here]; rfl)
  have page := inv.isPage (p := pa) (by simp [carried])
  have unlisted : pa ∉ free := by simp [inv.free_iff, carried]
  have current := inv.current c
  rw [here] at current
  have only : OnlyPage pa s.phys.mem (store64 s.phys.mem pa h) := by
    simpa only [slot_zero] using onlyPage_store (p := pa) s.phys.mem 0 h (by decide)
  refine inv.move (by simp [carried]) (by simp) (fun d other => ?_) ?_ ?_
    (inv.list.other page.aligned unlisted only) inv.heldNodup ?_ ?_
    ⟨current, load64_store64_self _ _ _⟩
    (fun d other => inv.others_outside (by rw [here]; trivial) _ other) exclusive
  · exact ⟨fun equal => other (PagePlace.carried.inj (equal.symm.trans carried)),
      fun equal => other (PagePlace.carried.inj equal).symm⟩
  · intro q mine
    rw [here] at mine
    exact (Option.some.inj mine).symm
  · intro q
    simp [AllocPc.page, eq_comm]
  · intro q
    by_cases equal : q = pa
    · simp [equal, unlisted]
    · simp [equal]
  · intro q
    by_cases equal : q = pa
    · simp [equal, inv.held_iff, carried]
    · simp [equal]

/-- `kmem.freelist = r`. -/
theorem RaceInv.push {pa h : Word} (here : s.pc c = .linked pa h)
    (exclusive : Exclusive ⟨{ s.phys with freelist := pa }, s.held, Function.update s.pc c .idle⟩) :
    RaceInv L pool ⟨{ s.phys with freelist := pa }, s.held, Function.update s.pc c .idle⟩
      (pa :: free) (Function.update place pa .free) := by
  have carried : place pa = .carried c := (inv.carried_iff pa c).mp (by rw [here]; rfl)
  have page := inv.isPage (p := pa) (by simp [carried])
  have unlisted : pa ∉ free := by simp [inv.free_iff, carried]
  have current := inv.current c
  rw [here] at current
  have list' : FreeList L { s.phys with freelist := pa } (pa :: free) :=
    ⟨⟨rfl, page.ne_zero, by rw [current.2, ← current.1]; exact inv.list.spine⟩,
      inv.list.nodup.cons unlisted, List.forall_mem_cons.mpr ⟨page, inv.list.page⟩⟩
  refine inv.move (by simp [carried]) (by simp) (fun d other => ?_) ?_ ?_ list' inv.heldNodup ?_ ?_
    trivial (fun d other => inv.others_outside (by rw [here]; trivial) _ other) exclusive
  · exact ⟨fun equal => other (PagePlace.carried.inj (equal.symm.trans carried)), by simp⟩
  · intro q mine
    rw [here] at mine
    exact (Option.some.inj mine).symm
  · intro q
    simp [AllocPc.page]
  · intro q
    by_cases equal : q = pa <;> simp [equal]
  · intro q
    by_cases equal : q = pa
    · simp [equal, inv.held_iff, carried]
    · simp [equal]

omit [DecidableEq C] in
/-- A write of a caller into its page. -/
theorem RaceInv.written {addr : Word} {byte : Byte} (member : p ∈ s.held)
    (inside : (addr - p).toNat < 4096) :
    RaceInv L pool
      { s with phys := { s.phys with mem := Function.update s.phys.mem addr byte } } free place := by
  have held : place p = .held := (inv.held_iff p).mp member
  have only : OnlyPage p s.phys.mem (Function.update s.phys.mem addr byte) := by
    intro x outside
    refine Function.update_of_ne (fun equal => outside ?_) ..
    rwa [equal]
  have page := inv.isPage (p := p) (by simp [held])
  exact ⟨inv.list.other page.aligned (by simp [inv.free_iff, held]) only, inv.heldNodup, inv.free_iff,
    inv.held_iff, inv.carried_iff, inv.pool_iff, inv.page,
    fun d => inv.others_current (by simp [held]) (by simp [held]) (by simp [held]) only,
    inv.exclusive⟩

/-- **One access keeps the invariant**, if at most one CPU is in its window afterwards. -/
theorem RaceInv.step {op : RaceOp} (step : RaceStep L s (c, op) t) (exclusive : Exclusive t) :
    ∃ free' place', RaceInv L pool t free' place' := by
  cases step with
  | kallocNull => exact ⟨free, place, inv⟩
  | kallocHead idle more =>
    exact ⟨free, place, inv.onlyPc (by rw [idle]; rfl) ⟨rfl, more⟩ exclusive⟩
  | kallocNext here =>
    have current := inv.current c
    rw [here] at current
    exact ⟨free, place, inv.onlyPc (by rw [here]; rfl) ⟨current.1, current.2, rfl⟩ exclusive⟩
  | kallocPop here => exact ⟨_, _, inv.pop here exclusive⟩
  | kallocJunk here => exact ⟨_, _, inv.junk here exclusive⟩
  | kfreeClear idle member => exact ⟨_, _, inv.clear idle member exclusive⟩
  | kfreeRead here => exact ⟨free, place, inv.onlyPc (by rw [here]; rfl) rfl exclusive⟩
  | kfreeLink here => exact ⟨_, _, inv.link here exclusive⟩
  | kfreePush here => exact ⟨_, _, inv.push here exclusive⟩
  | write member inside => exact ⟨free, place, inv.written member inside⟩

end

/-- Nobody is in the allocator, and no page is on the list and held, or held twice. -/
structure RaceStart (L : Bounds) (s : RaceState C) (free : List Word) : Prop where
  list : FreeList L s.phys free
  heldNodup : s.held.Nodup
  heldPage : ∀ p ∈ s.held, IsPage L p
  apart : ∀ p ∈ free, p ∉ s.held
  idle : ∀ c, s.pc c = .idle

omit [DecidableEq C] in
theorem RaceStart.inv (start : RaceStart L s free) :
    ∃ place, RaceInv L (fun p => p ∈ free ∨ p ∈ s.held) s free place := by
  refine ⟨fun p => if p ∈ free then .free else if p ∈ s.held then .held else .outside,
    start.list, start.heldNodup, fun p => ?_, fun p => ?_, fun p c => ?_, fun p => ?_, ?_, fun c => ?_,
    fun c d window => ?_⟩
  · by_cases listed : p ∈ free
    · simp [listed]
    · by_cases held : p ∈ s.held <;> simp [listed, held]
  · by_cases listed : p ∈ free
    · simp [listed, start.apart p listed]
    · by_cases held : p ∈ s.held <;> simp [listed, held]
  · rw [start.idle c]
    by_cases listed : p ∈ free
    · simp [listed, AllocPc.page]
    · by_cases held : p ∈ s.held <;> simp [listed, held, AllocPc.page]
  · by_cases listed : p ∈ free
    · simp [listed]
    · by_cases held : p ∈ s.held <;> simp [listed, held]
  · rintro p (listed | held)
    · exact start.list.page p listed
    · exact start.heldPage p held
  · rw [start.idle c]
    trivial
  · rw [start.idle c] at window
    exact absurd window id

/-- **With exclusive windows the allocator is sound on any number of CPUs**: through every
interleaving of the accesses of `kalloc` and `kfree` and of the callers' writes, as long as no two CPUs
are between their load of `kmem.freelist` and their store there, no page is lost and none is in two
places. -/
theorem kalloc_exclusive {es : List (C × RaceOp)} (start : RaceStart L s free)
    (run : Run (fun s e t => RaceStep L s e t ∧ Exclusive t) s es t) :
    ∃ free' place, RaceInv L (fun p => p ∈ free ∨ p ∈ s.held) t free' place := by
  obtain ⟨place, inv⟩ := start.inv
  refine run.keeps
    (fun u => ∃ free' place, RaceInv L (fun p => p ∈ free ∨ p ∈ s.held) u free' place) ?_
    ⟨free, place, inv⟩
  rintro u ⟨c, op⟩ v ⟨free', place', kept⟩ ⟨step, exclusive⟩
  exact kept.step step exclusive

/-- Two CPUs and three free pages. -/
def demoRace : RaceState (Fin 2) := ⟨demoPhys, [], fun _ => .idle⟩

/-- One of the two is outside its window. -/
theorem exclusive_of_outside {s : RaceState (Fin 2)} (c : Fin 2) (outside : ¬ (s.pc c).InWindow) :
    Exclusive s := by
  intro a b windowA windowB
  have first : a ≠ c := fun same => outside (same ▸ windowA)
  have second : b ≠ c := fun same => outside (same ▸ windowB)
  omega

/-- The second CPU calls `kalloc` while the first still fills its page. -/
theorem kalloc_exclusive_interleaved :
    ∃ t, Run (fun s e t => RaceStep demoLayout s e t ∧ Exclusive t) demoRace
        [(0, .kalloc), (0, .onward), (0, .onward), (1, .kalloc), (0, .onward), (1, .onward),
          (1, .onward)] t ∧
      t.held = [0x200000] ∧ t.pc 1 = .popped 0x201000 ∧
      ∃ free' place, RaceInv demoLayout
        (fun p => p ∈ [0x200000, 0x201000, 0x202000] ∨ p ∈ demoRace.held) t free' place := by
  obtain ⟨-, -, link, -⟩ := demoPhys_list.spine
  have more : load64 demoPhys.mem 0x200000 ≠ 0 := by
    rw [link]
    decide
  have run : Run (fun s e t => RaceStep demoLayout s e t ∧ Exclusive t) demoRace
      [(0, .kalloc), (0, .onward), (0, .onward), (1, .kalloc), (0, .onward), (1, .onward),
        (1, .onward)] _ :=
    .cons ⟨.kallocHead rfl (by decide), exclusive_of_outside 1 id⟩ <|
    .cons ⟨.kallocNext rfl, exclusive_of_outside 1 id⟩ <|
    .cons ⟨.kallocPop rfl, exclusive_of_outside 1 id⟩ <|
    .cons ⟨.kallocHead rfl more, exclusive_of_outside 0 id⟩ <|
    .cons ⟨.kallocJunk rfl, exclusive_of_outside 0 id⟩ <|
    .cons ⟨.kallocNext rfl, exclusive_of_outside 0 id⟩ <|
    .cons ⟨.kallocPop rfl, exclusive_of_outside 0 id⟩ <| .nil _
  refine ⟨_, run, rfl, congrArg AllocPc.popped link, kalloc_exclusive ⟨demoPhys_list, List.nodup_nil,
    List.forall_mem_nil _, fun _ _ => List.not_mem_nil, fun _ => rfl⟩ run⟩

/-- **Without them it is not**: from every state with a free page, two CPUs that call `kalloc` at the
same time can both get the first one. It is then held twice, which the invariant excludes. -/
theorem kalloc_race (list : FreeList L s.phys (p :: free)) (two : c ≠ d) (idleC : s.pc c = .idle)
    (idleD : s.pc d = .idle) :
    ∃ (es : List (C × RaceOp)) (t : RaceState C), Run (RaceStep L) s es t ∧ t.pc = s.pc ∧
      t.held = p :: p :: s.held ∧ ∀ pool free' place, ¬ RaceInv L pool t free' place := by
  have first : s.phys.freelist = p := list.spine.1
  have more : s.phys.freelist ≠ 0 := first ▸ list.spine.2.1
  have other : d ≠ c := two.symm
  -- Both read `kmem.freelist` and `r->next` before either sets it.
  have readsC := run_reads (L := L) idleC more
  rw [first] at readsC
  set s₁ : RaceState C := { s with pc := Function.update s.pc c (.next p (load64 s.phys.mem p)) }
  have readsD := run_reads (L := L) (s := s₁) (c := d)
    ((Function.update_of_ne other ..).trans idleD) more
  rw [show s₁.phys.freelist = p from first] at readsD
  set s₂ : RaceState C := { s₁ with pc := Function.update s₁.pc d (.next p (load64 s₁.phys.mem p)) }
  have storesC := run_stores (L := L) (s := s₂) (c := c) (r := p) (n := load64 s.phys.mem p)
    ((Function.update_of_ne two ..).trans (Function.update_self ..))
  set s₃ : RaceState C := ⟨⟨memset s₂.phys.mem p 5 4096, load64 s.phys.mem p⟩, p :: s₂.held,
    Function.update s₂.pc c .idle⟩
  have storesD := run_stores (L := L) (s := s₃) (c := d) (r := p) (n := load64 s.phys.mem p)
    ((Function.update_of_ne other ..).trans (Function.update_self ..))
  refine ⟨_, _, ((readsC.append readsD).append storesC).append storesD, ?_, rfl, ?_⟩
  · funext e
    by_cases isD : e = d
    · rw [isD, idleD]
      exact Function.update_self ..
    · by_cases isC : e = c
      · rw [isC, idleC]
        exact (Function.update_of_ne two ..).trans (Function.update_self ..)
      · exact (Function.update_of_ne isD ..).trans ((Function.update_of_ne isC ..).trans
          ((Function.update_of_ne isD ..).trans (Function.update_of_ne isC ..)))
  · intro pool free' place inv
    exact (List.nodup_cons.mp inv.heldNodup).1 List.mem_cons_self

theorem kalloc_race_twoCpus :
    ∃ (es : List (Fin 2 × RaceOp)) (t : RaceState (Fin 2)), Run (RaceStep demoLayout) demoRace es t ∧
      t.pc = demoRace.pc ∧ t.held = 0x200000 :: 0x200000 :: demoRace.held ∧
      ∀ pool free' place, ¬ RaceInv demoLayout pool t free' place :=
  kalloc_race (c := 0) (d := 1) demoPhys_list (by decide) rfl rfl

end ShipOS

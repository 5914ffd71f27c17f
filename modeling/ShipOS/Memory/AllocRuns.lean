/-
**The allocator and its clients over whole runs.**

`Alloc` is the allocator together with the pages its clients hold and the ranges handed to `kinit`.
A run is any sequence of `kinit` on disjoint ranges inside `[end, PHYSTOP)`, `kalloc`, `kfree` of a
held page and byte writes of a client into a page it holds (`AllocStep`).

* `AllocInv` — the invariant every step keeps (`AllocStep.keeps`): the free list is a heap list, it
  is disjoint from the held pages, and the two together are the pages that `kinit` has freed;
* `allocStep_total` — no permitted call panics or loops;
* `allocSound_iff` — the free and the held pages are all whole pages handed to `kinit` exactly when
  no range ends on a page boundary. A range that does loses its last page: the loop of `kinit` asks
  `p + PGSIZE < stop`.
-/

import Mathlib.Data.List.Pairwise
import ShipOS.Lib.Runs
import ShipOS.Memory.Kalloc

namespace ShipOS

open ByteMem Linked Runs

/-- The allocator, the pages its clients hold, and the ranges handed to `kinit`. -/
structure Alloc where
  phys : Phys
  held : List Word
  ranges : List (Word × Word)

inductive AllocOp
  | kinit (start stop : Word)
  | kalloc
  | kfree (pa : Word)
  | write (addr : Word) (byte : Byte)

/-- Two ranges of addresses share no address. -/
def DisjointRanges (r r' : Word × Word) : Prop :=
  ∀ x : Word, ¬ ((r.1 ≤ x ∧ x < r.2) ∧ r'.1 ≤ x ∧ x < r'.2)

/-- **One call of the allocator, or one write of a client.** -/
inductive AllocStep (L : Bounds) : Alloc → AllocOp → Alloc → Prop
  | kinit {s : Alloc} {t : Phys} (start stop : Word) (low : L.kend ≤ start) (order : start ≤ stop)
      (top : stop ≤ L.phystop) (disjoint : ∀ r ∈ s.ranges, DisjointRanges (start, stop) r)
      (done : kinit L start stop s.phys = .ok t) :
      AllocStep L s (.kinit start stop) { s with phys := t, ranges := (start, stop) :: s.ranges }
  | kalloc (s : Alloc) :
      AllocStep L s .kalloc { s with
        phys := (kalloc s.phys).2
        held := if (kalloc s.phys).1 = 0 then s.held else (kalloc s.phys).1 :: s.held }
  | kfree {s : Alloc} {t : Phys} (pa : Word) (member : pa ∈ s.held)
      (done : kfree L pa s.phys = .ok t) :
      AllocStep L s (.kfree pa) { s with phys := t, held := s.held.erase pa }
  | write (s : Alloc) (addr : Word) (byte : Byte) (p : Word) (member : p ∈ s.held)
      (inside : (addr - p).toNat < 4096) :
      AllocStep L s (.write addr byte)
        { s with phys := { s.phys with mem := Function.update s.phys.mem addr byte } }

/-- The allocator before any call. -/
def Alloc.Fresh (s : Alloc) : Prop := s.phys.freelist = 0 ∧ s.held = [] ∧ s.ranges = []

/-! ### The invariant -/

/-- A range handed to `kinit` lies in `[end, PHYSTOP)`. -/
def RangeOk (L : Bounds) (r : Word × Word) : Prop :=
  L.kend.toNat ≤ r.1.toNat ∧ r.1.toNat ≤ r.2.toNat ∧ r.2.toNat ≤ L.phystop.toNat

/-- **The allocator invariant.** -/
structure AllocInv (L : Bounds) (s : Alloc) (free : List Word) : Prop where
  list : FreeList L s.phys free
  heldNodup : s.held.Nodup
  heldPage : ∀ p ∈ s.held, IsPage L p
  disjoint : ∀ p ∈ free, p ∉ s.held
  owned : ∀ p, p ∈ free ∨ p ∈ s.held ↔ ∃ r ∈ s.ranges, p ∈ kinitPages r.1 r.2
  ranges : ∀ r ∈ s.ranges, RangeOk L r
  apart : s.ranges.Pairwise DisjointRanges

theorem allocInv_fresh (L : Bounds) {s : Alloc} (fresh : s.Fresh) : AllocInv L s [] := by
  obtain ⟨empty, noneHeld, noRanges⟩ := fresh
  refine ⟨⟨empty, List.nodup_nil, by simp⟩, ?_, ?_, ?_, ?_, ?_, ?_⟩ <;> simp [noneHeld, noRanges]

variable {L : Bounds} {s : Alloc} {free : List Word}

theorem kinitPages_disjoint {r r' : Word × Word} (ok : RangeOk L r) (ok' : RangeOk L r')
    (disjoint : DisjointRanges r r') {p : Word} (member : p ∈ kinitPages r.1 r.2) :
    p ∉ kinitPages r'.1 r'.2 := by
  intro member'
  obtain ⟨-, low, high⟩ := (mem_kinitPages ok.2.1 (ok.2.2.trans L.below)).mp member
  obtain ⟨-, low', high'⟩ := (mem_kinitPages ok'.2.1 (ok'.2.2.trans L.below)).mp member'
  refine disjoint p ⟨⟨BitVec.le_def.mpr low, BitVec.lt_def.mpr (by omega)⟩,
    BitVec.le_def.mpr low', BitVec.lt_def.mpr (by omega)⟩

theorem AllocInv.after_kinit (inv : AllocInv L s free) (start stop : Word)
    (ok : RangeOk L (start, stop))
    (disjoint : ∀ r ∈ s.ranges, DisjointRanges (start, stop) r) :
    ∃ t, kinit L start stop s.phys = .ok t ∧
      AllocInv L { s with phys := t, ranges := (start, stop) :: s.ranges }
        ((kinitPages start stop).reverse ++ free) := by
  -- a page of the new range belongs to no earlier range, so it is neither free nor held
  have unowned : ∀ p ∈ kinitPages start stop, ¬ (p ∈ free ∨ p ∈ s.held) := by
    intro p member owned
    obtain ⟨r, inRanges, inside⟩ := (inv.owned p).mp owned
    exact kinitPages_disjoint ok (inv.ranges r inRanges) (disjoint r inRanges) member inside
  obtain ⟨t, done, list, -⟩ := kinit_ok inv.list ok.1 ok.2.1 ok.2.2
    fun p member free => unowned p member (.inl free)
  refine ⟨t, done, list, inv.heldNodup, inv.heldPage, ?_, ?_, ?_,
    List.pairwise_cons.mpr ⟨disjoint, inv.apart⟩⟩
  · intro p member held
    rcases List.mem_append.mp member with new | old
    · exact unowned p (List.mem_reverse.mp new) (.inr held)
    · exact inv.disjoint p old held
  · intro p
    rw [List.mem_append, List.mem_reverse, or_assoc, inv.owned p]
    simp
  · intro r member
    rcases List.mem_cons.mp member with rfl | member
    · exact ok
    · exact inv.ranges r member

theorem AllocInv.after_kalloc (inv : AllocInv L s free) :
    ∃ free', AllocInv L { s with
      phys := (kalloc s.phys).2
      held := if (kalloc s.phys).1 = 0 then s.held else (kalloc s.phys).1 :: s.held } free' := by
  cases free with
  | nil =>
    rw [kalloc_nil inv.list]
    exact ⟨[], inv⟩
  | cons p free =>
    obtain ⟨t, taken, list, -⟩ := kalloc_cons inv.list
    have page := inv.list.page p List.mem_cons_self
    obtain ⟨notFree, -⟩ := List.nodup_cons.mp inv.list.nodup
    rw [taken]
    simp only [page.ne_zero, if_false]
    refine ⟨free, list, ?_, ?_, ?_, ?_, inv.ranges, inv.apart⟩
    · exact List.nodup_cons.mpr ⟨inv.disjoint p List.mem_cons_self, inv.heldNodup⟩
    · intro q member
      rcases List.mem_cons.mp member with rfl | member
      · exact page
      · exact inv.heldPage q member
    · intro q member held
      rcases List.mem_cons.mp held with rfl | held
      · exact notFree member
      · exact inv.disjoint q (List.mem_cons_of_mem _ member) held
    · intro q
      rw [← inv.owned q, List.mem_cons, List.mem_cons]
      tauto

theorem AllocInv.after_kfree {pa : Word} (inv : AllocInv L s free) (member : pa ∈ s.held) :
    ∃ t, kfree L pa s.phys = .ok t ∧
      AllocInv L { s with phys := t, held := s.held.erase pa } (pa :: free) := by
  obtain ⟨t, done, list, -⟩ := kfree_ok inv.list (inv.heldPage pa member)
    fun inFree => inv.disjoint pa inFree member
  refine ⟨t, done, list, inv.heldNodup.erase pa, ?_, ?_, ?_, inv.ranges, inv.apart⟩
  · exact fun p inside => inv.heldPage p (List.mem_of_mem_erase inside)
  · intro p inside held
    have kept := inv.heldNodup.mem_erase_iff.mp held
    rcases List.mem_cons.mp inside with rfl | inside
    · exact kept.1 rfl
    · exact inv.disjoint p inside kept.2
  · intro p
    rw [← inv.owned p, List.mem_cons]
    show (p = pa ∨ p ∈ free) ∨ p ∈ s.held.erase pa ↔ _
    rw [inv.heldNodup.mem_erase_iff]
    by_cases same : p = pa
    · subst same
      simp [member]
    · simp [same]

theorem AllocInv.after_write {addr p : Word} {byte : Byte} (inv : AllocInv L s free)
    (member : p ∈ s.held) (inside : (addr - p).toNat < 4096) :
    AllocInv L { s with phys := { s.phys with mem := Function.update s.phys.mem addr byte } }
      free := by
  have only : OnlyPage p s.phys.mem (Function.update s.phys.mem addr byte) := fun x outside =>
    Function.update_of_ne (fun same => outside (by rw [same]; exact inside)) _ _
  exact { inv with
    list := inv.list.other (inv.heldPage p member).aligned
      (fun inFree => inv.disjoint p inFree member) only }

/-- **Every step keeps the invariant.** -/
theorem AllocStep.keeps {t : Alloc} {op : AllocOp} (inv : ∃ free, AllocInv L s free)
    (step : AllocStep L s op t) : ∃ free, AllocInv L t free := by
  obtain ⟨free, inv⟩ := inv
  cases step with
  | kinit start stop low order top disjoint done =>
    obtain ⟨t, done', after⟩ := inv.after_kinit start stop ⟨low, order, top⟩ disjoint
    cases done.symm.trans done'
    exact ⟨_, after⟩
  | kalloc => exact inv.after_kalloc
  | kfree pa member done =>
    obtain ⟨t, done', after⟩ := inv.after_kfree member
    cases done.symm.trans done'
    exact ⟨_, after⟩
  | write addr byte p member inside => exact ⟨free, inv.after_write member inside⟩

theorem allocInv_of_run {t : Alloc} {ops : List AllocOp} (fresh : s.Fresh)
    (run : Run (AllocStep L) s ops t) : ∃ free, AllocInv L t free :=
  run.keeps (fun s => ∃ free, AllocInv L s free) (fun _ _ _ inv step => step.keeps inv)
    ⟨[], allocInv_fresh L fresh⟩

/-- **No permitted call panics or loops.** -/
theorem allocStep_total (inv : AllocInv L s free) :
    (∀ start stop, L.kend ≤ start → start ≤ stop → stop ≤ L.phystop →
      (∀ r ∈ s.ranges, DisjointRanges (start, stop) r) →
        ∃ t, AllocStep L s (.kinit start stop) t) ∧
      ∀ pa ∈ s.held, ∃ t, AllocStep L s (.kfree pa) t := by
  refine ⟨fun start stop low order top disjoint => ?_, fun pa member => ?_⟩
  · obtain ⟨t, done, -⟩ := inv.after_kinit start stop ⟨low, order, top⟩ disjoint
    exact ⟨_, .kinit start stop low order top disjoint done⟩
  · obtain ⟨t, done, -⟩ := inv.after_kfree member
    exact ⟨_, .kfree pa member done⟩

/-! ### The contract -/

/-- `p` is a whole page of the range `r`. -/
def WholePage (r : Word × Word) (p : Word) : Prop :=
  PageAligned p ∧ r.1.toNat ≤ p.toNat ∧ p.toNat + 4096 ≤ r.2.toNat

/-- The range `r` ends on a page boundary, after a whole page. -/
def EndsOnPage (r : Word × Word) : Prop :=
  r.2.toNat % 4096 = 0 ∧ r.1.toNat + 4096 ≤ r.2.toNat

/-- **The allocator's contract** in one state, for the pages `free` on its list. -/
structure AllocSound (L : Bounds) (s : Alloc) (free : List Word) : Prop where
  /-- The list is finite and acyclic: following the links visits `free` and ends in null. -/
  spine : Spine (load64 s.phys.mem) 0 s.phys.freelist free
  nodup : free.Nodup
  page : ∀ p ∈ free, p % pgsize = 0 ∧ L.kend ≤ p ∧ p < L.phystop
  heldNodup : s.held.Nodup
  disjoint : ∀ p ∈ free, p ∉ s.held
  /-- Free and held pages are together the pages handed to `kinit`. -/
  partition : ∀ p, p ∈ free ∨ p ∈ s.held ↔ ∃ r ∈ s.ranges, WholePage r p
  kallocNull : (kalloc s.phys).1 = 0 → free = []
  kallocFresh : (kalloc s.phys).1 ≠ 0 → (kalloc s.phys).1 ∈ free ∧ (kalloc s.phys).1 ∉ s.held
  count : countPages s.phys = .ok (BitVec.ofNat 64 free.length)

theorem IsPage.bounds {p : Word} (page : IsPage L p) :
    p % pgsize = 0 ∧ L.kend ≤ p ∧ p < L.phystop := by
  refine ⟨BitVec.eq_of_toNat_eq ?_, BitVec.le_def.mpr page.low, BitVec.lt_def.mpr page.high⟩
  rw [BitVec.toNat_umod, pgsize_toNat]
  exact page.aligned

theorem AllocInv.kalloc_fresh (inv : AllocInv L s free) :
    ((kalloc s.phys).1 = 0 → free = []) ∧
      ((kalloc s.phys).1 ≠ 0 → (kalloc s.phys).1 ∈ free ∧ (kalloc s.phys).1 ∉ s.held) := by
  cases free with
  | nil =>
    rw [kalloc_nil inv.list]
    exact ⟨fun _ => rfl, fun ne => absurd rfl ne⟩
  | cons p free =>
    obtain ⟨t, taken, -⟩ := kalloc_cons inv.list
    rw [taken]
    refine ⟨fun zero => absurd zero (inv.list.page p List.mem_cons_self).ne_zero, fun _ => ?_⟩
    exact ⟨List.mem_cons_self, inv.disjoint p List.mem_cons_self⟩

instance disjointRanges_symm : Std.Symm DisjointRanges :=
  ⟨fun _ _ disjoint x both => disjoint x ⟨both.2, both.1⟩⟩

/-- A page that `kinit` freed from one range lies in no other. -/
theorem AllocInv.range_unique (inv : AllocInv L s free) {r r' : Word × Word} {p : Word}
    (member : r ∈ s.ranges) (member' : r' ∈ s.ranges) (whole : WholePage r p)
    (freed : p ∈ kinitPages r'.1 r'.2) : r' = r := by
  by_contra different
  obtain ⟨-, low, high⟩ := whole
  obtain ⟨-, low', high'⟩ :=
    (mem_kinitPages (inv.ranges r' member').2.1 ((inv.ranges r' member').2.2.trans L.below)).mp freed
  have disjoint := inv.apart.forall member' member different
  exact disjoint p ⟨⟨BitVec.le_def.mpr low', BitVec.lt_def.mpr (by omega)⟩,
    BitVec.le_def.mpr low, BitVec.lt_def.mpr (by omega)⟩

/-- **The whole pages handed to `kinit` are all owned exactly when no range ends on a page
boundary.** -/
theorem AllocInv.partition_iff (inv : AllocInv L s free) :
    (∀ p, p ∈ free ∨ p ∈ s.held ↔ ∃ r ∈ s.ranges, WholePage r p) ↔
      ∀ r ∈ s.ranges, ¬ EndsOnPage r := by
  constructor
  · rintro all r member ⟨aligned, room⟩
    -- the last page of such a range is a whole page that the loop of `kinit` leaves out
    have top := (inv.ranges r member).2.2
    have below := L.below
    have last : (r.2 - pgsize).toNat = r.2.toNat - 4096 := by
      simp only [pgsize]
      bv_omega
    have whole : WholePage r (r.2 - pgsize) := by
      refine ⟨?_, ?_, ?_⟩ <;> simp only [PageAligned, last] <;> omega
    obtain ⟨r', member', freed⟩ := (inv.owned _).mp ((all _).mpr ⟨r, member, whole⟩)
    have same := inv.range_unique member member' whole freed
    subst same
    have ranges := inv.ranges r' member'
    have below := ((mem_kinitPages ranges.2.1 (ranges.2.2.trans L.below)).mp freed).2.2
    omega
  · intro interior p
    rw [inv.owned p]
    refine exists_congr fun r => and_congr_right fun member => ?_
    rw [mem_kinitPages (inv.ranges r member).2.1 ((inv.ranges r member).2.2.trans L.below), WholePage]
    refine and_congr_right fun aligned => and_congr_right fun low => ⟨fun below => below.le, ?_⟩
    intro below
    rcases Nat.lt_or_eq_of_le below with strict | reach
    · exact strict
    · unfold PageAligned at aligned
      exact absurd ⟨by omega, by omega⟩ (interior r member)

theorem AllocInv.sound_iff (inv : AllocInv L s free) :
    AllocSound L s free ↔ ∀ r ∈ s.ranges, ¬ EndsOnPage r := by
  rw [← inv.partition_iff]
  refine ⟨fun sound => sound.partition, fun partition => ?_⟩
  obtain ⟨null, fresh⟩ := inv.kalloc_fresh
  exact ⟨inv.list.spine, inv.list.nodup, fun p member => (inv.list.page p member).bounds,
    inv.heldNodup, inv.disjoint, partition, null, fresh, countPages_ok inv.list⟩

/-- **The allocator over whole runs.** In every state a run reaches, the allocator meets its
contract exactly when no range handed to `kinit` so far ends on a page boundary. -/
theorem allocSound_iff (L : Bounds) {s t : Alloc} {ops : List AllocOp} (fresh : s.Fresh)
    (run : Run (AllocStep L) s ops t) :
    (∃ free, AllocSound L t free) ↔ ∀ r ∈ t.ranges, ¬ EndsOnPage r := by
  obtain ⟨free, inv⟩ := allocInv_of_run fresh run
  constructor
  · rintro ⟨free', sound⟩
    have same := sound.spine.unique inv.list.spine
    subst same
    exact inv.sound_iff.mp sound
  · exact fun interior => ⟨free, inv.sound_iff.mpr interior⟩

/-- No allocator call yet. -/
def demoAlloc : Alloc := ⟨⟨fun _ => 0, 0⟩, [], []⟩

theorem demoAlloc_fresh : demoAlloc.Fresh := ⟨rfl, rfl, rfl⟩

/-- One `kinit` of a range inside `[end, PHYSTOP)` is a run from the fresh allocator. -/
theorem demo_kinit (stop : Word) (order : (0x200000 : Word) ≤ stop) (top : stop ≤ phystop) :
    ∃ t, Run (AllocStep demoLayout) demoAlloc [.kinit 0x200000 stop] t ∧
      t.ranges = [(0x200000, stop)] := by
  obtain ⟨t, done, -⟩ := (allocInv_fresh demoLayout demoAlloc_fresh).after_kinit
    0x200000 stop ⟨le_rfl, order, top⟩ (by simp [demoAlloc])
  exact ⟨_, .cons (.kinit _ _ (by decide) order top (by simp [demoAlloc]) done) (.nil _), rfl⟩

/-- After `kinit` of a range that ends inside a page the contract holds. -/
theorem allocSound_iff_interior :
    ∃ t, Run (AllocStep demoLayout) demoAlloc [.kinit 0x200000 0x202800] t ∧
      ∃ free, AllocSound demoLayout t free := by
  obtain ⟨t, run, ranges⟩ := demo_kinit 0x202800 (by decide) (by decide)
  refine ⟨t, run, (allocSound_iff demoLayout demoAlloc_fresh run).mpr ?_⟩
  rw [ranges]
  simp [EndsOnPage]

/-- **`kinit(0x200000, 0x202000)` loses the page `0x201000`.** -/
theorem kinit_loses_last_page :
    ∃ t, Run (AllocStep demoLayout) demoAlloc [.kinit 0x200000 0x202000] t ∧
      ¬ ∃ free, AllocSound demoLayout t free := by
  obtain ⟨t, run, ranges⟩ := demo_kinit 0x202000 (by decide) (by decide)
  refine ⟨t, run, ?_⟩
  rintro ⟨free', sound⟩
  obtain ⟨free, inv⟩ := allocInv_of_run demoAlloc_fresh run
  have same := sound.spine.unique inv.list.spine
  subst same
  have interior := inv.sound_iff.mp sound (0x200000, 0x202000) (by rw [ranges]; simp)
  exact interior ⟨by decide, by decide⟩

end ShipOS

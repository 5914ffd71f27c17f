/-
**The physical page allocator (`kalloc.c`).**

The free list is threaded through the free pages themselves: the first word of a free page is the
link. `memset` runs over a whole page on every `kalloc` and `kfree`, so the links live in memory
that is overwritten all the time; `FreeList` is the heap invariant that says which pages the list
holds.

* `FreeList L s free` — following the links from `freelist` visits `free` and ends in null; the
  pages are distinct, page-aligned and in `[end, PHYSTOP)`;
* `kalloc_cons`, `kalloc_nil`, `kfree_ok` — what one call does to the list and that it writes no
  byte outside the page it takes or gives (`OnlyPage`);
* `kinit_ok` — `kinit` pushes exactly `kinitPages`, which is **not** every whole page of its range:
  the loop stops one page early when `stop` is page-aligned;
* `countPages_ok` — the counting loop ends and returns the length of the list.
-/

import Mathlib.Data.Finset.Card
import Mathlib.Data.Finset.Range
import ShipOS.Lib.Pointers
import ShipOS.Memory.Layout

namespace ShipOS

open ByteMem Linked

/-! ### The code -/

/-- `memset` as the byte loop of `memset.c`. -/
def memsetLoop (m : Mem) (ptr : Word) (value : Byte) : Nat → Mem
  | 0 => m
  | num + 1 => memsetLoop (fill m ptr value 1) (ptr + 1) value num

/-- `memset`: the byte loop in closed form (`memset_eq_loop`). -/
def memset (m : Mem) (ptr : Word) (value : Byte) (num : Nat) : Mem := fill m ptr value num

/-- Physical memory and the allocator's head pointer `kmem.freelist`. -/
structure Phys where
  mem : Mem
  freelist : Word

def kfree (L : Bounds) (pa : Word) (s : Phys) : Except Halt Phys :=
  if pa % pgsize ≠ 0 ∨ pa < L.kend ∨ pa ≥ L.phystop then .error (.panic "kfree")
  else
    let mem := memset s.mem pa 0 4096
    .ok { mem := store64 mem pa s.freelist, freelist := pa }

def kalloc (s : Phys) : Word × Phys :=
  let r := s.freelist
  if r ≠ 0 then (r, { mem := memset s.mem r 5 4096, freelist := load64 s.mem r })
  else (0, s)

def kinit (L : Bounds) (start stop : Word) (s : Phys) : Except Halt Phys :=
  forPages (fun p => p + pgsize < stop) (fun p s => kfree L p s) pageFuel (pgroundup start) s

/-- `while (r != 0) { res++; r = r->next; }`. -/
def countLoop (mem : Mem) : Nat → Word → Word → Except Halt Word
  | 0, _, _ => .error .diverges
  | fuel + 1, r, res => if r ≠ 0 then countLoop mem fuel (load64 mem r) (res + 1) else .ok res

/-- One round more than there are pointers. -/
def ptrFuel : Nat := 2 ^ 64 + 1

def countPages (s : Phys) : Except Halt Word := countLoop s.mem ptrFuel s.freelist 0

/-! ### `memset` is its loop -/

theorem fill_succ (m : Mem) (a : Word) (v : Byte) (n : Nat) (small : n < 2 ^ 64) :
    fill (fill m a v 1) (a + 1) v n = fill m a v (n + 1) := by
  funext x
  simp only [fill]
  by_cases first : (x - a).toNat = 0
  · by_cases inside : (x - (a + 1)).toNat < n
    · rw [if_pos inside, if_pos (by omega)]
    · rw [if_neg inside, if_pos (by omega), if_pos (by omega)]
  · have shift : (x - (a + 1)).toNat + 1 = (x - a).toNat := by bv_omega
    by_cases inside : (x - (a + 1)).toNat < n
    · rw [if_pos inside, if_pos (by omega)]
    · rw [if_neg inside, if_neg (by omega), if_neg (by omega)]

theorem memset_eq_loop (m : Mem) (ptr : Word) (value : Byte) (num : Nat) (small : num ≤ 2 ^ 64) :
    memset m ptr value num = memsetLoop m ptr value num := by
  induction num generalizing m ptr with
  | zero =>
    funext x
    simp [memset, memsetLoop, fill]
  | succ num ih =>
    rw [memsetLoop, ← ih (fill m ptr value 1) (ptr + 1) (by omega), memset, memset,
      fill_succ m ptr value num (by omega)]

/-! ### The heap invariant -/

/-- A page the allocator may hold. -/
structure IsPage (L : Bounds) (p : Word) : Prop where
  aligned : PageAligned p
  low : L.kend.toNat ≤ p.toNat
  high : p.toNat < L.phystop.toNat

instance (L : Bounds) (p : Word) : Decidable (IsPage L p) :=
  decidable_of_iff (PageAligned p ∧ L.kend ≤ p ∧ p < L.phystop)
    ⟨fun ⟨aligned, low, high⟩ => ⟨aligned, low, high⟩, fun page => ⟨page.aligned, page.low, page.high⟩⟩

theorem Bounds.kend_pos (L : Bounds) : 0 < L.kend.toNat := by
  have above : kstart.toNat ≤ L.kend.toNat := L.above
  have : kstart.toNat = 1048576 := rfl
  omega

theorem IsPage.ne_zero {L : Bounds} {p : Word} (page : IsPage L p) : p ≠ 0 := by
  rintro rfl
  have := L.kend_pos
  have : (0 : Word).toNat = 0 := rfl
  have := page.low
  omega

/-- **The free list.** -/
structure FreeList (L : Bounds) (s : Phys) (free : List Word) : Prop where
  spine : Spine (load64 s.mem) 0 s.freelist free
  nodup : free.Nodup
  page : ∀ p ∈ free, IsPage L p

/-- Only bytes of the page `p` differ. -/
def OnlyPage (p : Word) (m m' : Mem) : Prop := ∀ x, ¬ (x - p).toNat < 4096 → m' x = m x

theorem onlyPage_fill (m : Mem) (p : Word) (v : Byte) : OnlyPage p m (fill m p v 4096) :=
  fun _ outside => if_neg outside

theorem onlyPage_store {p : Word} (m : Mem) (i : Nat) (v : Word) (hi : i < 512) :
    OnlyPage p m (store64 m (slot p i) v) := by
  intro x outside
  refine if_neg fun inside => outside ?_
  have : slot p i = p + BitVec.ofNat 64 (8 * i) := rfl
  bv_omega

theorem OnlyPage.trans {p : Word} {m m' m'' : Mem} (first : OnlyPage p m m')
    (second : OnlyPage p m' m'') : OnlyPage p m m'' :=
  fun x outside => (second x outside).trans (first x outside)

/-- Only bytes of the pages `ps` differ. -/
def OnlyPages (ps : List Word) (m m' : Mem) : Prop :=
  ∀ x, (∀ p ∈ ps, ¬ (x - p).toNat < 4096) → m' x = m x

theorem OnlyPage.pages {p : Word} {ps : List Word} {m m' : Mem} (only : OnlyPage p m m')
    (member : p ∈ ps) : OnlyPages ps m m' :=
  fun x outside => only x (outside p member)

theorem OnlyPages.trans {ps : List Word} {m m' m'' : Mem} (first : OnlyPages ps m m')
    (second : OnlyPages ps m' m'') : OnlyPages ps m m'' :=
  fun x outside => (second x outside).trans (first x outside)

theorem OnlyPages.refl (ps : List Word) (m : Mem) : OnlyPages ps m m := fun _ _ => rfl

/-- One more store into one of the pages. -/
theorem OnlyPages.store {ps : List Word} {m m' : Mem} {p v : Word} {i : Nat}
    (only : OnlyPages ps m m') (hi : i < 512) (member : p ∈ ps) :
    OnlyPages ps m (store64 m' (slot p i) v) :=
  only.trans ((onlyPage_store m' i v hi).pages member)

theorem OnlyPages.mono {ps qs : List Word} {m m' : Mem} (only : OnlyPages ps m m')
    (within : ps ⊆ qs) : OnlyPages qs m m' :=
  fun x outside => only x fun p member => outside p (within member)

section OtherPage

variable {ps : List Word} {q : Word} {m m' : Mem} (only : OnlyPages ps m m')
  (alignedPs : ∀ p ∈ ps, PageAligned p) (alignedQ : PageAligned q) (other : q ∉ ps)

include only alignedPs alignedQ other

theorem OnlyPages.byte {k : Nat} (inside : k < 4096) :
    m' (q + BitVec.ofNat 64 k) = m (q + BitVec.ofNat 64 k) := by
  refine only _ fun p member within => other ?_
  have alignedP := alignedPs p member
  have boundQ := q.isLt
  unfold PageAligned at alignedP alignedQ
  have same : q.toNat = p.toNat := by bv_omega
  rwa [BitVec.eq_of_toNat_eq same]

/-- A word of another page is kept. -/
theorem OnlyPages.load64 {i : Nat} (hi : i < 512) :
    load64 m' (slot q i) = load64 m (slot q i) := by
  refine congrArg (BitVec.ofNat 64) (readLE_congr fun k hk => ?_)
  have address : slot q i + BitVec.ofNat 64 k = q + BitVec.ofNat 64 (8 * i + k) := by
    rw [slot, BitVec.add_assoc, ← BitVec.ofNat_add]
  rw [address]
  exact only.byte alignedPs alignedQ other (by omega)

theorem OnlyPages.load32 {i : Nat} (hi : i + 4 ≤ 4096) :
    load32 m' (q + BitVec.ofNat 64 i) = load32 m (q + BitVec.ofNat 64 i) := by
  refine congrArg (BitVec.ofNat 32) (readLE_congr fun k hk => ?_)
  rw [BitVec.add_assoc, ← BitVec.ofNat_add]
  exact only.byte alignedPs alignedQ other (by omega)

end OtherPage

theorem OnlyPage.load64 {p q : Word} {m m' : Mem} {i : Nat} (only : OnlyPage p m m')
    (alignedP : PageAligned p) (alignedQ : PageAligned q) (hi : i < 512) (different : p ≠ q) :
    load64 m' (slot q i) = load64 m (slot q i) :=
  (only.pages (List.mem_singleton_self p)).load64 (List.forall_mem_singleton.mpr alignedP) alignedQ
    (mt List.mem_singleton.mp different.symm) hi

variable {L : Bounds} {s : Phys} {free : List Word} {p : Word}

/-- The allocator before the first `kinit`. -/
theorem freeList_nil (empty : s.freelist = 0) : FreeList L s [] :=
  ⟨empty, List.nodup_nil, List.forall_mem_nil _⟩

/-- The free list survives a change of other pages. -/
theorem FreeList.others {mem : Mem} {ps : List Word} (list : FreeList L s free)
    (aligned : ∀ p ∈ ps, PageAligned p) (apart : ∀ p ∈ free, p ∉ ps)
    (only : OnlyPages ps s.mem mem) : FreeList L { s with mem := mem } free := by
  refine ⟨list.spine.frame fun x member => ?_, list.nodup, list.page⟩
  have kept := only.load64 (i := 0) aligned (list.page x member).aligned (apart x member) (by omega)
  rwa [slot_zero] at kept

/-- The free list survives a change of any other page. -/
theorem FreeList.other {mem : Mem} (list : FreeList L s free) (aligned : PageAligned p)
    (apart : p ∉ free) (only : OnlyPage p s.mem mem) :
    FreeList L { s with mem := mem } free :=
  list.others (List.forall_mem_singleton.mpr aligned)
    (fun _ member => mt List.mem_singleton.mp fun same => apart (same ▸ member))
    (only.pages (List.mem_singleton_self p))

/-! ### One call -/

theorem kalloc_nil (list : FreeList L s []) : kalloc s = (0, s) := by
  have empty : s.freelist = 0 := list.spine
  simp [kalloc, empty]

/-- The first free page, filled with junk. -/
theorem kalloc_junk (list : FreeList L s (p :: free)) :
    kalloc s = (p, { mem := memset s.mem p 5 4096, freelist := load64 s.mem p }) := by
  obtain ⟨head, cell, -⟩ := list.spine
  rw [kalloc]
  simp only [head]
  exact if_pos cell

/-- **`kalloc` takes the first page**, fills it and touches nothing else. -/
theorem kalloc_cons (list : FreeList L s (p :: free)) :
    ∃ t, kalloc s = (p, t) ∧ FreeList L t free ∧ OnlyPage p s.mem t.mem := by
  obtain ⟨-, -, rest⟩ := list.spine
  have fresh : p ∉ free := (List.nodup_cons.mp list.nodup).1
  have tail : FreeList L { s with freelist := load64 s.mem p } free :=
    ⟨rest, (List.nodup_cons.mp list.nodup).2,
      fun q member => list.page q (List.mem_cons_of_mem _ member)⟩
  exact ⟨_, kalloc_junk list, tail.other (list.page p List.mem_cons_self).aligned fresh
    (onlyPage_fill _ _ _), onlyPage_fill _ _ _⟩

/-- The check of `kfree`. -/
theorem kfree_check (page : IsPage L p) :
    ¬ (p % pgsize ≠ 0 ∨ p < L.kend ∨ p ≥ L.phystop) := by
  have aligned := page.aligned
  have low := page.low
  have high := page.high
  unfold PageAligned at aligned
  rintro (offset | below | above)
  · exact offset (BitVec.eq_of_toNat_eq (by rw [BitVec.toNat_umod, pgsize_toNat, aligned]; rfl))
  · exact absurd (BitVec.lt_def.mp below) (by omega)
  · exact absurd (BitVec.le_def.mp above) (by omega)

theorem kfree_only (s : Phys) (p : Word) :
    OnlyPage p s.mem (store64 (memset s.mem p 0 4096) p s.freelist) := by
  have stored := onlyPage_store (p := p) (memset s.mem p 0 4096) 0 s.freelist (by omega)
  rw [slot_zero] at stored
  exact (onlyPage_fill s.mem p 0).trans stored

/-- **`kfree` of a page that is not free pushes it** and touches nothing else. -/
theorem kfree_ok (list : FreeList L s free) (page : IsPage L p) (fresh : p ∉ free) :
    ∃ t, kfree L p s = .ok t ∧ FreeList L t (p :: free) ∧ OnlyPage p s.mem t.mem := by
  have only := kfree_only s p
  refine ⟨_, if_neg (kfree_check page), ⟨⟨rfl, page.ne_zero, ?_⟩, ?_, ?_⟩, only⟩
  · rw [load64_store64_self]
    exact (list.other page.aligned fresh only).spine
  · exact List.nodup_cons.mpr ⟨fresh, list.nodup⟩
  · intro q member
    rcases List.mem_cons.mp member with rfl | member
    · exact page
    · exact list.page q member

/-- `kfree` panics on everything else. -/
theorem kfree_panic (bad : ¬ IsPage L p) : kfree L p s = .error (.panic "kfree") := by
  refine if_pos ?_
  by_contra check
  rw [not_or, not_or, not_not] at check
  obtain ⟨aligned, low, high⟩ := check
  refine bad ⟨?_, ?_, ?_⟩
  · have same : (p % pgsize).toNat = 0 := by rw [aligned]; rfl
    rwa [BitVec.toNat_umod] at same
  · exact BitVec.le_def.mp (BitVec.not_lt.mp low)
  · exact BitVec.lt_def.mp (BitVec.not_le.mp high)

/-- A call that returns was given a page, and wrote only that. -/
theorem kfree_returns {t : Phys} (done : kfree L p s = .ok t) :
    IsPage L p ∧ OnlyPage p s.mem t.mem := by
  by_cases page : IsPage L p
  · rw [kfree, if_neg (kfree_check page)] at done
    cases done
    exact ⟨page, kfree_only s p⟩
  · rw [kfree_panic page] at done
    cases done

theorem countLoop_ok {mem : Mem} : ∀ (free : List Word) (head res : Word) (fuel : Nat),
    Spine (load64 mem) 0 head free → free.length < fuel →
      countLoop mem fuel head res = .ok (res + BitVec.ofNat 64 free.length) := by
  intro free
  induction free with
  | nil =>
    intro head res fuel spine enough
    obtain ⟨fuel, rfl⟩ := Nat.exists_eq_add_one.mpr enough
    have zero : head = 0 := spine
    simp [countLoop, zero]
  | cons x free ih =>
    intro head res fuel spine enough
    obtain ⟨fuel, rfl⟩ := Nat.exists_eq_add_one.mpr (Nat.zero_lt_of_lt enough)
    obtain ⟨rfl, cell, rest⟩ := spine
    rw [countLoop, if_pos cell, ih _ _ fuel rest (by simp at enough; omega)]
    congr 1
    simp only [List.length_cons]
    bv_omega

/-- There are at most `PHYSTOP / PGSIZE` pages, rounded up. -/
theorem pages_length_le {ps : List Word} (nodup : ps.Nodup) (page : ∀ p ∈ ps, IsPage L p) :
    ps.length ≤ (L.phystop.toNat + 4095) / 4096 := by
  rw [← List.toFinset_card_of_nodup nodup]
  refine (Finset.card_le_card_of_injOn (t := Finset.range ((L.phystop.toNat + 4095) / 4096))
    (fun p => p.toNat / 4096) ?_ ?_).trans (by simp)
  · intro p member
    have high := (page p (List.mem_toFinset.mp member)).high
    simp only [Finset.coe_range, Set.mem_Iio]
    omega
  · intro p memberP q memberQ same
    have alignedP := (page p (List.mem_toFinset.mp memberP)).aligned
    have alignedQ := (page q (List.mem_toFinset.mp memberQ)).aligned
    unfold PageAligned at alignedP alignedQ
    simp only at same
    exact BitVec.eq_of_toNat_eq (by omega)

/-- **`count_pages` returns the length of the free list.** -/
theorem countPages_ok (list : FreeList L s free) :
    countPages s = .ok (BitVec.ofNat 64 free.length) := by
  have small := pages_length_le list.nodup list.page
  have below := L.below
  rw [countPages, countLoop_ok free _ _ _ list.spine (by rw [ptrFuel]; omega)]
  simp

/-! ### `kinit` -/

/-- The pages `kinit` frees, in order: those that end strictly below `stop`. -/
def kinitPages (start stop : Word) : List Word :=
  (List.range ((stop.toNat - (pgroundup start).toNat - 1) / 4096)).map (pageAt (pgroundup start))

theorem pgroundup_of_le {start : Word} (bound : start.toNat ≤ 2 ^ 48) :
    (pgroundup start).toNat = (start.toNat + 4095) / 4096 * 4096 := by
  rw [pgroundup_toNat, Nat.mod_eq_of_lt (by omega)]

/-- **Exactly the aligned pages of the range that end strictly before `stop`.** -/
theorem mem_kinitPages {start stop : Word} (order : start.toNat ≤ stop.toNat)
    (top : stop.toNat ≤ 2 ^ 48) :
    p ∈ kinitPages start stop ↔
      PageAligned p ∧ start.toNat ≤ p.toNat ∧ p.toNat + 4096 < stop.toNat := by
  have base := pgroundup_of_le (order.trans top)
  simp only [kinitPages, List.mem_map, List.mem_range, PageAligned]
  constructor
  · rintro ⟨i, hi, rfl⟩
    rw [pageAt_toNat]
    omega
  · rintro ⟨aligned, low, high⟩
    refine ⟨(p.toNat - (pgroundup start).toNat) / 4096, by omega, BitVec.eq_of_toNat_eq ?_⟩
    rw [pageAt_toNat]
    omega

theorem kinitPages_nodup (start stop : Word) : (kinitPages start stop).Nodup := by
  refine List.Nodup.map_on ?_ List.nodup_range
  intro i hi j hj same
  rw [List.mem_range] at hi hj
  have equal := congrArg BitVec.toNat same
  rw [pageAt_toNat, pageAt_toNat] at equal
  have := stop.isLt
  omega

/-- The condition of the loops of `kinit` and `kvminit` holds at exactly `kinitPages`. -/
theorem kinitPages_cond {start stop : Word} (order : start.toNat ≤ stop.toNat)
    (top : stop.toNat ≤ 2 ^ 48) {i : Nat}
    (hi : i ≤ (stop.toNat - (pgroundup start).toNat - 1) / 4096) :
    pageAt (pgroundup start) i + pgsize < stop ↔
      i < (stop.toNat - (pgroundup start).toNat - 1) / 4096 := by
  have base := pgroundup_of_le (order.trans top)
  rw [BitVec.lt_def, BitVec.toNat_add, pageAt_toNat, pgsize_toNat]
  omega

/-- **These loops run over `kinitPages`.** -/
theorem forPages_kinitPages {S : Type*} (body : Word → S → Except Halt S) {start stop : Word}
    (order : start.toNat ≤ stop.toNat) (top : stop.toNat ≤ 2 ^ 48) (s : S) :
    forPages (fun p => p + pgsize < stop) body pageFuel (pgroundup start) s =
      onPages body ((stop.toNat - (pgroundup start).toNat - 1) / 4096) (pgroundup start) s := by
  refine forPages_eq _ pageFuel _ _ ?_ (fun i hi => ?_) ?_
  · rw [pageFuel]
    omega
  · exact decide_eq_true ((kinitPages_cond order top hi.le).mpr hi)
  · exact decide_eq_false ((kinitPages_cond order top le_rfl).not.mpr (Nat.lt_irrefl _))

/-- A page they visit is one of `kinitPages`. -/
theorem mem_kinitPages_of_visited {start stop : Word} (order : start.toNat ≤ stop.toNat)
    (top : stop.toNat ≤ 2 ^ 48) {i : Nat}
    (visited : Visited (fun p => p + pgsize < stop) (pgroundup start) i) :
    pageAt (pgroundup start) i ∈ kinitPages start stop := by
  refine List.mem_map_of_mem (List.mem_range.mpr ?_)
  by_contra late
  have last := of_decide_eq_true (visited _ (Nat.le_of_not_lt late))
  exact Nat.lt_irrefl _ ((kinitPages_cond order top le_rfl).mp last)

/-- Freeing a run of pages, none of which is free, pushes them in order. -/
theorem onPages_kfree (n : Nat) : ∀ (addr : Word) (s : Phys) (free : List Word),
    FreeList L s free → (∀ i < n, IsPage L (pageAt addr i)) → (∀ i < n, pageAt addr i ∉ free) →
      ((List.range n).map (pageAt addr)).Nodup →
        ∃ t, onPages (fun p s => kfree L p s) n addr s = .ok t ∧
          FreeList L t (((List.range n).map (pageAt addr)).reverse ++ free) ∧
          ∀ x, (∀ i < n, ¬ (x - pageAt addr i).toNat < 4096) → t.mem x = s.mem x := by
  induction n with
  | zero => exact fun _ s _ list _ _ _ => ⟨s, rfl, list, fun _ _ => rfl⟩
  | succ n ih =>
    intro addr s free list page fresh distinct
    rw [List.range_succ_eq_map, List.map_cons, List.map_map] at distinct ⊢
    have shift : pageAt addr ∘ Nat.succ = pageAt (addr + pgsize) :=
      funext fun i => pageAt_succ addr i
    rw [shift, pageAt_zero] at distinct ⊢
    obtain ⟨notLater, distinct⟩ := List.nodup_cons.mp distinct
    have here := page 0 (Nat.succ_pos n)
    rw [pageAt_zero] at here
    have freshHere := fresh 0 (Nat.succ_pos n)
    rw [pageAt_zero] at freshHere
    obtain ⟨mid, freed, listMid, only⟩ := kfree_ok list here freshHere
    obtain ⟨t, rest, listEnd, frame⟩ := ih (addr + pgsize) mid (addr :: free) listMid
      (fun i hi => by rw [← pageAt_succ]; exact page (i + 1) (Nat.succ_lt_succ hi))
      (fun i hi member => by
        rcases List.mem_cons.mp member with same | member
        · exact notLater (List.mem_map.mpr ⟨i, List.mem_range.mpr hi, same⟩)
        · rw [← pageAt_succ] at member
          exact fresh (i + 1) (Nat.succ_lt_succ hi) member)
      distinct
    refine ⟨t, ?_, ?_, ?_⟩
    · rw [onPages, freed]
      exact rest
    · rw [List.reverse_cons, List.append_assoc]
      exact listEnd
    · intro x outside
      rw [frame x fun i hi => by rw [← pageAt_succ]; exact outside (i + 1) (Nat.succ_lt_succ hi)]
      have away := outside 0 (Nat.succ_pos n)
      rw [pageAt_zero] at away
      exact only x away

/-- **`kinit` pushes exactly `kinitPages`.** -/
theorem kinit_ok {start stop : Word} (list : FreeList L s free)
    (low : L.kend.toNat ≤ start.toNat) (order : start.toNat ≤ stop.toNat)
    (top : stop.toNat ≤ L.phystop.toNat) (fresh : ∀ p ∈ kinitPages start stop, p ∉ free) :
    ∃ t, kinit L start stop s = .ok t ∧
      FreeList L t ((kinitPages start stop).reverse ++ free) ∧
      ∀ x, (∀ p ∈ kinitPages start stop, ¬ (x - p).toNat < 4096) → t.mem x = s.mem x := by
  have member : ∀ i < (stop.toNat - (pgroundup start).toNat - 1) / 4096,
      pageAt (pgroundup start) i ∈ kinitPages start stop := fun i hi =>
    List.mem_map.mpr ⟨i, List.mem_range.mpr hi, rfl⟩
  have top48 := top.trans L.below
  have page : ∀ p ∈ kinitPages start stop, IsPage L p := fun p inside => by
    obtain ⟨aligned, above, below⟩ := (mem_kinitPages order top48).mp inside
    exact ⟨aligned, by omega, by omega⟩
  obtain ⟨t, done, listEnd, frame⟩ := onPages_kfree _ (pgroundup start) s free list
    (fun i hi => page _ (member i hi)) (fun i hi => fresh _ (member i hi))
    (kinitPages_nodup start stop)
  refine ⟨t, ?_, listEnd, fun x outside => frame x fun i hi => outside _ (member i hi)⟩
  rw [kinit, forPages_kinitPages _ order top48]
  exact done

/-- Three free pages, and the rest of memory zero. -/
def demoPhys : Phys where
  mem := store64 (store64 (fun _ => 0) 0x200000 0x201000) 0x201000 0x202000
  freelist := 0x200000

theorem demoPhys_list : FreeList demoLayout demoPhys [0x200000, 0x201000, 0x202000] where
  spine := by decide +kernel
  nodup := by decide
  page := by
    simp only [List.forall_mem_cons]
    exact ⟨by decide, by decide, by decide, by simp⟩

end ShipOS

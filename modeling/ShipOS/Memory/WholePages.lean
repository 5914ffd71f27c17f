/-
**What `kinit` hands over (`kalloc.c`).**

`kinit(start, stop)` is meant to free the whole pages of `[start, stop)`. Its loop goes on while
`p + PGSIZE < stop`, so the page that ends exactly at `stop` stays behind.

* `kinit_adds` — the pages one call adds, in either order of `start` and `stop`;
* `kinit_whole_iff` — when these are the whole pages of the range, and when two calls on adjacent
  ranges free what one call does;
* `kinit_leaves_last`, `kinit_whole_interior` — the two cases.
-/

import ShipOS.Memory.AllocRuns

namespace ShipOS

open ByteMem Linked

instance (r : Word × Word) (p : Word) : Decidable (WholePage r p) :=
  inferInstanceAs (Decidable (_ ∧ _ ∧ _))

section WholePage

variable {start stop p : Word} (page : WholePage (start, stop) p)

include page

theorem WholePage.aligned : PageAligned p := page.1

theorem WholePage.low : start.toNat ≤ p.toNat := page.2.1

theorem WholePage.high : p.toNat + 4096 ≤ stop.toNat := page.2.2

end WholePage

/-- An address in `[end, PHYSTOP]`. -/
structure InMemory (L : Bounds) (a : Word) : Prop where
  low : L.kend.toNat ≤ a.toNat
  high : a.toNat ≤ L.phystop.toNat

instance (L : Bounds) (a : Word) : Decidable (InMemory L a) :=
  decidable_of_iff (L.kend.toNat ≤ a.toNat ∧ a.toNat ≤ L.phystop.toNat)
    ⟨fun ⟨low, high⟩ => ⟨low, high⟩, fun inside => ⟨inside.low, inside.high⟩⟩

/-- **`kinit` adds each whole page of its range once and nothing else**, to any free list that has none
of them yet. -/
def HandsOver (L : Bounds) (start stop : Word) : Prop :=
  ∀ s free, FreeList L s free → (∀ p ∈ free, ¬ WholePage (start, stop) p) →
    ∃ t added, kinit L start stop s = .ok t ∧ FreeList L t (added ++ free) ∧
      ∀ p, p ∈ added ↔ WholePage (start, stop) p

/-- **`kinit` on `[a, b)` and then on `[b, c)` frees the pages that `kinit` on `[a, c)` frees.** -/
def SplitsAt (L : Bounds) (a b c : Word) : Prop :=
  ∀ s free, FreeList L s free → (∀ p ∈ free, ¬ WholePage (a, c) p) →
    ∃ t u v twice once, kinit L a b s = .ok t ∧ kinit L b c t = .ok u ∧ FreeList L u twice ∧
      kinit L a c s = .ok v ∧ FreeList L v once ∧ ∀ p, p ∈ twice ↔ p ∈ once

variable {L : Bounds} {s : Phys} {free : List Word} {start stop a b c : Word}

/-! ### One call -/

/-- A range with its ends in the wrong order has no page. -/
theorem kinit_reversed (top : start.toNat ≤ 2 ^ 48) (reversed : stop.toNat < start.toNat) :
    kinit L start stop s = .ok s := by
  have base := pgroundup_of_le top
  rw [kinit, pageFuel, forPages]
  refine if_neg fun goes => ?_
  have before := BitVec.lt_def.mp (of_decide_eq_true goes)
  rw [BitVec.toNat_add, pgsize_toNat] at before
  omega

/-- **The pages one call adds** end strictly before `stop`. -/
theorem kinit_adds (inStart : InMemory L start) (inStop : InMemory L stop) (list : FreeList L s free)
    (fresh : ∀ p ∈ free, ¬ WholePage (start, stop) p) :
    ∃ t added, kinit L start stop s = .ok t ∧ FreeList L t (added ++ free) ∧
      ∀ p, p ∈ added ↔ WholePage (start, stop) p ∧ p.toNat + 4096 < stop.toNat := by
  have below := L.below
  by_cases order : start.toNat ≤ stop.toNat
  · have pages : ∀ p, p ∈ kinitPages start stop ↔
        WholePage (start, stop) p ∧ p.toNat + 4096 < stop.toNat := by
      intro p
      rw [mem_kinitPages order (inStop.high.trans below)]
      constructor
      · rintro ⟨aligned, low, high⟩
        exact ⟨⟨aligned, low, high.le⟩, high⟩
      · rintro ⟨page, high⟩
        exact ⟨page.aligned, page.low, high⟩
    obtain ⟨t, done, list', -⟩ := kinit_ok list inStart.low order inStop.high
      fun p member inside => fresh p inside ((pages p).mp member).1
    refine ⟨t, _, done, list', fun p => ?_⟩
    rw [List.mem_reverse, pages]
  · have reversed := Nat.lt_of_not_le order
    refine ⟨s, [], kinit_reversed (inStart.high.trans below) reversed, list, fun p => ?_⟩
    refine iff_of_false List.not_mem_nil fun ⟨page, high⟩ => ?_
    have low := page.low
    omega

/-- The page that ends where the range does. -/
theorem lastPage_toNat (inside : InMemory L stop) :
    (stop - pgsize).toNat + 4096 = stop.toNat := by
  have positive : kstart.toNat ≤ L.kend.toNat := L.above
  have start : kstart.toNat = 1048576 := rfl
  have low := inside.low
  have size : pgsize.toNat = 4096 := rfl
  rw [BitVec.toNat_sub_of_le (BitVec.le_def.mpr (by omega)), size]
  omega

theorem wholePage_last {p : Word} (inside : InMemory L stop) (page : WholePage (start, stop) p)
    (last : p.toNat + 4096 = stop.toNat) : WholePage (start, stop) (stop - pgsize) := by
  have same : p = stop - pgsize := by
    apply BitVec.eq_of_toNat_eq
    have := lastPage_toNat inside
    omega
  rwa [← same]

/-! ### When the whole range is handed over -/

theorem handsOver_iff (inStart : InMemory L start) (inStop : InMemory L stop) :
    HandsOver L start stop ↔ ¬ WholePage (start, stop) (stop - pgsize) := by
  constructor
  · intro hands last
    have list : FreeList L ⟨fun _ => 0, 0⟩ [] := freeList_nil rfl
    obtain ⟨t, added, done, list₁, all⟩ := hands _ [] list (List.forall_mem_nil _)
    obtain ⟨t', added', done', list₂, strict⟩ :=
      kinit_adds inStart inStop list (List.forall_mem_nil _)
    rw [done] at done'
    cases done'
    have same := list₁.spine.unique list₂.spine
    rw [List.append_nil, List.append_nil] at same
    have high := ((strict _).mp (same ▸ (all _).mpr last)).2
    have ends := lastPage_toNat inStop
    omega
  · intro noLast s free list fresh
    obtain ⟨t, added, done, list', strict⟩ := kinit_adds inStart inStop list fresh
    refine ⟨t, added, done, list', fun p => (strict p).trans ⟨And.left, fun page => ⟨page, ?_⟩⟩⟩
    refine lt_of_le_of_ne page.high fun last => noLast (wholePage_last inStop page last)

section Split

variable (inA : InMemory L a) (inB : InMemory L b) (inC : InMemory L c) (first : a ≤ b)
  (second : b ≤ c)

include inA inB inC first second

/-- What the two calls and the one call leave. -/
theorem kinit_twice (list : FreeList L s free) (fresh : ∀ p ∈ free, ¬ WholePage (a, c) p) :
    ∃ t u v twice once, kinit L a b s = .ok t ∧ kinit L b c t = .ok u ∧ FreeList L u twice ∧
      kinit L a c s = .ok v ∧ FreeList L v once ∧
      (∀ p, p ∈ twice ↔ (WholePage (b, c) p ∧ p.toNat + 4096 < c.toNat) ∨
        (WholePage (a, b) p ∧ p.toNat + 4096 < b.toNat) ∨ p ∈ free) ∧
      ∀ p, p ∈ once ↔ (WholePage (a, c) p ∧ p.toNat + 4096 < c.toNat) ∨ p ∈ free := by
  have first := BitVec.le_def.mp first
  have second := BitVec.le_def.mp second
  obtain ⟨t, added₁, done₁, list₁, pages₁⟩ := kinit_adds inA inB list fun p member page =>
    fresh p member ⟨page.aligned, page.low, page.high.trans second⟩
  obtain ⟨u, added₂, done₂, list₂, pages₂⟩ := kinit_adds inB inC list₁ fun p member page => by
    rcases List.mem_append.mp member with new | old
    · have early := ((pages₁ p).mp new).2
      have late := page.low
      omega
    · exact fresh p old ⟨page.aligned, first.trans page.low, page.high⟩
  obtain ⟨v, added₃, done₃, list₃, pages₃⟩ := kinit_adds inA inC list fresh
  refine ⟨t, u, v, _, _, done₁, done₂, list₂, done₃, list₃, fun p => ?_, fun p => ?_⟩
  · rw [List.mem_append, List.mem_append, pages₂, pages₁]
  · rw [List.mem_append, pages₃]

/-- The page that ends at the common bound is freed by the one call and by neither of the two. -/
theorem not_splitsAt (last : WholePage (a, b) (b - pgsize)) (more : b < c) : ¬ SplitsAt L a b c := by
  intro splits
  have list : FreeList L ⟨fun _ => 0, 0⟩ [] := freeList_nil rfl
  obtain ⟨t, u, v, twice, once, done₁, done₂, list₁, done₃, list₂, same⟩ :=
    splits _ [] list (List.forall_mem_nil _)
  obtain ⟨t', u', v', twice', once', done₁', done₂', list₁', done₃', list₂', pages₁, pages₂⟩ :=
    kinit_twice inA inB inC first second list (List.forall_mem_nil _)
  cases done₁.symm.trans done₁'
  cases done₂.symm.trans done₂'
  cases done₃.symm.trans done₃'
  rw [← list₁.spine.unique list₁'.spine] at pages₁
  rw [← list₂.spine.unique list₂'.spine] at pages₂
  have ends := lastPage_toNat inB
  have more := BitVec.lt_def.mp more
  have below : (b - pgsize).toNat + 4096 < c.toNat := by omega
  have freed : b - pgsize ∈ once :=
    (pages₂ _).mpr (.inl ⟨⟨last.aligned, last.low, below.le⟩, below⟩)
  rcases (pages₁ _).mp ((same _).mpr freed) with ⟨page, -⟩ | ⟨-, early⟩ | old
  · have low := page.low
    omega
  · omega
  · exact absurd old List.not_mem_nil

omit inA inC in
/-- Otherwise the pages of the two ranges are those of the one. -/
theorem pages_split (aligned : PageAligned b) (noLast : ¬ (WholePage (a, b) (b - pgsize) ∧ b < c))
    (p : Word) : (WholePage (b, c) p ∧ p.toNat + 4096 < c.toNat) ∨
        (WholePage (a, b) p ∧ p.toNat + 4096 < b.toNat) ↔
      WholePage (a, c) p ∧ p.toNat + 4096 < c.toNat := by
  have first := BitVec.le_def.mp first
  have second := BitVec.le_def.mp second
  constructor
  · rintro (⟨page, high⟩ | ⟨page, high⟩)
    · exact ⟨⟨page.aligned, first.trans page.low, page.high⟩, high⟩
    · exact ⟨⟨page.aligned, page.low, page.high.trans second⟩, by omega⟩
  · rintro ⟨page, high⟩
    by_cases late : b.toNat ≤ p.toNat
    · exact .inl ⟨⟨page.aligned, late, page.high⟩, high⟩
    · have alignedP := page.aligned
      unfold PageAligned at alignedP aligned
      have early : p.toNat + 4096 ≤ b.toNat := by omega
      have inside : WholePage (a, b) p := ⟨page.aligned, page.low, early⟩
      refine .inr ⟨inside, lt_of_le_of_ne inside.high fun last => noLast ?_⟩
      exact ⟨wholePage_last inB inside last, BitVec.lt_def.mpr (by omega)⟩

theorem splitsAt_iff (aligned : PageAligned b) :
    SplitsAt L a b c ↔ ¬ (WholePage (a, b) (b - pgsize) ∧ b < c) := by
  constructor
  · exact fun splits ⟨last, more⟩ => not_splitsAt inA inB inC first second last more splits
  · intro noLast s free list fresh
    obtain ⟨t, u, v, twice, once, done₁, done₂, list₁, done₃, list₂, pages₁, pages₂⟩ :=
      kinit_twice inA inB inC first second list fresh
    refine ⟨t, u, v, twice, once, done₁, done₂, list₁, done₃, list₂, fun p => ?_⟩
    rw [pages₁, pages₂, ← or_assoc, pages_split inB first second aligned noLast]

end Split

/-- **When `kinit` hands over the whole pages of its range**: exactly when no page of the range ends at
`stop`. Two calls on adjacent ranges free the same as one exactly when no page of the first ends at the
common bound, or the second is empty. -/
theorem kinit_whole_iff (L : Bounds) :
    (∀ start stop, InMemory L start → InMemory L stop →
      (HandsOver L start stop ↔ ¬ WholePage (start, stop) (stop - pgsize))) ∧
    ∀ a b c, InMemory L a → InMemory L b → InMemory L c → a ≤ b → b ≤ c → PageAligned b →
      (SplitsAt L a b c ↔ ¬ (WholePage (a, b) (b - pgsize) ∧ b < c)) :=
  ⟨fun _ _ => handsOver_iff, fun _ _ _ inA inB inC first second =>
    splitsAt_iff inA inB inC first second⟩

/-- A range that ends inside a page, and a bound inside the first page. -/
theorem kinit_whole_interior : HandsOver demoLayout 0x200000 0x202800 ∧
    SplitsAt demoLayout 0x200800 0x201000 0x203000 :=
  ⟨((kinit_whole_iff demoLayout).1 0x200000 0x202800 (by decide) (by decide)).mpr (by decide),
    ((kinit_whole_iff demoLayout).2 0x200800 0x201000 0x203000 (by decide) (by decide) (by decide)
      (by decide) (by decide) (by decide)).mpr (by decide)⟩

/-- **`kinit(0x200000, 0x202000)` leaves the page `0x201000` behind**, and so do two calls with the
bound `0x202000` where one call frees it. -/
theorem kinit_leaves_last :
    (∃ t, kinit demoLayout 0x200000 0x202000 ⟨fun _ => 0, 0⟩ = .ok t ∧
      FreeList demoLayout t [0x200000] ∧ WholePage (0x200000, 0x202000) 0x201000) ∧
    ¬ HandsOver demoLayout 0x200000 0x202000 ∧ ¬ SplitsAt demoLayout 0x200000 0x202000 0x203000 := by
  refine ⟨?_, fun hands => ?_, fun splits => ?_⟩
  · have list : FreeList demoLayout ⟨fun _ => 0, 0⟩ [] := freeList_nil rfl
    have low : demoLayout.kend.toNat ≤ (0x200000 : Word).toNat := by decide
    have order : (0x200000 : Word).toNat ≤ (0x202000 : Word).toNat := by decide
    obtain ⟨t, done, list', -⟩ := kinit_ok list low order (by decide) fun _ _ => List.not_mem_nil
    exact ⟨t, done, list', by decide⟩
  · exact (handsOver_iff (by decide) (by decide)).mp hands (by decide)
  · exact (splitsAt_iff (by decide) (by decide) (by decide) (by decide) (by decide) (by decide)).mp
      splits (by decide)

end ShipOS

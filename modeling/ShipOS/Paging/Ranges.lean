/-
**Ranges of pages.**

The loops of `unmap_pages` and `map_pages` run over the pages from `PGROUNDDOWN(va)` up to
`PGROUNDUP(va + size)`, and always return (`forPages_rounds`).

* `unmapLoop_spec` — the unmapping loop clears exactly its pages;
* `mapPages_spec` — `map_pages` returns 0 with every page of the range set, or meets a page that
  `map_page` refuses, clears the pages before it and returns -1;
* `mapPagesLoop_grown`, `mapRegion_grown` — whatever the result, the tree has only grown.
-/

import ShipOS.Paging.Frame

namespace ShipOS

open ByteMem PathTree KeyRange

/-! ### The pages of a range -/

/-- The number of rounds of a loop from `start` to `stop`. -/
def rounds (start stop : Word) : Nat := (stop.toNat - start.toNat) / 4096

theorem pgrounddown_aligned (x : Word) : PageAligned (pgrounddown x) := by
  rw [PageAligned, pgrounddown_toNat]
  exact Nat.mul_mod_left _ _

theorem pgroundup_aligned (x : Word) : PageAligned (pgroundup x) := by
  rw [PageAligned, pgroundup_toNat]
  exact Nat.mul_mod_left _ _

theorem rounds_lt (start stop : Word) : rounds start stop < pageFuel := by
  have := stop.isLt
  unfold rounds pageFuel
  omega

section Rounds

variable {start stop : Word}

/-- The addresses of a loop do not wrap. -/
theorem pageAt_exact {i : Nat} (within : i < rounds start stop) :
    (pageAt start i).toNat = start.toNat + 4096 * i := by
  have := stop.isLt
  unfold rounds at within
  rw [pageAt_toNat]
  omega

theorem pageAt_lt {i : Nat} (within : i < rounds start stop) : pageAt start i < stop := by
  rw [BitVec.lt_def, pageAt_exact within]
  unfold rounds at within
  omega

variable (alignedStart : PageAligned start) (alignedStop : PageAligned stop)

include alignedStart alignedStop

theorem pageAt_rounds : ¬ pageAt start (rounds start stop) < stop := by
  have := stop.isLt
  have := start.isLt
  unfold PageAligned at alignedStart alignedStop
  rw [BitVec.lt_def, pageAt_toNat, rounds]
  omega

/-- **A loop between page addresses returns**, after one round a page. -/
theorem forPages_rounds {S : Type*} (body : Word → S → Except Halt S) (s : S) :
    forPages (fun addr => addr < stop) body pageFuel start s =
      onPages body (rounds start stop) start s := by
  refine forPages_eq _ _ _ _ (rounds_lt start stop) (fun i within => ?_) ?_
  · exact decide_eq_true (pageAt_lt within)
  · exact decide_eq_false (pageAt_rounds alignedStart alignedStop)

end Rounds

variable {L : Bounds} {root : Word} {s s' : Phys} {free free' : List Word}

/-! ### Unmapping a range -/

theorem onPages_unmap (n : Nat) : ∀ (addr : Word) (s : Phys), PageTree L s root free →
    ∃ t, onPages (fun addr s => .ok (unmapPage root addr s)) n addr s = .ok t ∧
      Grown L root s free t free ∧
      mapped t.mem root = fillRange (mapped s.mem root) (vpn addr) n fun _ => none := by
  induction n with
  | zero =>
    intro addr s tree
    exact ⟨s, rfl, Grown.refl tree.toTables, (fillRange_zero _ _ _).symm⟩
  | succ n ih =>
    intro addr s tree
    have first := (unmapPage_framed tree.toTables addr).toGrown
    obtain ⟨t, done, rest, space⟩ := ih (addr + pgsize) (unmapPage root addr s) (tree.grown first)
    refine ⟨t, done, first.trans rest, ?_⟩
    rw [space, unmapPage_mapped tree, vpn_next]
    exact fillRange_succ _ _ _ fun _ => none

/-- **The unmapping loop** clears the pages from `start` to `stop`. -/
theorem unmapLoop_spec {start stop : Word} (alignedStart : PageAligned start)
    (alignedStop : PageAligned stop) (tree : PageTree L s root free) :
    ∃ t, unmapLoop root start stop s = .ok t ∧ Grown L root s free t free ∧
      mapped t.mem root =
        fillRange (mapped s.mem root) (vpn start) (rounds start stop) fun _ => none := by
  rw [unmapLoop, forPages_rounds alignedStart alignedStop]
  exact onPages_unmap _ start s tree

/-! ### Mapping a range -/

/-- The state after `map_page` returned 0 for each of the first `n` pages, if it did. -/
def mapFirst (root : Word) (flags : BitVec 32) : Nat → Word → Word → Phys → Option Phys
  | 0, _, _, s => some s
  | n + 1, addr, paCur, s =>
    let (result, s) := mapPage root addr paCur flags s
    if result = 0 then mapFirst root flags n (addr + pgsize) (paCur + pgsize) s else none

theorem mapFirst_spec (flags : BitVec 32) (n : Nat) : ∀ (addr paCur : Word) (s : Phys)
    (free : List Word) (t : Phys), Tables L s root free →
      mapFirst root flags n addr paCur s = some t →
        ∃ free', Grown L root s free t free' ∧
          mapped t.mem root = fillRange (mapped s.mem root) (vpn addr) n
            fun i => some (frameEntry (vpn paCur + i) flags) := by
  induction n with
  | zero =>
    intro addr paCur s free t tables done
    cases done
    exact ⟨free, Grown.refl tables, (fillRange_zero _ _ _).symm⟩
  | succ n ih =>
    intro addr paCur s free t tables done
    obtain ⟨result, s₁, free₁, call, first, effect⟩ := mapPage_spec tables addr paCur flags
    rw [mapFirst, call] at done
    rcases effect with ⟨rfl, space⟩ | ⟨rfl, -⟩
    · obtain ⟨free', rest, space'⟩ := ih _ _ s₁ free₁ t first.tables done
      refine ⟨free', first.trans rest, ?_⟩
      have shift : ∀ i : Vpn, vpn paCur + 1 + i = vpn paCur + (i + 1) := by
        intro i
        rw [add_assoc, add_comm 1 i]
      rw [space', space, vpn_next, vpn_next, ← fillRange_succ]
      simp only [shift, add_zero]
    · cases done

/-- The pages one after another, the last page apart. -/
theorem mapFirst_succ (flags : BitVec 32) (n : Nat) : ∀ (addr paCur : Word) (s : Phys),
    mapFirst root flags (n + 1) addr paCur s =
      (mapFirst root flags n addr paCur s).bind fun t =>
        let (result, t) := mapPage root (pageAt addr n) (pageAt paCur n) flags t
        if result = 0 then some t else none := by
  induction n with
  | zero =>
    intro addr paCur s
    rw [mapFirst, pageAt_zero, pageAt_zero]
    rfl
  | succ n ih =>
    intro addr paCur s
    rw [mapFirst, mapFirst]
    dsimp only
    split
    · rw [ih, pageAt_succ, pageAt_succ]
    · rfl

/-- `map_page` refuses the `i`-th page of a range, after it accepted the pages before. -/
def RefusesAt (root addr paCur : Word) (flags : BitVec 32) (s : Phys) (i : Nat) : Prop :=
  ∃ t, mapFirst root flags i addr paCur s = some t ∧
    (mapPage root (pageAt addr i) (pageAt paCur i) flags t).1 ≠ 0

/-- **The loop of `map_pages`**: all pages are accepted, or the rollback runs from the first page
that is not. -/
theorem mapPagesLoop_cases (root vaStart vaEnd : Word) (flags : BitVec 32) (n : Nat) :
    ∀ (fuel : Nat) (addr paCur : Word) (s : Phys), n < fuel →
      (∀ i < n, pageAt addr i < vaEnd) → ¬ pageAt addr n < vaEnd →
        (∃ t, mapFirst root flags n addr paCur s = some t ∧
          mapPagesLoop root vaStart vaEnd flags fuel addr paCur s = .ok (0, t)) ∨
        (∃ i < n, ∃ t, mapFirst root flags i addr paCur s = some t ∧
          (mapPage root (pageAt addr i) (pageAt paCur i) flags t).1 ≠ 0 ∧
          mapPagesLoop root vaStart vaEnd flags fuel addr paCur s = do
            let u ← unmapLoop root vaStart (pageAt addr i)
              (mapPage root (pageAt addr i) (pageAt paCur i) flags t).2
            .ok (-1, u)) := by
  induction n with
  | zero =>
    intro fuel addr paCur s enough _ stop
    obtain ⟨fuel, rfl⟩ := Nat.exists_eq_add_one.mpr enough
    rw [pageAt_zero] at stop
    refine .inl ⟨s, rfl, ?_⟩
    rw [mapPagesLoop, if_neg stop]
  | succ n ih =>
    intro fuel addr paCur s enough go stop
    obtain ⟨fuel, rfl⟩ := Nat.exists_eq_add_one.mpr (Nat.zero_lt_of_lt enough)
    have here := go 0 (Nat.succ_pos n)
    rw [pageAt_zero] at here
    rw [mapPagesLoop, if_pos here, mapFirst]
    by_cases accepted : (mapPage root addr paCur flags s).1 = 0
    · have later := ih fuel (addr + pgsize) (paCur + pgsize) (mapPage root addr paCur flags s).2
        (Nat.lt_of_succ_lt_succ enough)
        (fun i within => by rw [← pageAt_succ]; exact go (i + 1) (Nat.succ_lt_succ within))
        (by rw [← pageAt_succ]; exact stop)
      dsimp only
      rw [if_neg (not_not.mpr accepted), if_pos accepted]
      refine later.imp_right ?_
      rintro ⟨i, within, t, first, refused, run⟩
      refine ⟨i + 1, Nat.succ_lt_succ within, t, ?_, ?_, ?_⟩
      · rw [mapFirst]
        dsimp only
        rw [if_pos accepted]
        exact first
      · rw [pageAt_succ, pageAt_succ]
        exact refused
      · rw [pageAt_succ, pageAt_succ]
        exact run
    · refine .inr ⟨0, Nat.succ_pos n, s, rfl, ?_, ?_⟩
      · rw [pageAt_zero, pageAt_zero]
        exact accepted
      · rw [pageAt_zero, pageAt_zero]
        exact if_pos accepted

/-- The pages of `map_pages(va, size)` and `unmap_pages(va, size)`. -/
def rangeRounds (va size : Word) : Nat := rounds (pgrounddown va) (pgroundup (va + size))

/-- **`map_pages`** sets its range and returns 0, or clears the pages before the refused one and
returns -1. -/
theorem mapPages_spec (tree : PageTree L s root free) (va pa size : Word) (flags : BitVec 32) :
    ∃ result t free', mapPages root va pa size flags s = .ok (result, t) ∧
      Grown L root s free t free' ∧
      ((result = 0 ∧ mapped t.mem root = fillRange (mapped s.mem root) (vpn va)
          (rangeRounds va size) fun i => some (frameEntry (vpn pa + i) flags)) ∨
        (result = -1 ∧ ∃ i, RefusesAt root (pgrounddown va) (pgrounddown pa) flags s i ∧
          mapped t.mem root = fillRange (mapped s.mem root) (vpn va) i fun _ => none)) := by
  have alignedStart := pgrounddown_aligned va
  have alignedStop := pgroundup_aligned (va + size)
  rcases mapPagesLoop_cases root (pgrounddown va) (pgroundup (va + size)) flags
    (rangeRounds va size) pageFuel (pgrounddown va) (pgrounddown pa) s (rounds_lt _ _)
    (fun _ within => pageAt_lt within) (pageAt_rounds alignedStart alignedStop)
    with ⟨t, first, run⟩ | ⟨i, within, u, first, refused, run⟩
  · obtain ⟨free', grown, space⟩ := mapFirst_spec flags _ _ _ s free t tree.toTables first
    rw [vpn_pgrounddown, vpn_pgrounddown] at space
    exact ⟨0, t, free', run, grown, .inl ⟨rfl, space⟩⟩
  · obtain ⟨free₁, grown, space⟩ := mapFirst_spec flags _ _ _ s free u tree.toTables first
    obtain ⟨result, u', free₂, call, grown', effect⟩ := mapPage_spec grown.tables
      (pageAt (pgrounddown va) i) (pageAt (pgrounddown pa) i) flags
    have unchanged : mapped u'.mem root = mapped u.mem root := by
      rcases effect with ⟨zero, -⟩ | ⟨-, same⟩
      · rw [call] at refused
        exact absurd zero refused
      · exact same
    have address := pageAt_exact within
    have alignedHere : PageAligned (pageAt (pgrounddown va) i) := by
      unfold PageAligned at alignedStart ⊢
      omega
    have here : rounds (pgrounddown va) (pageAt (pgrounddown va) i) = i := by
      rw [rounds, address]
      omega
    obtain ⟨t, rolled, grown'', space'⟩ := unmapLoop_spec alignedStart alignedHere
      ((tree.grown grown).grown grown')
    refine ⟨-1, t, free₂, ?_, (grown.trans grown').trans grown'',
      .inr ⟨rfl, i, ⟨u, first, refused⟩, ?_⟩⟩
    · rw [mapPages, run, call, rolled]
      rfl
    · rw [space', here, unchanged, space, fillRange_fillRange, vpn_pgrounddown]

/-! ### The tree under any call -/

/-- `Grown` from a fixed first state, as an invariant of a loop. -/
def GrownFrom (L : Bounds) (root : Word) (s : Phys) (free : List Word) (t : Phys) : Prop :=
  ∃ free', Grown L root s free t free'

theorem unmapLoop_grown (tables : Tables L s root free) {start stop : Word} {t : Phys}
    (done : unmapLoop root start stop s = .ok t) : GrownFrom L root s free t :=
  (unmapLoop_framed tables done).imp fun _ framed => framed.toGrown

theorem mapPagesLoop_grown (tables : Tables L s root free) {vaStart vaEnd addr paCur : Word}
    {flags : BitVec 32} {fuel : Nat} {result : Int} {t : Phys}
    (done : mapPagesLoop root vaStart vaEnd flags fuel addr paCur s = .ok (result, t)) :
    GrownFrom L root s free t :=
  (mapPagesLoop_framed _ _ _ _ _ _ s free result t tables done).imp fun _ framed => framed.toGrown

theorem mapRegionPage_grown (tables : Tables L s root free) (pcd : Bool) (addr : Word) :
    GrownFrom L root s free (mapRegionPage root pcd addr s) := by
  obtain ⟨pte, s₁, free', walked, grown, -, outcome⟩ := walk_alloc tables addr
  refine ⟨free', ?_⟩
  rw [mapRegionPage, walked]
  dsimp only
  split
  · exact grown
  · rename_i nonNull
    rcases outcome with ⟨t, reached, address⟩ | ⟨null, -⟩
    · rw [address]
      exact grown.trans (Grown.leaf_store grown.tables (pathOf_length addr) reached _ _)
    · exact absurd null nonNull

/-- The region mappers skip the pages they cannot map, and the tree has only grown. -/
theorem mapRegion_grown (tables : Tables L s root free) {pcd : Bool} {base bound : Word} {t : Phys}
    (done : mapRegion root pcd base bound s = .ok t) : GrownFrom L root s free t := by
  refine forPages_keeps (GrownFrom L root s free) ?_ ⟨free, Grown.refl tables⟩ done
  rintro addr u u' ⟨free', grown⟩ step
  cases step
  obtain ⟨free'', more⟩ := mapRegionPage_grown grown.tables pcd addr
  exact ⟨free'', grown.trans more⟩

end ShipOS

/-
**The rollback of `map_pages`.**

When `map_page` refuses a page of the range, `map_pages` unmaps every page before it and returns -1.
`map_page` accepts a page that is already mapped to the frame asked for, so the rollback also unmaps
pages that were mapped before the call.

* `accepts_iff` — which pages `map_page` accepts: there is a free page for every table that is missing,
  and no page is mapped to another frame;
* `mapPages_restores_iff` — a failed call leaves the address space as it was exactly when none of
  the pages it had got through was mapped before; a failed `map_mmio` is such a call;
* `mapPages_unmaps_neighbour` — a page mapped to the right frame before the call is lost.
-/

import ShipOS.Paging.WalkModes

namespace ShipOS

open ByteMem PathTree KeyRange

/-! ### The pages that are accepted -/

/-- The first pages from `addr` on. -/
def pagesFrom (addr : Word) (n : Nat) : List Word := (List.range n).map (pageAt addr)

/-- What the `j`-th page of a range is mapped to when `map_pages` comes to it. A range that goes round
the address space comes to pages that it has mapped itself. -/
def entryBefore (root va pa : Word) (flags : BitVec 32) (s : Phys) (j : Nat) : Option PageEntry :=
  if j < 2 ^ 36 then mapped s.mem root (vpn va + BitVec.ofNat 36 j)
  else some (frameEntry (vpn pa + BitVec.ofNat 36 j) flags)

/-- The `j`-th page has another frame. -/
def Conflicts (root va pa : Word) (flags : BitVec 32) (s : Phys) (j : Nat) : Prop :=
  ∃ entry, entryBefore root va pa flags s j = some entry ∧ entry.address <<< 12 ≠ pageAt pa j

/-- **`map_page` accepts the first `n` pages**: there are as many free pages as tables are missing, and
none of the pages has another frame. -/
structure Accepts (root va pa : Word) (flags : BitVec 32) (s : Phys) (pages n : Nat) : Prop where
  tables : (missingTables s.mem root (pagesFrom va n)).card ≤ pages
  frames : ∀ j < n, ¬ Conflicts root va pa flags s j

/-- **None of the pages that `map_page` accepts was mapped before.** -/
def FreshUpToRefusal (root va pa : Word) (flags : BitVec 32) (s : Phys) (pages : Nat) : Prop :=
  ∀ i, Accepts root (pgrounddown va) (pgrounddown pa) flags s pages (i + 1) →
    mapped s.mem root (vpn va + BitVec.ofNat 36 i) = none

variable {L : Bounds} {root va pa : Word} {flags : BitVec 32} {s t : Phys} {free free' : List Word}

theorem vpn_pageAt (addr : Word) (i : Nat) : vpn (pageAt addr i) = vpn addr + BitVec.ofNat 36 i := by
  apply BitVec.eq_of_toNat_eq
  rw [vpn_toNat, pageAt_toNat, BitVec.toNat_add, vpn_toNat, BitVec.toNat_ofNat]
  omega

theorem pgrounddown_eq {x : Word} (aligned : PageAligned x) : pgrounddown x = x := by
  apply BitVec.eq_of_toNat_eq
  rw [pgrounddown_toNat]
  unfold PageAligned at aligned
  omega

theorem pageAt_aligned (aligned : PageAligned va) (i : Nat) : PageAligned (pageAt va i) := by
  unfold PageAligned at aligned ⊢
  rw [pageAt_toNat]
  omega

/-- After `j` pages the range has been set so far. -/
theorem entryBefore_eq (root va pa : Word) (flags : BitVec 32) (s : Phys) (j : Nat) :
    fillRange (mapped s.mem root) (vpn va) j (fun i => some (frameEntry (vpn pa + i) flags))
      (vpn va + BitVec.ofNat 36 j) = entryBefore root va pa flags s j := by
  rw [fillRange, entryBefore, add_sub_cancel_left, BitVec.toNat_ofNat]
  by_cases once : j < 2 ^ 36
  · rw [if_pos once, Nat.mod_eq_of_lt once, if_neg (Nat.lt_irrefl j)]
  · rw [if_neg once, if_pos (by omega)]

/-- **`map_page`** refuses a page for its frame, or for a table when the free list is empty. -/
theorem mapPage_grownOn (tree : PageTree L s root free) (va pa : Word) (flags : BitVec 32) :
    ∃ result s' free', mapPage root va pa flags s = (result, s') ∧
      GrownOn L root s free s' free' [pgrounddown va] ∧
      let conflict := ∃ entry, mapped s.mem root (vpn va) = some entry ∧
        entry.address <<< 12 ≠ pgrounddown pa
      (result = 0 ∧ ¬ conflict ∧ tableAt s'.mem root (pathOf (pgrounddown va)) ≠ none ∨
        result ≠ 0 ∧
          (conflict ∨ free' = [] ∧ tableAt s'.mem root (pathOf (pgrounddown va)) = none)) := by
  obtain ⟨pte, s₁, free', walked, grown, leaves, outcome⟩ :=
    walk_grownOn tree.toTables (pgrounddown va)
  rw [mapPage, walked]
  dsimp only
  rcases outcome with ⟨t, reached, rfl⟩ | ⟨rfl, empty, absent⟩
  · have entry : mapped s.mem root (vpn va) =
        present (load64 s₁.mem (slot t (idx (pgrounddown va) 0).val)) := by
      rw [← leaves.mapped, ← vpn_pgrounddown, mapped_vpn, leafAt_some reached]
    have conflict : (∃ entry, mapped s.mem root (vpn va) = some entry ∧
        entry.address <<< 12 ≠ pgrounddown pa) ↔
          (decodePageEntry (load64 s₁.mem (slot t (idx (pgrounddown va) 0).val))).p = true ∧
            (decodePageEntry (load64 s₁.mem (slot t (idx (pgrounddown va) 0).val))).address <<< 12 ≠
              pgrounddown pa := by
      rw [entry, present]
      split
      · next set =>
        constructor
        · rintro ⟨_, same, other⟩
          exact ⟨set, Option.some.inj same ▸ other⟩
        · exact fun both => ⟨_, rfl, both.2⟩
      · next unset =>
        refine iff_of_false ?_ fun both => unset both.1
        rintro ⟨_, impossible, -⟩
        cases impossible
    rw [if_neg ((tree.grown grown.toGrown).leaf_ne_zero reached)]
    split
    · next refused =>
      exact ⟨-1, s₁, free', rfl, grown, .inr ⟨by decide, .inl (conflict.mpr refused)⟩⟩
    · next accepted =>
      refine ⟨0, _, free', rfl, grown.leaf_store (pathOf_length _) reached _ _,
        .inl ⟨rfl, fun other => accepted (conflict.mp other), ?_⟩⟩
      rw [grown.tables.leaf_store_tableAt (pathOf_length _) reached _ _ _ (pathOf_length _).le, reached]
      exact Option.some_ne_none t
  · exact ⟨-1, s₁, free', rfl, grown, .inr ⟨by decide, .inr ⟨empty, absent⟩⟩⟩

/-- Where the tables of all addresses are there now, those that were missing came from the free list. -/
theorem Grown.missing_le {all : List Word} (tables : Tables L s root free)
    (grown : Grown L root s free t free')
    (reached : ∀ va ∈ all, tableAt t.mem root (pathOf va) ≠ none) :
    (missingTables s.mem root all).card ≤ free.length := by
  have found : ∀ q ∈ missingTables s.mem root all, q.length ≤ 3 ∧
      ∃ a ∈ free, tableAt t.mem root q = some a := by
    intro q missing
    obtain ⟨⟨va, member, rest, path⟩, absent⟩ := mem_missingTables.mp missing
    have within : q.length ≤ 3 := by
      rw [← pathOf_length va, ← path, List.length_append]
      exact Nat.le_add_right _ _
    have there := reached va member
    rw [← path, tableAt, follow_append] at there
    obtain ⟨a, here, -⟩ := Option.bind_eq_some_iff.mp (Option.ne_none_iff_exists'.mp there).choose_spec
    refine ⟨within, a, (grown.new q a within here).resolve_left fun old => ?_, here⟩
    rw [absent] at old
    cases old
  rw [← List.toFinset_card_of_nodup tables.list.nodup]
  refine Finset.card_le_card_of_injOn (fun q => (tableAt t.mem root q).getD 0) ?_ ?_
  · intro q missing
    obtain ⟨-, a, inFree, here⟩ := found q missing
    simpa [here] using inFree
  · intro q missing q' missing' same
    obtain ⟨within, a, -, here⟩ := found q missing
    obtain ⟨within', b, -, there⟩ := found q' missing'
    obtain rfl : a = b := by simpa [here, there] using same
    exact grown.tables.unique q q' a within within' here there

theorem missingTables_mono {mem : Mem} {vas all : List Word} (within : vas ⊆ all) :
    missingTables mem root vas ⊆ missingTables mem root all := by
  intro q missing
  obtain ⟨⟨va, member, onPath⟩, absent⟩ := mem_missingTables.mp missing
  exact mem_missingTables.mpr ⟨⟨va, within member, onPath⟩, absent⟩

theorem pagesFrom_succ (addr : Word) (n : Nat) :
    pagesFrom addr (n + 1) = pagesFrom addr n ++ [pageAt addr n] := by
  rw [pagesFrom, List.range_succ, List.map_append]
  rfl

theorem Accepts.before {count n : Nat} (more : Accepts root va pa flags s count (n + 1)) :
    Accepts root va pa flags s count n := by
  have fewer : pagesFrom va n ⊆ pagesFrom va (n + 1) := by
    rw [pagesFrom_succ]
    exact List.subset_append_left _ _
  exact ⟨(Finset.card_le_card (missingTables_mono fewer)).trans more.tables,
    fun j early => more.frames j (Nat.lt_succ_of_lt early)⟩

/-- Tables that are there stay. -/
theorem Grown.reached {all : List Word} (grown : Grown L root s free t free')
    (reached : ∀ a ∈ all, tableAt s.mem root (pathOf a) ≠ none) :
    ∀ a ∈ all, tableAt t.mem root (pathOf a) ≠ none := by
  intro a member
  obtain ⟨x, found⟩ := Option.ne_none_iff_exists'.mp (reached a member)
  rw [grown.kept _ x (pathOf_length a).le found]
  exact Option.some_ne_none x

/-- **Which pages `map_page` accepts.** When it has accepted `n` of them their tables are there. -/
theorem accepts_iff (tree : PageTree L s root free) (alignedVa : PageAligned va)
    (alignedPa : PageAligned pa) (flags : BitVec 32) (n : Nat) :
    ((mapFirst root flags n va pa s).isSome ↔ Accepts root va pa flags s free.length n) ∧
      ∀ t, mapFirst root flags n va pa s = some t →
        ∃ free', GrownOn L root s free t free' (pagesFrom va n) ∧
          ∀ a ∈ pagesFrom va n, tableAt t.mem root (pathOf a) ≠ none := by
  induction n with
  | zero =>
    refine ⟨iff_of_true rfl ⟨Nat.zero_le _, nofun⟩, fun t done => ?_⟩
    cases done
    exact ⟨free, GrownOn.refl tree.toTables, nofun⟩
  | succ n ih =>
    obtain ⟨accepted, before⟩ := ih
    rw [mapFirst_succ]
    cases first : mapFirst root flags n va pa s with
    | none =>
      refine ⟨iff_of_false nofun fun more => ?_, nofun⟩
      have done := accepted.mpr more.before
      rw [first] at done
      cases done
    | some t =>
      obtain ⟨free', grown, reached⟩ := before t first
      obtain ⟨-, -, space⟩ := mapFirst_spec flags n va pa s free t tree.toTables first
      obtain ⟨result, t', free'', call, more, outcome⟩ :=
        mapPage_grownOn (tree.grown grown.toGrown) (pageAt va n) (pageAt pa n) flags
      rw [pgrounddown_eq (pageAt_aligned alignedVa n), pgrounddown_eq (pageAt_aligned alignedPa n),
        space, vpn_pageAt, entryBefore_eq] at outcome
      rw [pgrounddown_eq (pageAt_aligned alignedVa n)] at more
      have both := grown.trans more
      rw [← pagesFrom_succ] at both
      rw [Option.bind_some, call]
      dsimp only
      rcases outcome with ⟨rfl, clear, there⟩ | ⟨refused, why⟩
      · have all : ∀ a ∈ pagesFrom va (n + 1), tableAt t'.mem root (pathOf a) ≠ none := by
          rw [pagesFrom_succ, List.forall_mem_append, List.forall_mem_singleton]
          exact ⟨more.toGrown.reached reached, there⟩
        rw [if_pos rfl]
        refine ⟨iff_of_true rfl ⟨both.toGrown.missing_le tree.toTables all, fun j within => ?_⟩,
          fun u done => ?_⟩
        · rcases Nat.lt_succ_iff_lt_or_eq.mp within with early | rfl
          · exact (accepted.mp (by rw [first]; rfl)).frames j early
          · exact clear
        · cases done
          exact ⟨free'', both, all⟩
      · rw [if_neg refused]
        refine ⟨iff_of_false nofun fun accepts => ?_, nofun⟩
        rcases why with conflict | ⟨rfl, absent⟩
        · exact accepts.frames n (Nat.lt_succ_self n) conflict
        · have last : pageAt va n ∈ pagesFrom va (n + 1) := by
            rw [pagesFrom_succ]
            exact List.mem_append_right _ (List.mem_singleton_self _)
          have short := both.exhausted tree.toTables (List.Subset.refl _) last absent
          exact absurd accepts.tables (Nat.not_le.mpr short)

/-- The pages accepted before the refused one are those before it. -/
theorem RefusesAt.accepted_iff {i : Nat} (refused : RefusesAt root va pa flags s i) (k : Nat) :
    (mapFirst root flags (k + 1) va pa s).isSome ↔ k < i := by
  obtain ⟨u, first, no⟩ := refused
  have stop : mapFirst root flags (i + 1) va pa s = none := by
    rw [mapFirst_succ, first, Option.bind_some]
    exact if_neg no
  have down : ∀ n m, n ≤ m → (mapFirst root flags m va pa s).isSome →
      (mapFirst root flags n va pa s).isSome := by
    intro n m le
    induction le with
    | refl => exact id
    | step _ ih =>
      intro later
      rw [mapFirst_succ] at later
      exact ih (Option.isSome_of_isSome_bind later)
  constructor
  · intro accepted
    by_contra late
    have reached := down (i + 1) (k + 1) (by omega) accepted
    rw [stop] at reached
    cases reached
  · intro early
    exact down (k + 1) i early (by rw [first]; rfl)

/-! ### The rollback -/

/-- The pages at the offsets below `i` are the first `i` pages. -/
theorem forall_offset_iff (base : Vpn) (i : Nat) (P : Vpn → Prop) :
    (∀ v, (v - base).toNat < i → P v) ↔ ∀ k < i, P (base + BitVec.ofNat 36 k) := by
  constructor
  · intro all k early
    refine all _ ?_
    rw [add_sub_cancel_left, BitVec.toNat_ofNat]
    exact Nat.lt_of_le_of_lt (Nat.mod_le _ _) early
  · intro all v inside
    have here := all _ inside
    rwa [BitVec.ofNat_toNat, BitVec.setWidth_eq, add_sub_cancel] at here

/-- **When a failed `map_pages` restores the address space.** -/
theorem mapPages_restores_iff (tree : PageTree L s root free) :
    (∀ va pa size flags t, mapPages root va pa size flags s = .ok (-1, t) →
      ((∀ v, mapped t.mem root v = mapped s.mem root v) ↔
        FreshUpToRefusal root va pa flags s free.length)) ∧
    ∀ pa size t, mapPages root (pgrounddown pa) (pgrounddown pa) (size + (pa - pgrounddown pa))
      (pteW ||| ptePcd) s = .ok (-1, t) → mapMmio root pa size s = .ok (0, t) := by
  refine ⟨fun va pa size flags t failed => ?_, fun pa size t failed => ?_⟩
  · obtain ⟨result, t', -, run, -, effect⟩ := mapPages_spec tree va pa size flags
    rw [run] at failed
    cases failed
    rcases effect with ⟨zero, -⟩ | ⟨-, i, refused, cleared⟩
    · cases zero
    · rw [← funext_iff, cleared, fillRange_const_eq_iff, forall_offset_iff]
      refine forall_congr' fun k => ?_
      rw [← refused.accepted_iff, (accepts_iff tree (pgrounddown_aligned va) (pgrounddown_aligned pa)
        flags (k + 1)).1]
  · rw [mapMmio, failed]
    rfl

/-- A range over two leaf tables with three free pages: the fourth table is missing, and the address
space is empty again. -/
theorem mapPages_restores_exhausted :
    ∃ t, mapPages demoRoot 0x1FF000 0x5000 0x2000 pteW demoPhys = .ok (-1, t) ∧
      ∀ v, mapped t.mem demoRoot v = mapped demoPhys.mem demoRoot v := by
  have first : (mapPages demoRoot 0x1FF000 0x5000 0x2000 pteW demoPhys).map Prod.fst = .ok (-1) := by
    decide +kernel
  obtain ⟨result, t, -, failed, -⟩ := mapPages_spec demoPhys_tree 0x1FF000 0x5000 0x2000 pteW
  rw [failed] at first
  cases first
  refine ⟨t, failed, ((mapPages_restores_iff demoPhys_tree).1 _ _ _ _ t failed).mpr ?_⟩
  intro i _
  have absent : ∀ addr, tableAt demoPhys.mem demoRoot (pathOf addr) = none := by
    intro addr
    rw [tableAt, pathOf, suffix, follow_cons, demoPhys_empty]
    rfl
  rw [← vpn_pageAt, mapped_vpn, leafAt_none (absent _), present_none decode_zero]

/-- The pages `0x1000` and `0x2000`, mapped to the frames of `0x5000` and `0x9000`. -/
def demoMapped : Phys :=
  (mapPage demoRoot 0x2000 0x9000 pteW (mapPage demoRoot 0x1000 0x5000 pteW demoPhys).2).2

theorem demoMapped_tree : ∃ free, PageTree demoLayout demoMapped demoRoot free := by
  obtain ⟨_, s₁, free₁, first, grown₁, -⟩ := mapPage_spec demoPhys_tree.toTables 0x1000 0x5000 pteW
  obtain ⟨_, s₂, free₂, second, grown₂, -⟩ := mapPage_spec grown₁.tables 0x2000 0x9000 pteW
  rw [demoMapped, first, second]
  exact ⟨free₂, (demoPhys_tree.grown grown₁).grown grown₂⟩

/-- **A failed `map_pages` unmaps a page that was mapped before it.** The page `0x1000` has the frame
asked for, `0x2000` has another one: the call returns -1 and `0x1000` no longer translates. -/
theorem mapPages_unmaps_neighbour :
    (∃ free, PageTree demoLayout demoMapped demoRoot free) ∧
      ∃ t, mapPages demoRoot 0x1000 0x5000 0x2000 pteW demoMapped = .ok (-1, t) ∧
        vaToPa demoRoot 0x1000 demoMapped = 0x5000 ∧ vaToPa demoRoot 0x1000 t = 0 := by
  obtain ⟨free, tree⟩ := demoMapped_tree
  have outcome : (mapPages demoRoot 0x1000 0x5000 0x2000 pteW demoMapped).map
      (fun o => (o.1, vaToPa demoRoot 0x1000 o.2)) = .ok (-1, 0) := by decide +kernel
  obtain ⟨result, t, -, run, -⟩ := mapPages_spec tree 0x1000 0x5000 0x2000 pteW
  rw [run] at outcome ⊢
  obtain ⟨rfl, gone⟩ := Prod.mk.inj (Except.ok.inj outcome)
  exact ⟨⟨free, tree⟩, t, rfl, by decide +kernel, gone⟩

end ShipOS

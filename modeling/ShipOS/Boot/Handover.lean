/-
**Handing memory over at boot (`kernel_main`).**

`kinit(KEND, INIT_PHYSTOP)` frees the pages that the boot tables map, `kvminit` maps the pages above
with tables taken from them, and `kinit(INIT_PHYSTOP, PHYSTOP)` frees those. Freeing a page clears
it, so a page must be mapped, and be no page table, when its turn comes.

* `handoverFrees` — the calls of `kfree`, each with the memory it finds;
* `kvminit_spec` — `kvminit` maps exactly the pages that the second `kinit` frees;
* `handover_safe` — every page that `kfree` accepts is mapped to itself, writable and no table at
  that moment, and the mappings below `INIT_PHYSTOP` are never changed.
-/

import ShipOS.Paging.Permissions

namespace ShipOS

open ByteMem PathTree KeyRange

/-! ### The sequence -/

/-- The three calls of `kernel_main`. -/
def handover (L : Bounds) (cr3 init : Word) (s : Phys) : Except Halt Phys := do
  let s ← kinit L L.kend init s
  let (_, s) ← kvminit cr3 init L.phystop s
  kinit L init L.phystop s

/-- The calls of `kfree` in `kinit`. -/
def kinitFrees (L : Bounds) (start stop : Word) (s : Phys) : List (Word × Phys) :=
  forPagesCalls (fun p => p + pgsize < stop) (fun p s => kfree L p s) pageFuel (pgroundup start) s

/-- **The calls of `kfree`** in the three calls, each with the memory it finds. -/
def handoverFrees (L : Bounds) (cr3 init : Word) (s : Phys) : List (Word × Phys) :=
  kinitFrees L L.kend init s ++
    match kinit L L.kend init s with
    | .error _ => []
    | .ok s => match kvminit cr3 init L.phystop s with
      | .error _ => []
      | .ok (_, s) => kinitFrees L init L.phystop s

variable {L : Bounds} {root init : Word} {s t u : Phys} {free : List Word}

/-! ### Freeing pages that are no tables -/

/-- `va_to_pa` reads the entries on the path. -/
theorem SameEntries.vaToPa (same : SameEntries root s.mem t.mem) (va : Word) :
    vaToPa root va t = vaToPa root va s := by
  rw [ShipOS.vaToPa, ShipOS.vaToPa, walk_lookup, walk_lookup, same.tableAt (pathOf_length va).le]
  cases found : ShipOS.tableAt s.mem root (pathOf va) with
  | none =>
    dsimp only [leafAddr]
    rw [if_pos rfl, if_pos rfl]
  | some a =>
    dsimp only [leafAddr]
    rw [same _ a (idx va 0) (pathOf_length va).le found]

/-- **A `kinit` that frees no table** leaves the entries alone, at every call of `kfree` and at the
end. -/
theorem kinit_sameEntries (start stop : Word) (aligned : PageAligned root)
    (noTable : ∀ i, Visited (fun p => p + pgsize < stop) (pgroundup start) i →
      IsPage L (pageAt (pgroundup start) i) → ∀ q : List (Fin 512), q.length ≤ 3 →
        tableAt s.mem root q ≠ some (pageAt (pgroundup start) i)) :
    (∀ a u, (a, u) ∈ kinitFrees L start stop s → SameEntries root s.mem u.mem ∧
      ∃ i, a = pageAt (pgroundup start) i ∧
        Visited (fun p => p + pgsize < stop) (pgroundup start) i) ∧
    ∀ t, kinit L start stop s = .ok t → SameEntries root s.mem t.mem := by
  refine forPages_invariant (fun u : Phys => SameEntries root s.mem u.mem) pageFuel _ s ?_
    (SameEntries.refl root s.mem)
  intro i u u' visited same freed
  obtain ⟨page, only⟩ := kfree_returns freed
  refine same.trans (sameEntries_of_onlyPage aligned page.aligned ?_ only)
  intro q within
  rw [same.tableAt within]
  exact noTable i visited page q within

/-! ### The first region -/

/-- The pages that the first `kinit` gives to the free list. -/
def firstPages (L : Bounds) (init : Word) : List Word :=
  if L.kend ≤ init then kinitPages L.kend init else []

theorem mem_firstPages (top : init.toNat ≤ 2 ^ 48) {p : Word} (member : p ∈ firstPages L init) :
    p.toNat + 4096 < init.toNat := by
  rw [firstPages] at member
  split at member
  · rename_i order
    exact ((mem_kinitPages (BitVec.le_def.mp order) top).mp member).2.2
  · cases member

/-- **The first `kinit`.** -/
theorem kinit_first (empty : s.freelist = 0) (top : init.toNat ≤ L.phystop.toNat) :
    (L.kend ≤ init → ∃ t, kinit L L.kend init s = .ok t) ∧
      ∀ t, kinit L L.kend init s = .ok t → FreeList L t (firstPages L init).reverse := by
  have list : FreeList L s [] := freeList_nil empty
  by_cases order : L.kend ≤ init
  · obtain ⟨t, done, listEnd, -⟩ := kinit_ok list le_rfl (BitVec.le_def.mp order) top
      fun _ _ => List.not_mem_nil
    rw [List.append_nil] at listEnd
    refine ⟨fun _ => ⟨t, done⟩, fun t' done' => ?_⟩
    rw [done] at done'
    cases done'
    rwa [firstPages, if_pos order]
  · refine ⟨fun le => absurd le order, fun t done => ?_⟩
    -- A page of the loop would be below `end`, where `kfree` panics.
    rw [kinit, pageFuel, forPages] at done
    split at done
    · rename_i go
      obtain ⟨mid, freed, -⟩ := bind_ok done
      have page := (kfree_returns freed).1
      have low := page.low
      have high := page.high
      have below := L.below
      have above : init.toNat < L.kend.toNat := BitVec.lt_def.mp (BitVec.not_le.mp order)
      have before := BitVec.lt_def.mp (of_decide_eq_true go)
      rw [BitVec.toNat_add, pgsize_toNat] at before
      omega
    · cases done
      rw [firstPages, if_neg order]
      exact list

/-! ### The tables for the second region -/

theorem kvminit_identity (root : Word) : MapsIdentity root false (kvminitPage root) := by
  intro addr s pte t walked found
  rw [kvminitPage, walked]
  exact if_neg found

/-- **`kvminit`** maps the pages of `kinitPages` to themselves, with pages enough for its tables. -/
theorem kvminit_spec (tree : PageTree L s root free) {start stop : Word}
    (order : start.toNat ≤ stop.toNat) (top : stop.toNat ≤ 2 ^ 48)
    (enough : (missingTables s.mem root (kinitPages start stop)).card ≤ free.length) :
    ∃ t free', kvminit root start stop s = .ok (root, t) ∧ Grown L root s free t free' ∧
      mapped t.mem root = fillRange (mapped s.mem root) (vpn (pgroundup start))
        ((stop.toNat - (pgroundup start).toNat - 1) / 4096)
        fun i => some (frameEntry (vpn (pgroundup start) + i) (identityFlags false)) := by
  obtain ⟨t, free', vas, run, grown, -, space⟩ := onPages_identity (kvminit_identity root) tree enough
    _ (pgroundup start) s free [] (GrownOn.refl tree.toTables) (List.nil_subset _)
    (fun i early => List.mem_map_of_mem (List.mem_range.mpr early))
  refine ⟨t, free', ?_, grown.toGrown, space⟩
  rw [kvminit, forPages_kinitPages _ order top, run]
  rfl

theorem missingTables_congr {mem mem' : Mem} (same : SameEntries root mem mem') (vas : List Word) :
    missingTables mem' root vas = missingTables mem root vas := by
  ext q
  rw [mem_missingTables, mem_missingTables]
  refine and_congr_right fun ⟨va, _, onPath⟩ => ?_
  have within := onPath.length_le
  rw [pathOf_length] at within
  rw [same.tableAt within]

/-! ### The hand-over -/

section Handover

variable (boot : BootTables L s.mem root init) (empty : s.freelist = 0)
  (order : init.toNat < L.phystop.toNat)
  (enough : (missingTables s.mem root (kinitPages init L.phystop)).card ≤
    (firstPages L init).length)

include boot

/-- A page below `INIT_PHYSTOP` is mapped to itself and writable. -/
theorem boot_mapped (empty : s.freelist = 0) {p : Word} (low : p.toNat < init.toNat) :
    vaToPa root p s = p ∧ effectiveRw s.mem root p = true := by
  have tree := boot.pageTree (freeList_nil empty)
  obtain ⟨entry, found, frame, writable⟩ := boot.identity p low
  have itself : SelfMapped root (fun _ => True) s p :=
    (selfMapped_iff tree).mpr ⟨entry, found, frame, trivial⟩
  refine ⟨itself.1, ?_⟩
  rw [(effective_of_mapped boot.upper found).1]
  exact writable

/-- What holds at a call of `kfree` that is accepted. -/
def FreesSafely (L : Bounds) (root p : Word) (u : Phys) : Prop :=
  ∀ u', kfree L p u = .ok u' → vaToPa root p u = p ∧ effectiveRw u.mem root p = true ∧
    ∀ q : List (Fin 512), q.length ≤ 3 → tableAt u.mem root q ≠ some p

omit boot in
/-- A call at which the entries are still those of `s`. -/
theorem freesSafely_of_same {u : Phys} {p : Word} (same : SameEntries root s.mem u.mem)
    (accepted : IsPage L p → (vaToPa root p s = p ∧ effectiveRw s.mem root p = true) ∧
      ∀ q : List (Fin 512), q.length ≤ 3 → tableAt s.mem root q ≠ some p) :
    FreesSafely L root p u := by
  intro u' freed
  obtain ⟨⟨itself, writable⟩, noTable⟩ := accepted (kfree_returns freed).1
  refine ⟨(same.vaToPa _).trans itself, ?_, fun q within => ?_⟩
  · rw [effectiveRw, same.mmuEntries]
    exact writable
  · rw [same.tableAt within]
    exact noTable q within

/-- The entries that the processor reads for the addresses below `INIT_PHYSTOP`. -/
def SameBelow (root init : Word) (mem mem' : Mem) : Prop :=
  ∀ a : Word, a.toNat < init.toNat → mmuEntries mem' root a = mmuEntries mem root a

include empty order

/-- The first `kinit` frees pages that the boot tables map. -/
theorem handover_first :
    (∀ p u, (p, u) ∈ kinitFrees L L.kend init s →
      FreesSafely L root p u ∧ SameEntries root s.mem u.mem) ∧
    ∀ t, kinit L L.kend init s = .ok t → SameEntries root s.mem t.mem := by
  have noTable : ∀ p, IsPage L p → ∀ q : List (Fin 512), q.length ≤ 3 →
      tableAt s.mem root q ≠ some p :=
    fun p page q within found => boot.not_page within found page
  obtain ⟨calls, last⟩ := kinit_sameEntries (s := s) L.kend init boot.aligned
    fun i _ page => noTable _ page
  refine ⟨fun p u member => ?_, last⟩
  obtain ⟨same, i, rfl, visited⟩ := calls p u member
  refine ⟨freesSafely_of_same same fun page => ⟨boot_mapped boot empty ?_, noTable _ page⟩, same⟩
  have high := page.high
  have below := L.below
  have before := BitVec.lt_def.mp (of_decide_eq_true (visited i le_rfl))
  rw [BitVec.toNat_add, pgsize_toNat] at before
  omega

omit boot empty in
/-- The second region has no page of the first. -/
theorem not_mem_firstPages {p : Word} (member : p ∈ kinitPages init L.phystop) :
    p ∉ firstPages L init := by
  intro first
  have below := L.below
  have early := mem_firstPages (by omega) first
  have late := ((mem_kinitPages order.le below).mp member).2.1
  omega

include enough

/-- `kvminit` and the second `kinit`, after the first one returned. -/
theorem handover_second {s₁ : Phys} (first : kinit L L.kend init s = .ok s₁)
    (same : SameEntries root s.mem s₁.mem) :
    ∃ s₂, kvminit root init L.phystop s₁ = .ok (root, s₂) ∧
      SameBelow root init s.mem s₂.mem ∧
      (∀ p u, (p, u) ∈ kinitFrees L init L.phystop s₂ →
        FreesSafely L root p u ∧ SameEntries root s₂.mem u.mem) ∧
      (∀ t, kinit L init L.phystop s₂ = .ok t → SameEntries root s₂.mem t.mem) ∧
      (L.kend ≤ init → ∃ t, kinit L init L.phystop s₂ = .ok t) := by
  have below := L.below
  have list := (kinit_first empty order.le).2 s₁ first
  have boot₁ := boot.congr same
  have tree := boot₁.pageTree list
  have pages : (missingTables s₁.mem root (kinitPages init L.phystop)).card ≤
      (firstPages L init).reverse.length := by
    rwa [missingTables_congr same, List.length_reverse]
  obtain ⟨s₂, free₂, done, grown, space⟩ := kvminit_spec tree order.le below pages
  have tree₂ := tree.grown grown
  have base : (pgroundup init).toNat = (init.toNat + 4095) / 4096 * 4096 :=
    pgroundup_of_le (by omega)
  -- A page of the second region is neither a table of the image nor from the first region.
  have noTable : ∀ p ∈ kinitPages init L.phystop, IsPage L p → ∀ q : List (Fin 512),
      q.length ≤ 3 → tableAt s₂.mem root q ≠ some p := by
    intro p member page q within found
    rcases grown.new q p within found with old | new
    · exact boot₁.not_page within old page
    · exact not_mem_firstPages order member (List.mem_reverse.mp new)
  obtain ⟨calls, last⟩ := kinit_sameEntries (s := s₂) init L.phystop boot.aligned
    fun i visited page => noTable _ (mem_kinitPages_of_visited order.le below visited) page
  refine ⟨s₂, done, fun a low => ?_, fun p u member => ?_, last, fun above => ?_⟩
  · obtain ⟨entry, found, -⟩ := boot₁.identity a low
    have outside : mapped s₂.mem root (vpn a) = mapped s₁.mem root (vpn a) := by
      rw [space]
      refine if_neg ?_
      rw [BitVec.toNat_sub, vpn_toNat, vpn_toNat]
      omega
    rw [grown.mmuEntries found (outside.trans found), same.mmuEntries]
  · obtain ⟨same₂, i, rfl, visited⟩ := calls p u member
    have inside := mem_kinitPages_of_visited order.le below visited
    obtain ⟨k, early, address⟩ := List.mem_map.mp inside
    have number : (vpn (pageAt (pgroundup init) i) - vpn (pgroundup init)).toNat <
        (L.phystop.toNat - (pgroundup init).toNat - 1) / 4096 := by
      rw [← address, vpn_pageAt, add_sub_cancel_left, BitVec.toNat_ofNat]
      exact (Nat.mod_le _ _).trans_lt (List.mem_range.mp early)
    have high := ((mem_kinitPages order.le below).mp inside).2.2
    have itself : SelfMapped root (fun entry => entry.rw = true) s₂ (pageAt (pgroundup init) i) :=
      selfMapped_of_fill tree₂ space number (by omega) rfl
    obtain ⟨entry, found, writable⟩ := itself.2
    have upper := boot₁.upper.grown grown kernelTable_initEntry
    have stored := (effective_of_mapped upper found).1.trans writable
    exact ⟨freesSafely_of_same same₂ fun page => ⟨⟨itself.1, stored⟩, noTable _ inside page⟩, same₂⟩
  · have fresh : ∀ p ∈ kinitPages init L.phystop, p ∉ free₂ := by
      intro p member free
      exact not_mem_firstPages order member (List.mem_reverse.mp (grown.mem_free free))
    obtain ⟨t, ran, -⟩ := kinit_ok grown.tables.list (BitVec.le_def.mp above) order.le le_rfl fresh
    exact ⟨t, ran⟩

/-- **The hand-over is safe.** For every `end`, `INIT_PHYSTOP` and `PHYSTOP`: a page that `kfree`
accepts is mapped to itself, writable and no table at that moment; the entries for the addresses
below `INIT_PHYSTOP` are at no call, and not at the end, other than they were; and with a kernel that
ends below `INIT_PHYSTOP` all three calls return. -/
theorem handover_safe :
    (∀ p u, (p, u) ∈ handoverFrees L root init s →
      FreesSafely L root p u ∧ SameBelow root init s.mem u.mem) ∧
    (∀ t, handover L root init s = .ok t → SameBelow root init s.mem t.mem) ∧
    (L.kend ≤ init → ∃ t, handover L root init s = .ok t) := by
  obtain ⟨calls, last⟩ := handover_first boot empty order
  cases first : kinit L L.kend init s with
  | error halt =>
    refine ⟨fun p u member => ?_, fun t done => ?_, fun above => ?_⟩
    · rw [handoverFrees, first, List.append_nil] at member
      obtain ⟨safe, same⟩ := calls p u member
      exact ⟨safe, fun a _ => same.mmuEntries a⟩
    · rw [handover, first] at done
      cases done
    · obtain ⟨t, done⟩ := (kinit_first empty order.le).1 above
      rw [first] at done
      cases done
  | ok s₁ =>
    obtain ⟨s₂, second, kept, calls', last', returns⟩ :=
      handover_second boot empty order enough first (last s₁ first)
    have whole : handover L root init s = kinit L init L.phystop s₂ := by
      rw [handover, first, ok_bind, second]
      rfl
    refine ⟨fun p u member => ?_, fun t done a low => ?_, fun above => ?_⟩
    · rw [handoverFrees, first] at member
      dsimp only at member
      rw [second] at member
      rcases List.mem_append.mp member with early | late
      · obtain ⟨safe, same⟩ := calls p u early
        exact ⟨safe, fun a _ => same.mmuEntries a⟩
      · obtain ⟨safe, same⟩ := calls' p u late
        exact ⟨safe, fun a low => (same.mmuEntries a).trans (kept a low)⟩
    · rw [whole] at done
      exact ((last' t done).mmuEntries a).trans (kept a low)
    · rw [whole]
      exact returns above

end Handover

/-- A kernel that is its page tables, and a second region of one page. -/
def demoBounds : Bounds := ⟨0x104000, by decide, 0x202000, by decide⟩

theorem demoBounds_image : BootImage demoBounds 0x100000 fun _ => 0 := by
  refine ⟨by decide, by decide, by decide, by decide, fun k _ => ?_⟩
  simp [load32, readLE]

/-- The tables of `page_tables_setup`, and the calls of `kernel_main` after it. -/
theorem handover_safe_setup :
    ∃ mem, pageTablesSetup 0x100000 (bootTable 0x100000 1) (bootTable 0x100000 2)
        (bootTable 0x100000 3) (fun _ => 0) = .ok mem ∧
      ∃ t, handover demoBounds 0x100000 initPhystop ⟨mem, 0⟩ = .ok t := by
  obtain ⟨mem, run, boot⟩ := pageTablesSetup_bootTables demoBounds_image
  have pages : kinitPages initPhystop demoBounds.phystop = [0x200000] := by decide
  have count : (missingTables mem 0x100000 (kinitPages initPhystop demoBounds.phystop)).card ≤ 4 := by
    rw [pages, missingTables]
    exact (Finset.card_filter_le _ _).trans ((List.toFinset_card_le _).trans (by decide))
  refine ⟨mem, run, (handover_safe (s := ⟨mem, 0⟩) boot rfl (by decide) ?_).2.2 (by decide)⟩
  exact count.trans (by decide +kernel)

end ShipOS

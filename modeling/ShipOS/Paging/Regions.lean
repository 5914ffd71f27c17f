/-
**The region mappers `map_apic_region` and `map_low_memory`.**

Both loops start at the address they are given, not at its page, and step by a page: a region of
`size` bytes takes `size / 4096` rounds, rounded up, whatever its alignment. A region that starts
inside a page may reach one page more than that.

* `onPages_identity` — a loop that maps page after page to itself, with pages enough for its tables;
* `regions_cover_iff` — the region is mapped to itself exactly when the rounds reach its last page,
  or that page was mapped to itself before; no page outside the region changes;
* `regions_miss_page` — two bytes on either side of a page boundary: the second stays unmapped.
-/

import ShipOS.Paging.Rollback
import ShipOS.Paging.WalkModes

namespace ShipOS

open ByteMem PathTree KeyRange

variable {L : Bounds} {root : Word} {s t : Phys} {free : List Word}

/-! ### Pages mapped to themselves -/

/-- The address `a` is mapped to itself, by an entry as wanted. -/
def SelfMapped (root : Word) (Wanted : PageEntry → Prop) (s : Phys) (a : Word) : Prop :=
  vaToPa root a s = a ∧ ∃ entry, mapped s.mem root (vpn a) = some entry ∧ Wanted entry

section SelfMapped

variable {Wanted : PageEntry → Prop} {a : Word}

/-- **A page is mapped to itself if its entry has its own frame.** -/
theorem selfMapped_iff (tree : PageTree L s root free) :
    SelfMapped root Wanted s a ↔ ∃ entry, mapped s.mem root (vpn a) = some entry ∧
      entry.address.toNat = a.toNat / 4096 ∧ Wanted entry := by
  have value : ∀ entry, mapped s.mem root (vpn a) = some entry →
      (vaToPa root a s = a ↔ entry.address.toNat = a.toNat / 4096) := by
    intro entry found
    have translated := vaToPa_translate tree a
    rw [Space.translate, space, found] at translated
    change _ = entry.address.toNat * 4096 + a.toNat % 4096 at translated
    constructor
    · intro same
      rw [same] at translated
      omega
    · intro frame
      exact BitVec.eq_of_toNat_eq (by omega)
  constructor
  · rintro ⟨same, entry, found, wanted⟩
    exact ⟨entry, found, (value entry found).mp same, wanted⟩
  · rintro ⟨entry, found, frame, wanted⟩
    exact ⟨(value entry found).mpr frame, entry, found, wanted⟩

theorem selfMapped_congr {free' : List Word} (tree : PageTree L s root free)
    (tree' : PageTree L t root free')
    (same : mapped t.mem root (vpn a) = mapped s.mem root (vpn a)) :
    SelfMapped root Wanted t a ↔ SelfMapped root Wanted s a := by
  rw [selfMapped_iff tree', selfMapped_iff tree, same]

/-- The bytes of a page are mapped to themselves together. -/
theorem selfMapped_page (tree : PageTree L s root free) {b : Word}
    (same : b.toNat / 4096 = a.toNat / 4096) (before : SelfMapped root Wanted s a) :
    SelfMapped root Wanted s b := by
  obtain ⟨entry, found, frame, wanted⟩ := (selfMapped_iff tree).mp before
  have number : vpn b = vpn a := by
    apply BitVec.eq_of_toNat_eq
    rw [vpn_toNat, vpn_toNat]
    omega
  rw [← number] at found
  exact (selfMapped_iff tree).mpr ⟨entry, found, by omega, wanted⟩

/-- A page of an identity-mapped range. -/
theorem selfMapped_of_fill (tree : PageTree L s root free) {m : Vpn → Option PageEntry}
    {base : Word} {n : Nat} {flags : BitVec 32}
    (space : mapped s.mem root = fillRange m (vpn base) n
      fun i => some (frameEntry (vpn base + i) flags))
    (inside : (vpn a - vpn base).toNat < n) (low : a.toNat < 2 ^ 48)
    (wanted : Wanted (frameEntry (vpn a) flags)) : SelfMapped root Wanted s a := by
  refine (selfMapped_iff tree).mpr ⟨frameEntry (vpn a) flags, ?_, ?_, wanted⟩
  · rw [space, fillRange, if_pos inside, add_sub_cancel]
  · rw [frameEntry, BitVec.toNat_setWidth, vpn_toNat]
    omega

end SelfMapped

theorem vaToPa_congr {free' : List Word} (tree : PageTree L s root free)
    (tree' : PageTree L t root free') {a : Word}
    (same : mapped t.mem root (vpn a) = mapped s.mem root (vpn a)) :
    vaToPa root a t = vaToPa root a s := by
  rw [vaToPa_spec tree, vaToPa_spec tree', same]

/-! ### Loops that map pages to themselves -/

/-- The flags of an identity-mapped page. -/
def identityFlags (pcd : Bool) : BitVec 32 := if pcd then pteW ||| ptePcd else pteW

theorem regionEntry_eq (addr : Word) (pcd : Bool) :
    regionEntry addr pcd = frameEntry (vpn addr) (identityFlags pcd) := by
  rw [← leafEntry_eq]
  cases pcd with
  | false => rfl
  | true => rfl

/-- A loop body that maps the page of `addr` to itself, if the walk finds its entry. -/
def MapsIdentity (root : Word) (pcd : Bool) (body : Word → Phys → Except Halt Phys) : Prop :=
  ∀ addr s pte t, walk root addr true s = (pte, t) → pte ≠ 0 →
    body addr s = .ok { t with mem := store64 t.mem pte (encodePageEntry (regionEntry addr pcd)) }

/-- **The identity loop.** With pages enough for the tables on the way to the addresses `all`, every
page is mapped to itself, and no other page changes. -/
theorem onPages_identity {body : Word → Phys → Except Halt Phys} {pcd : Bool}
    (identity : MapsIdentity root pcd body) (tree : PageTree L s root free) {all : List Word}
    (enough : (missingTables s.mem root all).card ≤ free.length) (n : Nat) :
    ∀ (addr : Word) (u : Phys) (free' vas : List Word), GrownOn L root s free u free' vas →
      vas ⊆ all → (∀ i < n, pageAt addr i ∈ all) →
        ∃ t free'' vas', onPages body n addr u = .ok t ∧ GrownOn L root s free t free'' vas' ∧
          vas' ⊆ all ∧ mapped t.mem root = fillRange (mapped u.mem root) (vpn addr) n
            fun i => some (frameEntry (vpn addr + i) (identityFlags pcd)) := by
  induction n with
  | zero =>
    intro addr u free' vas grown within _
    exact ⟨u, free', vas, rfl, grown, within, (fillRange_zero _ _ _).symm⟩
  | succ n ih =>
    intro addr u free' vas grown within inAll
    have here := inAll 0 (Nat.succ_pos n)
    rw [pageAt_zero] at here
    obtain ⟨tbl, u₁, free₁, walked, walkedOn, leaves, reached⟩ :=
      walk_enough tree.toTables grown within enough here
    have entry := (tree.grown walkedOn.toGrown).leaf_ne_zero reached
    have stored := walkedOn.leaf_store (pathOf_length addr) reached (idx addr 0)
      (encodePageEntry (regionEntry addr pcd))
    obtain ⟨t, free'', vas', run, last, within', space⟩ := ih (addr + pgsize) _ free₁ _ stored
      (List.append_subset.mpr ⟨within, List.cons_subset.mpr ⟨here, List.nil_subset _⟩⟩)
      (fun i early => by rw [← pageAt_succ]; exact inAll (i + 1) (Nat.succ_lt_succ early))
    refine ⟨t, free'', vas', ?_, last, within', ?_⟩
    · rw [onPages, identity addr u _ u₁ walked entry]
      exact run
    · have shift : ∀ i : Vpn, vpn addr + 1 + i = vpn addr + (i + 1) := by
        intro i
        rw [add_assoc, add_comm 1 i]
      rw [space, mapped_store walkedOn.tables reached, leaves.mapped, regionEntry_eq,
        present_encode, vpn_next, ← fillRange_succ]
      simp only [shift, add_zero]

/-! ### The region mappers -/

/-- The addresses the region mappers walk to. -/
def regionAddrs (base size : Word) : List Word :=
  (List.range ((size.toNat + 4095) / 4096)).map (pageAt base)

theorem mapRegion_identity (root : Word) (pcd : Bool) :
    MapsIdentity root pcd fun addr s => .ok (mapRegionPage root pcd addr s) := by
  intro addr s pte t walked found
  refine congrArg Except.ok ?_
  unfold mapRegionPage
  rw [walked]
  exact if_neg found

/-- **A region mapper** maps the first `size / 4096` pages, rounded up, from that of `base`. -/
theorem mapRegion_spec (tree : PageTree L s root free) (pcd : Bool) (base size : Word)
    (fits : base.toNat + size.toNat ≤ 2 ^ 48)
    (enough : (missingTables s.mem root (regionAddrs base size)).card ≤ free.length) :
    ∃ t free', mapRegion root pcd base (base + size) s = .ok t ∧ PageTree L t root free' ∧
      mapped t.mem root = fillRange (mapped s.mem root) (vpn base) ((size.toNat + 4095) / 4096)
        fun i => some (frameEntry (vpn base + i) (identityFlags pcd)) := by
  obtain ⟨t, free', vas, run, grown, -, space⟩ := onPages_identity (mapRegion_identity root pcd)
    tree enough ((size.toNat + 4095) / 4096) base s free [] (GrownOn.refl tree.toTables)
    (List.nil_subset _)
    (fun i early => List.mem_map_of_mem (List.mem_range.mpr early))
  refine ⟨t, free', ?_, tree.grown grown.toGrown, space⟩
  have bound : (base + size).toNat = base.toNat + size.toNat := by
    rw [BitVec.toNat_add]
    omega
  have address : ∀ i ≤ (size.toNat + 4095) / 4096,
      (pageAt base i).toNat = base.toNat + 4096 * i := by
    intro i early
    rw [pageAt_toNat]
    omega
  rw [mapRegion, ← run]
  refine forPages_eq _ pageFuel base s ?_ (fun i early => ?_) ?_
  · rw [pageFuel]
    omega
  · rw [decide_eq_true_iff, BitVec.lt_def, address i early.le, bound]
    omega
  · rw [decide_eq_false_iff_not, BitVec.lt_def, address _ le_rfl, bound]
    omega

/-- The entries a region mapper is to set. -/
def CacheDisabledIf (pcd : Bool) (entry : PageEntry) : Prop := pcd = true → entry.pcd = true

/-- What a region mapper does to the region `[base, base + size)`: the pages without a byte of it
translate as before, and when all its bytes are mapped to themselves. -/
structure RegionOutcome (root : Word) (pcd : Bool) (base size : Word) (s t : Phys) : Prop where
  outside : ∀ a, ¬ Covered base size (vpn a) → vaToPa root a t = vaToPa root a s
  inside : (∀ a : Word, base.toNat ≤ a.toNat → a.toNat < base.toNat + size.toNat →
      SelfMapped root (CacheDisabledIf pcd) t a) ↔
    size = 0 ∨ base.toNat % 4096 + (size.toNat - 1) % 4096 < 4096 ∨
      SelfMapped root (CacheDisabledIf pcd) s (base + size - 1)

theorem mapRegion_outcome (tree : PageTree L s root free) (pcd : Bool) {base size : Word}
    (fits : base.toNat + size.toNat ≤ 2 ^ 48)
    (enough : (missingTables s.mem root (regionAddrs base size)).card ≤ free.length) :
    ∃ t, mapRegion root pcd base (base + size) s = .ok t ∧ RegionOutcome root pcd base size s t := by
  obtain ⟨t, free', run, tree', space⟩ := mapRegion_spec tree pcd base size fits enough
  have page : ∀ a : Word, base.toNat ≤ a.toNat → a.toNat < base.toNat + size.toNat →
      (vpn a - vpn base).toNat = a.toNat / 4096 - base.toNat / 4096 := by
    intro a low high
    rw [BitVec.toNat_sub, vpn_toNat, vpn_toNat]
    omega
  -- A byte whose page the rounds reach, and one whose page they do not.
  have reached : ∀ a : Word, base.toNat ≤ a.toNat → a.toNat < base.toNat + size.toNat →
      a.toNat / 4096 - base.toNat / 4096 < (size.toNat + 4095) / 4096 →
        SelfMapped root (CacheDisabledIf pcd) t a := by
    intro a low high early
    rw [← page a low high] at early
    refine selfMapped_of_fill tree' space early (high.trans_le fits) ?_
    rintro rfl
    rfl
  have beyond : ∀ a : Word, base.toNat ≤ a.toNat → a.toNat < base.toNat + size.toNat →
      ¬ a.toNat / 4096 - base.toNat / 4096 < (size.toNat + 4095) / 4096 →
        (SelfMapped root (CacheDisabledIf pcd) t a ↔
          SelfMapped root (CacheDisabledIf pcd) s a) := by
    intro a low high late
    rw [← page a low high] at late
    refine selfMapped_congr tree tree' ?_
    rw [space]
    exact if_neg late
  refine ⟨t, run, ⟨fun a off => vaToPa_congr tree tree' ?_, ?_⟩⟩
  · rw [space]
    refine if_neg fun early => off ?_
    have positive : 0 < size.toNat := by omega
    refine (inside_iff_covered (by omega) positive _).mp (early.trans_le ?_)
    rw [rangePages]
    omega
  · by_cases empty : size = 0
    · subst empty
      refine iff_of_true (fun a low high => ?_) (.inl rfl)
      exact absurd (low.trans_lt high) (Nat.lt_irrefl _)
    · have positive : size.toNat ≠ 0 := fun zero => empty (BitVec.eq_of_toNat_eq zero)
      have last : (base + size - 1).toNat = base.toNat + size.toNat - 1 := by bv_omega
      constructor
      · intro all
        by_cases covered : base.toNat % 4096 + (size.toNat - 1) % 4096 < 4096
        · exact .inr (.inl covered)
        · exact .inr (.inr ((beyond _ (by omega) (by omega) (by omega)).mp
            (all _ (by omega) (by omega))))
      · rintro (zero | covered | before) a low high
        · exact absurd zero empty
        · exact reached a low high (by omega)
        · by_cases early : a.toNat / 4096 - base.toNat / 4096 < (size.toNat + 4095) / 4096
          · exact reached a low high early
          · exact (beyond a low high early).mpr (selfMapped_page tree (by omega) before)

/-- **When the region mappers cover their region.** -/
theorem regions_cover_iff (tree : PageTree L s root free) (base : Word) :
    (∀ size : BitVec 32, base.toNat + size.toNat ≤ 2 ^ 48 →
      (missingTables s.mem root (regionAddrs base (size.setWidth 64))).card ≤ free.length →
        ∃ t, mapApicRegion root base size s = .ok t ∧
          RegionOutcome root true base (size.setWidth 64) s t) ∧
    ∀ size : Word, base.toNat + size.toNat ≤ 2 ^ 48 →
      (missingTables s.mem root (regionAddrs base size)).card ≤ free.length →
        ∃ t, mapLowMemory root base size s = .ok t ∧ RegionOutcome root false base size s t := by
  refine ⟨fun size fits enough => ?_, fun size fits enough => ?_⟩
  · have width : (size.setWidth 64).toNat = size.toNat := by
      have := size.isLt
      rw [BitVec.toNat_setWidth]
      omega
    exact mapRegion_outcome tree true (by rw [width]; exact fits) enough
  · exact mapRegion_outcome tree false fits enough

/-- A page of low memory is mapped to itself. -/
theorem regions_cover_page :
    ∃ t, mapLowMemory demoRoot 0x1000 0x1000 demoPhys = .ok t ∧
      ∀ a : Word, (0x1000 : Word).toNat ≤ a.toNat →
        a.toNat < (0x1000 : Word).toNat + (0x1000 : Word).toNat →
          SelfMapped demoRoot (CacheDisabledIf false) t a := by
  have enough : (missingTables demoPhys.mem demoRoot (regionAddrs 0x1000 0x1000)).card ≤ 3 := by
    decide +kernel
  obtain ⟨t, run, outcome⟩ := (regions_cover_iff demoPhys_tree 0x1000).2 0x1000 (by decide) enough
  exact ⟨t, run, outcome.inside.mpr (.inr (.inl (by decide)))⟩

/-- **The region mappers miss the last page of an unaligned region.** Two bytes from `0xFFF` on take
one round, and the page of `0x1000` is not mapped. -/
theorem regions_miss_page :
    PageTree demoLayout demoPhys demoRoot [0x200000, 0x201000, 0x202000] ∧
      (missingTables demoPhys.mem demoRoot [0xFFF, 0x1000]).card ≤ 3 ∧
      (∃ t, mapApicRegion demoRoot 0xFFF 2 demoPhys = .ok t ∧ vaToPa demoRoot 0x1000 t = 0) ∧
      ∃ t, mapLowMemory demoRoot 0xFFF 2 demoPhys = .ok t ∧ vaToPa demoRoot 0x1000 t = 0 := by
  have missed : ∀ pcd, ∃ t, mapRegion demoRoot pcd 0xFFF (0xFFF + 2) demoPhys = .ok t ∧
      vaToPa demoRoot 0x1000 t = 0 := by
    intro pcd
    obtain ⟨t, -, run, -⟩ := mapRegion_spec demoPhys_tree pcd 0xFFF 2 (by decide)
      (by decide +kernel)
    have gone : (mapRegion demoRoot pcd 0xFFF (0xFFF + 2) demoPhys).map
        (vaToPa demoRoot 0x1000) = .ok 0 := by
      cases pcd with
      | false => decide +kernel
      | true => decide +kernel
    rw [run] at gone
    exact ⟨t, run, Except.ok.inj gone⟩
  exact ⟨demoPhys_tree, by decide +kernel, missed true, missed false⟩

end ShipOS

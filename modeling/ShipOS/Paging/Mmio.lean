/-
**The promise of `map_mmio`.**

`map_mmio(pa, size)` maps the pages of `[pa, pa + size)` to themselves, with addresses that come from
the firmware's tables. Three widths meet: the sum `pa + size` is rounded up and wraps at `2 ^ 64`,
`walk` reads 48 bits of an address, and an entry holds 36 bits of a frame.

* `mapMmio_promise_iff` — a call that returns an address has mapped the range exactly when the range
  ends at or below `2 ^ 48`;
* `mapMmio_last_page` — the last page of the address space: success is returned and nothing mapped.
-/

import ShipOS.Paging.Regions

namespace ShipOS

open ByteMem PathTree KeyRange

variable {L : Bounds} {root : Word} {s t : Phys} {free : List Word}

/-- An entry for device registers. -/
def Uncached (entry : PageEntry) : Prop := entry.rw = true ∧ entry.pcd = true

/-- The range of the inner `map_pages` call ends where the caller's does. -/
theorem mmio_range (pa size : Word) :
    pgrounddown pa + (size + (pa - pgrounddown pa)) = pa + size := by
  bv_omega

/-- **`map_mmio`** returns null, or sets the pages of its range and returns the address. -/
theorem mapMmio_spec (tree : PageTree L s root free) (pa size : Word) :
    ∃ r t free', mapMmio root pa size s = .ok (r, t) ∧ PageTree L t root free' ∧
      (r ≠ 0 → r = pa ∧ mapped t.mem root = fillRange (mapped s.mem root) (vpn pa)
        (rounds (pgrounddown pa) (pgroundup (pa + size)))
        fun i => some (frameEntry (vpn pa + i) (pteW ||| ptePcd))) := by
  obtain ⟨result, t, free', run, grown, effect⟩ := mapPages_spec tree (pgrounddown pa)
    (pgrounddown pa) (size + (pa - pgrounddown pa)) (pteW ||| ptePcd)
  rcases effect with ⟨rfl, filled⟩ | ⟨rfl, -⟩
  · refine ⟨pa, t, free', by rw [mapMmio, run]; rfl, tree.grown grown, fun _ => ⟨rfl, ?_⟩⟩
    rwa [vpn_pgrounddown, rangeRounds, pgrounddown_eq (pgrounddown_aligned pa), mmio_range] at filled
  · exact ⟨0, t, free', by rw [mapMmio, run]; rfl, tree.grown grown, fun null => absurd rfl null⟩

/-- No address from `2 ^ 48` on is mapped to itself. -/
theorem not_selfMapped_high (tree : PageTree L s root free) {Wanted : PageEntry → Prop} {a : Word}
    (high : 2 ^ 48 ≤ a.toNat) : ¬ SelfMapped root Wanted s a := by
  intro same
  obtain ⟨entry, found, frame, -⟩ := (selfMapped_iff tree).mp same
  have low := mapped_address_lt found
  omega

/-- **When `map_mmio` keeps its promise.** -/
theorem mapMmio_promise_iff (tree : PageTree L s root free) (pa size : Word)
    (fits : pa.toNat + size.toNat ≤ 2 ^ 64) :
    ∃ r t, mapMmio root pa size s = .ok (r, t) ∧
      (r ≠ 0 → ((∀ a : Word, pa.toNat ≤ a.toNat → a.toNat < pa.toNat + size.toNat →
        SelfMapped root Uncached t a) ↔ size = 0 ∨ pa.toNat + size.toNat ≤ 2 ^ 48)) := by
  obtain ⟨r, t, free', run, tree', effect⟩ := mapMmio_spec tree pa size
  refine ⟨r, t, run, fun returned => ?_⟩
  obtain ⟨-, space⟩ := effect returned
  constructor
  · intro all
    by_contra outside
    rw [not_or] at outside
    obtain ⟨nonempty, far⟩ := outside
    have positive : size.toNat ≠ 0 := fun zero => nonempty (BitVec.eq_of_toNat_eq zero)
    -- The last byte of the range is out of reach of the 36-bit frames.
    have last : (pa + (size - 1)).toNat = pa.toNat + size.toNat - 1 := by bv_omega
    refine not_selfMapped_high tree' ?_ (all (pa + (size - 1)) ?_ ?_)
    · omega
    · omega
    · omega
  · rintro (rfl | near) a low high
    · exact absurd (low.trans_lt high) (Nat.lt_irrefl _)
    · refine selfMapped_of_fill tree' space ?_ (high.trans_le near) ⟨rfl, rfl⟩
      rw [BitVec.toNat_sub, vpn_toNat, vpn_toNat, rounds, pgrounddown_toNat, pgroundup_toNat,
        BitVec.toNat_add]
      omega

/-- The registers of the local APIC. -/
theorem mapMmio_promise_apic :
    ∃ t, mapMmio demoRoot 0xFEE00000 0x1000 demoPhys = .ok (0xFEE00000, t) ∧
      ∀ a : Word, (0xFEE00000 : Word).toNat ≤ a.toNat →
        a.toNat < (0xFEE00000 : Word).toNat + (0x1000 : Word).toNat →
          SelfMapped demoRoot Uncached t a := by
  have value : (mapMmio demoRoot 0xFEE00000 0x1000 demoPhys).map Prod.fst = .ok 0xFEE00000 := by
    decide +kernel
  obtain ⟨r, t, run, promise⟩ := mapMmio_promise_iff demoPhys_tree 0xFEE00000 0x1000 (by decide)
  rw [run] at value
  cases value
  exact ⟨t, run, (promise (by decide)).mpr (.inr (by decide))⟩

/-- **The last page of the address space**: the end of the range wraps to 0, no page is mapped, and
the call returns the address all the same. -/
theorem mapMmio_last_page :
    PageTree demoLayout demoPhys demoRoot [0x200000, 0x201000, 0x202000] ∧
      mapMmio demoRoot 0xFFFFFFFFFFFFF000 0x1000 demoPhys = .ok (0xFFFFFFFFFFFFF000, demoPhys) ∧
      vaToPa demoRoot 0xFFFFFFFFFFFFF000 demoPhys = 0 := by
  refine ⟨demoPhys_tree, rfl, ?_⟩
  decide +kernel

end ShipOS

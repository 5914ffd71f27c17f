/-
**The address space a page-table tree stands for.**

`mapped mem root` is the partial map from the 36-bit virtual page number to the present leaf entry.
Each call on one page is an update of that map at the page of its address:

* `mapPage_spec` — `map_page` returns 0 and sets the page, or returns -1 and sets nothing;
* `unmapPage_mapped` — `unmap_page` clears the page;
* `vaToPa_spec` — `va_to_pa` reads the map.
-/

import ShipOS.Lib.Cache
import ShipOS.Paging.Walk

namespace ShipOS

open ByteMem PathTree KeyRange

/-! ### Page numbers -/

/-- A page number: bits 12 to 47 of an address. -/
abbrev Vpn := BitVec 36

def vpn (va : Word) : Vpn := (va >>> 12).setWidth 36

/-- The first address of a page. -/
def pageBase (v : Vpn) : Word := v.setWidth 64 <<< 12

theorem vpn_toNat (va : Word) : (vpn va).toNat = va.toNat / 4096 % 2 ^ 36 := by
  rw [vpn, BitVec.toNat_setWidth, BitVec.toNat_ushiftRight, Nat.shiftRight_eq_div_pow]

theorem pageBase_toNat (v : Vpn) : (pageBase v).toNat = v.toNat * 4096 := by
  have := v.isLt
  rw [pageBase, BitVec.toNat_shiftLeft, BitVec.toNat_setWidth, Nat.shiftLeft_eq]
  omega

@[simp] theorem vpn_pageBase (v : Vpn) : vpn (pageBase v) = v := by
  apply BitVec.eq_of_toNat_eq
  have := v.isLt
  rw [vpn_toNat, pageBase_toNat]
  omega

@[simp] theorem vpn_pgrounddown (va : Word) : vpn (pgrounddown va) = vpn va := by
  apply BitVec.eq_of_toNat_eq
  rw [vpn_toNat, vpn_toNat, pgrounddown_toNat]
  omega

theorem vpn_next (va : Word) : vpn (va + pgsize) = vpn va + 1 := by
  apply BitVec.eq_of_toNat_eq
  have one : (1 : Vpn).toNat = 1 := rfl
  rw [vpn_toNat, BitVec.toNat_add, BitVec.toNat_add, vpn_toNat, pgsize_toNat, one]
  omega

variable {va va' : Word}

/-- Addresses of one page have the same indices. -/
theorem idx_of_vpn (same : vpn va = vpn va') {level : Nat} (low : level ≤ 3) :
    idx va level = idx va' level := by
  have numbers := congrArg BitVec.toNat same
  rw [vpn_toNat, vpn_toNat] at numbers
  apply Fin.ext
  simp only [idx]
  rcases (by omega : level = 0 ∨ level = 1 ∨ level = 2 ∨ level = 3) with rfl | rfl | rfl | rfl
  · omega
  · omega
  · omega
  · omega

theorem pathOf_of_vpn (same : vpn va = vpn va') : pathOf va = pathOf va' := by
  simp only [pathOf, suffix, idx_of_vpn same (show 1 ≤ 3 by omega),
    idx_of_vpn same (show 2 ≤ 3 by omega), idx_of_vpn same (show 3 ≤ 3 by omega)]

/-- Addresses with the same indices are in one page. -/
theorem vpn_of_idx (path : pathOf va = pathOf va') (last : idx va 0 = idx va' 0) :
    vpn va = vpn va' := by
  apply BitVec.eq_of_toNat_eq
  simp only [pathOf, suffix, idx, List.cons.injEq, Fin.mk.injEq, and_true] at path last
  rw [vpn_toNat, vpn_toNat]
  omega

/-! ### The map -/

/-- A raw entry as a mapping: the entry, if present. -/
def present (raw : Word) : Option PageEntry :=
  let entry := decodePageEntry raw
  if entry.p then some entry else none

theorem present_none {raw : Word} (absent : (decodePageEntry raw).p = false) :
    present raw = none := by
  rw [present, if_neg (by rw [absent]; exact Bool.false_ne_true)]

/-- **The address space of a root.** -/
def mapped (mem : Mem) (root : Word) (v : Vpn) : Option PageEntry :=
  present (leafAt mem root (pathOf (pageBase v)) (idx (pageBase v) 0))

theorem mapped_vpn (mem : Mem) (root va : Word) :
    mapped mem root (vpn va) = present (leafAt mem root (pathOf va) (idx va 0)) := by
  rw [mapped, pathOf_of_vpn (vpn_pageBase (vpn va)),
    idx_of_vpn (vpn_pageBase (vpn va)) (Nat.zero_le 3)]

@[simp] theorem pathOf_length (va : Word) : (pathOf va).length = 3 := suffix_length va 3

variable {L : Bounds} {root : Word} {s s' : Phys} {free free' : List Word} {mem mem' : Mem}

theorem SameLeaves.mapped (same : SameLeaves root mem mem') :
    mapped mem' root = mapped mem root := by
  funext v
  rw [ShipOS.mapped, ShipOS.mapped, same _ _ (pathOf_length _)]

/-- **A store into the leaf entry of `va` sets the page of `va`.** -/
theorem mapped_store {t : Word} (tables : Tables L s root free)
    (reached : tableAt s.mem root (pathOf va) = some t) (raw : Word) :
    mapped (store64 s.mem (slot t (idx va 0).val) raw) root =
      Function.update (mapped s.mem root) (vpn va) (present raw) := by
  funext v
  rw [mapped, tables.leaf_store_leafAt (pathOf_length va) reached _ raw _ _ (pathOf_length _)]
  by_cases here : v = vpn va
  · subst here
    have same := vpn_pageBase (vpn va)
    rw [Function.update_self, if_pos ⟨pathOf_of_vpn same, idx_of_vpn same (Nat.zero_le 3)⟩]
  · rw [Function.update_of_ne here, if_neg]
    · rfl
    · rintro ⟨path, last⟩
      exact here ((vpn_pageBase v).symm.trans (vpn_of_idx path last))

/-! ### Trees without the null page -/

/-- The invariant with the C side's view of tables: no table is at the null address. -/
structure PageTree (L : Bounds) (s : Phys) (root : Word) (free : List Word) : Prop
    extends Tables L s root free where
  nonNull : ∀ path : List (Fin 512), ∀ t, path.length ≤ 3 → tableAt s.mem root path = some t →
    t ≠ 0

theorem PageTree.grown (tree : PageTree L s root free) (grown : Grown L root s free s' free') :
    PageTree L s' root free' := by
  refine ⟨grown.tables, fun q t within found => ?_⟩
  rcases grown.new q t within found with old | new
  · exact tree.nonNull q t within old
  · exact (tree.list.page t new).ne_zero

/-- The leaf entry of an address is not at null. -/
theorem PageTree.leaf_ne_zero (tree : PageTree L s root free) {t : Word}
    (found : tableAt s.mem root (pathOf va) = some t) : slot t (idx va 0).val ≠ 0 := by
  intro zero
  have address := slot_toNat (tableAt_aligned tree.aligned found) (idx va 0).isLt
  rw [zero] at address
  refine tree.nonNull _ t (pathOf_length va).le found (BitVec.eq_of_toNat_eq ?_)
  change 0 = t.toNat + 8 * (idx va 0).val at address
  change t.toNat = 0
  omega

/-! ### Single pages -/

/-- The entry `map_page` writes for a frame number. -/
def frameEntry (frame : Vpn) (flags : BitVec 32) : PageEntry :=
  { leafEntry 0 flags with address := frame.setWidth 64 }

theorem leafEntry_eq (pa : Word) (flags : BitVec 32) :
    leafEntry pa flags = frameEntry (vpn pa) flags := by
  refine PageEntry.ext rfl rfl rfl rfl rfl rfl rfl rfl rfl ?_ rfl rfl
  apply BitVec.eq_of_toNat_eq
  have low := (vpn pa).isLt
  rw [leafEntry, address_toNat, frameEntry, BitVec.toNat_setWidth, ← vpn_toNat]
  omega

theorem frameEntry_plain (frame : Vpn) (flags : BitVec 32) : (frameEntry frame flags).Plain := by
  refine ⟨rfl, rfl, rfl, ?_⟩
  have low := frame.isLt
  rw [frameEntry, BitVec.toNat_setWidth]
  omega

theorem present_encode (frame : Vpn) (flags : BitVec 32) :
    present (encodePageEntry (frameEntry frame flags)) = some (frameEntry frame flags) := by
  rw [present, decode_encode (frameEntry_plain frame flags)]
  rfl

/-- **`map_page`** sets the page of `va` and returns 0, or sets nothing and returns -1. -/
theorem mapPage_spec (tables : Tables L s root free) (va pa : Word) (flags : BitVec 32) :
    ∃ result s' free', mapPage root va pa flags s = (result, s') ∧ Grown L root s free s' free' ∧
      ((result = 0 ∧ mapped s'.mem root =
          Function.update (mapped s.mem root) (vpn va) (some (frameEntry (vpn pa) flags))) ∨
        (result = -1 ∧ mapped s'.mem root = mapped s.mem root)) := by
  obtain ⟨pte, s₁, free', walked, grown, leaves, outcome⟩ := walk_alloc tables (pgrounddown va)
  rw [mapPage, walked]
  by_cases null : pte = 0
  · simp only [null, if_true]
    exact ⟨-1, s₁, free', rfl, grown, .inr ⟨rfl, leaves.mapped⟩⟩
  · rcases outcome with ⟨t, reached, address⟩ | ⟨zero, -⟩
    · simp only [null, if_false]
      split
      · exact ⟨-1, s₁, free', rfl, grown, .inr ⟨rfl, leaves.mapped⟩⟩
      · have stored := Grown.leaf_store grown.tables (pathOf_length _) reached
          (idx (pgrounddown va) 0) (encodePageEntry (leafEntry (pgrounddown pa) flags))
        rw [address]
        refine ⟨0, _, free', rfl, grown.trans stored, .inl ⟨rfl, ?_⟩⟩
        rw [mapped_store grown.tables reached, leaves.mapped, leafEntry_eq, present_encode,
          vpn_pgrounddown, vpn_pgrounddown]
    · exact absurd zero null

/-- **`unmap_page`** clears the page of `va`. -/
theorem unmapPage_mapped (tree : PageTree L s root free) (va : Word) :
    mapped (unmapPage root va s).mem root = Function.update (mapped s.mem root) (vpn va) none := by
  have already : mapped s.mem root (vpn va) = none →
      mapped s.mem root = Function.update (mapped s.mem root) (vpn va) none := by
    intro absent
    rw [← absent, Function.update_eq_self]
  have here := mapped_vpn s.mem root (pgrounddown va)
  rw [vpn_pgrounddown] at here
  cases found : tableAt s.mem root (pathOf (pgrounddown va)) with
  | none =>
    rw [leafAt_none found, present_none decode_zero] at here
    rw [unmapPage, walk_absent found]
    exact already here
  | some t =>
    have address := tree.leaf_ne_zero found
    rw [leafAt_some found] at here
    rw [unmapPage, walk_found found]
    dsimp only
    rw [if_neg address]
    split
    · rename_i absent
      rw [present_none absent] at here
      exact already here
    · rw [mapped_store tree.toTables found, present_none decode_zero, vpn_pgrounddown]

/-- **`va_to_pa`** reads the map. -/
theorem vaToPa_spec (tree : PageTree L s root free) (va : Word) :
    vaToPa root va s = match mapped s.mem root (vpn va) with
      | some entry => (entry.address <<< 12) ||| (va &&& (pgsize - 1))
      | none => 0 := by
  rw [mapped_vpn]
  cases found : tableAt s.mem root (pathOf va) with
  | none =>
    rw [leafAt_none found, vaToPa, walk_absent found]
    rfl
  | some t =>
    rw [leafAt_some found, vaToPa, walk_found found]
    dsimp only
    rw [if_neg (tree.leaf_ne_zero found)]
    by_cases absent : (decodePageEntry (load64 s.mem (slot t (idx va 0).val))).p = false
    · rw [if_pos absent, present_none absent]
    · rw [if_neg absent, present, if_pos (Bool.eq_true_of_not_eq_false absent)]

end ShipOS

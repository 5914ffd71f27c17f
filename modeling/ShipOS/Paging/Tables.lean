/-
**Page tables as a tree in memory.**

A page table is reached from the root along a path of at most three indices; the entries of the
tables at depth three are the leaf entries. `Tables L s root free` is the invariant that couples the
two structures living in one memory: every table is reached by one path only, and no table is on
the allocator's free list.

* `leafAt` — the raw leaf entry at a path and index (zero where a table is missing);
* `Tables.leaf_store` — a store into a leaf entry changes that leaf entry and nothing else;
* `Tables.link` — a page from the free list, zeroed and hung into an absent entry, is one more
  table, and no leaf entry changes.
-/

import ShipOS.Lib.Pointers
import ShipOS.Paging.Code

namespace ShipOS

open ByteMem PathTree

/-! ### Indices -/

/-- The nine bits of `va` that index the table at a level. -/
def idx (va : Word) (level : Nat) : Fin 512 :=
  ⟨va.toNat / 2 ^ (12 + level * 9) % 512, Nat.mod_lt _ (by omega)⟩

theorem levelIndex_toNat (va : Word) (level : Nat) :
    (levelIndex va level).toNat = (idx va level).val := by
  rw [levelIndex, BitVec.toNat_and, BitVec.toNat_ushiftRight, Nat.shiftRight_eq_div_pow]
  exact Nat.and_two_pow_sub_one_eq_mod _ 9

theorem entryAt_eq (tbl va : Word) (level : Nat) :
    entryAt tbl va level = slot tbl (idx va level).val := by
  rw [entryAt, levelIndex_toNat]

/-- The indices of `va` from `level` down to the leaf tables. -/
def suffix (va : Word) : Nat → List (Fin 512)
  | 0 => []
  | level + 1 => idx va (level + 1) :: suffix va level

@[simp] theorem suffix_length (va : Word) (level : Nat) : (suffix va level).length = level := by
  induction level with
  | zero => rfl
  | succ level ih => rw [suffix, List.length_cons, ih]

/-- The path of `va` to its leaf table. -/
def pathOf (va : Word) : List (Fin 512) := suffix va 3

/-! ### Tables and leaf entries -/

/-- The table the `i`-th entry of the table `t` points to. -/
def childTable (mem : Mem) (t : Word) (i : Fin 512) : Option Word :=
  let entry := decodePageEntry (load64 mem (slot t i.val))
  if entry.p then some (entry.address <<< 12) else none

/-- The table at a path. -/
def tableAt (mem : Mem) (root : Word) (path : List (Fin 512)) : Option Word :=
  follow (childTable mem) root path

/-- The raw leaf entry at a path and index. -/
def leafAt (mem : Mem) (root : Word) (path : List (Fin 512)) (j : Fin 512) : Word :=
  match tableAt mem root path with
  | some t => load64 mem (slot t j.val)
  | none => 0

/-- **The page-table invariant.** -/
structure Tables (L : Bounds) (s : Phys) (root : Word) (free : List Word) : Prop where
  list : FreeList L s free
  aligned : PageAligned root
  unique : UniqueTo (childTable s.mem) root 3
  notFree : ∀ path : List (Fin 512), ∀ t, path.length ≤ 3 → tableAt s.mem root path = some t →
    t ∉ free

theorem childTable_congr {mem mem' : Mem} {t : Word} {i : Fin 512}
    (same : load64 mem' (slot t i.val) = load64 mem (slot t i.val)) :
    childTable mem' t i = childTable mem t i := by
  rw [childTable, childTable, same]

theorem address_aligned (raw : Word) : PageAligned ((decodePageEntry raw).address <<< 12) := by
  rw [PageAligned, BitVec.toNat_shiftLeft, Nat.shiftLeft_eq]
  omega

theorem childTable_aligned {mem : Mem} {t c : Word} {i : Fin 512}
    (found : childTable mem t i = some c) : PageAligned c := by
  rw [childTable] at found
  split at found
  · cases found
    exact address_aligned _
  · cases found

variable {L : Bounds} {s : Phys} {root : Word} {free : List Word}

/-- One level below a table. -/
theorem tableAt_snoc {mem : Mem} {path : List (Fin 512)} {t : Word}
    (found : tableAt mem root path = some t) (i : Fin 512) :
    tableAt mem root (path ++ [i]) = childTable mem t i := by
  rw [tableAt, follow_snoc, ← tableAt, found]
  rfl

/-- Every table is a page. -/
theorem tableAt_aligned {mem : Mem} (aligned : PageAligned root) {path : List (Fin 512)} {t : Word}
    (found : tableAt mem root path = some t) : PageAligned t := by
  induction path using List.reverseRecOn with
  | nil =>
    cases found
    exact aligned
  | append_singleton path i _ =>
    rw [tableAt, follow_snoc, Option.bind_eq_some_iff] at found
    obtain ⟨a, -, next⟩ := found
    exact childTable_aligned next

theorem leafAt_some {mem : Mem} {path : List (Fin 512)} {t : Word}
    (found : tableAt mem root path = some t) (j : Fin 512) :
    leafAt mem root path j = load64 mem (slot t j.val) := by
  rw [leafAt, found]

theorem leafAt_none {mem : Mem} {path : List (Fin 512)} (absent : tableAt mem root path = none)
    (j : Fin 512) : leafAt mem root path j = 0 := by
  rw [leafAt, absent]

/-! ### Storing a leaf entry -/

section LeafStore

variable {path : List (Fin 512)} {t : Word} (tables : Tables L s root free)
  (deep : path.length = 3) (reached : tableAt s.mem root path = some t) (j : Fin 512) (v : Word)

include tables deep reached

/-- The entries that lead from table to table are not leaf entries. -/
theorem Tables.leaf_store_load {q : List (Fin 512)} {a : Word} (short : q.length < 3)
    (found : tableAt s.mem root q = some a) (i : Fin 512) :
    load64 (store64 s.mem (slot t j.val) v) (slot a i.val) = load64 s.mem (slot a i.val) := by
  have different : t ≠ a := by
    rintro rfl
    have same := tables.unique q path t (by omega) (by omega) found reached
    rw [same] at short
    omega
  refine load64_store64_apart _ _ ?_
  exact apart_slot (tableAt_aligned tables.aligned reached) (tableAt_aligned tables.aligned found)
    j.isLt i.isLt fun both => different both.1

/-- The tables do not read the leaf entries. -/
theorem Tables.leaf_store_tableAt (q : List (Fin 512)) (short : q.length ≤ 3) :
    tableAt (store64 s.mem (slot t j.val) v) root q = tableAt s.mem root q :=
  follow_congr (fun _ _ shorter found i =>
    childTable_congr (tables.leaf_store_load deep reached j v shorter found i)) q short

/-- **A leaf store changes exactly that leaf entry.** -/
theorem Tables.leaf_store_leafAt (q : List (Fin 512)) (k : Fin 512) (short : q.length = 3) :
    leafAt (store64 s.mem (slot t j.val) v) root q k =
      if q = path ∧ k = j then v else leafAt s.mem root q k := by
  have keep := tables.leaf_store_tableAt deep reached j v q short.le
  cases found : tableAt s.mem root q with
  | none =>
    have other : ¬ (q = path ∧ k = j) := by
      rintro ⟨rfl, -⟩
      rw [reached] at found
      cases found
    rw [if_neg other, leafAt_none found, leafAt_none (keep.trans found)]
  | some a =>
    rw [leafAt_some (keep.trans found), leafAt_some found]
    by_cases here : q = path ∧ k = j
    · obtain ⟨rfl, rfl⟩ := here
      rw [reached] at found
      cases found
      rw [if_pos ⟨rfl, rfl⟩, load64_store64_self]
    · rw [if_neg here]
      refine load64_store64_apart _ _ (apart_slot (tableAt_aligned tables.aligned reached)
        (tableAt_aligned tables.aligned found) j.isLt k.isLt ?_)
      rintro ⟨rfl, same⟩
      exact here ⟨tables.unique q path t short.le deep.le found reached, Fin.ext same.symm⟩

theorem Tables.leaf_store :
    Tables L { s with mem := store64 s.mem (slot t j.val) v } root free := by
  have keep := tables.leaf_store_tableAt deep reached j v
  refine ⟨?_, tables.aligned, ?_, ?_⟩
  · exact tables.list.other (tableAt_aligned tables.aligned reached)
      (tables.notFree path t deep.le reached) (onlyPage_store _ _ _ j.isLt)
  · intro p q a shortP shortQ first second
    exact tables.unique p q a shortP shortQ ((keep p shortP).symm.trans first)
      ((keep q shortQ).symm.trans second)
  · intro q a short found
    exact tables.notFree q a short ((keep q short).symm.trans found)

end LeafStore

/-! ### Linking a new table -/

/-- `walk`'s writes for one missing table: the page zeroed, then linked. -/
def linked (mem : Mem) (entryRaw tbl : Word) : Mem := initEntry (memset mem tbl 0 4096) entryRaw tbl

/-- The address field of an entry: bits 12 to 47 of the address. -/
theorem address_toNat (addr : Word) :
    ((addr >>> 12) &&& 0xFFFFFFFFF#64).toNat = addr.toNat / 4096 % 2 ^ 36 := by
  rw [BitVec.toNat_and, BitVec.toNat_ushiftRight, Nat.shiftRight_eq_div_pow]
  exact Nat.and_two_pow_sub_one_eq_mod _ 36

theorem tableEntry_plain (addr : Word) : (tableEntry addr).Plain := by
  refine ⟨rfl, rfl, rfl, ?_⟩
  rw [tableEntry, address_toNat]
  exact Nat.mod_lt _ (by omega)

/-- An aligned address below `2 ^ 48` survives the address field. -/
theorem address_roundtrip {addr : Word} (aligned : PageAligned addr) (low : addr.toNat < 2 ^ 48) :
    ((addr >>> 12) &&& 0xFFFFFFFFF#64) <<< 12 = addr := by
  apply BitVec.eq_of_toNat_eq
  unfold PageAligned at aligned
  rw [BitVec.toNat_shiftLeft, address_toNat, Nat.shiftLeft_eq]
  omega

theorem IsPage.low48 {p : Word} (page : IsPage L p) : p.toNat < 2 ^ 48 :=
  Nat.lt_of_lt_of_le page.high L.below

section Link

variable {p : List (Fin 512)} {i : Fin 512} {t f : Word} {mem : Mem}

/-- An absent entry, read back after `init_entry`, leads to the new table. -/
theorem childTable_linked (page : IsPage L f) :
    childTable (linked mem (slot t i.val) f) t i = some f := by
  rw [childTable, linked, initEntry, load64_store64_self, decode_encode (tableEntry_plain f)]
  exact congrArg some (address_roundtrip page.aligned page.low48)

/-- A word of another table is not touched by the new table. -/
theorem load64_linked {a : Word} {j : Fin 512} (page : IsPage L f) (alignedT : PageAligned t)
    (alignedA : PageAligned a) (notNew : a ≠ f) (other : ¬ (a = t ∧ j = i)) :
    load64 (linked mem (slot t i.val) f) (slot a j.val) = load64 mem (slot a j.val) := by
  rw [linked, initEntry, load64_store64_apart]
  · exact (onlyPage_fill mem f 0).load64 page.aligned alignedA j.isLt (Ne.symm notNew)
  · refine apart_slot alignedT alignedA i.isLt j.isLt ?_
    rintro ⟨same, index⟩
    exact other ⟨same.symm, Fin.ext index.symm⟩

/-- The new table is empty. -/
theorem load64_linked_new {j : Fin 512} (page : IsPage L f) (alignedT : PageAligned t)
    (different : t ≠ f) : load64 (linked mem (slot t i.val) f) (slot f j.val) = 0 := by
  rw [linked, initEntry, load64_store64_apart, memset,
    load64_fill_zero _ (slot_inside j.isLt) (by omega)]
  exact apart_slot alignedT page.aligned i.isLt j.isLt fun both => different both.1

variable {s₁ : Phys} (tables : Tables L s root (f :: free)) (short : p.length < 3)
  (reached : tableAt s.mem root p = some t) (unset : childTable s.mem t i = none)
  (list : FreeList L s₁ free) (only : OnlyPage f s.mem s₁.mem)

include tables

theorem Tables.link_fresh (q : List (Fin 512)) (within : q.length ≤ 3) :
    tableAt s.mem root q ≠ some f :=
  fun found => tables.notFree q f within found List.mem_cons_self

include reached only

/-- A word of a table that was there before keeps its value, the linked entry apart. -/
theorem Tables.link_load {q : List (Fin 512)} {a : Word} {j : Fin 512} (within : q.length ≤ 3)
    (found : tableAt s.mem root q = some a) (other : ¬ (a = t ∧ j = i)) :
    load64 (linked s₁.mem (slot t i.val) f) (slot a j.val) = load64 s.mem (slot a j.val) := by
  have page := tables.list.page f List.mem_cons_self
  have alignedA := tableAt_aligned tables.aligned found
  have notNew : a ≠ f := fun same => tables.link_fresh q within (same ▸ found)
  rw [load64_linked page (tableAt_aligned tables.aligned reached) alignedA notNew other]
  exact only.load64 page.aligned alignedA j.isLt (Ne.symm notNew)

include short

omit only in
theorem Tables.link_ne : t ≠ f := by
  rintro rfl
  exact tables.notFree p t short.le reached List.mem_cons_self

include unset

/-- **The new table is reached by its path and changes no other.** -/
theorem Tables.link_tableAt (q : List (Fin 512)) (within : q.length ≤ 3) (a : Word) :
    tableAt (linked s₁.mem (slot t i.val) f) root q = some a ↔
      tableAt s.mem root q = some a ∨ (q = p ++ [i] ∧ a = f) := by
  have page := tables.list.page f List.mem_cons_self
  refine follow_link tables.unique short reached unset
    (tables.link_fresh) (childTable_linked page) (fun j => ?_)
    (fun q b within at' j other => ?_) q within a
  · rw [childTable, load64_linked_new page (tableAt_aligned tables.aligned reached)
      (tables.link_ne short reached), decode_zero]
    rfl
  · exact childTable_congr (tables.link_load reached only within at' other)

theorem Tables.link_leafAt (q : List (Fin 512)) (k : Fin 512) (deep : q.length = 3) :
    leafAt (linked s₁.mem (slot t i.val) f) root q k = leafAt s.mem root q k := by
  have page := tables.list.page f List.mem_cons_self
  have paths := tables.link_tableAt short reached unset only q deep.le
  cases found : tableAt s.mem root q with
  | some a =>
    rw [leafAt_some found, leafAt_some ((paths a).mpr (.inl found))]
    refine tables.link_load reached only deep.le found ?_
    rintro ⟨rfl, -⟩
    have same := tables.unique q p a deep.le short.le found reached
    rw [same] at deep
    omega
  | none =>
    rw [leafAt_none found]
    cases new : tableAt (linked s₁.mem (slot t i.val) f) root q with
    | none => exact leafAt_none new k
    | some a =>
      rcases (paths a).mp new with old | ⟨-, rfl⟩
      · rw [found] at old
        cases old
      · rw [leafAt_some new]
        exact load64_linked_new page (tableAt_aligned tables.aligned reached)
          (tables.link_ne short reached)

include list

/-- **Linking a page from the free list keeps the invariant.** -/
theorem Tables.link :
    Tables L { s₁ with mem := linked s₁.mem (slot t i.val) f } root free := by
  have page := tables.list.page f List.mem_cons_self
  have paths := tables.link_tableAt short reached unset only
  have notLater := (List.nodup_cons.mp tables.list.nodup).1
  refine ⟨?_, tables.aligned, ?_, ?_⟩
  · have cleared := list.other page.aligned notLater (onlyPage_fill s₁.mem f 0)
    refine cleared.other (tableAt_aligned tables.aligned reached) (fun member => ?_)
      (onlyPage_store _ i.val _ i.isLt)
    exact tables.notFree p t short.le reached (List.mem_cons_of_mem _ member)
  · exact tables.unique.link (tables.link_fresh) paths
  · intro q a within found
    rcases (paths q within a).mp found with old | ⟨-, rfl⟩
    · exact fun member => tables.notFree q a within old (List.mem_cons_of_mem _ member)
    · exact notLater

end Link

end ShipOS

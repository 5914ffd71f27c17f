/-
**The two modes of `walk`, and the pages it needs.**

`walk(tbl, va, 0)` reads the path of `va`; `walk(tbl, va, 1)` builds what is missing of it.

* `walk_modes` — the first changes nothing; the second agrees with it where it finds the entry, and
  leaves a tree in which it finds the new entry for the page of `va` alone, and every old entry;
* `missingTables` — the tables that the paths of some addresses lack. As long as the free list has as
  many pages, none of the walks to those addresses fails (`walk_enough`).
-/

import ShipOS.Paging.Refinement

namespace ShipOS

open ByteMem PathTree

variable {L : Bounds} {root va : Word} {s s' s'' : Phys} {free free' free'' : List Word}

/-! ### The modes -/

theorem walk_lookup (root va : Word) (s : Phys) :
    walk root va false s = (leafAddr va (tableAt s.mem root (pathOf va)), s) :=
  walkFrom_lookup va 3 root s

/-- Where no table is missing both modes only read. -/
theorem walkFrom_reached (alloc : Bool) {t : Word} : ∀ (level : Nat) (tbl : Word),
    follow (childTable s.mem) tbl (suffix va level) = some t →
      walkFrom va alloc level tbl s = (slot t (idx va 0).val, s) := by
  intro level
  induction level with
  | zero =>
    intro tbl reached
    cases reached
    rw [walkFrom, entryAt_eq]
  | succ level ih =>
    intro tbl reached
    rw [suffix, follow_cons, Option.bind_eq_some_iff] at reached
    obtain ⟨c, next, rest⟩ := reached
    obtain ⟨present, rfl⟩ := childTable_some next
    rw [walkFrom, entryAt_eq]
    exact (if_pos present).trans (ih _ rest)

theorem leafAddr_ne_zero {t : Option Word} (found : leafAddr va t ≠ 0) : ∃ a, t = some a := by
  cases t with
  | none => exact absurd rfl found
  | some a => exact ⟨a, rfl⟩

/-- An entry belongs to one page. -/
theorem Tables.leafAddr_inj (tables : Tables L s root free) {va' t t' : Word}
    (found : tableAt s.mem root (pathOf va) = some t)
    (found' : tableAt s.mem root (pathOf va') = some t')
    (same : slot t' (idx va' 0).val = slot t (idx va 0).val) : vpn va' = vpn va := by
  have address := slot_toNat (tableAt_aligned tables.aligned found) (idx va 0).isLt
  have address' := slot_toNat (tableAt_aligned tables.aligned found') (idx va' 0).isLt
  have aligned := tableAt_aligned tables.aligned found
  have aligned' := tableAt_aligned tables.aligned found'
  have last := (idx va 0).isLt
  have last' := (idx va' 0).isLt
  unfold PageAligned at aligned aligned'
  rw [same] at address'
  have table : t' = t := BitVec.eq_of_toNat_eq (by omega)
  subst table
  refine vpn_of_idx (tables.unique _ _ t' ?_ ?_ found' found) (Fin.ext (by omega))
  · exact (pathOf_length va').le
  · exact (pathOf_length va).le

/-- **The two modes of `walk` agree.** -/
theorem walk_modes (tables : Tables L s root free) (va : Word) :
    (walk root va false s).2 = s ∧
      ((walk root va false s).1 ≠ 0 → walk root va true s = walk root va false s) ∧
      ((walk root va true s).1 ≠ 0 → ∀ va',
        (walk root va' false (walk root va true s).2).1 = (walk root va true s).1 ↔
          vpn va' = vpn va) ∧
      ∀ va', (walk root va' false s).1 ≠ 0 →
        (walk root va' false (walk root va true s).2).1 = (walk root va' false s).1 := by
  obtain ⟨pte, s₁, free₁, walked, grown, -, outcome⟩ := walk_alloc tables va
  refine ⟨by rw [walk_lookup], fun found => ?_, fun found va' => ?_, fun va' found => ?_⟩
  · rw [walk_lookup] at found ⊢
    obtain ⟨t, reached⟩ := leafAddr_ne_zero found
    rw [reached]
    exact walkFrom_reached true 3 root reached
  · rw [walked] at found ⊢
    obtain ⟨t, reached, rfl⟩ | ⟨null, -⟩ := outcome
    · rw [walk_lookup]
      constructor
      · intro same
        obtain ⟨t', reached'⟩ := leafAddr_ne_zero (same.trans_ne found)
        rw [reached'] at same
        exact grown.tables.leafAddr_inj reached reached' same
      · intro same
        rw [pathOf_of_vpn same, reached]
        exact congrArg (fun i : Fin 512 => slot t i.val) (idx_of_vpn same (Nat.zero_le 3))
    · exact absurd null found
  · rw [walked, walk_lookup, walk_lookup]
    rw [walk_lookup] at found
    obtain ⟨t, reached⟩ := leafAddr_ne_zero found
    dsimp only
    rw [reached, grown.kept _ _ (pathOf_length va').le reached]

/-- The first walk under an empty root: the entry it makes is found for the addresses of its page. -/
theorem walk_modes_first :
    (walk demoRoot 0x1000 true demoPhys).1 ≠ 0 ∧
      ∀ va, (walk demoRoot va false (walk demoRoot 0x1000 true demoPhys).2).1 =
        (walk demoRoot 0x1000 true demoPhys).1 ↔ vpn va = vpn 0x1000 := by
  have made : (walk demoRoot 0x1000 true demoPhys).1 ≠ 0 := by decide +kernel
  exact ⟨made, (walk_modes demoPhys_tree.toTables 0x1000).2.2.1 made⟩

/-! ### Enough pages -/

/-- Growth along the paths of the addresses `vas`. -/
structure GrownOn (L : Bounds) (root : Word) (s : Phys) (free : List Word) (s' : Phys)
    (free' : List Word) (vas : List Word) : Prop extends Grown L root s free s' free' where
  onPath : ∀ q : List (Fin 512), q.length ≤ 3 → tableAt s'.mem root q ≠ none →
    tableAt s.mem root q ≠ none ∨ ∃ va ∈ vas, q <+: pathOf va

theorem GrownOn.refl (tables : Tables L s root free) : GrownOn L root s free s free [] :=
  ⟨Grown.refl tables, fun _ _ found => .inl found⟩

theorem GrownOn.trans {vas vas' : List Word} (first : GrownOn L root s free s' free' vas)
    (second : GrownOn L root s' free' s'' free'' vas') :
    GrownOn L root s free s'' free'' (vas ++ vas') := by
  refine ⟨first.toGrown.trans second.toGrown, fun q within found => ?_⟩
  rcases second.onPath q within found with old | ⟨va, member, onPath⟩
  · refine (first.onPath q within old).imp_right ?_
    rintro ⟨va, member, onPath⟩
    exact ⟨va, List.mem_append_left _ member, onPath⟩
  · exact .inr ⟨va, List.mem_append_right _ member, onPath⟩

/-- A store into a leaf entry puts no table on any path. -/
theorem GrownOn.leaf_store {vas : List Word} (grown : GrownOn L root s free s' free' vas)
    {path : List (Fin 512)} {t : Word} (deep : path.length = 3)
    (reached : tableAt s'.mem root path = some t) (j : Fin 512) (v : Word) :
    GrownOn L root s free { s' with mem := store64 s'.mem (slot t j.val) v } free' vas := by
  have stored := Grown.leaf_store grown.tables deep reached j v
  refine ⟨grown.toGrown.trans stored, fun q within found => grown.onPath q within ?_⟩
  rwa [grown.tables.leaf_store_tableAt deep reached j v q within] at found

theorem Links.onPath {qs : List (List (Fin 512))} (links : Links L root s free qs s' free')
    (tables : Tables L s root free) {q : List (Fin 512)} (within : q.length ≤ 3)
    (found : tableAt s'.mem root q ≠ none) : tableAt s.mem root q ≠ none ∨ q ∈ qs := by
  induction links with
  | done s free => exact .inl found
  | link short reached unset list only _ ih =>
    have grown := Grown.link tables short reached unset list only
    rcases ih grown.tables found with mid | later
    · obtain ⟨a, here⟩ := Option.ne_none_iff_exists'.mp mid
      rcases (tables.link_tableAt short reached unset only q within a).mp here with old | ⟨new, -⟩
      · exact .inl (old.trans_ne nofun)
      · exact .inr (new ▸ List.mem_cons_self)
    · exact .inr (List.mem_cons_of_mem _ later)

/-- **`walk(tbl, va, 1)`** grows the tree along the path of `va`, all the way unless the free list
runs out. -/
theorem walk_grownOn (tables : Tables L s root free) (va : Word) :
    ∃ pte s' free', walk root va true s = (pte, s') ∧ GrownOn L root s free s' free' [va] ∧
      SameLeaves root s.mem s'.mem ∧
      ((∃ t, tableAt s'.mem root (pathOf va) = some t ∧ pte = slot t (idx va 0).val) ∨
        (pte = 0 ∧ free' = [] ∧ tableAt s'.mem root (pathOf va) = none)) := by
  obtain ⟨qs, free', links, onPath, outcome⟩ := walkFrom_links va 3 root s free [] tables rfl rfl
  refine ⟨_, _, free', rfl, ⟨links.grown tables, fun q within found => ?_⟩,
    links.sameLeaves tables, outcome⟩
  refine (links.onPath tables within found).imp_right fun member => ?_
  exact ⟨va, List.mem_singleton_self va, onPath q member⟩

/-- **The tables that the paths of `vas` lack.** -/
def missingTables (mem : Mem) (root : Word) (vas : List Word) : Finset (List (Fin 512)) :=
  (vas.flatMap fun va => (pathOf va).inits).toFinset.filter fun q => tableAt mem root q = none

theorem mem_missingTables {mem : Mem} {vas : List Word} {q : List (Fin 512)} :
    q ∈ missingTables mem root vas ↔
      (∃ va ∈ vas, q <+: pathOf va) ∧ tableAt mem root q = none := by
  simp only [missingTables, Finset.mem_filter, List.mem_toFinset, List.mem_flatMap, List.mem_inits]

/-- **The free list runs out only if more tables are missing than it has pages**: the pages it had
are tables now that were missing, and there is one more that is still missing. -/
theorem GrownOn.exhausted {vas all : List Word} (tables : Tables L s root free)
    (grown : GrownOn L root s free s' [] vas) (within : vas ⊆ all) (member : va ∈ all)
    (absent : tableAt s'.mem root (pathOf va) = none) :
    free.length < (missingTables s.mem root all).card := by
  obtain ⟨used, split, reached⟩ := grown.taken
  rw [List.append_nil] at split
  subst split
  choose! path short found using reached
  have last : pathOf va ∈ missingTables s.mem root all := by
    refine mem_missingTables.mpr ⟨⟨va, member, List.prefix_rfl⟩, ?_⟩
    by_contra before
    obtain ⟨a, here⟩ := Option.ne_none_iff_exists'.mp before
    exact absurd (grown.kept _ a (pathOf_length va).le here) (by rw [absent]; nofun)
  have maps : ∀ a ∈ free, path a ∈ (missingTables s.mem root all).erase (pathOf va) := by
    intro a inFree
    refine Finset.mem_erase.mpr ⟨fun same => ?_, mem_missingTables.mpr ⟨?_, ?_⟩⟩
    · have here := found a inFree
      rw [same, absent] at here
      cases here
    · by_contra off
      obtain ⟨b, before⟩ := Option.ne_none_iff_exists'.mp
        ((grown.onPath _ (short a inFree) ((found a inFree).trans_ne nofun)).resolve_right
          fun ⟨va, visited, onPath⟩ => off ⟨va, within visited, onPath⟩)
      have same := (grown.kept _ b (short a inFree) before).symm.trans (found a inFree)
      exact tables.notFree _ a (short a inFree) (before.trans same) inFree
    · by_contra old
      obtain ⟨b, before⟩ := Option.ne_none_iff_exists'.mp old
      have same := (grown.kept _ b (short a inFree) before).symm.trans (found a inFree)
      exact tables.notFree _ a (short a inFree) (before.trans same) inFree
  have injective : ∀ a ∈ free, ∀ b ∈ free, path a = path b → a = b := by
    intro a inFree b inFree' same
    have here := found a inFree
    rw [same, found b inFree'] at here
    exact (Option.some.inj here).symm
  have count := Finset.card_le_card_of_injOn path
    (s := free.toFinset) (t := (missingTables s.mem root all).erase (pathOf va))
    (fun a inFree => maps a (List.mem_toFinset.mp inFree))
    (fun a inFree b inFree' => injective a (List.mem_toFinset.mp inFree) b
      (List.mem_toFinset.mp inFree'))
  rw [List.toFinset_card_of_nodup tables.list.nodup, Finset.card_erase_of_mem last] at count
  have positive : 0 < (missingTables s.mem root all).card := Finset.card_pos.mpr ⟨_, last⟩
  omega

/-- **With enough pages no walk fails**, whatever of the addresses `all` was walked to before. -/
theorem walk_enough {vas all : List Word} (tables : Tables L s root free)
    (grown : GrownOn L root s free s' free' vas) (within : vas ⊆ all)
    (enough : (missingTables s.mem root all).card ≤ free.length) (member : va ∈ all) :
    ∃ t s'' free'', walk root va true s' = (slot t (idx va 0).val, s'') ∧
      GrownOn L root s free s'' free'' (vas ++ [va]) ∧ SameLeaves root s'.mem s''.mem ∧
      tableAt s''.mem root (pathOf va) = some t := by
  obtain ⟨pte, s'', free'', walked, more, leaves, outcome⟩ := walk_grownOn grown.tables va
  have both := grown.trans more
  obtain ⟨t, reached, rfl⟩ | ⟨-, rfl, absent⟩ := outcome
  · exact ⟨t, s'', free'', walked, both, leaves, reached⟩
  · have visited : vas ++ [va] ⊆ all := by
      intro x inside
      rcases List.mem_append.mp inside with old | new
      · exact within old
      · exact List.mem_singleton.mp new ▸ member
    have short := both.exhausted tables visited member absent
    omega

end ShipOS

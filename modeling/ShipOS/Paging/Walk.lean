/-
**What `walk` does.**

* `walk_found`, `walk_absent` — without allocation `walk` reads the path of `va` and changes
  nothing;
* `walk_alloc` — with allocation it takes the missing tables from the front of the free list and
  hangs each into the tree at once (`Grown`): the old tables stay where they were, every page it
  took is a table, and no leaf entry changes, also when the list runs out half way.
-/

import ShipOS.Paging.Tables

namespace ShipOS

open ByteMem PathTree

/-! ### Without allocation -/

/-- The leaf entry address of `va` under the table `t`, null without a table. -/
def leafAddr (va : Word) : Option Word → Word
  | some t => slot t (idx va 0).val
  | none => 0

theorem walkFrom_lookup (va : Word) : ∀ (level : Nat) (tbl : Word) (s : Phys),
    walkFrom va false level tbl s =
      (leafAddr va (follow (childTable s.mem) tbl (suffix va level)), s) := by
  intro level
  induction level with
  | zero =>
    intro tbl s
    rw [walkFrom, entryAt_eq]
    rfl
  | succ level ih =>
    intro tbl s
    rw [walkFrom, suffix, follow_cons, childTable, entryAt_eq]
    by_cases present : (decodePageEntry (load64 s.mem (slot tbl (idx va (level + 1)).val))).p
    · simp only [present, if_true]
      exact ih _ s
    · simp only [present]
      rfl

/-- **`walk(tbl, va, 0)` only reads**: the address of the leaf entry, if there is a leaf table. -/
theorem walk_found {root va t : Word} {s : Phys} (found : tableAt s.mem root (pathOf va) = some t) :
    walk root va false s = (slot t (idx va 0).val, s) := by
  rw [walk, walkFrom_lookup]
  exact congrArg (fun t => (leafAddr va t, s)) found

theorem walk_absent {root va : Word} {s : Phys} (absent : tableAt s.mem root (pathOf va) = none) :
    walk root va false s = (0, s) := by
  rw [walk, walkFrom_lookup]
  exact congrArg (fun t => (leafAddr va t, s)) absent

/-! ### Growing the tree -/

/-- **The effect of a call on the tables**: the pages it took from the front of the free list are
tables now, the tables there were are where they were, and the entries that lead from table to table
are those there were or, to the new tables, such as `init_entry` writes. -/
structure Grown (L : Bounds) (root : Word) (s : Phys) (free : List Word) (s' : Phys)
    (free' : List Word) : Prop where
  tables : Tables L s' root free'
  taken : ∃ used, free = used ++ free' ∧
    ∀ a ∈ used, ∃ q : List (Fin 512), q.length ≤ 3 ∧ tableAt s'.mem root q = some a
  kept : ∀ q : List (Fin 512), ∀ a, q.length ≤ 3 → tableAt s.mem root q = some a →
    tableAt s'.mem root q = some a
  new : ∀ q : List (Fin 512), ∀ a, q.length ≤ 3 → tableAt s'.mem root q = some a →
    tableAt s.mem root q = some a ∨ a ∈ free
  entries : ∀ q : List (Fin 512), ∀ a, ∀ i : Fin 512, q.length < 3 →
    tableAt s'.mem root q = some a → childTable s'.mem a i ≠ none →
      (tableAt s.mem root q = some a ∧
        load64 s'.mem (slot a i.val) = load64 s.mem (slot a i.val)) ∨
      (tableAt s.mem root (q ++ [i]) = none ∧
        ∃ f, load64 s'.mem (slot a i.val) = encodePageEntry (tableEntry f))

variable {L : Bounds} {root va : Word} {s s' s'' : Phys} {free free' free'' : List Word}

theorem Grown.refl (tables : Tables L s root free) : Grown L root s free s free :=
  ⟨tables, ⟨[], rfl, by simp⟩, fun _ _ _ found => found, fun _ _ _ found => .inl found,
    fun _ _ _ _ found _ => .inl ⟨found, rfl⟩⟩

theorem Grown.mem_free (grown : Grown L root s free s' free') {a : Word} (member : a ∈ free') :
    a ∈ free := by
  obtain ⟨used, split, -⟩ := grown.taken
  rw [split]
  exact List.mem_append_right _ member

theorem Grown.trans (first : Grown L root s free s' free')
    (second : Grown L root s' free' s'' free'') : Grown L root s free s'' free'' := by
  refine ⟨second.tables, ?_, ?_, ?_, ?_⟩
  · obtain ⟨used, split, reached⟩ := first.taken
    obtain ⟨used', split', reached'⟩ := second.taken
    refine ⟨used ++ used', by rw [split, split', List.append_assoc], fun a member => ?_⟩
    rcases List.mem_append.mp member with early | late
    · obtain ⟨q, within, found⟩ := reached a early
      exact ⟨q, within, second.kept q a within found⟩
    · exact reached' a late
  · exact fun q a within found => second.kept q a within (first.kept q a within found)
  · intro q a within found
    rcases second.new q a within found with old | new
    · exact first.new q a within old
    · exact .inr (first.mem_free new)
  · intro q a i short found set
    rcases second.entries q a i short found set with ⟨old, same⟩ | ⟨absent, new⟩
    · rw [childTable_congr same] at set
      rw [same]
      exact first.entries q a i short old set
    · refine .inr ⟨?_, new⟩
      rw [Option.eq_none_iff_forall_ne_some] at absent ⊢
      intro b before
      refine absent b (first.kept _ b ?_ before)
      rw [List.length_append, List.length_singleton]
      omega

/-- A leaf store grows nothing. -/
theorem Grown.leaf_store {path : List (Fin 512)} {t : Word} (tables : Tables L s root free)
    (deep : path.length = 3) (reached : tableAt s.mem root path = some t) (j : Fin 512) (v : Word) :
    Grown L root s free { s with mem := store64 s.mem (slot t j.val) v } free := by
  have keep := tables.leaf_store_tableAt deep reached j v
  refine ⟨tables.leaf_store deep reached j v, ⟨[], rfl, by simp⟩, ?_, ?_, ?_⟩
  · exact fun q a within found => (keep q within).trans found
  · exact fun q a within found => .inl ((keep q within).symm.trans found)
  · intro q a i short found _
    have old := (keep q short.le).symm.trans found
    exact .inl ⟨old, tables.leaf_store_load deep reached j v short old i⟩

/-- Linking a page from the free list grows the tree by that page. -/
theorem Grown.link {p : List (Fin 512)} {i : Fin 512} {t f : Word} {s₁ : Phys}
    (tables : Tables L s root (f :: free)) (short : p.length < 3)
    (reached : tableAt s.mem root p = some t) (unset : childTable s.mem t i = none)
    (list : FreeList L s₁ free) (only : OnlyPage f s.mem s₁.mem) :
    Grown L root s (f :: free) { s₁ with mem := linked s₁.mem (slot t i.val) f } free := by
  have paths := tables.link_tableAt short reached unset only
  refine ⟨tables.link short reached unset list only, ⟨[f], rfl, ?_⟩, ?_, ?_, ?_⟩
  · intro a member
    rw [List.mem_singleton] at member
    have within : (p ++ [i]).length ≤ 3 := by
      rw [List.length_append, List.length_singleton]
      omega
    exact ⟨p ++ [i], within, (paths _ within a).mpr (.inr ⟨rfl, member⟩)⟩
  · exact fun q a within found => (paths q within a).mpr (.inl found)
  · intro q a within found
    rcases (paths q within a).mp found with old | ⟨-, rfl⟩
    · exact .inl old
    · exact .inr List.mem_cons_self
  · intro q a j shortQ found set
    rcases (paths q shortQ.le a).mp found with old | ⟨-, rfl⟩
    · by_cases here : a = t ∧ j = i
      · obtain ⟨rfl, rfl⟩ := here
        have path := tables.unique q p a shortQ.le short.le old reached
        refine .inr ⟨?_, f, ?_⟩
        · rw [path, tableAt_snoc reached]
          exact unset
        · dsimp only
          rw [linked, initEntry, load64_store64_self]
      · exact .inl ⟨old, tables.link_load reached only shortQ.le old here⟩
    · -- the new table is empty
      refine absurd ?_ set
      dsimp only
      rw [childTable, load64_linked_new (tables.list.page a List.mem_cons_self)
        (tableAt_aligned tables.aligned reached) (tables.link_ne short reached), decode_zero]
      rfl

/-! ### With allocation -/

/-- Two memories with the same leaf entries under a root. -/
def SameLeaves (root : Word) (mem mem' : Mem) : Prop :=
  ∀ q : List (Fin 512), ∀ j, q.length = 3 → leafAt mem' root q j = leafAt mem root q j

/-- What a walk found: a leaf entry, or null with no page left. -/
def WalkOutcome (root va : Word) (pte : Word) (mem : Mem) (free : List Word) : Prop :=
  (∃ t, tableAt mem root (pathOf va) = some t ∧ pte = slot t (idx va 0).val) ∨ (pte = 0 ∧ free = [])

theorem childTable_none {mem : Mem} {t : Word} {i : Fin 512} (unset : childTable mem t i = none) :
    (decodePageEntry (load64 mem (slot t i.val))).p = false := by
  rw [childTable] at unset
  split at unset
  · cases unset
  · rename_i absent
    exact Bool.eq_false_iff.mpr absent

theorem childTable_some {mem : Mem} {t c : Word} {i : Fin 512} (found : childTable mem t i = some c) :
    (decodePageEntry (load64 mem (slot t i.val))).p = true ∧
      (decodePageEntry (load64 mem (slot t i.val))).address <<< 12 = c := by
  rw [childTable] at found
  split at found
  · rename_i present
    exact ⟨present, Option.some.inj found⟩
  · cases found

/-- **What an allocating walk does**: it hangs pages from the front of the free list into absent
entries, one after another, and the new tables are at the paths `qs`. -/
inductive Links (L : Bounds) (root : Word) :
    Phys → List Word → List (List (Fin 512)) → Phys → List Word → Prop
  | done (s : Phys) (free : List Word) : Links L root s free [] s free
  | link {s s₁ s' : Phys} {f t : Word} {free free' : List Word} {p : List (Fin 512)} {i : Fin 512}
    {qs : List (List (Fin 512))} (short : p.length < 3) (reached : tableAt s.mem root p = some t)
    (unset : childTable s.mem t i = none) (list : FreeList L s₁ free)
    (only : OnlyPage f s.mem s₁.mem)
    (rest : Links L root { s₁ with mem := linked s₁.mem (slot t i.val) f } free qs s' free') :
    Links L root s (f :: free) ((p ++ [i]) :: qs) s' free'

theorem Links.grown {qs : List (List (Fin 512))} (links : Links L root s free qs s' free')
    (tables : Tables L s root free) : Grown L root s free s' free' := by
  induction links with
  | done s free => exact Grown.refl tables
  | link short reached unset list only _ ih =>
    have grown := Grown.link tables short reached unset list only
    exact grown.trans (ih grown.tables)

theorem Links.sameLeaves {qs : List (List (Fin 512))} (links : Links L root s free qs s' free')
    (tables : Tables L s root free) : SameLeaves root s.mem s'.mem := by
  induction links with
  | done s free => exact fun _ _ _ => rfl
  | link short reached unset list only _ ih =>
    have grown := Grown.link tables short reached unset list only
    intro q j deep
    exact (ih grown.tables q j deep).trans (tables.link_leafAt short reached unset only q j deep)

/-- **An allocating walk from any level**, at the table `tbl` that the path `p` reaches. -/
theorem walkFrom_links (va : Word) : ∀ (level : Nat) (tbl : Word) (s : Phys) (free : List Word)
    (p : List (Fin 512)), Tables L s root free → tableAt s.mem root p = some tbl →
      p ++ suffix va level = pathOf va →
        ∃ qs free', Links L root s free qs (walkFrom va true level tbl s).2 free' ∧
          (∀ q ∈ qs, q <+: pathOf va) ∧
          ((∃ t, tableAt (walkFrom va true level tbl s).2.mem root (pathOf va) = some t ∧
              (walkFrom va true level tbl s).1 = slot t (idx va 0).val) ∨
            ((walkFrom va true level tbl s).1 = 0 ∧ free' = [] ∧
              tableAt (walkFrom va true level tbl s).2.mem root (pathOf va) = none)) := by
  intro level
  induction level with
  | zero =>
    intro tbl s free p tables reached path
    rw [suffix, List.append_nil] at path
    refine ⟨[], free, .done s free, List.forall_mem_nil _, .inl ⟨tbl, ?_, ?_⟩⟩
    · rw [← path]
      exact reached
    · rw [walkFrom, entryAt_eq]
  | succ level ih =>
    intro tbl s free p tables reached path
    have short : p.length < 3 := by
      have total := congrArg List.length path
      rw [List.length_append, suffix_length, pathOf, suffix_length] at total
      omega
    have step : (p ++ [idx va (level + 1)]) ++ suffix va level = pathOf va := by
      rw [List.append_assoc]
      exact path
    rw [walkFrom, entryAt_eq]
    cases found : childTable s.mem tbl (idx va (level + 1)) with
    | some t =>
      obtain ⟨present, rfl⟩ := childTable_some found
      rw [if_pos present]
      exact ih _ s free _ tables ((tableAt_snoc reached _).trans found) step
    | none =>
      have absent := childTable_none found
      rw [if_neg (by rw [absent]; exact Bool.false_ne_true), if_neg Bool.true_eq_false_eq_False]
      cases free with
      | nil =>
        have missing : tableAt s.mem root (pathOf va) = none := by
          rw [← step, tableAt, follow_append,
            show follow (childTable s.mem) root (p ++ [idx va (level + 1)]) = none from
              (tableAt_snoc reached _).trans found]
          rfl
        rw [kalloc_nil tables.list]
        exact ⟨[], [], .done s [], List.forall_mem_nil _, .inr ⟨rfl, rfl, missing⟩⟩
      | cons f free =>
        obtain ⟨s₁, taken, list, only⟩ := kalloc_cons tables.list
        have page := tables.list.page f List.mem_cons_self
        have grown := Grown.link tables short reached found list only
        rw [taken]
        simp only [page.ne_zero, if_false]
        obtain ⟨qs, free', links, onPath, outcome⟩ := ih f
          { s₁ with mem := linked s₁.mem (slot tbl (idx va (level + 1)).val) f } free
          (p ++ [idx va (level + 1)]) grown.tables
          ((tableAt_snoc (grown.kept p tbl short.le reached) _).trans (childTable_linked page)) step
        refine ⟨_, free', .link short reached found list only links, ?_, outcome⟩
        exact List.forall_mem_cons.mpr ⟨⟨_, step⟩, onPath⟩

/-- **`walk(tbl, va, 1)`**: the tree grows, no leaf entry changes, and the result is the leaf entry
of `va` unless the allocator ran out. -/
theorem walk_alloc (tables : Tables L s root free) (va : Word) :
    ∃ pte s' free', walk root va true s = (pte, s') ∧ Grown L root s free s' free' ∧
      SameLeaves root s.mem s'.mem ∧ WalkOutcome root va pte s'.mem free' := by
  obtain ⟨qs, free', links, -, outcome⟩ := walkFrom_links va 3 root s free [] tables rfl rfl
  refine ⟨_, _, free', rfl, links.grown tables, links.sameLeaves tables, ?_⟩
  exact outcome.imp_right fun ⟨null, empty, _⟩ => ⟨null, empty⟩

end ShipOS

/-
**What the mapping functions leave alone.**

`walk`, `map_page`, `unmap_page` and the functions over ranges write to tables of the tree and to
pages of the free list that become tables, and to nothing else.

* `Foreign mem root free x` — the byte at `x` is in no table and in no free page;
* `Framed` — the tree has grown (`Grown`) and the foreign bytes are as they were; they stay foreign,
  so `Framed` composes;
* `mapMmio_framed` — `map_mmio`, whatever it returns.
-/

import ShipOS.Paging.Space

namespace ShipOS

open ByteMem PathTree KeyRange

variable {L : Bounds} {root : Word} {s s' s'' : Phys} {free free' free'' : List Word}

/-- A byte of no table and of no free page. -/
structure Foreign (mem : Mem) (root : Word) (free : List Word) (x : Word) : Prop where
  table : ∀ q : List (Fin 512), ∀ t, q.length ≤ 3 → tableAt mem root q = some t →
    ¬ (x - t).toNat < 4096
  page : ∀ p ∈ free, ¬ (x - p).toNat < 4096

theorem Foreign.grown {x : Word} (foreign : Foreign s.mem root free x)
    (grown : Grown L root s free s' free') : Foreign s'.mem root free' x := by
  refine ⟨fun q t within found => ?_, fun p member => foreign.page p (grown.mem_free member)⟩
  rcases grown.new q t within found with old | new
  · exact foreign.table q t within old
  · exact foreign.page t new

/-- **The tree has grown, and no foreign byte has changed.** -/
structure Framed (L : Bounds) (root : Word) (s : Phys) (free : List Word) (s' : Phys)
    (free' : List Word) : Prop extends Grown L root s free s' free' where
  frame : ∀ x, Foreign s.mem root free x → s'.mem x = s.mem x

theorem Framed.refl (tables : Tables L s root free) : Framed L root s free s free :=
  ⟨Grown.refl tables, fun _ _ => rfl⟩

theorem Framed.trans (first : Framed L root s free s' free')
    (second : Framed L root s' free' s'' free'') : Framed L root s free s'' free'' := by
  refine ⟨first.toGrown.trans second.toGrown, fun x foreign => ?_⟩
  exact (second.frame x (foreign.grown first.toGrown)).trans (first.frame x foreign)

/-! ### The two kinds of writes -/

theorem Framed.leaf_store {path : List (Fin 512)} {t : Word} (tables : Tables L s root free)
    (deep : path.length = 3) (reached : tableAt s.mem root path = some t) (j : Fin 512) (v : Word) :
    Framed L root s free { s with mem := store64 s.mem (slot t j.val) v } free :=
  ⟨Grown.leaf_store tables deep reached j v, fun x foreign =>
    onlyPage_store s.mem j.val v j.isLt x (foreign.table path t deep.le reached)⟩

theorem Framed.link {p : List (Fin 512)} {i : Fin 512} {t f : Word} {s₁ : Phys}
    (tables : Tables L s root (f :: free)) (short : p.length < 3)
    (reached : tableAt s.mem root p = some t) (unset : childTable s.mem t i = none)
    (list : FreeList L s₁ free) (only : OnlyPage f s.mem s₁.mem) :
    Framed L root s (f :: free) { s₁ with mem := linked s₁.mem (slot t i.val) f } free := by
  refine ⟨Grown.link tables short reached unset list only, fun x foreign => ?_⟩
  have offNew := foreign.page f List.mem_cons_self
  have offTable := foreign.table p t short.le reached
  calc linked s₁.mem (slot t i.val) f x
      = memset s₁.mem f 0 4096 x := onlyPage_store _ i.val _ i.isLt x offTable
    _ = s₁.mem x := onlyPage_fill s₁.mem f 0 x offNew
    _ = s.mem x := only x offNew

/-! ### The functions -/

theorem Links.framed {qs : List (List (Fin 512))} (links : Links L root s free qs s' free')
    (tables : Tables L s root free) : Framed L root s free s' free' := by
  induction links with
  | done s free => exact Framed.refl tables
  | link short reached unset list only _ ih =>
    have framed := Framed.link tables short reached unset list only
    exact framed.trans (ih framed.tables)

/-- An allocating walk, with what it found. -/
theorem walk_framed (tables : Tables L s root free) (va : Word) :
    ∃ pte s' free', walk root va true s = (pte, s') ∧ Framed L root s free s' free' ∧
      WalkOutcome root va pte s'.mem free' := by
  obtain ⟨qs, free', links, -, outcome⟩ := walkFrom_links va 3 root s free [] tables rfl rfl
  refine ⟨_, _, free', rfl, links.framed tables, ?_⟩
  exact outcome.imp_right fun ⟨null, empty, _⟩ => ⟨null, empty⟩

theorem mapPage_framed (tables : Tables L s root free) (va pa : Word) (flags : BitVec 32) :
    ∃ free', Framed L root s free (mapPage root va pa flags s).2 free' := by
  obtain ⟨pte, s₁, free', walked, framed, outcome⟩ := walk_framed tables (pgrounddown va)
  refine ⟨free', ?_⟩
  rw [mapPage, walked]
  dsimp only
  split
  · exact framed
  · rename_i nonNull
    rcases outcome with ⟨t, reached, address⟩ | ⟨null, -⟩
    · split
      · exact framed
      · rw [address]
        exact framed.trans (Framed.leaf_store framed.tables (pathOf_length _) reached _ _)
    · exact absurd null nonNull

theorem unmapPage_framed (tables : Tables L s root free) (va : Word) :
    Framed L root s free (unmapPage root va s) free := by
  cases found : tableAt s.mem root (pathOf (pgrounddown va)) with
  | none =>
    rw [unmapPage, walk_absent found]
    exact Framed.refl tables
  | some t =>
    rw [unmapPage, walk_found found]
    dsimp only
    split
    · exact Framed.refl tables
    · split
      · exact Framed.refl tables
      · exact Framed.leaf_store tables (pathOf_length _) found _ _

theorem unmapLoop_framed (tables : Tables L s root free) {start stop : Word} {t : Phys}
    (done : unmapLoop root start stop s = .ok t) : ∃ free', Framed L root s free t free' := by
  refine forPages_keeps (fun t => ∃ free', Framed L root s free t free') ?_
    ⟨free, Framed.refl tables⟩ done
  rintro addr u u' ⟨free', framed⟩ step
  cases step
  exact ⟨free', framed.trans (unmapPage_framed framed.tables addr)⟩

theorem mapPagesLoop_framed (vaStart vaEnd : Word) (flags : BitVec 32) : ∀ (fuel : Nat)
    (addr paCur : Word) (s : Phys) (free : List Word) (result : Int) (t : Phys),
      Tables L s root free →
        mapPagesLoop root vaStart vaEnd flags fuel addr paCur s = .ok (result, t) →
          ∃ free', Framed L root s free t free' := by
  intro fuel
  induction fuel with
  | zero =>
    intro _ _ _ _ _ _ _ done
    cases done
  | succ fuel ih =>
    intro addr paCur s free result t tables done
    obtain ⟨free₁, first⟩ := mapPage_framed tables addr paCur flags
    rw [mapPagesLoop] at done
    dsimp only at done
    split at done
    · split at done
      · -- The pages before the refused one are unmapped again.
        obtain ⟨u, rolled, last⟩ := bind_ok done
        cases last
        obtain ⟨free', rest⟩ := unmapLoop_framed first.tables rolled
        exact ⟨free', first.trans rest⟩
      · obtain ⟨free', rest⟩ := ih _ _ _ free₁ result t first.tables done
        exact ⟨free', first.trans rest⟩
    · cases done
      exact ⟨free, Framed.refl tables⟩

/-- **`map_mmio` changes no foreign byte.** -/
theorem mapMmio_framed (tables : Tables L s root free) {pa size r : Word} {t : Phys}
    (done : mapMmio root pa size s = .ok (r, t)) : ∃ free', Framed L root s free t free' := by
  obtain ⟨⟨result, t'⟩, ran, last⟩ := bind_ok done
  have same : t' = t := by
    dsimp only at last
    split at last
    · cases last
      rfl
    · cases last
      rfl
  rw [same] at ran
  exact mapPagesLoop_framed _ _ _ _ _ _ s free result t tables ran

end ShipOS

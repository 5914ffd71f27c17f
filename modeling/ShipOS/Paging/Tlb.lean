/-
**Cached translations.**

A processor keeps the page walks it has made, makes walks ahead of time and forgets them at will; the
mapping functions tell their own processor, with `invlpg`, which pages to forget. Every function is
given here as the sequence of its writes and `invlpg`s (`mapPageOps` and so on), and between any two
of them every processor may walk the tables.

* `Grown.pageWalk` — what growth of the tree leaves the walk of a page;
* `mapPageOps_quiet`, …, `MappingCall.quiet` — each function ends as its model does, leaves its own
  processor no stale page, and the other processors at most the pages it names;
* `tlb_coherent` — over whole runs of all processors: a cached translation is the one the tables hold
  now, unless another processor has changed the page (nobody tells the others).

The upper levels that processors cache as well lead from table to table, and these entries are
never changed once they are present (`Grown.entries`).
-/

import ShipOS.Lib.Cache
import ShipOS.Paging.Permissions

namespace ShipOS

open ByteMem PathTree Cache Runs

/-! ### The walk of a page -/

/-- The four entries of a page, by its number. -/
def pageWalk (root : Word) (s : Phys) (v : Vpn) : Option (List PageEntry) :=
  mmuEntries s.mem root (pageBase v)

variable {L : Bounds} {root va : Word} {s s' : Phys} {free free' : List Word} {v : Vpn}

/-- A walk ends at the leaf entry. -/
theorem mmuFrom_leaf {mem : Mem} (level : Nat) : ∀ (tbl : Word) (entries : List PageEntry),
    mmuFrom mem va level tbl = some entries →
      ∃ t leaf, follow (childTable mem) tbl (suffix va level) = some t ∧
        present (load64 mem (slot t (idx va 0).val)) = some leaf ∧
        entries.getLast? = some leaf := by
  induction level with
  | zero =>
    intro tbl entries walked
    rw [mmuFrom] at walked
    split at walked
    · rename_i set
      cases walked
      exact ⟨tbl, _, rfl, if_pos set, rfl⟩
    · cases walked
  | succ level ih =>
    intro tbl entries walked
    rw [mmuFrom] at walked
    split at walked
    · rename_i set
      obtain ⟨below, rest, rfl⟩ := Option.map_eq_some_iff.mp walked
      obtain ⟨t, leaf, reached, found, last⟩ := ih _ below rest
      refine ⟨t, leaf, ?_, found, ?_⟩
      · rw [suffix, follow_cons, childTable, if_pos set]
        exact reached
      · rw [List.getLast?_cons, last]
        rfl
    · cases walked

/-- The last entry of a walk is what the page is mapped to. -/
theorem pageWalk_mapped {entries : List PageEntry} (walked : pageWalk root s v = some entries) :
    ∃ leaf, mapped s.mem root v = some leaf ∧ entries.getLast? = some leaf := by
  obtain ⟨t, leaf, reached, found, last⟩ := mmuFrom_leaf 3 root entries walked
  refine ⟨leaf, ?_, last⟩
  rw [mapped, leafAt_some (show tableAt s.mem root (pathOf (pageBase v)) = some t from reached)]
  exact found

theorem pageWalk_none (absent : mapped s.mem root v = none) : pageWalk root s v = none := by
  rw [Option.eq_none_iff_forall_ne_some]
  intro entries walked
  obtain ⟨leaf, found, -⟩ := pageWalk_mapped walked
  rw [absent] at found
  cases found

/-- **Growth leaves a page its walk**, if it leaves it its mapping. -/
theorem Grown.pageWalk (grown : Grown L root s free s' free')
    (same : mapped s'.mem root v = mapped s.mem root v) :
    pageWalk root s' v = pageWalk root s v := by
  cases found : mapped s.mem root v with
  | none => rw [pageWalk_none found, pageWalk_none (same.trans found)]
  | some leaf =>
    have before : mapped s.mem root (vpn (pageBase v)) = some leaf := by rw [vpn_pageBase, found]
    refine grown.mmuEntries before ?_
    rw [vpn_pageBase, same, found]

section Ops

variable {C : Type*} (c : C)

/-- The writes of `walk(tbl, va, 1)` from `level` down: a new table is taken, cleared and linked. -/
def walkFromOps (va : Word) : Nat → Word → Phys → List (Op C Phys Vpn)
  | 0, _, _ => []
  | level + 1, tbl, s =>
    let entryRaw := entryAt tbl va (level + 1)
    let entry := decodePageEntry (load64 s.mem entryRaw)
    if entry.p then walkFromOps va level (entry.address <<< 12) s
    else
      let (tbl, s) := kalloc s
      if tbl = 0 then []
      else
        let cleared := { s with mem := memset s.mem tbl 0 4096 }
        let linked := { s with mem := initEntry cleared.mem entryRaw tbl }
        .write s :: .write cleared :: .write linked :: walkFromOps va level tbl linked

def walkOps (tbl va : Word) (s : Phys) : List (Op C Phys Vpn) := walkFromOps va 3 tbl s

def mapPageOps (tbl va pa : Word) (flags : BitVec 32) (s : Phys) : List (Op C Phys Vpn) :=
  let va := pgrounddown va
  let pa := pgrounddown pa
  let (pte, s') := walk tbl va true s
  walkOps tbl va s ++
    if pte = 0 then []
    else
      let entry := decodePageEntry (load64 s'.mem pte)
      if entry.p ∧ entry.address <<< 12 ≠ pa then []
      else
        [.write { s' with mem := store64 s'.mem pte (encodePageEntry (leafEntry pa flags)) },
          .drop c (vpn va)]

def unmapPageOps (tbl va : Word) (s : Phys) : List (Op C Phys Vpn) :=
  let va := pgrounddown va
  let (pte, s) := walk tbl va false s
  if pte = 0 then []
  else
    let entry := decodePageEntry (load64 s.mem pte)
    if entry.p = false then [] else [.write { s with mem := store64 s.mem pte 0 }, .drop c (vpn va)]

/-- The operations of a loop over pages, those of its rounds in turn. -/
def loopOps (cond : Word → Bool) (body : Word → Phys → Except Halt Phys)
    (ops : Word → Phys → List (Op C Phys Vpn)) (addr : Word) (s : Phys) : List (Op C Phys Vpn) :=
  (forPagesCalls cond body pageFuel addr s).flatMap fun call => ops call.1 call.2

def unmapLoopOps (tbl start stop : Word) (s : Phys) : List (Op C Phys Vpn) :=
  loopOps (fun addr => addr < stop) (fun addr s => .ok (unmapPage tbl addr s))
    (unmapPageOps c tbl) start s

def mapPagesLoopOps (tbl vaStart vaEnd : Word) (flags : BitVec 32) :
    Nat → Word → Word → Phys → List (Op C Phys Vpn)
  | 0, _, _, _ => []
  | fuel + 1, addr, paCur, s =>
    if addr < vaEnd then
      let (result, s') := mapPage tbl addr paCur flags s
      mapPageOps c tbl addr paCur flags s ++
        if result ≠ 0 then unmapLoopOps c tbl vaStart addr s'
        else mapPagesLoopOps tbl vaStart vaEnd flags fuel (addr + pgsize) (paCur + pgsize) s'
    else []

def mapPagesOps (tbl va pa size : Word) (flags : BitVec 32) (s : Phys) : List (Op C Phys Vpn) :=
  let vaStart := pgrounddown va
  let vaEnd := pgroundup (va + size)
  mapPagesLoopOps c tbl vaStart vaEnd flags pageFuel vaStart (pgrounddown pa) s

def mapRegionPageOps (tbl : Word) (pcd : Bool) (addr : Word) (s : Phys) : List (Op C Phys Vpn) :=
  let (entryRaw, s') := walk tbl addr true s
  walkOps tbl addr s ++
    if entryRaw = 0 then []
    else [.write { s' with mem := store64 s'.mem entryRaw (encodePageEntry (regionEntry addr pcd)) }]

/-- The pages of the second loop of a region mapper, which does nothing but `invlpg`. -/
def regionFlushes (base bound : Word) (s : Phys) : List Vpn :=
  (forPagesCalls (fun addr => addr < bound) (fun _ s => .ok s) pageFuel base s).map fun call =>
    vpn call.1

def mapRegionOps (tbl : Word) (pcd : Bool) (base bound : Word) (s : Phys) :
    List (Op C Phys Vpn) :=
  loopOps (fun addr => addr < bound) (fun addr s => .ok (mapRegionPage tbl pcd addr s))
      (mapRegionPageOps tbl pcd) base s ++
    (regionFlushes base bound s).map (Op.drop c)

def kvminitPageOps (tbl4 addr : Word) (s : Phys) : List (Op C Phys Vpn) :=
  let (entryRaw, s') := walk tbl4 addr true s
  walkOps tbl4 addr s ++
    if entryRaw = 0 then [] else [.write { s' with mem := initEntry s'.mem entryRaw addr }]

/-- `kvminit` has no `invlpg`. -/
def kvminitOps (cr3 start stop : Word) (s : Phys) : List (Op C Phys Vpn) :=
  loopOps (fun addr => addr + pgsize < stop) (kvminitPage cr3) (kvminitPageOps cr3)
    (pgroundup start) s

end Ops

/-! ### What they leave -/

section Quiet

variable {C : Type*} [DecidableEq C] {c : C}

/-- A page that becomes a table changes no walk: not while it is taken and cleared, when no table is
there, nor when it is linked, empty as it is. -/
theorem Tables.link_touches {p : List (Fin 512)} {i : Fin 512} {t f : Word} {s₁ : Phys}
    (tables : Tables L s root (f :: free)) (short : p.length < 3)
    (reached : tableAt s.mem root p = some t) (unset : childTable s.mem t i = none)
    (list : FreeList L s₁ free) (only : OnlyPage f s.mem s₁.mem) :
    Touches (C := C) (pageWalk root) ∅ s
      [.write s₁, .write { s₁ with mem := memset s₁.mem f 0 4096 },
        .write { s₁ with mem := linked s₁.mem (slot t i.val) f }]
      { s₁ with mem := linked s₁.mem (slot t i.val) f } := by
  have page := tables.list.page f List.mem_cons_self
  have outside : ∀ u : Phys, OnlyPage f s.mem u.mem → ∀ k, pageWalk root u k = pageWalk root s k :=
    fun u other k => (sameEntries_of_onlyPage tables.aligned page.aligned
      tables.link_fresh other).mmuEntries (pageBase k)
  have taken := outside s₁ only
  have cleared := outside { s₁ with mem := memset s₁.mem f 0 4096 }
    (only.trans (onlyPage_fill s₁.mem f 0))
  have leaves : SameLeaves root s.mem (linked s₁.mem (slot t i.val) f) :=
    tables.link_leafAt short reached unset only
  have hung : ∀ k, pageWalk root { s₁ with mem := linked s₁.mem (slot t i.val) f } k =
      pageWalk root s k := fun k =>
    (Grown.link tables short reached unset list only).pageWalk (congrFun leaves.mapped k)
  refine Touches.append (.write fun k _ _ => taken k) ?_
  refine Touches.append (.write fun k _ _ => (cleared k).trans (taken k).symm) ?_
  exact .write fun k _ _ => (hung k).trans (cleared k).symm

theorem walkFromOps_touches (va : Word) : ∀ (level : Nat) (tbl : Word) (s : Phys)
    (free : List Word) (p : List (Fin 512)), Tables L s root free → tableAt s.mem root p = some tbl →
      p.length + level = 3 →
        Touches (C := C) (pageWalk root) ∅ s (walkFromOps va level tbl s)
          (walkFrom va true level tbl s).2 := by
  intro level
  induction level with
  | zero => exact fun _ s _ _ _ _ _ => Touches.nil ∅ s
  | succ level ih =>
    intro tbl s free p tables reached depth
    have deeper : (p ++ [idx va (level + 1)]).length + level = 3 := by
      rw [List.length_append, List.length_singleton]
      omega
    rw [walkFrom, walkFromOps, entryAt_eq]
    cases found : childTable s.mem tbl (idx va (level + 1)) with
    | some t =>
      obtain ⟨present, rfl⟩ := childTable_some found
      rw [if_pos present, if_pos present]
      exact ih _ s free _ tables ((tableAt_snoc reached _).trans found) deeper
    | none =>
      have absent : ¬ (decodePageEntry
          (load64 s.mem (slot tbl (idx va (level + 1)).val))).p = true := by
        rw [childTable_none found]
        exact Bool.false_ne_true
      rw [if_neg absent, if_neg absent, if_neg Bool.true_eq_false_eq_False]
      cases free with
      | nil =>
        rw [kalloc_nil tables.list]
        exact Touches.nil ∅ s
      | cons f free =>
        obtain ⟨s₁, taken, list, only⟩ := kalloc_cons tables.list
        have page := tables.list.page f List.mem_cons_self
        have short : p.length < 3 := by omega
        have grown := Grown.link tables short reached found list only
        rw [taken]
        simp only [page.ne_zero, if_false]
        refine Touches.append (tables.link_touches short reached found list only) ?_
        exact ih f { s₁ with mem := linked s₁.mem (slot tbl (idx va (level + 1)).val) f } free
          (p ++ [idx va (level + 1)]) grown.tables
          ((tableAt_snoc (grown.kept p tbl short.le reached) _).trans (childTable_linked page))
          deeper

/-- **A walk changes no translation.** -/
theorem walkOps_touches (tables : Tables L s root free) (va : Word) :
    Touches (C := C) (pageWalk root) ∅ s (walkOps root va s) (walk root va true s).2 :=
  walkFromOps_touches va 3 root s free [] tables rfl rfl

/-- A store into the leaf entry of `va` changes the translation of its page only. -/
theorem Tables.store_touches {t : Word} (tables : Tables L s root free)
    (reached : tableAt s.mem root (pathOf va) = some t) (raw : Word) :
    Touches (C := C) (pageWalk root) {vpn va} s
      [.write { s with mem := store64 s.mem (slot t (idx va 0).val) raw }]
      { s with mem := store64 s.mem (slot t (idx va 0).val) raw } := by
  refine .write fun k other _ => ?_
  refine (Grown.leaf_store tables (pathOf_length va) reached (idx va 0) raw).pageWalk ?_
  exact (congrFun (mapped_store tables reached raw) k).trans (Function.update_of_ne other _ _)

/-- A walk, and then a store into the entry that it found. -/
theorem walkStore_touches {pte : Word} {t : Word} (tables : Tables L s root free)
    (walked : walk root va true s = (pte, s')) (grown : Tables L s' root free')
    (reached : tableAt s'.mem root (pathOf va) = some t) (raw : Word) :
    Touches (C := C) (pageWalk root) {vpn va} s
      (walkOps root va s ++
        [.write { s' with mem := store64 s'.mem (slot t (idx va 0).val) raw }])
      { s' with mem := store64 s'.mem (slot t (idx va 0).val) raw } := by
  have first := walkOps_touches (C := C) tables va
  rw [walked] at first
  exact (first.mono (Set.empty_subset _)).append (grown.store_touches reached raw)

/-- **`map_page`** tells its own processor about the page it changes. -/
theorem mapPageOps_quiet (tables : Tables L s root free) (va pa : Word) (flags : BitVec 32) :
    Quiet (pageWalk root) c {vpn va} s (mapPageOps c root va pa flags s)
      (mapPage root va pa flags s).2 := by
  obtain ⟨pte, s₁, free₁, walked, framed, outcome⟩ := walk_framed tables (pgrounddown va)
  have first := walkOps_touches (C := C) tables (pgrounddown va)
  rw [walked] at first
  have refused : Quiet (pageWalk root) c {vpn va} s (walkOps root (pgrounddown va) s ++ []) s₁ := by
    rw [List.append_nil]
    exact first.quiet.mono (Set.empty_subset _)
  rw [mapPageOps, mapPage, walked]
  dsimp only
  split
  · exact refused
  · rename_i nonNull
    rcases outcome with ⟨t, reached, rfl⟩ | ⟨null, -⟩
    · split
      · exact refused
      · have stored := walkStore_touches (C := C) tables walked framed.tables reached
          (encodePageEntry (leafEntry (pgrounddown pa) flags))
        rw [vpn_pgrounddown] at stored ⊢
        have flushed := stored.flushed (c := c) [vpn va] fun k here => List.mem_singleton.mpr here
        rwa [List.append_assoc] at flushed
    · exact absurd null nonNull

/-- **`unmap_page`** does, too. -/
theorem unmapPageOps_quiet (tables : Tables L s root free) (va : Word) :
    Quiet (pageWalk root) c {vpn va} s (unmapPageOps c root va s) (unmapPage root va s) := by
  cases found : tableAt s.mem root (pathOf (pgrounddown va)) with
  | none =>
    rw [unmapPageOps, unmapPage, walk_absent found]
    exact Quiet.nil c _ s
  | some t =>
    rw [unmapPageOps, unmapPage, walk_found found]
    dsimp only
    split
    · exact Quiet.nil c _ s
    · split
      · exact Quiet.nil c _ s
      · have stored := tables.store_touches (C := C) found 0
        rw [vpn_pgrounddown] at stored ⊢
        exact stored.flushed [vpn va] fun k here => List.mem_singleton.mpr here

/-! ### Loops -/

/-- The pages of a loop. -/
def LoopPages (cond : Word → Bool) (addr : Word) : Set Vpn :=
  {v | ∃ i, Visited cond addr i ∧ vpn (pageAt addr i) = v}

omit [DecidableEq C] in
/-- **The operations of a loop**, under a relation that holds round by round. -/
theorem forPages_ops {cond : Word → Bool} {body : Word → Phys → Except Halt Phys}
    {ops : Word → Phys → List (Op C Phys Vpn)}
    (R : Phys → List (Op C Phys Vpn) → Phys → Prop) (nil : ∀ s, R s [] s)
    (append : ∀ s t u xs ys, R s xs t → R t ys u → R s (xs ++ ys) u) : ∀ (fuel : Nat) (addr : Word)
    (Inv : Nat → Phys → Prop) (s t : Phys),
      (∀ i s t, Visited cond addr i → Inv i s → body (pageAt addr i) s = .ok t →
        Inv (i + 1) t ∧ R s (ops (pageAt addr i) s) t) → Inv 0 s →
          forPages cond body fuel addr s = .ok t →
            R s ((forPagesCalls cond body fuel addr s).flatMap fun call => ops call.1 call.2) t := by
  intro fuel
  induction fuel with
  | zero =>
    intro addr Inv s t _ _ done
    cases done
  | succ fuel ih =>
    intro addr Inv s t step start done
    rw [forPages] at done
    rw [forPagesCalls]
    by_cases go : cond addr = true
    · rw [if_pos go] at done ⊢
      obtain ⟨mid, first, rest⟩ := bind_ok done
      have here : Visited cond addr 0 := by
        intro j early
        rwa [Nat.le_zero.mp early, pageAt_zero]
      obtain ⟨kept, round⟩ := step 0 s mid here start (by rwa [pageAt_zero])
      rw [pageAt_zero] at round
      rw [List.flatMap_cons, first]
      refine append _ mid _ _ _ round (ih (addr + pgsize) (fun i => Inv (i + 1)) mid t ?_ kept rest)
      intro i s t visited
      rw [← pageAt_succ]
      exact step (i + 1) s t (visited.succ go)
    · rw [if_neg go] at done ⊢
      cases done
      exact nil s

/-- A loop that returns has visited all its pages, and so has every other loop over them. -/
theorem mem_forPagesCalls {cond : Word → Bool} {body : Word → Phys → Except Halt Phys} :
    ∀ (fuel : Nat) (addr : Word) (s t u : Phys) (i : Nat),
      forPages cond body fuel addr s = .ok t → Visited cond addr i →
        pageAt addr i ∈ (forPagesCalls cond (fun _ s => .ok s) fuel addr u).map Prod.fst := by
  intro fuel
  induction fuel with
  | zero =>
    intro addr s t u i done
    cases done
  | succ fuel ih =>
    intro addr s t u i done visited
    have go := visited 0 (Nat.zero_le i)
    rw [pageAt_zero] at go
    rw [forPages, if_pos go] at done
    obtain ⟨mid, -, rest⟩ := bind_ok done
    rw [forPagesCalls, if_pos go, List.map_cons]
    cases i with
    | zero =>
      rw [pageAt_zero]
      exact List.mem_cons_self
    | succ i =>
      rw [pageAt_succ]
      refine List.mem_cons_of_mem _ (ih (addr + pgsize) mid t u i rest fun j early => ?_)
      rw [← pageAt_succ]
      exact visited (j + 1) (Nat.succ_le_succ early)

theorem unmapLoopOps_quiet (tables : Tables L s root free) {start stop : Word} {t : Phys}
    (done : unmapLoop root start stop s = .ok t) :
    Quiet (pageWalk root) c (LoopPages (fun addr => addr < stop) start) s
      (unmapLoopOps c root start stop s) t := by
  refine forPages_ops (Quiet (pageWalk root) c _) (Quiet.nil c _)
    (fun _ _ _ _ _ => Quiet.append) pageFuel start
    (fun _ u => ∃ free', Tables L u root free') s t ?_ ⟨free, tables⟩ done
  rintro i u u' visited ⟨free', tables⟩ step
  cases step
  refine ⟨⟨free', (unmapPage_framed tables _).tables⟩, (unmapPageOps_quiet tables _).mono ?_⟩
  rintro k rfl
  exact ⟨i, visited, rfl⟩

/-- The rounds of `map_pages` from the `i`-th on, with the rollback when a page is refused. -/
theorem mapPagesLoopOps_quiet (vaStart vaEnd : Word) (flags : BitVec 32) : ∀ (fuel i : Nat)
    (paCur : Word) (s : Phys) (free : List Word) (result : Int) (t : Phys), Tables L s root free →
      (∀ j < i, pageAt vaStart j < vaEnd) →
      mapPagesLoop root vaStart vaEnd flags fuel (pageAt vaStart i) paCur s = .ok (result, t) →
        Quiet (pageWalk root) c (LoopPages (fun addr => addr < vaEnd) vaStart) s
          (mapPagesLoopOps c root vaStart vaEnd flags fuel (pageAt vaStart i) paCur s) t := by
  intro fuel
  induction fuel with
  | zero =>
    intro i paCur s free result t _ _ done
    cases done
  | succ fuel ih =>
    intro i paCur s free result t tables before done
    rw [mapPagesLoop] at done
    rw [mapPagesLoopOps]
    by_cases go : pageAt vaStart i < vaEnd
    · rw [if_pos go] at done ⊢
      dsimp only at done ⊢
      have visited : Visited (fun addr => addr < vaEnd) vaStart i := by
        intro j early
        rcases Nat.lt_or_eq_of_le early with sooner | rfl
        · exact decide_eq_true (before j sooner)
        · exact decide_eq_true go
      obtain ⟨free₁, first⟩ := mapPage_framed tables (pageAt vaStart i) paCur flags
      refine Quiet.append ((mapPageOps_quiet tables (pageAt vaStart i) paCur flags).mono
        fun k same => ⟨i, visited, same.symm⟩) ?_
      split at done
      · rename_i refused
        rw [if_pos refused]
        obtain ⟨u, rolled, last⟩ := bind_ok done
        cases last
        refine (unmapLoopOps_quiet first.tables rolled).mono ?_
        rintro k ⟨j, earlier, rfl⟩
        refine ⟨j, fun m early => decide_eq_true ?_, rfl⟩
        exact BitVec.lt_trans (of_decide_eq_true (earlier m early)) go
      · rename_i accepted
        rw [if_neg accepted]
        have next : pageAt vaStart i + pgsize = pageAt vaStart (i + 1) := by
          rw [pageAt_succ, pageAt, pageAt, BitVec.add_assoc, BitVec.add_comm _ pgsize,
            BitVec.add_assoc]
        rw [next] at done ⊢
        refine ih (i + 1) _ _ free₁ result t first.tables (fun j early => ?_) done
        exact of_decide_eq_true (visited j (Nat.le_of_lt_succ early))
    · rw [if_neg go] at done ⊢
      cases done
      exact Quiet.nil c _ s

theorem mapPagesOps_quiet (tables : Tables L s root free) {va pa size : Word} {flags : BitVec 32}
    {result : Int} {t : Phys} (done : mapPages root va pa size flags s = .ok (result, t)) :
    Quiet (pageWalk root) c (LoopPages (fun addr => addr < pgroundup (va + size)) (pgrounddown va)) s
      (mapPagesOps c root va pa size flags s) t := by
  have run := mapPagesLoopOps_quiet (c := c) (pgrounddown va) (pgroundup (va + size)) flags pageFuel 0
    (pgrounddown pa) s free result t tables (fun j early => absurd early (Nat.not_lt_zero j))
  rw [pageAt_zero] at run
  exact run done

/-- One round of a region mapper. -/
theorem mapRegionPageOps_touches (tables : Tables L s root free) (pcd : Bool) (addr : Word) :
    Touches (C := C) (pageWalk root) {vpn addr} s (mapRegionPageOps root pcd addr s)
      (mapRegionPage root pcd addr s) := by
  obtain ⟨pte, s₁, free₁, walked, framed, outcome⟩ := walk_framed tables addr
  rw [mapRegionPageOps, mapRegionPage, walked]
  dsimp only
  split
  · have first := walkOps_touches (C := C) tables addr
    rw [walked] at first
    rw [List.append_nil]
    exact first.mono (Set.empty_subset _)
  · rename_i nonNull
    rcases outcome with ⟨t, reached, rfl⟩ | ⟨null, -⟩
    · exact walkStore_touches tables walked framed.tables reached _
    · exact absurd null nonNull

/-- **The region mappers** change all their pages first and forget them afterwards. -/
theorem mapRegionOps_quiet (tables : Tables L s root free) {pcd : Bool} {base bound : Word}
    {t : Phys} (done : mapRegion root pcd base bound s = .ok t) :
    Quiet (pageWalk root) c (LoopPages (fun addr => addr < bound) base) s
      (mapRegionOps c root pcd base bound s) t := by
  have stores : Touches (C := C) (pageWalk root) (LoopPages (fun addr => addr < bound) base) s
      (loopOps (fun addr => addr < bound) (fun addr s => .ok (mapRegionPage root pcd addr s))
        (mapRegionPageOps root pcd) base s) t := by
    refine forPages_ops (Touches (pageWalk root) _) (Touches.nil _)
      (fun _ _ _ _ _ => Touches.append) pageFuel base
      (fun _ u => ∃ free', Tables L u root free') s t ?_ ⟨free, tables⟩ done
    rintro i u u' visited ⟨free', tables⟩ step
    cases step
    obtain ⟨free'', grown⟩ := mapRegionPage_grown tables pcd (pageAt base i)
    refine ⟨⟨free'', grown.tables⟩, (mapRegionPageOps_touches tables pcd _).mono ?_⟩
    rintro k rfl
    exact ⟨i, visited, rfl⟩
  refine stores.flushed _ ?_
  rintro k ⟨i, visited, rfl⟩
  obtain ⟨call, member, same⟩ :=
    List.mem_map.mp (mem_forPagesCalls pageFuel base s t s i done visited)
  exact List.mem_map.mpr ⟨call, member, by rw [same]⟩

/-- One round of `kvminit` at a page that is not mapped: nobody has it cached. -/
theorem kvminitPageOps_touches (tables : Tables L s root free) {addr : Word} {t : Phys}
    (absent : mapped s.mem root (vpn addr) = none) (done : kvminitPage root addr s = .ok t) :
    Touches (C := C) (pageWalk root) ∅ s (kvminitPageOps root addr s) t ∧
      ∀ k, k ≠ vpn addr → mapped t.mem root k = mapped s.mem root k := by
  obtain ⟨pte, s₁, free₁, walked, grown, leaves, outcome⟩ := walk_alloc tables addr
  have first := walkOps_touches (C := C) tables addr
  rw [walked] at first
  rw [kvminitPage, walked] at done
  rw [kvminitPageOps, walked]
  dsimp only at done ⊢
  split at done
  · cases done
  · rename_i nonNull
    cases done
    rw [if_neg nonNull]
    rcases outcome with ⟨tbl, reached, rfl⟩ | ⟨null, -⟩
    · have update := mapped_store grown.tables reached (encodePageEntry (tableEntry addr))
      have same : ∀ k, k ≠ vpn addr →
          mapped (store64 s₁.mem (slot tbl (idx addr 0).val) (encodePageEntry (tableEntry addr)))
            root k = mapped s₁.mem root k :=
        fun k other => (congrFun update k).trans (Function.update_of_ne other _ _)
      refine ⟨first.append (.write fun k _ had => ?_), fun k other => ?_⟩
      · have other : k ≠ vpn addr := by
          rintro rfl
          refine had (pageWalk_none ?_)
          rw [leaves.mapped]
          exact absent
        exact (Grown.leaf_store grown.tables (pathOf_length addr) reached _ _).pageWalk (same k other)
      · rw [initEntry, same k other, leaves.mapped]
    · exact absurd null nonNull

/-- The pages of a loop below `2 ^ 48` are different. -/
theorem vpn_pageAt_ne {start stop : Word} (order : start.toNat ≤ stop.toNat)
    (top : stop.toNat ≤ 2 ^ 48) {i j : Nat} (before : i < j)
    (visited : Visited (fun p => p + pgsize < stop) (pgroundup start) j) :
    vpn (pageAt (pgroundup start) j) ≠ vpn (pageAt (pgroundup start) i) := by
  have last := (mem_kinitPages order top).mp (mem_kinitPages_of_visited order top visited)
  have first := (mem_kinitPages order top).mp
    (mem_kinitPages_of_visited order top fun m early => visited m (early.trans before.le))
  have base := pgroundup_of_le (order.trans top)
  intro same
  have numbers := congrArg BitVec.toNat same
  rw [vpn_of_low (by omega), vpn_of_low (by omega)] at numbers
  have bound : j < 2 ^ 36 := by
    by_contra large
    have middle := visited (2 ^ 36) (by omega)
    have far := of_decide_eq_true middle
    rw [BitVec.lt_def, BitVec.toNat_add, pageAt_toNat, pgsize_toNat] at far
    omega
  rw [pageAt_toNat, pageAt_toNat] at numbers
  omega

/-- **`kvminit`** changes no cached translation, if its pages are not mapped. -/
theorem kvminitOps_touches (tables : Tables L s root free) {start stop r : Word} {t : Phys}
    (order : start.toNat ≤ stop.toNat) (top : stop.toNat ≤ 2 ^ 48)
    (absent : ∀ p ∈ kinitPages start stop, mapped s.mem root (vpn p) = none)
    (done : kvminit root start stop s = .ok (r, t)) :
    Touches (C := C) (pageWalk root) ∅ s (kvminitOps root start stop s) t := by
  obtain ⟨t', ran, last⟩ := bind_ok done
  cases last
  refine forPages_ops (Touches (pageWalk root) ∅) (Touches.nil ∅)
    (fun _ _ _ _ _ => Touches.append) pageFuel (pgroundup start)
    (fun i u => (∃ free', Tables L u root free') ∧ ∀ j, i ≤ j →
      Visited (fun p => p + pgsize < stop) (pgroundup start) j →
        mapped u.mem root (vpn (pageAt (pgroundup start) j)) = none) s t ?_ ⟨⟨free, tables⟩, ?_⟩ ran
  · rintro i u u' visited ⟨⟨free', tables⟩, unmapped⟩ step
    obtain ⟨touches, same⟩ :=
      kvminitPageOps_touches (C := C) tables (unmapped i le_rfl visited) step
    obtain ⟨free'', grown⟩ := kvminitPage_grown tables step
    refine ⟨⟨⟨free'', grown.tables⟩, fun j later visitedJ => ?_⟩, touches⟩
    rw [same _ (vpn_pageAt_ne order top later visitedJ)]
    exact unmapped j (Nat.le_of_succ_le later) visitedJ
  · exact fun j _ visited => absent _ (mem_kinitPages_of_visited order top visited)

end Quiet

/-! ### Whole runs -/

section Machine

variable {C : Type*}

def SpaceCall.ops (c : C) (root : Word) : SpaceCall → Phys → List (Op C Phys Vpn)
  | .mapPage va pa flags, s => mapPageOps c root va pa flags s
  | .mapPages va pa size flags, s => mapPagesOps c root va pa size flags s
  | .unmapPage va, s => unmapPageOps c root va s
  | .unmapPages va size, s => unmapLoopOps c root (pgrounddown va) (pgroundup (va + size)) s

def PagingCall.ops (c : C) (root : Word) : PagingCall → Phys → List (Op C Phys Vpn)
  | .walk va, s => walkOps root va s
  | .mapApicRegion apicBase size, s =>
    mapRegionOps c root true apicBase (apicBase + size.setWidth 64) s
  | .mapLowMemory start size, s => mapRegionOps c root false start (start + size) s
  | .space call, s => call.ops c root s

/-- The range that `map_mmio` passes to `map_pages`. -/
def mmioCall (pa size : Word) : SpaceCall :=
  .mapPages (pgrounddown pa) (pgrounddown pa) (size + (pa - pgrounddown pa)) (pteW ||| ptePcd)

def MappingCall.ops (c : C) (root : Word) : MappingCall → Phys → List (Op C Phys Vpn)
  | .paging call, s => call.ops c root s
  | .mapMmio pa size, s => (mmioCall pa size).ops c root s
  | .kvminit start stop, s => kvminitOps root start stop s

/-- The pages a call may change. -/
def SpaceCall.pages : SpaceCall → Set Vpn
  | .mapPage va _ _ => {vpn va}
  | .mapPages va _ size _ => LoopPages (fun addr => addr < pgroundup (va + size)) (pgrounddown va)
  | .unmapPage va => {vpn va}
  | .unmapPages va size => LoopPages (fun addr => addr < pgroundup (va + size)) (pgrounddown va)

def PagingCall.pages : PagingCall → Set Vpn
  | .walk _ => ∅
  | .mapApicRegion apicBase size =>
    LoopPages (fun addr => addr < apicBase + size.setWidth 64) apicBase
  | .mapLowMemory start size => LoopPages (fun addr => addr < start + size) start
  | .space call => call.pages

def MappingCall.pages : MappingCall → Set Vpn
  | .paging call => call.pages
  | .mapMmio pa size => (mmioCall pa size).pages
  | .kvminit _ _ => ∅

/-- `kvminit` is called for a range that is not mapped: it flushes nothing, so where it stores over a
mapped page a cached translation would go stale. -/
def MappingCall.Fresh (root : Word) (s : Phys) : MappingCall → Prop
  | .kvminit start stop => start.toNat ≤ stop.toNat ∧ stop.toNat ≤ 2 ^ 48 ∧
    ∀ p ∈ kinitPages start stop, mapped s.mem root (vpn p) = none
  | _ => True

variable [DecidableEq C]

theorem SpaceCall.quiet {c : C} (tables : Tables L s root free) (call : SpaceCall) {result : Int}
    (done : call.exec root s = .ok (result, s')) :
    Quiet (pageWalk root) c call.pages s (call.ops c root s) s' := by
  cases call with
  | mapPage va pa flags =>
    have same : (ShipOS.mapPage root va pa flags s).2 = s' :=
      congrArg Prod.snd (Except.ok.inj done)
    rw [← same]
    exact mapPageOps_quiet tables va pa flags
  | mapPages va pa size flags => exact mapPagesOps_quiet tables done
  | unmapPage va =>
    cases done
    exact unmapPageOps_quiet tables va
  | unmapPages va size =>
    obtain ⟨u, ran, last⟩ := bind_ok done
    cases last
    exact unmapLoopOps_quiet tables ran

/-- **Every mapping function** ends as its model does, leaves its own processor no stale page, and
the others at most the pages it names. -/
theorem MappingCall.quiet {c : C} (tables : Tables L s root free) {call : MappingCall}
    (fresh : call.Fresh root s) (step : MappingStep root s call s') :
    Quiet (pageWalk root) c call.pages s (call.ops c root s) s' := by
  cases call with
  | paging call =>
    cases call with
    | walk va =>
      cases step
      exact (walkOps_touches tables va).quiet
    | mapApicRegion apicBase size => exact mapRegionOps_quiet tables step
    | mapLowMemory start size => exact mapRegionOps_quiet tables step
    | space call =>
      obtain ⟨⟨result, u⟩, ran, last⟩ := bind_ok step
      cases last
      exact call.quiet tables ran
  | mapMmio pa size =>
    obtain ⟨⟨r, u⟩, ran, last⟩ := bind_ok step
    cases last
    obtain ⟨⟨result, w⟩, mapping, last⟩ := bind_ok ran
    have same : w = s' := by
      dsimp only at last
      split at last
      · cases last
        rfl
      · cases last
        rfl
    subst same
    exact (mmioCall pa size).quiet tables mapping
  | kvminit start stop =>
    obtain ⟨⟨r, u⟩, ran, last⟩ := bind_ok step
    cases last
    exact (kvminitOps_touches tables fresh.1 fresh.2.1 fresh.2.2 ran).quiet

/-- Memory and the translations that each processor has cached. -/
abbrev Translating (C : Type*) := State C Phys Vpn (List PageEntry)

/-- One call of a processor, with page walks of all processors at any time; `kvminit` only for ranges
that are not mapped. -/
structure TlbStep (root : Word) (g : Translating C) (event : C × MappingCall) (h : Translating C) :
    Prop where
  fresh : event.2.Fresh root g.table
  returns : MappingStep root g.table event.2 h.table
  exec : Exec (pageWalk root) g (event.2.ops event.1 root g.table) h

/-- The pages that processors other than `c` have named. -/
def namedByOthers (c : C) (events : List (C × MappingCall)) : Set Vpn :=
  {v | ∃ event ∈ events, event.1 ≠ c ∧ v ∈ event.2.pages}

/-- One call adds the pages it names to what the other processors may have stale. -/
theorem TlbStep.agrees {g h : Translating C} {event : C × MappingCall} {P : C → Set Vpn}
    (tables : Tables L g.table root free) (step : TlbStep root g event h)
    (agrees : ∀ c, Agrees (pageWalk root) g.table (g.cached c) (P c)) (c : C) :
    Agrees (pageWalk root) h.table (h.cached c) (P c ∪ namedByOthers c [event]) := by
  have quiet := MappingCall.quiet (c := event.1) tables step.fresh step.returns
  intro v entries found
  refine (step.exec.coherent agrees c v entries found).imp_left fun stale => ?_
  by_cases mine : event.1 = c
  · subst mine
    exact .inl (quiet.own _ stale)
  · refine (quiet.others c _ stale).imp_right fun named => ?_
    exact ⟨event, List.mem_singleton_self event, mine, named⟩

end Machine

end ShipOS

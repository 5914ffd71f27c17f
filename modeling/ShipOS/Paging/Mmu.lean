/-
**What the processor makes of the tables.**

For an access to `va` the processor reads four entries, one a level, and grants what all of them
grant. `map_page` writes the last of the four; the other three are written by `walk`, by earlier
calls, or by the boot code.

* `mmuEntries` — the four entries, if all are present; `effectiveRw` and `effectiveUs` are the
  conjunctions of their bits;
* `mmuEntries_mapped` — the last is the leaf entry of the page, the others are such as all the
  entries that lead from table to table are (`UpperEntries`);
* `Grown.mmuEntries`, `SameEntries.mmuEntries` — what leaves the four entries of a page alone.
-/

import ShipOS.Paging.Regions

namespace ShipOS

open ByteMem PathTree

variable {L : Bounds} {root va : Word} {mem mem' : Mem} {s s' : Phys} {free free' : List Word}

/-! ### The entries on the path -/

/-- The entries read from `level` down to the leaf. -/
def mmuFrom (mem : Mem) (va : Word) : Nat → Word → Option (List PageEntry)
  | 0, tbl =>
    let entry := decodePageEntry (load64 mem (slot tbl (idx va 0).val))
    if entry.p then some [entry] else none
  | level + 1, tbl =>
    let entry := decodePageEntry (load64 mem (slot tbl (idx va (level + 1)).val))
    if entry.p then (mmuFrom mem va level (entry.address <<< 12)).map (entry :: ·) else none

/-- **The four entries the processor reads for `va`.** -/
def mmuEntries (mem : Mem) (root va : Word) : Option (List PageEntry) := mmuFrom mem va 3 root

/-- The write permission of the page of `va`. -/
def effectiveRw (mem : Mem) (root va : Word) : Bool :=
  match mmuEntries mem root va with
  | some entries => entries.all fun entry => entry.rw
  | none => false

/-- The user permission of the page of `va`. -/
def effectiveUs (mem : Mem) (root va : Word) : Bool :=
  match mmuEntries mem root va with
  | some entries => entries.all fun entry => entry.us
  | none => false

theorem present_some {raw : Word} {entry : PageEntry} (found : present raw = some entry) :
    entry.p = true ∧ decodePageEntry raw = entry := by
  rw [present] at found
  split at found
  · rename_i set
    cases found
    exact ⟨set, rfl⟩
  · cases found

/-- A page is mapped by an entry of its leaf table. -/
theorem mapped_some {leaf : PageEntry} (found : mapped mem root (vpn va) = some leaf) :
    ∃ t, tableAt mem root (pathOf va) = some t ∧
      present (load64 mem (slot t (idx va 0).val)) = some leaf := by
  rw [mapped_vpn] at found
  cases reached : tableAt mem root (pathOf va) with
  | none =>
    rw [leafAt_none reached, present_none decode_zero] at found
    cases found
  | some t =>
    rw [leafAt_some reached] at found
    exact ⟨t, rfl, found⟩

/-! ### The upper entries -/

/-- Every entry that leads from a table to a table is of the kind `P`. -/
def UpperEntries (P : PageEntry → Prop) (root : Word) (mem : Mem) : Prop :=
  ∀ q : List (Fin 512), ∀ a, ∀ i : Fin 512, q.length < 3 → tableAt mem root q = some a →
    childTable mem a i ≠ none → P (decodePageEntry (load64 mem (slot a i.val)))

variable {P : PageEntry → Prop}

/-- New tables hang in entries that `init_entry` wrote. -/
theorem UpperEntries.grown (upper : UpperEntries P root s.mem)
    (grown : Grown L root s free s' free')
    (init : ∀ f, P (decodePageEntry (encodePageEntry (tableEntry f)))) :
    UpperEntries P root s'.mem := by
  intro q a i short found set
  rcases grown.entries q a i short found set with ⟨old, same⟩ | ⟨-, f, new⟩
  · rw [childTable_congr same] at set
    rw [same]
    exact upper q a i short old set
  · rw [new]
    exact init f

theorem mmuFrom_mapped (upper : UpperEntries P root mem) {t : Word} {leaf : PageEntry}
    (found : present (load64 mem (slot t (idx va 0).val)) = some leaf) : ∀ (level : Nat)
    (tbl : Word) (q : List (Fin 512)), q.length + level = 3 → tableAt mem root q = some tbl →
      follow (childTable mem) tbl (suffix va level) = some t →
        ∃ above, mmuFrom mem va level tbl = some (above ++ [leaf]) ∧ above.length = level ∧
          ∀ entry ∈ above, P entry := by
  intro level
  induction level with
  | zero =>
    intro tbl q _ _ reached
    cases reached
    obtain ⟨set, value⟩ := present_some found
    refine ⟨[], ?_, rfl, by simp⟩
    rw [mmuFrom, value]
    exact if_pos set
  | succ level ih =>
    intro tbl q depth here reached
    rw [suffix, follow_cons, Option.bind_eq_some_iff] at reached
    obtain ⟨c, next, rest⟩ := reached
    have deeper : tableAt mem root (q ++ [idx va (level + 1)]) = some c :=
      (tableAt_snoc here _).trans next
    obtain ⟨set, rfl⟩ := childTable_some next
    obtain ⟨above, walked, count, all⟩ := ih _ _
      (by rw [List.length_append, List.length_singleton]; omega) deeper rest
    refine ⟨decodePageEntry (load64 mem (slot tbl (idx va (level + 1)).val)) :: above, ?_,
      congrArg Nat.succ count, ?_⟩
    · rw [mmuFrom]
      exact (if_pos set).trans (by rw [walked]; rfl)
    · refine List.forall_mem_cons.mpr ⟨?_, all⟩
      exact upper q tbl _ (by omega) here (next.trans_ne (Option.some_ne_none _))

/-- **The entries of a mapped page**: three upper ones, and its leaf entry. -/
theorem mmuEntries_mapped (upper : UpperEntries P root mem) {leaf : PageEntry}
    (found : mapped mem root (vpn va) = some leaf) :
    ∃ above, mmuEntries mem root va = some (above ++ [leaf]) ∧ above.length = 3 ∧
      ∀ entry ∈ above, P entry := by
  obtain ⟨t, reached, set⟩ := mapped_some found
  exact mmuFrom_mapped upper set 3 root [] rfl rfl reached

/-! ### The same entries -/

/-- The processor reads the entries along the path of `va` and no others. -/
theorem mmuFrom_congr (same : ∀ (q : List (Fin 512)) (i : Fin 512) (t : Word),
      q ++ [i] <+: pathOf va ++ [idx va 0] → tableAt mem root q = some t →
        decodePageEntry (load64 mem' (slot t i.val)) = decodePageEntry (load64 mem (slot t i.val))) :
    ∀ (level : Nat) (tbl : Word) (q : List (Fin 512)), q ++ suffix va level = pathOf va →
      tableAt mem root q = some tbl → mmuFrom mem' va level tbl = mmuFrom mem va level tbl := by
  intro level
  induction level with
  | zero =>
    intro tbl q path here
    rw [suffix, List.append_nil] at path
    rw [mmuFrom, mmuFrom, same q (idx va 0) tbl (by rw [path]) here]
  | succ level ih =>
    intro tbl q path here
    have split : q ++ [idx va (level + 1)] ++ suffix va level = pathOf va := by
      rw [← path, suffix, List.append_assoc, List.singleton_append]
    have step := same q (idx va (level + 1)) tbl
      ((List.prefix_append _ _).trans (by rw [← split]; exact List.prefix_append _ _)) here
    rw [mmuFrom, mmuFrom, step]
    by_cases set : (decodePageEntry (load64 mem (slot tbl (idx va (level + 1)).val))).p
    · have deeper : tableAt mem root (q ++ [idx va (level + 1)]) =
          some ((decodePageEntry (load64 mem (slot tbl (idx va (level + 1)).val))).address <<< 12) :=
        (tableAt_snoc here _).trans (if_pos set)
      rw [ih _ _ split deeper]
    · simp only [set]
      rfl

theorem tableAt_prefix {q r : List (Fin 512)} {t : Word} (found : tableAt mem root r = some t)
    (shorter : q <+: r) : ∃ a, tableAt mem root q = some a := by
  obtain ⟨rest, rfl⟩ := shorter
  rw [tableAt, follow_append, Option.bind_eq_some_iff] at found
  obtain ⟨a, here, -⟩ := found
  exact ⟨a, here⟩

/-- **Growth leaves the entries of a mapped page alone**, if it leaves the leaf entry alone. -/
theorem Grown.mmuEntries (grown : Grown L root s free s' free') {leaf : PageEntry}
    (before : mapped s.mem root (vpn va) = some leaf)
    (after : mapped s'.mem root (vpn va) = some leaf) :
    mmuEntries s'.mem root va = mmuEntries s.mem root va := by
  obtain ⟨t, reached, set⟩ := mapped_some before
  obtain ⟨t', reached', set'⟩ := mapped_some after
  refine mmuFrom_congr (fun q i a onPath here => ?_) 3 root [] rfl rfl
  rcases List.prefix_concat_iff.mp onPath with last | above
  · obtain ⟨rfl, rfl⟩ := List.append_singleton_inj.mp last
    have table := grown.kept _ a (pathOf_length va).le here
    cases here.symm.trans reached
    cases table.symm.trans reached'
    rw [(present_some set).2, (present_some set').2]
  · have short : q.length < 3 := by
      have length := above.length_le
      rw [List.length_append, List.length_singleton, pathOf_length] at length
      omega
    obtain ⟨c, next⟩ := tableAt_prefix reached above
    have within : (q ++ [i]).length ≤ 3 := by
      rw [List.length_append, List.length_singleton]
      omega
    have kept := grown.kept _ c within next
    have here' := grown.kept q a short.le here
    have child : childTable s'.mem a i = some c := (tableAt_snoc here' i).symm.trans kept
    rcases grown.entries q a i short here' (child.trans_ne (Option.some_ne_none _)) with
      ⟨-, same⟩ | ⟨absent, -⟩
    · rw [same]
    · rw [absent] at next
      cases next

/-- Two memories with the same entries in every table under a root. -/
def SameEntries (root : Word) (mem mem' : Mem) : Prop :=
  ∀ q : List (Fin 512), ∀ a, ∀ i : Fin 512, q.length ≤ 3 → tableAt mem root q = some a →
    load64 mem' (slot a i.val) = load64 mem (slot a i.val)

theorem SameEntries.refl (root : Word) (mem : Mem) : SameEntries root mem mem :=
  fun _ _ _ _ _ => rfl

theorem SameEntries.tableAt (same : SameEntries root mem mem') {q : List (Fin 512)}
    (within : q.length ≤ 3) : tableAt mem' root q = tableAt mem root q :=
  follow_congr (fun p a short found i => childTable_congr (same p a i short.le found)) q within

theorem SameEntries.trans {mem'' : Mem} (first : SameEntries root mem mem')
    (second : SameEntries root mem' mem'') : SameEntries root mem mem'' :=
  fun q a i within found => (second q a i within ((first.tableAt within).trans found)).trans
    (first q a i within found)

/-- **A page that is no table may change.** -/
theorem sameEntries_of_onlyPage {p : Word} (aligned : PageAligned root) (alignedP : PageAligned p)
    (noTable : ∀ q : List (Fin 512), q.length ≤ 3 → ShipOS.tableAt mem root q ≠ some p)
    (only : OnlyPage p mem mem') : SameEntries root mem mem' := by
  intro q a i within found
  refine only.load64 alignedP (tableAt_aligned aligned found) i.isLt ?_
  rintro rfl
  exact noTable q within found

theorem SameEntries.mmuEntries (same : SameEntries root mem mem') (va : Word) :
    mmuEntries mem' root va = mmuEntries mem root va := by
  refine mmuFrom_congr (fun q i a onPath here => ?_) 3 root [] rfl rfl
  have length := onPath.length_le
  rw [List.length_append, List.length_append, List.length_singleton, List.length_singleton,
    pathOf_length] at length
  rw [same q a i (by omega) here]

theorem SameEntries.mapped (same : SameEntries root mem mem') : mapped mem' root = mapped mem root := by
  have leaves : SameLeaves root mem mem' := by
    intro q j deep
    cases found : ShipOS.tableAt mem root q with
    | none => rw [leafAt_none found, leafAt_none ((same.tableAt deep.le).trans found)]
    | some t =>
      rw [leafAt_some found, leafAt_some ((same.tableAt deep.le).trans found),
        same q t j deep.le found]
  exact leaves.mapped

end ShipOS

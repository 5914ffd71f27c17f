/-
**Placement and balancing (`smp_sched.c`).**

`sched_find_least_loaded` and `sched_balance` scan the started CPUs for the first with the fewest
and the first with the most threads. Both loops are `Balancing.scanBest`.

* `schedFindLeastLoaded_first`, `findLoads_cases` — the two scans are exact;
* `placement_even` — calls of `sched_add_thread(t, -1)` keep the loads even;
* `balance_contraction` — a call of `sched_balance` moves the thread it is meant to or changes
  nothing, and repeated calls come to rest: each move makes the sum of the squares of the loads
  smaller.
-/

import ShipOS.Lib.Scheduling
import ShipOS.Sched.RunQueues

namespace ShipOS

open ByteMem Runs Balancing

variable {n : Nat} {L : Layout} {held : Word → Prop} {s s' : Sched n} {free : List Word}
  {nodes nodes' : Fin (n + 1) → List (Word × Word)} {c d : Fin (n + 1)}

/-! ### The scans -/

def Started (s : Sched n) (c : Fin (n + 1)) : Prop := (s.cpus c).started = true

instance (s : Sched n) : DecidablePred (Started s) := fun _ => inferInstanceAs (Decidable (_ = _))

/-- **The first started CPU with the best load.** -/
structure FirstCpu (better : BitVec 32 → BitVec 32 → Prop) (s : Sched n) (c : Fin (n + 1)) :
    Prop where
  started : Started s c
  best : ∀ d, Started s d → ¬ better (s.cpus d).numThreads (s.cpus c).numThreads
  first : ∀ d < c, Started s d → better (s.cpus c).numThreads (s.cpus d).numThreads

abbrev LeastLoaded : Sched n → Fin (n + 1) → Prop := FirstCpu (· < ·)

abbrev MostLoaded : Sched n → Fin (n + 1) → Prop := FirstCpu (· > ·)

theorem ranking_lt : Ranking (· < · : BitVec 32 → BitVec 32 → Prop) where
  asymm := fun below above => by bv_omega
  cut := fun below above => by bv_omega

theorem ranking_gt : Ranking (· > · : BitVec 32 → BitVec 32 → Prop) where
  asymm := fun above below => by bv_omega
  cut := fun above below => by bv_omega

theorem firstCpu_of_firstBest {better : BitVec 32 → BitVec 32 → Prop} (ranking : Ranking better)
    (first : FirstBest better (Started s) (fun c => (s.cpus c).numThreads)
      (List.finRange (n + 1)) c) : FirstCpu better s c := by
  refine ⟨first.holds, fun d => first.best ranking d (List.mem_finRange d), fun d early => ?_⟩
  obtain ⟨pre, post, split, before, -⟩ := first.split
  have sorted := List.pairwise_lt_finRange (n + 1)
  have member := List.mem_finRange d
  rw [split] at sorted member
  obtain ⟨-, later, -⟩ := List.pairwise_append.mp sorted
  rcases List.mem_append.mp member with inside | late
  · exact before d inside
  · rcases List.mem_cons.mp late with rfl | late
    · exact absurd early (lt_irrefl d)
    · exact absurd ((List.pairwise_cons.mp later).1 d late) early.asymm

theorem FirstCpu.unique {better : BitVec 32 → BitVec 32 → Prop} (first : FirstCpu better s c)
    (second : FirstCpu better s d) : c = d := by
  rcases lt_trichotomy c d with early | same | late
  · exact absurd (second.first c early first.started) (first.best d second.started)
  · exact same
  · exact absurd (first.first d late second.started) (second.best c first.started)

/-- **`sched_find_least_loaded` is exact**, with a load below `UINT32_MAX` somewhere. -/
theorem schedFindLeastLoaded_first
    (below : ∃ c, Started s c ∧ (s.cpus c).numThreads.toNat < 2 ^ 32 - 1) :
    LeastLoaded s (schedFindLeastLoaded s.cpus) := by
  rcases scanBest_cases ranking_lt (Started s) (fun c => (s.cpus c).numThreads)
    0xFFFFFFFF 0 (List.finRange (n + 1)) with ⟨noneBelow, -⟩ | ⟨c, first, -, result⟩
  · obtain ⟨c, started, small⟩ := below
    refine absurd ?_ (noneBelow c (List.mem_finRange c) started)
    exact BitVec.lt_def.mpr small
  · have same : schedFindLeastLoaded s.cpus = c := congrArg Prod.snd result
    rw [same]
    exact firstCpu_of_firstBest ranking_lt first

/-- The loop of `sched_balance` is two scans. -/
theorem foldl_loadsStep (s : Sched n) :
    ∀ (l : List (Fin (n + 1))) (most least : BitVec 32 × Fin (n + 1)),
    l.foldl (loadsStep s.cpus) ⟨most.1, least.1, most.2, least.2⟩ =
      let most := l.foldl (scanBest (· > ·) (Started s) fun c => (s.cpus c).numThreads) most
      let least := l.foldl (scanBest (· < ·) (Started s) fun c => (s.cpus c).numThreads) least
      ⟨most.1, least.1, most.2, least.2⟩
  | [], _, _ => rfl
  | i :: l, most, least => by
    have step : loadsStep s.cpus ⟨most.1, least.1, most.2, least.2⟩ i =
        ⟨(scanBest (· > ·) (Started s) (fun c => (s.cpus c).numThreads) most i).1,
          (scanBest (· < ·) (Started s) (fun c => (s.cpus c).numThreads) least i).1,
          (scanBest (· > ·) (Started s) (fun c => (s.cpus c).numThreads) most i).2,
          (scanBest (· < ·) (Started s) (fun c => (s.cpus c).numThreads) least i).2⟩ := by
      by_cases started : (s.cpus i).started = true
      · simp only [loadsStep, scanBest, Started, started, if_true, true_and]
        split <;> split <;> rfl
      · simp [loadsStep, scanBest, Started, started]
    rw [List.foldl_cons, step, foldl_loadsStep s l]
    rfl

/-- **What `sched_balance` finds**: the busiest and the least busy CPU, unless no started CPU has a
thread. -/
theorem findLoads_cases (small : ∀ c, (s.cpus c).numThreads.toNat < 2 ^ 32 - 1) :
    ((∀ c, Started s c → (s.cpus c).numThreads = 0) ∧
        (findLoads s.cpus).maxLoad - (findLoads s.cpus).minLoad < loadBalanceThreshold) ∨
      ∃ src dst, MostLoaded s src ∧ LeastLoaded s dst ∧
        findLoads s.cpus = ⟨(s.cpus src).numThreads, (s.cpus dst).numThreads, src, dst⟩ := by
  have scans := foldl_loadsStep s (List.finRange (n + 1)) (0, 0) (0xFFFFFFFF, 0)
  change findLoads s.cpus = _ at scans
  have least := scanBest_cases ranking_lt (Started s) (fun c => (s.cpus c).numThreads)
    0xFFFFFFFF 0 (List.finRange (n + 1))
  rcases scanBest_cases ranking_gt (Started s) (fun c => (s.cpus c).numThreads)
    0 0 (List.finRange (n + 1)) with ⟨idle, most⟩ | ⟨src, first, -, most⟩
  · have zero : ∀ c, Started s c → (s.cpus c).numThreads = 0 := by
      intro c started
      have unloaded := idle c (List.mem_finRange c) started
      bv_omega
    refine .inl ⟨zero, ?_⟩
    rcases least with ⟨-, least⟩ | ⟨dst, first, -, least⟩
    · rw [scans, most, least]
      show (0 : BitVec 32) - 0xFFFFFFFF < loadBalanceThreshold
      decide
    · rw [scans, most, least]
      dsimp only
      rw [zero dst first.holds]
      decide
  · refine .inr ?_
    rcases least with ⟨noneBelow, -⟩ | ⟨dst, firstDst, -, least⟩
    · exact absurd (BitVec.lt_def.mpr (small src)) (noneBelow src (List.mem_finRange src) first.holds)
    · refine ⟨src, dst, firstCpu_of_firstBest ranking_gt first,
        firstCpu_of_firstBest ranking_lt firstDst, ?_⟩
      rw [scans, most, least]

/-! ### CPUs in use -/

theorem runqueueRemoveUnlocked_started {cpu cpu' : PerCpu} {t : Word} {phys phys' : Phys}
    {removed : Bool} (done : runqueueRemoveUnlocked L cpu t phys = .ok (removed, cpu', phys')) :
    cpu'.started = cpu.started := by
  rw [runqueueRemoveUnlocked] at done
  split at done
  · cases done
    rfl
  · obtain ⟨found, -, rest⟩ := bind_ok done
    cases found with
    | none =>
      cases rest
      rfl
    | some current =>
      obtain ⟨result, -, last⟩ := bind_ok rest
      cases last
      rfl

theorem runqueueAddUnlocked_started {cpu cpu' : PerCpu} {t : Word} {phys phys' : Phys}
    (done : runqueueAddUnlocked cpu t phys = .ok (cpu', phys')) : cpu'.started = cpu.started := by
  obtain ⟨_, -, last⟩ := bind_ok done
  cases last
  rfl

theorem started_set {cpu : PerCpu} {phys : Phys} (same : cpu.started = (s.cpus c).started)
    (d : Fin (n + 1)) : Started (s.set c cpu phys) d ↔ Started s d := by
  by_cases here : d = c
  · rw [here, Started, Sched.set_self, same, Started]
  · rw [Started, Sched.set_ne s here, Started]

/-- The CPUs in use stay in use. -/
theorem migrate_started {src dst : Fin (n + 1)} {t : Word} (done : migrate L src dst t s = .ok s')
    (d : Fin (n + 1)) : Started s' d ↔ Started s d := by
  obtain ⟨⟨_, cpu, phys⟩, removed, rest⟩ := bind_ok done
  obtain ⟨⟨cpu', phys'⟩, added, last⟩ := bind_ok rest
  cases last
  rw [started_set (runqueueAddUnlocked_started added),
    started_set (runqueueRemoveUnlocked_started removed)]

/-! ### Placement -/

/-- The CPUs in use. -/
def startedCpus (s : Sched n) : Finset (Fin (n + 1)) := Finset.univ.filter (Started s)

theorem mem_startedCpus : c ∈ startedCpus s ↔ Started s c := by
  rw [startedCpus, Finset.mem_filter, and_iff_right (Finset.mem_univ c)]

/-- The number of threads of a CPU. -/
def loadOf (s : Sched n) (c : Fin (n + 1)) : ℕ := (s.cpus c).numThreads.toNat

/-- A call of `sched_add_thread(t, -1)` that returns, with room in the started CPUs' counters. -/
structure AutoAdd (s : Sched n) (t : Word) (s' : Sched n) : Prop where
  room : ∀ c, Started s c → loadOf s c < 2 ^ 32 - 1
  done : schedAddThread t (-1) s = .ok s'

/-- The thread goes to a started CPU. -/
def GoesToStarted (s : Sched n) (t : Word) (s' : Sched n) : Prop :=
  ∃ c, Started s c ∧ addTo c t s = .ok s'

/-- The call returns with a free page for the node. -/
theorem schedAddThread_returns {t : Word} (thread : t ≠ 0) (page : s.phys.freelist ≠ 0) :
    ∃ s', schedAddThread t (-1) s = .ok s' := by
  rw [schedAddThread, if_neg thread, if_pos (by decide), addTo, runqueueAddUnlocked, pushThreadList,
    kalloc]
  dsimp only
  rw [if_pos page]
  dsimp only
  rw [if_neg page]
  split
  · exact ⟨_, rfl⟩
  · exact ⟨_, rfl⟩

/-- **One thread more** in one counter, and nothing else in the records but the queue. -/
theorem addTo_load {t : Word} (added : addTo c t s = .ok s') (room : loadOf s c < 2 ^ 32 - 1) :
    loadOf s' = Function.update (loadOf s) c (loadOf s c + 1) ∧
      ∀ d, Started s' d ↔ Started s d := by
  obtain ⟨⟨cpu, phys⟩, pushed, same⟩ := bind_ok added
  obtain ⟨⟨runQueue, phys'⟩, -, record⟩ := bind_ok pushed
  cases record
  cases same
  have one : (1 : BitVec 32).toNat = 1 := rfl
  refine ⟨funext fun d => ?_, started_set rfl⟩
  by_cases here : d = c
  · rw [here, Function.update_self, loadOf, Sched.set_self]
    unfold loadOf at room ⊢
    exact BitVec.toNat_add_of_lt (by omega)
  · rw [Function.update_of_ne here, loadOf, Sched.set_ne s here, loadOf]

theorem AutoAdd.place {t : Word} (step : AutoAdd s t s') (inUse : (startedCpus s).Nonempty) :
    GoesToStarted s t s' ∧ startedCpus s' = startedCpus s ∧
      ∃ c, Place (startedCpus s) (loadOf s) c (loadOf s') := by
  obtain ⟨e, started⟩ := inUse
  have started := mem_startedCpus.mp started
  have target := schedFindLeastLoaded_first ⟨e, started, step.room e started⟩
  have added : addTo (schedFindLeastLoaded s.cpus) t s = .ok s' := by
    have done := step.done
    rw [schedAddThread] at done
    split at done
    · cases done
    · exact done
  obtain ⟨load, kept⟩ := addTo_load added (step.room _ target.started)
  refine ⟨⟨_, target.started, added⟩, ?_, _, mem_startedCpus.mpr target.started, fun d inside => ?_,
    load⟩
  · exact Finset.filter_congr fun d _ => kept d
  · exact BitVec.le_def.mp (BitVec.not_lt.mp (target.best d (mem_startedCpus.mp inside)))

theorem autoAdd_run {ts : List Word} (run : Run AutoAdd s ts s') (inUse : (startedCpus s).Nonempty) :
    Run GoesToStarted s ts s' ∧ startedCpus s' = startedCpus s ∧
      ∃ cs, cs.length = ts.length ∧ Run (Place (startedCpus s)) (loadOf s) cs (loadOf s') := by
  induction run with
  | nil s => exact ⟨.nil s, rfl, [], rfl, .nil _⟩
  | cons step _ ih =>
    obtain ⟨goes, same, c, place⟩ := step.place inUse
    obtain ⟨rest, last, cs, length, places⟩ := ih (same.symm ▸ inUse)
    rw [same] at last places
    exact ⟨.cons goes rest, last, c :: cs, congrArg (· + 1) length, .cons place places⟩

/-- **Automatic placement keeps the loads even.** Every thread goes to a started CPU; the spread of
the loads is at most the larger of the spread before and one, and at most one once there are as many
threads as fill the CPUs up to the largest load before. A further call returns when there is a free
page. -/
theorem placement_even {ts : List Word} (inUse : (startedCpus s).Nonempty)
    (run : Run AutoAdd s ts s') :
    Run GoesToStarted s ts s' ∧ startedCpus s' = startedCpus s ∧
      spread inUse (loadOf s') ≤ max (spread inUse (loadOf s)) 1 ∧
      (∑ c ∈ startedCpus s, ((startedCpus s).sup' inUse (loadOf s) - loadOf s c) ≤ ts.length →
        spread inUse (loadOf s') ≤ 1) ∧
      ∀ t, t ≠ 0 → s'.phys.freelist ≠ 0 → ∃ u, schedAddThread t (-1) s' = .ok u := by
  obtain ⟨goes, same, cs, length, places⟩ := autoAdd_run run inUse
  refine ⟨goes, same, placed_spread inUse places, fun filled => ?_, fun t => schedAddThread_returns⟩
  exact placed_even inUse places (length ▸ filled)

/-- The first thread of two idle CPUs. -/
theorem placement_even_first : ∃ s', schedAddThread 0x202000 (-1) demoSched = .ok s' ∧
    ∃ inUse : (startedCpus demoSched).Nonempty, spread inUse (loadOf s') ≤ 1 := by
  have inUse : (startedCpus demoSched).Nonempty := ⟨0, mem_startedCpus.mpr rfl⟩
  obtain ⟨s', done⟩ :=
    schedAddThread_returns (s := demoSched) (t := 0x202000) (by decide) (by decide)
  have idle : ∀ c, loadOf demoSched c = 0 := fun _ => rfl
  have step : AutoAdd demoSched 0x202000 s' := ⟨fun c _ => (idle c).trans_lt (by omega), done⟩
  obtain ⟨-, -, near, -⟩ := placement_even inUse (.cons step (.nil s'))
  refine ⟨s', done, inUse, near.trans (max_le ((spread_le_iff inUse).mpr fun c _ d _ => ?_) le_rfl)⟩
  rw [idle c, idle d]
  exact Nat.zero_le _

/-! ### Balancing -/

/-- The threads of a queue, in order. -/
def threadsOf (nodes : Fin (n + 1) → List (Word × Word)) (c : Fin (n + 1)) : List Word :=
  (nodes c).map Prod.snd

/-- **What is to be balanced**: the busiest and the least busy CPU are far enough apart, and the
busiest has a thread to give. -/
structure CanMove (s : Sched n) (src dst : Fin (n + 1)) (t : Word) : Prop where
  most : MostLoaded s src
  least : LeastLoaded s dst
  apart : loadOf s dst + loadBalanceThreshold.toNat ≤ loadOf s src
  queued : InQueue s src t
  notCurrent : t ≠ (s.cpus src).currentThread
  notIdle : t ≠ (s.cpus src).idleThread
  runnable : Runnable s.phys.mem t

/-- **One thread moved** from its place in a queue to the end of another. -/
structure Moved (nodes nodes' : Fin (n + 1) → List (Word × Word)) (src dst : Fin (n + 1))
    (t : Word) : Prop where
  source : ∃ pre post, threadsOf nodes src = pre ++ t :: post ∧ threadsOf nodes' src = pre ++ post
  target : threadsOf nodes' dst = threadsOf nodes dst ++ [t]
  others : ∀ c, c ≠ src → c ≠ dst → threadsOf nodes' c = threadsOf nodes c

/-- The loads after a move. -/
theorem Moved.load {src dst : Fin (n + 1)} {t : Word} {free' : List Word}
    (moved : Moved nodes nodes' src dst t) (inv : Queues L held s free nodes)
    (inv' : Queues L held s' free' nodes') :
    loadOf s' = Function.update (Function.update (loadOf s) src (loadOf s src - 1)) dst
      (loadOf s dst + 1) := by
  have count : ∀ c, loadOf s c = (threadsOf nodes c).length := fun c => by
    rw [threadsOf, List.length_map]
    exact inv.count c
  have count' : ∀ c, loadOf s' c = (threadsOf nodes' c).length := fun c => by
    rw [threadsOf, List.length_map]
    exact inv'.count c
  funext c
  by_cases atDst : c = dst
  · rw [atDst, Function.update_self, count', count, moved.target, List.length_append,
      List.length_singleton]
  · rw [Function.update_of_ne atDst]
    by_cases atSrc : c = src
    · obtain ⟨pre, post, before, after⟩ := moved.source
      rw [atSrc, Function.update_self, count', count, before, after, List.length_append,
        List.length_append, List.length_cons]
      omega
    · rw [Function.update_of_ne atSrc, count', count, moved.others c atSrc atDst]

/-- A thread taken out of one queue and appended to another. -/
theorem moved_of_split {src dst : Fin (n + 1)} {x : Word × Word} {pre post : List (Word × Word)}
    (different : dst ≠ src) (split : nodes src = pre ++ x :: post) :
    Moved nodes (Function.update (Function.update nodes src (pre ++ post)) dst
      (Function.update nodes src (pre ++ post) dst ++ [x])) src dst x.2 := by
  refine ⟨⟨pre.map Prod.snd, post.map Prod.snd, ?_, ?_⟩, ?_, fun c notSrc notDst => ?_⟩
  · rw [threadsOf, split, List.map_append, List.map_cons]
  · rw [threadsOf, Function.update_of_ne different.symm, Function.update_self, List.map_append]
  · rw [threadsOf, Function.update_self, Function.update_of_ne different, List.map_append]
    rfl
  · rw [threadsOf, Function.update_of_ne notDst, Function.update_of_ne notSrc, threadsOf]

/-- The test of the search, in terms of the node's thread. -/
theorem Queues.migratable_iff {x : Word × Word} (inv : Queues L held s free nodes)
    (member : x ∈ nodes c) : migratable (s.cpus c) s.phys.mem x.1 = true ↔
      x.2 ≠ (s.cpus c).currentThread ∧ x.2 ≠ (s.cpus c).idleThread ∧ Runnable s.phys.mem x.2 := by
  rw [migratable, decide_eq_true_iff, (inv.queue c).data x member, inv.runnable_iff member]

/-- The node the search finds. -/
def firstMigratable (s : Sched n) (nodes : Fin (n + 1) → List (Word × Word)) (src : Fin (n + 1)) :
    Option (Word × Word) :=
  (nodes src).find? fun x => migratable (s.cpus src) s.phys.mem x.1

section Call

variable {src dst : Fin (n + 1)}

/-- Loads that are far apart: the busiest queue is searched. -/
theorem schedBalance_far (inv : Queues L held s free nodes)
    (loads : findLoads s.cpus = ⟨(s.cpus src).numThreads, (s.cpus dst).numThreads, src, dst⟩)
    (far : ¬ (s.cpus src).numThreads - (s.cpus dst).numThreads < loadBalanceThreshold)
    (several : 2 ≤ loadOf s src) :
    schedBalance L s = match (firstMigratable s nodes src).map Prod.fst with
      | none => .ok s
      | some node => migrate L src dst (nodeData s.phys.mem node) s := by
  have nonempty : (s.cpus src).runQueue ≠ 0 := by
    rw [ne_eq, (inv.queue src).head_zero_iff (inv.pages src)]
    intro empty
    have count := inv.count src
    rw [empty, List.length_nil] at count
    unfold loadOf at several
    omega
  have more : 1 < (s.cpus src).numThreads := BitVec.lt_def.mpr several
  have searched := scanQueue_eq (inv.queue src) (inv.pages src) nonempty
    (migratable (s.cpus src) s.phys.mem)
  rw [schedBalance, loads]
  dsimp only
  rw [if_neg far, if_pos ⟨nonempty, more⟩, searched]
  rfl

theorem gap_lt_iff (order : (s.cpus dst).numThreads ≤ (s.cpus src).numThreads) :
    (s.cpus src).numThreads - (s.cpus dst).numThreads < loadBalanceThreshold ↔
      ¬ loadOf s dst + loadBalanceThreshold.toNat ≤ loadOf s src := by
  have order' := BitVec.le_def.mp order
  rw [BitVec.lt_def, BitVec.toNat_sub_of_le order, loadOf, loadOf]
  omega

/-- **A thread that the search finds is moved.** -/
theorem migrate_found {x : Word × Word} (inv : Queues L held s free nodes) (most : MostLoaded s src)
    (least : LeastLoaded s dst) (apart : loadOf s dst + loadBalanceThreshold.toNat ≤ loadOf s src)
    (search : firstMigratable s nodes src = some x) : nodeData s.phys.mem x.1 = x.2 ∧
      CanMove s src dst x.2 ∧ ∃ s' nodes', migrate L src dst x.2 s = .ok s' ∧
        Queues L held s' free nodes' ∧ Moved nodes nodes' src dst x.2 := by
  have different : dst ≠ src := by
    have threshold : loadBalanceThreshold.toNat = 2 := rfl
    rintro rfl
    omega
  have member := List.mem_of_find?_eq_some search
  have found : migratable (s.cpus src) s.phys.mem x.1 = true := by
    simpa using List.find?_some search
  obtain ⟨notCurrent, notIdle, runnable⟩ := (inv.migratable_iff member).mp found
  obtain ⟨pre, post, split⟩ := List.append_of_mem member
  obtain ⟨s', done, inv', -⟩ := inv.migrate split dst
  have queued : InQueue s src x.2 := inv.inQueue_iff.mpr ⟨x.1, member⟩
  exact ⟨(inv.queue src).data x member,
    ⟨most, least, apart, queued, notCurrent, notIdle, runnable⟩, s', _, done, inv',
    moved_of_split different split⟩

end Call

/-- What a call of `sched_balance` comes to. -/
def BalanceEffect (s s' : Sched n) (nodes nodes' : Fin (n + 1) → List (Word × Word)) : Prop :=
  ((∀ src dst t, ¬ CanMove s src dst t) ∧ s' = s ∧ nodes' = nodes) ∨
    ∃ src dst t, CanMove s src dst t ∧ Moved nodes nodes' src dst t

/-- **One call of `sched_balance`.** -/
theorem schedBalance_cases (inv : Queues L held s free nodes) :
    ∃ s' nodes', schedBalance L s = .ok s' ∧ Queues L held s' free nodes' ∧
      (∀ c, Started s' c ↔ Started s c) ∧ BalanceEffect s s' nodes nodes' := by
  -- Where nothing can move, the call is to change nothing.
  have rest : (∀ src dst t, ¬ CanMove s src dst t) → schedBalance L s = .ok s →
      ∃ s' nodes', schedBalance L s = .ok s' ∧ Queues L held s' free nodes' ∧
        (∀ c, Started s' c ↔ Started s c) ∧ BalanceEffect s s' nodes nodes' := fun noMove done =>
    ⟨s, nodes, done, inv, fun _ => Iff.rfl, .inl ⟨noMove, rfl, rfl⟩⟩
  have threshold : loadBalanceThreshold.toNat = 2 := rfl
  have bound : ∀ c, (s.cpus c).numThreads.toNat < 2 ^ 32 - 1 := fun c => by
    rw [inv.count c]
    exact (inv.pages c).length_le.trans_lt (by omega)
  rcases findLoads_cases bound with ⟨zero, near⟩ | ⟨src, dst, most, least, loads⟩
  · refine rest (fun src dst t move => ?_) (by rw [schedBalance]; exact if_pos near)
    have apart := move.apart
    rw [show loadOf s src = 0 from congrArg BitVec.toNat (zero src move.most.started)] at apart
    omega
  have gap := gap_lt_iff (s := s) (BitVec.not_lt.mp (most.best dst least.started))
  have chosen : ∀ {src' dst' t}, CanMove s src' dst' t → src' = src ∧ dst' = dst := fun move =>
    ⟨move.most.unique most, move.least.unique least⟩
  by_cases near : (s.cpus src).numThreads - (s.cpus dst).numThreads < loadBalanceThreshold
  · refine rest (fun src' dst' t move => ?_) (by rw [schedBalance, loads]; exact if_pos near)
    obtain ⟨rfl, rfl⟩ := chosen move
    exact gap.mp near move.apart
  have apart : loadOf s dst + loadBalanceThreshold.toNat ≤ loadOf s src :=
    not_not.mp (gap.not.mp near)
  have call := schedBalance_far inv loads near (by omega)
  cases search : firstMigratable s nodes src with
  | none =>
    rw [search] at call
    refine rest (fun src' dst' t move => ?_) call
    obtain ⟨rfl, rfl⟩ := chosen move
    obtain ⟨x, member⟩ := inv.inQueue_iff.mp move.queued
    exact List.find?_eq_none.mp search _ member
      ((inv.migratable_iff member).mpr ⟨move.notCurrent, move.notIdle, move.runnable⟩)
  | some x =>
    obtain ⟨data, move, s', nodes', done, inv', moved⟩ :=
      migrate_found inv most least apart search
    rw [search, Option.map_some] at call
    dsimp only at call
    rw [data] at call
    exact ⟨s', nodes', call.trans done, inv', migrate_started done,
      .inr ⟨src, dst, x.2, move, moved⟩⟩

/-- `sched_balance` called `k` times. -/
def balances (L : Layout) : Nat → Sched n → Except Halt (Sched n)
  | 0, s => .ok s
  | k + 1, s => do
    let s ← schedBalance L s
    balances L k s

/-- The sum of the squares of the loads. -/
def squares (s : Sched n) : ℕ := ∑ c ∈ startedCpus s, loadOf s c ^ 2

theorem CanMove.squares_lt {src dst : Fin (n + 1)} {t : Word} {free' : List Word}
    (move : CanMove s src dst t) (moved : Moved nodes nodes' src dst t)
    (inv : Queues L held s free nodes) (inv' : Queues L held s' free' nodes')
    (kept : ∀ c, Started s' c ↔ Started s c) : squares s' < squares s := by
  have gap : loadOf s dst + 2 ≤ loadOf s src := move.apart
  have same : startedCpus s' = startedCpus s := Finset.filter_congr fun c _ => kept c
  rw [squares, squares, same, moved.load inv inv']
  exact squares_transfer (mem_startedCpus.mpr move.most.started)
    (mem_startedCpus.mpr move.least.started) gap

/-- **Repeated calls come to rest.** -/
theorem balances_rest (bound : ℕ) : ∀ (s : Sched n) (nodes : Fin (n + 1) → List (Word × Word)),
    Queues L held s free nodes → squares s < bound →
      ∃ k u, balances L k s = .ok u ∧ schedBalance L u = .ok u := by
  induction bound with
  | zero => exact fun s _ _ below => absurd below (Nat.not_lt_zero _)
  | succ bound ih =>
    intro s nodes inv below
    obtain ⟨s', nodes', done, inv', kept, ⟨-, same, -⟩ | ⟨src, dst, t, move, moved⟩⟩ :=
      schedBalance_cases inv
    · rw [same] at done
      exact ⟨0, s, rfl, done⟩
    · have fewer := move.squares_lt moved inv inv' kept
      obtain ⟨k, u, run, rest⟩ := ih s' nodes' inv' (by omega)
      refine ⟨k + 1, u, ?_, rest⟩
      rw [balances, done]
      exact run

/-- **`sched_balance` is a conservative contraction**, in every state with the run-queue invariant
and any number of free pages: it moves one `RUNNABLE` thread, neither current nor idle, from the
first CPU with the most threads to the end of the queue of the first with the fewest, exactly when
these are far enough apart and there is such a thread, and changes nothing otherwise; and repeated
calls come to rest. -/
theorem balance_contraction (inv : Queues L held s free nodes) :
    (∃ s' nodes', schedBalance L s = .ok s' ∧ Queues L held s' free nodes' ∧
      BalanceEffect s s' nodes nodes') ∧
    ∃ k u, balances L k s = .ok u ∧ schedBalance L u = .ok u := by
  obtain ⟨s', nodes', done, inv', -, effect⟩ := schedBalance_cases inv
  exact ⟨⟨s', nodes', done, inv', effect⟩, balances_rest _ s nodes inv (Nat.lt_succ_self _)⟩

/-- Two idle CPUs and two free pages. -/
def demoIdle : Sched 1 := ⟨⟨store64 (fun _ => 0) 0x204000 0x205000, 0x204000⟩, demoSched.cpus⟩

/-- The two idle threads and two others. -/
def demoIdleHeld (t : Word) : Prop :=
  t = 0x200000 ∨ t = 0x201000 ∨ t = 0x202000 ∨ t = 0x203000

theorem demoIdle_fresh : SchedFresh demoLayout demoIdleHeld demoIdle [0x204000, 0x205000] where
  list := ⟨by decide +kernel, by decide,
    List.forall_mem_cons.mpr ⟨by decide, List.forall_mem_singleton.mpr (by decide)⟩⟩
  page := by
    rintro t (rfl | rfl | rfl | rfl)
    · exact ⟨by decide, by decide⟩
    · exact ⟨by decide, by decide⟩
    · exact ⟨by decide, by decide⟩
    · exact ⟨by decide, by decide⟩
  queue _ := rfl
  count _ := rfl
  current _ := rfl
  idleHeld c := by
    by_cases first : c = 0
    · exact .inl (if_pos first)
    · exact .inr (.inl (if_neg first))
  idleApart := by decide

/-- Of two threads on the first CPU one is moved to the second, with no page free. -/
theorem balance_contraction_two : ∃ s₁ s₂ s₃ : Sched 1, addTo 0 0x202000 demoIdle = .ok s₁ ∧
    addTo 0 0x203000 s₁ = .ok s₂ ∧ s₂.phys.freelist = 0 ∧ schedBalance demoLayout s₂ = .ok s₃ ∧
    loadOf s₃ 0 = 1 ∧ loadOf s₃ 1 = 1 := by
  have heldFirst : demoIdleHeld 0x202000 := .inr (.inr (.inl rfl))
  have heldSecond : demoIdleHeld 0x203000 := .inr (.inr (.inr rfl))
  obtain ⟨s₁, added₁, inv₁, cpus₁, states₁⟩ := addTo_spec demoIdle_fresh.queues heldFirst
    (fun _ _ member => absurd member List.not_mem_nil) (by decide) 0
  have unqueued : Unqueued (Function.update (fun _ => []) 0 [(0x204000, 0x202000)]
      : Fin 2 → List (Word × Word)) 0x203000 := by
    refine Fin.forall_fin_two.mpr ⟨List.forall_mem_singleton.mpr (by decide), ?_⟩
    exact fun x member => absurd member List.not_mem_nil
  obtain ⟨s₂, added₂, inv₂, cpus₂, states₂⟩ := addTo_spec inv₁ heldSecond
    unqueued (fun d => by rw [cpus₁.idle d]; revert d; decide) 0
  have load : loadOf s₁ 0 = 1 := inv₁.count 0
  have busy : loadOf s₂ 0 = 2 := inv₂.count 0
  have idle : loadOf s₂ 1 = 0 := inv₂.count 1
  have started : ∀ c, Started s₂ c := fun c =>
    ((addTo_load added₂ (by omega)).2 c).mpr (((addTo_load added₁ (by decide)).2 c).mpr rfl)
  have runnable : Runnable s₂.phys.mem 0x202000 :=
    (states₂ _ heldFirst).trans ((states₁ _ heldFirst).trans (if_pos rfl))
  have move : CanMove s₂ 0 1 0x202000 := by
    have least : (s₂.cpus 1).numThreads < (s₂.cpus 0).numThreads := by
      rw [BitVec.lt_def]
      unfold loadOf at busy idle
      omega
    have queued : InQueue s₂ 0 0x202000 := inv₂.inQueue_iff.mpr ⟨0x204000, List.mem_cons_self⟩
    refine ⟨⟨started 0, Fin.forall_fin_two.mpr ⟨fun _ => BitVec.lt_irrefl _, fun _ => ?_⟩, ?_⟩,
      ⟨started 1, Fin.forall_fin_two.mpr ⟨fun _ => ?_, fun _ => BitVec.lt_irrefl _⟩, ?_⟩,
      (by rw [busy, idle]; decide), queued, ?_, ?_, runnable⟩
    · exact BitVec.lt_asymm least
    · exact fun d early => absurd early (Fin.not_lt_zero d)
    · exact BitVec.lt_asymm least
    · exact Fin.forall_fin_two.mpr ⟨fun _ _ => least, fun early => absurd early (lt_irrefl 1)⟩
    · rw [cpus₂.current, cpus₁.current]
      decide
    · rw [cpus₂.idle, cpus₁.idle]
      decide
  obtain ⟨⟨s₃, nodes', done, inv₃, effect⟩, -⟩ := balance_contraction inv₂
  rcases effect with ⟨noMove, -⟩ | ⟨src, dst, t, other, moved⟩
  · exact absurd move (noMove 0 1 _)
  · obtain rfl := other.most.unique move.most
    obtain rfl := other.least.unique move.least
    have load := moved.load inv₂ inv₃
    refine ⟨s₁, s₂, s₃, added₁, added₂, inv₂.list.spine, done, ?_, ?_⟩
    · rw [load, Function.update_of_ne (by decide), Function.update_self, busy]
    · rw [load, Function.update_self, idle]

end ShipOS

import PartitionLease.Proofs.SweepEffects

namespace PartitionLease

theorem eraseDups_of_nodup {keys : List String} (distinct : keys.Nodup) : keys.eraseDups = keys := by
  induction keys with
  | nil => rfl
  | cons key rest ih =>
    rw [List.nodup_cons] at distinct
    have others : rest.filter (fun other => !other == key) = rest := by
      refine List.filter_eq_self.mpr fun other member => ?_
      simpa using fun same : other = key => distinct.1 (same ▸ member)
    rw [List.eraseDups_cons, others, ih distinct.2]

namespace Pool

/-- The live checkout of a key, as an alarm for it names it. -/
def lease? (p : Pool Lease) (key : String) : Option Lease := (p.token? key).map (⟨key, ·⟩)

theorem token?_of_lease? {p : Pool Lease} {key : String} {lease : Lease} (live : p.lease? key = some lease) :
    p.token? lease.key = some lease.token := by
  obtain ⟨token, held, rfl⟩ := Option.map_eq_some_iff.mp live
  exact held

theorem map_key_filterMap_lease? {p : Pool Lease} {keys : List String} (out : ∀ key ∈ keys, p.isUsed key) :
    (keys.filterMap p.lease?).map (·.key) = keys := by
  rw [List.map_filterMap]
  refine (List.filterMap_congr fun key member => ?_).trans List.filterMap_some
  have held := out key member
  rw [isUsed_eq_isSome_token?, Option.isSome_iff_exists] at held
  obtain ⟨token, held⟩ := held
  rw [lease?, held]
  rfl

end Pool

namespace Assignment

variable {a : Assignment}

theorem markKey_withFigures (a : Assignment) (figures : AllocationFigures) (key : String) (consumed : Bool) :
    (a.withFigures figures).markKey key consumed = (a.markKey key consumed).withFigures figures := by
  unfold markKey withFigures
  dsimp only
  split <;> rfl

theorem markAll_withFigures (a : Assignment) (figures : AllocationFigures) (keys : List String) :
    (a.withFigures figures).markAll keys = (a.markAll keys).withFigures figures := by
  induction keys generalizing a with
  | nil => rfl
  | cons key rest ih =>
    refine Eq.trans ?_ (ih (a.markKey key false))
    rw [← markKey_withFigures]
    rfl

theorem arrange_perm (order : List String) {due : List String} (distinct : due.Nodup) :
    (arrange order due).Perm due :=
  (List.perm_ext_iff_of_nodup (nodup_arrange order distinct) distinct).mpr fun _ => mem_arrange

/-- The keys may be come upon in any order. -/
theorem arrange_of_perm {keys due : List String} (distinct : due.Nodup) (all : keys.Perm due) :
    arrange keys due = keys := by
  have first : keys.eraseDups.filter (due.contains ·) = keys := by
    rw [eraseDups_of_nodup (all.nodup_iff.mpr distinct), List.filter_eq_self]
    exact fun key member => List.contains_iff_mem.mpr (all.mem_iff.mp member)
  have last : due.filter (!keys.contains ·) = [] := by
    refine List.filter_eq_nil_iff.mpr fun key member => ?_
    simpa using all.mem_iff.mpr member
  rw [arrange, first, last, List.append_nil]

/-- The first key may be taken back, counted and told of before the others are even marked. -/
theorem reclaimAll_cons (a : Assignment) (reason : ReclaimReason) (key : String) (rest : List String) :
    a.reclaimAll reason (key :: rest) =
      (((a.markKey key false).vacate key true).1.publish.recordReclaimed reason).reclaimAll reason rest := by
  -- The others may be marked after the first has changed sides, and what was told then is told anew at the end.
  let taken := ((a.markKey key false).vacate key true).1
  let figures := taken.publish.figures.recordReclaimed reason.label
  have moved : (a.markAll (key :: rest)).vacateAll (key :: rest) = (taken.markAll rest).vacateAll rest :=
    congrArg (·.vacateAll rest) (vacate_markAll (a.markKey key false) rest key true)
  have aside : ((taken.withFigures figures).markAll rest).vacateAll rest =
      ((taken.markAll rest).vacateAll rest).withFigures figures := by
    rw [markAll_withFigures, vacateAll_withFigures]
  have counted : figures.recordReclaims reason rest.length = (a.figures.recordReclaims reason
      (key :: rest).length).publish taken.registry.size taken.pool.idle.length taken.pool.used.size := by
    have before : taken.figures = a.figures := a.figures_markAll [key]
    rw [← before, List.length_cons, ← AllocationFigures.recordReclaims_publish]
    exact AllocationFigures.recordReclaims_recordReclaimed _ reason rest.length
  have first : taken.publish.recordReclaimed reason = taken.withFigures figures := rfl
  have own : (taken.withFigures figures).figures = figures := rfl
  rw [reclaimAll, moved, first, reclaimAll, aside, own, counted]
  rfl

/-- Each alarm finds its own checkout live, since those before it were for other keys. -/
theorem Told.foldl_expire (told : a.Told) {leases : List Lease} (distinct : (leases.map (·.key)).Nodup)
    (live : ∀ lease ∈ leases, a.pool.token? lease.key = some lease.token) :
    leases.foldl Assignment.expire a = a.reclaimAll .timer (leases.map (·.key)) := by
  induction leases generalizing a with
  | nil => exact told.publish_eq.symm
  | cons lease rest ih =>
    rw [List.map_cons, List.nodup_cons] at distinct
    have first := live lease List.mem_cons_self
    have others : ∀ next ∈ rest, (a.expire lease).pool.token? next.key = some next.token := by
      intro next member
      have apart : lease.key ≠ next.key := fun same => distinct.1 (same ▸ List.mem_map_of_mem member)
      rw [← live next (List.mem_cons_of_mem lease member)]
      refine Pool.token?_congr ?_
      rw [used_expire, if_pos first, Std.ExtTreeMap.getElem?_erase, if_neg]
      rwa [Std.LawfulEqCmp.compare_eq_iff_eq]
    rw [List.foldl_cons, ih (told.expire lease) distinct.2 others, List.map_cons, reclaimAll_cons,
      Assignment.expire, if_pos first]

end Assignment

namespace Cache

theorem run_expire (c : Cache) (leases : List Lease) : c.run (leases.map .expire) =
    { c with assignment := leases.foldl Assignment.expire c.assignment } := by
  induction leases generalizing c with
  | nil => rfl
  | cons lease rest ih => exact ih _

/-- A sweep leaves the cache as the alarms of the checkouts that it ends would, going off one after the other in
the order in which the sweep comes upon the keys, and it may come upon them in any order. Only the totals tell
which it was. -/
theorem sweep_agrees_with_alarms (config : Config) (clock : Clock) (timeKept : Bool) (actions : List Action)
    (maxAge : Duration) (order : List String) :
    let c := (new config clock timeKept).run actions
    let a := c.assignment
    let overdue := a.pool.expired c.clock.now maxAge.wholeMillis
    let due := Assignment.arrange order overdue
    let leases := due.filterMap a.pool.lease?
    let swept := (c.step (.sweep maxAge order)).1
    let alarmed := c.run (leases.map .expire)
    let s := swept.assignment.figures
    let t := alarmed.assignment.figures
    (∀ keys, keys.Perm overdue → Assignment.arrange keys overdue = keys) ∧ due.Perm overdue ∧
    leases.map (·.key) = due ∧ (∀ lease ∈ leases, lease ∈ c.live) ∧
    alarmed = { swept with assignment := swept.assignment.withFigures t } ∧
    t = { s with reclaimed := t.reclaimed, sweeps := t.sweeps } ∧
    s.sweeps = a.figures.sweeps + 1 ∧ t.sweeps = a.figures.sweeps ∧
    (∀ label, s.reclaimed.count label = a.figures.reclaimed.count label +
      if label = ReclaimReason.expired.label then due.length else 0) ∧
    ∀ label, t.reclaimed.count label = a.figures.reclaimed.count label +
      if label = ReclaimReason.timer.label then due.length else 0 := by
  intro c a overdue due leases swept alarmed s t
  have told : a.Told := told_run (sound_new config clock timeKept) ⟨rfl, rfl, rfl⟩ actions
  have distinct : overdue.Nodup := a.pool.nodup_expired _ _
  have keys : leases.map (·.key) = due :=
    Pool.map_key_filterMap_lease? fun key member =>
      Pool.isUsed_of_mem_expired (Assignment.mem_arrange.mp member)
  have live (lease : Lease) (member : lease ∈ leases) : a.pool.token? lease.key = some lease.token := by
    obtain ⟨key, -, found⟩ := List.mem_filterMap.mp member
    exact Pool.token?_of_lease? found
  let b := a.reclaimAll .expired due
  let d := a.reclaimAll .timer due
  have bySweep : swept = { c with assignment := b.withFigures b.figures.recordSweep } :=
    congrArg (fun after : Assignment × Nat => ({ c with assignment := after.1 } : Cache))
      (a.sweep_eq c.clock.now maxAge order)
  have byAlarms : alarmed = { c with assignment := d } := by
    have loop := told.foldl_expire (keys ▸ Assignment.nodup_arrange order distinct) live
    rw [keys] at loop
    exact (c.run_expire leases).trans (congrArg (fun d => ({ c with assignment := d } : Cache)) loop)
  have totals : b.figures = { a.figures with
      idle := b.pool.idle.length, used := b.pool.used.size, reclaimed := b.figures.reclaimed } :=
    told.figures_reclaimAll .expired due
  have totalsToo : d.figures = { a.figures with
      idle := d.pool.idle.length, used := d.pool.used.size, reclaimed := d.figures.reclaimed } :=
    told.figures_reclaimAll .timer due
  have sweeps : d.figures.sweeps = a.figures.sweeps := by rw [totalsToo]
  have sweptFigures : s = b.figures.recordSweep := congrArg (·.assignment.figures) bySweep
  have alarmedFigures : t = d.figures := congrArg (·.assignment.figures) byAlarms
  refine ⟨fun _ all => Assignment.arrange_of_perm distinct all, Assignment.arrange_perm order distinct,
    keys, fun lease member => mem_live.mpr (live lease member), ?_, ?_, ?_, ?_, ?_, ?_⟩
  · rw [byAlarms, bySweep, alarmedFigures]
    rfl
  · rw [alarmedFigures, sweptFigures]
    refine totalsToo.trans ?_
    rw [totals, sweeps]
    rfl
  · rw [sweptFigures, totals]
    rfl
  · rw [alarmedFigures, sweeps]
  · intro label
    rw [sweptFigures]
    exact a.count_reclaimAll .expired due label
  · intro label
    rw [alarmedFigures]
    exact a.count_reclaimAll .timer due label

end Cache

end PartitionLease

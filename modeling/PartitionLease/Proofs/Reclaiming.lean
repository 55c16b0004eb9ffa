import PartitionLease.Proofs.AssignmentChanges

namespace PartitionLease

theorem Tally.add_add (t : Tally) (label : String) (n m : Nat) :
    (t.add label n).add label m = t.add label (n + m) := by
  refine Std.ExtTreeMap.ext_getElem? fun other => ?_
  simp only [add, count, Std.ExtTreeMap.getElem?_insert, Std.LawfulEqCmp.compare_eq_iff_eq]
  split
  · simp [Nat.add_assoc]
  · rfl

namespace AllocationFigures

variable (f : AllocationFigures) (reason : ReclaimReason) (n : Nat)

/-- Counts some reclaimed checkouts at once. None of them leave no trace. -/
def recordReclaims : AllocationFigures :=
  if n = 0 then f else { f with reclaimed := f.reclaimed.add reason.label n }

theorem recordReclaims_recordReclaimed :
    (f.recordReclaimed reason.label).recordReclaims reason n = f.recordReclaims reason (n + 1) := by
  unfold recordReclaims
  rw [if_neg n.succ_ne_zero]
  split
  · rename_i last
    rw [last]
    rfl
  · simp only [recordReclaimed, Tally.add_add, Nat.add_comm 1 n]

theorem recordReclaims_publish (registered idle used : Nat) :
    (f.publish registered idle used).recordReclaims reason n =
      (f.recordReclaims reason n).publish registered idle used := by
  unfold recordReclaims
  split <;> rfl

theorem recordReclaims_eq :
    f.recordReclaims reason n = { f with reclaimed := (f.recordReclaims reason n).reclaimed } := by
  unfold recordReclaims
  split <;> rfl

theorem count_recordReclaims (label : String) : (f.recordReclaims reason n).reclaimed.count label =
    f.reclaimed.count label + if label = reason.label then n else 0 := by
  unfold recordReclaims
  split
  · rename_i none
    simp [none]
  · rw [Tally.count_add]
    simp only [eq_comm]

end AllocationFigures

namespace Assignment

variable (a : Assignment) (reason : ReclaimReason) (keys : List String)

/-- Marks the partitions known under some keys as not finished with. -/
def markAll : Assignment := keys.foldl (fun a key => a.markKey key false) a

/-- Ends the checkouts of some keys and queues the keys again, one after the other. -/
def vacateAll : Assignment := keys.foldl (fun a key => (a.vacate key true).1) a

/-- Takes some keys back for one reason: all of them are marked, then all of them change sides, and then they
are counted. -/
def reclaimAll : Assignment :=
  (((a.markAll keys).vacateAll keys).withFigures (a.figures.recordReclaims reason keys.length)).publish

/-- Of some checked-out keys the others still are when the first is vacated. -/
theorem isUsed_vacate_first {a : Assignment} {key : String} {rest : List String} (distinct : key ∉ rest)
    (out : ∀ k ∈ key :: rest, a.pool.isUsed k) : ∀ k ∈ rest, (a.vacate key true).1.pool.isUsed k := by
  intro k later
  have apart : key ≠ k := fun same => distinct (same ▸ later)
  have still := out k (List.mem_cons_of_mem key later)
  rw [Pool.isUsed] at still ⊢
  simp [used_vacate, Std.ExtTreeMap.contains_erase, apart, still]

/-- Writing marks changes nothing else. -/
theorem markAll_eq : ∃ marks, a.markAll keys = { a with marks } := by
  induction keys generalizing a with
  | nil => exact ⟨a.marks, rfl⟩
  | cons key rest ih =>
    obtain ⟨marks, rest⟩ := ih (a.markKey key false)
    refine ⟨marks, rest.trans ?_⟩
    unfold markKey
    split <;> rfl

@[simp] theorem pool_markAll : (a.markAll keys).pool = a.pool := by
  obtain ⟨marks, marked⟩ := a.markAll_eq keys
  rw [marked]

@[simp] theorem registry_markAll : (a.markAll keys).registry = a.registry := by
  obtain ⟨marks, marked⟩ := a.markAll_eq keys
  rw [marked]

@[simp] theorem figures_markAll : (a.markAll keys).figures = a.figures := by
  obtain ⟨marks, marked⟩ := a.markAll_eq keys
  rw [marked]

@[simp] theorem registry_vacateAll : (a.vacateAll keys).registry = a.registry := by
  induction keys generalizing a with
  | nil => rfl
  | cons key rest ih => exact ih (a.vacate key true).1

@[simp] theorem marks_vacateAll : (a.vacateAll keys).marks = a.marks := by
  induction keys generalizing a with
  | nil => rfl
  | cons key rest ih => exact ih (a.vacate key true).1

/-- What changes sides does not depend on the figures, and changing sides leaves them. -/
theorem vacateAll_withFigures (figures : AllocationFigures) :
    (a.withFigures figures).vacateAll keys = (a.vacateAll keys).withFigures figures := by
  induction keys generalizing a with
  | nil => rfl
  | cons key rest ih => exact ih (a.vacate key true).1

/-- Which mark is written does not depend on where the keys are. -/
theorem vacate_markKey (key : String) (consumed : Bool) (other : String) (requeue : Bool) :
    ((a.markKey key consumed).vacate other requeue).1 = (a.vacate other requeue).1.markKey key consumed := by
  have same : (a.vacate other requeue).1.registry = a.registry := rfl
  unfold markKey
  rw [same]
  split <;> rfl

theorem vacate_markAll (other : String) (requeue : Bool) :
    ((a.markAll keys).vacate other requeue).1 = (a.vacate other requeue).1.markAll keys := by
  induction keys generalizing a with
  | nil => rfl
  | cons key rest ih =>
    refine (ih (a.markKey key false)).trans ?_
    rw [vacate_markKey]
    rfl

theorem vacateAll_markAll (others : List String) :
    (a.markAll keys).vacateAll others = (a.vacateAll others).markAll keys := by
  induction others generalizing a with
  | nil => rfl
  | cons other rest ih =>
    refine Eq.trans ?_ (ih (a.vacate other true).1)
    rw [← vacate_markAll]
    rfl

theorem foldl_vacate_recordReclaimed :
    keys.foldl (fun a key => (a.vacate key true).1.recordReclaimed reason) a =
      (a.vacateAll keys).withFigures (a.figures.recordReclaims reason keys.length) := by
  induction keys generalizing a with
  | nil => rfl
  | cons key rest ih =>
    have counted : ((a.vacate key true).1.recordReclaimed reason).figures.recordReclaims reason rest.length =
        a.figures.recordReclaims reason (key :: rest).length :=
      a.figures.recordReclaims_recordReclaimed reason rest.length
    have moved : ((a.vacate key true).1.recordReclaimed reason).vacateAll rest = _ :=
      (a.vacate key true).1.vacateAll_withFigures rest _
    rw [List.foldl_cons, ih, counted, moved]
    rfl

@[simp] theorem pool_reclaimAll : (a.reclaimAll reason keys).pool = (a.vacateAll keys).pool :=
  (congrArg (·.pool) (a.vacateAll_markAll keys keys)).trans ((a.vacateAll keys).pool_markAll keys)

@[simp] theorem registry_reclaimAll : (a.reclaimAll reason keys).registry = a.registry :=
  ((a.markAll keys).registry_vacateAll keys).trans (a.registry_markAll keys)

@[simp] theorem marks_reclaimAll : (a.reclaimAll reason keys).marks = (a.markAll keys).marks :=
  (a.markAll keys).marks_vacateAll keys

theorem figures_reclaimAll : (a.reclaimAll reason keys).figures =
    (a.figures.recordReclaims reason keys.length).publish a.registry.size
      (a.reclaimAll reason keys).pool.idle.length (a.reclaimAll reason keys).pool.used.size := by
  rw [← registry_reclaimAll a reason keys]
  rfl

theorem count_reclaimAll (label : String) : (a.reclaimAll reason keys).figures.reclaimed.count label =
    a.figures.reclaimed.count label + if label = reason.label then keys.length else 0 :=
  a.figures.count_recordReclaims reason keys.length label

section Sweep

variable (now : UInt64) (maxAge : Duration) (order : List String)

/-- A sweep takes back what is overdue, and is itself counted. -/
theorem sweep_eq : a.sweep now maxAge order =
    let due := arrange order (a.pool.expired now maxAge.wholeMillis)
    let b := a.reclaimAll .expired due
    (b.withFigures b.figures.recordSweep, due.length) := by
  have marked := a.figures_markAll (arrange order (a.pool.expired now maxAge.wholeMillis))
  unfold markAll at marked
  simp only [sweep, reclaimAll, markAll, foldl_vacate_recordReclaimed, marked]

theorem pool_sweep : (a.sweep now maxAge order).1.pool =
    (a.vacateAll (arrange order (a.pool.expired now maxAge.wholeMillis))).pool := by
  rw [sweep_eq]
  exact a.pool_reclaimAll .expired _

@[simp] theorem registry_sweep : (a.sweep now maxAge order).1.registry = a.registry := by
  rw [sweep_eq]
  exact a.registry_reclaimAll .expired _

theorem marks_sweep : (a.sweep now maxAge order).1.marks =
    (a.markAll (arrange order (a.pool.expired now maxAge.wholeMillis))).marks := by
  rw [sweep_eq]
  exact a.marks_reclaimAll .expired _

end Sweep

end Assignment

end PartitionLease

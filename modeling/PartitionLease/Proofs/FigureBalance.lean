import PartitionLease.Proofs.CheckoutConservation

namespace PartitionLease

theorem size_erase_of_contains {β : Type} {t : Std.ExtTreeMap String β} {key : String}
    (present : t.contains key) :
    (t.erase key).size + 1 = t.size := by
  have occupied : t.size ≠ 0 := by
    intro zero
    have empty : t.isEmpty := by rw [Std.ExtTreeMap.isEmpty_eq_size_beq_zero, zero]; rfl
    rw [Std.ExtTreeMap.isEmpty_iff.mp empty] at present
    cases present
  rw [Std.ExtTreeMap.size_erase, if_pos present]
  omega

theorem RemovalMode.label_inj {mode other : RemovalMode} : mode.label = other.label ↔ mode = other := by
  cases mode <;> cases other <;> decide

theorem ReclaimReason.label_inj {reason other : ReclaimReason} :
    reason.label = other.label ↔ reason = other := by
  cases reason <;> cases other <;> decide

namespace AllocationFigures

/-- How many partitions left the books, in whatever way. -/
def departed (f : AllocationFigures) : Nat := f.removed.count RemovalMode.commit.label +
  f.removed.count RemovalMode.rollback.label + f.removed.count RemovalMode.admin.label

/-- How many checkouts were reclaimed for a reason. -/
def reclaimedFor (f : AllocationFigures) (reason : ReclaimReason) : Nat := f.reclaimed.count reason.label

theorem departed_recordRemoved (f : AllocationFigures) (mode : RemovalMode) (n : Nat) :
    (f.recordRemoved mode.label n).departed = f.departed + n := by
  unfold recordRemoved
  split
  · rename_i none
    rw [none, Nat.add_zero]
  · simp only [departed, Tally.count_add, RemovalMode.label_inj]
    cases mode <;> simp <;> omega

theorem reclaimed_recordRemoved (f : AllocationFigures) (mode : String) (n : Nat) :
    (f.recordRemoved mode n).reclaimed = f.reclaimed := by
  unfold recordRemoved
  split <;> rfl

theorem reclaimedFor_recordReclaimed (f : AllocationFigures) (reason other : ReclaimReason) :
    (f.recordReclaimed reason.label).reclaimedFor other =
      f.reclaimedFor other + if reason = other then 1 else 0 := by
  simp only [reclaimedFor, recordReclaimed, Tally.count_add, ReclaimReason.label_inj]

end AllocationFigures

namespace Registry

theorem size_insert (r : Registry) (s : Subscription) :
    (r.insert s).1.size = r.size + if (r.insert s).2 then 1 else 0 := by
  unfold insert
  split
  · rfl
  · rename_i unknown
    simp only [size, Std.ExtTreeMap.size_insert]
    exact if_neg unknown

theorem size_remove (r : Registry) (key : String) :
    (r.remove key).1.size + (r.find? key).toList.length = r.size := by
  unfold remove find?
  split
  · rename_i unknown
    rw [unknown]
    rfl
  · rename_i p stored
    rw [stored]
    refine size_erase_of_contains (t := r.partitions) ?_
    rw [Std.ExtTreeMap.contains_eq_isSome_getElem?, stored]
    rfl

theorem snd_remove (r : Registry) (key : String) : (r.remove key).2 = r.find? key := by
  unfold remove find?
  split <;> simp_all

end Registry

namespace Assignment

variable {a b d : Assignment}

/-- The sizes that were told last are the sizes. -/
structure Told (a : Assignment) : Prop where
  registered : a.figures.registered = a.registry.size
  idle : a.figures.idle = a.pool.idle.length
  used : a.figures.used = a.pool.used.size

/-- What was added and has not departed is known. -/
def Accounted (a : Assignment) : Prop := a.figures.added = a.registry.size + a.figures.departed

/-- From `a` to `b` checkouts end, and nothing but that is counted: those for one reason under this reason. -/
structure Reclaims (reason : ReclaimReason) (a b : Assignment) : Prop where
  registry : b.registry = a.registry
  added : b.figures.added = a.figures.added
  departed : b.figures.departed = a.figures.departed
  own : b.figures.reclaimedFor reason + b.pool.used.size = a.figures.reclaimedFor reason + a.pool.used.size
  others : ∀ other, reason ≠ other → b.figures.reclaimedFor other = a.figures.reclaimedFor other

theorem told_publish (a : Assignment) : a.publish.Told := ⟨rfl, rfl, rfl⟩

theorem Told.publish_eq (told : a.Told) : a.publish = a := by
  unfold publish AllocationFigures.publish
  rw [← told.registered, ← told.idle, ← told.used]
  rfl

theorem Told.recordReclaimed (told : a.Told) (reason : ReclaimReason) : (a.recordReclaimed reason).Told :=
  ⟨told.registered, told.idle, told.used⟩

theorem Told.recordRemoved (told : a.Told) (mode : String) (n : Nat) :
    (a.withFigures (a.figures.recordRemoved mode n)).Told := by
  unfold AllocationFigures.recordRemoved
  split
  · exact told
  · exact ⟨told.registered, told.idle, told.used⟩

theorem size_used_vacateAll {keys : List String} (distinct : keys.Nodup)
    (out : ∀ key ∈ keys, a.pool.isUsed key) :
    (a.vacateAll keys).pool.used.size + keys.length = a.pool.used.size := by
  induction keys generalizing a with
  | nil => rfl
  | cons key rest ih =>
    rw [List.nodup_cons] at distinct
    have one := size_erase_of_contains (t := a.pool.used) (out key List.mem_cons_self)
    have further := ih distinct.2 (isUsed_vacate_first distinct.1 out)
    rw [used_vacate] at further
    refine Eq.trans ?_ one
    rw [← further, List.length_cons, Nat.add_assoc]
    rfl

namespace Reclaims

variable {reason : ReclaimReason}

theorem refl (reason : ReclaimReason) (a : Assignment) : Reclaims reason a a :=
  ⟨rfl, rfl, rfl, rfl, fun _ _ => rfl⟩

theorem trans (first : Reclaims reason a b) (later : Reclaims reason b d) : Reclaims reason a d where
  registry := later.registry.trans first.registry
  added := later.added.trans first.added
  departed := later.departed.trans first.departed
  own := later.own.trans first.own
  others other apart := (later.others other apart).trans (first.others other apart)

/-- Marks, sizes told, the line and alarms are no matter of this count. -/
theorem congr (same : Reclaims reason a b) (registry : d.registry = b.registry)
    (used : d.pool.used = b.pool.used) (added : d.figures.added = b.figures.added)
    (removed : d.figures.removed = b.figures.removed) (reclaimed : d.figures.reclaimed = b.figures.reclaimed) :
    Reclaims reason a d where
  registry := registry.trans same.registry
  added := added.trans same.added
  departed := by
    rw [← same.departed]
    simp only [AllocationFigures.departed, removed]
  own := by
    rw [← same.own, used]
    simp only [AllocationFigures.reclaimedFor, reclaimed]
  others other apart := by
    rw [← same.others other apart]
    simp only [AllocationFigures.reclaimedFor, reclaimed]

theorem markKey (reason : ReclaimReason) (a : Assignment) (key : String) (consumed : Bool) :
    Reclaims reason a (a.markKey key consumed) := by
  unfold Assignment.markKey
  split
  · exact (refl reason a).congr rfl rfl rfl rfl rfl
  · exact refl reason a

/-- A live checkout ends and is counted. -/
theorem vacate (reason : ReclaimReason) {key : String} (out : a.pool.isUsed key) (requeue : Bool) :
    Reclaims reason a ((a.vacate key requeue).1.recordReclaimed reason) where
  registry := rfl
  added := rfl
  departed := rfl
  own := by
    have one := size_erase_of_contains (t := a.pool.used) out
    have counted := a.figures.reclaimedFor_recordReclaimed reason reason
    rw [if_pos rfl] at counted
    rw [pool_recordReclaimed, used_vacate]
    refine (congrArg (· + _) counted).trans ?_
    omega
  others other apart := by
    refine (a.figures.reclaimedFor_recordReclaimed reason other).trans ?_
    rw [if_neg apart, Nat.add_zero]

theorem release (a : Assignment) (key : String) (consumed : Bool) :
    Reclaims .returned a (a.release key consumed).1 := by
  unfold Assignment.release
  split
  · rename_i out
    have still : (a.markKey key consumed).pool.isUsed key := by rwa [pool_markKey]
    exact ((markKey .returned a key consumed).trans (vacate .returned still true)).congr rfl rfl rfl rfl rfl
  · exact refl .returned a

theorem expire (a : Assignment) (lease : Lease) : Reclaims .timer a (a.expire lease) := by
  unfold Assignment.expire
  split
  · rename_i live
    have still : (a.markKey lease.key false).pool.isUsed lease.key := by
      rw [pool_markKey]
      exact Pool.isUsed_of_token? live
    exact ((markKey .timer a lease.key false).trans (vacate .timer still true)).congr rfl rfl rfl rfl rfl
  · exact refl .timer a

theorem expireDue (limit n : Nat) (a : Assignment) : Reclaims .timer a (a.expireDue limit n) := by
  induction n generalizing a with
  | zero => exact refl .timer a
  | succ n ih =>
    rw [Assignment.expireDue]
    split
    · exact refl .timer a
    · rename_i alarm timers _
      have taken : Reclaims .timer a (a.withPool (a.pool.withTimers timers)) :=
        (refl .timer a).congr rfl rfl rfl rfl rfl
      exact taken.trans ((expire _ alarm.job).trans (ih _))

theorem passTo (a : Assignment) (limit : Nat) : Reclaims .timer a (a.passTo limit) :=
  (expireDue limit a.pool.timers.armed.length a).congr rfl rfl rfl rfl rfl

theorem reclaimAll (reason : ReclaimReason) {keys : List String} (distinct : keys.Nodup)
    (out : ∀ key ∈ keys, a.pool.isUsed key) : Reclaims reason a (a.reclaimAll reason keys) where
  registry := a.registry_reclaimAll reason keys
  added := by
    rw [figures_reclaimAll, AllocationFigures.recordReclaims_eq]
    rfl
  departed := by
    rw [figures_reclaimAll, AllocationFigures.recordReclaims_eq]
    rfl
  own := by
    have fewer := size_used_vacateAll distinct out
    rw [AllocationFigures.reclaimedFor, count_reclaimAll, if_pos rfl, pool_reclaimAll, ← fewer]
    exact (Nat.add_assoc _ _ _).trans (congrArg _ (Nat.add_comm _ _))
  others other apart := by
    rw [AllocationFigures.reclaimedFor, count_reclaimAll, if_neg, Nat.add_zero]
    · rfl
    · exact fun same => apart (ReclaimReason.label_inj.mp same).symm

theorem sweep (a : Assignment) (now : UInt64) (maxAge : Duration) (order : List String) :
    Reclaims .expired a (a.sweep now maxAge order).1 := by
  have ends := reclaimAll .expired (nodup_arrange order (a.pool.nodup_expired now maxAge.wholeMillis))
    fun key due => Pool.isUsed_of_mem_expired (p := a.pool) (mem_arrange.mp due)
  rw [sweep_eq]
  exact ends.congr rfl rfl rfl rfl rfl

end Reclaims

section Told

theorem told_add (a : Assignment) (consumer group : String) (p : Partition) :
    (a.add consumer group p).1.Told := by
  unfold add
  dsimp only
  split <;> exact ⟨rfl, rfl, rfl⟩

theorem Told.withdraw (told : a.Told) (subscriptions : List Subscription) (rollback : Bool)
    (removed : RemovedPartitions) : (a.withdraw subscriptions rollback removed).1.Told := by
  unfold Assignment.withdraw
  split
  · exact told
  · exact (told_publish _).recordRemoved _ _

theorem told_drop (a : Assignment) (keys : List String) : (a.drop keys).1.Told :=
  (told_publish _).recordRemoved _ _

theorem Told.take (told : a.Told) (sound : a.Sound) (now : UInt64) (lease? : Option Duration) :
    (a.take now lease?).1.Told := by
  cases line : a.pool.idle with
  | nil =>
    rw [sound.take_nil line]
    exact told
  | cons key rest =>
    rw [sound.take_cons line]
    exact told_publish _

theorem Told.markUsed (told : a.Told) (key : String) (now : UInt64) (lease? : Option Duration) :
    (a.markUsed key now lease?).1.Told := by
  unfold Assignment.markUsed
  split
  · exact told_publish _
  · exact told

theorem Told.release (told : a.Told) (key : String) (consumed : Bool) : (a.release key consumed).1.Told := by
  unfold Assignment.release
  split
  · exact (told_publish _).recordReclaimed .returned
  · exact told

theorem Told.expire (told : a.Told) (lease : Lease) : (a.expire lease).Told := by
  unfold Assignment.expire
  split
  · exact (told_publish _).recordReclaimed .timer
  · exact told

theorem Told.expireDue (told : a.Told) (limit n : Nat) : (a.expireDue limit n).Told := by
  induction n generalizing a with
  | zero => exact told
  | succ n ih =>
    rw [Assignment.expireDue]
    split
    · exact told
    · rename_i alarm timers _
      have taken : (a.withPool (a.pool.withTimers timers)).Told := ⟨told.registered, told.idle, told.used⟩
      exact ih (taken.expire alarm.job)

theorem Told.passTo (told : a.Told) (limit : Nat) : (a.passTo limit).Told := by
  have past := told.expireDue limit a.pool.timers.armed.length
  exact ⟨past.registered, past.idle, past.used⟩

end Told

section Accounted

theorem Accounted.congr (accounted : a.Accounted) (size : b.registry.size = a.registry.size)
    (added : b.figures.added = a.figures.added) (departed : b.figures.departed = a.figures.departed) :
    b.Accounted := by
  rw [Accounted, size, added, departed]
  exact accounted

theorem Accounted.reclaims {reason : ReclaimReason} (accounted : a.Accounted) (ends : Reclaims reason a b) :
    b.Accounted :=
  accounted.congr (congrArg Registry.size ends.registry) ends.added ends.departed

/-- As many keys were forgotten as are recorded. -/
theorem Accounted.recordRemoved (accounted : a.Accounted) (mode : RemovalMode) {n : Nat}
    (size : b.registry.size + n = a.registry.size) (same : b.figures = a.figures) :
    (b.publish.withFigures (b.publish.figures.recordRemoved mode.label n)).Accounted := by
  have departed : (b.publish.figures.recordRemoved mode.label n).departed = a.figures.departed + n := by
    rw [AllocationFigures.departed_recordRemoved, ← same]
    rfl
  have added : (b.publish.figures.recordRemoved mode.label n).added = a.figures.added := by
    rw [← same, AllocationFigures.recordRemoved]
    split <;> rfl
  have before : a.figures.added = a.registry.size + a.figures.departed := accounted
  have after : b.publish.registry.size = b.registry.size := rfl
  rw [Accounted, withFigures, added, departed, after]
  omega

theorem Accounted.add (accounted : a.Accounted) (consumer group : String) (p : Partition) :
    (a.add consumer group p).1.Accounted := by
  have size := a.registry.size_insert ⟨consumer, group, p⟩
  have before : a.figures.added = a.registry.size + a.figures.departed := accounted
  unfold Assignment.add
  dsimp only
  split
  · rename_i added
    rw [if_pos added] at size
    refine (congrArg (· + 1) before).trans ?_
    refine Eq.trans ?_ (congrArg (· + a.figures.departed) size.symm)
    exact Nat.add_right_comm _ _ _
  · rename_i known
    rw [if_neg known] at size
    exact before.trans (congrArg (· + a.figures.departed) size.symm)

theorem size_withdrawOne (rollback : Bool) (state : Assignment × RemovedPartitions × Nat) (s : Subscription) :
    (withdrawOne rollback state s).1.registry.size + (withdrawOne rollback state s).2.2 =
        state.1.registry.size + state.2.2 ∧ (withdrawOne rollback state s).1.figures = state.1.figures := by
  obtain ⟨a, removed, count⟩ := state
  have one := a.registry.size_remove s.key
  rw [registry_withdrawOne]
  unfold Assignment.withdrawOne
  dsimp only
  split
  · rename_i unknown
    rw [unknown] at one
    exact ⟨congrArg (· + count) one, rfl⟩
  · rename_i p known
    rw [known, Option.toList_some, List.length_singleton] at one
    refine ⟨?_, by split <;> rfl⟩
    dsimp only
    omega

theorem size_foldl_withdrawOne (a : Assignment) (subscriptions : List Subscription) (rollback : Bool)
    (removed : RemovedPartitions) :
    let state := subscriptions.foldl (withdrawOne rollback) (a, removed, 0)
    state.1.registry.size + state.2.2 = a.registry.size ∧ state.1.figures = a.figures :=
  List.foldlRecOn subscriptions (withdrawOne rollback) (b := (a, removed, 0))
    (motive := fun state => state.1.registry.size + state.2.2 = a.registry.size ∧ state.1.figures = a.figures)
    ⟨rfl, rfl⟩ fun state soFar s _ =>
      ⟨(size_withdrawOne rollback state s).1.trans soFar.1, (size_withdrawOne rollback state s).2.trans soFar.2⟩

theorem size_foldl_dropOne (a : Assignment) (keys : List String) :
    let state := keys.foldl dropOne (a, 0)
    state.1.registry.size + state.2 = a.registry.size ∧ state.1.figures = a.figures :=
  List.foldlRecOn keys dropOne (b := (a, 0))
    (motive := fun state => state.1.registry.size + state.2 = a.registry.size ∧ state.1.figures = a.figures)
    ⟨rfl, rfl⟩ fun state soFar key _ => by
      refine ⟨?_, soFar.2⟩
      have one := state.1.registry.size_remove key
      have size : (dropOne state key).1.registry.size = (state.1.registry.remove key).1.size := rfl
      have count : (dropOne state key).2 = state.2 + (state.1.registry.find? key).toList.length := by
        rw [← Registry.snd_remove]
        rfl
      rw [size, count, ← soFar.1]
      omega

theorem Accounted.withdraw (accounted : a.Accounted) (subscriptions : List Subscription) (rollback : Bool)
    (removed : RemovedPartitions) : (a.withdraw subscriptions rollback removed).1.Accounted := by
  obtain ⟨size, same⟩ := a.size_foldl_withdrawOne subscriptions rollback removed
  unfold Assignment.withdraw
  split
  · exact accounted
  · exact accounted.recordRemoved (if rollback then .rollback else .commit) size same

theorem Accounted.drop (accounted : a.Accounted) (keys : List String) : (a.drop keys).1.Accounted := by
  obtain ⟨size, same⟩ := a.size_foldl_dropOne keys
  rw [drop_eq]
  exact accounted.recordRemoved .admin size same

end Accounted

section Reclaimed

theorem reclaimed_add (a : Assignment) (consumer group : String) (p : Partition) :
    (a.add consumer group p).1.figures.reclaimed = a.figures.reclaimed := by
  unfold add
  dsimp only
  split <;> rfl

theorem reclaimed_withdraw (a : Assignment) (subscriptions : List Subscription) (rollback : Bool)
    (removed : RemovedPartitions) :
    (a.withdraw subscriptions rollback removed).1.figures.reclaimed = a.figures.reclaimed := by
  have same := (a.size_foldl_withdrawOne subscriptions rollback removed).2
  unfold withdraw
  split
  · rfl
  · refine (AllocationFigures.reclaimed_recordRemoved _ _ _).trans (Eq.trans ?_ (congrArg _ same))
    rfl

theorem reclaimed_drop (a : Assignment) (keys : List String) :
    (a.drop keys).1.figures.reclaimed = a.figures.reclaimed := by
  have same := (a.size_foldl_dropOne keys).2
  rw [drop_eq]
  refine (AllocationFigures.reclaimed_recordRemoved _ _ _).trans (Eq.trans ?_ (congrArg _ same))
  rfl

end Reclaimed

end Assignment

namespace EventQueue

variable {ε : Type}

/-- The number of pending events that was told last is right. -/
def Told (q : EventQueue ε) : Prop := q.figures.pending = q.pending.length

theorem told_rotate (q : EventQueue ε) (e : ε) : (q.rotate e).1.Told := by
  unfold rotate
  split <;> rfl

theorem Told.step {q : EventQueue ε} (told : q.Told) (action : Action ε) :
    (q.step action).1.Told := by
  cases action with
  | poll =>
    simp only [EventQueue.step, poll]
    split <;> rfl
  | cancel ticket =>
    simp only [EventQueue.step, cancel]
    split
    · exact told
    · split <;> exact told
  | receive =>
    simp only [EventQueue.step, receive]
    split
    · split <;> exact told
    · exact told
  | progress =>
    simp only [EventQueue.step]
    split
    · exact told
    · rename_i next ended move
      unfold progress? at move
      split at move
      · split at move
        · cases move
          exact told
        · split at move <;> cases move
          exact told
      · split at move
        · cases move
        · split at move
          · cases move
            exact told
          · cases move
            exact told_rotate _ _
  | offer _ | clear => rfl
  | notify _ | dropReceiver | dropOwner => exact told

end EventQueue

namespace Cache

theorem told_step {c : Cache} (sound : c.assignment.Sound) (told : c.assignment.Told) (action : Action) :
    (c.step action).1.assignment.Told := by
  cases action with
  | add p => exact c.assignment.told_add c.session.consumer c.session.group p
  | withdraw subscriptions rollback removed => exact told.withdraw subscriptions rollback removed
  | drop keys => exact c.assignment.told_drop keys
  | take => exact told.take sound c.clock.now c.config.lease?
  | markUsed key => exact told.markUsed key c.clock.now c.config.lease?
  | release key consumed => exact told.release key consumed
  | reclaim key requeue => exact Assignment.told_publish _
  | sweep maxAge order => exact ⟨rfl, rfl, rfl⟩
  | expire lease => exact told.expire lease
  | pass millis =>
    simp only [step, pass]
    split
    · exact told
    · exact told.passTo _
  | mark p consumed => exact ⟨told.registered, told.idle, told.used⟩
  | advanceClock span =>
    rw [assignment_advanceClock]
    exact told
  | setConsumer _ _ | setClock _ | present _ | events _ => exact told

theorem accounted_step {c : Cache} (sound : c.assignment.Sound) (accounted : c.assignment.Accounted)
    (action : Action) : (c.step action).1.assignment.Accounted := by
  cases action with
  | add p => exact accounted.add c.session.consumer c.session.group p
  | withdraw subscriptions rollback removed => exact accounted.withdraw subscriptions rollback removed
  | drop keys => exact accounted.drop keys
  | take =>
    cases line : c.assignment.pool.idle with
    | nil => simpa only [step, sound.take_nil line] using accounted
    | cons key rest =>
      simp only [step, sound.take_cons line]
      exact accounted.congr rfl rfl rfl
  | markUsed key =>
    simp only [step, Assignment.markUsed]
    split
    · exact accounted.congr rfl rfl rfl
    · exact accounted
  | release key consumed => exact accounted.reclaims (.release c.assignment key consumed)
  | sweep maxAge order => exact accounted.reclaims (.sweep c.assignment c.clock.now maxAge order)
  | expire lease => exact accounted.reclaims (.expire c.assignment lease)
  | pass millis =>
    simp only [step, pass]
    split
    · exact accounted
    · exact accounted.reclaims (.passTo c.assignment _)
  | advanceClock span =>
    rw [assignment_advanceClock]
    exact accounted
  | reclaim _ _ | mark _ _ | setConsumer _ _ | setClock _ | present _ | events _ =>
    exact accounted.congr rfl rfl rfl

/-- An action that ends checkouts for a reason counts them under it, and no other action does. -/
theorem reclaimedFor_step {c : Cache} (sound : c.assignment.Sound) (action : Action) (reason : ReclaimReason) :
    (c.step action).1.assignment.figures.reclaimedFor reason = c.assignment.figures.reclaimedFor reason +
      (if reclaims reason action then c.ends action else []).length := by
  have counted {own : ReclaimReason} (ends : Assignment.Reclaims own c.assignment (c.step action).1.assignment)
      (quiet : c.handsOut? action = none) (kind : reclaims reason action = decide (reason = own)) :
      (c.step action).1.assignment.figures.reclaimedFor reason = c.assignment.figures.reclaimedFor reason +
        (if reclaims reason action then c.ends action else []).length := by
    by_cases same : reason = own
    · subst same
      have ended := length_ends sound action
      have balance := ends.own
      rw [quiet] at ended
      rw [kind, decide_eq_true rfl, if_pos rfl]
      simp only [Option.toList_none, List.length_nil] at ended
      omega
    · rw [kind, decide_eq_false same, if_neg Bool.false_ne_true, ends.others reason (Ne.symm same)]
      rfl
  have unchanged (same : (c.step action).1.assignment.figures.reclaimed = c.assignment.figures.reclaimed)
      (kind : reclaims reason action = false) :
      (c.step action).1.assignment.figures.reclaimedFor reason = c.assignment.figures.reclaimedFor reason +
        (if reclaims reason action then c.ends action else []).length := by
    rw [kind, AllocationFigures.reclaimedFor, same]
    rfl
  cases action with
  | release key consumed => exact counted (.release c.assignment key consumed) rfl rfl
  | sweep maxAge order => exact counted (.sweep c.assignment c.clock.now maxAge order) rfl rfl
  | expire lease => exact counted (.expire c.assignment lease) rfl rfl
  | pass millis =>
    refine counted ?_ rfl rfl
    simp only [step, pass]
    split
    · exact .refl .timer c.assignment
    · exact .passTo c.assignment _
  | add p => exact unchanged (c.assignment.reclaimed_add c.session.consumer c.session.group p) rfl
  | withdraw subscriptions rollback removed =>
    exact unchanged (c.assignment.reclaimed_withdraw subscriptions rollback removed) rfl
  | drop keys => exact unchanged (c.assignment.reclaimed_drop keys) rfl
  | take =>
    refine unchanged ?_ rfl
    cases line : c.assignment.pool.idle with
    | nil => simp only [step, sound.take_nil line]
    | cons key rest =>
      simp only [step, sound.take_cons line]
      rfl
  | markUsed key =>
    refine unchanged ?_ rfl
    simp only [step, Assignment.markUsed]
    split <;> rfl
  | advanceClock span => exact unchanged (by rw [assignment_advanceClock]) rfl
  | reclaim _ _ | mark _ _ | setConsumer _ _ | setClock _ | present _ | events _ => exact unchanged rfl rfl

theorem reclaimedFor_run {c : Cache} (sound : c.assignment.Sound) (actions : List Action)
    (reason : ReclaimReason) : (c.run actions).assignment.figures.reclaimedFor reason =
      c.assignment.figures.reclaimedFor reason + (endings (reclaims reason) c actions).length := by
  induction actions generalizing c with
  | nil => rfl
  | cons action rest ih =>
    rw [run_cons, ih (sound_step sound action), reclaimedFor_step sound, endings, List.length_append,
      Nat.add_assoc]

theorem told_run {c : Cache} (sound : c.assignment.Sound) (told : c.assignment.Told) (actions : List Action) :
    (c.run actions).assignment.Told := by
  induction actions generalizing c with
  | nil => exact told
  | cons action rest ih => exact ih (sound_step sound action) (told_step sound told action)

theorem accounted_run {c : Cache} (sound : c.assignment.Sound) (accounted : c.assignment.Accounted)
    (actions : List Action) : (c.run actions).assignment.Accounted := by
  induction actions generalizing c with
  | nil => exact accounted
  | cons action rest ih => exact ih (sound_step sound action) (accounted_step sound accounted action)

theorem told_events_step {c : Cache} (told : c.events.Told) (action : Action) :
    (c.step action).1.events.Told := by
  cases action with
  | events action => exact told.step action
  | advanceClock span =>
    rw [step_advanceClock]
    exact told
  | pass millis =>
    simp only [step, pass]
    split <;> exact told
  | _ => exact told

theorem told_events_run {c : Cache} (told : c.events.Told) (actions : List Action) :
    (c.run actions).events.Told := by
  induction actions generalizing c with
  | nil => exact told
  | cons action rest ih => exact ih (told_events_step told action)

/-- The figures never drift from what they tell of, whatever happens to a new cache. The sizes told are the
sizes; what was added is known or was counted when it left; and every checkout ever made is live, or has
been counted as reclaimed for the reason for which it was, or was ended by registering, reclaiming or
removing its key, and only once. -/
theorem figures_follow_state (config : Config) (clock : Clock) (timeKept : Bool) (actions : List Action) :
    let start := new config clock timeKept
    let c := start.run actions
    let a := c.assignment
    let f := c.metrics.allocation
    (f.registered = a.registry.size ∧ f.idle = a.pool.idle.length ∧ f.used = a.pool.used.size) ∧
    c.metrics.events.pending = c.events.pending.length ∧
    f.added = a.registry.size + f.departed ∧
    (start.handOuts actions).length = a.pool.used.size +
      (f.reclaimedFor .returned + f.reclaimedFor .expired + f.reclaimedFor .timer) +
      (endings revokes start actions).length ∧
    a.pool.issued = (start.handOuts actions).length ∧
    (∀ reason, f.reclaimedFor reason = (endings (reclaims reason) start actions).length) ∧
    (c.live ++ endings (fun _ => true) start actions).Perm (start.handOuts actions) ∧
    ∀ action, ∀ lease ∈ c.ends action, EndedBy c lease action := by
  intro start c a f
  have soundStart : start.assignment.Sound := sound_new config clock timeKept
  have told : a.Told := told_run soundStart ⟨rfl, rfl, rfl⟩ actions
  have accounted : a.Accounted := accounted_run soundStart rfl actions
  have pending : c.events.Told := told_events_run (c := start) rfl actions
  have balance : (c.live ++ endings (fun _ => true) start actions).Perm (start.handOuts actions) :=
    live_run_perm soundStart actions
  have reclaimed (reason : ReclaimReason) :
      f.reclaimedFor reason = (endings (reclaims reason) start actions).length :=
    (reclaimedFor_run soundStart actions reason).trans (Nat.zero_add _)
  have issued : a.pool.issued = (start.handOuts actions).length :=
    (issued_run soundStart actions).trans (Nat.zero_add _)
  refine ⟨⟨told.registered, told.idle, told.used⟩, pending, accounted, ?_, issued, reclaimed, balance, ?_⟩
  · have size : c.live.length = a.pool.used.size := length_live c
    have whole := balance.length_eq
    have parts := length_endings soundStart actions
    rw [List.length_append, size] at whole
    rw [reclaimed, reclaimed, reclaimed]
    omega
  · exact fun action lease ended => (endedBy_of_mem_ends (sound_run soundStart actions) ended).1

end Cache

end PartitionLease

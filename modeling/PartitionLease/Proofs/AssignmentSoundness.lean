import PartitionLease.Proofs.FaultFinding
import PartitionLease.Proofs.Reclaiming

namespace PartitionLease

namespace Assignment

/-- The registry's maps agree, and the pool agrees with it: the line names each key once, no key in line
is checked out, and only known keys are in line or checked out. -/
structure Sound (a : Assignment) : Prop where
  registry : a.registry.Sound
  once : a.pool.idle.Nodup
  idle_free : ∀ key ∈ a.pool.idle, a.pool.isUsed key = false
  idle_known : ∀ key ∈ a.pool.idle, a.registry.contains key
  used_known : ∀ key, a.pool.isUsed key → a.registry.contains key

namespace Sound

variable {a b : Assignment}

/-- Marks, figures, times and alarms are no matter of soundness. -/
theorem congr (sound : a.Sound) (registry : b.registry = a.registry) (idle : b.pool.idle = a.pool.idle)
    (used : b.pool.used = a.pool.used) : b.Sound where
  registry := registry ▸ sound.registry
  once := idle ▸ sound.once
  idle_free := by
    intro key member
    rw [idle] at member
    simpa only [Pool.isUsed, used] using sound.idle_free key member
  idle_known := by
    intro key member
    rw [idle] at member
    simpa only [registry] using sound.idle_known key member
  used_known := by
    intro key out
    rw [Pool.isUsed, used] at out
    simpa only [registry] using sound.used_known key out

theorem publish (sound : a.Sound) : a.publish.Sound := sound.congr rfl rfl rfl

theorem withFigures (sound : a.Sound) (figures : AllocationFigures) : (a.withFigures figures).Sound :=
  sound.congr rfl rfl rfl

theorem recordReclaimed (sound : a.Sound) (reason : ReclaimReason) : (a.recordReclaimed reason).Sound :=
  sound.congr rfl rfl rfl

theorem withTimers (sound : a.Sound) (timers : Timers Lease) :
    (a.withPool (a.pool.withTimers timers)).Sound := sound.congr rfl rfl rfl

theorem mark (sound : a.Sound) (p : Partition) (consumed : Bool) : (a.mark p consumed).Sound :=
  sound.congr rfl rfl rfl

theorem markKey (sound : a.Sound) (key : String) (consumed : Bool) : (a.markKey key consumed).Sound := by
  have pool := pool_markKey a key consumed
  exact sound.congr (registry_markKey a key consumed) (by rw [pool]) (by rw [pool])

theorem vacate (sound : a.Sound) (key : String) (requeue : Bool) : (a.vacate key requeue).1.Sound where
  registry := sound.registry
  once := by
    have left := sound.once.erase key
    have absent : key ∉ a.pool.idle.erase key := sound.once.not_mem_erase
    rw [idle_vacate sound.once]
    split
    · rw [List.nodup_append]
      refine ⟨left, by simp, ?_⟩
      intro k old j new same
      rw [same, List.mem_singleton.mp new] at old
      exact absent old
    · rwa [List.append_nil]
  idle_free := by
    intro k member
    rw [Pool.isUsed, used_vacate, Std.ExtTreeMap.contains_erase]
    by_cases same : key = k
    · simp [same]
    · rw [idle_vacate sound.once, List.mem_append] at member
      rcases member with old | new
      · have free := sound.idle_free k (List.mem_of_mem_erase old)
        rw [Pool.isUsed] at free
        rw [free, Bool.and_false]
      · split at new
        · exact absurd (List.mem_singleton.mp new).symm same
        · cases new
  idle_known := by
    intro k member
    rw [idle_vacate sound.once, List.mem_append] at member
    rcases member with old | new
    · exact sound.idle_known k (List.mem_of_mem_erase old)
    · split at new
      · rename_i queued
        rw [List.mem_singleton.mp new]
        exact (Bool.and_eq_true_iff.mp queued).2
      · cases new
  used_known := by
    intro k out
    rw [Pool.isUsed, used_vacate, Std.ExtTreeMap.contains_erase, Bool.and_eq_true] at out
    exact sound.used_known k out.2

theorem insert (sound : a.Sound) (s : Subscription) : (a.withRegistry (a.registry.insert s).1).Sound := by
  have grown : ∀ key, a.registry.contains key → (a.registry.insert s).1.contains key := by
    intro key known
    rw [Registry.contains_eq_isSome_find?] at known ⊢
    rw [Registry.find?_insert]
    split
    · rfl
    · exact known
  exact {
    registry := sound.registry.insert s
    once := sound.once
    idle_free := sound.idle_free
    idle_known := fun key member => grown key (sound.idle_known key member)
    used_known := fun key out => grown key (sound.used_known key out) }

theorem forget (sound : a.Sound) (key : String) : (a.forget key).1.Sound := by
  have left : ∀ k, key ≠ k → a.registry.contains k → (a.registry.remove key).1.contains k := by
    intro k other known
    rw [Registry.contains_eq_isSome_find?] at known ⊢
    rwa [Registry.find?_remove, if_neg other]
  refine ⟨sound.registry.remove key, sound.once.erase key, ?_, ?_, ?_⟩
  · intro k member
    rw [Pool.isUsed, used_forget, Std.ExtTreeMap.contains_erase]
    have free := sound.idle_free k (List.mem_of_mem_erase member)
    rw [Pool.isUsed] at free
    rw [free, Bool.and_false]
  · intro k member
    rw [idle_forget, sound.once.mem_erase_iff] at member
    exact left k (Ne.symm member.1) (sound.idle_known k member.2)
  · intro k out
    rw [Pool.isUsed, used_forget, Std.ExtTreeMap.contains_erase, Bool.and_eq_true] at out
    have other : key ≠ k := by simpa using out.1
    exact left k other (sound.used_known k out.2)

theorem checkOut (sound : a.Sound) {key : String} (known : a.registry.contains key) (now : UInt64)
    (lease? : Option Duration) : (a.checkOut key now lease?).Sound := by
  refine ⟨sound.registry, ?_, ?_, ?_, ?_⟩
  · rw [idle_checkOut]
    exact sound.once.erase key
  · intro k member
    rw [idle_checkOut, sound.once.mem_erase_iff] at member
    have free := sound.idle_free k member.2
    rw [Pool.isUsed] at free
    rw [Pool.isUsed, used_checkOut, Std.ExtTreeMap.contains_insert, free]
    simpa using Ne.symm member.1
  · intro k member
    rw [idle_checkOut] at member
    exact sound.idle_known k (List.mem_of_mem_erase member)
  · intro k out
    rw [Pool.isUsed, used_checkOut, Std.ExtTreeMap.contains_insert, Bool.or_eq_true] at out
    rcases out with same | old
    · have same : key = k := by simpa using same
      exact same ▸ known
    · exact sound.used_known k old

theorem add (sound : a.Sound) (consumer group : String) (p : Partition) :
    (a.add consumer group p).1.Sound := by
  have inLine := ((sound.insert ⟨consumer, group, p⟩).vacate p.key true).publish
  unfold Assignment.add
  dsimp only
  split
  · exact inLine.withFigures _
  · exact inLine

theorem withdrawOne (rollback : Bool) {state : Assignment × RemovedPartitions × Nat}
    (sound : state.1.Sound) (s : Subscription) : (withdrawOne rollback state s).1.Sound := by
  obtain ⟨a, removed, count⟩ := state
  unfold Assignment.withdrawOne
  dsimp only
  split
  · exact sound.forget s.key
  · split
    · exact (sound.mark _ _).forget s.key
    · exact sound.forget s.key

theorem withdraw (sound : a.Sound) (subscriptions : List Subscription) (rollback : Bool)
    (removed : RemovedPartitions) : (a.withdraw subscriptions rollback removed).1.Sound := by
  have gone := List.foldlRecOn subscriptions (Assignment.withdrawOne rollback)
    (motive := fun state => state.1.Sound) (b := (a, removed, 0)) sound
    (fun _ soFar s _ => soFar.withdrawOne rollback s)
  unfold Assignment.withdraw
  split
  · exact sound
  · exact gone.publish.withFigures _

theorem drop (sound : a.Sound) (keys : List String) : (a.drop keys).1.Sound := by
  have gone := List.foldlRecOn keys dropOne (motive := fun state => state.1.Sound) (b := (a, 0)) sound
    (fun _ soFar key _ => soFar.forget key)
  rw [drop_eq]
  exact gone.publish.withFigures _

theorem markUsed (sound : a.Sound) (key : String) (now : UInt64) (lease? : Option Duration) :
    (a.markUsed key now lease?).1.Sound := by
  unfold Assignment.markUsed
  split
  · rename_i allowed
    exact (sound.checkOut (Bool.and_eq_true_iff.mp allowed).1 now lease?).publish
  · exact sound

/-- Every key in line is known, so none is ever dropped from it. -/
theorem dropWhile_idle (sound : a.Sound) :
    a.pool.idle.dropWhile (!a.registry.contains ·) = a.pool.idle := by
  cases line : a.pool.idle with
  | nil => rfl
  | cons key rest =>
    have known := sound.idle_known key (line ▸ List.mem_cons_self)
    simp [known]

theorem take_nil (sound : a.Sound) (line : a.pool.idle = []) (now : UInt64) (lease? : Option Duration) :
    a.take now lease? = (a, none) := by
  have same : a.withPool (a.pool.withIdle []) = a := by rw [← line]; rfl
  unfold Assignment.take
  rw [sound.dropWhile_idle, line]
  simp only [same]

theorem take_cons (sound : a.Sound) {key : String} {rest : List String} (line : a.pool.idle = key :: rest)
    (now : UInt64) (lease? : Option Duration) :
    a.take now lease? = ((a.checkOut key now lease?).publish, a.registry.find? key) := by
  have distinct := sound.once
  rw [line, List.nodup_cons] at distinct
  have same : (a.withPool (a.pool.withIdle rest)).checkOut key now lease? = a.checkOut key now lease? := by
    simp only [Assignment.checkOut, withPool, Pool.checkOut_withIdle line distinct.1]
  unfold Assignment.take
  rw [sound.dropWhile_idle, line]
  simp only [same]

theorem take (sound : a.Sound) (now : UInt64) (lease? : Option Duration) : (a.take now lease?).1.Sound := by
  cases line : a.pool.idle with
  | nil =>
    rw [sound.take_nil line]
    exact sound
  | cons key rest =>
    have known := sound.idle_known key (line ▸ List.mem_cons_self)
    rw [sound.take_cons line]
    exact (sound.checkOut known now lease?).publish

theorem release (sound : a.Sound) (key : String) (consumed : Bool) : (a.release key consumed).1.Sound := by
  unfold Assignment.release
  split
  · exact (((sound.markKey key consumed).vacate key true).publish).recordReclaimed .returned
  · exact sound

theorem reclaim (sound : a.Sound) (key : String) (requeue : Bool) : (a.reclaim key requeue).1.Sound :=
  (sound.vacate key requeue).publish

theorem expire (sound : a.Sound) (lease : Lease) : (a.expire lease).Sound := by
  unfold Assignment.expire
  split
  · exact (((sound.markKey lease.key false).vacate lease.key true).publish).recordReclaimed .timer
  · exact sound

theorem expireDue (limit n : Nat) (sound : a.Sound) : (a.expireDue limit n).Sound := by
  induction n generalizing a with
  | zero => exact sound
  | succ n ih =>
    rw [Assignment.expireDue]
    split
    · exact sound
    · exact ih ((sound.withTimers _).expire _)

theorem passTo (sound : a.Sound) (limit : Nat) : (a.passTo limit).Sound :=
  (sound.expireDue limit _).withTimers _

theorem vacateAll (sound : a.Sound) (keys : List String) : (a.vacateAll keys).Sound :=
  List.foldlRecOn keys _ (motive := Sound) sound fun _ soFar key _ => soFar.vacate key true

theorem sweep (sound : a.Sound) (now : UInt64) (maxAge : Duration) (order : List String) :
    (a.sweep now maxAge order).1.Sound := by
  exact (sound.vacateAll _).congr ((a.registry_sweep now maxAge order).trans (a.registry_vacateAll _).symm)
    (congrArg (·.idle) (a.pool_sweep now maxAge order)) (congrArg (·.used) (a.pool_sweep now maxAge order))

theorem consistent (sound : a.Sound) : a.Consistent where
  registry := sound.registry.consistent
  once := sound.once
  idle_free := sound.idle_free
  idle_known := sound.idle_known
  used_known := sound.used_known

theorem fault?_eq_none (sound : a.Sound) : a.fault? = none :=
  (faultIn_eq_none_iff a.registry.lists_listing (.refl _)).mpr sound.consistent

end Sound

end Assignment

end PartitionLease

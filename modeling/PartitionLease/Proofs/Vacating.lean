import PartitionLease.Proofs.Reclaiming

namespace PartitionLease

@[simp] theorem Timers.now_cancelAny {α : Type} (t : Timers α) (timer : Option Nat) :
    (t.cancelAny timer).now = t.now := by
  cases timer <;> rfl

namespace Assignment

@[simp] theorem timers_vacate (a : Assignment) (key : String) (requeue : Bool) :
    (a.vacate key requeue).1.pool.timers = a.pool.timers.cancelAny (a.pool.used[key]?.bind (·.timer)) := by
  unfold vacate Pool.release Pool.pushIdle
  dsimp only
  repeat' split
  all_goals rfl

/-- `b` comes from `a` by vacating keys one after the other. What is known, marked and counted may change
in between. Apart from the checkouts themselves and from alarms that go off, this is all that ever happens
to the pool. -/
inductive Vacating (a : Assignment) : Assignment → Prop
  | refl : Vacating a a
  | aside {b d : Assignment} (first : Vacating a b) (pool : d.pool = b.pool) : Vacating a d
  | vacate {b : Assignment} (first : Vacating a b) (key : String) (requeue : Bool) :
      Vacating a (b.vacate key requeue).1

namespace Vacating

variable {a b d : Assignment}

theorem trans (first : Vacating a b) (later : Vacating b d) : Vacating a d := by
  induction later with
  | refl => exact first
  | aside _ pool ih => exact .aside ih pool
  | vacate _ key requeue ih => exact .vacate ih key requeue

theorem foldl {σ β : Type} (view : σ → Assignment) (f : σ → β → σ)
    (steps : ∀ s x, Vacating (view s) (view (f s x))) (items : List β) (s : σ) :
    Vacating (view s) (view (items.foldl f s)) := by
  induction items generalizing s with
  | nil => exact .refl
  | cons x rest ih => exact (steps s x).trans (ih (f s x))

theorem markKey (a : Assignment) (key : String) (consumed : Bool) : Vacating a (a.markKey key consumed) :=
  .aside .refl (pool_markKey a key consumed)

theorem withRegistry (a : Assignment) (registry : Registry) : Vacating a (a.withRegistry registry) :=
  .aside .refl rfl

theorem forget (a : Assignment) (key : String) : Vacating a (a.forget key).1 :=
  .vacate (withRegistry a (a.registry.remove key).1) key false

theorem add (a : Assignment) (consumer group : String) (p : Partition) :
    Vacating a (a.add consumer group p).1 := by
  have queued := Vacating.vacate (withRegistry a (a.registry.insert ⟨consumer, group, p⟩).1) p.key true
  unfold Assignment.add
  dsimp only
  split <;> exact .aside queued rfl

theorem withdrawOne (rollback : Bool) (state : Assignment × RemovedPartitions × Nat) (s : Subscription) :
    Vacating state.1 (withdrawOne rollback state s).1 := by
  unfold Assignment.withdrawOne
  dsimp only
  split
  · exact forget state.1 s.key
  · rename_i p known
    split
    · have marked : Vacating state.1 (state.1.mark p (!rollback)) := .aside .refl rfl
      exact marked.trans (forget _ s.key)
    · exact forget state.1 s.key

theorem withdraw (a : Assignment) (subscriptions : List Subscription) (rollback : Bool)
    (removed : RemovedPartitions) : Vacating a (a.withdraw subscriptions rollback removed).1 := by
  have gone := foldl (σ := Assignment × RemovedPartitions × Nat) (·.1) (Assignment.withdrawOne rollback)
    (withdrawOne rollback) subscriptions (a, removed, 0)
  unfold Assignment.withdraw
  split
  · exact .refl
  · exact .aside gone rfl

theorem drop (a : Assignment) (keys : List String) : Vacating a (a.drop keys).1 := by
  have gone := foldl (σ := Assignment × Nat) (·.1) dropOne (fun state key => forget state.1 key) keys (a, 0)
  rw [drop_eq]
  exact .aside gone rfl

theorem release (a : Assignment) (key : String) (consumed : Bool) :
    Vacating a (a.release key consumed).1 := by
  unfold Assignment.release
  split
  · exact .aside (.vacate (markKey a key consumed) key true) rfl
  · exact .refl

theorem reclaim (a : Assignment) (key : String) (requeue : Bool) :
    Vacating a (a.reclaim key requeue).1 := .aside (.vacate .refl key requeue) rfl

theorem expire (a : Assignment) (lease : Lease) : Vacating a (a.expire lease) := by
  unfold Assignment.expire
  split
  · exact .aside (.vacate (markKey a lease.key false) lease.key true) rfl
  · exact .refl

theorem vacateAll (a : Assignment) (keys : List String) : Vacating a (a.vacateAll keys) :=
  foldl id (fun a key => (a.vacate key true).1) (fun _ key => .vacate .refl key true) keys a

theorem sweep (a : Assignment) (now : UInt64) (maxAge : Duration) (order : List String) :
    Vacating a (a.sweep now maxAge order).1 :=
  .aside (vacateAll a _) (a.pool_sweep now maxAge order)

/-- Vacating takes no time, sets no alarm and makes no checkout. -/
theorem still (moves : Vacating a b) : b.pool.timers.now = a.pool.timers.now ∧
    b.pool.timers.kept = a.pool.timers.kept ∧ b.pool.timers.issued = a.pool.timers.issued ∧
    b.pool.issued = a.pool.issued := by
  induction moves with
  | refl => exact ⟨rfl, rfl, rfl, rfl⟩
  | aside _ pool ih => rwa [pool]
  | vacate _ key requeue ih =>
    simp only [timers_vacate, Timers.now_cancelAny, Timers.kept_cancelAny, Timers.issued_cancelAny,
      issued_vacate]
    exact ih

/-- A checkout that is left after vacating was there before, as it is. -/
theorem getElem?_used_of_some (moves : Vacating a b) {key : String} {checkout : Checkout}
    (left : b.pool.used[key]? = some checkout) : a.pool.used[key]? = some checkout := by
  induction moves with
  | refl => exact left
  | aside _ pool ih =>
    rw [pool] at left
    exact ih left
  | vacate _ k requeue ih =>
    rw [used_vacate, Std.ExtTreeMap.getElem?_erase] at left
    split at left
    · cases left
    · exact ih left

theorem armed_sublist (moves : Vacating a b) :
    b.pool.timers.armed.Sublist a.pool.timers.armed := by
  induction moves with
  | refl => exact List.Sublist.refl _
  | aside _ pool ih => rwa [pool]
  | vacate _ key requeue ih => exact (armed_vacate_sublist _ key requeue).trans ih

end Vacating

end Assignment

end PartitionLease

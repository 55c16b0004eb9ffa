import PartitionLease.Proofs.CheckoutEffects

namespace PartitionLease

theorem nodup_eraseDups (keys : List String) : keys.eraseDups.Nodup := by
  match keys with
  | [] => exact List.nodup_nil
  | key :: rest =>
    rw [List.eraseDups_cons, List.nodup_cons]
    refine ⟨by simp, ?_⟩
    have : (rest.filter fun other => !other == key).length ≤ rest.length := List.length_filter_le _ _
    exact nodup_eraseDups _
termination_by keys.length

theorem Pool.nodup_used {α : Type} (p : Pool α) : (p.used.toList.map (·.1)).Nodup :=
  Std.ExtTreeMap.map_fst_toList_eq_keys (t := p.used) ▸ Std.ExtTreeMap.nodup_keys

theorem Pool.nodup_expired {α : Type} (p : Pool α) (now limit : UInt64) : (p.expired now limit).Nodup :=
  p.nodup_used.sublist (List.filter_sublist.map _)

theorem Pool.mem_expired_iff {α : Type} {p : Pool α} {now limit : UInt64} {key : String} :
    key ∈ p.expired now limit ↔ ∃ since, p.since? key = some since ∧ limit.toNat < now.toNat - since.toNat := by
  simp only [expired, List.mem_map, List.mem_filter, decide_eq_true_eq, since?, Option.map_eq_some_iff]
  constructor
  · rintro ⟨⟨own, checkout⟩, ⟨listed, late⟩, rfl⟩
    exact ⟨_, ⟨checkout, Std.ExtTreeMap.mem_toList_iff_getElem?_eq_some.mp listed, rfl⟩, late⟩
  · rintro ⟨_, ⟨checkout, held, rfl⟩, late⟩
    exact ⟨(key, checkout), ⟨Std.ExtTreeMap.mem_toList_iff_getElem?_eq_some.mpr held, late⟩, rfl⟩

/-- What is overdue is checked out. -/
theorem Pool.isUsed_of_mem_expired {α : Type} {p : Pool α} {now limit : UInt64} {key : String}
    (overdue : key ∈ p.expired now limit) : p.isUsed key := by
  obtain ⟨since, held, -⟩ := mem_expired_iff.mp overdue
  obtain ⟨checkout, stored, -⟩ := Option.map_eq_some_iff.mp held
  rw [isUsed, Std.ExtTreeMap.contains_eq_isSome_getElem?, stored]
  rfl

namespace Registry

theorem contains_insert (r : Registry) (s : Subscription) (k : String) :
    (r.insert s).1.contains k ↔ s.key = k ∨ r.contains k := by
  simp only [contains_eq_isSome_find?, find?_insert]
  by_cases own : s.key = k <;> simp [own]

theorem contains_remove (r : Registry) (key k : String) :
    (r.remove key).1.contains k ↔ key ≠ k ∧ r.contains k := by
  simp only [contains_eq_isSome_find?, find?_remove]
  by_cases own : key = k <;> simp [own]

/-- Forgets some keys, one after the other. -/
def removeAll (r : Registry) (keys : List String) : Registry := keys.foldl (fun r key => (r.remove key).1) r

theorem contains_removeAll (r : Registry) (keys : List String) (k : String) :
    (r.removeAll keys).contains k ↔ k ∉ keys ∧ r.contains k := by
  induction keys generalizing r with
  | nil => simp [removeAll]
  | cons key rest ih =>
    refine (ih (r.remove key).1).trans ?_
    rw [contains_remove, List.mem_cons, not_or]
    constructor
    · rintro ⟨later, now, known⟩
      exact ⟨⟨Ne.symm now, later⟩, known⟩
    · rintro ⟨⟨now, later⟩, known⟩
      exact ⟨later, Ne.symm now, known⟩

end Registry

namespace Assignment

variable {a b d : Assignment}

theorem nodup_arrange (order : List String) {due : List String} (distinct : due.Nodup) :
    (arrange order due).Nodup := by
  rw [arrange, List.nodup_append]
  refine ⟨(nodup_eraseDups order).filter _, distinct.filter _, ?_⟩
  rintro key first _ last rfl
  have named := List.mem_eraseDups.mp (List.mem_filter.mp first).1
  have other := (List.mem_filter.mp last).2
  simp [named] at other

/-- A key that comes out of a consumer's hands and is queued goes behind all that is in line. -/
theorem Sound.idle_vacate_of_used (sound : a.Sound) {key : String} (out : a.pool.isUsed key) :
    (a.vacate key true).1.pool.idle = a.pool.idle ++ [key] := by
  have absent : key ∉ a.pool.idle := by
    intro member
    have free := sound.idle_free key member
    rw [out] at free
    cases free
  rw [idle_vacate sound.once, List.erase_of_not_mem absent, sound.used_known key out]
  rfl

/-- For the pool it makes no difference whether the key was known. -/
theorem pool_add (a : Assignment) (consumer group : String) (p : Partition) :
    (a.add consumer group p).1.pool =
      ((a.withRegistry (a.registry.insert ⟨consumer, group, p⟩).1).vacate p.key true).1.pool := by
  unfold add
  dsimp only
  split <;> rfl

theorem Sound.idle_add (sound : a.Sound) (consumer group : String) (p : Partition) :
    (a.add consumer group p).1.pool.idle = a.pool.idle.erase p.key ++ [p.key] := by
  have known := (a.registry.contains_insert ⟨consumer, group, p⟩ p.key).mpr (Or.inl rfl)
  have queued := idle_vacate (sound.insert ⟨consumer, group, p⟩).once p.key true
  rw [pool_add, queued, withRegistry, known]
  rfl

theorem registry_add (a : Assignment) (consumer group : String) (p : Partition) :
    (a.add consumer group p).1.registry = (a.registry.insert ⟨consumer, group, p⟩).1 := by
  unfold add
  dsimp only
  split <;> rfl

theorem contains_add (a : Assignment) (consumer group : String) (p : Partition) (k : String) :
    (a.add consumer group p).1.registry.contains k ↔ p.key = k ∨ a.registry.contains k := by
  rw [registry_add]
  exact a.registry.contains_insert ⟨consumer, group, p⟩ k

/-- From `a` to `b` some keys are forgotten: they are gone from the line, and not known any more. -/
structure Forgets (a b : Assignment) (keys : List String) : Prop where
  idle : b.pool.idle = a.pool.idle.filter (· ∉ keys)
  known : ∀ k, b.registry.contains k ↔ k ∉ keys ∧ a.registry.contains k

namespace Forgets

theorem refl (a : Assignment) : Forgets a a [] := ⟨by simp, by simp⟩

theorem trans {keys more : List String} (first : Forgets a b keys) (later : Forgets b d more) :
    Forgets a d (keys ++ more) where
  idle := by
    rw [later.idle, first.idle, List.filter_filter]
    refine List.filter_congr fun k _ => ?_
    simp [Bool.and_comm]
  known := by
    intro k
    rw [later.known, first.known, List.mem_append, not_or]
    exact ⟨fun ⟨still, early, known⟩ => ⟨⟨early, still⟩, known⟩,
      fun ⟨⟨early, still⟩, known⟩ => ⟨still, early, known⟩⟩

theorem forget (sound : a.Sound) (key : String) : Forgets a (a.forget key).1 [key] where
  idle := by
    rw [idle_forget, sound.once.erase_eq_filter]
    refine List.filter_congr fun k _ => ?_
    by_cases own : k = key <;> simp [own]
  known := by
    intro k
    rw [List.mem_singleton, ← ne_eq, ne_comm]
    exact a.registry.contains_remove key k

theorem foldl {σ β : Type} (view : σ → Assignment) (f : σ → β → σ) (key : β → String)
    (keeps : ∀ s x, (view s).Sound → (view (f s x)).Sound)
    (steps : ∀ s x, (view s).Sound → Forgets (view s) (view (f s x)) [key x])
    (items : List β) (s : σ) (sound : (view s).Sound) :
    Forgets (view s) (view (items.foldl f s)) (items.map key) := by
  induction items generalizing s with
  | nil => exact refl _
  | cons x rest ih => exact (steps s x sound).trans (ih (f s x) (keeps s x sound))

theorem withdrawOne (rollback : Bool) (state : Assignment × RemovedPartitions × Nat)
    (s : Subscription) (sound : state.1.Sound) :
    Forgets state.1 (withdrawOne rollback state s).1 [s.key] := by
  unfold Assignment.withdrawOne
  dsimp only
  split
  · exact forget sound s.key
  · rename_i p known
    split
    · have gone := forget (sound.mark p (!rollback)) s.key
      exact ⟨gone.idle, gone.known⟩
    · exact forget sound s.key

theorem withdraw (sound : a.Sound) (subscriptions : List Subscription) (rollback : Bool)
    (removed : RemovedPartitions) :
    Forgets a (a.withdraw subscriptions rollback removed).1 (subscriptions.map (·.key)) := by
  have gone := foldl (σ := Assignment × RemovedPartitions × Nat) (·.1) (Assignment.withdrawOne rollback)
    (·.key) (fun _ s sound => sound.withdrawOne rollback s) (withdrawOne rollback) subscriptions
    (a, removed, 0) sound
  unfold Assignment.withdraw
  cases subscriptions with
  | nil => exact refl a
  | cons s rest => exact ⟨gone.idle, gone.known⟩

theorem drop (sound : a.Sound) (keys : List String) : Forgets a (a.drop keys).1 keys := by
  have gone := foldl (σ := Assignment × Nat) (·.1) dropOne id
    (fun _ key sound => sound.forget key) (fun _ key sound => forget sound key) keys (a, 0) sound
  rw [drop_eq]
  rw [List.map_id] at gone
  exact ⟨gone.idle, gone.known⟩

end Forgets

theorem Sound.idle_release (sound : a.Sound) {key : String} (out : a.pool.isUsed key) (consumed : Bool) :
    (a.release key consumed).1.pool.idle = a.pool.idle ++ [key] := by
  have still : (a.markKey key consumed).pool.isUsed key := by rwa [pool_markKey]
  have queued := (sound.markKey key consumed).idle_vacate_of_used still
  rw [pool_markKey] at queued
  rw [Assignment.release, if_pos out]
  exact queued

theorem Sound.idle_expire (sound : a.Sound) {lease : Lease}
    (live : a.pool.token? lease.key = some lease.token) :
    (a.expire lease).pool.idle = a.pool.idle ++ [lease.key] := by
  have out : (a.markKey lease.key false).pool.isUsed lease.key := by
    rw [pool_markKey]
    exact Pool.isUsed_of_token? live
  have queued := (sound.markKey lease.key false).idle_vacate_of_used out
  rw [pool_markKey] at queued
  rw [Assignment.expire, if_pos live]
  exact queued

theorem registry_foldl {σ β : Type} (view : σ → Assignment) (f : σ → β → σ) (key : β → String)
    (removes : ∀ s x, (view (f s x)).registry = ((view s).registry.remove (key x)).1) (items : List β) (s : σ) :
    (view (items.foldl f s)).registry = (view s).registry.removeAll (items.map key) := by
  induction items generalizing s with
  | nil => rfl
  | cons x rest ih =>
    rw [List.foldl_cons, ih, removes]
    rfl

theorem registry_withdrawOne (rollback : Bool) (state : Assignment × RemovedPartitions × Nat)
    (s : Subscription) : (withdrawOne rollback state s).1.registry = (state.1.registry.remove s.key).1 := by
  unfold Assignment.withdrawOne
  dsimp only
  split
  · rfl
  · split <;> rfl

theorem registry_withdraw (a : Assignment) (subscriptions : List Subscription) (rollback : Bool)
    (removed : RemovedPartitions) : (a.withdraw subscriptions rollback removed).1.registry =
      a.registry.removeAll (subscriptions.map (·.key)) := by
  have gone := registry_foldl (σ := Assignment × RemovedPartitions × Nat) (·.1) (withdrawOne rollback)
    (·.key) (registry_withdrawOne rollback) subscriptions (a, removed, 0)
  unfold withdraw
  cases subscriptions with
  | nil => rfl
  | cons s rest => exact gone

theorem registry_drop (a : Assignment) (keys : List String) :
    (a.drop keys).1.registry = a.registry.removeAll keys := by
  have gone := registry_foldl (σ := Assignment × Nat) (·.1) dropOne id (fun _ _ => rfl) keys (a, 0)
  rw [drop_eq]
  rwa [List.map_id] at gone

@[simp] theorem registry_release (a : Assignment) (key : String) (consumed : Bool) :
    (a.release key consumed).1.registry = a.registry := by
  unfold release
  split
  · exact registry_markKey a key consumed
  · rfl

@[simp] theorem registry_expire (a : Assignment) (lease : Lease) : (a.expire lease).registry = a.registry := by
  unfold expire
  split
  · exact registry_markKey a lease.key false
  · rfl

theorem Sound.idle_vacateAll (sound : a.Sound) {keys : List String} (distinct : keys.Nodup)
    (out : ∀ key ∈ keys, a.pool.isUsed key) : (a.vacateAll keys).pool.idle = a.pool.idle ++ keys := by
  induction keys generalizing a with
  | nil => exact (List.append_nil _).symm
  | cons key rest ih =>
    rw [List.nodup_cons] at distinct
    have first := sound.idle_vacate_of_used (out key List.mem_cons_self)
    refine (ih (sound.vacate key true) distinct.2 (isUsed_vacate_first distinct.1 out)).trans ?_
    rw [first, List.append_assoc]
    rfl

theorem Sound.idle_sweep (sound : a.Sound) (now : UInt64) (maxAge : Duration) (order : List String) :
    (a.sweep now maxAge order).1.pool.idle =
      a.pool.idle ++ arrange order (a.pool.expired now maxAge.wholeMillis) := by
  rw [pool_sweep]
  exact sound.idle_vacateAll (nodup_arrange order (a.pool.nodup_expired now maxAge.wholeMillis))
    fun key due => Pool.isUsed_of_mem_expired (mem_arrange.mp due)

end Assignment

end PartitionLease

import PartitionLease.Proofs.LineEffects

namespace PartitionLease

namespace Assignment

variable {a : Assignment}

theorem marks_add (a : Assignment) (consumer group : String) (p : Partition) :
    (a.add consumer group p).1.marks = a.marks := by
  unfold add
  dsimp only
  split <;> rfl

theorem marks_drop (a : Assignment) (keys : List String) : (a.drop keys).1.marks = a.marks := by
  have gone (state : Assignment × Nat) : (keys.foldl dropOne state).1.marks = state.1.marks := by
    induction keys generalizing state with
    | nil => rfl
    | cons key rest ih => exact ih _
  rw [drop_eq]
  exact gone (a, 0)

/-- Written by its key is the mark of the very partition that is known, and of no other with that key. -/
theorem Sound.marks_markKey (sound : a.Sound) (key : String) (consumed : Bool)
    (p : Partition) : (a.markKey key consumed).marks p =
      if p.key = key ∧ a.registry.find? p.key = some p then consumed else a.marks p := by
  unfold Assignment.markKey
  split
  · rename_i q known
    have own := sound.registry.keyed key q known
    by_cases same : p = q
    · subst same
      rw [if_pos ⟨own, own ▸ known⟩]
      exact Marks.write_self a.marks p consumed
    · rw [if_neg]
      · exact Marks.write_of_ne a.marks consumed same
      · rintro ⟨ownToo, knownToo⟩
        rw [ownToo, known] at knownToo
        exact same (Option.some.inj knownToo).symm
  · rename_i unknown
    rw [if_neg]
    rintro ⟨rfl, known⟩
    rw [unknown] at known
    cases known

theorem Sound.marks_markAll (sound : a.Sound) (keys : List String) (p : Partition) :
    (a.markAll keys).marks p =
      if p.key ∈ keys ∧ a.registry.find? p.key = some p then false else a.marks p := by
  induction keys generalizing a with
  | nil => simp [markAll]
  | cons key rest ih =>
    refine (ih (sound.markKey key false)).trans ?_
    rw [registry_markKey, sound.marks_markKey]
    by_cases known : a.registry.find? p.key = some p
    · simp only [known, and_true, List.mem_cons]
      by_cases later : p.key ∈ rest
      · rw [if_pos later, if_pos (Or.inr later)]
      · simp only [later, or_false, if_false]
    · simp [known]

theorem Sound.marks_release (sound : a.Sound) (key : String) (consumed : Bool)
    (p : Partition) : (a.release key consumed).1.marks p =
      if a.pool.isUsed key ∧ p.key = key ∧ a.registry.find? p.key = some p then consumed else a.marks p := by
  unfold Assignment.release
  split
  · rename_i out
    simp only [out, true_and]
    exact sound.marks_markKey key consumed p
  · rename_i free
    rw [if_neg fun all => free all.1]

theorem Sound.marks_expire (sound : a.Sound) (lease : Lease) (p : Partition) :
    (a.expire lease).marks p = if a.pool.token? lease.key = some lease.token ∧ p.key = lease.key ∧
      a.registry.find? p.key = some p then false else a.marks p := by
  unfold Assignment.expire
  split
  · rename_i live
    simp only [live, true_and]
    exact sound.marks_markKey lease.key false p
  · rename_i stale
    rw [if_neg fun all => stale all.1]

theorem Sound.marks_sweep (sound : a.Sound) (now : UInt64) (maxAge : Duration)
    (order : List String) (p : Partition) : (a.sweep now maxAge order).1.marks p =
      if p.key ∈ a.pool.expired now maxAge.wholeMillis ∧ a.registry.find? p.key = some p then false
      else a.marks p := by
  have marked := sound.marks_markAll (arrange order (a.pool.expired now maxAge.wholeMillis)) p
  simp only [mem_arrange] at marked
  rw [Assignment.marks_sweep]
  exact marked

theorem Sound.marks_withdrawOne (rollback : Bool) {state : Assignment × RemovedPartitions × Nat}
    (sound : state.1.Sound) (s : Subscription) (p : Partition) :
    (Assignment.withdrawOne rollback state s).1.marks p =
      if p.key = s.key ∧ state.1.registry.find? p.key = some p ∧ state.1.pool.isUsed p.key then !rollback
      else state.1.marks p := by
  obtain ⟨a, removed, count⟩ := state
  have byKey := sound.marks_markKey s.key (!rollback) p
  unfold Assignment.markKey at byKey
  unfold Assignment.withdrawOne
  dsimp only at byKey ⊢
  split
  · rename_i unknown
    rw [if_neg]
    · rfl
    · rintro ⟨own, known, -⟩
      rw [own, unknown] at known
      cases known
  · rename_i q known
    rw [known] at byKey
    split
    · rename_i out
      refine byKey.trans ?_
      by_cases own : p.key = s.key
      · simp [own, out]
      · simp [own]
    · rename_i free
      rw [if_neg]
      · rfl
      · rintro ⟨own, -, out⟩
        exact free (own ▸ out)

/-- Of the partitions withdrawn those that are checked out are marked, each when its key is first come upon. -/
theorem Sound.marks_withdraw (sound : a.Sound) (subscriptions : List Subscription)
    (rollback : Bool) (removed : RemovedPartitions) (p : Partition) :
    (a.withdraw subscriptions rollback removed).1.marks p =
      if p.key ∈ subscriptions.map (·.key) ∧ a.registry.find? p.key = some p ∧ a.pool.isUsed p.key then
        !rollback
      else a.marks p := by
  have marked (items : List Subscription) (state : Assignment × RemovedPartitions × Nat)
      (sound : state.1.Sound) : (items.foldl (Assignment.withdrawOne rollback) state).1.marks p =
        if p.key ∈ items.map (·.key) ∧ state.1.registry.find? p.key = some p ∧ state.1.pool.isUsed p.key then
          !rollback
        else state.1.marks p := by
    induction items generalizing state with
    | nil => simp
    | cons s rest ih =>
      refine (ih _ (sound.withdrawOne rollback s)).trans ?_
      rw [sound.marks_withdrawOne, registry_withdrawOne, Registry.find?_remove, Pool.isUsed, used_withdrawOne,
        Std.ExtTreeMap.contains_erase]
      by_cases own : p.key = s.key
      · simp [own]
      · simp [own, Ne.symm own, Pool.isUsed]
  unfold Assignment.withdraw
  cases subscriptions with
  | nil => simp
  | cons s rest => exact marked (s :: rest) (a, removed, 0) sound

end Assignment

end PartitionLease

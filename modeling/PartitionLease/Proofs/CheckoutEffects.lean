import PartitionLease.Proofs.AssignmentSoundness
import PartitionLease.Proofs.Vacating

namespace PartitionLease

namespace Assignment

variable (a : Assignment)

/-- Ending the checkouts of some keys one after the other leaves the checkouts of all other keys. -/
theorem getElem?_used_foldl {σ β : Type} (view : σ → Assignment) (f : σ → β → σ) (key : β → String)
    (ends : ∀ s x, (view (f s x)).pool.used = (view s).pool.used.erase (key x)) (items : List β) (s : σ)
    (k : String) : (view (items.foldl f s)).pool.used[k]? =
      if k ∈ items.map key then none else (view s).pool.used[k]? := by
  induction items generalizing s with
  | nil => simp
  | cons x rest ih =>
    rw [List.foldl_cons, ih, ends, Std.ExtTreeMap.getElem?_erase]
    simp only [Std.LawfulEqCmp.compare_eq_iff_eq, List.map_cons, List.mem_cons]
    by_cases later : k ∈ rest.map key
    · simp [later]
    · by_cases now : key x = k
      · simp [now]
      · simp [later, now, Ne.symm now]

theorem used_add (consumer group : String) (p : Partition) :
    (a.add consumer group p).1.pool.used = a.pool.used.erase p.key := by
  unfold add
  dsimp only
  split <;> simp

theorem used_release (key : String) (consumed : Bool) :
    (a.release key consumed).1.pool.used = a.pool.used.erase key := by
  unfold release
  split
  · simp
  · rename_i free
    exact (Pool.erase_used_of_not_isUsed (Bool.eq_false_iff.mpr free)).symm

theorem used_reclaim (key : String) (requeue : Bool) :
    (a.reclaim key requeue).1.pool.used = a.pool.used.erase key :=
  used_vacate a key requeue

theorem used_withdrawOne (rollback : Bool) (state : Assignment × RemovedPartitions × Nat) (s : Subscription) :
    (withdrawOne rollback state s).1.pool.used = state.1.pool.used.erase s.key := by
  unfold withdrawOne
  dsimp only
  split
  · simp
  · split <;> simp

theorem getElem?_used_withdraw (subscriptions : List Subscription) (rollback : Bool)
    (removed : RemovedPartitions) (k : String) :
    (a.withdraw subscriptions rollback removed).1.pool.used[k]? =
      if k ∈ subscriptions.map (·.key) then none else a.pool.used[k]? := by
  have gone := getElem?_used_foldl (σ := Assignment × RemovedPartitions × Nat) (·.1)
    (withdrawOne rollback) (·.key) (used_withdrawOne rollback) subscriptions (a, removed, 0) k
  unfold withdraw
  cases subscriptions with
  | nil => simp
  | cons s rest => exact gone

theorem getElem?_used_drop (keys : List String) (k : String) :
    (a.drop keys).1.pool.used[k]? = if k ∈ keys then none else a.pool.used[k]? := by
  have gone := getElem?_used_foldl (σ := Assignment × Nat) (·.1) dropOne id
    (fun state key => used_forget state.1 key) keys (a, 0) k
  rw [drop_eq]
  rwa [List.map_id] at gone

theorem mem_arrange {order due : List String} {key : String} : key ∈ arrange order due ↔ key ∈ due := by
  simp only [arrange, List.mem_append, List.mem_filter, List.mem_eraseDups, List.contains_iff_mem,
    Bool.not_eq_true', ← Bool.not_eq_true]
  by_cases named : key ∈ order <;> simp [named]

theorem getElem?_used_vacateAll (keys : List String) (k : String) :
    (a.vacateAll keys).pool.used[k]? = if k ∈ keys then none else a.pool.used[k]? := by
  have gone := getElem?_used_foldl id (fun a key => (a.vacate key true).1) id
    (fun a key => used_vacate a key true) keys a k
  rwa [List.map_id] at gone

theorem getElem?_used_sweep (now : UInt64) (maxAge : Duration) (order : List String) (k : String) :
    (a.sweep now maxAge order).1.pool.used[k]? =
      if k ∈ a.pool.expired now maxAge.wholeMillis then none else a.pool.used[k]? := by
  rw [pool_sweep, getElem?_used_vacateAll]
  simp only [mem_arrange]

theorem used_expire (lease : Lease) : (a.expire lease).pool.used =
    if a.pool.token? lease.key = some lease.token then a.pool.used.erase lease.key else a.pool.used := by
  unfold expire
  split <;> simp

/-- Checkouts that run out end by an alarm of theirs that is due, and the other checkouts stay. -/
theorem getElem?_used_expireDue (limit n : Nat) (k : String) :
    (a.expireDue limit n).pool.used[k]? = a.pool.used[k]? ∨
      (a.expireDue limit n).pool.used[k]? = none ∧ ∃ alarm ∈ a.pool.timers.armed,
        alarm.due ≤ limit ∧ alarm.job.key = k ∧ a.pool.token? k = some alarm.job.token := by
  induction n generalizing a with
  | zero => exact Or.inl rfl
  | succ n ih =>
    rw [expireDue]
    split
    · exact Or.inl rfl
    · rename_i alarm later found
      obtain ⟨due, line, -⟩ := Timers.next?_eq_some found
      have first : alarm ∈ a.pool.timers.armed := line ▸ List.mem_cons_self
      have used := used_expire (a.withPool (a.pool.withTimers later)) alarm.job
      have fewer := (armed_expire_sublist (a.withPool (a.pool.withTimers later)) alarm.job).subset
      have rest : ∀ next ∈ ((a.withPool (a.pool.withTimers later)).expire alarm.job).pool.timers.armed,
          next ∈ a.pool.timers.armed := by
        intro next armed
        rw [line]
        exact List.mem_cons_of_mem _ (fewer armed)
      have after := ih ((a.withPool (a.pool.withTimers later)).expire alarm.job)
      by_cases own : alarm.job.key = k ∧ a.pool.token? k = some alarm.job.token
      · obtain ⟨rfl, held⟩ := own
        have live : (a.withPool (a.pool.withTimers later)).pool.token? alarm.job.key =
            some alarm.job.token := held
        rw [if_pos live] at used
        have gone : ((a.withPool (a.pool.withTimers later)).expire alarm.job).pool.used[alarm.job.key]? =
            none := by rw [used, Std.ExtTreeMap.getElem?_erase_self]
        refine Or.inr ⟨?_, alarm, first, due, rfl, held⟩
        rcases after with same | ended
        · rw [same, gone]
        · exact ended.1
      · have same : ((a.withPool (a.pool.withTimers later)).expire alarm.job).pool.used[k]? =
            a.pool.used[k]? := by
          rw [used]
          split
          · rename_i live
            rw [Std.ExtTreeMap.getElem?_erase, if_neg]
            · rfl
            · rw [Std.LawfulEqCmp.compare_eq_iff_eq]
              rintro rfl
              exact own ⟨rfl, live⟩
          · rfl
        rw [same, Pool.token?_congr same] at after
        refine after.imp_right ?_
        rintro ⟨gone, next, armed, ended⟩
        exact ⟨gone, next, rest next armed, ended⟩

theorem getElem?_used_passTo (limit : Nat) (k : String) :
    (a.passTo limit).pool.used[k]? = a.pool.used[k]? ∨
      (a.passTo limit).pool.used[k]? = none ∧ ∃ alarm ∈ a.pool.timers.armed,
        alarm.due ≤ limit ∧ alarm.job.key = k ∧ a.pool.token? k = some alarm.job.token :=
  getElem?_used_expireDue a limit _ k

/-- From `a` to `b` no checkout is made: no number is issued and no alarm is set. -/
structure OnlyEnds (a b : Assignment) : Prop where
  issued : b.pool.issued = a.pool.issued
  armed : b.pool.timers.armed.Sublist a.pool.timers.armed

namespace OnlyEnds

variable {a b d : Assignment}

theorem refl (a : Assignment) : OnlyEnds a a := ⟨rfl, List.Sublist.refl _⟩

theorem trans (first : OnlyEnds a b) (later : OnlyEnds b d) : OnlyEnds a d :=
  ⟨later.issued.trans first.issued, later.armed.trans first.armed⟩

theorem of_vacating (moves : Vacating a b) : OnlyEnds a b := ⟨moves.still.2.2.2, moves.armed_sublist⟩

theorem expireDue (a : Assignment) (limit n : Nat) : OnlyEnds a (a.expireDue limit n) := by
  induction n generalizing a with
  | zero => exact refl a
  | succ n ih =>
    rw [Assignment.expireDue]
    split
    · exact refl a
    · rename_i alarm later found
      have fewer : OnlyEnds a (a.withPool (a.pool.withTimers later)) :=
        ⟨rfl, (Timers.next?_eq_some found).2.1 ▸ List.sublist_cons_self _ _⟩
      exact fewer.trans ((of_vacating (.expire _ alarm.job)).trans (ih _))

theorem passTo (a : Assignment) (limit : Nat) : OnlyEnds a (a.passTo limit) := by
  have past := expireDue a limit a.pool.timers.armed.length
  exact ⟨past.issued, past.armed⟩

end OnlyEnds

end Assignment

end PartitionLease

import PartitionLease.Proofs.CacheInvariants
import PartitionLease.Proofs.CheckoutEffects

namespace PartitionLease

namespace Cache

/-- The checkout that an action makes: the key it hands out and the number the checkout gets, which an
alarm set for it carries. -/
def handsOut? (c : Cache) (action : Action) : Option Lease :=
  match action, (c.step action).2 with
  | .take, .partition (some p) => some ⟨p.key, c.assignment.pool.issued + 1⟩
  | .markUsed key, .flag true => some ⟨key, c.assignment.pool.issued + 1⟩
  | _, _ => none

/-- The ways in which an action can end the checkout `lease` in the state `c`. -/
inductive EndedBy (c : Cache) (lease : Lease) : Action → Prop
  | returned (consumed : Bool) (accepted : (c.step (.release lease.key consumed)).2 = .flag true) :
      EndedBy c lease (.release lease.key consumed)
  | reclaimed (requeue : Bool) : EndedBy c lease (.reclaim lease.key requeue)
  | registered (p : Partition) (own : p.key = lease.key) : EndedBy c lease (.add p)
  | withdrawn (subscriptions : List Subscription) (rollback : Bool) (removed : RemovedPartitions)
      (named : ∃ s ∈ subscriptions, s.key = lease.key) :
      EndedBy c lease (.withdraw subscriptions rollback removed)
  | dropped (keys : List String) (named : lease.key ∈ keys) : EndedBy c lease (.drop keys)
  | swept (maxAge : Duration) (order : List String)
      (overdue : lease.key ∈ c.assignment.pool.expired c.clock.now maxAge.wholeMillis) :
      EndedBy c lease (.sweep maxAge order)
  | expired : EndedBy c lease (.expire lease)
  | ranOut (millis : Nat) (alarm : Alarm Lease) (armed : alarm ∈ c.assignment.pool.timers.armed)
      (own : alarm.job = lease) (due : alarm.due ≤ c.assignment.pool.timers.now + millis) :
      EndedBy c lease (.pass millis)

/-- What one action can do to the checkout of one key: nothing, end it, or make it. -/
inductive CheckoutStep (c : Cache) (action : Action) (key : String) : Prop
  | kept (same : (c.step action).1.assignment.pool.token? key = c.assignment.pool.token? key)
  | ended (token : Nat) (held : c.assignment.pool.token? key = some token)
      (gone : (c.step action).1.assignment.pool.token? key = none) (way : EndedBy c ⟨key, token⟩ action)
  | made (handed : c.handsOut? action = some ⟨key, c.assignment.pool.issued + 1⟩)
      (held : (c.step action).1.assignment.pool.token? key = some (c.assignment.pool.issued + 1))

/-- An action that ends the checkouts of some keys and touches no others. -/
theorem CheckoutStep.of_ending {c : Cache} {action : Action} {key : String} {P : Prop} [Decidable P]
    (effect : (c.step action).1.assignment.pool.used[key]? =
      if P then none else c.assignment.pool.used[key]?)
    (way : P → ∀ token, c.assignment.pool.token? key = some token → EndedBy c ⟨key, token⟩ action) :
    CheckoutStep c action key := by
  by_cases named : P
  · rw [if_pos named] at effect
    have gone : (c.step action).1.assignment.pool.token? key = none := by
      rw [Pool.token?, effect, Option.map_none]
    cases held : c.assignment.pool.token? key with
    | none => exact .kept (gone.trans held.symm)
    | some token => exact .ended token held gone (way named token held)
  · rw [if_neg named] at effect
    exact .kept (Pool.token?_congr effect)

theorem getElem?_used_of_erase {a b : Assignment} {key : String}
    (effect : b.pool.used = a.pool.used.erase key) (k : String) :
    b.pool.used[k]? = if key = k then none else a.pool.used[k]? := by
  rw [effect, Std.ExtTreeMap.getElem?_erase]
  simp only [Std.LawfulEqCmp.compare_eq_iff_eq]

theorem handsOut?_markUsed (c : Cache) (key : String) : c.handsOut? (.markUsed key) =
    if c.assignment.registry.contains key && !c.assignment.pool.isUsed key then
      some ⟨key, c.assignment.pool.issued + 1⟩ else none := by
  have reply : (c.step (.markUsed key)).2 =
      .flag (c.assignment.registry.contains key && !c.assignment.pool.isUsed key) := by
    simp only [step, Assignment.markUsed]
    split <;> simp_all
  cases allowed : c.assignment.registry.contains key && !c.assignment.pool.isUsed key <;>
    simp [handsOut?, reply, allowed]

/-- Taking hands out the first key in line. -/
theorem handsOut?_take {c : Cache} (sound : c.assignment.Sound) : c.handsOut? .take =
    c.assignment.pool.idle.head?.map fun key => ⟨key, c.assignment.pool.issued + 1⟩ := by
  cases line : c.assignment.pool.idle with
  | nil => simp [handsOut?, step, sound.take_nil line]
  | cons key rest =>
    have known := sound.idle_known key (line ▸ List.mem_cons_self)
    rw [Registry.contains_eq_isSome_find?] at known
    obtain ⟨p, found⟩ := Option.isSome_iff_exists.mp known
    have own := sound.registry.keyed key p found
    simp [handsOut?, step, sound.take_cons line, found, own]

theorem token?_checkOut (a : Assignment) (key : String) (now : UInt64) (lease? : Option Duration) (k : String) :
    (a.checkOut key now lease?).pool.token? k =
      if key = k then some (a.pool.issued + 1) else a.pool.token? k := by
  rw [Pool.token?, Assignment.used_checkOut, Std.ExtTreeMap.getElem?_insert]
  simp only [Std.LawfulEqCmp.compare_eq_iff_eq]
  split <;> rfl

/-- All that happens when an action hands a key out: a known key that is not checked out is checked out
under the next number. -/
theorem step_of_handsOut? {c : Cache} (sound : c.assignment.Sound) {action : Action} {lease : Lease}
    (handed : c.handsOut? action = some lease) :
    lease.token = c.assignment.pool.issued + 1 ∧ c.assignment.registry.contains lease.key ∧
      c.assignment.pool.isUsed lease.key = false ∧ (c.step action).1.assignment =
        (c.assignment.checkOut lease.key c.clock.now c.config.lease?).publish := by
  cases action with
  | take =>
    rw [handsOut?_take sound] at handed
    obtain ⟨key, first, rfl⟩ := Option.map_eq_some_iff.mp handed
    obtain ⟨rest, line⟩ := List.head?_eq_some_iff.mp first
    have member : key ∈ c.assignment.pool.idle := line ▸ List.mem_cons_self
    refine ⟨rfl, sound.idle_known key member, sound.idle_free key member, ?_⟩
    simp [step, sound.take_cons line]
  | markUsed key =>
    rw [handsOut?_markUsed] at handed
    split at handed
    · rename_i allowed
      obtain rfl := Option.some.inj handed
      obtain ⟨known, free⟩ := Bool.and_eq_true_iff.mp allowed
      refine ⟨rfl, known, by simpa using free, ?_⟩
      simp [step, Assignment.markUsed, allowed]
    · cases handed
  | _ => simp [handsOut?] at handed

/-- What has been handed out is checked out under the number of that checkout. -/
theorem token?_of_handsOut? {c : Cache} (sound : c.assignment.Sound) {action : Action} {lease : Lease}
    (handed : c.handsOut? action = some lease) :
    (c.step action).1.assignment.pool.token? lease.key = some lease.token := by
  obtain ⟨token, -, -, after⟩ := step_of_handsOut? sound handed
  have held := token?_checkOut c.assignment lease.key c.clock.now c.config.lease? lease.key
  rw [after, token]
  exact held.trans (if_pos rfl)

/-- An action in which no time passes and that hands nothing out does no more to the pool than vacate keys. -/
theorem vacating_step {c : Cache} (sound : c.assignment.Sound) {action : Action}
    (quiet : c.handsOut? action = none) (still : ∀ millis, action ≠ .pass millis) :
    Assignment.Vacating c.assignment (c.step action).1.assignment := by
  cases action with
  | setConsumer consumer group => exact .refl
  | setClock millis => exact .refl
  | advanceClock span =>
    rw [assignment_advanceClock]
    exact .refl
  | add p => exact .add c.assignment c.session.consumer c.session.group p
  | withdraw subscriptions rollback removed => exact .withdraw c.assignment subscriptions rollback removed
  | drop keys => exact .drop c.assignment keys
  | take =>
    rw [handsOut?_take sound, Option.map_eq_none_iff, List.head?_eq_none_iff] at quiet
    simp only [step, sound.take_nil quiet]
    exact .refl
  | markUsed key =>
    rw [handsOut?_markUsed] at quiet
    split at quiet
    · cases quiet
    · rename_i refused
      simp only [step, Assignment.markUsed, if_neg refused]
      exact .refl
  | release key consumed => exact .release c.assignment key consumed
  | reclaim key requeue => exact .reclaim c.assignment key requeue
  | sweep maxAge order => exact .sweep c.assignment c.clock.now maxAge order
  | expire lease => exact .expire c.assignment lease
  | pass millis => exact absurd rfl (still millis)
  | mark p consumed => exact .aside .refl rfl
  | present key => exact .refl
  | events action => exact .refl

/-- An action that hands nothing out makes no checkout. -/
theorem onlyEnds_step {c : Cache} (sound : c.assignment.Sound) {action : Action}
    (quiet : c.handsOut? action = none) :
    Assignment.OnlyEnds c.assignment (c.step action).1.assignment := by
  by_cases still : ∀ millis, action ≠ .pass millis
  · exact .of_vacating (vacating_step sound quiet still)
  · simp only [not_forall, ne_eq, not_not] at still
    obtain ⟨millis, rfl⟩ := still
    rw [step, pass]
    split
    · exact .refl _
    · exact .passTo c.assignment _

/-- The number of checkouts ever made goes up by one with each. -/
theorem issued_step {c : Cache} (sound : c.assignment.Sound) (action : Action) :
    (c.step action).1.assignment.pool.issued =
      c.assignment.pool.issued + (c.handsOut? action).toList.length := by
  cases handed : c.handsOut? action with
  | none => exact (onlyEnds_step sound handed).issued
  | some lease =>
    rw [(step_of_handsOut? sound handed).2.2.2]
    exact Assignment.issued_checkOut _ _ _ _

/-- An alarm that an action sets is for the checkout that it makes. -/
theorem armed_step {c : Cache} (sound : c.assignment.Sound) {action : Action} {alarm : Alarm Lease}
    (armed : alarm ∈ (c.step action).1.assignment.pool.timers.armed) :
    alarm ∈ c.assignment.pool.timers.armed ∨ c.handsOut? action = some alarm.job := by
  cases handed : c.handsOut? action with
  | none => exact Or.inl ((onlyEnds_step sound handed).armed.subset armed)
  | some lease =>
    obtain ⟨token, -, -, after⟩ := step_of_handsOut? sound handed
    rw [after] at armed
    refine (Assignment.armed_checkOut _ _ _ _ armed).imp_right fun own => ?_
    rw [own, ← token]

theorem checkoutStep {c : Cache} (sound : c.assignment.Sound) (action : Action) (key : String) :
    CheckoutStep c action key := by
  cases handed : c.handsOut? action with
  | some lease =>
    obtain ⟨token, -, -, after⟩ := step_of_handsOut? sound handed
    have held := token?_checkOut c.assignment lease.key c.clock.now c.config.lease? key
    by_cases own : lease.key = key
    · subst own
      refine .made (by rw [handed, ← token]) ?_
      rw [after]
      exact held.trans (if_pos rfl)
    · refine .kept ?_
      rw [after]
      exact held.trans (if_neg own)
  | none =>
    cases action with
    | setConsumer consumer group => exact .kept rfl
    | setClock millis => exact .kept rfl
    | advanceClock span => exact .kept (by rw [assignment_advanceClock])
    | add p =>
      have effect := c.assignment.used_add c.session.consumer c.session.group p
      exact .of_ending (getElem?_used_of_erase effect key) fun own _ _ => .registered p own
    | withdraw subscriptions rollback removed =>
      refine .of_ending (c.assignment.getElem?_used_withdraw subscriptions rollback removed key) ?_
      exact fun named _ _ => .withdrawn subscriptions rollback removed (List.mem_map.mp named)
    | drop keys =>
      exact .of_ending (c.assignment.getElem?_used_drop keys key) fun named _ _ => .dropped keys named
    | take =>
      rw [handsOut?_take sound, Option.map_eq_none_iff, List.head?_eq_none_iff] at handed
      exact .kept (by simp only [step, sound.take_nil handed])
    | markUsed k =>
      rw [handsOut?_markUsed] at handed
      split at handed
      · cases handed
      · rename_i refused
        exact .kept (by simp only [step, Assignment.markUsed, if_neg refused])
    | release k consumed =>
      refine .of_ending (getElem?_used_of_erase (c.assignment.used_release k consumed) key) ?_
      rintro rfl token held
      refine .returned consumed ?_
      simp [step, Assignment.release, Pool.isUsed_of_token? held]
    | reclaim k requeue =>
      refine .of_ending (getElem?_used_of_erase (c.assignment.used_reclaim k requeue) key) ?_
      rintro rfl token held
      exact .reclaimed requeue
    | sweep maxAge order =>
      refine .of_ending (c.assignment.getElem?_used_sweep c.clock.now maxAge order key) ?_
      exact fun overdue _ _ => .swept maxAge order overdue
    | expire lease =>
      have effect := c.assignment.used_expire lease
      by_cases live : c.assignment.pool.token? lease.key = some lease.token
      · rw [if_pos live] at effect
        refine .of_ending (getElem?_used_of_erase effect key) ?_
        rintro rfl token held
        rw [live] at held
        rw [← Option.some.inj held]
        exact .expired
      · rw [if_neg live] at effect
        have same : (c.assignment.expire lease).pool.used[key]? = c.assignment.pool.used[key]? := by
          rw [effect]
        exact .kept (Pool.token?_congr same)
    | pass millis =>
      by_cases gone : c.events.isGone
      · exact .kept (by simp only [step, pass, if_pos gone])
      · have after : (c.step (.pass millis)).1.assignment =
            c.assignment.passTo (c.assignment.pool.timers.now + millis) := by
          simp only [step, pass, if_neg gone]
        rcases c.assignment.getElem?_used_passTo (c.assignment.pool.timers.now + millis) key with
          same | ⟨none, alarm, armed, due, own, held⟩
        · exact .kept (by rw [after, Pool.token?_congr same])
        · refine .ended alarm.job.token held ?_ (.ranOut millis alarm armed ?_ due)
          · rw [after, Pool.token?, none, Option.map_none]
          · rw [← own]
    | mark p consumed => exact .kept rfl
    | present k => exact .kept rfl
    | events action => exact .kept rfl

end Cache

end PartitionLease

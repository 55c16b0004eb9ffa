import PartitionLease.Proofs.AlarmAgreement
import PartitionLease.Proofs.CheckoutHistory

namespace PartitionLease

namespace Cache

/-- All that an action can do to the pool: hand a key out that is not out, let time pass, or vacate keys. -/
inductive PoolStep (c : Cache) (action : Action) : Prop
  | handsOut (lease : Lease) (handed : c.handsOut? action = some lease)
      (number : lease.token = c.assignment.pool.issued + 1) (free : c.assignment.pool.used[lease.key]? = none)
      (after : (c.step action).1.assignment =
        (c.assignment.checkOut lease.key c.clock.now c.config.lease?).publish)
  | passes (millis : Nat) (own : action = .pass millis)
      (after : (c.step action).1.assignment =
        c.assignment.passTo (c.assignment.pool.timers.now + millis))
  | vacates (quiet : c.handsOut? action = none)
      (moves : Assignment.Vacating c.assignment (c.step action).1.assignment)

theorem step_pass_of_gone {c : Cache} (gone : c.events.isGone) (millis : Nat) :
    (c.step (.pass millis)).1 = c := by
  simp only [step, pass, if_pos gone]

theorem assignment_pass {c : Cache} (held : c.events.isGone = false) (millis : Nat) :
    (c.step (.pass millis)).1.assignment = c.assignment.passTo (c.assignment.pool.timers.now + millis) := by
  simp only [step, pass, held, Bool.false_eq_true, if_false]

theorem poolStep {c : Cache} (sound : c.assignment.Sound) (action : Action) : PoolStep c action := by
  cases handed : c.handsOut? action with
  | some lease =>
    obtain ⟨number, -, free, after⟩ := step_of_handsOut? sound handed
    refine .handsOut lease handed number ?_ after
    rwa [← Pool.token?_eq_none_iff, Pool.token?, Option.map_eq_none_iff] at free
  | none =>
    by_cases still : ∀ millis, action ≠ .pass millis
    · exact .vacates handed (vacating_step sound handed still)
    · simp only [not_forall, ne_eq, not_not] at still
      obtain ⟨millis, rfl⟩ := still
      cases held : c.events.isGone with
      | true =>
        refine .vacates handed ?_
        rw [step_pass_of_gone held]
        exact .refl
      | false => exact .passes millis rfl (assignment_pass held millis)

theorem agree_new (config : Config) (clock : Clock) (timeKept : Bool) :
    (new config clock timeKept).assignment.AlarmsAgree where
  given := nofun
  distinct := List.nodup_nil
  live := nofun
  attached := by simp [new]

theorem agree_step {c : Cache} (sound : c.assignment.Sound) (agree : c.assignment.AlarmsAgree)
    (action : Action) : (c.step action).1.assignment.AlarmsAgree := by
  cases poolStep sound action with
  | handsOut lease _ _ free after =>
    rw [after]
    exact (agree.checkOut free c.clock.now c.config.lease?).vacating (.aside .refl rfl)
  | passes millis _ after =>
    rw [after]
    exact (Assignment.goneOff_passTo sound agree _).2.1
  | vacates _ moves => exact agree.vacating moves

theorem agree_run {c : Cache} (sound : c.assignment.Sound) (agree : c.assignment.AlarmsAgree)
    (actions : List Action) : (c.run actions).assignment.AlarmsAgree := by
  induction actions generalizing c with
  | nil => exact agree
  | cons action rest ih => exact ih (sound_step sound action) (agree_step sound agree action)

/-- The alarms that go off when so much time passes. -/
def alarmsWithin (c : Cache) (millis : Nat) : List (Alarm Lease) :=
  if c.events.isGone then []
  else c.assignment.pool.timers.armed.takeWhile (·.due ≤ c.assignment.pool.timers.now + millis)

/-- The action is answered with yes. -/
def Reply.isYes : Reply → Bool
  | .flag answer => answer
  | _ => false

/-- The keys that an action puts at the end of the line, in the order in which it does. -/
def queued (c : Cache) : Action → List String
  | .add p => [p.key]
  | .release key consumed => if (c.step (.release key consumed)).2.isYes then [key] else []
  | .reclaim key true => if c.assignment.registry.contains key then [key] else []
  | .sweep maxAge order =>
    Assignment.arrange order (c.assignment.pool.expired c.clock.now maxAge.wholeMillis)
  | .expire lease => if c.assignment.pool.token? lease.key = some lease.token then [lease.key] else []
  | .pass millis => (c.alarmsWithin millis).map (·.job.key)
  | _ => []

/-- The keys that an action takes out of the line if they are in it. -/
def pulled (c : Cache) : Action → List String
  | .add p => [p.key]
  | .withdraw subscriptions _ _ => subscriptions.map (·.key)
  | .drop keys => keys
  | .take => c.assignment.pool.idle.take 1
  | .markUsed key => if (c.step (.markUsed key)).2.isYes then [key] else []
  | .reclaim key _ => [key]
  | _ => []

/-- The keys that an action makes unknown. -/
def forgotten : Action → List String
  | .withdraw subscriptions _ _ => subscriptions.map (·.key)
  | .drop keys => keys
  | _ => []

theorem goneOff_pass {c : Cache} (sound : c.assignment.Sound) (agree : c.assignment.AlarmsAgree)
    (millis : Nat) :
    Assignment.GoneOff c.assignment (c.step (.pass millis)).1.assignment (c.alarmsWithin millis) := by
  cases held : c.events.isGone with
  | true =>
    rw [step_pass_of_gone held, alarmsWithin, if_pos held]
    exact .refl _
  | false =>
    rw [assignment_pass held, alarmsWithin, held]
    exact (Assignment.goneOff_passTo sound agree _).1

theorem isYes_release (c : Cache) (key : String) (consumed : Bool) :
    (c.step (.release key consumed)).2.isYes = c.assignment.pool.isUsed key := by
  simp only [step, Assignment.release]
  split <;> simp_all [Reply.isYes]

theorem isYes_markUsed (c : Cache) (key : String) : (c.step (.markUsed key)).2.isYes =
    (c.assignment.registry.contains key && !c.assignment.pool.isUsed key) := by
  simp only [step, Assignment.markUsed]
  split <;> simp_all [Reply.isYes]

/-- What an action does to the line: it takes keys out and puts keys at the end. Keys that it leaves where
they are keep their order. -/
theorem idle_step {c : Cache} (sound : c.assignment.Sound) (agree : c.assignment.AlarmsAgree)
    (action : Action) : (c.step action).1.assignment.pool.idle =
      c.assignment.pool.idle.filter (· ∉ c.pulled action) ++ c.queued action := by
  have nobody (none : c.pulled action = []) :
      c.assignment.pool.idle.filter (· ∉ c.pulled action) = c.assignment.pool.idle := by
    simp [none]
  have one {key : String} (only : c.pulled action = [key]) :
      c.assignment.pool.idle.filter (· ∉ c.pulled action) = c.assignment.pool.idle.erase key := by
    rw [only, sound.once.erase_eq_filter]
    refine List.filter_congr fun k _ => ?_
    by_cases own : k = key <;> simp [own]
  cases action with
  | add p =>
    rw [one rfl]
    exact sound.idle_add c.session.consumer c.session.group p
  | withdraw subscriptions rollback removed =>
    exact (Assignment.Forgets.withdraw sound subscriptions rollback removed).idle.trans (List.append_nil _).symm
  | drop keys => exact (Assignment.Forgets.drop sound keys).idle.trans (List.append_nil _).symm
  | take =>
    cases line : c.assignment.pool.idle with
    | nil => simp [step, sound.take_nil line, queued, line]
    | cons key rest =>
      rw [← line, one (by rw [pulled, line]; rfl)]
      simp [step, sound.take_cons line, queued]
  | markUsed key =>
    cases allowed : c.assignment.registry.contains key && !c.assignment.pool.isUsed key with
    | true =>
      rw [one (by rw [pulled, isYes_markUsed, allowed]; rfl)]
      simp [step, Assignment.markUsed, allowed, queued]
    | false =>
      rw [nobody (by rw [pulled, isYes_markUsed, allowed]; rfl)]
      simp [step, Assignment.markUsed, allowed, queued]
  | release key consumed =>
    rw [nobody rfl, queued, isYes_release]
    split
    · rename_i out
      exact sound.idle_release out consumed
    · rename_i free
      simp [step, Assignment.release, free]
  | reclaim key requeue =>
    rw [one rfl]
    refine (Assignment.idle_vacate sound.once key requeue).trans ?_
    cases requeue <;> simp [queued]
  | sweep maxAge order =>
    rw [nobody rfl]
    exact sound.idle_sweep c.clock.now maxAge order
  | expire lease =>
    rw [nobody rfl, queued]
    split
    · rename_i live
      exact sound.idle_expire live
    · rename_i stale
      simp [step, Assignment.expire, stale]
  | pass millis =>
    rw [nobody rfl]
    exact (goneOff_pass sound agree millis).idle
  | advanceClock span =>
    rw [nobody rfl, assignment_advanceClock]
    exact (List.append_nil _).symm
  | setConsumer _ _ | setClock _ | mark _ _ | present _ | events _ =>
    rw [nobody rfl]
    exact (List.append_nil _).symm

theorem isUsed_of_ending {a b : Assignment} {k : String} {P : Prop} [Decidable P]
    (effect : b.pool.used[k]? = if P then none else a.pool.used[k]?) :
    b.pool.isUsed k ↔ a.pool.isUsed k ∧ ¬ P := by
  simp only [Pool.isUsed, Std.ExtTreeMap.contains_eq_isSome_getElem?, effect]
  split <;> simp_all

/-- Checked out is what an action hands out, and what was before and is neither taken nor queued. -/
theorem used_step {c : Cache} (sound : c.assignment.Sound) (agree : c.assignment.AlarmsAgree)
    (action : Action) (k : String) : (c.step action).1.assignment.pool.isUsed k ↔
      (∃ token, c.handsOut? action = some ⟨k, token⟩) ∨
        c.assignment.pool.isUsed k ∧ k ∉ c.pulled action ∧ k ∉ c.queued action := by
  cases handed : c.handsOut? action with
  | some lease =>
    obtain ⟨-, known, free, after⟩ := step_of_handsOut? sound handed
    have out : (c.step action).1.assignment.pool.isUsed k ↔ lease.key = k ∨ c.assignment.pool.isUsed k := by
      rw [after, Assignment.pool_publish, Pool.isUsed, Assignment.used_checkOut,
        Std.ExtTreeMap.contains_insert, Bool.or_eq_true, beq_iff_eq, Std.LawfulEqCmp.compare_eq_iff_eq]
      rfl
    have own : (∃ token, some lease = some ⟨k, token⟩) ↔ lease.key = k := by
      constructor
      · rintro ⟨token, same⟩
        rw [Option.some.inj same]
      · rintro rfl
        exact ⟨lease.token, rfl⟩
    rw [out, own]
    have nothing : c.pulled action = [lease.key] ∧ c.queued action = [] := by
      cases action with
      | take =>
        rw [handsOut?_take sound, Option.map_eq_some_iff] at handed
        obtain ⟨key, first, rfl⟩ := handed
        obtain ⟨rest, line⟩ := List.head?_eq_some_iff.mp first
        exact ⟨by rw [pulled, line]; rfl, rfl⟩
      | markUsed key =>
        rw [handsOut?_markUsed] at handed
        split at handed
        · rename_i allowed
          obtain rfl := Option.some.inj handed
          exact ⟨by rw [pulled, isYes_markUsed, allowed]; rfl, rfl⟩
        · cases handed
      | _ => simp [handsOut?] at handed
    rw [nothing.1, nothing.2]
    by_cases same : lease.key = k
    · simp [same]
    · simp [same, Ne.symm same]
  | none =>
    simp only [reduceCtorEq, exists_false, false_or]
    cases action with
    | add p =>
      have effect := c.assignment.used_add c.session.consumer c.session.group p
      refine (isUsed_of_ending (getElem?_used_of_erase effect k)).trans ?_
      simp [pulled, queued, @eq_comm _ k]
    | withdraw subscriptions rollback removed =>
      refine (isUsed_of_ending (c.assignment.getElem?_used_withdraw subscriptions rollback removed k)).trans ?_
      simp [pulled, queued]
    | drop keys =>
      refine (isUsed_of_ending (c.assignment.getElem?_used_drop keys k)).trans ?_
      simp [pulled, queued]
    | take =>
      rw [handsOut?_take sound, Option.map_eq_none_iff, List.head?_eq_none_iff] at handed
      simp [step, sound.take_nil handed, pulled, queued, handed]
    | markUsed key =>
      rw [handsOut?_markUsed] at handed
      split at handed
      · cases handed
      · rename_i refused
        simp [step, Assignment.markUsed, refused, pulled, queued, Reply.isYes]
    | release key consumed =>
      refine (isUsed_of_ending (getElem?_used_of_erase (c.assignment.used_release key consumed) k)).trans ?_
      rw [queued, isYes_release]
      by_cases own : key = k
      · subst own
        cases out : c.assignment.pool.isUsed key <;> simp
      · cases c.assignment.pool.isUsed key <;> simp [own, pulled, Ne.symm own]
    | reclaim key requeue =>
      refine (isUsed_of_ending (getElem?_used_of_erase (c.assignment.used_reclaim key requeue) k)).trans ?_
      cases requeue <;> by_cases own : key = k <;> simp [pulled, queued, own, @eq_comm _ k]
    | sweep maxAge order =>
      refine (isUsed_of_ending (c.assignment.getElem?_used_sweep c.clock.now maxAge order k)).trans ?_
      simp [pulled, queued, Assignment.mem_arrange]
    | expire lease =>
      have effect := c.assignment.used_expire lease
      rw [queued]
      split at effect
      · rename_i live
        refine (isUsed_of_ending (getElem?_used_of_erase effect k)).trans ?_
        simp [pulled, live, @eq_comm _ k]
      · rename_i stale
        simp [step, Assignment.expire, stale, pulled]
    | pass millis =>
      refine (isUsed_of_ending ((goneOff_pass sound agree millis).used k)).trans ?_
      simp [pulled, queued]
    | advanceClock span =>
      rw [assignment_advanceClock]
      simp [pulled, queued]
    | setConsumer _ _ | setClock _ | mark _ _ | present _ | events _ => simp [step, pulled, queued]

/-- What an action that registers nothing does to the registry: it forgets keys. -/
theorem registry_step {c : Cache} (sound : c.assignment.Sound) (agree : c.assignment.AlarmsAgree)
    {action : Action} (other : ∀ p, action ≠ .add p) :
    (c.step action).1.assignment.registry = c.assignment.registry.removeAll (forgotten action) := by
  cases action with
  | add p => exact absurd rfl (other p)
  | withdraw subscriptions rollback removed =>
    exact c.assignment.registry_withdraw subscriptions rollback removed
  | drop keys => exact c.assignment.registry_drop keys
  | take =>
    cases line : c.assignment.pool.idle with
    | nil =>
      simp only [step, sound.take_nil line]
      rfl
    | cons key rest =>
      simp only [step, sound.take_cons line]
      rfl
  | markUsed key =>
    simp only [step, Assignment.markUsed]
    split <;> rfl
  | release key consumed => exact c.assignment.registry_release key consumed
  | sweep maxAge order => exact c.assignment.registry_sweep c.clock.now maxAge order
  | expire lease => exact c.assignment.registry_expire lease
  | pass millis => exact (goneOff_pass sound agree millis).registry
  | advanceClock span => exact congrArg Assignment.registry (assignment_advanceClock c span)
  | reclaim _ _ | setConsumer _ _ | setClock _ | mark _ _ | present _ | events _ => rfl

/-- Known is what an action adds, and what was before and is not forgotten. -/
theorem known_step {c : Cache} (sound : c.assignment.Sound) (agree : c.assignment.AlarmsAgree)
    (action : Action) (k : String) : (c.step action).1.assignment.registry.contains k ↔
      (∃ p, action = .add p ∧ p.key = k) ∨ k ∉ forgotten action ∧ c.assignment.registry.contains k := by
  by_cases other : ∀ p, action ≠ .add p
  · rw [registry_step sound agree other, Registry.contains_removeAll]
    simp [other]
  · simp only [not_forall, ne_eq, not_not] at other
    obtain ⟨p, rfl⟩ := other
    refine (c.assignment.contains_add c.session.consumer c.session.group p k).trans ?_
    simp [forgotten]

end Cache

end PartitionLease

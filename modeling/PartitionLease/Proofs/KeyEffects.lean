import Mathlib.Data.List.Induction
import PartitionLease.Proofs.CheckoutDeadlines

namespace PartitionLease

/-- What is left of a line without repetition is what is kept of it, in the same order. -/
theorem eq_filter_of_sublist {α : Type} {left line : List α} {keep : α → Bool} (fewer : left.Sublist line)
    (once : line.Nodup) (same : ∀ x ∈ line, x ∈ left ↔ keep x) : left = line.filter keep := by
  induction fewer with
  | slnil => rfl
  | @cons left rest x fewer ih =>
    rw [List.nodup_cons] at once
    have gone : ¬ keep x := fun kept =>
      once.1 (fewer.subset ((same x List.mem_cons_self).mpr kept))
    rw [List.filter_cons_of_neg gone]
    exact ih once.2 fun y member => same y (List.mem_cons_of_mem x member)
  | @cons_cons left rest x fewer ih =>
    rw [List.nodup_cons] at once
    rw [List.filter_cons_of_pos ((same x List.mem_cons_self).mp List.mem_cons_self)]
    refine congrArg (x :: ·) (ih once.2 fun y member => ?_)
    rw [← same y (List.mem_cons_of_mem x member), List.mem_cons, or_iff_right]
    rintro rfl
    exact once.1 member

namespace Cache

variable {c : Cache}

/-- What all keys have in common: the configuration, the clock, who the consumer is, and the events. -/
structure Surroundings where
  config : Config
  clock : Clock
  session : Session
  events : EventQueue RebalanceEvent

def surroundings (c : Cache) : Surroundings := ⟨c.config, c.clock, c.session, c.events⟩

def Surroundings.after (s : Surroundings) : Action → Surroundings
  | .setConsumer consumer group => { s with session := s.session.setConsumer consumer group }
  | .setClock millis => { s with clock := s.clock.set millis }
  | .advanceClock span => { s with clock := s.clock.advance span }
  | .events action => { s with events := (s.events.step action).1 }
  | _ => s

/-- How much time goes by in an action. Once nobody holds the cache none does. -/
def elapsed (events : EventQueue RebalanceEvent) : Action → Nat
  | .pass millis => if events.isGone then 0 else millis
  | _ => 0

/-- The keys that an action presents. -/
def presented : Action → List String
  | .present key => [key]
  | _ => []

/-- When an alarm set now would be due, if one can be set. -/
def nextDue? (c : Cache) : Option Nat :=
  if c.assignment.pool.timers.kept then
    c.config.lease?.map (c.assignment.pool.timers.now + ·.ceilMillis)
  else none

/-- The keys for which alarms are set, each with the time at which it is due, in the order in which they will go
off. -/
def dues (c : Cache) : List (String × Nat) :=
  c.assignment.pool.timers.armed.map fun alarm => (alarm.job.key, alarm.due)

theorem surroundings_step (c : Cache) (action : Action) :
    (c.step action).1.surroundings = c.surroundings.after action := by
  cases action with
  | advanceClock span =>
    rw [step_advanceClock]
    rfl
  | pass millis =>
    simp only [step, pass]
    split <;> rfl
  | _ => rfl

theorem kept_step (sound : c.assignment.Sound) (agree : c.assignment.AlarmsAgree) (action : Action) :
    (c.step action).1.assignment.pool.timers.kept = c.assignment.pool.timers.kept := by
  cases poolStep sound action with
  | handsOut lease _ _ free after =>
    rw [after, Assignment.pool_publish]
    rcases Assignment.timers_checkOut free c.clock.now c.config.lease? with ⟨same, -⟩ | ⟨_, -, -, timers⟩
    · rw [same]
    · rw [timers]
  | passes millis _ after =>
    rw [after]
    exact (Assignment.goneOff_passTo sound agree _).1.kept
  | vacates _ moves => exact moves.still.2.1

theorem now_step (sound : c.assignment.Sound) (agree : c.assignment.AlarmsAgree) (action : Action) :
    (c.step action).1.assignment.pool.timers.now =
      c.assignment.pool.timers.now + elapsed c.events action := by
  by_cases still : ∀ millis, action ≠ .pass millis
  · have none : elapsed c.events action = 0 := by
      cases action with
      | pass millis => exact absurd rfl (still millis)
      | _ => rfl
    rw [none, Nat.add_zero]
    cases poolStep sound action with
    | handsOut lease _ _ free after =>
      rw [after, Assignment.pool_publish]
      rcases Assignment.timers_checkOut free c.clock.now c.config.lease? with ⟨same, -⟩ | ⟨_, -, -, timers⟩
      · rw [same]
      · rw [timers]
    | passes millis own _ => exact absurd own (still millis)
    | vacates _ moves => exact moves.still.1
  · simp only [not_forall, ne_eq, not_not] at still
    obtain ⟨millis, rfl⟩ := still
    cases held : c.events.isGone with
    | true => simp [step_pass_of_gone held, elapsed, held]
    | false =>
      simp only [elapsed, held, Bool.false_eq_true, if_false]
      exact now_pass sound agree held millis

theorem booked_step (c : Cache) (action : Action) (key : String) : (c.step action).1.ledger.booked[key]? =
    if key ∈ presented action then some (c.ledger.booked[key]?.getD true) else c.ledger.booked[key]? := by
  cases action with
  | present k =>
    simp only [step, Ledger.present, Ledger.lookUp, Ledger.book, presented, List.mem_singleton]
    cases booked : c.ledger.booked[k]? with
    | some answer =>
      dsimp only
      split
      · rename_i own
        rw [own, booked]
        rfl
      · rfl
    | none =>
      simp only [Std.ExtTreeMap.getElem?_insert, Std.LawfulEqCmp.compare_eq_iff_eq, @eq_comm _ k]
      split
      · rename_i own
        rw [own, booked]
        rfl
      · rfl
  | advanceClock span =>
    rw [step_advanceClock]
    rfl
  | pass millis =>
    simp only [step, pass]
    split <;> rfl
  | _ => rfl

theorem reply_reclaim (c : Cache) (key : String) (requeue : Bool) :
    (c.step (.reclaim key requeue)).2 = .flag (c.assignment.pool.isUsed key) := by
  refine congrArg Reply.flag ?_
  rw [Pool.isUsed, Std.ExtTreeMap.contains_eq_isSome_getElem?]

theorem reply_present (c : Cache) (key : String) :
    (c.step (.present key)).2 = .flag (c.ledger.booked[key]?.getD true) := by
  simp only [step, Ledger.present, Ledger.lookUp, Ledger.book]
  cases c.ledger.booked[key]? <;> rfl

/-- A checkout is made as the next one, or left as it is, or gone. -/
theorem getElem?_used_step (sound : c.assignment.Sound) (agree : c.assignment.AlarmsAgree) (action : Action)
    (key : String) : (c.step action).1.assignment.pool.used[key]? =
      if c.handsOut? action = some ⟨key, c.assignment.pool.issued + 1⟩ then
        some ⟨c.clock.now, c.assignment.pool.issued + 1, c.assignment.pool.nextAlarm c.config.lease?⟩
      else if key ∈ c.pulled action ∨ key ∈ c.queued action then none else c.assignment.pool.used[key]? := by
  have made (handed : c.handsOut? action = some ⟨key, c.assignment.pool.issued + 1⟩) :
      (c.step action).1.assignment.pool.used[key]? =
        some ⟨c.clock.now, c.assignment.pool.issued + 1, c.assignment.pool.nextAlarm c.config.lease?⟩ := by
    rw [(step_of_handsOut? sound handed).2.2.2, Assignment.pool_publish, Assignment.used_checkOut,
      Std.ExtTreeMap.getElem?_insert_self]
  have old (other : c.handsOut? action ≠ some ⟨key, c.assignment.pool.issued + 1⟩) {checkout : Checkout}
      (held : (c.step action).1.assignment.pool.used[key]? = some checkout) :
      c.assignment.pool.used[key]? = some checkout := by
    cases poolStep sound action with
    | handsOut lease handed number _ after =>
      rw [after, Assignment.pool_publish, Assignment.used_checkOut, Std.ExtTreeMap.getElem?_insert] at held
      split at held
      · rename_i own
        rw [Std.LawfulEqCmp.compare_eq_iff_eq] at own
        refine absurd ?_ other
        rw [handed, ← own, ← number]
      · exact held
    | passes millis own after =>
      rw [after, (Assignment.goneOff_passTo sound agree _).1.used] at held
      split at held
      · cases held
      · exact held
    | vacates _ moves => exact moves.getElem?_used_of_some held
  split
  · rename_i handed
    exact made handed
  · rename_i other
    have out := used_step sound agree action key
    have notMade : ¬ ∃ token, c.handsOut? action = some ⟨key, token⟩ := by
      rintro ⟨token, handed⟩
      have number := (step_of_handsOut? sound handed).1
      exact other (number ▸ handed)
    rw [or_iff_right notMade, Pool.isUsed, Pool.isUsed, Std.ExtTreeMap.contains_eq_isSome_getElem?,
      Std.ExtTreeMap.contains_eq_isSome_getElem?] at out
    cases after : (c.step action).1.assignment.pool.used[key]? with
    | some checkout =>
      rw [after] at out
      obtain ⟨-, notPulled, notQueued⟩ := out.mp rfl
      rw [if_neg (by tauto), old other after]
    | none =>
      rw [after] at out
      split
      · rfl
      · rename_i untouched
        rw [not_or] at untouched
        refine (Option.not_isSome_iff_eq_none.mp fun before => ?_).symm
        cases out.mpr ⟨before, untouched⟩

theorem nextDue?_eq_some {due : Nat} (next : c.nextDue? = some due) : ∃ lease, c.config.lease? = some lease ∧
    c.assignment.pool.timers.now + lease.ceilMillis = due := by
  rw [nextDue?] at next
  split at next
  · exact Option.map_eq_some_iff.mp next
  · cases next

/-- The alarms are in line in the order in which they are due, and none is due later than one set now would
be. -/
structure Scheduled (c : Cache) : Prop where
  near : ∀ alarm ∈ c.assignment.pool.timers.armed, ∀ lease, c.config.lease? = some lease →
    alarm.due ≤ c.assignment.pool.timers.now + lease.ceilMillis
  sorted : c.assignment.pool.timers.armed.Pairwise (·.due ≤ ·.due)

theorem scheduled_new (config : Config) (clock : Clock) (timeKept : Bool) :
    (new config clock timeKept).Scheduled := ⟨nofun, List.Pairwise.nil⟩

/-- An alarm that is set goes to the end of the line. -/
theorem Scheduled.armed_checkOut (scheduled : c.Scheduled) {key : String}
    (free : c.assignment.pool.used[key]? = none) (now : UInt64) :
    ∃ id, (c.assignment.checkOut key now c.config.lease?).pool.timers.armed = c.assignment.pool.timers.armed ++
      c.nextDue?.toList.map fun due => ⟨id, due, ⟨key, c.assignment.pool.issued + 1⟩⟩ := by
  refine ⟨c.assignment.pool.timers.issued, ?_⟩
  rcases Assignment.timers_checkOut free now c.config.lease? with ⟨same, bare⟩ | ⟨lease, wanted, alarmed, timers⟩
  · have none : c.nextDue? = none := by
      rw [Pool.nextAlarm] at bare
      rw [nextDue?]
      split at bare
      · rw [if_pos ‹_›, Option.map_eq_none_iff.mp bare]
        rfl
      · rw [if_neg ‹_›]
    rw [same, none]
    exact (List.append_nil _).symm
  · have some : c.nextDue? = some (c.assignment.pool.timers.now + lease.ceilMillis) := by
      rw [Pool.nextAlarm] at alarmed
      rw [nextDue?, wanted]
      split at alarmed
      · exact if_pos ‹_›
      · cases alarmed
    rw [timers, some]
    exact Alarm.enqueue_of_last fun alarm armed => scheduled.near alarm armed lease wanted

theorem Scheduled.step (scheduled : c.Scheduled) (sound : c.assignment.Sound) (agree : c.assignment.AlarmsAgree)
    (action : Action) : (c.step action).1.Scheduled := by
  have now := now_step sound agree action
  have fewer (left : (c.step action).1.assignment.pool.timers.armed.Sublist c.assignment.pool.timers.armed) :
      (c.step action).1.Scheduled := by
    refine ⟨fun alarm armed lease wanted => ?_, scheduled.sorted.sublist left⟩
    rw [config_step] at wanted
    have := scheduled.near alarm (left.subset armed) lease wanted
    omega
  cases handed : c.handsOut? action with
  | none => exact fewer (onlyEnds_step sound handed).armed
  | some made =>
    obtain ⟨-, -, free, after⟩ := step_of_handsOut? sound handed
    rw [← Pool.token?_eq_none_iff, Pool.token?, Option.map_eq_none_iff] at free
    obtain ⟨id, line⟩ := scheduled.armed_checkOut free c.clock.now
    cases due : c.nextDue? with
    | none =>
      refine fewer ?_
      rw [after, Assignment.pool_publish, line, due]
      exact (List.append_nil _).symm ▸ List.Sublist.refl _
    | some time =>
      obtain ⟨lease, wanted, rfl⟩ := nextDue?_eq_some due
      constructor
      · intro alarm armed other wantedToo
        rw [config_step, wanted, Option.some.injEq] at wantedToo
        subst wantedToo
        rw [after, Assignment.pool_publish, line, due, List.mem_append] at armed
        rcases armed with old | new
        · have := scheduled.near alarm old lease wanted
          omega
        · obtain rfl := List.mem_singleton.mp new
          exact Nat.add_le_add_right (by omega) _
      · rw [after, Assignment.pool_publish, line, due, List.pairwise_append]
        refine ⟨scheduled.sorted, List.pairwise_singleton _ _, fun alarm old other new => ?_⟩
        obtain rfl := List.mem_singleton.mp new
        exact scheduled.near alarm old lease wanted

theorem Scheduled.run (scheduled : c.Scheduled) (sound : c.assignment.Sound) (agree : c.assignment.AlarmsAgree)
    (actions : List Action) : (c.run actions).Scheduled := by
  induction actions generalizing c with
  | nil => exact scheduled
  | cons action rest ih =>
    exact ih (scheduled.step sound agree action) (sound_step sound action) (agree_step sound agree action)

/-- An alarm is still to come after an action exactly if this does not touch its key. -/
theorem mem_armed_step_iff (sound : c.assignment.Sound) (agree : c.assignment.AlarmsAgree) (action : Action)
    {alarm : Alarm Lease} (armed : alarm ∈ c.assignment.pool.timers.armed) :
    alarm ∈ (c.step action).1.assignment.pool.timers.armed ↔
      alarm.job.key ∉ c.pulled action ∧ alarm.job.key ∉ c.queued action := by
  obtain ⟨since, held⟩ := agree.live alarm armed
  have agreeAfter := agree_step sound agree action
  have notMade : c.handsOut? action ≠ some ⟨alarm.job.key, c.assignment.pool.issued + 1⟩ := by
    intro handed
    have free := (step_of_handsOut? sound handed).2.2.1
    rw [Pool.isUsed_of_token? (agree.token?_of_armed armed)] at free
    cases free
  have effect := getElem?_used_step sound agree action alarm.job.key
  rw [if_neg notMade, held] at effect
  constructor
  · intro still
    obtain ⟨later, heldAfter⟩ := agreeAfter.live alarm still
    rw [effect] at heldAfter
    split at heldAfter
    · cases heldAfter
    · rwa [← not_or]
  · rintro ⟨notPulled, notQueued⟩
    rw [if_neg (by tauto)] at effect
    obtain ⟨same, member, id, job⟩ := agreeAfter.attached _ _ _ _ effect
    rcases armed_step sound member with old | new
    · rwa [agree.eq_of_id armed old id.symm]
    · rw [job] at new
      have number := (step_of_handsOut? sound new).1
      exact absurd (number ▸ new) notMade

/-- What an action does to the alarms: those of the keys it touches go, and that of a checkout it makes comes. -/
theorem dues_step (scheduled : c.Scheduled) (sound : c.assignment.Sound) (agree : c.assignment.AlarmsAgree)
    (action : Action) : (c.step action).1.dues =
      c.dues.filter (fun entry => entry.1 ∉ c.pulled action ∧ entry.1 ∉ c.queued action) ++
        (c.handsOut? action).toList.flatMap fun lease => c.nextDue?.toList.map (lease.key, ·) := by
  have once := agree.distinct.of_map
  have left := List.filter_map (f := fun alarm : Alarm Lease => (alarm.job.key, alarm.due))
    (p := fun entry => decide (entry.1 ∉ c.pulled action ∧ entry.1 ∉ c.queued action))
    (l := c.assignment.pool.timers.armed)
  have keeps (alarm : Alarm Lease) (armed : alarm ∈ c.assignment.pool.timers.armed) :=
    (mem_armed_step_iff sound agree action armed).trans (Iff.symm decide_eq_true_iff)
  rw [dues, dues, left]
  cases handed : c.handsOut? action with
  | none =>
    rw [Option.toList_none, List.flatMap_nil, List.append_nil]
    exact congrArg _ (eq_filter_of_sublist (onlyEnds_step sound handed).armed once keeps)
  | some lease =>
    obtain ⟨number, -, free, after⟩ := step_of_handsOut? sound handed
    rw [← Pool.token?_eq_none_iff, Pool.token?, Option.map_eq_none_iff] at free
    obtain ⟨id, line⟩ := scheduled.armed_checkOut free c.clock.now
    have all : c.assignment.pool.timers.armed = c.assignment.pool.timers.armed.filter _ :=
      eq_filter_of_sublist (List.Sublist.refl _) once fun alarm armed => by
        refine Iff.trans (iff_of_true armed ?_) (keeps alarm armed)
        rw [after, Assignment.pool_publish, line]
        exact List.mem_append_left _ armed
    rw [after, Assignment.pool_publish, line, List.map_append]
    refine congrArg₂ _ (congrArg _ all) ?_
    simp

/-- What holds of a cache whatever has happened to it. -/
structure Regular (c : Cache) : Prop where
  sound : c.assignment.Sound
  agree : c.assignment.AlarmsAgree
  scheduled : c.Scheduled

theorem regular_run (config : Config) (clock : Clock) (timeKept : Bool) (actions : List Action) :
    ((new config clock timeKept).run actions).Regular :=
  have sound := sound_new config clock timeKept
  have agree := agree_new config clock timeKept
  ⟨sound_run sound actions, agree_run sound agree actions,
    (scheduled_new config clock timeKept).run sound agree actions⟩

/-- The checkouts that are live are among those made, and none of those has a number still to come. -/
structure Recorded (c : Cache) (made : List Lease) : Prop where
  live : ∀ key token, c.assignment.pool.token? key = some token → ⟨key, token⟩ ∈ made
  past : ∀ lease ∈ made, lease.token ≤ c.assignment.pool.issued

theorem Recorded.step {made : List Lease} (recorded : c.Recorded made) (sound : c.assignment.Sound)
    (action : Action) : (c.step action).1.Recorded (made ++ (c.handsOut? action).toList) where
  live := by
    intro key token held
    cases checkoutStep sound action key with
    | kept same => exact List.mem_append_left _ (recorded.live key token (same.symm.trans held))
    | ended _ _ gone _ =>
      rw [gone] at held
      cases held
    | made handed heldNow =>
      obtain rfl := Option.some.inj (heldNow.symm.trans held)
      exact List.mem_append_right _ (Option.mem_toList.mpr handed)
  past := by
    intro lease member
    have issued := issued_step sound action
    rcases List.mem_append.mp member with old | new
    · have := recorded.past lease old
      omega
    · have handed := Option.mem_toList.mp new
      rw [(step_of_handsOut? sound handed).1, issued, handed]
      exact Nat.le_refl _

theorem recorded_run (config : Config) (clock : Clock) (timeKept : Bool) (actions : List Action) :
    let start := new config clock timeKept
    (start.run actions).Recorded (start.handOuts actions) := by
  intro start
  induction actions using List.reverseRecOn with
  | nil => exact ⟨by simp [start, new, Pool.token?], nofun⟩
  | append_singleton actions action ih =>
    rw [run_append, handOuts_concat]
    exact ih.step (sound_run_new config clock timeKept actions) action

end Cache

end PartitionLease

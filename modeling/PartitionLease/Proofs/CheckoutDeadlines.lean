import Mathlib.Data.List.Induction
import PartitionLease.Proofs.LateReturns
import PartitionLease.Proofs.PassingTime
import PartitionLease.Proofs.PoolSteps

namespace PartitionLease

/-- In the order in which they are due, the alarms that are due by a time stand in front. -/
theorem Alarm.mem_takeWhile_due {α : Type} {line : List (Alarm α)}
    (sorted : line.Pairwise (·.due ≤ ·.due)) {limit : Nat} {alarm : Alarm α} :
    alarm ∈ line.takeWhile (·.due ≤ limit) ↔ alarm ∈ line ∧ alarm.due ≤ limit := by
  induction line with
  | nil => simp
  | cons next rest ih =>
    rw [List.pairwise_cons] at sorted
    by_cases due : next.due ≤ limit
    · rw [List.takeWhile_cons_of_pos (by simpa using due), List.mem_cons, ih sorted.2, List.mem_cons]
      constructor
      · rintro (rfl | ⟨later, soon⟩)
        · exact ⟨Or.inl rfl, due⟩
        · exact ⟨Or.inr later, soon⟩
      · rintro ⟨rfl | later, soon⟩
        · exact Or.inl rfl
        · exact Or.inr ⟨later, soon⟩
    · rw [List.takeWhile_cons_of_neg (by simpa using due), List.mem_cons]
      refine iff_of_false List.not_mem_nil ?_
      rintro ⟨rfl | later, soon⟩
      · exact due soon
      · exact due (Nat.le_trans (sorted.1 alarm later) soon)

namespace Assignment

variable {a b : Assignment}

/-- Every checkout has its alarm, and alarms are set for a span of so many milliseconds: none is due yet, none
is due later than one set now would be, and they go off in the order in which they are due. -/
structure OnSchedule (span : Nat) (a : Assignment) : Prop where
  kept : a.pool.timers.kept
  alarmed : ∀ (key : String) (checkout : Checkout), a.pool.used[key]? = some checkout → checkout.timer.isSome
  ahead : ∀ alarm ∈ a.pool.timers.armed, a.pool.timers.now < alarm.due
  near : ∀ alarm ∈ a.pool.timers.armed, alarm.due ≤ a.pool.timers.now + span
  sorted : a.pool.timers.armed.Pairwise (·.due ≤ ·.due)

namespace OnSchedule

variable {span : Nat}

theorem vacating (schedule : a.OnSchedule span) (moves : Vacating a b) : b.OnSchedule span := by
  obtain ⟨now, kept, -, -⟩ := moves.still
  have fewer := moves.armed_sublist
  refine ⟨kept ▸ schedule.kept, fun key checkout left => ?_, ?_, ?_, schedule.sorted.sublist fewer⟩
  · exact schedule.alarmed key checkout (moves.getElem?_used_of_some left)
  · exact fun alarm armed => now ▸ schedule.ahead alarm (fewer.subset armed)
  · exact fun alarm armed => now ▸ schedule.near alarm (fewer.subset armed)

/-- The alarm of a checkout made now goes to the end, because all leases are of one length. -/
theorem armed_checkOut (schedule : a.OnSchedule span) {key : String} (free : a.pool.used[key]? = none)
    (now : UInt64) {lease : Duration} (length : lease.ceilMillis = span) :
    (a.checkOut key now (some lease)).pool.timers = { a.pool.timers with
      issued := a.pool.timers.issued + 1
      armed := a.pool.timers.armed ++
        [⟨a.pool.timers.issued, a.pool.timers.now + span, ⟨key, a.pool.issued + 1⟩⟩] } := by
  rcases timers_checkOut free now (some lease) with ⟨-, bare⟩ | ⟨_, same, -, timers⟩
  · simp [Pool.nextAlarm, schedule.kept] at bare
  · obtain rfl := Option.some.inj same
    rw [timers, length, Alarm.enqueue_of_last schedule.near]

theorem checkOut (schedule : a.OnSchedule span) {key : String} (free : a.pool.used[key]? = none)
    (now : UInt64) {lease : Duration} (length : lease.ceilMillis = span) (positive : 0 < span) :
    (a.checkOut key now (some lease)).OnSchedule span := by
  have timers := schedule.armed_checkOut free now length
  constructor
  · rw [timers]
    exact schedule.kept
  · intro k checkout held
    rw [used_checkOut, Std.ExtTreeMap.getElem?_insert] at held
    split at held
    · obtain rfl := Option.some.inj held
      simp [Pool.nextAlarm, schedule.kept]
    · exact schedule.alarmed k checkout held
  · rw [timers]
    intro alarm armed
    rcases List.mem_append.mp armed with old | new
    · exact schedule.ahead alarm old
    · obtain rfl := List.mem_singleton.mp new
      exact Nat.lt_add_of_pos_right positive
  · rw [timers]
    intro alarm armed
    rcases List.mem_append.mp armed with old | new
    · exact schedule.near alarm old
    · obtain rfl := List.mem_singleton.mp new
      exact Nat.le_refl _
  · rw [timers, List.pairwise_append]
    refine ⟨schedule.sorted, List.pairwise_singleton _ _, fun alarm old other new => ?_⟩
    obtain rfl := List.mem_singleton.mp new
    exact schedule.near alarm old

theorem passTo (schedule : a.OnSchedule span) (sound : a.Sound) (agree : a.AlarmsAgree) (limit : Nat) :
    (a.passTo limit).OnSchedule span := by
  obtain ⟨gone, -, now⟩ := goneOff_passTo sound agree limit
  have line := gone.armed
  have left : (a.passTo limit).pool.timers.armed.Sublist a.pool.timers.armed :=
    line ▸ List.sublist_append_right _ _
  have sorted := schedule.sorted.sublist left
  refine ⟨gone.kept ▸ schedule.kept, fun key checkout held => ?_, fun alarm armed => ?_, fun alarm armed => ?_,
    sorted⟩
  · rw [gone.used] at held
    split at held
    · cases held
    · exact schedule.alarmed key checkout held
  · have notYet : limit < alarm.due := by
      refine Nat.lt_of_not_le fun due => ?_
      have off := (Alarm.mem_takeWhile_due schedule.sorted).mpr ⟨left.subset armed, due⟩
      have once := agree.distinct.of_map
      rw [line, List.nodup_append] at once
      exact once.2.2 alarm off alarm armed rfl
    have notBefore := schedule.ahead alarm (left.subset armed)
    omega
  · have soon := schedule.near alarm (left.subset armed)
    omega

end OnSchedule

end Assignment

namespace Cache

theorem config_step (c : Cache) (action : Action) : (c.step action).1.config = c.config := by
  cases action with
  | advanceClock span => rw [step_advanceClock]
  | pass millis =>
    simp only [step, pass]
    split <;> rfl
  | _ => rfl

/-- In a run from `c` the checkout `lease` is made when the time is `made`. -/
def MadeAt (c : Cache) (actions : List Action) (lease : Lease) (made : Nat) : Prop :=
  ∃ before action after, actions = before ++ action :: after ∧
    (c.run before).handsOut? action = some lease ∧ (c.run before).assignment.pool.timers.now = made

theorem madeAt_concat {c : Cache} {actions : List Action} {action : Action} {lease : Lease} {made : Nat} :
    MadeAt c (actions ++ [action]) lease made ↔ MadeAt c actions lease made ∨
      (c.run actions).handsOut? action = some lease ∧ (c.run actions).assignment.pool.timers.now = made := by
  constructor
  · rintro ⟨before, handing, after, split, handed, time⟩
    rcases List.eq_nil_or_concat' after with rfl | ⟨others, last, rfl⟩
    · obtain ⟨rfl, same⟩ := List.append_inj' split rfl
      obtain rfl := (List.cons.inj same).1
      exact Or.inr ⟨handed, time⟩
    · rw [← List.cons_append, ← List.append_assoc] at split
      obtain ⟨rfl, -⟩ := List.append_inj' split rfl
      exact Or.inl ⟨before, handing, others, rfl, handed, time⟩
  · rintro (⟨before, handing, after, rfl, handed, time⟩ | ⟨handed, time⟩)
    · exact ⟨before, handing, after ++ [action], by simp, handed, time⟩
    · exact ⟨actions, action, [], rfl, handed, time⟩

theorem MadeAt.token_le {c : Cache} (sound : c.assignment.Sound) {actions : List Action} {lease : Lease}
    {made : Nat} (making : MadeAt c actions lease made) :
    lease.token ≤ (c.run actions).assignment.pool.issued := by
  obtain ⟨before, handing, after, rfl, handed, -⟩ := making
  have soundThen := sound_run sound before
  have given := token_le_issued soundThen handed
  have later := issued_run (sound_step soundThen handing) after
  rw [run_append, run_cons, later]
  exact Nat.le_add_right_of_le given

/-- A checkout is made once. -/
theorem MadeAt.unique {c : Cache} (sound : c.assignment.Sound) {actions : List Action} {lease : Lease}
    {made again : Nat} (first : MadeAt c actions lease made) (second : MadeAt c actions lease again) :
    made = again := by
  induction actions using List.reverseRecOn with
  | nil =>
    obtain ⟨before, handing, after, split, -⟩ := first
    simp at split
  | append_singleton actions action ih =>
    have soundThen := sound_run sound actions
    have new (handed : (c.run actions).handsOut? action = some lease) {time : Nat}
        (old : MadeAt c actions lease time) : False := by
      have given := old.token_le sound
      rw [(step_of_handsOut? soundThen handed).1] at given
      exact Nat.not_succ_le_self _ given
    rcases madeAt_concat.mp first with old | ⟨handed, time⟩ <;>
      rcases madeAt_concat.mp second with also | ⟨handedToo, timeToo⟩
    · exact ih old also
    · exact (new handedToo old).elim
    · exact (new handed also).elim
    · exact time.symm.trans timeToo

/-- What is known of the alarms of a cache all of whose leases last `span` milliseconds. -/
structure Timely (span : Nat) (c : Cache) : Prop where
  sound : c.assignment.Sound
  agree : c.assignment.AlarmsAgree
  schedule : c.assignment.OnSchedule span
  timed : ∃ lease, c.config.lease? = some lease ∧ lease.ceilMillis = span

variable {span : Nat} {c : Cache}

theorem timely_new {config : Config} (clock : Clock) (wanted : config.checkoutTimers = true)
    (length : config.maxCheckoutAge.totalNanos = span * 1000000) : (new config clock true).Timely span where
  sound := sound_new config clock true
  agree := agree_new config clock true
  schedule := ⟨rfl, by simp [new], nofun, nofun, List.Pairwise.nil⟩
  timed := by
    refine ⟨config.maxCheckoutAge, if_pos wanted, ?_⟩
    rw [Duration.ceilMillis, length]
    omega

namespace Timely

theorem checkOut (timely : c.Timely span) {key : String} (free : c.assignment.pool.used[key]? = none) :
    (c.assignment.checkOut key c.clock.now c.config.lease?).pool.timers = { c.assignment.pool.timers with
      issued := c.assignment.pool.timers.issued + 1
      armed := c.assignment.pool.timers.armed ++ [⟨c.assignment.pool.timers.issued,
        c.assignment.pool.timers.now + span, ⟨key, c.assignment.pool.issued + 1⟩⟩] } := by
  obtain ⟨lease, timed, length⟩ := timely.timed
  rw [timed]
  exact timely.schedule.armed_checkOut free c.clock.now length

theorem step (timely : c.Timely span) (positive : 0 < span) (action : Action) :
    (c.step action).1.Timely span := by
  obtain ⟨lease, timed, length⟩ := timely.timed
  refine ⟨sound_step timely.sound action, agree_step timely.sound timely.agree action, ?_,
    lease, by rw [config_step, timed], length⟩
  cases poolStep timely.sound action with
  | handsOut made _ _ free after =>
    rw [after, timed]
    exact (timely.schedule.checkOut free c.clock.now length positive).vacating (.aside .refl rfl)
  | passes millis _ after =>
    rw [after]
    exact timely.schedule.passTo timely.sound timely.agree _
  | vacates _ moves => exact timely.schedule.vacating moves

theorem run (timely : c.Timely span) (positive : 0 < span) (actions : List Action) :
    (c.run actions).Timely span := by
  induction actions generalizing c with
  | nil => exact timely
  | cons action rest ih => exact ih (timely.step positive action)

/-- Of the alarms after a step those that were not armed before are that of the checkout just made, in the
end and due when its lease is over. -/
theorem armed_step (timely : c.Timely span) (action : Action) :
    ∃ old, old.Sublist c.assignment.pool.timers.armed ∧
      ((c.step action).1.assignment.pool.timers.armed = old ∧ c.handsOut? action = none ∨
        ∃ id lease, c.handsOut? action = some lease ∧ (c.step action).1.assignment.pool.timers.armed =
          old ++ [⟨id, c.assignment.pool.timers.now + span, lease⟩]) := by
  cases handed : c.handsOut? action with
  | none =>
    exact ⟨_, (onlyEnds_step timely.sound handed).armed, Or.inl ⟨rfl, rfl⟩⟩
  | some lease =>
    obtain ⟨token, -, free, after⟩ := step_of_handsOut? timely.sound handed
    rw [← Pool.token?_eq_none_iff, Pool.token?, Option.map_eq_none_iff] at free
    refine ⟨_, List.Sublist.refl _, Or.inr ⟨c.assignment.pool.timers.issued, lease, rfl, ?_⟩⟩
    rw [after, Assignment.pool_publish, timely.checkOut free, ← token]

/-- An alarm is armed when its checkout is made, for as long as the lease lasts. -/
theorem madeAt_of_armed (timely : c.Timely span) (positive : 0 < span)
    (none : c.assignment.pool.timers.armed = []) {actions : List Action} {alarm : Alarm Lease}
    (armed : alarm ∈ (c.run actions).assignment.pool.timers.armed) :
    ∃ made, MadeAt c actions alarm.job made ∧ alarm.due = made + span := by
  induction actions using List.reverseRecOn with
  | nil =>
    rw [run_nil, none] at armed
    cases armed
  | append_singleton actions action ih =>
    rw [run_append, run_cons, run_nil] at armed
    simp only [madeAt_concat]
    have still (old : alarm ∈ (c.run actions).assignment.pool.timers.armed) : ∃ made,
        (MadeAt c actions alarm.job made ∨ (c.run actions).handsOut? action = some alarm.job ∧
          (c.run actions).assignment.pool.timers.now = made) ∧ alarm.due = made + span := by
      obtain ⟨made, making, due⟩ := ih old
      exact ⟨made, Or.inl making, due⟩
    obtain ⟨old, fewer, ⟨line, -⟩ | ⟨id, lease, handed, line⟩⟩ :=
      (timely.run positive actions).armed_step action
    · rw [line] at armed
      exact still (fewer.subset armed)
    · rw [line, List.mem_append, List.mem_singleton] at armed
      rcases armed with old | rfl
      · exact still (fewer.subset old)
      · exact ⟨_, Or.inr ⟨handed, rfl⟩, rfl⟩

/-- The alarms go off in the order of the checkouts. -/
theorem armed_sublist_handOuts (timely : c.Timely span) (positive : 0 < span)
    (none : c.assignment.pool.timers.armed = []) (actions : List Action) :
    ((c.run actions).assignment.pool.timers.armed.map (·.job)).Sublist (c.handOuts actions) := by
  induction actions using List.reverseRecOn with
  | nil =>
    rw [run_nil, none]
    exact List.Sublist.refl _
  | append_singleton actions action ih =>
    rw [run_append, run_cons, run_nil, handOuts_concat]
    obtain ⟨old, fewer, ⟨line, handed⟩ | ⟨id, lease, handed, line⟩⟩ :=
      (timely.run positive actions).armed_step action
    · rw [line, handed, Option.toList_none, List.append_nil]
      exact (fewer.map _).trans ih
    · rw [line, handed, Option.toList_some, List.map_append]
      exact ((fewer.map _).trans ih).append (List.Sublist.refl _)

/-- A live checkout has an alarm. -/
theorem armed_of_token? (timely : c.Timely span) {key : String} {token : Nat}
    (live : c.assignment.pool.token? key = some token) :
    ∃ alarm ∈ c.assignment.pool.timers.armed, alarm.job = ⟨key, token⟩ := by
  obtain ⟨⟨since, number, timer⟩, held, rfl⟩ := Option.map_eq_some_iff.mp live
  obtain ⟨id, rfl⟩ := Option.isSome_iff_exists.mp (timely.schedule.alarmed _ _ held)
  obtain ⟨alarm, armed, -, job⟩ := timely.agree.attached key since number id held
  exact ⟨alarm, armed, job⟩

/-- There is one alarm for each checkout, and no other alarm. -/
theorem armed_perm (timely : c.Timely span) : (c.assignment.pool.timers.armed.map (·.job)).Perm
    (c.assignment.pool.used.toList.map fun entry => ⟨entry.1, entry.2.token⟩) := by
  refine (List.perm_ext_iff_of_nodup ?_ ?_).mpr fun lease => ?_
  · refine List.Nodup.of_map (·.key) ?_
    rw [List.map_map]
    exact timely.agree.nodup_keys
  · refine List.Nodup.of_map (·.key) ?_
    rw [List.map_map]
    exact c.assignment.pool.nodup_used
  · have listed : lease ∈ (c.assignment.pool.used.toList.map fun entry => (⟨entry.1, entry.2.token⟩ : Lease)) ↔
        c.assignment.pool.token? lease.key = some lease.token := by
      rw [Pool.token?, Option.map_eq_some_iff, List.mem_map]
      constructor
      · rintro ⟨⟨key, checkout⟩, member, rfl⟩
        exact ⟨checkout, Std.ExtTreeMap.mem_toList_iff_getElem?_eq_some.mp member, rfl⟩
      · rintro ⟨checkout, held, token⟩
        refine ⟨⟨lease.key, checkout⟩, Std.ExtTreeMap.mem_toList_iff_getElem?_eq_some.mpr held, ?_⟩
        rw [token]
    rw [listed, List.mem_map]
    constructor
    · rintro ⟨alarm, armed, rfl⟩
      exact timely.agree.token?_of_armed armed
    · exact timely.armed_of_token?

/-- Nothing is due while no time passes. -/
theorem passTo_now (timely : c.Timely span) :
    c.assignment.passTo c.assignment.pool.timers.now = c.assignment := by
  have none : c.assignment.pool.timers.next? c.assignment.pool.timers.now = .none := by
    refine (Timers.next?_eq_none_iff _ _).mpr fun alarm first => ?_
    exact timely.schedule.ahead alarm (List.mem_of_mem_head? first)
  rw [Assignment.passTo_of_none none]
  simp only [Assignment.withPool, Pool.withTimers, Timers.reach, Nat.max_self]

theorem assignment_settle (timely : c.Timely span) : c.settle.1.assignment = c.assignment := by
  have still : (c.pass 0).assignment = c.assignment := by
    unfold pass
    split
    · rfl
    · exact timely.passTo_now
  exact still

end Timely

/-- The checkouts that end while so much time passes are those whose alarms go off in it. -/
theorem mem_alarmsWithin_iff {c : Cache} (sound : c.assignment.Sound) (agree : c.assignment.AlarmsAgree)
    (millis : Nat) (lease : Lease) : lease ∈ (c.alarmsWithin millis).map (·.job) ↔
      c.assignment.pool.token? lease.key = some lease.token ∧
        (c.pass millis).assignment.pool.token? lease.key ≠ some lease.token := by
  have gone := goneOff_pass sound agree millis
  have armed : ∀ alarm ∈ c.alarmsWithin millis, alarm ∈ c.assignment.pool.timers.armed := by
    intro alarm off
    rw [gone.armed]
    exact List.mem_append_left _ off
  have after : (c.pass millis).assignment.pool.used[lease.key]? =
      if lease.key ∈ (c.alarmsWithin millis).map (·.job.key) then none
      else c.assignment.pool.used[lease.key]? := gone.used lease.key
  constructor
  · rintro member
    obtain ⟨alarm, off, rfl⟩ := List.mem_map.mp member
    refine ⟨agree.token?_of_armed (armed alarm off), ?_⟩
    rw [if_pos (List.mem_map_of_mem off)] at after
    rw [Pool.token?, after]
    simp
  · rintro ⟨live, ended⟩
    by_cases off : lease.key ∈ (c.alarmsWithin millis).map (·.job.key)
    · obtain ⟨alarm, member, own⟩ := List.mem_map.mp off
      have held := agree.token?_of_armed (armed alarm member)
      rw [own, live] at held
      obtain ⟨key, token⟩ := lease
      obtain rfl : key = alarm.job.key := own.symm
      obtain rfl : token = alarm.job.token := Option.some.inj held
      exact List.mem_map_of_mem member
    · rw [if_neg off] at after
      exact absurd ((Pool.token?_congr after).trans live) ended

theorem now_pass {c : Cache} (sound : c.assignment.Sound) (agree : c.assignment.AlarmsAgree)
    (held : c.events.isGone = false) (millis : Nat) :
    (c.pass millis).assignment.pool.timers.now = c.assignment.pool.timers.now + millis := by
  have reached := (Assignment.goneOff_passTo sound agree (c.assignment.pool.timers.now + millis)).2.2
  rw [Nat.max_eq_right (Nat.le_add_right _ _)] at reached
  rwa [pass, held]

/-- Time may pass at once or bit by bit. -/
theorem pass_add {c : Cache} (sound : c.assignment.Sound) (agree : c.assignment.AlarmsAgree)
    (first later : Nat) : c.pass (first + later) = (c.pass first).pass later := by
  cases held : c.events.isGone with
  | true => simp only [pass, held, if_true]
  | false =>
    have now := now_pass sound agree held first
    simp only [pass, held, Bool.false_eq_true, if_false] at now ⊢
    rw [now, Assignment.passTo_passTo (by omega), Nat.add_assoc]

/-- A checkout that is live stays so exactly until its lease is over. -/
theorem Timely.token?_pass_iff (timely : c.Timely span) (held : c.events.isGone = false) (millis : Nat)
    {alarm : Alarm Lease} (armed : alarm ∈ c.assignment.pool.timers.armed) :
    (c.pass millis).assignment.pool.token? alarm.job.key = some alarm.job.token ↔
      c.assignment.pool.timers.now + millis < alarm.due := by
  have ended := mem_alarmsWithin_iff timely.sound timely.agree millis alarm.job
  have off : alarm.job ∈ (c.alarmsWithin millis).map (·.job) ↔
      alarm.due ≤ c.assignment.pool.timers.now + millis := by
    rw [alarmsWithin, held, List.mem_map]
    constructor
    · rintro ⟨other, within, same⟩
      obtain ⟨also, due⟩ := (Alarm.mem_takeWhile_due timely.schedule.sorted).mp within
      rwa [timely.agree.eq_of_key armed also (by rw [same])]
    · intro due
      exact ⟨alarm, (Alarm.mem_takeWhile_due timely.schedule.sorted).mpr ⟨armed, due⟩, rfl⟩
  rw [off, and_iff_right (timely.agree.token?_of_armed armed), ← not_iff_not, not_not, Nat.not_le] at ended
  exact ended.symm

/-- With leases of `span` milliseconds, in a run in which time is kept, the alarms to come are exactly those of
the checkouts that are live, one for each and due `span` after it was made. So no checkout is live any more
when its lease is over, and one that is left to its alarm ends just then, however the time until then is
cut. Keys that come back by their alarms while time passes go to the end of the line in the order in which
they were checked out. -/
theorem alarms_are_those_of_live_checkouts (config : Config) (clock : Clock) (span : Nat)
    (wanted : config.checkoutTimers = true) (length : config.maxCheckoutAge.totalNanos = span * 1000000)
    (positive : 1 ≤ span) (actions : List Action) :
    let start := new config clock true
    let c := start.run actions
    let timers := c.assignment.pool.timers
    (timers.armed.map (·.job)).Perm
      (c.assignment.pool.used.toList.map fun entry => ⟨entry.1, entry.2.token⟩) ∧
    (∀ lease due, (∃ alarm ∈ timers.armed, alarm.job = lease ∧ alarm.due = due) ↔
      c.assignment.pool.token? lease.key = some lease.token ∧
        ∃ made, MadeAt start actions lease made ∧ due = made + span) ∧
    c.settle.1.assignment = c.assignment ∧
    (∀ lease made, MadeAt start actions lease made →
      c.assignment.pool.token? lease.key = some lease.token →
      timers.now < made + span ∧ (c.events.isGone = false → ∀ millis,
        ((c.pass millis).assignment.pool.token? lease.key = some lease.token ↔
          timers.now + millis < made + span))) ∧
    (c.events.isGone = false → ∀ millis, (c.pass millis).assignment.pool.timers.now = timers.now + millis) ∧
    (∀ first later, c.pass (first + later) = (c.pass first).pass later) ∧
    ∀ millis, ∃ ended : List Lease, ended.Sublist (start.handOuts actions) ∧
      (c.pass millis).assignment.pool.idle = c.assignment.pool.idle ++ ended.map (·.key) ∧
      ∀ lease, lease ∈ ended ↔ c.assignment.pool.token? lease.key = some lease.token ∧
        (c.pass millis).assignment.pool.token? lease.key ≠ some lease.token := by
  intro start c timers
  have timelyStart : start.Timely span := timely_new clock wanted length
  have timely : c.Timely span := timelyStart.run positive actions
  have none : start.assignment.pool.timers.armed = [] := rfl
  -- A live checkout has an alarm, and it was made once, so its alarm tells when.
  have alarm_of {lease : Lease} {made : Nat} (making : MadeAt start actions lease made)
      (live : c.assignment.pool.token? lease.key = some lease.token) :
      ∃ alarm ∈ timers.armed, alarm.job = lease ∧ alarm.due = made + span := by
    obtain ⟨alarm, armed, job⟩ := timely.armed_of_token? live
    obtain ⟨moment, madeThen, due⟩ := timelyStart.madeAt_of_armed positive none armed
    obtain rfl : alarm.job = lease := job
    rw [making.unique timelyStart.sound madeThen]
    exact ⟨alarm, armed, rfl, due⟩
  refine ⟨timely.armed_perm, fun lease due => ⟨?_, ?_⟩, timely.assignment_settle, ?_, ?_, ?_, fun millis => ?_⟩
  · rintro ⟨alarm, armed, rfl, rfl⟩
    exact ⟨timely.agree.token?_of_armed armed, timelyStart.madeAt_of_armed positive none armed⟩
  · rintro ⟨live, made, making, rfl⟩
    exact alarm_of making live
  · intro lease made making live
    obtain ⟨alarm, armed, rfl, due⟩ := alarm_of making live
    rw [← due]
    exact ⟨timely.schedule.ahead alarm armed, fun held millis => timely.token?_pass_iff held millis armed⟩
  · exact fun held millis => now_pass timely.sound timely.agree held millis
  · exact pass_add timely.sound timely.agree
  · have gone := goneOff_pass timely.sound timely.agree millis
    refine ⟨(c.alarmsWithin millis).map (·.job), ?_, ?_, mem_alarmsWithin_iff timely.sound timely.agree millis⟩
    · refine List.Sublist.trans ?_ (timelyStart.armed_sublist_handOuts positive none actions)
      refine List.Sublist.map _ ?_
      rw [gone.armed]
      exact List.sublist_append_left _ _
    · rw [List.map_map]
      exact gone.idle

/-- The only checkout of a run is left to its alarm, which ends it after just one minute. -/
theorem minute_lease_ends_in_time :
    let c := (new Config.default ⟨0⟩ true).run [.add sharedPartition, .take]
    Config.default.checkoutTimers = true ∧ Config.default.maxCheckoutAge.totalNanos = 60000 * 1000000 ∧
      (c.pass 59999).assignment.pool.token? sharedPartition.key = some 1 ∧
      (c.pass 60000).assignment.pool.token? sharedPartition.key ≠ some 1 := by
  intro c
  have length : Config.default.maxCheckoutAge.totalNanos = 60000 * 1000000 := by decide
  obtain ⟨-, -, -, ends, -⟩ := alarms_are_those_of_live_checkouts Config.default ⟨0⟩ 60000 rfl length
    (by decide) [.add sharedPartition, .take]
  have made : MadeAt (new Config.default ⟨0⟩ true) [.add sharedPartition, .take] ⟨sharedPartition.key, 1⟩ 0 :=
    ⟨[.add sharedPartition], .take, [], rfl, by decide, by decide⟩
  obtain ⟨-, ending⟩ := ends _ 0 made (by decide)
  have inTime := ending (by decide)
  exact ⟨rfl, length, (inTime 59999).mpr (by decide),
    fun live => absurd ((inTime 60000).mp live) (by decide)⟩

end Cache

end PartitionLease

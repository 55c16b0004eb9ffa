import Mathlib.Data.List.Nodup
import PartitionLease.Proofs.MarkEffects

namespace PartitionLease

theorem Alarm.enqueue_perm {α : Type} (alarm : Alarm α) (line : List (Alarm α)) :
    (alarm.enqueue line).Perm (alarm :: line) := by
  induction line with
  | nil => exact List.Perm.refl _
  | cons next rest ih =>
    unfold enqueue
    split
    · exact (ih.cons next).trans (List.Perm.swap alarm next rest)
    · exact List.Perm.refl _

/-- An alarm that is due no sooner than the others goes to the end. -/
theorem Alarm.enqueue_of_last {α : Type} {alarm : Alarm α} {line : List (Alarm α)}
    (last : ∀ next ∈ line, next.due ≤ alarm.due) : alarm.enqueue line = line ++ [alarm] := by
  induction line with
  | nil => rfl
  | cons next rest ih =>
    rw [Alarm.enqueue, if_pos (last next List.mem_cons_self), ih fun other member =>
      last other (List.mem_cons_of_mem _ member), List.cons_append]

namespace Assignment

variable {a b d : Assignment}

/-- Every alarm still to come is that of a live checkout, and every checkout that was given an alarm still
has it. -/
structure AlarmsAgree (a : Assignment) : Prop where
  given : ∀ alarm ∈ a.pool.timers.armed, alarm.id < a.pool.timers.issued
  distinct : (a.pool.timers.armed.map (·.id)).Nodup
  live : ∀ alarm ∈ a.pool.timers.armed, ∃ since,
    a.pool.used[alarm.job.key]? = some ⟨since, alarm.job.token, some alarm.id⟩
  attached : ∀ key since token id, a.pool.used[key]? = some ⟨since, token, some id⟩ →
    ∃ alarm ∈ a.pool.timers.armed, alarm.id = id ∧ alarm.job = ⟨key, token⟩

namespace AlarmsAgree

theorem eq_of_id (agree : a.AlarmsAgree) {alarm other : Alarm Lease}
    (armed : alarm ∈ a.pool.timers.armed) (also : other ∈ a.pool.timers.armed) (same : alarm.id = other.id) :
    alarm = other :=
  List.inj_on_of_nodup_map agree.distinct armed also same

theorem eq_of_key (agree : a.AlarmsAgree) {alarm other : Alarm Lease}
    (armed : alarm ∈ a.pool.timers.armed) (also : other ∈ a.pool.timers.armed)
    (same : alarm.job.key = other.job.key) : alarm = other := by
  obtain ⟨since, held⟩ := agree.live alarm armed
  obtain ⟨later, again⟩ := agree.live other also
  rw [← same, held, Option.some.injEq, Checkout.mk.injEq, Option.some.injEq] at again
  exact agree.eq_of_id armed also again.2.2

theorem nodup_keys (agree : a.AlarmsAgree) : (a.pool.timers.armed.map (·.job.key)).Nodup :=
  List.Nodup.map_on (fun _ armed _ also same => agree.eq_of_key armed also same) agree.distinct.of_map

theorem token?_of_armed (agree : a.AlarmsAgree) {alarm : Alarm Lease}
    (armed : alarm ∈ a.pool.timers.armed) : a.pool.token? alarm.job.key = some alarm.job.token := by
  obtain ⟨since, held⟩ := agree.live alarm armed
  rw [Pool.token?, held]
  rfl

/-- What is dropped with a checkout is exactly the alarm for its key. -/
theorem armed_cancelAny (agree : a.AlarmsAgree) (key : String) :
    (a.pool.timers.cancelAny (a.pool.used[key]?.bind (·.timer))).armed =
      a.pool.timers.armed.filter (·.job.key ≠ key) := by
  have nobody (bare : a.pool.used[key]?.bind (·.timer) = none) :
      a.pool.timers.armed = a.pool.timers.armed.filter (·.job.key ≠ key) := by
    refine (List.filter_eq_self.mpr fun alarm armed => ?_).symm
    obtain ⟨since, held⟩ := agree.live alarm armed
    refine decide_eq_true fun own => ?_
    rw [← own, held] at bare
    cases bare
  cases timer : a.pool.used[key]?.bind (·.timer) with
  | none => exact nobody timer
  | some id =>
    obtain ⟨⟨since, token, alarm?⟩, held, rfl⟩ := Option.bind_eq_some_iff.mp timer
    obtain ⟨own, ownArmed, rfl, job⟩ := agree.attached key since token id held
    have key_eq : own.job.key = key := by rw [job]
    refine List.filter_congr fun alarm armed => ?_
    rw [bne, Bool.beq_eq_decide_eq, ← decide_not, decide_eq_decide, not_iff_not]
    constructor
    · exact fun same => agree.eq_of_id armed ownArmed same ▸ key_eq
    · exact fun same => congrArg Alarm.id (agree.eq_of_key armed ownArmed (same.trans key_eq.symm))

/-- Agreement survives when a checkout goes together with its alarm. -/
theorem erase (agree : a.AlarmsAgree) {key : String} (used : b.pool.used = a.pool.used.erase key)
    (armed : b.pool.timers.armed = a.pool.timers.armed.filter (·.job.key ≠ key))
    (issued : b.pool.timers.issued = a.pool.timers.issued) : b.AlarmsAgree where
  given := by
    intro alarm member
    rw [armed] at member
    rw [issued]
    exact agree.given alarm (List.mem_of_mem_filter member)
  distinct := by
    rw [armed]
    exact agree.distinct.sublist (List.filter_sublist.map _)
  live := by
    intro alarm member
    rw [armed, List.mem_filter, decide_eq_true_eq] at member
    obtain ⟨since, held⟩ := agree.live alarm member.1
    refine ⟨since, ?_⟩
    rw [used, Std.ExtTreeMap.getElem?_erase, if_neg, held]
    rw [Std.LawfulEqCmp.compare_eq_iff_eq]
    exact Ne.symm member.2
  attached := by
    intro k since token id held
    rw [used, Std.ExtTreeMap.getElem?_erase] at held
    split at held
    · cases held
    · rename_i other
      obtain ⟨alarm, member, own, job⟩ := agree.attached k since token id held
      refine ⟨alarm, ?_, own, job⟩
      rw [Std.LawfulEqCmp.compare_eq_iff_eq] at other
      rw [armed, List.mem_filter, decide_eq_true_eq, job]
      exact ⟨member, Ne.symm other⟩

theorem vacate (agree : a.AlarmsAgree) (key : String) (requeue : Bool) :
    (a.vacate key requeue).1.AlarmsAgree := by
  refine agree.erase (used_vacate a key requeue) ?_ ?_
  · rw [timers_vacate, agree.armed_cancelAny]
  · rw [timers_vacate, Timers.issued_cancelAny]

theorem vacating (agree : a.AlarmsAgree) (moves : Vacating a b) : b.AlarmsAgree := by
  induction moves with
  | refl => exact agree
  | aside _ pool ih =>
    constructor
    · rw [pool]
      exact ih.given
    · rw [pool]
      exact ih.distinct
    · rw [pool]
      exact ih.live
    · rw [pool]
      exact ih.attached
  | vacate _ key requeue ih => exact ih.vacate key requeue

end AlarmsAgree

/-- A key that is not out gets an alarm with its checkout where time is kept and there is a lease, and
otherwise no alarm is set. -/
theorem timers_checkOut {key : String} (free : a.pool.used[key]? = none) (now : UInt64)
    (lease? : Option Duration) :
    (a.checkOut key now lease?).pool.timers = a.pool.timers ∧ a.pool.nextAlarm lease? = none ∨
      ∃ lease, lease? = some lease ∧ a.pool.nextAlarm lease? = some a.pool.timers.issued ∧
        (a.checkOut key now lease?).pool.timers = { a.pool.timers with
          issued := a.pool.timers.issued + 1
          armed := Alarm.enqueue ⟨a.pool.timers.issued, a.pool.timers.now + lease.ceilMillis,
            ⟨key, a.pool.issued + 1⟩⟩ a.pool.timers.armed } := by
  rw [pool_checkOut, free]
  cases lease? with
  | none => exact Or.inl ⟨rfl, by simp [Pool.nextAlarm]⟩
  | some lease =>
    by_cases timeKept : a.pool.timers.kept
    · refine Or.inr ⟨lease, rfl, by simp [Pool.nextAlarm, timeKept], ?_⟩
      simp [Timers.cancelAny, Timers.arm_of_kept timeKept]
    · refine Or.inl ⟨?_, by simp [Pool.nextAlarm, timeKept]⟩
      simp [Timers.cancelAny, Timers.arm, timeKept]

theorem AlarmsAgree.checkOut (agree : a.AlarmsAgree) {key : String} (free : a.pool.used[key]? = none)
    (now : UInt64) (lease? : Option Duration) : (a.checkOut key now lease?).AlarmsAgree := by
  have others : ∀ alarm ∈ a.pool.timers.armed, key ≠ alarm.job.key := by
    rintro alarm armed rfl
    obtain ⟨since, held⟩ := agree.live alarm armed
    rw [free] at held
    cases held
  have stays (alarm : Alarm Lease) (armed : alarm ∈ a.pool.timers.armed) : ∃ since,
      (a.checkOut key now lease?).pool.used[alarm.job.key]? = some ⟨since, alarm.job.token, some alarm.id⟩ := by
    obtain ⟨since, held⟩ := agree.live alarm armed
    refine ⟨since, ?_⟩
    rw [used_checkOut, Std.ExtTreeMap.getElem?_insert, if_neg, held]
    simpa using others alarm armed
  rcases timers_checkOut free now lease? with ⟨timers, bare⟩ | ⟨lease, -, alarmed, timers⟩
  · refine ⟨?_, ?_, ?_, ?_⟩
    · rw [timers]
      exact agree.given
    · rw [timers]
      exact agree.distinct
    · rw [timers]
      exact stays
    · intro k since token id held
      rw [used_checkOut, Std.ExtTreeMap.getElem?_insert, bare] at held
      rw [timers]
      split at held
      · cases held
      · exact agree.attached k since token id held
  · refine ⟨?_, ?_, ?_, ?_⟩
    · intro alarm armed
      rw [timers, Timers.mem_enqueue] at armed
      rw [timers]
      rcases armed with rfl | old
      · exact Nat.lt_succ_self _
      · exact Nat.lt_succ_of_lt (agree.given alarm old)
    · rw [timers, ((Alarm.enqueue_perm _ _).map _).nodup_iff, List.map_cons, List.nodup_cons]
      refine ⟨fun given => ?_, agree.distinct⟩
      obtain ⟨alarm, armed, same⟩ := List.mem_map.mp given
      exact absurd same (Nat.ne_of_lt (agree.given alarm armed))
    · intro alarm armed
      rw [timers, Timers.mem_enqueue] at armed
      rcases armed with rfl | old
      · refine ⟨now, ?_⟩
        rw [used_checkOut, Std.ExtTreeMap.getElem?_insert_self, alarmed]
      · exact stays alarm old
    · intro k since token id held
      rw [used_checkOut, Std.ExtTreeMap.getElem?_insert, alarmed] at held
      simp only [timers, Timers.mem_enqueue]
      split at held
      · rename_i same
        rw [Std.LawfulEqCmp.compare_eq_iff_eq] at same
        subst same
        cases held
        exact ⟨_, Or.inl rfl, rfl, rfl⟩
      · obtain ⟨alarm, armed, own, job⟩ := agree.attached k since token id held
        exact ⟨alarm, Or.inr armed, own, job⟩

/-- From `a` to `b` the first of the alarms to come have gone off, and each has ended its checkout. The keys
stand at the end of the line in the order in which the alarms went off, and their partitions are marked as
not finished with. -/
structure GoneOff (a b : Assignment) (alarms : List (Alarm Lease)) : Prop where
  registry : b.registry = a.registry
  armed : a.pool.timers.armed = alarms ++ b.pool.timers.armed
  idle : b.pool.idle = a.pool.idle ++ alarms.map (·.job.key)
  used : ∀ k, b.pool.used[k]? = if k ∈ alarms.map (·.job.key) then none else a.pool.used[k]?
  issued : b.pool.issued = a.pool.issued
  kept : b.pool.timers.kept = a.pool.timers.kept
  marks : ∀ p, b.marks p =
    if p.key ∈ alarms.map (·.job.key) ∧ a.registry.find? p.key = some p then false else a.marks p

namespace GoneOff

theorem refl (a : Assignment) : GoneOff a a [] := ⟨rfl, rfl, by simp, by simp, rfl, rfl, by simp⟩

theorem trans {alarms more : List (Alarm Lease)} (first : GoneOff a b alarms) (later : GoneOff b d more) :
    GoneOff a d (alarms ++ more) where
  registry := later.registry.trans first.registry
  armed := by rw [first.armed, later.armed, List.append_assoc]
  idle := by rw [later.idle, first.idle, List.map_append, List.append_assoc]
  used := by
    intro k
    rw [later.used, first.used, List.map_append]
    by_cases now : k ∈ alarms.map (·.job.key) <;> by_cases afterwards : k ∈ more.map (·.job.key) <;>
      simp [now, afterwards]
  issued := later.issued.trans first.issued
  kept := later.kept.trans first.kept
  marks := by
    intro p
    rw [later.marks, first.marks, first.registry, List.map_append]
    by_cases now : p.key ∈ alarms.map (·.job.key) <;> by_cases afterwards : p.key ∈ more.map (·.job.key) <;>
      by_cases known : a.registry.find? p.key = some p <;> simp [now, afterwards, known]

end GoneOff

/-- The next alarm that is due goes off. It is that of a live checkout, which it ends. -/
theorem goneOff_next (sound : a.Sound) (agree : a.AlarmsAgree) {limit : Nat} {alarm : Alarm Lease}
    {later : Timers Lease} (found : a.pool.timers.next? limit = some (alarm, later)) :
    let b := (a.withPool (a.pool.withTimers later)).expire alarm.job
    GoneOff a b [alarm] ∧ b.Sound ∧ b.AlarmsAgree ∧
      b.pool.timers.now = max a.pool.timers.now alarm.due := by
  intro b
  obtain ⟨-, line, laterEq⟩ := Timers.next?_eq_some found
  have first : alarm ∈ a.pool.timers.armed := line ▸ List.mem_cons_self
  obtain ⟨since, held⟩ := agree.live alarm first
  have live : (a.withPool (a.pool.withTimers later)).pool.token? alarm.job.key = some alarm.job.token :=
    agree.token?_of_armed first
  have soundLater := sound.withTimers later
  have timers : b.pool.timers = later.cancel alarm.id := by
    have vacated := timers_vacate ((a.withPool (a.pool.withTimers later)).markKey alarm.job.key false)
      alarm.job.key true
    rw [pool_markKey] at vacated
    simp only [b, Assignment.expire, if_pos live]
    refine vacated.trans ?_
    simp only [withPool, Pool.withTimers, held]
    rfl
  have distinct := agree.distinct
  rw [line, List.map_cons, List.nodup_cons] at distinct
  -- The alarm is off already when its checkout is ended, and cancelling it finds nothing.
  have armed : b.pool.timers.armed = later.armed := by
    rw [timers]
    refine List.filter_eq_self.mpr fun other member => ?_
    refine bne_iff_ne.mpr fun same => distinct.1 ?_
    exact same ▸ List.mem_map_of_mem member
  have used : b.pool.used = a.pool.used.erase alarm.job.key := by
    rw [used_expire, if_pos live]
    rfl
  refine ⟨⟨registry_expire _ _, ?_, soundLater.idle_expire live, ?_, ?_, ?_, ?_⟩, soundLater.expire _, ?_, ?_⟩
  · rw [armed, line]
    rfl
  · intro k
    rw [used, Std.ExtTreeMap.getElem?_erase]
    simp only [Std.LawfulEqCmp.compare_eq_iff_eq, List.map_cons, List.map_nil, List.mem_singleton,
      @eq_comm _ k]
  · exact (OnlyEnds.of_vacating (.expire _ alarm.job)).issued
  · rw [timers, laterEq]
    rfl
  · intro p
    refine (soundLater.marks_expire alarm.job p).trans ?_
    simp only [live, true_and, List.map_cons, List.map_nil, List.mem_singleton]
    rfl
  · refine agree.erase used ?_ ?_
    · have keys := agree.nodup_keys
      rw [line, List.map_cons, List.nodup_cons] at keys
      rw [armed, line, List.filter_cons_of_neg (by simp)]
      refine (List.filter_eq_self.mpr fun other member => ?_).symm
      rw [decide_eq_true_eq]
      exact fun same => keys.1 (same ▸ List.mem_map_of_mem member)
    · rw [timers, laterEq]
      rfl
  · rw [timers, laterEq]
    rfl

theorem goneOff_expireDue (limit n : Nat) (enough : a.pool.timers.armed.length ≤ n) (sound : a.Sound)
    (agree : a.AlarmsAgree) :
    GoneOff a (a.expireDue limit n) (a.pool.timers.armed.takeWhile (·.due ≤ limit)) ∧
      (a.expireDue limit n).AlarmsAgree ∧ a.pool.timers.now ≤ (a.expireDue limit n).pool.timers.now ∧
      (a.expireDue limit n).pool.timers.now ≤ max a.pool.timers.now limit := by
  induction n generalizing a with
  | zero =>
    have none : a.pool.timers.armed = [] := List.length_eq_zero_iff.mp (Nat.le_zero.mp enough)
    rw [none, expireDue]
    exact ⟨.refl a, agree, Nat.le_refl _, Nat.le_max_left _ _⟩
  | succ n ih =>
    rw [expireDue]
    split
    · rename_i none
      have first := (Timers.next?_eq_none_iff _ _).mp none
      have nothing : a.pool.timers.armed.takeWhile (·.due ≤ limit) = [] := by
        cases line : a.pool.timers.armed with
        | nil => rfl
        | cons alarm rest =>
          have := first alarm (by rw [line]; rfl)
          exact List.takeWhile_cons_of_neg (by simpa using this)
      rw [nothing]
      exact ⟨.refl a, agree, Nat.le_refl _, Nat.le_max_left _ _⟩
    · rename_i alarm later found
      obtain ⟨due, line, -⟩ := Timers.next?_eq_some found
      obtain ⟨gone, soundNext, agreeNext, now⟩ := goneOff_next sound agree found
      have fewer := gone.armed
      have shorter : ((a.withPool (a.pool.withTimers later)).expire alarm.job).pool.timers.armed.length ≤ n := by
        rw [fewer] at enough
        simpa using enough
      obtain ⟨rest, agreeLast, early, late⟩ := ih shorter soundNext agreeNext
      refine ⟨?_, agreeLast, by omega, by omega⟩
      rw [fewer, List.singleton_append, List.takeWhile_cons_of_pos (by simpa using due)]
      exact gone.trans rest

/-- Time passes up to `limit`. The alarms that are due by then have gone off, and the time is right. -/
theorem goneOff_passTo (sound : a.Sound) (agree : a.AlarmsAgree) (limit : Nat) :
    GoneOff a (a.passTo limit) (a.pool.timers.armed.takeWhile (·.due ≤ limit)) ∧
      (a.passTo limit).AlarmsAgree ∧ (a.passTo limit).pool.timers.now = max a.pool.timers.now limit := by
  obtain ⟨gone, agreeAfter, early, late⟩ := goneOff_expireDue limit _ (Nat.le_refl _) sound agree
  refine ⟨⟨gone.registry, gone.armed, gone.idle, gone.used, gone.issued, gone.kept, gone.marks⟩, ?_, ?_⟩
  · exact ⟨agreeAfter.given, agreeAfter.distinct, agreeAfter.live, agreeAfter.attached⟩
  · have reached : (a.passTo limit).pool.timers.now =
        max (a.expireDue limit a.pool.timers.armed.length).pool.timers.now limit := rfl
    omega

end Assignment

end PartitionLease

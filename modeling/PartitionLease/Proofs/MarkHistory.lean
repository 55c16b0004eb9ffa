import Mathlib.Data.List.Induction
import Mathlib.Data.List.TakeWhile
import PartitionLease.Proofs.PoolSteps

namespace PartitionLease

namespace Cache

/-- The cache for partitions whose marks were written before it was made. -/
def withMarks (c : Cache) (marks : Marks) : Cache := { c with assignment := { c.assignment with marks } }

/-- The ways in which an action of the cache writes the mark of a partition. -/
inductive Writes (c : Cache) (p : Partition) : Action → Bool → Prop
  | returned (consumed : Bool) (known : c.assignment.registry.find? p.key = some p)
      (accepted : (c.step (.release p.key consumed)).2 = .flag true) :
      Writes c p (.release p.key consumed) consumed
  | withdrawn (subscriptions : List Subscription) (rollback : Bool) (removed : RemovedPartitions)
      (known : c.assignment.registry.find? p.key = some p) (out : c.assignment.pool.isUsed p.key)
      (named : p.key ∈ subscriptions.map (·.key)) :
      Writes c p (.withdraw subscriptions rollback removed) (!rollback)
  | swept (maxAge : Duration) (order : List String) (known : c.assignment.registry.find? p.key = some p)
      (overdue : p.key ∈ c.assignment.pool.expired c.clock.now maxAge.wholeMillis) :
      Writes c p (.sweep maxAge order) false
  | expired (token : Nat) (known : c.assignment.registry.find? p.key = some p)
      (live : c.assignment.pool.token? p.key = some token) : Writes c p (.expire ⟨p.key, token⟩) false
  | ranOut (millis : Nat) (known : c.assignment.registry.find? p.key = some p)
      (off : p.key ∈ (c.alarmsWithin millis).map (·.job.key)) : Writes c p (.pass millis) false

/-- The mark of a partition is written, by the cache or by someone who knows the partition. -/
def Sets (c : Cache) (p : Partition) (action : Action) (consumed : Bool) : Prop :=
  Writes c p action consumed ∨ action = .mark p consumed

/-- Step number `n` of a run writes the mark of a partition. -/
def SetAt (c : Cache) (p : Partition) (actions : List Action) (n : Nat) (consumed : Bool) : Prop :=
  ∃ action, actions[n]? = some action ∧ Sets (c.run (actions.take n)) p action consumed

/-- Step number `n` of a run is the last one that writes the mark of a partition. -/
def LastSetAt (c : Cache) (p : Partition) (actions : List Action) (n : Nat) (consumed : Bool) : Prop :=
  SetAt c p actions n consumed ∧ ∀ later other, n < later → ¬ SetAt c p actions later other

/-- The actions in which checkouts run out. -/
def Expires : Action → Prop
  | .sweep _ _ | .expire _ | .pass _ => True
  | _ => False

/-- Actions that write no mark, even if they end checkouts. -/
inductive Spares (c : Cache) : Action → Prop
  | registered (p : Partition) : Spares c (.add p)
  | handed : Spares c .take
  | marked (key : String) : Spares c (.markUsed key)
  | reclaimed (key : String) (requeue : Bool) : Spares c (.reclaim key requeue)
  | dropped (keys : List String) : Spares c (.drop keys)
  | unclaimed (subscriptions : List Subscription) (rollback : Bool) (removed : RemovedPartitions)
      (free : ∀ s ∈ subscriptions, c.assignment.pool.isUsed s.key = false) :
      Spares c (.withdraw subscriptions rollback removed)
  | stale (lease : Lease) (past : c.assignment.pool.token? lease.key ≠ some lease.token) :
      Spares c (.expire lease)
  | refused (key : String) (consumed : Bool) (refusal : (c.step (.release key consumed)).2 = .flag false) :
      Spares c (.release key consumed)

theorem reply_release (c : Cache) (key : String) (consumed : Bool) :
    (c.step (.release key consumed)).2 = .flag (c.assignment.pool.isUsed key) := by
  simp only [step, Assignment.release]
  split <;> simp_all

/-- The cache writes the mark of a partition only if it is the one known under its key, and only when a
checkout of this key ends. -/
theorem Writes.ends {c : Cache} (sound : c.assignment.Sound) (agree : c.assignment.AlarmsAgree) {p : Partition}
    {action : Action} {consumed : Bool} (writes : Writes c p action consumed) :
    c.assignment.registry.find? p.key = some p ∧ ∃ token, c.assignment.pool.token? p.key = some token ∧
      EndedBy c ⟨p.key, token⟩ action ∧ (c.step action).1.assignment.pool.token? p.key = none := by
  have live (out : c.assignment.pool.isUsed p.key) : ∃ token, c.assignment.pool.token? p.key = some token := by
    rwa [Pool.isUsed_eq_isSome_token?, Option.isSome_iff_exists] at out
  have ended (quiet : c.handsOut? action = none) (goes : p.key ∈ c.pulled action ∨ p.key ∈ c.queued action) :
      (c.step action).1.assignment.pool.token? p.key = none := by
    rw [Pool.token?_eq_none_iff, ← Bool.not_eq_true, used_step sound agree, quiet]
    rintro (⟨token, handed⟩ | ⟨-, stays, notQueued⟩)
    · cases handed
    · exact goes.elim stays notQueued
  cases writes with
  | returned _ known accepted =>
    have out := accepted
    rw [reply_release, Reply.flag.injEq] at out
    obtain ⟨token, held⟩ := live out
    refine ⟨known, token, held, .returned consumed accepted, ended (by simp [handsOut?]) (Or.inr ?_)⟩
    simp [queued, accepted, Reply.isYes]
  | withdrawn subscriptions rollback removed known out named =>
    obtain ⟨token, held⟩ := live out
    exact ⟨known, token, held, .withdrawn subscriptions rollback removed (List.mem_map.mp named),
      ended (by simp [handsOut?]) (Or.inl named)⟩
  | swept maxAge order known overdue =>
    obtain ⟨token, held⟩ := live (Pool.isUsed_of_mem_expired overdue)
    exact ⟨known, token, held, .swept maxAge order overdue,
      ended (by simp [handsOut?]) (Or.inr (Assignment.mem_arrange.mpr overdue))⟩
  | expired token known held =>
    refine ⟨known, token, held, .expired, ended (by simp [handsOut?]) (Or.inr ?_)⟩
    simp [queued, held]
  | ranOut millis known off =>
    obtain ⟨alarm, within, own⟩ := List.mem_map.mp off
    have armed : alarm ∈ c.assignment.pool.timers.armed := by
      rw [(goneOff_pass sound agree millis).armed]
      exact List.mem_append_left _ within
    have due : alarm.due ≤ c.assignment.pool.timers.now + millis := by
      rw [alarmsWithin] at within
      split at within
      · cases within
      · simpa using List.mem_takeWhile_imp within
    refine ⟨known, alarm.job.token, own ▸ agree.token?_of_armed armed, ?_,
      ended (by simp [handsOut?]) (Or.inr off)⟩
    exact .ranOut millis alarm armed (by rw [← own]) due

/-- When the cache writes the mark of a partition, and what, action by action. -/
theorem writes_iff {c : Cache} {p : Partition} {action : Action} {written : Bool} :
    Writes c p action written ↔ c.assignment.registry.find? p.key = some p ∧ match action with
      | .release key consumed => key = p.key ∧ c.assignment.pool.isUsed p.key ∧ written = consumed
      | .withdraw subscriptions rollback _ => p.key ∈ subscriptions.map (·.key) ∧
          c.assignment.pool.isUsed p.key ∧ written = !rollback
      | .sweep maxAge _ => p.key ∈ c.assignment.pool.expired c.clock.now maxAge.wholeMillis ∧ written = false
      | .expire lease => lease.key = p.key ∧ c.assignment.pool.token? p.key = some lease.token ∧ written = false
      | .pass millis => p.key ∈ (c.alarmsWithin millis).map (·.job.key) ∧ written = false
      | _ => False := by
  constructor
  · intro writes
    cases writes with
    | returned consumed known accepted =>
      rw [reply_release, Reply.flag.injEq] at accepted
      exact ⟨known, rfl, accepted, rfl⟩
    | withdrawn subscriptions rollback removed known out named => exact ⟨known, named, out, rfl⟩
    | swept maxAge order known overdue => exact ⟨known, overdue, rfl⟩
    | expired token known live => exact ⟨known, rfl, live, rfl⟩
    | ranOut millis known off => exact ⟨known, off, rfl⟩
  · rintro ⟨known, way⟩
    cases action with
    | release key consumed =>
      obtain ⟨rfl, out, rfl⟩ := way
      exact .returned written known (by rw [reply_release, out])
    | withdraw subscriptions rollback removed =>
      obtain ⟨named, out, rfl⟩ := way
      exact .withdrawn subscriptions rollback removed known out named
    | sweep maxAge order =>
      obtain ⟨overdue, rfl⟩ := way
      exact .swept maxAge order known overdue
    | expire lease =>
      obtain ⟨key, token⟩ := lease
      obtain ⟨rfl, live, rfl⟩ := way
      exact .expired token known live
    | pass millis =>
      obtain ⟨off, rfl⟩ := way
      exact .ranOut millis known off
    | _ => exact way.elim

theorem Sets.unique {c : Cache} {p : Partition} {action : Action} {consumed other : Bool}
    (sets : Sets c p action consumed) (also : Sets c p action other) : consumed = other := by
  rcases sets with writes | rfl
  · rcases also with writesToo | rfl
    · cases writes <;> cases writesToo <;> rfl
    · cases writes
  · rcases also with writesToo | same
    · cases writesToo
    · cases same
      rfl

/-- An action either writes the mark of a partition or leaves it. -/
theorem marks_step {c : Cache} (sound : c.assignment.Sound) (agree : c.assignment.AlarmsAgree)
    (action : Action) (p : Partition) :
    (∃ consumed, Sets c p action consumed ∧ (c.step action).1.assignment.marks p = consumed) ∨
      (∀ consumed, ¬ Sets c p action consumed) ∧
        (c.step action).1.assignment.marks p = c.assignment.marks p := by
  have of_effect {P : Prop} [Decidable P] {consumed : Bool}
      (effect : (c.step action).1.assignment.marks p = if P then consumed else c.assignment.marks p)
      (way : ∀ other, Sets c p action other ↔ P ∧ other = consumed) :
      (∃ consumed, Sets c p action consumed ∧ (c.step action).1.assignment.marks p = consumed) ∨
        (∀ consumed, ¬ Sets c p action consumed) ∧
          (c.step action).1.assignment.marks p = c.assignment.marks p := by
    by_cases writes : P
    · exact Or.inl ⟨consumed, (way consumed).mpr ⟨writes, rfl⟩, by rw [effect, if_pos writes]⟩
    · exact Or.inr ⟨fun other sets => writes ((way other).mp sets).1, by rw [effect, if_neg writes]⟩
  have of_same (same : (c.step action).1.assignment.marks = c.assignment.marks)
      (never : ∀ consumed, ¬ Sets c p action consumed) :
      (∃ consumed, Sets c p action consumed ∧ (c.step action).1.assignment.marks p = consumed) ∨
        (∀ consumed, ¬ Sets c p action consumed) ∧
          (c.step action).1.assignment.marks p = c.assignment.marks p := Or.inr ⟨never, congrFun same p⟩
  cases action with
  | release key consumed =>
    refine of_effect (sound.marks_release key consumed p) fun other => ?_
    simp only [Sets, writes_iff, reduceCtorEq, or_false]
    constructor
    · rintro ⟨known, rfl, out, rfl⟩
      exact ⟨⟨out, rfl, known⟩, rfl⟩
    · rintro ⟨⟨out, rfl, known⟩, rfl⟩
      exact ⟨known, rfl, out, rfl⟩
  | withdraw subscriptions rollback removed =>
    refine of_effect (sound.marks_withdraw subscriptions rollback removed p) fun other => ?_
    simp only [Sets, writes_iff, reduceCtorEq, or_false]
    tauto
  | sweep maxAge order =>
    refine of_effect (sound.marks_sweep c.clock.now maxAge order p) fun other => ?_
    simp only [Sets, writes_iff, reduceCtorEq, or_false]
    tauto
  | expire lease =>
    refine of_effect (sound.marks_expire lease p) fun other => ?_
    simp only [Sets, writes_iff, reduceCtorEq, or_false]
    constructor
    · rintro ⟨known, own, live, rfl⟩
      exact ⟨⟨own ▸ live, own.symm, known⟩, rfl⟩
    · rintro ⟨⟨live, own, known⟩, rfl⟩
      exact ⟨known, own.symm, own ▸ live, rfl⟩
  | pass millis =>
    refine of_effect ((goneOff_pass sound agree millis).marks p) fun other => ?_
    simp only [Sets, writes_iff, reduceCtorEq, or_false]
    tauto
  | mark q consumed =>
    by_cases own : p = q
    · subst own
      exact Or.inl ⟨consumed, Or.inr rfl, Marks.write_self c.assignment.marks p consumed⟩
    · refine Or.inr ⟨?_, Marks.write_of_ne c.assignment.marks consumed own⟩
      rintro other (writes | same)
      · cases writes
      · cases same
        exact own rfl
  | add q =>
    exact of_same (c.assignment.marks_add c.session.consumer c.session.group q) (by simp [Sets, writes_iff])
  | drop keys => exact of_same (c.assignment.marks_drop keys) (by simp [Sets, writes_iff])
  | take =>
    refine of_same ?_ (by simp [Sets, writes_iff])
    cases line : c.assignment.pool.idle with
    | nil => simp only [step, sound.take_nil line]
    | cons key rest =>
      simp only [step, sound.take_cons line]
      rfl
  | markUsed key =>
    refine of_same ?_ (by simp [Sets, writes_iff])
    simp only [step, Assignment.markUsed]
    split <;> rfl
  | advanceClock span =>
    exact of_same (congrArg Assignment.marks (assignment_advanceClock c span)) (by simp [Sets, writes_iff])
  | reclaim _ _ | setConsumer _ _ | setClock _ | present _ | events _ =>
    exact of_same rfl (by simp [Sets, writes_iff])

theorem marks_step_of_not_sets {c : Cache} (sound : c.assignment.Sound) (agree : c.assignment.AlarmsAgree)
    {action : Action} {p : Partition} (never : ∀ consumed, ¬ Sets c p action consumed) :
    (c.step action).1.assignment.marks p = c.assignment.marks p := by
  rcases marks_step sound agree action p with ⟨consumed, sets, -⟩ | ⟨-, same⟩
  · exact absurd sets (never consumed)
  · exact same

theorem Spares.not_sets {c : Cache} {action : Action} (spares : Spares c action) (p : Partition)
    (consumed : Bool) : ¬ Sets c p action consumed := by
  rintro (writes | rfl)
  · cases writes with
    | returned _ _ accepted =>
      cases spares with
      | refused _ _ refusal =>
        rw [accepted] at refusal
        cases refusal
    | withdrawn subscriptions rollback removed _ out named =>
      cases spares with
      | unclaimed _ _ _ free =>
        obtain ⟨s, member, own⟩ := List.mem_map.mp named
        rw [← own, free s member] at out
        cases out
    | swept => cases spares
    | expired token _ live =>
      cases spares with
      | stale _ past => exact past live
    | ranOut => cases spares
  · cases spares

theorem setAt_concat {c : Cache} {p : Partition} {actions : List Action} {action : Action} {n : Nat}
    {consumed : Bool} : SetAt c p (actions ++ [action]) n consumed ↔
      if n = actions.length then Sets (c.run actions) p action consumed else SetAt c p actions n consumed := by
  unfold SetAt
  rcases Nat.lt_trichotomy n actions.length with early | rfl | late
  · rw [List.getElem?_append_left early, List.take_append_of_le_length (Nat.le_of_lt early),
      if_neg (Nat.ne_of_lt early)]
  · simp
  · have past : (actions ++ [action]).length ≤ n := by
      rw [List.length_append]
      exact late
    rw [if_neg (Nat.ne_of_gt late), List.getElem?_eq_none past, List.getElem?_eq_none (Nat.le_of_lt late)]
    simp

theorem SetAt.lt {c : Cache} {p : Partition} {actions : List Action} {n : Nat} {consumed : Bool}
    (set : SetAt c p actions n consumed) : n < actions.length := by
  obtain ⟨action, found, -⟩ := set
  exact (List.getElem?_eq_some_iff.mp found).1

/-- The mark of a partition is what was last written, or what it was before if nothing was. -/
theorem marks_run_iff {c : Cache} (sound : c.assignment.Sound) (agree : c.assignment.AlarmsAgree)
    (actions : List Action) (p : Partition) (consumed : Bool) :
    (c.run actions).assignment.marks p = consumed ↔ (∃ n, LastSetAt c p actions n consumed) ∨
      (∀ n other, ¬ SetAt c p actions n other) ∧ c.assignment.marks p = consumed := by
  induction actions using List.reverseRecOn with
  | nil => simp [LastSetAt, SetAt]
  | append_singleton actions action ih =>
    rw [run_append, run_cons, run_nil]
    rcases marks_step (sound_run sound actions) (agree_run sound agree actions) action p with
      ⟨written, sets, after⟩ | ⟨never, same⟩
    · have now : SetAt c p (actions ++ [action]) actions.length written := by
        rw [setAt_concat, if_pos rfl]
        exact sets
      rw [after]
      constructor
      · rintro rfl
        refine Or.inl ⟨actions.length, now, fun later other past set => ?_⟩
        have := set.lt
        rw [List.length_append, List.length_singleton] at this
        omega
      · rintro (⟨n, set, last⟩ | ⟨nothing, -⟩)
        · have inRun := set.lt
          rw [List.length_append, List.length_singleton] at inRun
          by_cases final : n = actions.length
          · rw [setAt_concat, if_pos final] at set
            exact sets.unique set
          · exact absurd now (last _ written (by omega))
        · exact absurd now (nothing _ written)
    · have others (n : Nat) (other : Bool) :
          SetAt c p (actions ++ [action]) n other ↔ SetAt c p actions n other := by
        rw [setAt_concat]
        split
        · rename_i final
          refine iff_of_false (never other) fun set => ?_
          exact absurd set.lt (by omega)
        · exact Iff.rfl
      rw [same, ih]
      simp only [LastSetAt, others]

theorem sound_withMarks {c : Cache} (sound : c.assignment.Sound) (marks : Marks) :
    (c.withMarks marks).assignment.Sound := sound.congr rfl rfl rfl

theorem agree_withMarks {c : Cache} (agree : c.assignment.AlarmsAgree) (marks : Marks) :
    (c.withMarks marks).assignment.AlarmsAgree := agree.vacating (.aside .refl rfl)

/-- The mark of a partition is at every moment what was last written, by the cache or by someone who knows the
partition. The cache writes only when a checkout ends, to the partition known under the key: what a return
says, no when the checkout has run out, and in a removal that it is finished with unless that is rolled
back. Otherwise checkouts end without a mark, other partitions with the same key keep theirs, and what has
run out is not handed out as finished with. -/
theorem mark_is_last_written (config : Config) (clock : Clock) (timeKept : Bool) (initial : Marks)
    (actions : List Action) :
    let start := (new config clock timeKept).withMarks initial
    let c := start.run actions
    (∀ p consumed, c.assignment.marks p = consumed ↔ (∃ n, LastSetAt start p actions n consumed) ∨
      (∀ n other, ¬ SetAt start p actions n other) ∧ initial p = consumed) ∧
    (∀ action p, (∃ consumed, Sets c p action consumed ∧ (c.step action).1.assignment.marks p = consumed) ∨
      (∀ consumed, ¬ Sets c p action consumed) ∧
        (c.step action).1.assignment.marks p = c.assignment.marks p) ∧
    (∀ action p consumed, Writes c p action consumed → c.assignment.registry.find? p.key = some p ∧
      ∃ token, c.assignment.pool.token? p.key = some token ∧ EndedBy c ⟨p.key, token⟩ action ∧
        (c.step action).1.assignment.pool.token? p.key = none) ∧
    (∀ action, Spares c action → (c.step action).1.assignment.marks = c.assignment.marks) ∧
    (∀ action p, c.assignment.registry.find? p.key ≠ some p → (∀ consumed, action ≠ .mark p consumed) →
      (c.step action).1.assignment.marks p = c.assignment.marks p) ∧
    ∀ n p consumed action, LastSetAt start p actions n consumed → actions[n]? = some action → Expires action →
      ∀ handing lease, c.handsOut? handing = some lease →
        (c.step handing).1.assignment.marks p = false := by
  intro start c
  have soundStart : start.assignment.Sound := sound_withMarks (sound_new config clock timeKept) initial
  have agreeStart : start.assignment.AlarmsAgree := agree_withMarks (agree_new config clock timeKept) initial
  have sound : c.assignment.Sound := sound_run soundStart actions
  have agree : c.assignment.AlarmsAgree := agree_run soundStart agreeStart actions
  refine ⟨marks_run_iff soundStart agreeStart actions, marks_step sound agree,
    fun action p consumed writes => writes.ends sound agree, fun action spares => funext fun p => ?_, ?_, ?_⟩
  · exact marks_step_of_not_sets sound agree (spares.not_sets p)
  · intro action p unknown other
    refine marks_step_of_not_sets sound agree ?_
    rintro consumed (writes | same)
    · exact unknown (writes.ends sound agree).1
    · exact other consumed same
  · intro n p consumed action last found expires handing lease handed
    have after : consumed = false := by
      obtain ⟨⟨_, foundToo, sets⟩, -⟩ := last
      obtain rfl := Option.some.inj (found.symm.trans foundToo)
      rcases sets with writes | rfl
      · cases writes with
        | returned | withdrawn => exact expires.elim
        | swept | expired | ranOut => rfl
      · exact expires.elim
    have spares : Spares c handing := by
      cases handing with
      | take => exact .handed
      | markUsed key => exact .marked key
      | _ => simp [handsOut?] at handed
    rw [marks_step_of_not_sets sound agree (spares.not_sets p), ← after]
    exact (marks_run_iff soundStart agreeStart actions p consumed).mpr (Or.inl ⟨n, last⟩)

end Cache

end PartitionLease

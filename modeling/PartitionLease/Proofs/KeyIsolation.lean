import Mathlib.Data.Set.Insert
import PartitionLease.Proofs.LineOrder
import PartitionLease.Proofs.Narrowing

namespace PartitionLease

namespace Cache

variable {keys : Set String} [DecidablePred (· ∈ keys)] {made : List Lease} {order : List String}
variable {c d : Cache} {action : Action}

theorem Sets.eq_addressee {p : Partition} {consumed : Bool} (sets : Sets c p action consumed) {key : String}
    (addressed : addressee? action = some key) : key = p.key := by
  cases action <;> simp_all [Sets, writes_iff, addressee?]

namespace Mirrors

theorem surroundings_mirrored (mirrors : Mirrors keys made c d) :
    (d.step (mirrored keys made order action)).1.surroundings = (c.step action).1.surroundings := by
  rw [surroundings_step, surroundings_step, after_mirrored, mirrors.surroundings]

/-- The next checkout of one of `keys` is made in both. -/
theorem handsOut?_mirrored_iff (mirrors : Mirrors keys made c d) (regular : c.Regular) (regularToo : d.Regular)
    (noTake : action ≠ .take) {key : String} (own : key ∈ keys) :
    d.handsOut? (mirrored keys made order action) = some ⟨key, d.assignment.pool.issued + 1⟩ ↔
      c.handsOut? action = some ⟨key, c.assignment.pool.issued + 1⟩ := by
  rw [← Option.mem_toList, mirrors.handsOut?_mirrored regular regularToo noTake, List.mem_map]
  simp only [List.mem_filter, Option.mem_toList, decide_eq_true_eq, Lease.mk.injEq, and_true]
  constructor
  · rintro ⟨lease, ⟨handed, -⟩, rfl⟩
    rw [← (step_of_handsOut? regular.sound handed).1]
    exact handed
  · intro handed
    exact ⟨_, ⟨handed, own⟩, rfl⟩

theorem dues_mirrored (mirrors : Mirrors keys made c d) (regular : c.Regular) (regularToo : d.Regular)
    (recorded : c.Recorded made) (noTake : action ≠ .take) :
    (d.step (mirrored keys made order action)).1.dues = (c.step action).1.dues.filter (·.1 ∈ keys) := by
  have next : d.nextDue? = c.nextDue? := by
    rw [nextDue?, nextDue?, mirrors.kept, mirrors.now, show d.config = c.config from
      congrArg Surroundings.config mirrors.surroundings]
  rw [dues_step regularToo.scheduled regularToo.sound regularToo.agree,
    dues_step regular.scheduled regular.sound regular.agree, mirrors.dues, List.filter_append,
    List.filter_filter, List.filter_filter, mirrors.handsOut?_mirrored regular regularToo noTake, next]
  refine congrArg₂ _ (List.filter_congr fun entry _ => ?_) ?_
  · by_cases own : entry.1 ∈ keys
    · simp only [mirrors.mem_pulled_mirrored_iff regular regularToo noTake own,
        mirrors.mem_queued_mirrored_iff regular regularToo recorded own, own, decide_true, Bool.and_true,
        Bool.true_and]
    · simp [own]
  · cases c.handsOut? action with
    | none => rfl
    | some lease => by_cases own : lease.key ∈ keys <;> cases c.nextDue? <;> simp [own]

theorem booked_mirrored (mirrors : Mirrors keys made c d) {key : String} (own : key ∈ keys) :
    (d.step (mirrored keys made order action)).1.ledger.booked[key]? =
      (c.step action).1.ledger.booked[key]? := by
  rw [booked_step, booked_step, presented_mirrored, mirrors.booked key own]
  simp [own]

theorem add_of_mirrored {p : Partition} (same : mirrored keys made order action = .add p) : action = .add p := by
  cases action with
  | add q =>
    simp only [mirrored, left?] at same
    split at same
    · exact same
    · cases same
  | mark _ _ | markUsed _ | release _ _ | reclaim _ _ | present _ | expire _ =>
    simp only [mirrored, left?] at same
    split at same <;> cases same
  | _ => cases same

theorem subscription?_mirrored (mirrors : Mirrors keys made c d) (regular : c.Regular) (regularToo : d.Regular)
    {key : String} (own : key ∈ keys) :
    (d.step (mirrored keys made order action)).1.assignment.registry.subscription? key =
      (c.step action).1.assignment.registry.subscription? key := by
  have session : d.session = c.session := congrArg Surroundings.session mirrors.surroundings
  rw [subscription?_step regularToo.sound regularToo.agree, subscription?_step regular.sound regular.agree]
  by_cases other : ∀ p, action = .add p → p.key ≠ key
  · rw [Books.entry_after _ other, Books.entry_after _ fun p same => other p (add_of_mirrored same),
      forgotten_mirrored]
    simp [own, mirrors.subscription key own]
  · simp only [not_forall, ne_eq, not_not] at other
    obtain ⟨p, rfl, rfl⟩ := other
    rw [mirrored_of_mem (.add p) rfl own (by simp), Books.entry_after_add, Books.entry_after_add, session]
    simp only [mirrors.subscription p.key own]

/-- The mark of a partition of `keys` is written in both, or in neither. -/
theorem sets_mirrored_iff (mirrors : Mirrors keys made c d) (regular : c.Regular) (regularToo : d.Regular)
    (recorded : c.Recorded made) {p : Partition} (own : p.key ∈ keys) (consumed : Bool) :
    Sets d p (mirrored keys made order action) consumed ↔ Sets c p action consumed := by
  have known := mirrors.find? regular regularToo own
  have out := mirrors.isUsed own
  by_cases foreign : ∃ key, addressee? action = some key ∧ key ∉ keys
  -- Nothing is done instead of what is addressed to another key, and that writes no mark of ours.
  · obtain ⟨key, addressed, other⟩ := foreign
    rw [mirrored_of_not_mem action addressed other]
    refine iff_of_false ?_ fun sets => other (sets.eq_addressee addressed ▸ own)
    simp [Sets, writes_iff, idling]
  · simp only [not_exists, not_and, not_not] at foreign
    cases action with
    | withdraw subscriptions rollback removed =>
      have left : forgotten (mirrored keys made order (.withdraw subscriptions rollback removed)) = _ :=
        forgotten_mirrored
      simp only [mirrored, left?, Option.getD_some, forgotten] at left
      simp only [Sets, writes_iff, mirrored, left?, Option.getD_some, known, out, left, List.mem_filter, own,
        decide_true, and_true, reduceCtorEq]
    | sweep maxAge arrival =>
      have clock : d.clock = c.clock := congrArg Surroundings.clock mirrors.surroundings
      simp [Sets, writes_iff, mirrored, left?, known, Pool.mem_expired_iff, mirrors.since p.key own, clock]
    | pass millis =>
      simp [Sets, writes_iff, mirrored, left?, addressee?, known, mirrors.alarmsWithin_keys regular, own]
    | expire lease =>
      have live := mirrors.token?_eq_renumbered_iff recorded (foreign lease.key rfl)
      rw [mirrored_expire (foreign lease.key rfl)]
      rw [renumbered_key] at live
      simp only [Sets, writes_iff, known, renumbered_key, reduceCtorEq, or_false]
      refine and_congr_right fun _ => and_congr_right fun same => ?_
      rw [← same, live]
    | add _ | mark _ _ | markUsed _ | release _ _ | reclaim _ _ | present _ =>
      rw [mirrored_of_mem _ rfl (foreign _ rfl)]
      · simp [Sets, writes_iff, known, out]
      · simp
    | _ => simp [Sets, writes_iff, mirrored, left?, addressee?]

theorem marks_mirrored (mirrors : Mirrors keys made c d) (regular : c.Regular) (regularToo : d.Regular)
    (recorded : c.Recorded made) {p : Partition} (own : p.key ∈ keys) :
    (d.step (mirrored keys made order action)).1.assignment.marks p = (c.step action).1.assignment.marks p := by
  have same (consumed : Bool) :
      Sets d p (mirrored keys made order action) consumed ↔ Sets c p action consumed :=
    mirrors.sets_mirrored_iff regular regularToo recorded own consumed
  rcases marks_step regular.sound regular.agree action p with ⟨consumed, sets, after⟩ | ⟨never, after⟩
  · rcases marks_step regularToo.sound regularToo.agree (mirrored keys made order action) p with
      ⟨other, setsToo, afterToo⟩ | ⟨neverToo, -⟩
    · rw [after, afterToo, ((same other).mp setsToo).unique sets]
    · exact absurd ((same consumed).mpr sets) (neverToo consumed)
  · have neverToo := fun consumed sets => never consumed ((same consumed).mp sets)
    rw [after, marks_step_of_not_sets regularToo.sound regularToo.agree neverToo, mirrors.marks p own]

theorem mem_idle_mirrored_iff (mirrors : Mirrors keys made c d) (regular : c.Regular) (regularToo : d.Regular)
    (recorded : c.Recorded made) (noTake : action ≠ .take) {key : String} (own : key ∈ keys) :
    key ∈ (d.step (mirrored keys made order action)).1.assignment.pool.idle ↔
      key ∈ (c.step action).1.assignment.pool.idle := by
  rw [idle_step regularToo.sound regularToo.agree, idle_step regular.sound regular.agree]
  simp only [List.mem_append, List.mem_filter, decide_eq_true_eq, mirrors.idle key own,
    mirrors.mem_pulled_mirrored_iff regular regularToo noTake own,
    mirrors.mem_queued_mirrored_iff regular regularToo recorded own]

/-- What is done to the checkout of one of `keys` is the same in both, but for its number. -/
theorem step (mirrors : Mirrors keys made c d) (regular : c.Regular) (regularToo : d.Regular)
    (recorded : c.Recorded made) (noTake : action ≠ .take) (order : List String) :
    Mirrors keys (made ++ (c.handsOut? action).toList) (c.step action).1
      (d.step (mirrored keys made order action)).1 where
  surroundings := mirrors.surroundings_mirrored
  kept := by
    rw [kept_step regularToo.sound regularToo.agree, kept_step regular.sound regular.agree, mirrors.kept]
  now := by
    rw [now_step regularToo.sound regularToo.agree, now_step regular.sound regular.agree, elapsed_mirrored,
      mirrors.now, show d.events = c.events from congrArg Surroundings.events mirrors.surroundings]
  issued := by
    rw [issued_step regularToo.sound, mirrors.handsOut?_mirrored regular regularToo noTake, List.filter_append,
      List.length_append, List.length_map, mirrors.issued]
  dues := mirrors.dues_mirrored regular regularToo recorded noTake
  booked _ own := mirrors.booked_mirrored own
  subscription _ own := mirrors.subscription?_mirrored regular regularToo own
  marks _ own := mirrors.marks_mirrored regular regularToo recorded own
  since := by
    intro key own
    have clock : d.clock = c.clock := congrArg Surroundings.clock mirrors.surroundings
    rw [Pool.since?, Pool.since?, getElem?_used_step regularToo.sound regularToo.agree,
      getElem?_used_step regular.sound regular.agree]
    simp only [mirrors.handsOut?_mirrored_iff regular regularToo noTake own,
      mirrors.mem_pulled_mirrored_iff regular regularToo noTake own,
      mirrors.mem_queued_mirrored_iff regular regularToo recorded own]
    split
    · rw [clock]
      rfl
    · split
      · rfl
      · exact mirrors.since key own
  token := by
    intro key own
    rw [Pool.token?, Pool.token?, getElem?_used_step regularToo.sound regularToo.agree,
      getElem?_used_step regular.sound regular.agree]
    simp only [mirrors.handsOut?_mirrored_iff regular regularToo noTake own,
      mirrors.mem_pulled_mirrored_iff regular regularToo noTake own,
      mirrors.mem_queued_mirrored_iff regular regularToo recorded own]
    split
    · rename_i handed
      have new : (⟨key, c.assignment.pool.issued + 1⟩ : Lease) ∉ made := fun old =>
        absurd (recorded.past _ old) (Nat.not_succ_le_self _)
      simp only [Option.map_some, handed, Option.toList_some, renumbered_concat new own, mirrors.issued]
    · split
      · rfl
      · refine (mirrors.token key own).trans (Option.map_congr fun token held => ?_)
        rw [renumbered_append (recorded.live key token held) own]
  idle _ own := mirrors.mem_idle_mirrored_iff regular regularToo recorded noTake own

/-- An action addressed to one of `keys` is answered in both alike. -/
theorem reply_mirrored (mirrors : Mirrors keys made c d) (regular : c.Regular) (regularToo : d.Regular)
    {key : String} (addressed : addressee? action = some key) (own : key ∈ keys) :
    (d.step (mirrored keys made order action)).2 = (c.step action).2 := by
  by_cases alarm : ∃ lease, action = .expire lease
  · obtain ⟨lease, rfl⟩ := alarm
    obtain rfl := Option.some.inj addressed
    rw [mirrored_expire own]
    rfl
  · simp only [not_exists] at alarm
    rw [mirrored_of_mem action addressed own alarm]
    cases action with
    | expire lease => exact absurd rfl (alarm lease)
    | add p =>
      obtain rfl := Option.some.inj addressed
      rw [reply_add, reply_add, mirrors.contains regular regularToo own]
    | markUsed k =>
      obtain rfl := Option.some.inj addressed
      rw [reply_markUsed, reply_markUsed, mirrors.contains regular regularToo own, mirrors.isUsed own]
    | release k consumed =>
      obtain rfl := Option.some.inj addressed
      rw [reply_release, reply_release, mirrors.isUsed own]
    | reclaim k requeue =>
      obtain rfl := Option.some.inj addressed
      rw [reply_reclaim, reply_reclaim, mirrors.isUsed own]
    | present k =>
      obtain rfl := Option.some.inj addressed
      rw [reply_present, reply_present, mirrors.booked k own]
    | mark p consumed => rfl
    | _ => cases addressed

theorem answers_left? (mirrors : Mirrors keys made c d) (regular : c.Regular) (regularToo : d.Regular) :
    answers keys d (left? keys made order action).toList = answers keys c [action] := by
  cases addressed : addressee? action with
  | none =>
    have left : left? keys made order action = some (mirrored keys made order action) ∧
        addressee? (mirrored keys made order action) = none := by
      cases action <;> simp_all [left?, mirrored, addressee?]
    simp [left.1, left.2, addressed, answers]
  | some key =>
    by_cases own : key ∈ keys
    · have left : left? keys made order action = some (mirrored keys made order action) ∧
          addressee? (mirrored keys made order action) = some key := by
        cases action <;> simp_all [left?, mirrored, addressee?, renumbered]
      simp [left.1, left.2, addressed, answers, own, mirrors.reply_mirrored regular regularToo addressed own]
    · have gone : left? keys made order action = none := by
        cases action <;> simp_all [left?, addressee?]
      simp [gone, answers, addressed, own]

end Mirrors

theorem handOuts_left? (d : Cache) (made : List Lease) (order : List String) (action : Action) :
    d.handOuts (left? keys made order action).toList =
      (d.handsOut? (mirrored keys made order action)).toList := by
  rw [mirrored]
  cases left? keys made order action with
  | none => rfl
  | some left => simp [handOuts]

/-- One sweep was the last action that queued two keys. -/
def SweptTogether (c : Cache) (first second : String) (actions : List Action) : Prop :=
  ∃ n maxAge order, actions[n]? = some (.sweep maxAge order) ∧
    LastQueuedAt c first actions n ∧ LastQueuedAt c second actions n

theorem sweptTogether_concat_of_sweep {first second : String} {actions : List Action} {maxAge : Duration}
    {order : List String} (queueFirst : first ∈ (c.run actions).queued (.sweep maxAge order))
    (queueSecond : second ∈ (c.run actions).queued (.sweep maxAge order)) :
    SweptTogether c first second (actions ++ [.sweep maxAge order]) := by
  refine ⟨actions.length, maxAge, order, by simp, ?_, ?_⟩
  · rw [lastQueuedAt_concat, if_pos queueFirst]
  · rw [lastQueuedAt_concat, if_pos queueSecond]

theorem SweptTogether.concat {first second : String} {actions : List Action}
    (together : SweptTogether c first second actions) (notFirst : first ∉ (c.run actions).queued action)
    (notSecond : second ∉ (c.run actions).queued action) :
    SweptTogether c first second (actions ++ [action]) := by
  obtain ⟨n, maxAge, order, found, lastFirst, lastSecond⟩ := together
  refine ⟨n, maxAge, order, ?_, ?_, ?_⟩
  · rw [List.getElem?_append_left lastFirst.lt, found]
  · rwa [lastQueuedAt_concat, if_neg notFirst]
  · rwa [lastQueuedAt_concat, if_neg notSecond]

/-- Two keys that were in the same order remain so, unless a sweep queues both. -/
theorem Mirrors.pair_mirrored_iff (mirrors : Mirrors keys made c d) (regular : c.Regular)
    (regularToo : d.Regular) (recorded : c.Recorded made) (noTake : action ≠ .take) {first second : String}
    (ownFirst : first ∈ keys) (ownSecond : second ∈ keys)
    (before : first ∉ c.queued action → second ∉ c.queued action →
      ([first, second].Sublist d.assignment.pool.idle ↔ [first, second].Sublist c.assignment.pool.idle))
    (apart : first ∈ c.queued action → second ∈ c.queued action →
      ∀ maxAge arrival, action ≠ .sweep maxAge arrival) :
    [first, second].Sublist (d.step (mirrored keys made order action)).1.assignment.pool.idle ↔
      [first, second].Sublist (c.step action).1.assignment.pool.idle := by
  have pull {key : String} (own : key ∈ keys) :
      key ∈ d.pulled (mirrored keys made order action) ↔ key ∈ c.pulled action :=
    mirrors.mem_pulled_mirrored_iff regular regularToo noTake own
  have queue {key : String} (own : key ∈ keys) :
      key ∈ d.queued (mirrored keys made order action) ↔ key ∈ c.queued action :=
    mirrors.mem_queued_mirrored_iff regular regularToo recorded own
  have waits {line tail : List String} (once : (line ++ tail).Nodup) (hit : first ∈ tail ∨ second ∈ tail) :
      ¬ [first, second].Sublist line := by
    intro inLine
    have disjoint := (List.nodup_append.mp once).2.2
    rcases hit with member | member
    · exact disjoint first (inLine.subset (by simp)) first member rfl
    · exact disjoint second (inLine.subset (by simp)) second member rfl
  rw [idle_step regularToo.sound regularToo.agree, idle_step regular.sound regular.agree, pair_sublist_append,
    pair_sublist_append]
  -- The order is one among those that stay, among those queued now, or of one that stays before one queued now.
  refine or_congr ?_ (or_congr ?_ ?_)
  · by_cases fresh : first ∈ c.queued action ∨ second ∈ c.queued action
    · refine iff_of_false (waits (nodup_idle_step regularToo.sound regularToo.agree _) ?_)
        (waits (nodup_idle_step regular.sound regular.agree _) fresh)
      rwa [queue ownFirst, queue ownSecond]
    · rw [not_or] at fresh
      rw [pair_sublist_filter, pair_sublist_filter, before fresh.1 fresh.2]
      simp only [decide_eq_true_eq, pull ownFirst, pull ownSecond]
  · simp only [List.mem_filter, decide_eq_true_eq, mirrors.idle first ownFirst, pull ownFirst, queue ownSecond]
  · by_cases single : ∀ maxAge arrival, action ≠ .sweep maxAge arrival
    · rw [mirrors.queued_mirrored regular regularToo recorded single, pair_sublist_filter]
      simp [ownFirst, ownSecond]
    · refine iff_of_false (fun order => single ?_) fun order => single ?_
      · exact apart ((queue ownFirst).mp (order.subset (by simp)))
          ((queue ownSecond).mp (order.subset (by simp)))
      · exact apart (order.subset (by simp)) (order.subset (by simp))

section Runs

variable (config : Config) (clock : Clock) (timeKept : Bool) (orders : Nat → List String)
variable {actions : List Action}

variable (keys) in
theorem mirrors_new : Mirrors keys [] (new config clock timeKept) (new config clock timeKept) where
  surroundings := rfl
  kept := rfl
  now := rfl
  issued := rfl
  dues := rfl
  booked _ _ := rfl
  subscription _ _ := rfl
  marks _ _ := rfl
  since _ _ := rfl
  token key _ := by simp [new, Pool.token?]
  idle _ _ := Iff.rfl

variable (keys) in
theorem mirrors_run (noTake : .take ∉ actions) :
    let start := new config clock timeKept
    Mirrors keys (start.handOuts actions) (start.run actions)
      (start.run (narrowed keys orders start [] actions)) := by
  intro start
  induction actions using List.reverseRecOn with
  | nil => exact mirrors_new keys config clock timeKept
  | append_singleton actions action ih =>
    rw [List.mem_append, List.mem_singleton, not_or] at noTake
    rw [narrowed_concat, run_append, run_append, handOuts_concat, List.nil_append, run_left?]
    exact (ih noTake.1).step (regular_run config clock timeKept _) (regular_run config clock timeKept _)
      (recorded_run config clock timeKept actions) (Ne.symm noTake.2) _

variable (keys) in
/-- Made are the same checkouts of `keys`, numbered as if there were no others. -/
theorem handOuts_narrowed (noTake : .take ∉ actions) :
    let start := new config clock timeKept
    start.handOuts (narrowed keys orders start [] actions) =
      ((start.handOuts actions).filter (·.key ∈ keys)).map (renumbered keys (start.handOuts actions)) := by
  intro start
  induction actions using List.reverseRecOn with
  | nil => rfl
  | append_singleton actions action ih =>
    rw [List.mem_append, List.mem_singleton, not_or] at noTake
    have mirrors : Mirrors keys (start.handOuts actions) (start.run actions) _ :=
      mirrors_run keys config clock timeKept orders noTake.1
    have regular : (start.run actions).Regular := regular_run config clock timeKept actions
    have regularToo := regular_run config clock timeKept (narrowed keys orders start [] actions)
    have recorded : (start.run actions).Recorded (start.handOuts actions) :=
      recorded_run config clock timeKept actions
    rw [narrowed_concat, handOuts_append, List.nil_append, handOuts_left?, ih noTake.1, handOuts_concat,
      mirrors.handsOut?_mirrored regular regularToo (Ne.symm noTake.2), List.filter_append, List.map_append]
    refine congrArg₂ _ (List.map_congr_left fun lease old => ?_) (List.map_congr_left fun lease made => ?_)
    · obtain ⟨member, own⟩ := List.mem_filter.mp old
      exact (renumbered_append member (by simpa using own) _).symm
    · obtain ⟨handed, own⟩ := List.mem_filter.mp made
      rw [Option.mem_toList] at handed
      have number := (step_of_handsOut? regular.sound handed).1
      have new : lease ∉ start.handOuts actions := fun old => absurd (recorded.past lease old) (by omega)
      rw [handed, Option.toList_some, renumbered_concat new (by simpa using own), mirrors.issued]

variable (keys) in
theorem answers_narrowed (noTake : .take ∉ actions) :
    let start := new config clock timeKept
    answers keys start (narrowed keys orders start [] actions) = answers keys start actions := by
  intro start
  induction actions using List.reverseRecOn with
  | nil => rfl
  | append_singleton actions action ih =>
    rw [List.mem_append, List.mem_singleton, not_or] at noTake
    have mirrors : Mirrors keys (start.handOuts actions) (start.run actions) _ :=
      mirrors_run keys config clock timeKept orders noTake.1
    rw [narrowed_concat, answers_append, answers_append, ih noTake.1, List.nil_append,
      mirrors.answers_left? (regular_run config clock timeKept _) (regular_run config clock timeKept _)]

theorem pair_narrowed_iff (noTake : .take ∉ actions) {first second : String} (ownFirst : first ∈ keys)
    (ownSecond : second ∈ keys) :
    let start := new config clock timeKept
    ¬ SweptTogether start first second actions →
      ([first, second].Sublist (start.run (narrowed keys orders start [] actions)).assignment.pool.idle ↔
        [first, second].Sublist (start.run actions).assignment.pool.idle) := by
  intro start
  induction actions using List.reverseRecOn with
  | nil => exact fun _ => Iff.rfl
  | append_singleton actions action ih =>
    intro apart
    rw [List.mem_append, List.mem_singleton, not_or] at noTake
    have mirrors : Mirrors keys (start.handOuts actions) (start.run actions) _ :=
      mirrors_run keys config clock timeKept orders noTake.1
    rw [narrowed_concat, run_append, run_append, List.nil_append, run_left?]
    refine mirrors.pair_mirrored_iff (regular_run config clock timeKept _) (regular_run config clock timeKept _)
      (recorded_run config clock timeKept actions) (Ne.symm noTake.2) ownFirst ownSecond ?_ ?_
    · exact fun notFirst notSecond => ih noTake.1 fun together => apart (together.concat notFirst notSecond)
    · rintro queueFirst queueSecond maxAge arrival rfl
      exact apart (sweptTogether_concat_of_sweep queueFirst queueSecond)

end Runs

/-- Keys do not interfere. Where nothing asks for the first in line, a run from which all is left out that is
done to other keys than `keys` leads to a cache that agrees with the one of the whole run on `keys`: the same
partitions and subscriptions are known, the same are checked out, since the same time and with the same alarms,
the marks are the same, and the same are in line, in the same order except among those that one sweep queued.
On the way there what is addressed to one of `keys` is answered alike. The checkouts are the same too, but for
their numbers: these tell how many checkouts there were before, also of other keys. -/
theorem keys_do_not_interfere (config : Config) (clock : Clock) (timeKept : Bool) (keys : Set String)
    [DecidablePred (· ∈ keys)] (orders : Nat → List String) (actions : List Action) (noTake : .take ∉ actions) :
    let start := new config clock timeKept
    let left := narrowed keys orders start [] actions
    let c := start.run actions
    let d := start.run left
    let made := start.handOuts actions
    (∀ key ∈ keys, d.assignment.registry.find? key = c.assignment.registry.find? key ∧
      d.assignment.registry.subscription? key = c.assignment.registry.subscription? key) ∧
    (∀ key ∈ keys, d.assignment.pool.since? key = c.assignment.pool.since? key) ∧
    (∀ p : Partition, p.key ∈ keys → d.assignment.marks p = c.assignment.marks p) ∧
    (∀ key ∈ keys, key ∈ d.assignment.pool.idle ↔ key ∈ c.assignment.pool.idle) ∧
    (∀ first ∈ keys, ∀ second ∈ keys, ¬ SweptTogether start first second actions →
      ([first, second].Sublist d.assignment.pool.idle ↔ [first, second].Sublist c.assignment.pool.idle)) ∧
    answers keys start left = answers keys start actions ∧
    start.handOuts left = (made.filter (·.key ∈ keys)).map (renumbered keys made) ∧
    (∀ lease : Lease, lease.key ∈ keys →
      (d.assignment.pool.token? lease.key = some (renumbered keys made lease).token ↔
        c.assignment.pool.token? lease.key = some lease.token)) ∧
    d.dues = c.dues.filter (·.1 ∈ keys) ∧ d.surroundings = c.surroundings := by
  intro start left c d made
  have mirrors : Mirrors keys made c d := mirrors_run keys config clock timeKept orders noTake
  have regular : c.Regular := regular_run config clock timeKept actions
  have regularToo : d.Regular := regular_run config clock timeKept left
  have recorded : c.Recorded made := recorded_run config clock timeKept actions
  exact ⟨fun key own => ⟨mirrors.find? regular regularToo own, mirrors.subscription key own⟩, mirrors.since,
    mirrors.marks, mirrors.idle,
    fun _ ownFirst _ ownSecond => pair_narrowed_iff config clock timeKept orders noTake ownFirst ownSecond,
    answers_narrowed keys config clock timeKept orders noTake,
    handOuts_narrowed keys config clock timeKept orders noTake,
    fun lease own => mirrors.token?_eq_renumbered_iff recorded own, mirrors.dues, mirrors.surroundings⟩

/-- Two partitions of one topic are handed out, and then the lease of the second runs out. -/
def expiringSecond : List Action :=
  let neighbour : Partition := { sharedPartition with id := 1 }
  [.add neighbour, .add sharedPartition, .markUsed neighbour.key, .markUsed sharedPartition.key,
    .expire ⟨sharedPartition.key, 2⟩]

/-- The second checkout of the run is the first one where there are no others, and is ended by its alarm all the
same. -/
theorem second_checkout_ends_when_alone :
    let start := new Config.default ⟨0⟩ true
    let left := narrowed {sharedPartition.key} (fun _ => []) start [] expiringSecond
    .take ∉ expiringSecond ∧ ⟨sharedPartition.key, 2⟩ ∈ start.handOuts expiringSecond ∧
      start.handOuts left = [⟨sharedPartition.key, 1⟩] ∧
      (start.run left).assignment.pool.since? sharedPartition.key = none ∧
      sharedPartition.key ∈ (start.run left).assignment.pool.idle := by
  have noTake : .take ∉ expiringSecond := by simp [expiringSecond]
  obtain ⟨-, since, -, idle, -, -, handed, -⟩ := keys_do_not_interfere Config.default ⟨0⟩ true
    {sharedPartition.key} (fun _ => []) expiringSecond noTake
  refine ⟨noTake, ?_, ?_, ?_, ?_⟩
  · decide
  · refine handed.trans ?_
    decide
  · refine (since sharedPartition.key (Set.mem_singleton sharedPartition.key)).trans ?_
    decide
  · refine (idle sharedPartition.key (Set.mem_singleton sharedPartition.key)).mpr ?_
    decide

end Cache

end PartitionLease

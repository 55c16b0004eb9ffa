import Mathlib.Data.Set.Defs
import PartitionLease.Proofs.KeyEffects
import PartitionLease.Proofs.MarkHistory
import PartitionLease.Proofs.Parking
import PartitionLease.Proofs.RegistryContents

namespace PartitionLease

/-- In a sorted line those up to a limit stand in front. -/
theorem takeWhile_eq_filter_of_sorted {α : Type} {f : α → Nat} {line : List α}
    (sorted : line.Pairwise (f · ≤ f ·)) (limit : Nat) :
    line.takeWhile (f · ≤ limit) = line.filter (f · ≤ limit) := by
  induction line with
  | nil => rfl
  | cons x rest ih =>
    rw [List.pairwise_cons] at sorted
    by_cases early : f x ≤ limit
    · rw [List.takeWhile_cons_of_pos (by simpa using early), List.filter_cons_of_pos (by simpa using early),
        ih sorted.2]
    · rw [List.takeWhile_cons_of_neg (by simpa using early), List.filter_cons_of_neg (by simpa using early)]
      refine (List.filter_eq_nil_iff.mpr fun y member => ?_).symm
      have := sorted.1 y member
      simp only [decide_eq_true_eq]
      omega

namespace Cache

section Narrowing

variable (keys : Set String) [DecidablePred (· ∈ keys)]

/-- The key that an action is addressed to, if it is to one. -/
def addressee? : Action → Option String
  | .add p | .mark p _ => some p.key
  | .markUsed key | .release key _ | .reclaim key _ | .present key => some key
  | .expire lease => some lease.key
  | _ => none

/-- A checkout as it is numbered where only those of `keys` are made. -/
def renumbered (made : List Lease) (lease : Lease) : Lease :=
  ⟨lease.key, (made.filter (·.key ∈ keys)).idxOf lease + 1⟩

/-- What is left of an action when nothing is done to other keys than `keys`. The alarm of a checkout goes off
for that checkout, whatever its number, and a sweep may come upon the keys in another order. -/
def left? (made : List Lease) (order : List String) : Action → Option Action
  | .withdraw subscriptions rollback removed =>
    some (.withdraw (subscriptions.filter (·.key ∈ keys)) rollback removed)
  | .drop names => some (.drop (names.filter (· ∈ keys)))
  | .sweep maxAge _ => some (.sweep maxAge order)
  | .expire lease => if lease.key ∈ keys then some (.expire (renumbered keys made lease)) else none
  | action => if (addressee? action).all (· ∈ keys) then some action else none

/-- What is left of the further actions of a run, of which `past` is over. The sweep that is step number `n` of
the run comes upon the keys in the order `orders n`. -/
def narrowed (orders : Nat → List String) (c : Cache) (past : List Action) : List Action → List Action
  | [] => []
  | action :: rest => (left? keys (c.handOuts past) (orders past.length) action).toList ++
      narrowed orders c (past ++ [action]) rest

/-- How the actions addressed to one of `keys` are answered in a run. -/
def answers (c : Cache) : List Action → List Reply
  | [] => []
  | action :: rest => (if (addressee? action).any (· ∈ keys) then [(c.step action).2] else []) ++
      answers (c.step action).1 rest

/-- An action that does nothing. -/
def idling : Action := .withdraw [] false ∅

/-- What is done instead of an action when nothing is done to other keys than `keys`. -/
def mirrored (made : List Lease) (order : List String) (action : Action) : Action :=
  (left? keys made order action).getD idling

/-- The state `d` agrees with `c` on `keys`, where `made` are the checkouts made on the way to `c` and only those
of `keys` were made on the way to `d`. -/
structure Mirrors (made : List Lease) (c d : Cache) : Prop where
  surroundings : d.surroundings = c.surroundings
  kept : d.assignment.pool.timers.kept = c.assignment.pool.timers.kept
  now : d.assignment.pool.timers.now = c.assignment.pool.timers.now
  issued : d.assignment.pool.issued = (made.filter (·.key ∈ keys)).length
  dues : d.dues = c.dues.filter (·.1 ∈ keys)
  booked : ∀ key ∈ keys, d.ledger.booked[key]? = c.ledger.booked[key]?
  subscription : ∀ key ∈ keys,
    d.assignment.registry.subscription? key = c.assignment.registry.subscription? key
  marks : ∀ p : Partition, p.key ∈ keys → d.assignment.marks p = c.assignment.marks p
  since : ∀ key ∈ keys, d.assignment.pool.since? key = c.assignment.pool.since? key
  token : ∀ key ∈ keys, d.assignment.pool.token? key =
    (c.assignment.pool.token? key).map fun token => (renumbered keys made ⟨key, token⟩).token
  idle : ∀ key ∈ keys, key ∈ d.assignment.pool.idle ↔ key ∈ c.assignment.pool.idle

end Narrowing

variable {keys : Set String} [DecidablePred (· ∈ keys)] {made : List Lease} {order : List String}
variable {c d : Cache} {action : Action}

theorem renumbered_key (lease : Lease) : (renumbered keys made lease).key = lease.key := rfl

theorem renumbered_append {lease : Lease} (member : lease ∈ made) (own : lease.key ∈ keys)
    (more : List Lease) : renumbered keys (made ++ more) lease = renumbered keys made lease := by
  have listed : lease ∈ made.filter (·.key ∈ keys) := List.mem_filter.mpr ⟨member, by simpa using own⟩
  rw [renumbered, renumbered, List.filter_append, List.idxOf_append_of_mem listed]

theorem renumbered_concat {lease : Lease} (new : lease ∉ made) (own : lease.key ∈ keys) :
    renumbered keys (made ++ [lease]) lease = ⟨lease.key, (made.filter (·.key ∈ keys)).length + 1⟩ := by
  have unlisted : lease ∉ made.filter (·.key ∈ keys) := fun listed => new (List.mem_filter.mp listed).1
  rw [renumbered, List.filter_append, List.idxOf_append_of_notMem unlisted,
    List.filter_cons_of_pos (by simpa using own)]
  simp

theorem narrowed_concat (orders : Nat → List String) (c : Cache) (past actions : List Action) (action : Action) :
    narrowed keys orders c past (actions ++ [action]) = narrowed keys orders c past actions ++
      (left? keys (c.handOuts (past ++ actions)) (orders (past ++ actions).length) action).toList := by
  induction actions generalizing past with
  | nil => simp [narrowed]
  | cons first rest ih =>
    rw [List.cons_append, narrowed, narrowed, ih, List.append_assoc, List.append_assoc, List.singleton_append]

theorem answers_append (c : Cache) (first later : List Action) :
    answers keys c (first ++ later) = answers keys c first ++ answers keys (c.run first) later := by
  induction first generalizing c with
  | nil => rfl
  | cons action rest ih => rw [List.cons_append, answers, answers, ih, List.append_assoc, run_cons]

/-- What is left of an action does what is done instead of it. -/
theorem run_left? (d : Cache) (made : List Lease) (order : List String) (action : Action) :
    d.run (left? keys made order action).toList = (d.step (mirrored keys made order action)).1 := by
  rw [mirrored]
  cases left? keys made order action <;> rfl

@[simp] theorem pulled_idling (c : Cache) : c.pulled idling = [] := rfl

@[simp] theorem queued_idling (c : Cache) : c.queued idling = [] := rfl

@[simp] theorem presented_idling : presented idling = [] := rfl

@[simp] theorem handsOut?_idling (c : Cache) : c.handsOut? idling = none := rfl

theorem mirrored_of_mem (action : Action) {key : String} (addressed : addressee? action = some key)
    (own : key ∈ keys) (other : ∀ lease, action ≠ .expire lease) : mirrored keys made order action = action := by
  cases action with
  | expire lease => exact absurd rfl (other lease)
  | add _ | mark _ _ | markUsed _ | release _ _ | reclaim _ _ | present _ => simp_all [mirrored, left?]
  | _ => cases addressed

theorem mirrored_of_not_mem (action : Action) {key : String} (addressed : addressee? action = some key)
    (other : key ∉ keys) : mirrored keys made order action = idling := by
  cases action with
  | add _ | mark _ _ | markUsed _ | release _ _ | reclaim _ _ | present _ | expire _ =>
    simp_all [mirrored, left?, addressee?]
  | _ => cases addressed

theorem mirrored_expire {lease : Lease} (own : lease.key ∈ keys) :
    mirrored keys made order (.expire lease) = .expire (renumbered keys made lease) := by
  simp [mirrored, left?, own]

/-- An action that is addressed to a key touches no other one. -/
theorem eq_addressee {key k : String} (addressed : addressee? action = some key)
    (touched : k ∈ c.pulled action ∨ k ∈ c.queued action) : k = key := by
  cases action with
  | reclaim own requeue =>
    obtain rfl := Option.some.inj addressed
    refine touched.elim List.mem_singleton.mp fun queues => ?_
    cases requeue with
    | false => cases queues
    | true =>
      rw [queued] at queues
      split at queues
      · exact List.mem_singleton.mp queues
      · cases queues
  | add _ | mark _ _ | markUsed _ | release _ _ | present _ | expire _ => simp_all [addressee?, pulled, queued]
  | _ => cases addressed

theorem forgotten_mirrored :
    forgotten (mirrored keys made order action) = (forgotten action).filter (· ∈ keys) := by
  cases action with
  | withdraw subscriptions rollback removed =>
    simp [mirrored, left?, forgotten, List.filter_map, Function.comp_def]
  | add _ | mark _ _ | markUsed _ | release _ _ | reclaim _ _ | present _ | expire _ =>
    simp only [mirrored, left?]
    split <;> rfl
  | _ => rfl

theorem presented_mirrored :
    presented (mirrored keys made order action) = (presented action).filter (· ∈ keys) := by
  cases action with
  | present key =>
    by_cases own : key ∈ keys
    · rw [mirrored_of_mem (.present key) rfl own (by simp)]
      simp [presented, own]
    · rw [mirrored_of_not_mem (.present key) rfl own, presented_idling]
      simp [presented, own]
  | add _ | mark _ _ | markUsed _ | release _ _ | reclaim _ _ | expire _ =>
    simp only [mirrored, left?]
    split <;> rfl
  | _ => rfl

theorem after_mirrored (s : Surroundings) : s.after (mirrored keys made order action) = s.after action := by
  cases action with
  | add _ | mark _ _ | markUsed _ | release _ _ | reclaim _ _ | present _ | expire _ =>
    simp only [mirrored, left?]
    split <;> rfl
  | _ => rfl

theorem elapsed_mirrored (events : EventQueue RebalanceEvent) :
    elapsed events (mirrored keys made order action) = elapsed events action := by
  cases action with
  | add _ | mark _ _ | markUsed _ | release _ _ | reclaim _ _ | present _ | expire _ =>
    simp only [mirrored, left?]
    split <;> rfl
  | _ => rfl

theorem alarmsWithin_keys (c : Cache) (millis : Nat) : (c.alarmsWithin millis).map (·.job.key) =
    if c.events.isGone then []
    else (c.dues.takeWhile (·.2 ≤ c.assignment.pool.timers.now + millis)).map (·.1) := by
  rw [alarmsWithin]
  split
  · rfl
  · rw [dues, List.takeWhile_map, List.map_map]
    rfl

namespace Mirrors

theorem contains (mirrors : Mirrors keys made c d) (regular : c.Regular) (regularToo : d.Regular)
    {key : String} (own : key ∈ keys) :
    d.assignment.registry.contains key = c.assignment.registry.contains key := by
  rw [regularToo.sound.registry.contains_eq, regular.sound.registry.contains_eq, mirrors.subscription key own]

theorem find? (mirrors : Mirrors keys made c d) (regular : c.Regular) (regularToo : d.Regular)
    {key : String} (own : key ∈ keys) :
    d.assignment.registry.find? key = c.assignment.registry.find? key := by
  rw [regularToo.sound.registry.find?_eq, regular.sound.registry.find?_eq, mirrors.subscription key own]

theorem isUsed (mirrors : Mirrors keys made c d) {key : String} (own : key ∈ keys) :
    d.assignment.pool.isUsed key = c.assignment.pool.isUsed key := by
  rw [Pool.isUsed_eq_isSome_token?, Pool.isUsed_eq_isSome_token?, mirrors.token key own, Option.isSome_map]

theorem pulled_mirrored (mirrors : Mirrors keys made c d) (regular : c.Regular)
    (regularToo : d.Regular) (noTake : action ≠ .take) :
    d.pulled (mirrored keys made order action) = (c.pulled action).filter (· ∈ keys) := by
  cases addressed : addressee? action with
  | some key =>
    have only : ∀ k ∈ c.pulled action, k = key := fun k touched => eq_addressee addressed (Or.inl touched)
    by_cases own : key ∈ keys
    · rw [List.filter_eq_self.mpr fun k touched => by simpa [only k touched] using own]
      cases action with
      | expire lease =>
        obtain rfl := Option.some.inj addressed
        rw [mirrored_expire own]
        rfl
      | markUsed k =>
        obtain rfl := Option.some.inj addressed
        rw [mirrored_of_mem (.markUsed k) rfl own (by simp), pulled, pulled, isYes_markUsed, isYes_markUsed,
          mirrors.contains regular regularToo own, mirrors.isUsed own]
      | add _ | mark _ _ | release _ _ | reclaim _ _ | present _ =>
        rw [mirrored_of_mem _ addressed own]
        · rfl
        · simp
      | _ => cases addressed
    · rw [mirrored_of_not_mem action addressed own, pulled_idling]
      exact (List.filter_eq_nil_iff.mpr fun k touched => by simpa [only k touched] using own).symm
  | none =>
    cases action with
    | take => exact absurd rfl noTake
    | withdraw subscriptions rollback removed =>
      simp [mirrored, left?, pulled, List.filter_map, Function.comp_def]
    | add _ | mark _ _ | markUsed _ | release _ _ | reclaim _ _ | present _ | expire _ => cases addressed
    | _ => rfl

theorem token?_eq_renumbered_iff (mirrors : Mirrors keys made c d) (recorded : c.Recorded made) {lease : Lease}
    (own : lease.key ∈ keys) :
    d.assignment.pool.token? (renumbered keys made lease).key = some (renumbered keys made lease).token ↔
      c.assignment.pool.token? lease.key = some lease.token := by
  rw [renumbered_key, mirrors.token lease.key own, Option.map_eq_some_iff]
  constructor
  · rintro ⟨token, held, same⟩
    have listed : (⟨lease.key, token⟩ : Lease) ∈ made.filter (·.key ∈ keys) :=
      List.mem_filter.mpr ⟨recorded.live _ _ held, by simpa using own⟩
    have equal := (List.idxOf_inj listed).mp (Nat.succ.inj same)
    rw [held, ← equal]
  · intro held
    exact ⟨lease.token, held, rfl⟩

theorem alarmsWithin_keys (mirrors : Mirrors keys made c d) (regular : c.Regular) (millis : Nat) :
    (d.alarmsWithin millis).map (·.job.key) = ((c.alarmsWithin millis).map (·.job.key)).filter (· ∈ keys) := by
  have events : d.events = c.events := congrArg Surroundings.events mirrors.surroundings
  rw [d.alarmsWithin_keys, c.alarmsWithin_keys, events, mirrors.now, mirrors.dues]
  split
  · rfl
  · have sorted : c.dues.Pairwise (·.2 ≤ ·.2) := List.pairwise_map.mpr regular.scheduled.sorted
    rw [takeWhile_eq_filter_of_sorted sorted, takeWhile_eq_filter_of_sorted (sorted.sublist List.filter_sublist),
      List.filter_map, List.filter_filter, List.filter_filter]
    simp only [Function.comp_def, Bool.and_comm]

/-- The keys that are queued are the same, in the same order except by a sweep. -/
theorem queued_mirrored (mirrors : Mirrors keys made c d) (regular : c.Regular)
    (regularToo : d.Regular) (recorded : c.Recorded made)
    (single : ∀ maxAge arrival, action ≠ .sweep maxAge arrival) :
    d.queued (mirrored keys made order action) = (c.queued action).filter (· ∈ keys) := by
  cases addressed : addressee? action with
  | some key =>
    have only : ∀ k ∈ c.queued action, k = key := fun k touched => eq_addressee addressed (Or.inr touched)
    by_cases own : key ∈ keys
    · rw [List.filter_eq_self.mpr fun k touched => by simpa [only k touched] using own]
      cases action with
      | release k consumed =>
        obtain rfl := Option.some.inj addressed
        rw [mirrored_of_mem (.release k consumed) rfl own (by simp), queued, queued, isYes_release, isYes_release,
          mirrors.isUsed own]
      | reclaim k requeue =>
        obtain rfl := Option.some.inj addressed
        rw [mirrored_of_mem (.reclaim k requeue) rfl own (by simp)]
        cases requeue with
        | false => rfl
        | true => rw [queued, queued, mirrors.contains regular regularToo own]
      | expire lease =>
        obtain rfl := Option.some.inj addressed
        rw [mirrored_expire own, queued, queued]
        simp only [mirrors.token?_eq_renumbered_iff recorded own]
        rfl
      | add _ | mark _ _ | markUsed _ | present _ =>
        rw [mirrored_of_mem _ addressed own]
        · rfl
        · simp
      | _ => cases addressed
    · rw [mirrored_of_not_mem action addressed own, queued_idling]
      exact (List.filter_eq_nil_iff.mpr fun k touched => by simpa [only k touched] using own).symm
  | none =>
    cases action with
    | sweep maxAge arrival => exact absurd rfl (single maxAge arrival)
    | pass millis => exact mirrors.alarmsWithin_keys regular millis
    | add _ | mark _ _ | markUsed _ | release _ _ | reclaim _ _ | present _ | expire _ => cases addressed
    | _ => rfl

theorem mem_pulled_mirrored_iff (mirrors : Mirrors keys made c d) (regular : c.Regular)
    (regularToo : d.Regular) (noTake : action ≠ .take) {key : String} (own : key ∈ keys) :
    key ∈ d.pulled (mirrored keys made order action) ↔ key ∈ c.pulled action := by
  rw [mirrors.pulled_mirrored regular regularToo noTake, List.mem_filter]
  simp [own]

theorem mem_queued_mirrored_iff (mirrors : Mirrors keys made c d) (regular : c.Regular)
    (regularToo : d.Regular) (recorded : c.Recorded made) {key : String}
    (own : key ∈ keys) : key ∈ d.queued (mirrored keys made order action) ↔ key ∈ c.queued action := by
  by_cases single : ∀ maxAge arrival, action ≠ .sweep maxAge arrival
  · rw [mirrors.queued_mirrored regular regularToo recorded single, List.mem_filter]
    simp [own]
  · simp only [not_forall, ne_eq, not_not] at single
    obtain ⟨maxAge, arrival, rfl⟩ := single
    have clock : d.clock = c.clock := congrArg Surroundings.clock mirrors.surroundings
    refine Assignment.mem_arrange.trans (Iff.trans ?_ Assignment.mem_arrange.symm)
    rw [Pool.mem_expired_iff, Pool.mem_expired_iff, mirrors.since key own, clock]

/-- The checkouts made are those of `keys`, numbered on. -/
theorem handsOut?_mirrored (mirrors : Mirrors keys made c d) (regular : c.Regular) (regularToo : d.Regular)
    (noTake : action ≠ .take) :
    (d.handsOut? (mirrored keys made order action)).toList =
      ((c.handsOut? action).toList.filter (·.key ∈ keys)).map fun lease =>
        ⟨lease.key, d.assignment.pool.issued + 1⟩ := by
  cases action with
  | take => exact absurd rfl noTake
  | markUsed key =>
    by_cases own : key ∈ keys
    · rw [mirrored_of_mem (.markUsed key) rfl own (by simp), handsOut?_markUsed, handsOut?_markUsed,
        mirrors.contains regular regularToo own, mirrors.isUsed own]
      split <;> simp [own]
    · rw [mirrored_of_not_mem (.markUsed key) rfl own, handsOut?_idling, handsOut?_markUsed]
      split <;> simp [own]
  | add _ | mark _ _ | release _ _ | reclaim _ _ | present _ | expire _ =>
    simp only [mirrored, left?]
    split <;> rfl
  | _ => rfl

end Mirrors

end Cache

end PartitionLease

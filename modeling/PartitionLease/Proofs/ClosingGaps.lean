import Mathlib.Data.List.Dedup
import PartitionLease.Proofs.BulkRemoval
import PartitionLease.Proofs.MarkEffects

namespace PartitionLease

/-- Leaving out what is not wanted does not change what is found first. -/
theorem find?_filter_of_imp {α : Type} {keep wanted : α → Bool} (kept : ∀ x, wanted x → keep x) (items : List α) :
    (items.filter keep).find? wanted = items.find? wanted := by
  rw [List.find?_filter]
  refine congrArg (List.find? · items) (funext fun x => ?_)
  cases want : wanted x with
  | true => simp [kept x want]
  | false => simp

namespace Assignment

/-- Makes some partitions known for one consumer and its group, one after the other. -/
def addAll (a : Assignment) (consumer group : String) (ps : List Partition) : Assignment :=
  ps.foldl (fun a p => (a.add consumer group p).1) a

variable {a : Assignment}

theorem Sound.addAll (sound : a.Sound) (consumer group : String) (ps : List Partition) :
    (a.addAll consumer group ps).Sound :=
  List.foldlRecOn ps _ (motive := Sound) sound fun _ soFar p _ => soFar.add consumer group p

theorem marks_addAll (a : Assignment) (consumer group : String) (ps : List Partition) :
    (a.addAll consumer group ps).marks = a.marks := by
  induction ps generalizing a with
  | nil => rfl
  | cons p rest ih => exact (ih _).trans (a.marks_add consumer group p)

/-- A key that was not known is bound to the first partition that was added under it. -/
theorem Sound.subscription?_addAll (sound : a.Sound) (consumer group : String) (ps : List Partition) (key : String) :
    (a.addAll consumer group ps).registry.subscription? key =
      (a.registry.subscription? key).or ((ps.find? (·.key = key)).map (⟨consumer, group, ·⟩)) := by
  induction ps generalizing a with
  | nil => simp [Assignment.addAll]
  | cons p rest ih =>
    refine (ih (sound.add consumer group p)).trans ?_
    rw [registry_add, sound.registry.subscription?_insert, Subscription.key]
    by_cases own : p.key = key
    · cases a.registry.subscription? key <;> simp [own]
    · simp [own]

/-- Making a partition known whose key is not checked out does nothing in the pool but put the key last in line. -/
theorem Sound.pool_add_of_free (sound : a.Sound) (consumer group : String) {p : Partition}
    (free : a.pool.used[p.key]? = none) :
    (a.add consumer group p).1.pool = a.pool.withIdle (a.pool.idle.erase p.key ++ [p.key]) := by
  let pool := (a.add consumer group p).1.pool
  have unused : a.pool.isUsed p.key = false := by
    rw [← Pool.token?_eq_none_iff, Pool.token?, free]
    rfl
  have used : pool.used = a.pool.used :=
    (a.used_add consumer group p).trans (Pool.erase_used_of_not_isUsed unused)
  have issued : pool.issued = a.pool.issued := (Vacating.add a consumer group p).still.2.2.2
  have timers : pool.timers = a.pool.timers := by
    simp only [pool, pool_add, timers_vacate, pool_withRegistry, free]
    rfl
  calc
    pool = ⟨pool.idle, pool.used, pool.issued, pool.timers⟩ := rfl
    _ = a.pool.withIdle (a.pool.idle.erase p.key ++ [p.key]) := by
      rw [sound.idle_add consumer group p, used, issued, timers]
      rfl

/-- Keys that are not checked out end up last in line, in the order in which each was added last. -/
theorem Sound.pool_addAll (sound : a.Sound) (consumer group : String) {ps : List Partition}
    (free : ∀ p ∈ ps, a.pool.used[p.key]? = none) :
    (a.addAll consumer group ps).pool =
      a.pool.withIdle (a.pool.idle.filter (· ∉ ps.map (·.key)) ++ (ps.map (·.key)).dedup) := by
  induction ps generalizing a with
  | nil => simp [Assignment.addAll, Pool.withIdle]
  | cons p rest ih =>
    rw [List.forall_mem_cons] at free
    have first := sound.pool_add_of_free consumer group free.1
    have others : ∀ q ∈ rest, (a.add consumer group p).1.pool.used[q.key]? = none := by
      rw [first]
      exact free.2
    have left : (a.pool.idle.erase p.key).filter (· ∉ rest.map (·.key)) =
        a.pool.idle.filter (· ∉ (p :: rest).map (·.key)) := by
      rw [sound.once.erase_eq_filter, List.filter_filter]
      refine List.filter_congr fun key _ => ?_
      by_cases own : key = p.key <;> simp [own]
    -- A key that comes again is moved on from where it was put first.
    have last : [p.key].filter (· ∉ rest.map (·.key)) ++ (rest.map (·.key)).dedup =
        ((p :: rest).map (·.key)).dedup := by
      rw [List.map_cons]
      by_cases again : p.key ∈ rest.map (·.key)
      · rw [List.dedup_cons_of_mem again, List.filter_cons_of_neg (by simpa using again), List.filter_nil,
          List.nil_append]
      · rw [List.dedup_cons_of_notMem again, List.filter_cons_of_pos (by simpa using again), List.filter_nil,
          List.singleton_append]
    refine (ih (sound.add consumer group p) others).trans ?_
    rw [first, Pool.withIdle, Pool.withIdle, Pool.withIdle, List.filter_append, left, List.append_assoc, last]

/-- Not known are the partitions whose keys are not, also where nothing is known at all. -/
theorem Sound.unsubscribed_eq (sound : a.Sound) (offered : List Subscription) : a.unsubscribed offered =
    (offered.filter fun s => !a.registry.contains s.key).map (·.partition) := by
  rw [sound.registry.derives.unsubscribed]
  refine congrArg (List.map _) (List.filter_congr fun s _ => ?_)
  rw [sound.registry.contains_eq, Option.not_isSome]

section Unsubscribed

variable (consumer group : String) (offered : List Subscription)

theorem Sound.mem_keys_unsubscribed (sound : a.Sound) {key : String} :
    key ∈ (a.unsubscribed offered).map (·.key) ↔
      key ∈ offered.map (·.key) ∧ a.registry.contains key = false := by
  have own : (a.unsubscribed offered).map (·.key) =
      (offered.filter fun s => !a.registry.contains s.key).map (·.key) := by
    rw [sound.unsubscribed_eq, List.map_map]
    rfl
  rw [own, List.mem_map, List.mem_map]
  constructor
  · rintro ⟨s, lacks, rfl⟩
    obtain ⟨offers, unknown⟩ := List.mem_filter.mp lacks
    exact ⟨⟨s, offers, rfl⟩, by simpa using unknown⟩
  · rintro ⟨⟨s, offers, rfl⟩, unknown⟩
    exact ⟨s, List.mem_filter.mpr ⟨offers, by simpa using unknown⟩, rfl⟩

/-- What is bound to a new key is what is offered first under it. -/
theorem Sound.subscription?_addAll_unsubscribed (sound : a.Sound) (key : String) :
    (a.addAll consumer group (a.unsubscribed offered)).registry.subscription? key =
      (a.registry.subscription? key).or
        ((offered.find? (·.key = key)).map fun s => ⟨consumer, group, s.partition⟩) := by
  refine (sound.subscription?_addAll consumer group _ key).trans ?_
  cases unknown : a.registry.subscription? key with
  | some s => rfl
  | none =>
    have all : (offered.filter fun s => !a.registry.contains s.key).find? (·.key = key) =
        offered.find? (·.key = key) := by
      refine find?_filter_of_imp (fun s own => ?_) offered
      rw [of_decide_eq_true own, sound.registry.contains_eq, unknown]
      rfl
    rw [sound.unsubscribed_eq, List.find?_map, Option.map_map]
    exact congrArg (Option.map _) all

theorem Sound.pool_addAll_unsubscribed (sound : a.Sound) :
    (a.addAll consumer group (a.unsubscribed offered)).pool =
      a.pool.withIdle (a.pool.idle ++ ((a.unsubscribed offered).map (·.key)).dedup) := by
  have unknown {key : String} (lacks : key ∈ (a.unsubscribed offered).map (·.key)) :
      a.registry.contains key = false := ((sound.mem_keys_unsubscribed offered).mp lacks).2
  have free : ∀ p ∈ a.unsubscribed offered, a.pool.used[p.key]? = none := fun p lacks =>
    sound.getElem?_used_of_unknown (unknown (List.mem_map_of_mem lacks))
  have others : a.pool.idle.filter (· ∉ (a.unsubscribed offered).map (·.key)) = a.pool.idle := by
    refine List.filter_eq_self.mpr fun key waits => decide_eq_true fun lacks => ?_
    have known := sound.idle_known key waits
    rw [unknown lacks] at known
    cases known
  have queued := sound.pool_addAll consumer group free
  rwa [others] at queued

end Unsubscribed

end Assignment

namespace Cache

theorem run_add (c : Cache) (ps : List Partition) : c.run (ps.map .add) =
    { c with assignment := c.assignment.addAll c.session.consumer c.session.group ps } := by
  induction ps generalizing c with
  | nil => rfl
  | cons p rest ih => exact ih _

/-- Of the subscriptions offered those are missing whose keys are not known, as often as they are offered. When the
missing partitions are made known one after the other nothing is missing any more: the keys offered are known besides
those that were, each new one for the first partition offered under it, and they are in line behind all that was in
line. What was known before is as it was, with its checkout, its mark and its place. -/
theorem adding_what_is_missing_leaves_nothing_missing (config : Config) (clock : Clock) (timeKept : Bool)
    (actions : List Action) (offered : List Subscription) :
    let c := (new config clock timeKept).run actions
    let a := c.assignment
    let missing := a.unsubscribed offered
    let entry (key : String) := (offered.find? (·.key = key)).map fun s =>
      (⟨c.session.consumer, c.session.group, s.partition⟩ : Subscription)
    let queued := (missing.map (·.key)).dedup
    missing = (offered.filter fun s => !a.registry.contains s.key).map (·.partition) ∧
    ∃ b : Assignment, c.run (missing.map .add) = { c with assignment := b } ∧
      b.unsubscribed offered = [] ∧
      (∀ key, b.registry.contains key ↔ a.registry.contains key ∨ key ∈ offered.map (·.key)) ∧
      b.registry.Derives (fun key => (a.registry.subscription? key).or (entry key)) ∧
      (∀ key, a.registry.contains key → b.registry.find? key = a.registry.find? key ∧
        b.registry.subscription? key = a.registry.subscription? key) ∧
      (∀ key, a.registry.contains key = false → b.registry.find? key = (entry key).map (·.partition) ∧
        b.registry.subscription? key = entry key) ∧
      b.pool = a.pool.withIdle (a.pool.idle ++ queued) ∧ queued.Nodup ∧
      (∀ key, key ∈ queued ↔ key ∈ offered.map (·.key) ∧ a.registry.contains key = false) ∧
      b.marks = a.marks := by
  intro c a missing entry queued
  have sound : a.Sound := sound_run_new config clock timeKept actions
  let b := a.addAll c.session.consumer c.session.group missing
  have soundAfter : b.Sound := sound.addAll _ _ missing
  have entries (key : String) : b.registry.subscription? key = (a.registry.subscription? key).or (entry key) :=
    sound.subscription?_addAll_unsubscribed _ _ offered key
  have known (key : String) : b.registry.contains key ↔
      a.registry.contains key ∨ key ∈ offered.map (·.key) := by
    rw [soundAfter.registry.contains_eq, sound.registry.contains_eq, entries, Option.isSome_or, Bool.or_eq_true]
    simp [entry]
  refine ⟨sound.unsubscribed_eq offered, b, c.run_add missing, ?_, known,
    funext entries ▸ soundAfter.registry.derives, ?_, ?_, sound.pool_addAll_unsubscribed _ _ offered,
    List.nodup_dedup _, fun key => List.mem_dedup.trans (sound.mem_keys_unsubscribed offered),
    a.marks_addAll _ _ missing⟩
  · rw [soundAfter.unsubscribed_eq, List.map_eq_nil_iff, List.filter_eq_nil_iff]
    intro s offers
    simpa using (known s.key).mpr (Or.inr (List.mem_map_of_mem offers))
  · intro key registered
    rw [sound.registry.contains_eq, Option.isSome_iff_exists] at registered
    obtain ⟨s, found⟩ := registered
    rw [soundAfter.registry.find?_eq, sound.registry.find?_eq, entries, found]
    exact ⟨rfl, rfl⟩
  · intro key unknown
    rw [sound.registry.contains_eq, Option.isSome_eq_false_iff, Option.isNone_iff_eq_none] at unknown
    rw [soundAfter.registry.find?_eq, entries, unknown]
    exact ⟨rfl, rfl⟩

end Cache

end PartitionLease

import Mathlib.Data.List.Induction
import PartitionLease.Proofs.PoolSteps

namespace PartitionLease

/-- A known partition that is neither in line nor checked out. -/
def Assignment.Parked (a : Assignment) (key : String) : Prop :=
  a.registry.contains key ∧ key ∉ a.pool.idle ∧ a.pool.isUsed key = false

namespace Cache

/-- The actions that bring a parked partition back, into line or to a consumer. -/
inductive Revives (c : Cache) (key : String) : Action → Prop
  | registered (p : Partition) (own : p.key = key) : Revives c key (.add p)
  | marked (accepted : (c.step (.markUsed key)).2 = .flag true) : Revives c key (.markUsed key)
  | requeued : Revives c key (.reclaim key true)

/-- A key has been known ever since the action `.add p` that came after `before` made it known. -/
structure KnownSince (c : Cache) (key : String) (before : List Action) (p : Partition)
    (after : List Action) : Prop where
  own : p.key = key
  new : ((c.run before).step (.add p)).2 = .flag true
  known : ∀ past, past <+: after → (c.run (before ++ .add p :: past)).assignment.registry.contains key

/-- A reclaim that does not queue has come since the registration under which a key is known, and after the
last such reclaim nothing has brought the key back. -/
def PutAside (c : Cache) (key : String) (actions : List Action) : Prop :=
  ∃ before p between after, actions = before ++ .add p :: (between ++ .reclaim key false :: after) ∧
    KnownSince c key before p (between ++ .reclaim key false :: after) ∧ .reclaim key false ∉ after ∧
    ∀ past action, past ++ [action] <+: after →
      ¬ Revives (c.run (before ++ .add p :: (between ++ .reclaim key false :: past))) key action

theorem reply_add (c : Cache) (p : Partition) :
    (c.step (.add p)).2 = .flag !c.assignment.registry.contains p.key := by
  have inserted : (c.assignment.registry.insert ⟨c.session.consumer, c.session.group, p⟩).2 =
      !c.assignment.registry.contains p.key := by
    unfold Registry.insert Subscription.key
    split <;> simp_all
  simp only [step, Assignment.add, Session.identity, inserted]

theorem reply_markUsed (c : Cache) (key : String) : (c.step (.markUsed key)).2 =
    .flag (c.assignment.registry.contains key && !c.assignment.pool.isUsed key) := by
  simp only [step, Assignment.markUsed]
  split <;> simp_all

/-- A known key is left out of the line and not handed out by an action that takes it out of where it is
only if the action is a reclaim that does not queue. -/
theorem eq_reclaim_of_pulled {c : Cache} (sound : c.assignment.Sound) (agree : c.assignment.AlarmsAgree)
    {action : Action} {key : String} (pull : key ∈ c.pulled action) (notQueued : key ∉ c.queued action)
    (notHanded : ∀ token, c.handsOut? action ≠ some ⟨key, token⟩)
    (known : (c.step action).1.assignment.registry.contains key) : action = .reclaim key false := by
  rw [known_step sound agree] at known
  cases action with
  | add p => exact absurd pull notQueued
  | withdraw subscriptions rollback removed => simp_all [pulled, forgotten]
  | drop keys => simp_all [pulled, forgotten]
  | take =>
    cases line : c.assignment.pool.idle with
    | nil => simp [pulled, line] at pull
    | cons first rest =>
      obtain rfl : key = first := by simpa [pulled, line] using pull
      refine absurd ?_ (notHanded (c.assignment.pool.issued + 1))
      rw [handsOut?_take sound, line]
      rfl
  | markUsed k =>
    rw [pulled, isYes_markUsed] at pull
    split at pull
    · rename_i allowed
      obtain rfl := List.mem_singleton.mp pull
      refine absurd ?_ (notHanded (c.assignment.pool.issued + 1))
      rw [handsOut?_markUsed, if_pos allowed]
    · cases pull
  | reclaim k requeue =>
    obtain rfl : key = k := by simpa [pulled] using pull
    cases requeue with
    | false => rfl
    | true => simp_all [queued, forgotten]
  | _ => simp [pulled] at pull

/-- A parked key is queued or handed out by those actions that bring it back. -/
theorem revives_iff_of_parked {c : Cache} (sound : c.assignment.Sound) (agree : c.assignment.AlarmsAgree)
    {key : String} (parked : c.assignment.Parked key) (action : Action) :
    Revives c key action ↔ key ∈ c.queued action ∨ ∃ token, c.handsOut? action = some ⟨key, token⟩ := by
  obtain ⟨known, notIdle, free⟩ := parked
  have notOut : ∀ token, c.assignment.pool.token? key ≠ some token := by
    intro token held
    rw [Pool.isUsed_of_token? held] at free
    cases free
  constructor
  · intro revives
    cases revives with
    | registered p own => exact Or.inl (by simp [queued, own])
    | marked accepted =>
      refine Or.inr ⟨c.assignment.pool.issued + 1, ?_⟩
      rw [handsOut?_markUsed, known, free]
      rfl
    | requeued => exact Or.inl (by simp [queued, known])
  · rintro (queue | ⟨token, handed⟩)
    · cases action with
      | add p => exact .registered p (by simpa [queued, eq_comm] using queue)
      | release k consumed =>
        rw [queued, isYes_release] at queue
        split at queue
        · rename_i out
          obtain rfl := List.mem_singleton.mp queue
          rw [out] at free
          cases free
        · cases queue
      | reclaim k requeue =>
        cases requeue with
        | false => cases queue
        | true =>
          obtain rfl : key = k := by
            rw [queued] at queue
            split at queue
            · exact List.mem_singleton.mp queue
            · cases queue
          exact .requeued
      | sweep maxAge order =>
        have out := Pool.isUsed_of_mem_expired (Assignment.mem_arrange.mp queue)
        rw [out] at free
        cases free
      | expire lease =>
        rw [queued] at queue
        split at queue
        · rename_i live
          obtain rfl := List.mem_singleton.mp queue
          exact absurd live (notOut lease.token)
        · cases queue
      | pass millis =>
        obtain ⟨alarm, due, rfl⟩ := List.mem_map.mp queue
        have armed : alarm ∈ c.assignment.pool.timers.armed := by
          rw [(goneOff_pass sound agree millis).armed]
          exact List.mem_append_left _ due
        exact absurd (agree.token?_of_armed armed) (notOut _)
      | _ => cases queue
    · cases action with
      | take =>
        rw [handsOut?_take sound, Option.map_eq_some_iff] at handed
        obtain ⟨first, front, same⟩ := handed
        obtain rfl : first = key := (Lease.mk.inj same).1
        exact absurd (List.mem_of_mem_head? front) notIdle
      | markUsed k =>
        rw [handsOut?_markUsed] at handed
        split at handed
        · rename_i allowed
          obtain rfl : k = key := (Lease.mk.inj (Option.some.inj handed)).1
          exact .marked (by rw [reply_markUsed, allowed])
        · cases handed
      | _ => simp [handsOut?] at handed

/-- What one step does to parked keys: a reclaim that does not queue parks a known key, and a parked one
stays so until it is brought back or forgotten. -/
theorem parked_step {c : Cache} (sound : c.assignment.Sound) (agree : c.assignment.AlarmsAgree)
    (action : Action) (key : String) : (c.step action).1.assignment.Parked key ↔
      (c.step action).1.assignment.registry.contains key ∧
        (action = .reclaim key false ∨ c.assignment.Parked key ∧ ¬ Revives c key action) := by
  have idle : key ∈ (c.step action).1.assignment.pool.idle ↔
      key ∈ c.assignment.pool.idle ∧ key ∉ c.pulled action ∨ key ∈ c.queued action := by
    simp [idle_step sound agree action]
  have used := used_step sound agree action key
  constructor
  · rintro ⟨known, notIdle, free⟩
    rw [idle, not_or, not_and_not_right] at notIdle
    rw [← Bool.not_eq_true, used, not_or, not_exists] at free
    obtain ⟨stays, notQueued⟩ := notIdle
    obtain ⟨notHanded, notUsed⟩ := free
    refine ⟨known, ?_⟩
    by_cases pull : key ∈ c.pulled action
    · exact Or.inl (eq_reclaim_of_pulled sound agree pull notQueued notHanded known)
    · have other : ¬ ∃ p, action = .add p ∧ p.key = key := by
        rintro ⟨p, rfl, rfl⟩
        exact pull (List.mem_singleton_self _)
      have before := ((known_step sound agree action key).mp known).resolve_left other
      have parked : c.assignment.Parked key :=
        ⟨before.2, fun inLine => pull (stays inLine),
          Bool.eq_false_iff.mpr fun out => notUsed ⟨out, pull, notQueued⟩⟩
      refine Or.inr ⟨parked, ?_⟩
      rw [revives_iff_of_parked sound agree parked, not_or, not_exists]
      exact ⟨notQueued, notHanded⟩
  · rintro ⟨known, rfl | ⟨parked, stays⟩⟩
    · refine ⟨known, ?_, ?_⟩
      · rw [idle]
        simp [pulled, queued]
      · rw [← Bool.not_eq_true, used]
        simp [pulled, handsOut?]
    · rw [revives_iff_of_parked sound agree parked, not_or] at stays
      refine ⟨known, ?_, ?_⟩
      · rw [idle, not_or]
        exact ⟨fun inLine => parked.2.1 inLine.1, stays.1⟩
      · rw [← Bool.not_eq_true, used, not_or]
        exact ⟨stays.2, fun out => Bool.eq_false_iff.mp parked.2.2 out.1⟩

theorem KnownSince.concat {c : Cache} {key : String} {before after : List Action} {p : Partition}
    (since : KnownSince c key before p after) {action : Action}
    (still : (c.run (before ++ .add p :: (after ++ [action]))).assignment.registry.contains key) :
    KnownSince c key before p (after ++ [action]) where
  own := since.own
  new := since.new
  known := by
    intro past early
    rcases List.prefix_concat_iff.mp early with rfl | earlier
    · exact still
    · exact since.known past earlier

theorem KnownSince.of_concat {c : Cache} {key : String} {before after : List Action} {p : Partition}
    {action : Action} (since : KnownSince c key before p (after ++ [action])) :
    KnownSince c key before p after where
  own := since.own
  new := since.new
  known past early := since.known past (early.trans (List.prefix_append after [action]))

/-- A key that is known has been so since one of the actions that made it known. -/
theorem exists_knownSince {c : Cache} (sound : c.assignment.Sound) (agree : c.assignment.AlarmsAgree)
    {key : String} (fresh : c.assignment.registry.contains key = false) (actions : List Action)
    (known : (c.run actions).assignment.registry.contains key) :
    ∃ before p after, actions = before ++ .add p :: after ∧ KnownSince c key before p after := by
  induction actions using List.reverseRecOn with
  | nil =>
    rw [run_nil, fresh] at known
    cases known
  | append_singleton actions action ih =>
    cases already : (c.run actions).assignment.registry.contains key with
    | true =>
      obtain ⟨before, p, after, rfl, since⟩ := ih already
      refine ⟨before, p, after ++ [action], by simp, since.concat ?_⟩
      simpa using known
    | false =>
      have step := known
      rw [run_append, run_cons, run_nil,
        known_step (sound_run sound actions) (agree_run sound agree actions), already] at step
      obtain ⟨p, rfl, own⟩ | ⟨-, no⟩ := step
      · refine ⟨actions, p, [], rfl, own, ?_, ?_⟩
        · rw [reply_add, own, already]
          rfl
        · intro past early
          rw [List.prefix_nil.mp early]
          exact known
      · cases no

/-- Parked are exactly the keys that were put aside. -/
theorem parked_run_iff {c : Cache} (sound : c.assignment.Sound) (agree : c.assignment.AlarmsAgree)
    {key : String} (fresh : c.assignment.registry.contains key = false) (actions : List Action) :
    (c.run actions).assignment.Parked key ↔ PutAside c key actions := by
  induction actions using List.reverseRecOn with
  | nil =>
    constructor
    · rintro ⟨known, -⟩
      rw [run_nil, fresh] at known
      cases known
    · rintro ⟨before, p, between, after, split, -⟩
      simp at split
  | append_singleton actions action ih =>
    have soundThen := sound_run sound actions
    have agreeThen := agree_run sound agree actions
    have step := parked_step soundThen agreeThen action key
    have last : (c.run (actions ++ [action])) = ((c.run actions).step action).1 := by simp
    rw [last, step]
    constructor
    · rintro ⟨known, how⟩
      by_cases reclaim : action = .reclaim key false
      · subst reclaim
        -- The reclaim is the last one, and the registration is that under which the key was known then.
        have already : (c.run actions).assignment.registry.contains key := known
        obtain ⟨before, p, between, rfl, since⟩ := exists_knownSince sound agree fresh actions already
        refine ⟨before, p, between, [], by simp, since.concat ?_, nofun, ?_⟩
        · simpa using known
        · intro past next early
          simp at early
      · obtain ⟨parked, stays⟩ := how.resolve_left reclaim
        obtain ⟨before, p, between, after, rfl, since, none, idle⟩ := ih.mp parked
        refine ⟨before, p, between, after ++ [action], by simp, ?_, ?_, ?_⟩
        · rw [← List.cons_append, ← List.append_assoc]
          exact since.concat (by simpa using known)
        · rw [List.mem_append, List.mem_singleton, not_or]
          exact ⟨none, Ne.symm reclaim⟩
        · intro past next early
          rcases List.prefix_concat_iff.mp early with whole | earlier
          · obtain ⟨rfl, same⟩ := List.append_inj' whole rfl
            obtain rfl := List.cons.inj same |>.1
            exact stays
          · exact idle past next earlier
    · rintro ⟨before, p, between, after, split, since, none, idle⟩
      have known : ((c.run actions).step action).1.assignment.registry.contains key := by
        rw [← last, split]
        exact since.known _ (List.prefix_refl _)
      refine ⟨known, ?_⟩
      rcases List.eq_nil_or_concat' after with rfl | ⟨others, next, rfl⟩
      · have ends : actions ++ [action] = (before ++ .add p :: between) ++ [.reclaim key false] := by
          rw [split]
          simp
        exact Or.inl (List.cons.inj (List.append_inj' ends rfl).2).1
      · have ends : actions ++ [action] =
            (before ++ .add p :: (between ++ .reclaim key false :: others)) ++ [next] := by
          rw [split]
          simp
        obtain ⟨rfl, same⟩ := List.append_inj' ends rfl
        obtain rfl := (List.cons.inj same).1
        refine Or.inr ⟨ih.mpr ⟨before, p, between, others, rfl, ?_, ?_, ?_⟩, ?_⟩
        · rw [← List.cons_append, ← List.append_assoc] at since
          exact since.of_concat
        · exact fun member => none (List.mem_append_left _ member)
        · exact fun past next early => idle past next (early.trans (List.prefix_append _ _))
        · exact idle others action (List.prefix_refl _)

/-- Where the known partitions are: each is in line, or checked out, or put aside, and never in two of these.
Put aside is a key for which a reclaim that does not queue has come since its registration, and after the last
such reclaim neither a registration nor a successful hand-out nor a reclaim that queues. So unless someone
asks for it no known partition is ever lost from sight. -/
theorem known_iff_idle_used_or_putAside (config : Config) (clock : Clock) (timeKept : Bool)
    (actions : List Action) :
    let start := new config clock timeKept
    let a := (start.run actions).assignment
    (∀ key, a.registry.contains key ↔
      key ∈ a.pool.idle ∨ a.pool.isUsed key ∨ PutAside start key actions) ∧
    (∀ key, ¬ (key ∈ a.pool.idle ∧ a.pool.isUsed key) ∧
      ¬ (key ∈ a.pool.idle ∧ PutAside start key actions) ∧
      ¬ (a.pool.isUsed key ∧ PutAside start key actions)) ∧
    (∀ key, a.Parked key ↔ PutAside start key actions) ∧
    ∀ key, .reclaim key false ∉ actions → a.registry.contains key →
      key ∈ a.pool.idle ∨ a.pool.isUsed key := by
  intro start a
  have sound : a.Sound := sound_run_new config clock timeKept actions
  have parked : ∀ key, a.Parked key ↔ PutAside start key actions := fun key =>
    parked_run_iff (sound_new config clock timeKept) (agree_new config clock timeKept)
      (by simp [new, Registry.contains]) actions
  have known : ∀ key, a.registry.contains key ↔
      key ∈ a.pool.idle ∨ a.pool.isUsed key ∨ PutAside start key actions := by
    intro key
    rw [← parked]
    constructor
    · intro registered
      by_cases inLine : key ∈ a.pool.idle
      · exact Or.inl inLine
      · cases out : a.pool.isUsed key with
        | true => exact Or.inr (Or.inl rfl)
        | false => exact Or.inr (Or.inr ⟨registered, inLine, out⟩)
    · rintro (inLine | out | aside)
      · exact sound.idle_known key inLine
      · exact sound.used_known key out
      · exact aside.1
  refine ⟨known, fun key => ⟨?_, ?_, ?_⟩, parked, fun key never registered => ?_⟩
  · rintro ⟨inLine, out⟩
    rw [sound.idle_free key inLine] at out
    cases out
  · rintro ⟨inLine, aside⟩
    exact ((parked key).mpr aside).2.1 inLine
  · rintro ⟨out, aside⟩
    rw [((parked key).mpr aside).2.2] at out
    cases out
  · rcases (known key).mp registered with inLine | out | ⟨before, p, between, after, rfl, -⟩
    · exact Or.inl inLine
    · exact Or.inr out
    · exact absurd (by simp) never

end Cache

end PartitionLease

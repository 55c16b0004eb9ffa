import PartitionLease.Cache
import PartitionLease.Proofs.AssignmentSoundness

namespace PartitionLease

/-- An entry of a log with one entry more is the new one or one of the others. -/
theorem concat_eq_append_cons_iff {α : Type} {log before after : List α} {last entry : α} :
    log ++ [last] = before ++ entry :: after ↔
      log = before ∧ last = entry ∧ after = [] ∨
        ∃ others, after = others ++ [last] ∧ log = before ++ entry :: others := by
  constructor
  · intro split
    rcases List.eq_nil_or_concat' after with rfl | ⟨others, next, rfl⟩
    · obtain ⟨rfl, same⟩ := List.append_inj' split rfl
      exact Or.inl ⟨rfl, (List.cons.inj same).1, rfl⟩
    · rw [← List.cons_append, ← List.append_assoc] at split
      obtain ⟨rfl, same⟩ := List.append_inj' split rfl
      obtain rfl := (List.cons.inj same).1
      exact Or.inr ⟨others, rfl, rfl⟩
  · rintro (⟨rfl, rfl, rfl⟩ | ⟨others, rfl, rfl⟩)
    · rfl
    · simp

namespace Cache

/-- The cache after some actions, one after the other. -/
def run (c : Cache) (actions : List Action) : Cache :=
  actions.foldl (fun c action => (c.step action).1) c

@[simp] theorem run_nil (c : Cache) : c.run [] = c := rfl

@[simp] theorem run_cons (c : Cache) (action : Action) (actions : List Action) :
    c.run (action :: actions) = (c.step action).1.run actions := rfl

@[simp] theorem run_append (c : Cache) (first later : List Action) :
    c.run (first ++ later) = (c.run first).run later := List.foldl_append

theorem step_advanceClock (c : Cache) (span : Duration) :
    (c.step (.advanceClock span)).1 = { c with clock := c.clock.advance span } := by
  -- For any clock, since comparing the moved clock with the old one would count to its limit.
  have moved : ∀ clock, (({ c with clock } : Cache), Reply.none).1 = { c with clock } := fun _ => rfl
  exact moved (c.clock.advance span)

theorem assignment_advanceClock (c : Cache) (span : Duration) :
    (c.step (.advanceClock span)).1.assignment = c.assignment := by
  rw [step_advanceClock]

theorem sound_new (config : Config) (clock : Clock) (timeKept : Bool) :
    (new config clock timeKept).assignment.Sound where
  registry := Registry.sound_empty
  once := List.nodup_nil
  idle_free := by simp [new]
  idle_known := by simp [new]
  used_known := by simp [new, Pool.isUsed]

theorem sound_pass {c : Cache} (sound : c.assignment.Sound) (millis : Nat) :
    (c.pass millis).assignment.Sound := by
  unfold pass
  split
  · exact sound
  · exact sound.passTo _

theorem sound_step {c : Cache} (sound : c.assignment.Sound) (action : Action) :
    (c.step action).1.assignment.Sound := by
  cases action with
  | setConsumer consumer group => exact sound
  | setClock millis => exact sound
  | advanceClock span =>
    rw [assignment_advanceClock]
    exact sound
  | add p => exact sound.add c.session.consumer c.session.group p
  | withdraw subscriptions rollback removed => exact sound.withdraw subscriptions rollback removed
  | drop keys => exact sound.drop keys
  | take => exact sound.take c.clock.now c.config.lease?
  | markUsed key => exact sound.markUsed key c.clock.now c.config.lease?
  | release key consumed => exact sound.release key consumed
  | reclaim key requeue => exact sound.reclaim key requeue
  | sweep maxAge order => exact sound.sweep c.clock.now maxAge order
  | expire lease => exact sound.expire lease
  | pass millis => exact sound_pass sound millis
  | mark p consumed => exact sound.mark p consumed
  | present key => exact sound
  | events action => exact sound

theorem sound_run {c : Cache} (sound : c.assignment.Sound) (actions : List Action) :
    (c.run actions).assignment.Sound := by
  induction actions generalizing c with
  | nil => exact sound
  | cons action actions ih => exact ih (sound_step sound action)

theorem sound_run_new (config : Config) (clock : Clock) (timeKept : Bool) (actions : List Action) :
    ((new config clock timeKept).run actions).assignment.Sound :=
  sound_run (sound_new config clock timeKept) actions

/-- Whatever happens to a new cache, its own check passes and its books agree. -/
theorem checkInvariants_run (config : Config) (clock : Clock) (timeKept : Bool) (actions : List Action) :
    ((new config clock timeKept).run actions).checkInvariants = .ok () ∧
      ((new config clock timeKept).run actions).assignment.Sound := by
  have sound := sound_run_new config clock timeKept actions
  refine ⟨?_, sound⟩
  rw [checkInvariants, sound.fault?_eq_none]

end Cache

end PartitionLease

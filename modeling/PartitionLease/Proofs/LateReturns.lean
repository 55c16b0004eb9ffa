import PartitionLease.Proofs.LineEffects
import PartitionLease.Proofs.StaleAlarms

namespace PartitionLease

namespace Assignment

/-- What a return does when its key is checked out, whoever made the checkout: the checkout ends, the key
goes to the end of the line, and its partition gets the mark that the return brings. -/
structure TakesBack (a b : Assignment) (key : String) (consumed : Bool) : Prop where
  ended : b.pool.token? key = none
  queued : b.pool.idle = a.pool.idle ++ [key]
  marked : ∀ p, a.registry.find? key = some p → b.marks p = consumed

theorem takesBack_release {a : Assignment} (sound : a.Sound) {key : String}
    (out : a.pool.isUsed key) (consumed : Bool) :
    (a.release key consumed).2 = true ∧ TakesBack a (a.release key consumed).1 key consumed := by
  have gone : (a.release key consumed).1.pool.token? key = none := by
    rw [Pool.token?, used_release, Std.ExtTreeMap.getElem?_erase_self, Option.map_none]
  refine ⟨by rw [release, if_pos out], gone, sound.idle_release out consumed, ?_⟩
  · intro p known
    rw [release, if_pos out]
    have marked : (a.markKey key consumed).marks p = consumed := by
      rw [markKey, known]
      exact Marks.write_self a.marks p consumed
    exact marked

end Assignment

namespace Cache

/-- In a run from `c` the checkout `again` is made, and it is live in the end. -/
def MadeAndLive (c : Cache) (actions : List Action) (again : Lease) : Prop :=
  ∃ earlier handing later, actions = earlier ++ handing :: later ∧
    (c.run earlier).handsOut? handing = some again ∧
    OutSince (c.run (earlier ++ [handing])) again.key later

theorem MadeAndLive.cons {c : Cache} {action : Action} {rest : List Action} {again : Lease}
    (live : MadeAndLive (c.step action).1 rest again) : MadeAndLive c (action :: rest) again := by
  obtain ⟨earlier, handing, later, rfl, handed, out⟩ := live
  exact ⟨action :: earlier, handing, later, rfl, handed, out⟩

/-- The number of a checkout that an action makes is given from then on. -/
theorem token_le_issued {c : Cache} (sound : c.assignment.Sound) {action : Action} {lease : Lease}
    (handed : c.handsOut? action = some lease) : lease.token ≤ (c.step action).1.assignment.pool.issued := by
  have token := (step_of_handsOut? sound handed).1
  rw [issued_step sound action, handed, token]
  exact Nat.le_refl _

theorem MadeAndLive.token? {c : Cache} (sound : c.assignment.Sound) {actions : List Action} {again : Lease}
    (live : MadeAndLive c actions again) :
    c.assignment.pool.issued < again.token ∧
      (c.run actions).assignment.pool.token? again.key = some again.token := by
  obtain ⟨earlier, handing, later, rfl, handed, out⟩ := live
  have soundThen := sound_run sound earlier
  have issued := issued_run sound earlier
  have token := (step_of_handsOut? soundThen handed).1
  have held := token?_of_handsOut? soundThen handed
  rw [run_append, run_cons] at out ⊢
  exact ⟨by omega, out.token? (sound_step soundThen handing) held⟩

/-- A checkout that is live at the end of a run is live at its beginning or made in it. -/
theorem madeAndLive_of_token? {c : Cache} (sound : c.assignment.Sound) {key : String} {token : Nat}
    {actions : List Action} (live : (c.run actions).assignment.pool.token? key = some token)
    (new : c.assignment.pool.token? key ≠ some token) : MadeAndLive c actions ⟨key, token⟩ := by
  induction actions generalizing c with
  | nil => exact absurd live new
  | cons action rest ih =>
    have soundThen := sound_step sound action
    by_cases held : (c.step action).1.assignment.pool.token? key = some token
    · cases checkoutStep sound action key with
      | kept same => exact absurd (same.symm.trans held) new
      | ended _ _ none _ =>
        rw [none] at held
        cases held
      | made handed own =>
        obtain rfl : c.assignment.pool.issued + 1 = token := Option.some.inj (own.symm.trans held)
        exact ⟨[], action, rest, rfl, handed,
          (token?_run_iff soundThen held (token_le_issued sound handed) rest).mp live⟩
    · exact (ih soundThen live held).cons

/-- A return names its key only, so one that comes too late, when the checkout for which it is made has
ended, changes nothing exactly if the key is not out again by then. If it is, the return is taken for that
of the later checkout, which it ends. -/
theorem late_return_changes_nothing_iff (config : Config) (clock : Clock) (timeKept : Bool)
    (before : List Action) (action : Action) (between : List Action) (lease : Lease) (consumed : Bool)
    (handed : ((new config clock timeKept).run before).handsOut? action = some lease)
    (past : ¬ OutSince ((new config clock timeKept).run (before ++ [action])) lease.key between) :
    let made := (new config clock timeKept).run (before ++ [action])
    let now := made.run between
    let late := now.step (.release lease.key consumed)
    (late = (now, .flag false) ↔ ∀ again, again.key = lease.key → ¬ MadeAndLive made between again) ∧
      ∀ again, again.key = lease.key → MadeAndLive made between again →
        lease.token < again.token ∧ now.assignment.pool.token? again.key = some again.token ∧
          late.2 = .flag true ∧
          Assignment.TakesBack now.assignment late.1.assignment again.key consumed := by
  intro made now late
  have sound := sound_run_new config clock timeKept before
  have held := token?_of_handsOut? sound handed
  have soundMade : made.assignment.Sound := sound_run_new config clock timeKept _
  have soundNow : now.assignment.Sound := sound_run soundMade between
  have madeEq : made = (((new config clock timeKept).run before).step action).1 := by
    simp only [made, run_append, run_cons, run_nil]
  rw [← madeEq] at held
  have given : lease.token ≤ made.assignment.pool.issued := madeEq ▸ token_le_issued sound handed
  have accepted : ∀ again, again.key = lease.key → MadeAndLive made between again →
      lease.token < again.token ∧ now.assignment.pool.token? again.key = some again.token ∧
        late.2 = .flag true ∧
        Assignment.TakesBack now.assignment late.1.assignment again.key consumed := by
    intro again own live
    obtain ⟨newer, liveNow⟩ := live.token? soundMade
    have out := Pool.isUsed_of_token? liveNow
    obtain ⟨yes, back⟩ := Assignment.takesBack_release soundNow out consumed
    refine ⟨by omega, liveNow, ?_, ?_⟩
    · simp only [late, step, ← own, yes]
    · simpa only [late, step, own] using back
  refine ⟨⟨?_, ?_⟩, accepted⟩
  · intro nothing again own live
    have yes := (accepted again own live).2.2.1
    rw [nothing] at yes
    cases yes
  · intro noOther
    have free : now.assignment.pool.isUsed lease.key = false := by
      refine (Pool.token?_eq_none_iff _ _).mp (Option.eq_none_iff_forall_ne_some.mpr fun token live => ?_)
      by_cases own : token = lease.token
      · subst own
        exact past ((token?_run_iff soundMade held given between).mp live)
      · refine noOther ⟨lease.key, token⟩ rfl (madeAndLive_of_token? soundMade live ?_)
        rw [held]
        exact fun same => own (Option.some.inj same).symm
    simp only [late, step, Assignment.release, free]
    rfl

/-- A millisecond after the clock began a sweep ends every checkout of that moment. -/
def sweepAtOne : List Action := [.setClock 1, .sweep Duration.zero []]

/-- The return of the swept checkout comes while nobody has the partition. -/
theorem late_return_of_idle_partition :
    let start := (new Config.default ⟨0⟩ true).run [.add sharedPartition]
    let now := ((new Config.default ⟨0⟩ true).run ([.add sharedPartition] ++ [.take])).run sweepAtOne
    start.handsOut? .take = some ⟨sharedPartition.key, 1⟩ ∧
      now.assignment.pool.idle = [sharedPartition.key] ∧
      now.step (.release sharedPartition.key true) = (now, .flag false) := by
  intro start now
  have handed : start.handsOut? .take = some ⟨sharedPartition.key, 1⟩ := by decide
  have none : now.assignment.pool.token? sharedPartition.key = none := by decide
  have past : ¬ OutSince ((new Config.default ⟨0⟩ true).run ([.add sharedPartition] ++ [.take]))
      sharedPartition.key sweepAtOne := by
    intro out
    have used := out.used sweepAtOne List.prefix_rfl
    exact absurd used (by decide)
  have late := late_return_changes_nothing_iff Config.default ⟨0⟩ true [.add sharedPartition] .take
    sweepAtOne ⟨sharedPartition.key, 1⟩ true handed past
  refine ⟨handed, by decide, late.1.mpr fun again own live => ?_⟩
  have held := (late.2 again own live).2.1
  rw [own] at held
  cases none.symm.trans held

/-- The return of the swept checkout comes while the partition is with its next consumer. It is accepted,
the next consumer's checkout ends, and the partition is marked as finished with and in line again. -/
theorem late_return_ends_second_checkout :
    let start := (new Config.default ⟨0⟩ true).run [.add sharedPartition]
    let swept := start.run (.take :: sweepAtOne)
    let now := swept.run [.take]
    let late := now.step (.release sharedPartition.key true)
    start.handsOut? .take = some ⟨sharedPartition.key, 1⟩ ∧
      swept.assignment.pool.isUsed sharedPartition.key = false ∧
      swept.handsOut? .take = some ⟨sharedPartition.key, 2⟩ ∧
      now.assignment.pool.token? sharedPartition.key = some 2 ∧
      now.assignment.marks sharedPartition = false ∧
      late.2 = .flag true ∧ late.1.assignment.pool.token? sharedPartition.key = none ∧
      late.1.assignment.pool.idle = [sharedPartition.key] ∧
      late.1.assignment.marks sharedPartition = true := by
  intro start swept now late
  have accepted : (now.assignment.release sharedPartition.key true).2 = true := by decide
  have reply : late.2 = .flag true := by simp only [late, step, accepted]
  exact ⟨by decide, by decide, by decide, by decide, by decide, reply, by decide, by decide, by decide⟩

end Cache

end PartitionLease

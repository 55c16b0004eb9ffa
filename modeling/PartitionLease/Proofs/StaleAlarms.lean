import PartitionLease.Proofs.CheckoutHistory

namespace PartitionLease

namespace Cache

/-- The checkouts made in a run, in order. -/
def handOuts (c : Cache) : List Action → List Lease
  | [] => []
  | action :: rest => (c.handsOut? action).toList ++ (c.step action).1.handOuts rest

/-- From the state `c` on a key has been checked out all along and has not been handed out again. -/
structure OutSince (c : Cache) (key : String) (actions : List Action) : Prop where
  used : ∀ past, past <+: actions → (c.run past).assignment.pool.isUsed key
  once : ∀ past action, past ++ [action] <+: actions → ∀ token,
    (c.run past).handsOut? action ≠ some ⟨key, token⟩

theorem handOuts_append (c : Cache) (first later : List Action) :
    c.handOuts (first ++ later) = c.handOuts first ++ (c.run first).handOuts later := by
  induction first generalizing c with
  | nil => rfl
  | cons action rest ih => rw [List.cons_append, handOuts, handOuts, ih, List.append_assoc, run_cons]

theorem handOuts_concat (c : Cache) (actions : List Action) (action : Action) :
    c.handOuts (actions ++ [action]) = c.handOuts actions ++ ((c.run actions).handsOut? action).toList := by
  rw [handOuts_append, handOuts, handOuts, List.append_nil]

theorem issued_run {c : Cache} (sound : c.assignment.Sound) (actions : List Action) :
    (c.run actions).assignment.pool.issued = c.assignment.pool.issued + (c.handOuts actions).length := by
  induction actions generalizing c with
  | nil => rfl
  | cons action rest ih =>
    have first := issued_step sound action
    have others := ih (sound_step sound action)
    rw [run_cons, others, first, handOuts, List.length_append]
    omega

/-- A number that has been given to a checkout is never given to another one, so a checkout that is not
live never becomes live again. -/
theorem token?_run_ne {c : Cache} (sound : c.assignment.Sound) {key : String} {token : Nat}
    (given : token ≤ c.assignment.pool.issued) (gone : c.assignment.pool.token? key ≠ some token)
    (actions : List Action) : (c.run actions).assignment.pool.token? key ≠ some token := by
  induction actions generalizing c with
  | nil => exact gone
  | cons action rest ih =>
    have issued := issued_step sound action
    have given' : token ≤ (c.step action).1.assignment.pool.issued := by omega
    refine ih (sound_step sound action) given' ?_
    cases checkoutStep sound action key with
    | kept same => rwa [same]
    | ended other held none way => simp [none]
    | made handed held =>
      rw [held]
      intro same
      have := Option.some.inj same
      omega

theorem OutSince.tail {c : Cache} {key : String} {action : Action} {rest : List Action}
    (out : OutSince c key (action :: rest)) : OutSince (c.step action).1 key rest where
  used := by
    intro past early
    exact out.used (action :: past) ((List.prefix_cons_inj action).mpr early)
  once := by
    intro past next early token
    exact out.once (action :: past) next ((List.prefix_cons_inj action).mpr early) token

theorem OutSince.token? {c : Cache} (sound : c.assignment.Sound) {key : String} {token : Nat}
    {actions : List Action} (out : OutSince c key actions)
    (held : c.assignment.pool.token? key = some token) :
    (c.run actions).assignment.pool.token? key = some token := by
  induction actions generalizing c with
  | nil => exact held
  | cons action rest ih =>
    refine ih (sound_step sound action) out.tail ?_
    cases checkoutStep sound action key with
    | kept same => exact same.trans held
    | ended other _ none way =>
      have still := out.used [action] (by simp)
      have free := (Pool.token?_eq_none_iff _ _).mp none
      rw [run_cons, run_nil, free] at still
      cases still
    | made handed _ => exact absurd handed (out.once [] action (by simp) _)

/-- The number of a checkout tells exactly whether it is live. -/
theorem token?_run_iff {c : Cache} (sound : c.assignment.Sound) {key : String} {token : Nat}
    (held : c.assignment.pool.token? key = some token) (given : token ≤ c.assignment.pool.issued)
    (actions : List Action) :
    (c.run actions).assignment.pool.token? key = some token ↔ OutSince c key actions := by
  refine ⟨fun live => ?_, fun out => out.token? sound held⟩
  have always : ∀ past, past <+: actions → (c.run past).assignment.pool.token? key = some token := by
    rintro past ⟨later, rfl⟩
    have soundPast := sound_run sound past
    have issued := issued_run sound past
    rw [run_append] at live
    refine Classical.byContradiction fun gone => ?_
    exact token?_run_ne soundPast (by omega) gone later live
  refine ⟨fun past early => Pool.isUsed_of_token? (always past early), ?_⟩
  intro past action early other handed
  have held := always past ((List.prefix_append past [action]).trans early)
  have free := (step_of_handsOut? (sound_run sound past) handed).2.2.1
  rw [Pool.isUsed_of_token? held] at free
  cases free

theorem expire_of_not_live {c : Cache} {lease : Lease}
    (stale : c.assignment.pool.token? lease.key ≠ some lease.token) : (c.step (.expire lease)).1 = c := by
  simp only [step, Assignment.expire, if_neg stale]

theorem expire_of_live {c : Cache} {lease : Lease}
    (live : c.assignment.pool.token? lease.key = some lease.token) :
    (c.step (.expire lease)).1.assignment.pool.token? lease.key = none := by
  have used := c.assignment.used_expire lease
  rw [if_pos live] at used
  simp only [step, Pool.token?, used, Std.ExtTreeMap.getElem?_erase_self, Option.map_none]

/-- Whenever the alarm of a checkout goes off, be it late or again, it changes nothing at all unless that
very checkout is live, however the checkout ended and however often its key was handed out since. Alarms
carry the number of the checkout that sets them, which is its place in the order of all checkouts. -/
theorem expire_changes_nothing_iff (config : Config) (clock : Clock) (timeKept : Bool)
    (before : List Action) (action : Action) (between : List Action) (lease : Lease)
    (handed : ((new config clock timeKept).run before).handsOut? action = some lease) :
    let made := (new config clock timeKept).run (before ++ [action])
    let now := made.run between
    ((now.step (.expire lease)).1 = now ↔ ¬ OutSince made lease.key between) ∧
      (∀ alarm ∈ made.assignment.pool.timers.armed,
        alarm ∈ ((new config clock timeKept).run before).assignment.pool.timers.armed ∨
          alarm.job = lease) ∧
      lease.token = ((new config clock timeKept).handOuts before).length + 1 := by
  have sound := sound_run_new config clock timeKept before
  have token := (step_of_handsOut? sound handed).1
  have held := token?_of_handsOut? sound handed
  have soundAfter := sound_step sound action
  have issued := issued_step sound action
  have issuedBefore := issued_run (sound_new config clock timeKept) before
  have given : lease.token ≤
      (((new config clock timeKept).run before).step action).1.assignment.pool.issued := by
    rw [issued, handed]
    simp [token]
  have live := token?_run_iff soundAfter held given between
  simp only [run_append, run_cons, run_nil]
  refine ⟨⟨?_, ?_⟩, ?_, ?_⟩
  · intro same out
    have ended := expire_of_live (live.mpr out)
    rw [same, live.mpr out] at ended
    cases ended
  · intro gone
    exact expire_of_not_live fun still => gone (live.mp still)
  · intro alarm armed
    refine (armed_step sound armed).imp_right fun own => ?_
    exact Option.some.inj (own.symm.trans handed)
  · rw [token, issuedBefore]
    simp [new]

/-- A partition to be handed out twice, and removed and made known again in between. -/
def sharedPartition : Partition := ⟨0, ⟨0, ⟨⟨1⟩, "10.0.0.1", 8123⟩⟩, "orders", 0⟩

def secondCheckout : List Action :=
  [.release sharedPartition.key true, .drop [sharedPartition.key], .add sharedPartition, .take]

/-- The alarm of the first checkout goes off while the second one of the same key is live. -/
theorem expire_spares_second_checkout :
    let start := (new Config.default ⟨0⟩ true).run [.add sharedPartition]
    let now := (new Config.default ⟨0⟩ true).run ([.add sharedPartition] ++ [.take]) |>.run secondCheckout
    start.handsOut? .take = some ⟨sharedPartition.key, 1⟩ ∧
      now.assignment.pool.token? sharedPartition.key = some 2 ∧
      (now.step (.expire ⟨sharedPartition.key, 1⟩)).1 = now := by
  have handed : ((new Config.default ⟨0⟩ true).run [.add sharedPartition]).handsOut? .take =
      some ⟨sharedPartition.key, 1⟩ := by decide
  have stale := expire_changes_nothing_iff Config.default ⟨0⟩ true [.add sharedPartition] .take
    secondCheckout ⟨sharedPartition.key, 1⟩ handed
  refine ⟨handed, by decide, stale.1.mpr fun out => ?_⟩
  have used := out.used [.release sharedPartition.key true] (by simp [secondCheckout])
  exact absurd used (by decide)

end Cache

end PartitionLease

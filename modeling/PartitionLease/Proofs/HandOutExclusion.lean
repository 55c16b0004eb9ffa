import PartitionLease.Proofs.CheckoutHistory

namespace PartitionLease

namespace Cache

/-- A run in which a checkout goes away has a step that ended it, up to which it was live. -/
theorem exists_ending {c : Cache} (sound : c.assignment.Sound) {lease : Lease} (actions : List Action)
    (held : c.assignment.pool.token? lease.key = some lease.token)
    (gone : (c.run actions).assignment.pool.token? lease.key ≠ some lease.token) :
    ∃ earlier ending later, actions = earlier ++ ending :: later ∧
      (c.run earlier).assignment.pool.token? lease.key = some lease.token ∧
      EndedBy (c.run earlier) lease ending ∧
      ((c.run earlier).step ending).1.assignment.pool.token? lease.key = none := by
  induction actions generalizing c with
  | nil => exact absurd held gone
  | cons action rest ih =>
    -- The first step either leaves the checkout, and then the ending is further on, or is the ending.
    have further (same : (c.step action).1.assignment.pool.token? lease.key = some lease.token) :
        ∃ earlier ending later, action :: rest = earlier ++ ending :: later ∧
          (c.run earlier).assignment.pool.token? lease.key = some lease.token ∧
          EndedBy (c.run earlier) lease ending ∧
          ((c.run earlier).step ending).1.assignment.pool.token? lease.key = none := by
      obtain ⟨earlier, ending, later, split, live, way, none⟩ := ih (sound_step sound action) same gone
      exact ⟨action :: earlier, ending, later, by rw [split]; rfl, live, way, none⟩
    cases checkoutStep sound action lease.key with
    | kept same => exact further (same.trans held)
    | ended token live none way =>
      have own : token = lease.token := Option.some.inj (live.symm.trans held)
      subst own
      exact ⟨[], action, rest, rfl, held, way, none⟩
    | made handed live =>
      have free := (step_of_handsOut? sound handed).2.2.1
      rw [Pool.isUsed_of_token? held] at free
      cases free

/-- Two hand-outs of one key do not overlap: a step between them ended the first checkout. So no checkout
is ever replaced by another, and since no unknown key is ever in line, a partition is handed out to
whoever asks unless the line is empty. -/
theorem handOuts_never_overlap (config : Config) (clock : Clock) (timeKept : Bool) :
    (∀ (before : List Action) (first : Action) (between : List Action) (second : Action)
        (lease again : Lease),
      ((new config clock timeKept).run before).handsOut? first = some lease →
      ((new config clock timeKept).run (before ++ first :: between)).handsOut? second = some again →
      again.key = lease.key →
      ∃ earlier ending later, between = earlier ++ ending :: later ∧
        let c := (new config clock timeKept).run (before ++ first :: earlier)
        c.assignment.pool.token? lease.key = some lease.token ∧ EndedBy c lease ending ∧
          (c.step ending).1.assignment.pool.isUsed lease.key = false) ∧
    ∀ actions : List Action,
      let c := (new config clock timeKept).run actions
      (∀ action, (c.step action).1.assignment.pool.issued =
        c.assignment.pool.issued + (c.handsOut? action).toList.length) ∧
      (∀ action lease, c.handsOut? action = some lease → c.assignment.pool.used[lease.key]? = none) ∧
      (∀ key ∈ c.assignment.pool.idle, c.assignment.registry.contains key) ∧
      ((c.step .take).2 = .partition none ↔ c.assignment.pool.idle = []) := by
  refine ⟨?_, ?_⟩
  · intro before first between second lease again handed handedAgain same
    have sound := sound_run_new config clock timeKept before
    have held := token?_of_handsOut? sound handed
    have soundAfter := sound_step sound first
    have soundSecond := sound_run_new config clock timeKept (before ++ first :: between)
    have free := (step_of_handsOut? soundSecond handedAgain).2.2.1
    simp only [run_append, run_cons] at free ⊢
    rw [same, ← Pool.token?_eq_none_iff] at free
    obtain ⟨earlier, ending, later, split, live, way, none⟩ :=
      exists_ending soundAfter between held (by rw [free]; simp)
    exact ⟨earlier, ending, later, split, live, way, (Pool.token?_eq_none_iff _ _).mp none⟩
  · intro actions
    have sound := sound_run_new config clock timeKept actions
    refine ⟨issued_step sound, ?_, sound.idle_known, ?_⟩
    · intro action lease handed
      have free := (step_of_handsOut? sound handed).2.2.1
      rwa [← Pool.token?_eq_none_iff, Pool.token?, Option.map_eq_none_iff] at free
    · cases line : ((new config clock timeKept).run actions).assignment.pool.idle with
      | nil => simp [step, sound.take_nil line]
      | cons key rest =>
        have known := sound.idle_known key (line ▸ List.mem_cons_self)
        rw [Registry.contains_eq_isSome_find?] at known
        obtain ⟨p, found⟩ := Option.isSome_iff_exists.mp known
        simp [step, sound.take_cons line, found]

end Cache

end PartitionLease

import PartitionLease.Proofs.AlarmOrder

namespace PartitionLease

namespace Keeper

variable {α : Type}

/-- An alarm that is held is still held after the operation, and no time has passed. -/
def Operation.Waits (timer : Nat) : Operation α → Prop
  | .attach _ _ other => other ≠ timer
  | .pass _ => False
  | _ => True

/-- In a run the time comes up to `due`, and before it does nothing displaces the alarm of the checkout. -/
def ComesDue (key : String) (token due : Nat) (k : Keeper α) (ops : List (Operation α)) : Prop :=
  ∃ mid millis later, ops = mid ++ .pass millis :: later ∧ due ≤ (k.run mid).pool.timers.now + millis ∧
    Never (Displaces key token) k mid

variable {k : Keeper α} {key : String} {token due : Nat} {alarm : Alarm α}

/-- The live checkout of that number has the alarm, which is still to come. -/
structure Carries (key : String) (token : Nat) (alarm : Alarm α) (k : Keeper α) : Prop where
  live : k.pool.token? key = some token
  taken : k.pool.timer? key = some alarm.id
  armed : alarm ∈ k.pool.timers.armed

/-- The number has been given to an alarm, which is no longer to come. -/
structure Gone (id : Nat) (k : Keeper α) : Prop where
  given : id < k.pool.timers.issued
  off : ∀ alarm ∈ k.pool.timers.armed, alarm.id ≠ id

theorem Gone.not_mem_yields (orderly : k.Orderly) (gone : Gone alarm.id k) (ops : List (Operation α)) :
    alarm ∉ k.yields goesOff ops := by
  intro off
  rcases orderly.setIn_of_mem_yields off with armed | done
  · exact gone.off alarm armed rfl
  · exact Nat.not_lt_of_le (orderly.le_of_setIn done).1 gone.given

theorem Orderly.timer?_ne_of_held (orderly : k.Orderly) {id : Nat} (held : id ∈ k.held) (key : String) :
    k.pool.timer? key ≠ some id := fun taken => (orderly.owned key id taken).2 held

/-- An alarm that is held stays so, and is still to come, until it is given away or time passes. -/
theorem Orderly.waiting_step (orderly : k.Orderly) {op : Operation α} (waits : op.Waits alarm.id)
    (armed : alarm ∈ k.pool.timers.armed) (held : alarm.id ∈ k.held) :
    alarm ∈ (k.step op).pool.timers.armed ∧ alarm.id ∈ (k.step op).held := by
  cases handling orderly.kept op with
  | sets lease job _ timers more =>
    rw [timers, more]
    exact ⟨Timers.mem_enqueue.mpr (Or.inr armed), List.mem_append_left _ held⟩
  | passes millis own =>
    rw [own] at waits
    exact waits.elim
  | ends key _ timers same =>
    rw [timers, same]
    exact ⟨Timers.mem_armed_cancelAny.mpr ⟨armed, orderly.timer?_ne_of_held held key⟩, held⟩
  | gives key token timer own _ timers fewer =>
    rw [own] at waits
    rw [timers, fewer]
    exact ⟨Timers.mem_armed_cancelAny.mpr ⟨armed, orderly.timer?_ne_of_held held key⟩,
      (List.mem_erase_of_ne (Ne.symm waits)).mpr held⟩
  | discards key token timer own _ _ timers fewer =>
    rw [own] at waits
    rw [timers, fewer]
    exact ⟨List.mem_filter.mpr ⟨armed, bne_iff_ne.mpr (Ne.symm waits)⟩,
      (List.mem_erase_of_ne (Ne.symm waits)).mpr held⟩
  | leaves _ _ timers same =>
    rw [timers, same]
    exact ⟨armed, held⟩

theorem Orderly.waiting_run (orderly : k.Orderly) {ops : List (Operation α)}
    (waits : ∀ op ∈ ops, op.Waits alarm.id) (armed : alarm ∈ k.pool.timers.armed) (held : alarm.id ∈ k.held) :
    alarm ∈ (k.run ops).pool.timers.armed ∧ alarm.id ∈ (k.run ops).held := by
  induction ops generalizing k with
  | nil => exact ⟨armed, held⟩
  | cons op rest ih =>
    obtain ⟨armedThen, heldThen⟩ := orderly.waiting_step (waits op List.mem_cons_self) armed held
    exact ih (orderly.step op) (fun other member => waits other (List.mem_cons_of_mem op member)) armedThen heldThen

theorem Operation.Waits.goesOff {op : Operation α} {timer : Nat} (waits : op.Waits timer) (k : Keeper α) :
    k.goesOff op = [] := by
  cases op with
  | pass millis => exact waits.elim
  | _ => rfl

theorem yields_of_waits {ops : List (Operation α)} {timer : Nat} (waits : ∀ op ∈ ops, op.Waits timer)
    (k : Keeper α) : k.yields goesOff ops = [] := by
  refine List.eq_nil_iff_forall_not_mem.mpr fun alarm off => ?_
  obtain ⟨before, op, after, rfl, member⟩ := mem_yields.mp off
  rw [(waits op (by simp)).goesOff] at member
  cases member

/-- The checkout of that number takes the alarm that is held, and a checkout of another number does not. -/
theorem Orderly.attach_of_held (orderly : k.Orderly) (armed : alarm ∈ k.pool.timers.armed)
    (held : alarm.id ∈ k.held) (key : String) (token : Nat) :
    if k.pool.token? key = some token then Carries key token alarm (k.step (.attach key token alarm.id))
    else Gone alarm.id (k.step (.attach key token alarm.id)) := by
  cases handling orderly.kept (.attach key token alarm.id) with
  | gives other number timer own _ timers _ live still taken =>
    obtain ⟨rfl, rfl, rfl⟩ := Operation.attach.inj own
    rw [if_pos live]
    exact ⟨still, taken, timers ▸ Timers.mem_armed_cancelAny.mpr ⟨armed, orderly.timer?_ne_of_held held key⟩⟩
  | discards other number timer own _ stale timers =>
    obtain ⟨rfl, rfl, rfl⟩ := Operation.attach.inj own
    rw [if_neg stale]
    constructor
    · rw [timers]
      exact orderly.given alarm.id held
    · rw [timers]
      exact fun other member => bne_iff_ne.mp (List.mem_filter.mp member).2
  | leaves _ calm => exact absurd ⟨held, rfl, rfl⟩ (calm key token)
  | sets _ _ own | passes _ own => cases own
  | ends _ own => rcases own with own | ⟨_, own⟩ <;> cases own

/-- A checkout keeps its alarm until that goes off or is displaced. -/
theorem Carries.step (carries : Carries key token alarm k) (orderly : k.Orderly) {op : Operation α}
    (calm : ¬ Displaces key token k op) (stays : alarm ∉ k.goesOff op) : Carries key token alarm (k.step op) := by
  obtain ⟨live, taken, armed⟩ := carries
  have same (unchanged : (k.step op).pool.used[key]? = k.pool.used[key]?) :
      (k.step op).pool.token? key = some token ∧ (k.step op).pool.timer? key = some alarm.id :=
    ⟨(Pool.token?_congr unchanged).trans live, (Pool.timer?_congr unchanged).trans taken⟩
  -- No other checkout has this alarm, so it does not go with one.
  have apart {other : String} (different : key ≠ other) : k.pool.timer? other ≠ some alarm.id :=
    fun also => different (orderly.alone key other alarm.id taken also)
  cases handling orderly.kept op with
  | sets lease job _ timers _ used =>
    obtain ⟨liveThen, takenThen⟩ := same (used key)
    exact ⟨liveThen, takenThen, timers ▸ Timers.mem_enqueue.mpr (Or.inr armed)⟩
  | passes millis own timers _ used =>
    obtain ⟨liveThen, takenThen⟩ := same (used key)
    rw [own] at stays
    refine ⟨liveThen, takenThen, ?_⟩
    rw [← k.goesOff_append_armed millis, List.mem_append] at armed
    exact own ▸ armed.resolve_left stays
  | ends other own timers _ _ others =>
    have different : key ≠ other := by
      rintro rfl
      rcases own with rfl | ⟨now, rfl⟩ <;> exact calm rfl
    obtain ⟨liveThen, takenThen⟩ := same (others key different)
    exact ⟨liveThen, takenThen, timers ▸ Timers.mem_armed_cancelAny.mpr ⟨armed, apart different⟩⟩
  | gives other number timer own waits timers _ owner _ _ others =>
    have different : key ≠ other := by
      rintro rfl
      rw [own] at calm
      exact calm ⟨waits, rfl, Option.some.inj (owner.symm.trans live)⟩
    obtain ⟨liveThen, takenThen⟩ := same (others key different)
    exact ⟨liveThen, takenThen, timers ▸ Timers.mem_armed_cancelAny.mpr ⟨armed, apart different⟩⟩
  | discards other number timer _ waits _ timers _ used =>
    obtain ⟨liveThen, takenThen⟩ := same (used key)
    -- What is thrown away was held, and so had no checkout as its owner.
    have different : alarm.id ≠ timer := fun own => orderly.timer?_ne_of_held waits key (own ▸ taken)
    exact ⟨liveThen, takenThen, timers ▸ List.mem_filter.mpr ⟨armed, bne_iff_ne.mpr different⟩⟩
  | leaves _ _ timers _ used =>
    obtain ⟨liveThen, takenThen⟩ := same (used key)
    exact ⟨liveThen, takenThen, timers ▸ armed⟩

/-- An alarm goes with the checkout that has it, or when that gets another one. -/
theorem Carries.gone (carries : Carries key token alarm k) (orderly : k.Orderly) {op : Operation α}
    (displaced : Displaces key token k op) : Gone alarm.id (k.step op) := by
  obtain ⟨live, taken, armed⟩ := carries
  have dropped (timers : (k.step op).pool.timers = k.pool.timers.cancelAny (k.pool.timer? key)) :
      Gone alarm.id (k.step op) := by
    constructor
    · rw [timers, Timers.issued_cancelAny]
      exact orderly.numbered alarm armed
    · rw [timers, taken]
      exact fun other member same => (Timers.mem_armed_cancelAny.mp member).2 (congrArg some same.symm)
  cases op with
  | release other | checkOut other now =>
    obtain rfl : other = key := displaced
    exact dropped rfl
  | attach other number timer =>
    obtain ⟨waits, rfl, rfl⟩ := displaced
    obtain ⟨checkout, -, -, attached⟩ := Pool.attach_of_live live timer
    refine dropped ?_
    rw [Keeper.step, if_pos waits, attached]
  | _ => exact displaced.elim

theorem comesDue_cons {op : Operation α} {rest : List (Operation α)} : ComesDue key token due k (op :: rest) ↔
    (∃ millis, op = .pass millis ∧ due ≤ k.pool.timers.now + millis) ∨
      ¬ Displaces key token k op ∧ ComesDue key token due (k.step op) rest := by
  constructor
  · rintro ⟨mid, millis, later, split, time, never⟩
    cases mid with
    | nil =>
      obtain ⟨rfl, -⟩ := List.cons.inj split
      exact Or.inl ⟨millis, rfl, time⟩
    | cons first mid =>
      obtain ⟨rfl, rfl⟩ := List.cons.inj split
      exact Or.inr ⟨never.1, mid, millis, later, rfl, time, never.2⟩
  · rintro (⟨millis, rfl, time⟩ | ⟨calm, mid, millis, later, rfl, time, never⟩)
    · exact ⟨[], millis, rest, rfl, time, trivial⟩
    · exact ⟨op :: mid, millis, later, rfl, time, calm, never⟩

/-- An alarm that a checkout has goes off if it comes due before it is displaced. -/
theorem Carries.mem_yields_iff (carries : Carries key token alarm k) (orderly : k.Orderly)
    (ops : List (Operation α)) : alarm ∈ k.yields goesOff ops ↔ ComesDue key token alarm.due k ops := by
  induction ops generalizing k with
  | nil => simp [yields, ComesDue]
  | cons op rest ih =>
    have now : alarm ∈ k.goesOff op ↔ ∃ millis, op = .pass millis ∧ alarm.due ≤ k.pool.timers.now + millis :=
      orderly.mem_goesOff.trans (and_iff_right carries.armed)
    rw [yields, List.mem_append, comesDue_cons, ← now]
    by_cases off : alarm ∈ k.goesOff op
    · exact iff_of_true (Or.inl off) (Or.inl off)
    · rw [or_iff_right off, or_iff_right off]
      by_cases displaced : Displaces key token k op
      · have gone := (carries.gone orderly displaced).not_mem_yields (orderly.step op) rest
        exact iff_of_false gone fun later => later.1 displaced
      · rw [and_iff_right displaced]
        exact ih (carries.step orderly displaced off) (orderly.step op)

/-- What becomes of an alarm that is set and then given away before time passes. -/
theorem Orderly.mem_yields_iff_of_attach (orderly : k.Orderly) {lease : Duration} {job : α}
    {between : List (Operation α)} (waits : ∀ op ∈ between, op.Waits (k.alarmFor lease job).id)
    (key : String) (token : Nat) (after : List (Operation α)) :
    let alarm := k.alarmFor lease job
    let l := k.run (.arm lease job :: between)
    alarm ∈ k.yields goesOff (.arm lease job :: between ++ .attach key token alarm.id :: after) ↔
      l.pool.token? key = some token ∧ ComesDue key token alarm.due (l.step (.attach key token alarm.id)) after := by
  intro alarm l
  have orderlyThen : l.Orderly := orderly.run _
  obtain ⟨armed, held⟩ : alarm ∈ l.pool.timers.armed ∧ alarm.id ∈ l.held := by
    refine (orderly.step (.arm lease job)).waiting_run waits ?_ ?_
    · rw [step_arm orderly.kept]
      exact Timers.mem_enqueue.mpr (Or.inl rfl)
    · rw [step_arm orderly.kept]
      exact List.mem_append_right _ (List.mem_singleton_self _)
  have given := orderlyThen.attach_of_held armed held key token
  have quiet : k.yields goesOff (.arm lease job :: between) = [] := yields_of_waits (by simpa [Operation.Waits]) k
  rw [yields_append, quiet, List.nil_append]
  by_cases live : l.pool.token? key = some token
  · rw [if_pos live] at given
    rw [and_iff_right live]
    exact given.mem_yields_iff (orderlyThen.step _) after
  · rw [if_neg live] at given
    exact iff_of_false (given.not_mem_yields (orderlyThen.step _) after) fun both => live both.1

/-- Alarms of a pool by itself go off in the order in which they are due, those that are due together in the order in
which they were set, and none goes off twice or without having been set. An alarm that is set for a lease and given to
the checkout of a key before time passes goes off exactly if that is the live checkout of the key at that moment, and
the time comes at which the alarm is due, and until then the checkout is not released or replaced and gets no other
alarm. To give an alarm to a checkout of another number, be it over or yet to be made, cancels it. -/
theorem alarm_goes_off_iff_still_owned (ops : List (Operation α)) :
    let start : Keeper α := new true
    let off := start.yields goesOff ops
    start.yields told ops = off.map (·.job) ∧
    (off.map (·.id)).Nodup ∧
    off.Pairwise (fun first second => first.due < second.due ∨ first.due = second.due ∧ first.id < second.id) ∧
    (∀ alarm ∈ off, start.SetIn ops alarm) ∧
    ∀ before lease job between key token after,
      let alarm := (start.run before).alarmFor lease job
      let k := start.run (before ++ .arm lease job :: between)
      ops = before ++ .arm lease job :: between ++ .attach key token alarm.id :: after →
      (∀ op ∈ between, op.Waits alarm.id) →
      ((start.run before).pool.arm lease job).2 = some alarm.id ∧ alarm.id = before.countP (·.isArm) ∧
      (alarm ∈ off ↔ k.pool.token? key = some token ∧
        ComesDue key token alarm.due (k.step (.attach key token alarm.id)) after) := by
  intro start off
  have orderly : start.Orderly := .new
  have order : off.Pairwise Alarm.Precedes := orderly.pairwise_yields ops
  refine ⟨?_, ?_, order.imp And.right, fun alarm member => ?_, ?_⟩
  · rw [map_yields]
    exact congrArg (start.yields · ops) (funext₂ told_eq_map)
  · exact List.pairwise_map.mpr (order.imp And.left)
  · exact (orderly.setIn_of_mem_yields member).resolve_left nofun
  · rintro before lease job between key token after alarm k split waits
    have orderlyThen := orderly.run before
    -- The number of the alarm is greater than those of all that went off before it was set.
    have new : alarm ∉ start.yields goesOff before := fun member =>
      Nat.lt_irrefl _ (orderly.id_lt_of_mem_yields member)
    refine ⟨?_, ?_, ?_⟩
    · rw [Pool.arm, Timers.arm_of_kept orderlyThen.kept]
      rfl
    · exact (orderly.issued_run before).trans (Nat.zero_add _)
    · have member : alarm ∈ off ↔ alarm ∈ (start.run before).yields goesOff
          (.arm lease job :: between ++ .attach key token alarm.id :: after) := by
        simp only [off, split]
        rw [List.append_assoc, yields_append, List.mem_append, or_iff_right new]
      have same : k = (start.run before).run (.arm lease job :: between) := start.run_append before _
      rw [member, same]
      exact orderlyThen.mem_yields_iff_of_attach waits key token after

example : (new true : Keeper String).yields told [.checkOut "a" 0, .arm (.ofMillis 5) "replaced", .attach "a" 1 0,
    .arm (.ofMillis 9) "first", .attach "a" 1 1, .arm (.ofMillis 3) "misplaced", .attach "a" 2 2, .checkOut "b" 0,
    .arm (.ofMillis 9) "second", .attach "b" 2 3, .pass 8, .pass 1] = ["first", "second"] := by decide

end Keeper

end PartitionLease

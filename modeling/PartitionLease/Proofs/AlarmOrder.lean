import PartitionLease.Proofs.CheckoutDeadlines
import PartitionLease.Proofs.StandAlonePool

namespace PartitionLease

namespace Alarm

variable {α : Type} {first second : Alarm α}

/-- Of two alarms the first goes off before the second: it is due sooner, or they are due together and it was set
before the second. -/
def Precedes (first second : Alarm α) : Prop :=
  first.id ≠ second.id ∧ (first.due < second.due ∨ first.due = second.due ∧ first.id < second.id)

theorem Precedes.due_le (order : first.Precedes second) : first.due ≤ second.due := by
  obtain ⟨-, sooner | ⟨together, -⟩⟩ := order
  · exact Nat.le_of_lt sooner
  · exact Nat.le_of_eq together

theorem precedes_of_id_lt (earlier : first.id < second.id) (order : first.due ≤ second.due) :
    first.Precedes second := by
  unfold Precedes
  omega

theorem pairwise_due_le {line : List (Alarm α)} (sorted : line.Pairwise Precedes) :
    line.Pairwise (·.due ≤ ·.due) := sorted.imp Precedes.due_le

/-- The alarm set last finds its place among the others. -/
theorem pairwise_enqueue {alarm : Alarm α} {line : List (Alarm α)} (sorted : line.Pairwise Precedes)
    (last : ∀ next ∈ line, next.id < alarm.id) : (alarm.enqueue line).Pairwise Precedes := by
  induction line with
  | nil => exact List.pairwise_singleton _ _
  | cons next rest ih =>
    have ahead := List.pairwise_cons.mp sorted
    have others (other : Alarm α) (member : other ∈ rest) : other.id < alarm.id :=
      last other (List.mem_cons_of_mem next member)
    unfold enqueue
    split
    · rename_i soon
      refine List.pairwise_cons.mpr ⟨fun other member => ?_, ih ahead.2 others⟩
      rcases Timers.mem_enqueue.mp member with rfl | old
      · exact precedes_of_id_lt (last next List.mem_cons_self) soon
      · exact ahead.1 other old
    · rename_i late
      refine List.pairwise_cons.mpr ⟨fun other member => ?_, sorted⟩
      have earlier := last other member
      have sooner : next.due ≤ other.due := by
        rcases List.mem_cons.mp member with rfl | old
        · exact Nat.le_refl _
        · exact (ahead.1 other old).due_le
      exact ⟨by omega, Or.inl (by omega)⟩

end Alarm

theorem Timers.mem_armed_cancelAny {α : Type} {t : Timers α} {timer : Option Nat} {alarm : Alarm α} :
    alarm ∈ (t.cancelAny timer).armed ↔ alarm ∈ t.armed ∧ timer ≠ some alarm.id := by
  cases timer with
  | none => simp [cancelAny]
  | some id => simp [cancelAny, cancel, @eq_comm _ id]

namespace Pool

variable {α : Type} {p q : Pool α} {key other : String}

/-- The alarm that the checkout of a key has. -/
def timer? (p : Pool α) (key : String) : Option Nat := p.used[key]?.bind (·.timer)

theorem timer?_congr (same : p.used[key]? = q.used[key]?) : p.timer? key = q.timer? key := by
  rw [timer?, timer?, same]

theorem timers_popIdle (p : Pool α) : p.popIdle.1.timers = p.timers := by
  unfold popIdle
  split <;> rfl

theorem timers_pushIdle (p : Pool α) (key : String) : (p.pushIdle key).1.timers = p.timers := by
  unfold pushIdle
  split <;> rfl

theorem getElem?_used_checkOut (p : Pool α) (now : UInt64) (apart : other ≠ key) :
    (p.checkOut key now).1.used[other]? = p.used[other]? := by
  rw [checkOut, Std.ExtTreeMap.getElem?_insert, if_neg]
  rw [Std.LawfulEqCmp.compare_eq_iff_eq]
  exact apart.symm

theorem getElem?_used_release (p : Pool α) (apart : other ≠ key) :
    (p.release key).1.used[other]? = p.used[other]? := by
  rw [release, Std.ExtTreeMap.getElem?_erase, if_neg]
  rw [Std.LawfulEqCmp.compare_eq_iff_eq]
  exact apart.symm

/-- The checkout of that number takes the alarm and drops the one that it had. -/
theorem attach_of_live {token : Nat} (live : p.token? key = some token) (timer : Nat) :
    ∃ checkout : Checkout, p.used[key]? = some checkout ∧ checkout.token = token ∧
      p.attach key token timer = { p with
        used := p.used.insert key { checkout with timer := some timer }
        timers := p.timers.cancelAny (p.timer? key) } := by
  obtain ⟨checkout, held, own⟩ := Option.map_eq_some_iff.mp live
  refine ⟨checkout, held, own, ?_⟩
  rw [attach, held]
  simp only [if_pos own, timer?, held, Option.bind_some]

theorem attach_of_stale {token : Nat} (stale : p.token? key ≠ some token) (timer : Nat) :
    p.attach key token timer = p.withTimers (p.timers.cancel timer) := by
  unfold attach
  split
  · rename_i checkout held
    rw [if_neg fun own => stale (by rw [token?, held, Option.map_some, own])]
  · rfl

end Pool

namespace Keeper

variable {α : Type}

/-- What the operations of a run yield, one after the other. -/
def yields {β : Type} (answer : Keeper α → Operation α → List β) : Keeper α → List (Operation α) → List β
  | _, [] => []
  | k, op :: rest => answer k op ++ yields answer (k.step op) rest

/-- What is told to be done while time passes. -/
def told (k : Keeper α) : Operation α → List α
  | .pass millis => (k.pool.pass (k.pool.timers.now + millis)).2
  | _ => []

/-- The alarms that go off while time passes. -/
def goesOff (k : Keeper α) : Operation α → List (Alarm α)
  | .pass millis => k.pool.timers.armed.takeWhile (·.due ≤ k.pool.timers.now + millis)
  | _ => []

/-- The alarm that is set now for a lease. -/
def alarmFor (k : Keeper α) (lease : Duration) (job : α) : Alarm α :=
  ⟨k.pool.timers.issued, k.pool.timers.now + lease.ceilMillis, job⟩

def Operation.isArm : Operation α → Bool
  | .arm _ _ => true
  | _ => false

/-- The operation ends the checkout of the key, replaces it, or gives it another alarm. -/
def Displaces (key : String) (token : Nat) (k : Keeper α) : Operation α → Prop
  | .release other | .checkOut other _ => other = key
  | .attach other number timer => timer ∈ k.held ∧ other = key ∧ number = token
  | _ => False

/-- The alarm is set in the run. -/
def SetIn (k : Keeper α) (ops : List (Operation α)) (alarm : Alarm α) : Prop :=
  ∃ before lease job after, ops = before ++ .arm lease job :: after ∧ alarm = (k.run before).alarmFor lease job

/-- All that an operation can do with alarms and their owners. -/
inductive Handling (k : Keeper α) (op : Operation α) : Prop
  | sets (lease : Duration) (job : α) (own : op = .arm lease job)
      (timers : (k.step op).pool.timers = { k.pool.timers with
        issued := k.pool.timers.issued + 1
        armed := (k.alarmFor lease job).enqueue k.pool.timers.armed })
      (held : (k.step op).held = k.held ++ [k.pool.timers.issued])
      (used : ∀ other : String, (k.step op).pool.used[other]? = k.pool.used[other]?)
  | passes (millis : Nat) (own : op = .pass millis)
      (timers : (k.step op).pool.timers = (k.pool.timers.pass (k.pool.timers.now + millis)).1)
      (held : (k.step op).held = k.held)
      (used : ∀ other : String, (k.step op).pool.used[other]? = k.pool.used[other]?)
  | ends (key : String) (own : op = .release key ∨ ∃ now, op = .checkOut key now)
      (timers : (k.step op).pool.timers = k.pool.timers.cancelAny (k.pool.timer? key))
      (held : (k.step op).held = k.held) (bare : (k.step op).pool.timer? key = none)
      (others : ∀ other : String, other ≠ key → (k.step op).pool.used[other]? = k.pool.used[other]?)
  | gives (key : String) (token timer : Nat) (own : op = .attach key token timer) (waits : timer ∈ k.held)
      (timers : (k.step op).pool.timers = k.pool.timers.cancelAny (k.pool.timer? key))
      (held : (k.step op).held = k.held.erase timer) (live : k.pool.token? key = some token)
      (still : (k.step op).pool.token? key = some token)
      (taken : (k.step op).pool.timer? key = some timer)
      (others : ∀ other : String, other ≠ key → (k.step op).pool.used[other]? = k.pool.used[other]?)
  | discards (key : String) (token timer : Nat) (own : op = .attach key token timer) (waits : timer ∈ k.held)
      (stale : k.pool.token? key ≠ some token)
      (timers : (k.step op).pool.timers = k.pool.timers.cancel timer)
      (held : (k.step op).held = k.held.erase timer)
      (used : ∀ other : String, (k.step op).pool.used[other]? = k.pool.used[other]?)
  | leaves (quiet : op.isArm = false) (calm : ∀ key token, ¬ Displaces key token k op)
      (timers : (k.step op).pool.timers = k.pool.timers) (held : (k.step op).held = k.held)
      (used : ∀ other : String, (k.step op).pool.used[other]? = k.pool.used[other]?)

variable {k : Keeper α} {alarm : Alarm α}

theorem step_arm (kept : k.pool.timers.kept) (lease : Duration) (job : α) : k.step (.arm lease job) =
    ⟨k.pool.withTimers { k.pool.timers with
        issued := k.pool.timers.issued + 1
        armed := (k.alarmFor lease job).enqueue k.pool.timers.armed }, k.held ++ [k.pool.timers.issued]⟩ := by
  rw [step, Pool.arm, Timers.arm_of_kept kept]
  rfl

theorem handling (kept : k.pool.timers.kept) (op : Operation α) : Handling k op := by
  cases op with
  | push key =>
    exact .leaves rfl (fun _ _ => id) (k.pool.timers_pushIdle key) rfl fun other =>
      congrArg (·[other]?) (k.pool.used_pushIdle key)
  | pop =>
    exact .leaves rfl (fun _ _ => id) k.pool.timers_popIdle rfl fun other => congrArg (·[other]?) k.pool.used_popIdle
  | remove key => exact .leaves rfl (fun _ _ => id) rfl rfl fun _ => rfl
  | checkOut key now =>
    refine .ends key (Or.inr ⟨now, rfl⟩) rfl rfl ?_ fun _ apart => k.pool.getElem?_used_checkOut now apart
    simp [step, withPool, Pool.checkOut, Pool.timer?]
  | release key =>
    refine .ends key (Or.inl rfl) rfl rfl ?_ fun _ apart => k.pool.getElem?_used_release apart
    simp [step, withPool, Pool.release, Pool.timer?]
  | arm lease job =>
    refine .sets lease job rfl ?_ ?_ fun _ => rfl
    · rw [step_arm kept]
      rfl
    · rw [step_arm kept]
  | pass millis => exact .passes millis rfl rfl rfl fun _ => rfl
  | attach key token timer =>
    by_cases waits : timer ∈ k.held
    · have given : k.step (.attach key token timer) =
          ⟨k.pool.attach key token timer, k.held.erase timer⟩ := if_pos waits
      by_cases live : k.pool.token? key = some token
      · obtain ⟨checkout, held, number, attached⟩ := Pool.attach_of_live live timer
        rw [attached] at given
        refine .gives key token timer rfl waits ?_ ?_ live ?_ ?_ fun other apart => ?_
        · rw [given]
        · rw [given]
        · simp [given, Pool.token?, number]
        · simp [given, Pool.timer?]
        · simp [given, Std.ExtTreeMap.getElem?_insert, apart.symm]
      · rw [Pool.attach_of_stale live] at given
        refine .discards key token timer rfl waits live ?_ ?_ fun other => ?_
        · rw [given]
          rfl
        · rw [given]
        · rw [given]
          rfl
    · have same : k.step (.attach key token timer) = k := if_neg waits
      refine .leaves rfl (fun _ _ displaced => waits displaced.1) ?_ ?_ fun other => ?_
      · rw [same]
      · rw [same]
      · rw [same]

/-- What is known of the alarms of a pool by itself. They are in order, and each is held or has one checkout as its
owner, if it has not gone off or been cancelled. -/
structure Orderly (k : Keeper α) : Prop where
  kept : k.pool.timers.kept
  sorted : k.pool.timers.armed.Pairwise Alarm.Precedes
  numbered : ∀ alarm ∈ k.pool.timers.armed, alarm.id < k.pool.timers.issued
  given : ∀ timer ∈ k.held, timer < k.pool.timers.issued
  once : k.held.Nodup
  owned : ∀ key timer, k.pool.timer? key = some timer → timer < k.pool.timers.issued ∧ timer ∉ k.held
  alone : ∀ key other timer, k.pool.timer? key = some timer → k.pool.timer? other = some timer → key = other

namespace Orderly

theorem new : (new true : Keeper α).Orderly where
  kept := rfl
  sorted := List.Pairwise.nil
  numbered := nofun
  given := nofun
  once := List.nodup_nil
  owned := by simp [Keeper.new, Pool.timer?]
  alone := by simp [Keeper.new, Pool.timer?]

/-- Fewer alarms and fewer owners are in order as well. -/
theorem fewer {l : Keeper α} (orderly : k.Orderly) (kept : l.pool.timers.kept = k.pool.timers.kept)
    (issued : l.pool.timers.issued = k.pool.timers.issued)
    (armed : l.pool.timers.armed.Sublist k.pool.timers.armed) (held : l.held.Sublist k.held)
    (owners : ∀ key timer, l.pool.timer? key = some timer → k.pool.timer? key = some timer) : l.Orderly where
  kept := kept.trans orderly.kept
  sorted := orderly.sorted.sublist armed
  numbered := fun alarm member => issued ▸ orderly.numbered alarm (armed.subset member)
  given := fun timer member => issued ▸ orderly.given timer (held.subset member)
  once := orderly.once.sublist held
  owned := by
    intro key timer taken
    obtain ⟨earlier, away⟩ := orderly.owned key timer (owners key timer taken)
    exact ⟨issued ▸ earlier, fun member => away (held.subset member)⟩
  alone := fun key other timer taken also => orderly.alone key other timer (owners _ _ taken) (owners _ _ also)

/-- An alarm that is set has a number that no other alarm has. -/
theorem sets {l : Keeper α} (orderly : k.Orderly) {lease : Duration} {job : α}
    (timers : l.pool.timers = { k.pool.timers with
      issued := k.pool.timers.issued + 1
      armed := (k.alarmFor lease job).enqueue k.pool.timers.armed })
    (held : l.held = k.held ++ [k.pool.timers.issued])
    (owners : ∀ key, l.pool.timer? key = k.pool.timer? key) : l.Orderly where
  kept := by
    rw [timers]
    exact orderly.kept
  sorted := by
    rw [timers]
    exact Alarm.pairwise_enqueue orderly.sorted orderly.numbered
  numbered := by
    rw [timers]
    intro alarm armed
    rcases Timers.mem_enqueue.mp armed with rfl | old
    · exact Nat.lt_succ_self _
    · exact Nat.lt_succ_of_lt (orderly.numbered alarm old)
  given := by
    rw [timers, held]
    intro timer member
    rcases List.mem_append.mp member with old | new
    · exact Nat.lt_succ_of_lt (orderly.given timer old)
    · exact Nat.lt_succ_of_le (Nat.le_of_eq (List.mem_singleton.mp new))
  once := by
    rw [held]
    refine orderly.once.append (List.nodup_singleton _) (List.disjoint_singleton.mpr fun member => ?_)
    exact Nat.lt_irrefl _ (orderly.given _ member)
  owned := by
    intro key timer taken
    rw [owners] at taken
    obtain ⟨earlier, away⟩ := orderly.owned key timer taken
    rw [timers, held, List.mem_append, List.mem_singleton]
    exact ⟨Nat.lt_succ_of_lt earlier, fun either => either.elim away (Nat.ne_of_lt earlier)⟩
  alone := by
    simp only [owners]
    exact orderly.alone

/-- An alarm that was held, and now has an owner, has no other one. -/
theorem gives {l : Keeper α} (orderly : k.Orderly) {key : String} {timer : Nat} (waits : timer ∈ k.held)
    (timers : l.pool.timers = k.pool.timers.cancelAny (k.pool.timer? key)) (held : l.held = k.held.erase timer)
    (owner : ∀ other id, l.pool.timer? other = some id →
      other = key ∧ id = timer ∨ k.pool.timer? other = some id) : l.Orderly where
  kept := by
    rw [timers, Timers.kept_cancelAny]
    exact orderly.kept
  sorted := by
    rw [timers]
    exact orderly.sorted.sublist (Timers.armed_cancelAny_sublist _ _)
  numbered := by
    rw [timers, Timers.issued_cancelAny]
    exact fun alarm armed => orderly.numbered alarm (Timers.mem_armed_cancelAny.mp armed).1
  given := by
    rw [timers, Timers.issued_cancelAny, held]
    exact fun other member => orderly.given other (List.mem_of_mem_erase member)
  once := by
    rw [held]
    exact orderly.once.erase timer
  owned := by
    intro other id now
    rw [timers, Timers.issued_cancelAny, held, orderly.once.mem_erase_iff]
    rcases owner other id now with ⟨-, rfl⟩ | before
    · exact ⟨orderly.given id waits, fun member => member.1 rfl⟩
    · obtain ⟨earlier, away⟩ := orderly.owned other id before
      exact ⟨earlier, fun member => away member.2⟩
  alone := by
    intro first second id now also
    rcases owner first id now with ⟨rfl, rfl⟩ | before <;>
      rcases owner second id also with ⟨rfl, same⟩ | beforeToo
    · rfl
    · exact absurd waits (orderly.owned second id beforeToo).2
    · exact absurd (same ▸ waits) (orderly.owned first id before).2
    · exact orderly.alone first second id before beforeToo

theorem step (orderly : k.Orderly) (op : Operation α) : (k.step op).Orderly := by
  cases handling orderly.kept op with
  | sets lease job _ timers held used =>
    exact orderly.sets timers held fun key => Pool.timer?_congr (used key)
  | passes millis _ timers held used =>
    refine orderly.fewer (by rw [timers]; rfl) (by rw [timers]; rfl) ?_ (by rw [held]) ?_
    · rw [timers]
      exact List.dropWhile_sublist _
    · exact fun key _ => (Pool.timer?_congr (used key)).symm.trans
  | ends key _ timers held bare others =>
    refine orderly.fewer (by simp [timers]) (by simp [timers]) ?_ (by rw [held]) fun other timer taken => ?_
    · rw [timers]
      exact Timers.armed_cancelAny_sublist _ _
    · by_cases own : other = key
      · rw [own, bare] at taken
        cases taken
      · rwa [Pool.timer?_congr (others other own)] at taken
  | gives key token timer _ waits timers held _ _ taken others =>
    refine orderly.gives waits timers held fun other id now => ?_
    by_cases own : other = key
    · rw [own, taken] at now
      exact Or.inl ⟨own, (Option.some.inj now).symm⟩
    · exact Or.inr ((Pool.timer?_congr (others other own)).symm.trans now)
  | discards key token timer _ _ _ timers held used =>
    refine orderly.fewer (by rw [timers]; rfl) (by rw [timers]; rfl) ?_ ?_ ?_
    · rw [timers]
      exact List.filter_sublist
    · rw [held]
      exact List.erase_sublist
    · exact fun key _ => (Pool.timer?_congr (used key)).symm.trans
  | leaves _ _ timers held used =>
    refine orderly.fewer (by rw [timers]) (by rw [timers]) (by rw [timers]) (by rw [held]) ?_
    exact fun key _ => (Pool.timer?_congr (used key)).symm.trans

theorem run (orderly : k.Orderly) (ops : List (Operation α)) : (k.run ops).Orderly := by
  induction ops generalizing k with
  | nil => exact orderly
  | cons op rest ih => exact ih (orderly.step op)

end Orderly

section Log

variable {β γ : Type} {answer : Keeper α → Operation α → List β}

theorem yields_append (k : Keeper α) (first later : List (Operation α)) :
    k.yields answer (first ++ later) = k.yields answer first ++ (k.run first).yields answer later := by
  induction first generalizing k with
  | nil => rfl
  | cons op rest ih => rw [List.cons_append, yields, yields, ih, List.append_assoc, run_cons]

theorem mem_yields {entry : β} {ops : List (Operation α)} : entry ∈ k.yields answer ops ↔
    ∃ before op after, ops = before ++ op :: after ∧ entry ∈ answer (k.run before) op := by
  induction ops generalizing k with
  | nil => simp [yields]
  | cons op rest ih =>
    rw [yields, List.mem_append, ih]
    constructor
    · rintro (first | ⟨before, other, after, rfl, later⟩)
      · exact ⟨[], op, rest, rfl, first⟩
      · exact ⟨op :: before, other, after, rfl, later⟩
    · rintro ⟨before, other, after, split, member⟩
      cases before with
      | nil =>
        obtain ⟨rfl, -⟩ := List.cons.inj split
        exact Or.inl member
      | cons first before =>
        obtain ⟨rfl, rfl⟩ := List.cons.inj split
        exact Or.inr ⟨before, other, after, rfl, member⟩

theorem map_yields (f : β → γ) (k : Keeper α) (ops : List (Operation α)) :
    (k.yields answer ops).map f = k.yields (fun k op => (answer k op).map f) ops := by
  induction ops generalizing k with
  | nil => rfl
  | cons op rest ih => rw [yields, List.map_append, ih, yields]

end Log

theorem told_eq_map (k : Keeper α) (op : Operation α) : k.told op = (k.goesOff op).map (·.job) := by
  cases op <;> rfl

theorem Orderly.mem_goesOff (orderly : k.Orderly) {op : Operation α} : alarm ∈ k.goesOff op ↔
    alarm ∈ k.pool.timers.armed ∧ ∃ millis, op = .pass millis ∧ alarm.due ≤ k.pool.timers.now + millis := by
  cases op with
  | pass millis =>
    rw [goesOff, Alarm.mem_takeWhile_due (Alarm.pairwise_due_le orderly.sorted)]
    simp
  | _ => simp [goesOff]

/-- What goes off is the first of what was to come. -/
theorem goesOff_append_armed (k : Keeper α) (millis : Nat) :
    k.goesOff (.pass millis) ++ (k.step (.pass millis)).pool.timers.armed = k.pool.timers.armed :=
  List.takeWhile_append_dropWhile

/-- Alarms are numbered in the order in which they are set. -/
theorem issued_step (kept : k.pool.timers.kept) (op : Operation α) :
    (k.step op).pool.timers.issued = k.pool.timers.issued + [op].countP (·.isArm) := by
  cases handling kept op with
  | sets lease job own timers =>
    rw [timers, own]
    rfl
  | passes millis own timers =>
    rw [timers, own]
    rfl
  | ends key own timers =>
    rw [timers, Timers.issued_cancelAny]
    rcases own with rfl | ⟨now, rfl⟩ <;> rfl
  | gives key token timer own _ timers =>
    rw [timers, Timers.issued_cancelAny, own]
    rfl
  | discards key token timer own _ _ timers =>
    rw [timers, own]
    rfl
  | leaves quiet _ timers =>
    rw [timers, List.countP_singleton, quiet]
    rfl

theorem Orderly.issued_run (orderly : k.Orderly) (ops : List (Operation α)) :
    (k.run ops).pool.timers.issued = k.pool.timers.issued + ops.countP (·.isArm) := by
  induction ops generalizing k with
  | nil => rfl
  | cons op rest ih =>
    rw [run_cons, ih (orderly.step op), issued_step orderly.kept, Nat.add_assoc, ← List.countP_append]
    rfl

theorem now_step (kept : k.pool.timers.kept) (op : Operation α) :
    k.pool.timers.now ≤ (k.step op).pool.timers.now := by
  cases handling kept op with
  | passes millis _ timers =>
    rw [timers]
    exact Nat.le_max_left _ _
  | sets _ _ _ timers | discards _ _ _ _ _ _ timers | leaves _ _ timers =>
    exact Nat.le_of_eq (congrArg Timers.now timers).symm
  | ends _ _ timers | gives _ _ _ _ _ timers =>
    exact Nat.le_of_eq ((congrArg Timers.now timers).trans (Timers.now_cancelAny _ _)).symm

theorem Orderly.now_run (orderly : k.Orderly) (ops : List (Operation α)) :
    k.pool.timers.now ≤ (k.run ops).pool.timers.now := by
  induction ops generalizing k with
  | nil => exact Nat.le_refl _
  | cons op rest ih => exact Nat.le_trans (now_step orderly.kept op) (ih (orderly.step op))

/-- An alarm that is to come was to come before, or has just been set. -/
theorem armed_step (kept : k.pool.timers.kept) {op : Operation α} (armed : alarm ∈ (k.step op).pool.timers.armed) :
    alarm ∈ k.pool.timers.armed ∨ ∃ lease job, op = .arm lease job ∧ alarm = k.alarmFor lease job := by
  cases handling kept op with
  | sets lease job own timers =>
    rw [timers] at armed
    rcases Timers.mem_enqueue.mp armed with new | old
    · exact Or.inr ⟨lease, job, own, new⟩
    · exact Or.inl old
  | passes millis _ timers =>
    rw [timers] at armed
    exact Or.inl ((List.dropWhile_sublist _).subset armed)
  | ends _ _ timers | gives _ _ _ _ _ timers =>
    rw [timers] at armed
    exact Or.inl (Timers.mem_armed_cancelAny.mp armed).1
  | discards key token timer _ _ _ timers =>
    rw [timers] at armed
    exact Or.inl (List.mem_of_mem_filter armed)
  | leaves _ _ timers =>
    rw [timers] at armed
    exact Or.inl armed

theorem SetIn.append {ops : List (Operation α)} (done : k.SetIn ops alarm) (later : List (Operation α)) :
    k.SetIn (ops ++ later) alarm := by
  obtain ⟨before, lease, job, after, rfl, made⟩ := done
  exact ⟨before, lease, job, after ++ later, by simp, made⟩

theorem Orderly.le_of_setIn (orderly : k.Orderly) {ops : List (Operation α)} (done : k.SetIn ops alarm) :
    k.pool.timers.issued ≤ alarm.id ∧ k.pool.timers.now ≤ alarm.due := by
  obtain ⟨before, lease, job, after, -, rfl⟩ := done
  have issued := orderly.issued_run before
  exact ⟨by rw [alarmFor, issued]; exact Nat.le_add_right _ _, Nat.le_add_right_of_le (orderly.now_run before)⟩

theorem Orderly.armed_run (orderly : k.Orderly) {ops : List (Operation α)}
    (armed : alarm ∈ (k.run ops).pool.timers.armed) : alarm ∈ k.pool.timers.armed ∨ k.SetIn ops alarm := by
  induction ops using List.reverseRecOn with
  | nil => exact Or.inl armed
  | append_singleton ops op ih =>
    rw [run_append] at armed
    rcases armed_step (orderly.run ops).kept armed with old | ⟨lease, job, rfl, made⟩
    · exact (ih old).imp_right fun done => done.append [op]
    · exact Or.inr ⟨ops, lease, job, [], rfl, made⟩

/-- What goes off in a run was to come at its beginning, or is set in it. -/
theorem Orderly.setIn_of_mem_yields (orderly : k.Orderly) {ops : List (Operation α)}
    (off : alarm ∈ k.yields goesOff ops) : alarm ∈ k.pool.timers.armed ∨ k.SetIn ops alarm := by
  obtain ⟨before, op, after, rfl, member⟩ := mem_yields.mp off
  have armed := ((orderly.run before).mem_goesOff.mp member).1
  exact (orderly.armed_run armed).imp_right fun done => done.append (op :: after)

theorem Orderly.id_lt_of_mem_yields (orderly : k.Orderly) {ops : List (Operation α)}
    (off : alarm ∈ k.yields goesOff ops) : alarm.id < (k.run ops).pool.timers.issued := by
  obtain ⟨before, op, after, rfl, member⟩ := mem_yields.mp off
  have between := orderly.run before
  have earlier := between.numbered alarm (between.mem_goesOff.mp member).1
  rw [run_append, between.issued_run]
  exact Nat.lt_add_right _ earlier

/-- Alarms go off in order. -/
theorem Orderly.pairwise_yields (orderly : k.Orderly) (ops : List (Operation α)) :
    (k.yields goesOff ops).Pairwise Alarm.Precedes := by
  induction ops generalizing k with
  | nil => exact List.Pairwise.nil
  | cons op rest ih =>
    have next := orderly.step op
    refine List.pairwise_append.mpr ⟨?_, ih next, fun first now second later => ?_⟩
    · cases op with
      | pass millis => exact orderly.sorted.sublist (List.takeWhile_sublist _)
      | _ => exact List.Pairwise.nil
    · obtain ⟨armed, millis, rfl, due⟩ := orderly.mem_goesOff.mp now
      rcases next.setIn_of_mem_yields later with left | done
      · have line : (k.goesOff (.pass millis) ++ (k.step (.pass millis)).pool.timers.armed).Pairwise
            Alarm.Precedes := by
          rw [goesOff_append_armed]
          exact orderly.sorted
        exact (List.pairwise_append.mp line).2.2 first now second left
      -- An alarm that is set afterwards has a greater number and is not due before the time that has come.
      · obtain ⟨issued, time⟩ := next.le_of_setIn done
        have passed : k.pool.timers.now + millis ≤ (k.step (.pass millis)).pool.timers.now :=
          Nat.le_max_right _ _
        have earlier : first.id < (k.step (.pass millis)).pool.timers.issued := orderly.numbered first armed
        exact Alarm.precedes_of_id_lt (by omega) (by omega)

end Keeper

end PartitionLease

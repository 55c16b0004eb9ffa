import Mathlib.Data.List.Basic
import PartitionLease.Assignment.Expiry
import PartitionLease.Assignment.HandOut
import PartitionLease.Assignment.Registration
import PartitionLease.Proofs.RegistryAgreement

namespace PartitionLease

namespace Pool

variable {α : Type}

@[simp] theorem used_pushIdle (p : Pool α) (key : String) : (p.pushIdle key).1.used = p.used := by
  unfold pushIdle
  split <;> rfl

@[simp] theorem issued_pushIdle (p : Pool α) (key : String) : (p.pushIdle key).1.issued = p.issued := by
  unfold pushIdle
  split <;> rfl

theorem idle_pushIdle {p : Pool α} {key : String} (absent : key ∉ p.idle) :
    (p.pushIdle key).1.idle = p.idle ++ [key] := by
  have out : p.isIdle key = false := by simpa [isIdle] using absent
  simp [pushIdle, out, withIdle]

theorem isUsed_eq_isSome_token? (p : Pool α) (key : String) : p.isUsed key = (p.token? key).isSome := by
  rw [isUsed, token?, Option.isSome_map, Std.ExtTreeMap.contains_eq_isSome_getElem?]

theorem isUsed_of_token? {p : Pool α} {key : String} {token : Nat} (held : p.token? key = some token) :
    p.isUsed key := by
  rw [isUsed_eq_isSome_token?, held]
  rfl

theorem token?_eq_none_iff (p : Pool α) (key : String) : p.token? key = none ↔ p.isUsed key = false := by
  rw [isUsed_eq_isSome_token?, Option.isSome_eq_false_iff, Option.isNone_iff_eq_none]

theorem token?_congr {p q : Pool α} {key : String} (same : p.used[key]? = q.used[key]?) :
    p.token? key = q.token? key := by
  simp only [token?, same]

theorem erase_used_of_not_isUsed {p : Pool α} {key : String} (free : p.isUsed key = false) :
    p.used.erase key = p.used := by
  apply Std.ExtTreeMap.ext_getElem?
  intro k
  rw [Std.ExtTreeMap.getElem?_erase]
  split
  · rename_i same
    rw [Std.LawfulEqCmp.compare_eq_iff_eq] at same
    subst same
    rw [isUsed, Std.ExtTreeMap.contains_eq_isSome_getElem?, Option.isSome_eq_false_iff] at free
    exact (Option.isNone_iff_eq_none.mp free).symm
  · rfl

/-- Taking the first in line out of the line before it is checked out changes nothing: checking out does
it anyway. -/
theorem checkOut_withIdle {p : Pool α} {key : String} {rest : List String} (line : p.idle = key :: rest)
    (once : key ∉ rest) (now : UInt64) : (p.withIdle rest).checkOut key now = p.checkOut key now := by
  have erased : rest.erase key = p.idle.erase key := by
    rw [line, List.erase_cons_head, List.erase_of_not_mem once]
  simp [checkOut, withIdle, erased]

/-- A new checkout, which has no alarm, takes the one it is given, and nothing else changes. -/
theorem attach_new {p : Pool α} {key : String} {used : Std.ExtTreeMap String Checkout} {now : UInt64}
    {token : Nat} (new : p.used = used.insert key ⟨now, token, none⟩) (timer : Nat) :
    p.attach key token timer = { p with used := used.insert key ⟨now, token, some timer⟩ } := by
  have bare : p.used[key]? = some ⟨now, token, none⟩ := by
    rw [new, Std.ExtTreeMap.getElem?_insert_self]
  have again : p.used.insert key ⟨now, token, some timer⟩ = used.insert key ⟨now, token, some timer⟩ := by
    apply Std.ExtTreeMap.ext_getElem?
    intro k
    simp only [new, Std.ExtTreeMap.getElem?_insert]
    split <;> rfl
  simp [attach, bare, again, Timers.cancelAny]

/-- Which alarm a checkout made now gets. -/
def nextAlarm (p : Pool α) (lease? : Option Duration) : Option Nat :=
  if p.timers.kept then lease?.map fun _ => p.timers.issued else none

end Pool

namespace Timers

variable {α : Type}

@[simp] theorem kept_cancelAny (t : Timers α) (timer : Option Nat) : (t.cancelAny timer).kept = t.kept := by
  cases timer <;> rfl

@[simp] theorem issued_cancelAny (t : Timers α) (timer : Option Nat) :
    (t.cancelAny timer).issued = t.issued := by
  cases timer <;> rfl

theorem arm_of_kept {t : Timers α} (kept : t.kept) (lease : Duration) (job : α) :
    t.arm lease job = ({ t with
      issued := t.issued + 1
      armed := Alarm.enqueue ⟨t.issued, t.now + lease.ceilMillis, job⟩ t.armed }, some t.issued) := by
  rw [arm, if_pos kept]

theorem mem_enqueue {alarm next : Alarm α} {line : List (Alarm α)} :
    next ∈ alarm.enqueue line ↔ next = alarm ∨ next ∈ line := by
  induction line with
  | nil => simp [Alarm.enqueue]
  | cons first rest ih =>
    unfold Alarm.enqueue
    split
    · simp only [List.mem_cons, ih]
      exact or_left_comm
    · simp

theorem armed_arm {t : Timers α} {lease : Duration} {job : α} {alarm : Alarm α}
    (armed : alarm ∈ (t.arm lease job).1.armed) : alarm ∈ t.armed ∨ alarm.job = job := by
  unfold arm at armed
  split at armed
  · rcases mem_enqueue.mp armed with rfl | old
    · exact Or.inr rfl
    · exact Or.inl old
  · exact Or.inl armed

/-- What goes off next is due and was first in line, and time has come up to it. -/
theorem next?_eq_some {t later : Timers α} {limit : Nat} {alarm : Alarm α}
    (found : t.next? limit = some (alarm, later)) : alarm.due ≤ limit ∧ t.armed = alarm :: later.armed ∧
      later = { t with now := max t.now alarm.due, armed := later.armed } := by
  unfold next? at found
  split at found
  · cases found
  · rename_i line
    split at found <;> cases found
    exact ⟨‹_›, line, rfl⟩

end Timers

namespace Assignment

@[simp] theorem pool_publish (a : Assignment) : a.publish.pool = a.pool := rfl

@[simp] theorem pool_withFigures (a : Assignment) (figures : AllocationFigures) :
    (a.withFigures figures).pool = a.pool := rfl

@[simp] theorem pool_recordReclaimed (a : Assignment) (reason : ReclaimReason) :
    (a.recordReclaimed reason).pool = a.pool := rfl

@[simp] theorem pool_mark (a : Assignment) (p : Partition) (consumed : Bool) :
    (a.mark p consumed).pool = a.pool := rfl

@[simp] theorem pool_withRegistry (a : Assignment) (registry : Registry) :
    (a.withRegistry registry).pool = a.pool := rfl

@[simp] theorem registry_markKey (a : Assignment) (key : String) (consumed : Bool) :
    (a.markKey key consumed).registry = a.registry := by
  unfold markKey
  split <;> rfl

@[simp] theorem used_vacate (a : Assignment) (key : String) (requeue : Bool) :
    (a.vacate key requeue).1.pool.used = a.pool.used.erase key := by
  unfold vacate
  simp only [withPool]
  split
  · rw [Pool.used_pushIdle]
    rfl
  · rfl

@[simp] theorem issued_vacate (a : Assignment) (key : String) (requeue : Bool) :
    (a.vacate key requeue).1.pool.issued = a.pool.issued := by
  unfold vacate
  simp only [withPool]
  split
  · rw [Pool.issued_pushIdle]
    rfl
  · rfl

/-- A vacated key that is queued again is last in line. -/
theorem idle_vacate {a : Assignment} (once : a.pool.idle.Nodup) (key : String) (requeue : Bool) :
    (a.vacate key requeue).1.pool.idle =
      a.pool.idle.erase key ++ if requeue && a.registry.contains key then [key] else [] := by
  have absent : key ∉ (a.pool.release key).1.idle := once.not_mem_erase
  unfold vacate
  simp only [withPool]
  split
  · rw [Pool.idle_pushIdle absent]
    rfl
  · rw [List.append_nil]
    rfl

@[simp] theorem used_forget (a : Assignment) (key : String) :
    (a.forget key).1.pool.used = a.pool.used.erase key := rfl

@[simp] theorem idle_forget (a : Assignment) (key : String) :
    (a.forget key).1.pool.idle = a.pool.idle.erase key := rfl

/-- Removes one key and counts it if it was known. -/
def dropOne (state : Assignment × Nat) (key : String) : Assignment × Nat :=
  let (a, forgotten) := state.1.forget key
  (a, state.2 + forgotten.toList.length)

theorem drop_eq (a : Assignment) (keys : List String) : a.drop keys =
    let (a, count) := keys.foldl dropOne (a, 0)
    let a := a.publish
    (a.withFigures (a.figures.recordRemoved RemovalMode.admin.label count), count) := by
  unfold drop
  rw [List.foldl_ext _ dropOne (a, 0)]
  rintro ⟨before, count⟩ key -
  simp only [dropOne]
  cases before.forget key with
  | mk after forgotten => cases forgotten <;> rfl

section CheckOut

variable (a : Assignment) (key : String) (now : UInt64) (lease? : Option Duration)

/-- Whether the checkout gets an alarm or not, the pool is the one in which it was made with its alarm. -/
theorem pool_checkOut : (a.checkOut key now lease?).pool = {
    idle := a.pool.idle.erase key
    used := a.pool.used.insert key ⟨now, a.pool.issued + 1, a.pool.nextAlarm lease?⟩
    issued := a.pool.issued + 1
    timers :=
      let timers := a.pool.timers.cancelAny (a.pool.used[key]?.bind (·.timer))
      lease?.elim timers fun lease => (timers.arm lease ⟨key, a.pool.issued + 1⟩).1 } := by
  cases lease? with
  | none => simp [checkOut, withPool, Pool.checkOut, Pool.nextAlarm]
  | some lease =>
    by_cases timeKept : a.pool.timers.kept
    · have stillKept : (a.pool.timers.cancelAny (a.pool.used[key]?.bind (·.timer))).kept := by
        rwa [Timers.kept_cancelAny]
      simp only [checkOut, withPool, Pool.checkOut, Pool.arm, Pool.withTimers,
        Timers.arm_of_kept stillKept]
      rw [Pool.attach_new rfl]
      simp [Pool.nextAlarm, timeKept]
    · simp [checkOut, withPool, Pool.checkOut, Pool.arm, Pool.withTimers, Timers.arm, timeKept,
        Pool.nextAlarm]

@[simp] theorem idle_checkOut : (a.checkOut key now lease?).pool.idle = a.pool.idle.erase key := by
  rw [pool_checkOut]

@[simp] theorem issued_checkOut : (a.checkOut key now lease?).pool.issued = a.pool.issued + 1 := by
  rw [pool_checkOut]

@[simp] theorem used_checkOut : (a.checkOut key now lease?).pool.used =
    a.pool.used.insert key ⟨now, a.pool.issued + 1, a.pool.nextAlarm lease?⟩ := by
  rw [pool_checkOut]

theorem armed_checkOut {alarm : Alarm Lease}
    (armed : alarm ∈ (a.checkOut key now lease?).pool.timers.armed) :
    alarm ∈ a.pool.timers.armed ∨ alarm.job = ⟨key, a.pool.issued + 1⟩ := by
  have kept := (Timers.armed_cancelAny_sublist a.pool.timers (a.pool.used[key]?.bind (·.timer))).subset
  rw [pool_checkOut] at armed
  cases lease? with
  | none => exact Or.inl (kept armed)
  | some lease =>
    rcases Timers.armed_arm armed with old | new
    · exact Or.inl (kept old)
    · exact Or.inr new

end CheckOut

end Assignment

end PartitionLease

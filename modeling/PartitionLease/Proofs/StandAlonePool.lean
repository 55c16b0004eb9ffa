import Mathlib.Data.List.Induction
import Mathlib.Data.List.Nodup
import PartitionLease.Proofs.CacheInvariants

namespace PartitionLease

namespace Pool

variable {α : Type} {p : Pool α} {key other : String}

theorem isIdle_iff : p.isIdle key ↔ key ∈ p.idle := List.contains_iff_mem

theorem mem_idle_pushIdle : key ∈ (p.pushIdle other).1.idle ↔ key ∈ p.idle ∨ key = other := by
  by_cases waits : other ∈ p.idle
  · rw [pushIdle, if_pos (isIdle_iff.mpr waits)]
    exact ⟨Or.inl, fun either => either.elim id fun own => own ▸ waits⟩
  · rw [idle_pushIdle waits, List.mem_append, List.mem_singleton]

theorem nodup_idle_pushIdle (once : p.idle.Nodup) (key : String) : (p.pushIdle key).1.idle.Nodup := by
  by_cases waits : key ∈ p.idle
  · rwa [pushIdle, if_pos (isIdle_iff.mpr waits)]
  · rw [idle_pushIdle waits]
    exact once.append (List.nodup_singleton key) (List.disjoint_singleton.mpr waits)

theorem idle_popIdle (p : Pool α) : p.popIdle.1.idle = p.idle.tail := by
  unfold popIdle
  split <;> rename_i line <;> rw [line] <;> rfl

theorem used_popIdle (p : Pool α) : p.popIdle.1.used = p.used := by
  unfold popIdle
  split <;> rfl

theorem snd_popIdle (p : Pool α) : p.popIdle.2 = p.idle.head? := by
  unfold popIdle
  split <;> rename_i line <;> rw [line] <;> rfl

/-- In a line that names each key once, what is taken from the head is in it no more. -/
theorem mem_idle_popIdle (once : p.idle.Nodup) :
    key ∈ p.popIdle.1.idle ↔ key ∈ p.idle ∧ p.popIdle.2 ≠ some key := by
  rw [idle_popIdle, snd_popIdle]
  cases line : p.idle with
  | nil => simp
  | cons first rest =>
    rw [line, List.nodup_cons] at once
    rw [List.tail_cons, List.head?_cons, List.mem_cons, ne_eq, Option.some.injEq]
    constructor
    · intro later
      exact ⟨Or.inr later, fun own => once.1 (own ▸ later)⟩
    · rintro ⟨own | later, apart⟩
      · exact absurd own.symm apart
      · exact later

/-- An alarm that is attached, or not, moves no key. -/
theorem idle_attach (p : Pool α) (key : String) (token timer : Nat) : (p.attach key token timer).idle = p.idle := by
  unfold attach
  repeat' split
  all_goals rfl

theorem isUsed_attach (p : Pool α) (key : String) (token timer : Nat) (k : String) :
    (p.attach key token timer).isUsed k = p.isUsed k := by
  unfold attach
  split <;> rename_i held
  · split
    · simp only [isUsed, Std.ExtTreeMap.contains_eq_isSome_getElem?, Std.ExtTreeMap.getElem?_insert,
        Std.LawfulEqCmp.compare_eq_iff_eq]
      split
      · rename_i own
        rw [← own, held]
        rfl
      · rfl
    · rfl
  · rfl

theorem isUsed_checkOut (p : Pool α) (key : String) (now : UInt64) (k : String) :
    (p.checkOut key now).1.isUsed k ↔ k = key ∨ p.isUsed k := by
  rw [isUsed, checkOut, Std.ExtTreeMap.contains_insert, Bool.or_eq_true, beq_iff_eq,
    Std.LawfulEqCmp.compare_eq_iff_eq, eq_comm]
  rfl

theorem isUsed_release (p : Pool α) (key : String) (k : String) :
    (p.release key).1.isUsed k ↔ k ≠ key ∧ p.isUsed k := by
  rw [isUsed, release, Std.ExtTreeMap.contains_erase, Bool.and_eq_true, bne_iff_ne, ne_eq,
    Std.LawfulEqCmp.compare_eq_iff_eq, eq_comm]
  rfl

theorem fault?_eq_none_iff (once : p.idle.Nodup) :
    p.fault? = none ↔ ∀ key, ¬ (p.isIdle key ∧ p.isUsed key) := by
  rw [fault?, lineFault_eq_none_iff, and_iff_right once]
  refine forall_congr' fun key => ?_
  rw [not_and, isIdle_iff, Bool.not_eq_true]

end Pool

/-- A pool by itself, in the hands of someone who sets alarms for it; `held` are the alarms not given to a checkout
so far. -/
structure Keeper (α : Type) where
  pool : Pool α
  held : List Nat := []

namespace Keeper

variable {α : Type}

/-- All that can be done to a pool by itself. Alarms are set, and given to checkouts, under their numbers. -/
inductive Operation (α : Type)
  | push (key : String)
  | pop
  | remove (key : String)
  | checkOut (key : String) (now : UInt64)
  | release (key : String)
  | arm (lease : Duration) (job : α)
  | attach (key : String) (token timer : Nat)
  | pass (millis : Nat)

def new (timeKept : Bool) : Keeper α := { pool := { timers := { kept := timeKept } } }

def withPool (k : Keeper α) (pool : Pool α) : Keeper α := { k with pool }

/-- An alarm can be given away once, by whoever holds it. -/
def step (k : Keeper α) : Operation α → Keeper α
  | .push key => k.withPool (k.pool.pushIdle key).1
  | .pop => k.withPool k.pool.popIdle.1
  | .remove key => k.withPool (k.pool.removeIdle key).1
  | .checkOut key now => k.withPool (k.pool.checkOut key now).1
  | .release key => k.withPool (k.pool.release key).1
  | .arm lease job =>
    let (pool, timer) := k.pool.arm lease job
    { pool, held := k.held ++ timer.toList }
  | .attach key token timer =>
    if timer ∈ k.held then { pool := k.pool.attach key token timer, held := k.held.erase timer } else k
  | .pass millis => k.withPool (k.pool.pass (k.pool.timers.now + millis)).1

def run (k : Keeper α) (ops : List (Operation α)) : Keeper α := ops.foldl step k

@[simp] theorem run_nil (k : Keeper α) : k.run [] = k := rfl

@[simp] theorem run_cons (k : Keeper α) (op : Operation α) (ops : List (Operation α)) :
    k.run (op :: ops) = (k.step op).run ops := rfl

theorem run_append (k : Keeper α) (first later : List (Operation α)) :
    k.run (first ++ later) = (k.run first).run later := List.foldl_append

/-- No operation of a run does what `P` says. -/
def Never (P : Keeper α → Operation α → Prop) : Keeper α → List (Operation α) → Prop
  | _, [] => True
  | k, op :: rest => ¬ P k op ∧ Never P (k.step op) rest

theorem never_append {P : Keeper α → Operation α → Prop} {k : Keeper α} {first later : List (Operation α)} :
    Never P k (first ++ later) ↔ Never P k first ∧ Never P (k.run first) later := by
  induction first generalizing k with
  | nil => simp [Never]
  | cons op rest ih => rw [List.cons_append, Never, Never, ih, run_cons, and_assoc]

/-- The operation takes the key out of the line, checks it out or ends its checkout. -/
def Clears (key : String) (k : Keeper α) : Operation α → Prop
  | .pop => k.pool.popIdle.2 = some key
  | .remove other | .checkOut other _ | .release other => other = key
  | _ => False

/-- The operation puts a key in line that is checked out. -/
def PushesOut (k : Keeper α) : Operation α → Prop
  | .push key => k.pool.isUsed key
  | _ => False

/-- In a run a key was put in line while it was checked out, and has not been taken back since. -/
def PushedWhileOut (start : Keeper α) (ops : List (Operation α)) (key : String) : Prop :=
  ∃ before after, ops = before ++ .push key :: after ∧ (start.run before).pool.isUsed key ∧
    ((start.run before).pool.pushIdle key).2 ∧ Never (Clears key) ((start.run before).step (.push key)) after

variable {k : Keeper α} {key : String}

theorem idle_step_attach (k : Keeper α) (key : String) (token timer : Nat) :
    (k.step (.attach key token timer)).pool.idle = k.pool.idle := by
  simp only [step]
  split
  · exact k.pool.idle_attach key token timer
  · rfl

theorem isUsed_step_attach (k : Keeper α) (key : String) (token timer : Nat) (other : String) :
    (k.step (.attach key token timer)).pool.isUsed other = k.pool.isUsed other := by
  simp only [step]
  split
  · exact k.pool.isUsed_attach key token timer other
  · rfl

theorem nodup_idle_step (once : k.pool.idle.Nodup) (op : Operation α) : (k.step op).pool.idle.Nodup := by
  cases op with
  | push key => exact Pool.nodup_idle_pushIdle once key
  | pop =>
    rw [step, withPool, Pool.idle_popIdle]
    exact once.tail
  | remove key | checkOut key now | release key => exact once.erase key
  | arm lease job | pass millis => exact once
  | attach key token timer => rwa [idle_step_attach]

theorem nodup_idle_run (once : k.pool.idle.Nodup) (ops : List (Operation α)) : (k.run ops).pool.idle.Nodup := by
  induction ops generalizing k with
  | nil => exact once
  | cons op rest ih => exact ih (nodup_idle_step once op)

theorem mem_idle_step (once : k.pool.idle.Nodup) (op : Operation α) (key : String) :
    key ∈ (k.step op).pool.idle ↔ key ∈ k.pool.idle ∧ ¬ Clears key k op ∨ op = .push key := by
  have erased (other : String) : key ∈ k.pool.idle.erase other ↔ key ∈ k.pool.idle ∧ other ≠ key := by
    rw [once.mem_erase_iff, and_comm, ne_comm]
  cases op with
  | push other =>
    refine Pool.mem_idle_pushIdle.trans ?_
    simp [Clears, @eq_comm _ key]
  | pop =>
    refine (Pool.mem_idle_popIdle once).trans ?_
    simp [Clears]
  | remove other | checkOut other now | release other =>
    refine (erased other).trans ?_
    simp [Clears]
  | arm lease job | pass millis => simp [step, withPool, Clears, Pool.arm, Pool.pass, Pool.withTimers]
  | attach other token timer => simp [idle_step_attach, Clears]

theorem isUsed_step (k : Keeper α) (op : Operation α) (key : String) : (k.step op).pool.isUsed key ↔
    k.pool.isUsed key ∧ op ≠ .release key ∨ ∃ now, op = .checkOut key now := by
  cases op with
  | push other =>
    simp [step, withPool, Pool.isUsed, Pool.used_pushIdle]
  | pop => simp [step, withPool, Pool.isUsed, Pool.used_popIdle]
  | remove other | arm lease job | pass millis =>
    simp [step, withPool, Pool.isUsed, Pool.removeIdle, Pool.withIdle, Pool.arm, Pool.pass, Pool.withTimers]
  | checkOut other now =>
    refine (k.pool.isUsed_checkOut other now key).trans ?_
    simp [or_comm, @eq_comm _ other key]
  | release other =>
    refine (k.pool.isUsed_release other key).trans ?_
    simp [and_comm, @eq_comm _ other key]
  | attach other token timer => simp [isUsed_step_attach]

/-- A key is in line and checked out after an operation if it was so before and was not taken back, or if it is put in
line while it is checked out. -/
theorem overlap_step_iff (once : k.pool.idle.Nodup) (op : Operation α) (key : String) :
    (k.step op).pool.isIdle key ∧ (k.step op).pool.isUsed key ↔
      (k.pool.isIdle key ∧ k.pool.isUsed key) ∧ ¬ Clears key k op ∨ op = .push key ∧ k.pool.isUsed key := by
  rw [Pool.isIdle_iff, Pool.isIdle_iff, mem_idle_step once, isUsed_step]
  constructor
  · rintro ⟨⟨waits, stays⟩ | pushed, ⟨out, -⟩ | ⟨now, made⟩⟩
    · exact Or.inl ⟨⟨waits, out⟩, stays⟩
    · exact absurd (made ▸ rfl) stays
    · exact Or.inr ⟨pushed, out⟩
    · exact absurd (pushed.symm.trans made) nofun
  · rintro (⟨⟨waits, out⟩, stays⟩ | ⟨rfl, out⟩)
    · exact ⟨Or.inl ⟨waits, stays⟩, Or.inl ⟨out, fun released => stays (released ▸ rfl)⟩⟩
    · exact ⟨Or.inr rfl, Or.inl ⟨out, nofun⟩⟩

/-- Once a key is in line and checked out, it stays so until it is taken back. -/
theorem overlap_run_of_never (once : k.pool.idle.Nodup) (both : k.pool.isIdle key ∧ k.pool.isUsed key)
    {ops : List (Operation α)} (never : Never (Clears key) k ops) :
    (k.run ops).pool.isIdle key ∧ (k.run ops).pool.isUsed key := by
  induction ops generalizing k with
  | nil => exact both
  | cons op rest ih =>
    have still := (overlap_step_iff once op key).mpr (Or.inl ⟨both, never.1⟩)
    exact ih (nodup_idle_step once op) still never.2

theorem PushedWhileOut.concat {start : Keeper α} {ops : List (Operation α)} {op : Operation α}
    (pushed : PushedWhileOut start ops key) (stays : ¬ Clears key (start.run ops) op) :
    PushedWhileOut start (ops ++ [op]) key := by
  obtain ⟨before, after, rfl, out, entered, never⟩ := pushed
  refine ⟨before, after ++ [op], by simp, out, entered, never_append.mpr ⟨never, ?_, trivial⟩⟩
  rwa [run_append, run_cons] at stays

/-- There is no other way into this than to be put in line while checked out. -/
theorem pushedWhileOut_of_overlap {start : Keeper α} (once : start.pool.idle.Nodup)
    (free : ∀ key, start.pool.isUsed key = false) {ops : List (Operation α)}
    (both : (start.run ops).pool.isIdle key ∧ (start.run ops).pool.isUsed key) :
    PushedWhileOut start ops key := by
  induction ops using List.reverseRecOn with
  | nil => exact absurd both.2 (Bool.eq_false_iff.mp (free key))
  | append_singleton ops op ih =>
    rw [run_append, run_cons, run_nil, overlap_step_iff (nodup_idle_run once ops)] at both
    rcases both with ⟨earlier, stays⟩ | ⟨rfl, out⟩
    · exact (ih earlier).concat stays
    · by_cases waits : (start.run ops).pool.isIdle key
      -- The key is in line already, and the push that counts is an earlier one.
      · exact (ih ⟨waits, out⟩).concat nofun
      · refine ⟨ops, [], rfl, out, ?_, trivial⟩
        rw [Pool.pushIdle, if_neg waits]

theorem PushedWhileOut.not_never {start : Keeper α} {ops : List (Operation α)}
    (pushed : PushedWhileOut start ops key) : ¬ Never PushesOut start ops := by
  obtain ⟨before, after, rfl, out, -⟩ := pushed
  exact fun never => (never_append.mp never).2.1 out

/-- Where the cache puts a key in line it has just ended any checkout of it. -/
theorem vacate_eq_run (a : Assignment) (key : String) (requeue : Bool) :
    let ops := .release key :: if requeue && a.registry.contains key then [.push key] else []
    Never PushesOut ⟨a.pool, []⟩ ops ∧ (run ⟨a.pool, []⟩ ops).pool = (a.vacate key requeue).1.pool := by
  have free : (a.pool.release key).1.isUsed key = false :=
    Bool.eq_false_iff.mpr fun out => ((a.pool.isUsed_release key key).mp out).1 rfl
  intro ops
  simp only [ops, Assignment.vacate]
  split
  · exact ⟨⟨nofun, Bool.eq_false_iff.mp free, trivial⟩, rfl⟩
  · exact ⟨⟨nofun, trivial⟩, rfl⟩

/-- A pool by itself never has a key in line twice. A key is in line and checked out at once exactly if it was put in
line while it was checked out, and since then was not taken off the head of the line, taken out of it, checked out
again or released; that it may have been in line then is no matter. So the check of the pool passes as long as there is
no such key, and whenever only keys that are not checked out are put in line. The cache keeps to this: it puts a key in
line only after it has released it. -/
theorem only_pushing_breaks_exclusion (timeKept : Bool) (ops : List (Operation α)) :
    let start : Keeper α := new timeKept
    let p := (start.run ops).pool
    p.idle.Nodup ∧
    (∀ key, p.isIdle key ∧ p.isUsed key ↔ PushedWhileOut start ops key) ∧
    (∀ key before after, ops = before ++ .push key :: after → (start.run before).pool.isUsed key →
      Never (Clears key) ((start.run before).step (.push key)) after → p.isIdle key ∧ p.isUsed key) ∧
    (p.fault? = none ↔ ∀ key, ¬ PushedWhileOut start ops key) ∧
    (Never PushesOut start ops → p.fault? = none) ∧
    ∀ (a : Assignment) (key : String) (requeue : Bool),
      let ops := .release key :: if requeue && a.registry.contains key then [.push key] else []
      Never PushesOut ⟨a.pool, []⟩ ops ∧ (run ⟨a.pool, []⟩ ops).pool = (a.vacate key requeue).1.pool := by
  intro start p
  have onceThen (before : List (Operation α)) : (start.run before).pool.idle.Nodup :=
    nodup_idle_run List.nodup_nil before
  have once : p.idle.Nodup := onceThen ops
  have free (key : String) : start.pool.isUsed key = false := Std.ExtTreeMap.contains_empty
  have stays (key : String) (before after : List (Operation α)) (split : ops = before ++ .push key :: after)
      (out : (start.run before).pool.isUsed key)
      (never : Never (Clears key) ((start.run before).step (.push key)) after) : p.isIdle key ∧ p.isUsed key := by
    have both := (overlap_step_iff (onceThen before) (.push key) key).mpr (Or.inr ⟨rfl, out⟩)
    have later := overlap_run_of_never (nodup_idle_step (onceThen before) _) both never
    rwa [← run_cons, ← run_append, ← split] at later
  have overlap (key : String) : p.isIdle key ∧ p.isUsed key ↔ PushedWhileOut start ops key := by
    refine ⟨pushedWhileOut_of_overlap List.nodup_nil free, ?_⟩
    rintro ⟨before, after, split, out, -, never⟩
    exact stays key before after split out never
  have check : p.fault? = none ↔ ∀ key, ¬ PushedWhileOut start ops key := by
    simp only [Pool.fault?_eq_none_iff once, overlap]
  exact ⟨once, overlap, stays, check, fun never => check.mpr fun key pushed => pushed.not_never never,
    vacate_eq_run⟩

end Keeper

end PartitionLease

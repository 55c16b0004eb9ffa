import PartitionLease.Proofs.KeyEffects

namespace PartitionLease

namespace Assignment

variable {a : Assignment}

/-- All that vacating a key does, in a line that names each key once. -/
theorem vacate_eq (once : a.pool.idle.Nodup) (key : String) (requeue : Bool) :
    (a.vacate key requeue).1 = a.withPool {
      idle := a.pool.idle.erase key ++ if requeue && a.registry.contains key then [key] else []
      used := a.pool.used.erase key
      issued := a.pool.issued
      timers := a.pool.timers.cancelAny (a.pool.used[key]?.bind (·.timer)) } := by
  rw [← idle_vacate once, ← used_vacate a key requeue, ← issued_vacate a key requeue, ← timers_vacate a key requeue]
  rfl

theorem isUsed_vacate_self (a : Assignment) (key : String) (requeue : Bool) :
    (a.vacate key requeue).1.pool.isUsed key = false := by
  rw [Pool.isUsed, used_vacate, Std.ExtTreeMap.contains_eq_isSome_getElem?, Std.ExtTreeMap.getElem?_erase_self]
  rfl

/-- Where a key was put when it was vacated is no matter when it is vacated again. -/
theorem Sound.vacate_vacate (sound : a.Sound) (key : String) (earlier last : Bool) :
    ((a.vacate key earlier).1.vacate key last).1 = (a.vacate key last).1 := by
  let b := (a.vacate key earlier).1
  have line : b.pool.idle.erase key = a.pool.idle.erase key := by
    rw [idle_vacate sound.once, List.erase_append_right _ sound.once.not_mem_erase]
    split
    · rw [List.erase_cons_head, List.append_nil]
    · exact List.append_nil _
  have out : b.pool.used.erase key = a.pool.used.erase key :=
    (Pool.erase_used_of_not_isUsed (a.isUsed_vacate_self key earlier)).trans (used_vacate a key earlier)
  have bare : b.pool.used[key]? = none := by
    rw [used_vacate, Std.ExtTreeMap.getElem?_erase_self]
  have alarms : b.pool.timers.cancelAny (b.pool.used[key]?.bind (·.timer)) =
      a.pool.timers.cancelAny (a.pool.used[key]?.bind (·.timer)) := by
    rw [bare]
    exact timers_vacate a key earlier
  have issued : b.pool.issued = a.pool.issued := issued_vacate a key earlier
  rw [vacate_eq (sound.vacate key earlier).once, vacate_eq sound.once key last, line, out, alarms, issued]
  rfl

/-- Of two reclaims of one key the first leaves no trace, not even in the figures. -/
theorem Sound.reclaim_reclaim (sound : a.Sound) (key : String) (earlier last : Bool) :
    ((a.reclaim key earlier).1.reclaim key last).1 = (a.reclaim key last).1 := by
  have told : ((a.reclaim key earlier).1.reclaim key last).1 =
      ((a.vacate key earlier).1.vacate key last).1.publish := rfl
  rw [told, sound.vacate_vacate]
  rfl

end Assignment

namespace Cache

/-- How actions are answered one after the other. -/
def replies (c : Cache) : List Action → List Reply
  | [] => []
  | action :: rest => (c.step action).2 :: (c.step action).1.replies rest

variable {c : Cache}

theorem step_reclaim_reclaim (sound : c.assignment.Sound) (key : String) (earlier last : Bool) :
    ((c.step (.reclaim key earlier)).1.step (.reclaim key last)).1 = (c.step (.reclaim key last)).1 :=
  congrArg (fun assignment => { c with assignment }) (sound.reclaim_reclaim key earlier last)

theorem run_reclaims (sound : c.assignment.Sound) (key : String) (earlier : List Bool) (last : Bool) :
    c.run ((earlier ++ [last]).map (.reclaim key)) = (c.step (.reclaim key last)).1 := by
  induction earlier generalizing c with
  | nil => rfl
  | cons first others ih =>
    rw [List.cons_append, List.map_cons, run_cons, ih (sound_step sound _), step_reclaim_reclaim sound]

/-- What is not checked out is not reclaimed, however often one tries. -/
theorem replies_reclaims_of_free {key : String} (free : c.assignment.pool.isUsed key = false) (words : List Bool) :
    c.replies (words.map (.reclaim key)) = List.replicate words.length (.flag false) := by
  induction words generalizing c with
  | nil => rfl
  | cons requeue rest ih =>
    have freeStill : (c.step (.reclaim key requeue)).1.assignment.pool.isUsed key = false :=
      c.assignment.isUsed_vacate_self key requeue
    rw [List.map_cons, replies, reply_reclaim, free, ih freeStill, List.length_cons, List.replicate_succ]

/-- Only the first of some reclaims of a key can end a checkout. -/
theorem replies_reclaims (c : Cache) (key : String) (earlier : List Bool) (last : Bool) :
    c.replies ((earlier ++ [last]).map (.reclaim key)) =
      .flag (c.assignment.pool.isUsed key) :: List.replicate earlier.length (.flag false) := by
  obtain ⟨first, others, words⟩ : ∃ first others, earlier ++ [last] = first :: others :=
    List.exists_cons_of_ne_nil (by simp)
  have length : others.length = earlier.length := by
    have := congrArg List.length words
    simpa using this.symm
  have free : (c.step (.reclaim key first)).1.assignment.pool.isUsed key = false :=
    c.assignment.isUsed_vacate_self key first
  rw [words, List.map_cons, replies, reply_reclaim, replies_reclaims_of_free free, length]

/-- Reclaims of one key, one right after the other, come to the last of them alone, in all there is to a cache. Only
the first can find the key checked out. That one reclaim ends any checkout of the key and takes it out of the line,
from wherever it stood there; a known key that is to be queued again comes last, the other keys keep their places, and
nothing but the sizes is told. So to reclaim a key again in the same way is to do nothing. -/
theorem last_reclaim_absorbs_earlier (config : Config) (clock : Clock) (timeKept : Bool) (actions : List Action)
    (key : String) (earlier : List Bool) (last : Bool) :
    let c := (new config clock timeKept).run actions
    let a := c.assignment
    let reclaims := (earlier ++ [last]).map (.reclaim key)
    let once := (c.step (.reclaim key last)).1
    let b := once.assignment
    c.run reclaims = once ∧
      c.replies reclaims = .flag (a.pool.isUsed key) :: List.replicate earlier.length (.flag false) ∧
      once.step (.reclaim key last) = (once, .flag false) ∧
      once = { c with assignment := b } ∧ b.registry = a.registry ∧ b.marks = a.marks ∧
      b.pool.idle = a.pool.idle.erase key ++ (if last && a.registry.contains key then [key] else []) ∧
      b.pool.idle.Nodup ∧ b.pool.idle.filter (· != key) = a.pool.idle.filter (· != key) ∧
      b.pool.used = a.pool.used.erase key ∧
      b.figures = a.figures.publish a.registry.size b.pool.idle.length b.pool.used.size := by
  intro c a reclaims once b
  have sound : a.Sound := sound_run_new config clock timeKept actions
  have line : b.pool.idle = a.pool.idle.erase key ++ if last && a.registry.contains key then [key] else [] :=
    Assignment.idle_vacate sound.once key last
  have free : b.pool.isUsed key = false := a.isUsed_vacate_self key last
  have again : once.step (.reclaim key last) = (once, .flag false) := by
    refine Prod.ext (step_reclaim_reclaim sound key last last) ?_
    rw [reply_reclaim, free]
  have others : b.pool.idle.filter (· != key) = a.pool.idle.filter (· != key) := by
    rw [line, List.filter_append, sound.once.erase_eq_filter, List.filter_filter]
    split <;> simp
  exact ⟨run_reclaims sound key earlier last, c.replies_reclaims key earlier last, again, rfl, rfl, rfl, line,
    (sound.reclaim key last).once, others, Assignment.used_vacate a key last, rfl⟩

end Cache

end PartitionLease

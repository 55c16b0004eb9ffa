import Mathlib.Data.List.Rotate
import PartitionLease.Proofs.MarkEffects
import PartitionLease.Proofs.StaleAlarms
import PartitionLease.Proofs.PoolSteps

namespace PartitionLease

/-- An alarm that is set and cancelled leaves the others as they were. -/
theorem Alarm.filter_enqueue {α : Type} {alarm : Alarm α} {line : List (Alarm α)}
    (others : ∀ next ∈ line, next.id ≠ alarm.id) : (alarm.enqueue line).filter (·.id != alarm.id) = line := by
  induction line with
  | nil => simp [enqueue]
  | cons first rest ih =>
    rw [List.forall_mem_cons] at others
    have stay : rest.filter (·.id != alarm.id) = rest :=
      List.filter_eq_self.mpr fun next member => bne_iff_ne.mpr (others.2 next member)
    unfold enqueue
    split
    · simp [others.1, ih others.2]
    · simp [others.1, stay]

namespace Assignment

/-- From `a` to `b` the partition that is first in line was handed out and taken back. Its key has gone from the head
of the line to the end, and its mark was written. -/
structure Turned (a b : Assignment) (p : Partition) (consumed : Bool) : Prop where
  registry : b.registry = a.registry
  idle : b.pool.idle = a.pool.idle.rotate 1
  used : b.pool.used = a.pool.used
  issued : b.pool.issued = a.pool.issued + 1
  armed : b.pool.timers.armed = a.pool.timers.armed
  marks : b.marks = a.marks.write p consumed

variable {a : Assignment} {key : String}

/-- The alarm of a checkout is cancelled when the key is given back, and no other. -/
theorem AlarmsAgree.armed_release (agree : a.AlarmsAgree) (free : a.pool.used[key]? = none) (now : UInt64)
    (lease? : Option Duration) (consumed : Bool) :
    ((a.checkOut key now lease?).publish.release key consumed).1.pool.timers.armed = a.pool.timers.armed := by
  have held : (a.checkOut key now lease?).publish.pool.used[key]? =
      some ⟨now, a.pool.issued + 1, a.pool.nextAlarm lease?⟩ := by
    rw [pool_publish, used_checkOut, Std.ExtTreeMap.getElem?_insert_self]
  have out : (a.checkOut key now lease?).publish.pool.isUsed key := by
    rw [Pool.isUsed, Std.ExtTreeMap.contains_eq_isSome_getElem?, held]
    rfl
  have cancelled : ((a.checkOut key now lease?).publish.release key consumed).1.pool.timers =
      (a.checkOut key now lease?).pool.timers.cancelAny (a.pool.nextAlarm lease?) := by
    rw [release, if_pos out, pool_recordReclaimed, pool_publish, timers_vacate, pool_markKey, held]
    rfl
  rw [cancelled]
  rcases timers_checkOut free now lease? with ⟨same, none⟩ | ⟨lease, -, alarm, timers⟩
  · rw [same, none]
    rfl
  · let new : Alarm Lease :=
      ⟨a.pool.timers.issued, a.pool.timers.now + lease.ceilMillis, ⟨key, a.pool.issued + 1⟩⟩
    have given : ∀ next ∈ a.pool.timers.armed, next.id ≠ new.id :=
      fun next armed => Nat.ne_of_lt (agree.given next armed)
    rw [alarm, timers]
    exact Alarm.filter_enqueue given

/-- Whoever takes what is first in line gets the partition known under that key, and when it is given back everything
but the line and its mark is as it was. -/
theorem Sound.turned (sound : a.Sound) (agree : a.AlarmsAgree) {p : Partition} {rest : List String}
    (line : a.pool.idle = p.key :: rest) (known : a.registry.find? p.key = some p) (now : UInt64)
    (lease? : Option Duration) (consumed : Bool) :
    let returned := (a.take now lease?).1.release p.key consumed
    (a.take now lease?).2 = some p ∧ returned.2 = true ∧ Turned a returned.1 p consumed := by
  have first : p.key ∈ a.pool.idle := line ▸ List.mem_cons_self
  have free : a.pool.used[p.key]? = none := by
    have unused := sound.idle_free p.key first
    rwa [← Pool.token?_eq_none_iff, Pool.token?, Option.map_eq_none_iff] at unused
  let taken := (a.checkOut p.key now lease?).publish
  have soundTaken : taken.Sound := (sound.checkOut (sound.idle_known p.key first) now lease?).publish
  have out : taken.pool.isUsed p.key := by
    rw [Pool.isUsed, pool_publish, used_checkOut, Std.ExtTreeMap.contains_insert_self]
  have accepted : taken.release p.key consumed =
      (((taken.markKey p.key consumed).vacate p.key true).1.publish.recordReclaimed .returned, true) := if_pos out
  intro returned
  have given : returned = taken.release p.key consumed := by
    simp only [returned, taken, sound.take_cons line]
  rw [given, sound.take_cons line]
  refine ⟨known, congrArg Prod.snd accepted, taken.registry_release p.key consumed, ?_, ?_, ?_, ?_, ?_⟩
  · rw [soundTaken.idle_release out consumed, pool_publish, idle_checkOut, line, List.erase_cons_head,
      List.rotate_cons_succ, List.rotate_zero]
  · rw [used_release, pool_publish, used_checkOut]
    refine Std.ExtTreeMap.ext_getElem? fun k => ?_
    simp only [Std.ExtTreeMap.getElem?_erase, Std.ExtTreeMap.getElem?_insert, Std.LawfulEqCmp.compare_eq_iff_eq]
    split
    · rename_i own
      rw [← own, free]
    · rfl
  · rw [(Vacating.release taken p.key consumed).still.2.2.2, pool_publish, issued_checkOut]
  · exact agree.armed_release free now lease? consumed
  · have marked : taken.markKey p.key consumed = taken.mark p consumed := by
      have knownStill : taken.registry.find? p.key = some p := known
      rw [Assignment.markKey, knownStill]
    rw [accepted, marked]
    rfl

/-- From `a` to `b` partitions were handed out one after the other, each taken back before the next with a word on
how far its consumer came. -/
structure WentRound (a b : Assignment) (handed : List Partition) (consumed : List Bool) : Prop where
  registry : b.registry = a.registry
  idle : b.pool.idle = a.pool.idle.rotate consumed.length
  used : b.pool.used = a.pool.used
  issued : b.pool.issued = a.pool.issued + consumed.length
  armed : b.pool.timers.armed = a.pool.timers.armed
  length : handed.length = consumed.length
  inTurn : ∀ (i : Nat) (p : Partition), handed[i]? = some p →
    a.pool.idle[i % a.pool.idle.length]? = some p.key ∧ a.registry.find? p.key = some p
  written : ∀ (i : Nat) (p : Partition), handed[i]? = some p → (∀ j, i < j → handed[j]? ≠ some p) →
    consumed[i]? = some (b.marks p)
  spared : ∀ p ∉ handed, b.marks p = a.marks p

namespace WentRound

variable {b d : Assignment} {p : Partition} {handed : List Partition} {consumed : Bool} {words : List Bool}

theorem refl (a : Assignment) : WentRound a a [] [] where
  registry := rfl
  idle := (List.rotate_zero _).symm
  used := rfl
  issued := rfl
  armed := rfl
  length := rfl
  inTurn := by simp
  written := by simp
  spared := fun _ _ => rfl

theorem cons {rest : List String} (line : a.pool.idle = p.key :: rest) (known : a.registry.find? p.key = some p)
    (turned : Turned a b p consumed) (round : WentRound b d handed words) :
    WentRound a d (p :: handed) (consumed :: words) where
  registry := round.registry.trans turned.registry
  idle := by rw [round.idle, turned.idle, List.rotate_rotate, Nat.add_comm, List.length_cons]
  used := round.used.trans turned.used
  issued := by rw [round.issued, turned.issued, List.length_cons]; omega
  armed := round.armed.trans turned.armed
  length := congrArg (· + 1) round.length
  inTurn := by
    intro i q found
    cases i with
    | zero =>
      obtain rfl : p = q := Option.some.inj found
      rw [Nat.zero_mod, line]
      exact ⟨rfl, known⟩
    | succ i =>
      obtain ⟨place, knownToo⟩ := round.inTurn i q found
      have within : i % a.pool.idle.length < a.pool.idle.length := Nat.mod_lt _ (by simp [line])
      rw [turned.idle, List.length_rotate, List.getElem?_rotate within, Nat.mod_add_mod] at place
      exact ⟨place, turned.registry ▸ knownToo⟩
  written := by
    intro i q found last
    cases i with
    | zero =>
      obtain rfl : p = q := Option.some.inj found
      have never : p ∉ handed := by
        intro member
        obtain ⟨j, again⟩ := List.mem_iff_getElem?.mp member
        exact last (j + 1) j.succ_pos again
      rw [round.spared p never, turned.marks, Marks.write_self]
      rfl
    | succ i => exact round.written i q found fun j later => last (j + 1) (Nat.succ_lt_succ later)
  spared := by
    intro q absent
    rw [List.mem_cons, not_or] at absent
    rw [round.spared q absent.2, turned.marks, Marks.write_of_ne _ _ absent.1]

end WentRound

end Assignment

namespace Cache

/-- Hands out what is first in line, and takes it back at once if that is a partition. -/
def turn (c : Cache) (consumed : Bool) : Cache × Reply × Reply :=
  let (c, handed) := c.step .take
  match handed with
  | .partition (some p) =>
    let (c, back) := c.step (.release p.key consumed)
    (c, handed, back)
  | _ => (c, handed, .none)

/-- One turn after the other, each with a word on how far the consumer came, and how they were answered. -/
def turns (c : Cache) : List Bool → Cache × List (Reply × Reply)
  | [] => (c, [])
  | consumed :: words =>
    let (c, replies) := c.turn consumed
    let (c, others) := c.turns words
    (c, replies :: others)

theorem turn_of_line {c : Cache} (sound : c.assignment.Sound) (agree : c.assignment.AlarmsAgree) {p : Partition}
    {rest : List String} (line : c.assignment.pool.idle = p.key :: rest)
    (known : c.assignment.registry.find? p.key = some p) (consumed : Bool) :
    ∃ b : Assignment, c.turn consumed = ({ c with assignment := b }, .partition (some p), .flag true) ∧
      b.Sound ∧ b.AlarmsAgree ∧ c.assignment.Turned b p consumed := by
  obtain ⟨handed, back, turned⟩ := sound.turned agree line known c.clock.now c.config.lease? consumed
  refine ⟨_, ?_, ?_, ?_, turned⟩
  · simp only [turn, step, handed, back]
  · exact sound_step (sound_step sound .take) (.release p.key consumed)
  · exact agree_step (sound_step sound .take) (agree_step sound agree .take) (.release p.key consumed)

theorem wentRound_turns {c : Cache} (sound : c.assignment.Sound) (agree : c.assignment.AlarmsAgree)
    (waiting : c.assignment.pool.idle ≠ []) (consumed : List Bool) :
    ∃ (handed : List Partition) (b : Assignment), c.turns consumed =
        ({ c with assignment := b }, handed.map fun p => (.partition (some p), .flag true)) ∧
      c.assignment.WentRound b handed consumed := by
  induction consumed generalizing c with
  | nil => exact ⟨[], c.assignment, rfl, .refl _⟩
  | cons consumed words ih =>
    obtain ⟨key, rest, line⟩ := List.exists_cons_of_ne_nil waiting
    have inRegistry := sound.idle_known key (line ▸ List.mem_cons_self)
    rw [Registry.contains_eq_isSome_find?, Option.isSome_iff_exists] at inRegistry
    obtain ⟨p, known⟩ := inRegistry
    obtain rfl := sound.registry.keyed key p known
    obtain ⟨b, first, soundAfter, agreeAfter, turned⟩ := turn_of_line sound agree line known consumed
    have waitingStill : b.pool.idle ≠ [] := by simp [turned.idle, line]
    obtain ⟨handed, d, others, round⟩ := ih (c := { c with assignment := b }) soundAfter agreeAfter waitingStill
    refine ⟨p :: handed, d, ?_, .cons line known turned round⟩
    simp only [turns, first, others, List.map_cons]

/-- Partitions that are handed out and given back one at a time are handed out in turn, round and round the line: in
turn `i` the one that was at place `i`, counted on from the head when the end is reached. The line ends up turned by
as many places, everything else is as it was, and each partition that was handed out has the mark of its last turn. -/
theorem partitions_take_turns (config : Config) (clock : Clock) (timeKept : Bool) (actions : List Action)
    (waiting : ((new config clock timeKept).run actions).assignment.pool.idle ≠ []) (consumed : List Bool) :
    let c := (new config clock timeKept).run actions
    let a := c.assignment
    let queue := a.pool.idle
    ∃ (handed : List Partition) (b : Assignment),
      c.turns consumed = ({ c with assignment := b }, handed.map fun p => (.partition (some p), .flag true)) ∧
      handed.length = consumed.length ∧
      (∀ (i : Nat) (p : Partition), handed[i]? = some p →
        queue[i % queue.length]? = some p.key ∧ a.registry.find? p.key = some p) ∧
      b.pool.idle = queue.rotate (consumed.length % queue.length) ∧
      b.registry = a.registry ∧ b.pool.used = a.pool.used ∧
      b.pool.timers.armed = a.pool.timers.armed ∧ b.pool.issued = a.pool.issued + consumed.length ∧
      (∀ (i : Nat) (p : Partition), handed[i]? = some p → (∀ j, i < j → handed[j]? ≠ some p) →
        consumed[i]? = some (b.marks p)) ∧
      ∀ p ∉ handed, b.marks p = a.marks p := by
  intro c a queue
  have agree := agree_run (sound_new config clock timeKept) (agree_new config clock timeKept) actions
  obtain ⟨handed, b, replies, round⟩ :=
    wentRound_turns (sound_run_new config clock timeKept actions) agree waiting consumed
  refine ⟨handed, b, replies, round.length, round.inTurn, ?_, round.registry, round.used, round.armed, round.issued,
    round.written, round.spared⟩
  rw [List.rotate_mod]
  exact round.idle

/-- Of two partitions the first has its second turn after that of the other, and this one counts. -/
theorem third_turn_is_of_first_again :
    let c := (new Config.default ⟨0⟩ true).run [.add sharedPartition, .add { sharedPartition with id := 1 }]
    let after := (c.turns [false, false, true]).1.assignment
    c.assignment.pool.idle ≠ [] ∧ after.pool.idle = c.assignment.pool.idle.reverse ∧
      after.registry = c.assignment.registry ∧ after.marks sharedPartition = true := by
  intro c after
  have start : (new Config.default ⟨0⟩ true).run [.add sharedPartition, .add { sharedPartition with id := 1 }] = c :=
    rfl
  have waiting : c.assignment.pool.idle ≠ [] := by decide
  have head : c.assignment.pool.idle[2 % c.assignment.pool.idle.length]? = some sharedPartition.key := by decide
  have stored : c.assignment.registry.find? sharedPartition.key = some sharedPartition := by decide
  have turned : c.assignment.pool.idle.rotate (3 % c.assignment.pool.idle.length) =
      c.assignment.pool.idle.reverse := by decide
  obtain ⟨handed, b, replies, length, inTurn, idle, registry, -, -, -, written, -⟩ :=
    partitions_take_turns Config.default ⟨0⟩ true _ waiting [false, false, true]
  rw [start] at replies idle registry
  simp only [start] at inTurn
  -- What has to be computed about the start has been, and nothing below unfolds it again.
  clear_value c
  have same : after = b := congrArg (·.1.assignment) replies
  have third : handed[2]? = some sharedPartition := by
    obtain ⟨p, found⟩ : ∃ p, handed[2]? = some p := ⟨_, List.getElem?_eq_getElem (by rw [length]; decide)⟩
    obtain ⟨place, known⟩ := inTurn 2 p found
    rw [← Option.some.inj (head.symm.trans place), stored] at known
    exact found.trans known.symm
  have last : ∀ j, 2 < j → handed[j]? ≠ some sharedPartition := by
    intro j later
    rw [List.getElem?_eq_none (length.trans_le later)]
    exact nofun
  rw [same]
  exact ⟨waiting, idle.trans turned, registry, (Option.some.inj (written 2 sharedPartition third last)).symm⟩

end Cache

end PartitionLease

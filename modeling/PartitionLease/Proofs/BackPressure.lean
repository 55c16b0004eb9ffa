import Mathlib.Data.List.Induction
import PartitionLease.Proofs.EventOrder

namespace PartitionLease

namespace EventQueue

variable {ε : Type}

/-- The call that ends in a step by what it does itself, and how it ends. -/
def finished (q : EventQueue ε) (action : Action ε) : List Ended :=
  match (q.step action).2 with
  | .progressed ended => ended.toList
  | _ => []

/-- The call that is abandoned in a step. -/
def abandoned (q : EventQueue ε) (action : Action ε) : List Nat :=
  match action, (q.step action).2 with
  | .cancel ticket, .cancelled true => [ticket]
  | _, _ => []

/-- How many of the calls that ended have delivered an event. -/
def deliveries (ended : List Ended) : Nat := ended.countP (·.outcome = .delivered)

/-- Of calls that all delivered there are as many deliveries. -/
theorem deliveries_map (done : List Nat) : deliveries (done.map (⟨·, .delivered⟩)) = done.length := by
  simp [deliveries, List.countP_map, Function.comp_def]

theorem step_of_progress? {q next : EventQueue ε} {ended : Option Ended}
    (move : q.progress? = some (next, ended)) : q.step .progress = (next, .progressed ended) := by
  simp only [step, move]

theorem finished_progress {q next : EventQueue ε} {ended : Option Ended}
    (move : q.progress? = some (next, ended)) : q.finished .progress = ended.toList := by
  rw [finished, step_of_progress? move]

theorem Orderly.tickets_cancel {q : EventQueue ε} (orderly : q.Orderly) (ticket : Nat) :
    (q.abandoned (.cancel ticket) ++ (q.cancel ticket).1.tickets).Perm q.tickets := by
  have distinct : q.tickets.Nodup := orderly.rising.imp Nat.ne_of_lt
  have cancelled := q.cancellation ticket
  simp only [abandoned, step]
  generalize (q.cancel ticket).1 = next at *
  generalize (q.cancel ticket).2 = was at *
  cases cancelled with
  | head held own => simp [tickets, held, own]
  | inLine elsewhere waits =>
    have member : ticket ∈ q.tickets := by
      obtain ⟨call, waiting, own⟩ := waits
      exact List.mem_map.mpr ⟨call, List.mem_append_right _ waiting, own⟩
    -- Numbers do not repeat, so abandoning the calls with a number abandons one.
    have left : ({ q with waiting := q.waiting.filter (·.ticket != ticket) } : EventQueue ε).tickets =
        q.tickets.erase ticket := by
      have lock : q.holder.toList.filter (·.ticket != ticket) = q.holder.toList :=
        List.filter_eq_self.mpr fun call held => bne_iff_ne.mpr (elsewhere call (Option.mem_toList.mp held))
      rw [distinct.erase_eq_filter, tickets, tickets, List.filter_map, Function.comp_def, List.filter_append,
        lock]
    rw [left]
    exact (List.perm_cons_erase member).symm
  | absent ended => exact List.Perm.refl _

/-- Each call that is made waits until it ends or is abandoned. -/
theorem tickets_balance {q : EventQueue ε} (orderly : q.Orderly) (action : Action ε) :
    ((q.finished action).map (·.ticket) ++ q.abandoned action ++ (q.step action).1.tickets).Perm
      (q.tickets ++ (q.made action).map (·.ticket)) := by
  cases action with
  | notify e => simp [finished, abandoned, made, step, notify, tickets, recordOffered]
  | cancel ticket => simpa [finished, made, step] using orderly.tickets_cancel ticket
  | progress =>
    have nobody : q.abandoned .progress = [] ∧ q.made .progress = [] := ⟨rfl, rfl⟩
    rw [nobody.1, nobody.2, List.map_nil, List.append_nil, List.append_nil]
    cases move : q.progress? with
    | none => simp [finished, step, move]
    | some result =>
      obtain ⟨next, ended⟩ := result
      rw [finished_progress move, step_of_progress? move, (progress_of_progress? move).tickets_eq]
  | poll => simp [finished, abandoned, made, step, tickets, q.holder_waiting_calls_poll]
  | receive => simp [finished, abandoned, made, step, tickets, q.holder_waiting_calls_receive]
  | offer _ | clear | dropReceiver | dropOwner =>
    simp [finished, abandoned, made, step, offer, clear, dropReceiver, dropOwner, publish, recordOffered, tickets]

theorem delivered_progress? {q next : EventQueue ε} {ended : Option Ended}
    (move : q.progress? = some (next, ended)) :
    next.figures.delivered = q.figures.delivered + deliveries ended.toList := by
  have rotated (r : EventQueue ε) (e : ε) : (r.rotate e).1.figures.delivered = r.figures.delivered := by
    unfold rotate
    split <;> rfl
  unfold progress? at move
  split at move
  · split at move
    · cases move
      rfl
    · split at move
      · cases move
      · cases move
        rfl
  · split at move
    · cases move
    · rename_i call rest line
      split at move
      · cases move
        rfl
      · simp only [Option.some.injEq, Prod.mk.injEq] at move
        obtain ⟨rfl, rfl⟩ := move
        exact rotated { q with waiting := rest } call.event

/-- Every delivery is counted, and nothing else. -/
theorem delivered_step (q : EventQueue ε) (action : Action ε) :
    (q.step action).1.figures.delivered = q.figures.delivered + deliveries (q.finished action) := by
  cases action with
  | progress =>
    cases move : q.progress? with
    | none => simp [finished, step, move, deliveries]
    | some result =>
      obtain ⟨next, ended⟩ := result
      rw [finished_progress move, step_of_progress? move]
      exact delivered_progress? move
  | poll =>
    simp only [step, poll]
    split <;> rfl
  | receive =>
    simp only [step, receive]
    split
    · split <;> rfl
    · rfl
  | cancel ticket =>
    obtain ⟨waiting, holder, left, -⟩ := q.cancel_eq ticket
    simp [step, left, finished, deliveries]
  | offer _ | notify _ | clear | dropReceiver | dropOwner => rfl

/-- While there is a receiver, what is delivered goes into the slot, and leaves it when it is received. -/
theorem slot_step (q : EventQueue ε) (action : Action ε) (opened : (q.step action).1.receiving = true) :
    deliveries (q.finished action) + q.slot.toList.length =
      (q.received action).length + (q.step action).1.slot.toList.length := by
  cases action with
  | progress =>
    rw [received_progress]
    cases move : q.progress? with
    | none => simp [finished, step, move, deliveries]
    | some result =>
      obtain ⟨next, ended⟩ := result
      rw [finished_progress move, step_of_progress? move]
      cases progress_of_progress? move with
      | letDown held closed => simp [deliveries]
      | delivered held opened free => simp [deliveries, free]
      | turnedAway free line closed => simp [deliveries]
      | locked free line opened rotated => simp [deliveries]
  | receive =>
    simp only [finished, received, step, receive]
    cases q.receiving with
    | false => simp [deliveries]
    | true =>
      cases full : q.slot with
      | some e => simp [deliveries]
      | none => cases q.isGone <;> simp [deliveries, full]
  | poll => cases line : q.pending <;> simp [finished, received, step, poll, line, deliveries, publish]
  | cancel ticket =>
    obtain ⟨waiting, holder, left, -⟩ := q.cancel_eq ticket
    simp [finished, received, step, left, deliveries]
  | dropReceiver => cases opened
  | offer _ | notify _ | clear | dropOwner =>
    simp [finished, received, step, offer, notify, clear, dropOwner, publish, recordOffered, deliveries]

/-- On an open channel a call ends only by delivering. -/
theorem outcome_of_finished {q : EventQueue ε} (opened : q.receiving = true) {action : Action ε} {ended : Ended}
    (member : ended ∈ q.finished action) : ended.outcome = .delivered := by
  cases action with
  | progress =>
    cases move : q.progress? with
    | none => simp [finished, step, move] at member
    | some result =>
      obtain ⟨next, reported⟩ := result
      rw [finished_progress move] at member
      cases progress_of_progress? move with
      | letDown held closed => simp [opened] at closed
      | delivered held opened free => rw [List.mem_singleton.mp member]
      | turnedAway free line closed => simp [opened] at closed
      | locked free line opened rotated => cases member
  | _ => cases member

/-- When no call can go on and yet some wait, the receiver lives and has an event to take. -/
theorem full_of_quiet {q : EventQueue ε} (quiet : q.progress? = none) (waits : q.tickets ≠ []) :
    q.receiving = true ∧ q.slot.isSome := by
  unfold progress? at quiet
  split at quiet
  · split at quiet
    · cases quiet
    · rename_i opened
      split at quiet
      · rename_i full
        exact ⟨by simpa using opened, by rw [full]; rfl⟩
      · cases quiet
  · rename_i free
    split at quiet
    · rename_i line
      exact absurd (by simp [tickets, free, line]) waits
    · split at quiet <;> cases quiet

theorem deliveries_append (first later : List Ended) :
    deliveries (first ++ later) = deliveries first + deliveries later := List.countP_append

theorem tickets_run {q : EventQueue ε} (orderly : q.Orderly) (actions : List (Action ε)) :
    ((q.log finished actions).map (·.ticket) ++ q.log abandoned actions ++ (q.run actions).tickets).Perm
      (q.tickets ++ (q.log made actions).map (·.ticket)) := by
  induction actions using List.reverseRecOn with
  | nil => simp [log]
  | append_singleton actions action ih =>
    have last := tickets_balance (orderly_run orderly actions) action
    rw [List.perm_iff_count] at ih last ⊢
    intro ticket
    have before := ih ticket
    have now := last ticket
    simp only [log_concat, run_append, run_cons, run_nil, List.map_append, List.count_append] at before now ⊢
    omega

theorem delivered_run (q : EventQueue ε) (actions : List (Action ε)) :
    (q.run actions).figures.delivered = q.figures.delivered + deliveries (q.log finished actions) := by
  induction actions generalizing q with
  | nil => rfl
  | cons action rest ih =>
    rw [run_cons, ih, delivered_step, log, deliveries_append, Nat.add_assoc]

/-- A channel that is open in the end has been open before. -/
theorem receiving_of_concat {q : EventQueue ε} {actions : List (Action ε)} {action : Action ε}
    (opened : (q.run (actions ++ [action])).receiving = true) : (q.run actions).receiving = true := by
  rw [run_append, run_cons, run_nil] at opened
  by_contra closed
  have gone := ((q.run actions).receiving_step action).mpr (Or.inl (by simpa using closed))
  rw [opened] at gone
  cases gone

/-- While there is a receiver, no call ends without having delivered. -/
theorem outcome_run {q : EventQueue ε} {actions : List (Action ε)}
    (opened : (q.run actions).receiving = true) {ended : Ended} (member : ended ∈ q.log finished actions) :
    ended.outcome = .delivered := by
  induction actions using List.reverseRecOn with
  | nil => cases member
  | append_singleton actions action ih =>
    have still := receiving_of_concat opened
    rw [log_concat, List.mem_append] at member
    rcases member with before | now
    · exact ih still before
    · exact outcome_of_finished still now

/-- While there is a receiver, what was delivered was received or lies in the slot. -/
theorem slot_run (q : EventQueue ε) (actions : List (Action ε)) (opened : (q.run actions).receiving = true) :
    deliveries (q.log finished actions) + q.slot.toList.length =
      (q.log received actions).length + (q.run actions).slot.toList.length := by
  -- From the end, as it is only in the end that the receiver is known to live.
  induction actions using List.reverseRecOn with
  | nil => simp [log, deliveries]
  | append_singleton actions action ih =>
    have before := ih (receiving_of_concat opened)
    rw [run_append, run_cons, run_nil] at opened ⊢
    have now := (q.run actions).slot_step action opened
    rw [log_concat, log_concat, deliveries_append, List.length_append]
    omega

/-- What calls do until none can go on is a run of single moves. -/
theorem progressUpTo_eq_run (n : Nat) (q : EventQueue ε) : ∃ moves, q.progressUpTo n =
    (q.run (List.replicate moves .progress), q.log finished (List.replicate moves .progress)) := by
  induction n generalizing q with
  | zero => exact ⟨0, rfl⟩
  | succ n ih =>
    rw [progressUpTo]
    split
    · exact ⟨0, rfl⟩
    · rename_i next ended move
      obtain ⟨moves, rest⟩ := ih next
      refine ⟨moves + 1, ?_⟩
      rw [List.replicate_succ, run_cons, log, finished_progress move, step_of_progress? move, rest]

/-- Nobody calls, offers, polls or gives up: there are only the receiver's asking for events and what waiting
calls do by themselves. -/
def Undisturbed (later : List (Action ε)) : Prop := ∀ action ∈ later, action = .receive ∨ action = .progress

/-- While nothing else happens, calls end only by delivering, in their order. -/
theorem undisturbed_step {q : EventQueue ε} (opened : q.receiving = true) {action : Action ε}
    (own : action = .receive ∨ action = .progress) :
    (q.step action).1.receiving = true ∧ (q.step action).1.owned = q.owned ∧
      ∃ done, q.finished action = done.map (⟨·, .delivered⟩) ∧ done ++ (q.step action).1.tickets = q.tickets := by
  have receiving : (q.step action).1.receiving = true := by
    rw [← Bool.not_eq_false, receiving_step, opened]
    rcases own with rfl | rfl <;> simp
  rcases own with rfl | rfl
  · refine ⟨receiving, ?_, [], rfl, by simp [step, tickets, q.holder_waiting_calls_receive]⟩
    simp only [step, receive, opened, if_true]
    split <;> rfl
  · cases move : q.progress? with
    | none => exact ⟨receiving, by simp [step, move], [], by simp [finished, step, move], by simp [step, move]⟩
    | some result =>
      obtain ⟨next, ended⟩ := result
      have progress := progress_of_progress? move
      rw [finished_progress move, step_of_progress? move] at *
      refine ⟨receiving, ?_, ended.toList.map (·.ticket), ?_, progress.tickets_eq⟩
      · cases progress <;> rfl
      · cases progress with
        | letDown held closed => simp [opened] at closed
        | delivered held opened free => rfl
        | turnedAway free line closed => simp [opened] at closed
        | locked free line opened rotated => rfl

theorem undisturbed_run {q : EventQueue ε} (opened : q.receiving = true) {later : List (Action ε)}
    (own : Undisturbed later) :
    (q.run later).receiving = true ∧ (q.run later).owned = q.owned ∧
      ∃ done, q.log finished later = done.map (⟨·, .delivered⟩) ∧ done ++ (q.run later).tickets = q.tickets := by
  induction later generalizing q with
  | nil => exact ⟨opened, rfl, [], rfl, rfl⟩
  | cons action rest ih =>
    obtain ⟨receiving, owned, done, first, line⟩ := undisturbed_step opened (own action List.mem_cons_self)
    obtain ⟨last, ownedLast, more, others, left⟩ :=
      ih receiving fun next member => own next (List.mem_cons_of_mem _ member)
    refine ⟨last, ownedLast.trans owned, done ++ more, ?_, ?_⟩
    · rw [log, first, others, List.map_append]
    · rw [run_cons, List.append_assoc, left, line]

/-- From a state in which there is an event to take, and in which nothing else happens, whenever no call can go
on there have been as many deliveries in their order as receptions, until all calls have ended, and there is
an event to take until one more was received than there were calls. -/
theorem undisturbed_quiet {q : EventQueue ε} (opened : q.receiving = true) (full : q.slot.isSome)
    {later : List (Action ε)} (own : Undisturbed later) (quiet : (q.run later).progress? = none) :
    let n := (q.log received later).length
    q.log finished later = (q.tickets.take n).map (⟨·, .delivered⟩) ∧
      (q.run later).tickets = q.tickets.drop n ∧
      ((q.run later).slot.isSome ↔ n < q.tickets.length + 1) := by
  intro n
  obtain ⟨still, -, done, ended, line⟩ := undisturbed_run opened own
  have balance := q.slot_run later still
  obtain ⟨e, filled⟩ := Option.isSome_iff_exists.mp full
  rw [ended, deliveries_map, filled, Option.toList_some, List.length_singleton] at balance
  have whole : done.length + (q.run later).tickets.length = q.tickets.length := by
    rw [← line, List.length_append]
  -- With an event in the slot there were as many deliveries as receptions. Without one nobody can be waiting.
  cases left : (q.run later).slot with
  | some next =>
    rw [left, Option.toList_some, List.length_singleton, Nat.add_right_cancel_iff] at balance
    rw [ended, ← line, ← show done.length = n from balance]
    refine ⟨by rw [List.take_left], by rw [List.drop_left], iff_of_true rfl ?_⟩
    rw [List.length_append]
    omega
  | none =>
    have nobody : (q.run later).tickets = [] := by
      by_contra waits
      have := (full_of_quiet quiet waits).2
      rw [left] at this
      cases this
    rw [left, Option.toList_none, List.length_nil] at balance
    rw [nobody, List.append_nil] at line
    subst line
    refine ⟨?_, ?_, iff_of_false (by simp) (by omega)⟩
    · rw [ended, List.take_of_length_le (by omega)]
    · rw [nobody, List.drop_of_length_le (by omega)]

theorem received_replicate_progress (q : EventQueue ε) (moves : Nat) :
    q.log received (List.replicate moves .progress) = [] := by
  induction moves generalizing q with
  | zero => rfl
  | succ moves ih => rw [List.replicate_succ, log, received_progress, ih, List.append_nil]

/-- The receiver asks for an event `n` times, and each time all calls that can go on do. Tells what it got and
which calls ended. -/
def drain : Nat → EventQueue ε → EventQueue ε × List (Reception ε) × List Ended
  | 0, q => (q, [], [])
  | n + 1, q =>
    let (q, reception) := q.receive
    let (q, ended) := q.settle
    let (q, receptions, later) := drain n q
    (q, reception :: receptions, ended ++ later)

/-- Where nobody waits and nothing lies delivered there is nothing to get. -/
theorem drain_of_empty {q : EventQueue ε} (opened : q.receiving = true) (empty : q.slot = none)
    (nobody : q.tickets = []) (n : Nat) :
    q.drain n = (q, List.replicate n (if q.owned then .nothing else .closed), []) := by
  have calls := List.append_eq_nil_iff.mp (List.map_eq_nil_iff.mp nobody)
  have free : q.holder = none := Option.toList_eq_nil_iff.mp calls.1
  have gone : q.isGone = !q.owned := by simp [isGone, free, calls.2]
  have received : q.receive = (q, if q.owned then .nothing else .closed) := by
    cases owned : q.owned <;> simp [receive, opened, empty, gone, owned]
  have settled : q.settle = (q, []) := by simp [settle, movesLeft, free, calls.2, progressUpTo]
  induction n with
  | zero => rfl
  | succ n ih => simp only [drain, received, settled, ih, List.replicate_succ, List.nil_append]

/-- The receiver takes the event that lies delivered, and the first of the calls that wait delivers in its
place and ends. -/
theorem receive_settle_of_full {q : EventQueue ε} (opened : q.receiving = true) {e : ε} (full : q.slot = some e) :
    q.receive.2 = .event e ∧ q.receive.1.settle.1.receiving = true ∧ q.receive.1.settle.1.owned = q.owned ∧
      q.receive.1.settle.2 = (q.tickets.take 1).map (⟨·, .delivered⟩) ∧
      q.receive.1.settle.1.tickets = q.tickets.drop 1 ∧
      (q.receive.1.settle.1.slot.isSome ↔ 1 < q.tickets.length + 1) := by
  obtain ⟨moves, settled⟩ := progressUpTo_eq_run q.receive.1.movesLeft q.receive.1
  have quiet := q.receive.1.progress?_settle
  have got : q.receive.2 = .event e := by simp [receive, opened, full]
  have taken : q.received .receive = [e] := by simp [received, step, got]
  have own : Undisturbed (.receive :: List.replicate moves .progress : List (Action ε)) := by
    intro action member
    rcases List.mem_cons.mp member with rfl | member
    · exact Or.inl rfl
    · exact Or.inr (List.eq_of_mem_replicate member)
  rw [settle, settled] at quiet ⊢
  obtain ⟨still, owned, -⟩ := undisturbed_run opened own
  have after := undisturbed_quiet opened (by rw [full]; rfl) own quiet
  rw [log, taken, received_replicate_progress, List.append_nil, List.length_singleton] at after
  exact ⟨got, still, owned, after⟩

/-- One event lies delivered and calls wait behind it: the receiver gets one event for each of them and one
more, and each time it gets one the first of them ends. -/
theorem drain_of_full {q : EventQueue ε} (opened : q.receiving = true) (full : q.slot.isSome) (n : Nat) :
    ∃ events : List ε, events.length = min n (q.tickets.length + 1) ∧
      (q.drain n).2.1 = events.map .event ++
        List.replicate (n - (q.tickets.length + 1)) (if q.owned then .nothing else .closed) ∧
      (q.drain n).2.2 = (q.tickets.take n).map (⟨·, .delivered⟩) := by
  induction n generalizing q with
  | zero => exact ⟨[], by simp [drain]⟩
  | succ n ih =>
    obtain ⟨e, filled⟩ := Option.isSome_iff_exists.mp full
    obtain ⟨got, still, owned, ended, left, filledAgain⟩ := receive_settle_of_full opened filled
    simp only [drain, got, ended]
    cases line : q.tickets with
    | nil =>
      have empty : q.receive.1.settle.1.slot = none := by simpa [line] using filledAgain
      rw [drain_of_empty still empty (by simpa [line] using left), owned]
      exact ⟨[e], by simp⟩
    | cons ticket rest =>
      obtain ⟨events, length, receptions, later⟩ := ih still (filledAgain.mpr (by simp [line]))
      rw [line, List.drop_succ_cons, List.drop_zero] at left
      rw [left] at length receptions later
      refine ⟨e :: events, ?_, ?_, ?_⟩
      · simp only [List.length_cons, length]
        omega
      · rw [receptions, owned, List.length_cons, Nat.add_sub_add_right, List.map_cons, List.cons_append]
      · rw [later]
        rfl

/-- Of the calls that got the lock of an open channel, each of which took an event out of the sequence for
delivery, no more than one has not ended and was not abandoned. -/
theorem eq_of_admitted {actions : List (Action ε)} {call other : Call ε}
    (had : call ∈ ({} : EventQueue ε).log admitted actions)
    (also : other ∈ ({} : EventQueue ε).log admitted actions)
    (waits : call.ticket ∈ (({} : EventQueue ε).run actions).tickets)
    (waitsToo : other.ticket ∈ (({} : EventQueue ε).run actions).tickets) : call = other := by
  have inLine : (({} : EventQueue ε).log obtained actions).Sublist (({} : EventQueue ε).log made actions) :=
    (List.sublist_append_left _ _).trans (({} : EventQueue ε).waiting_run actions)
  have locked {call : Call ε} (had : call ∈ ({} : EventQueue ε).log admitted actions)
      (waits : call.ticket ∈ (({} : EventQueue ε).run actions).tickets) :
      call ∈ ({} : EventQueue ε).log made actions ∧
        ∃ holder, (({} : EventQueue ε).run actions).holder = some holder ∧ holder.ticket = call.ticket := by
    have got := (({} : EventQueue ε).log_sublist actions admitted_sublist_obtained).subset had
    refine ⟨inLine.subset got, ?_⟩
    obtain ⟨holder, member, same⟩ := List.mem_map.mp waits
    rcases List.mem_append.mp member with held | line
    · exact ⟨holder, Option.mem_toList.mp held, same⟩
    · exact absurd same.symm (ticket_ne_of_obtained got line)
  obtain ⟨known, holder, held, own⟩ := locked had waits
  obtain ⟨knownToo, again, heldToo, ownToo⟩ := locked also waitsToo
  obtain rfl : holder = again := Option.some.inj (held.symm.trans heldToo)
  exact call_eq_of_ticket known knownToo (own.symm.trans ownToo)

/-- Calls wait for the receiver and never in vain. Each call made has ended, was abandoned or waits, in the
order of the calls. At most one event lies delivered, and at most one call that waits has taken an event out
of the sequence. Deliveries are counted. While the receiver lives calls end only by delivering, and what they
delivered are the events received and the one that lies delivered. Once no call can go on, which comes about
by a number of moves that calls make by themselves, some wait only where a living receiver has an event to
take. And then the receiver gets just one event more than there are calls, and they all deliver in their
order. -/
theorem calls_never_wait_in_vain (actions : List (Action ε)) :
    let start : EventQueue ε := {}
    let q := start.run actions
    ((start.log finished actions).map (·.ticket) ++ start.log abandoned actions ++ q.tickets).Perm
      (List.range q.calls) ∧
    q.tickets.Pairwise (· < ·) ∧
    q.slot.toList.length ≤ deliveryCapacity ∧
    (∀ call ∈ start.log admitted actions, ∀ other ∈ start.log admitted actions, call.ticket ∈ q.tickets →
      other.ticket ∈ q.tickets → call = other) ∧
    q.figures.delivered = deliveries (start.log finished actions) ∧
    (q.receiving = true → (∀ ended ∈ start.log finished actions, ended.outcome = .delivered) ∧
      deliveries (start.log finished actions) =
        (start.log received actions).length + q.slot.toList.length) ∧
    (q.settle.1.progress? = none ∧ ∃ moves, q.settle =
      (q.run (List.replicate moves .progress), q.log finished (List.replicate moves .progress))) ∧
    (q.progress? = none → q.tickets ≠ [] → q.receiving = true ∧ q.slot.isSome) ∧
    (q.receiving = true → q.slot.isSome → ∀ n, ∃ events : List ε,
      events.length = min n (q.tickets.length + 1) ∧
      (q.drain n).2.1 = events.map .event ++
        List.replicate (n - (q.tickets.length + 1)) (if q.owned then .nothing else .closed) ∧
      (q.drain n).2.2 = (q.tickets.take n).map (⟨·, .delivered⟩)) := by
  intro start q
  have calls := tickets_run (orderly_new (ε := ε)) actions
  obtain ⟨count, numbers⟩ := start.calls_run actions
  refine ⟨?_, (orderly_run orderly_new actions).rising, ?_, ?_, ?_, ?_, ?_, full_of_quiet, drain_of_full⟩
  · have range : (start.log made actions).map (·.ticket) = List.range q.calls := by
      rw [numbers, List.range_eq_range', ← count.trans (Nat.zero_add _)]
    rw [← range]
    exact calls
  · cases q.slot <;> simp [deliveryCapacity]
  · exact fun call had other also waits waitsToo => eq_of_admitted had also waits waitsToo
  · exact (start.delivered_run actions).trans (Nat.zero_add _)
  · exact fun opened => ⟨fun ended member => outcome_run opened member, start.slot_run actions opened⟩
  · exact ⟨q.progress?_settle, progressUpTo_eq_run q.movesLeft q⟩

end EventQueue

end PartitionLease

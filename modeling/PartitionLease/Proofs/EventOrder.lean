import Mathlib.Data.List.Nodup
import Mathlib.Data.List.Perm.Subperm
import PartitionLease.Proofs.EventConservation

namespace PartitionLease

namespace EventQueue

variable {ε : Type}

/-- The call that is next to get the delivery lock, while nobody holds it. -/
def turn? (q : EventQueue ε) : Option (Call ε) :=
  match q.holder with
  | some _ => none
  | none => q.waiting.head?

/-- The calls to notify as they are made. -/
def made (q : EventQueue ε) : Action ε → List (Call ε)
  | .notify e => [⟨q.calls, e⟩]
  | _ => []

/-- The call that gets the delivery lock in a step, be it only to find the channel closed. -/
def obtained (q : EventQueue ε) : Action ε → List (Call ε)
  | .progress => q.turn?.toList
  | _ => []

/-- The call that gets the delivery lock of an open channel in a step. -/
def admitted (q : EventQueue ε) (action : Action ε) : List (Call ε) :=
  if q.receiving then q.obtained action else []

/-- What is put behind the others in a step: an event offered, or that of a call as it gets the delivery
lock of an open channel. -/
def entered (q : EventQueue ε) : Action ε → List ε
  | .offer e => [e]
  | action => (q.admitted action).map (·.event)

/-- What a call to notify takes out of the sequence in a step, and then holds for delivery. -/
def dispatched (q : EventQueue ε) : Action ε → List ε
  | .progress =>
    if q.holder.isNone then (q.step .progress).1.holder.toList.map (·.event) else []
  | _ => []

/-- The event that a poll or a notify takes out of the sequence in a step. -/
def popped (q : EventQueue ε) (action : Action ε) : List ε := q.polled action ++ q.dispatched action

/-- What goes out of the sequence in a step, popped or cleared, in the order in which it stood there. -/
def taken (q : EventQueue ε) (action : Action ε) : List ε := q.popped action ++ q.cleared action

/-- The events of the calls in line for the lock. -/
def carried (q : EventQueue ε) : List ε := q.waiting.map (·.event)

/-- What was popped for delivery and is not received yet, oldest first. -/
def inFlight (q : EventQueue ε) : List ε := q.slot.toList ++ q.holder.toList.map (·.event)

theorem step_progress (q : EventQueue ε) :
    q.turn? = none ∧ (q.step .progress).1 = q ∨ ∃ ended, Progress q (q.step .progress).1 ended := by
  cases move : q.progress? with
  | none =>
    refine Or.inl ⟨?_, by simp [step, move]⟩
    unfold progress? at move
    cases held : q.holder with
    | some call => simp [turn?, held]
    | none =>
      cases line : q.waiting with
      | nil => simp [turn?, held, line]
      | cons call rest =>
        -- The first in line can always do something while nobody holds the lock.
        simp only [held, line] at move
        split at move <;> cases move
  | some result =>
    obtain ⟨next, ended⟩ := result
    have after : (q.step .progress).1 = next := by simp [step, move]
    exact Or.inr ⟨ended, after ▸ progress_of_progress? move⟩

section Admission

variable {q : EventQueue ε} {call : Call ε} {head : ε}

theorem Admission.mem_waiting (admission : Admission q call head) : call ∈ q.waiting :=
  List.mem_of_mem_head? admission.first

theorem Admission.head?_tickets (admission : Admission q call head) : q.tickets.head? = some call.ticket := by
  simp [tickets, admission.free, admission.first]

theorem Admission.obtained_eq (admission : Admission q call head) : q.obtained .progress = [call] := by
  simp [obtained, turn?, admission.free, admission.first]

theorem Admission.entered_eq (admission : Admission q call head) : q.entered .progress = [call.event] := by
  simp [entered, admitted, admission.obtained_eq, admission.opened]

theorem Admission.mem_obtained {start : EventQueue ε} {earlier : List (Action ε)}
    (admission : Admission (start.run earlier) call head) (later : List (Action ε)) :
    call ∈ start.log obtained (earlier ++ .progress :: later) := by
  refine mem_log.mpr ⟨earlier, .progress, later, rfl, ?_⟩
  rw [admission.obtained_eq]
  exact List.mem_singleton_self call

end Admission

/-- What waiting calls do by themselves touches the sequence only when one gets the lock of an open
channel. -/
theorem admission_or_untouched (q : EventQueue ε) :
    (∃ call head, Admission q call head ∧ q.dispatched .progress = [head]) ∨
      q.entered .progress = [] ∧ q.dispatched .progress = [] ∧
        (q.step .progress).1.pending = q.pending := by
  simp only [entered, admitted, obtained, dispatched]
  rcases q.step_progress with ⟨noTurn, same⟩ | ⟨ended, progress⟩
  · cases held : q.holder <;> simp [same, noTurn, held]
  · generalize after : (q.step .progress).1 = next at *
    cases progress with
    | letDown held closed => simp [turn?, held]
    | delivered held opened free => simp [turn?, held]
    | turnedAway free line closed => simp [free, closed]
    | @locked call rest head pending figures free line opened rotated =>
      refine Or.inl ⟨call, head, ⟨free, by rw [line]; rfl, opened, ?_⟩, by simp [free]⟩
      rw [after]
      exact rotated

/-- Putting an event behind the others and taking the oldest at once is the same as doing one after the
other. -/
theorem poll_of_rotate (q : EventQueue ε) (e : ε) :
    ({ q with pending := q.pending ++ [e] } : EventQueue ε).poll = ((q.rotate e).1, some (q.rotate e).2) := by
  cases line : q.pending <;> simp [poll, rotate, publish, line]

theorem pending_step (q : EventQueue ε) (action : Action ε) :
    q.taken action ++ (q.step action).1.pending = q.pending ++ q.entered action := by
  cases action with
  | poll =>
    cases line : q.pending <;>
      simp [taken, popped, polled, dispatched, cleared, entered, admitted, obtained, step, poll, publish, line]
  | receive =>
    have same : q.receive.1.pending = q.pending := by
      unfold receive
      split
      · split <;> rfl
      · rfl
    simpa [taken, popped, polled, dispatched, cleared, entered, admitted, obtained, step] using same
  | cancel ticket =>
    obtain ⟨waiting, holder, left, -⟩ := q.cancel_eq ticket
    have same : (q.cancel ticket).1.pending = q.pending := by rw [left]
    simpa [taken, popped, polled, dispatched, cleared, entered, admitted, obtained, step] using same
  | progress =>
    have silent : q.polled .progress = [] := by
      cases move : q.progress? <;> simp [polled, step, move]
    simp only [taken, popped, silent, cleared, List.nil_append, List.append_nil]
    rcases q.admission_or_untouched with ⟨call, head, admission, oldest⟩ | ⟨nothing, nobody, same⟩
    · rw [oldest, admission.entered_eq, ← admission.rotated]
      rfl
    · rw [nothing, nobody, same, List.nil_append, List.append_nil]
  | offer _ | notify _ | clear | dropReceiver | dropOwner =>
    simp [taken, popped, polled, dispatched, cleared, entered, admitted, obtained, step, offer, notify, clear,
      dropReceiver, dropOwner, publish, recordOffered]

theorem inFlight_step (q : EventQueue ε) (action : Action ε) :
    (q.received action ++ (q.step action).1.inFlight).Sublist (q.inFlight ++ q.dispatched action) := by
  cases action with
  | receive =>
    have moved : q.received .receive ++ q.receive.1.inFlight = q.inFlight := by
      unfold received step receive
      cases q.receiving with
      | false => simp
      | true =>
        cases full : q.slot with
        | some e => simp [inFlight, full]
        | none => cases q.isGone <;> simp
    simp only [dispatched, List.append_nil]
    exact moved ▸ List.Sublist.refl _
  | poll =>
    have same : q.poll.1.inFlight = q.inFlight := by
      cases line : q.pending <;> simp [poll, inFlight, publish, line]
    simp [received, dispatched, step, same]
  | cancel ticket =>
    have fewer : (q.cancel ticket).1.inFlight.Sublist q.inFlight := by
      obtain ⟨waiting, holder, left, -, remaining⟩ := q.cancel_eq ticket
      rw [left]
      exact (remaining.map _).append_left _
    simpa [received, dispatched, step] using fewer
  | progress =>
    rw [received_progress, List.nil_append, dispatched]
    rcases q.step_progress with ⟨-, same⟩ | ⟨ended, progress⟩
    · simp [same]
    · generalize (q.step .progress).1 = next at *
      cases progress with
      | letDown held closed => simp [inFlight, held]
      | delivered held opened free => simp [inFlight, held, free]
      | turnedAway free line closed => simp [inFlight]
      | locked free line opened rotated => simp [inFlight, free]
  | dropReceiver => simp [received, dispatched, step, dropReceiver, inFlight]
  | offer _ | notify _ | clear | dropOwner => exact List.sublist_append_left _ _

theorem waiting_step (q : EventQueue ε) (action : Action ε) :
    (q.obtained action ++ (q.step action).1.waiting).Sublist (q.waiting ++ q.made action) := by
  cases action with
  | poll => simp [obtained, made, step, q.holder_waiting_calls_poll.2.1]
  | receive => simp [obtained, made, step, q.holder_waiting_calls_receive.2.1]
  | cancel ticket =>
    obtain ⟨waiting, holder, left, fewer, -⟩ := q.cancel_eq ticket
    simpa [obtained, made, step, left] using fewer
  | progress =>
    simp only [obtained, made, List.append_nil]
    rcases q.step_progress with ⟨noTurn, same⟩ | ⟨ended, progress⟩
    · simp [noTurn, same]
    · generalize (q.step .progress).1 = next at *
      cases progress with
      | letDown held closed => simp [turn?, held]
      | delivered held opened free => simp [turn?, held]
      | turnedAway free line closed => simp [turn?, free, line]
      | locked free line opened rotated => simp [turn?, free, line]
  | notify e => simp [obtained, made, step, notify, recordOffered]
  | offer _ | clear | dropReceiver | dropOwner => exact (List.append_nil _).symm ▸ List.Sublist.refl _

theorem admitted_sublist_obtained (q : EventQueue ε) (action : Action ε) :
    (q.admitted action).Sublist (q.obtained action) := by
  unfold admitted
  split
  · exact List.Sublist.refl _
  · exact List.nil_sublist _

/-- An event enters once, and not while its call is in line. -/
theorem entered_step (q : EventQueue ε) (action : Action ε) :
    (q.entered action ++ (q.step action).1.carried).Subperm (q.carried ++ action.handedIn) := by
  have line := ((((q.admitted_sublist_obtained action).append_right _).trans (q.waiting_step action)).map
    (·.event)).subperm
  simp only [List.map_append] at line
  cases action with
  | offer e => exact List.perm_append_comm.subperm
  | _ => exact line

theorem composes_subperm {α : Type} : Composes (α := α) List.Subperm where
  refl _ := List.Subperm.refl _
  trans := List.Subperm.trans
  append := List.Subperm.append

theorem calls_step (q : EventQueue ε) (action : Action ε) :
    (q.step action).1.calls = q.calls + (q.made action).length ∧
      (q.made action).map (·.ticket) = List.range' q.calls (q.made action).length := by
  rcases q.tickets_step action with ⟨e, rfl, -, calls⟩ | ⟨-, calls⟩
  · exact ⟨calls, rfl⟩
  · cases action with
    | notify e => simp [step, notify, recordOffered] at calls
    | _ => exact ⟨calls, rfl⟩

section Runs

variable (q : EventQueue ε) (actions : List (Action ε))

theorem calls_run : (q.run actions).calls = q.calls + (q.log made actions).length ∧
    (q.log made actions).map (·.ticket) = List.range' q.calls (q.log made actions).length := by
  induction actions generalizing q with
  | nil => exact ⟨rfl, rfl⟩
  | cons action rest ih =>
    obtain ⟨calls, numbers⟩ := q.calls_step action
    obtain ⟨later, others⟩ := ih (q.step action).1
    constructor
    · rw [run_cons, later, calls, log, List.length_append, Nat.add_assoc]
    · rw [log, List.map_append, numbers, others, calls, List.length_append, List.range'_append_1]

/-- What went out of the sequence and what is pending is what was pending and what entered, in order. -/
theorem pending_run : q.log taken actions ++ (q.run actions).pending = q.pending ++ q.log entered actions :=
  log_balance composes_eq pending_step q actions

theorem inFlight_run :
    (q.log received actions ++ (q.run actions).inFlight).Sublist (q.inFlight ++ q.log dispatched actions) :=
  log_balance composes_sublist inFlight_step q actions

theorem waiting_run :
    (q.log obtained actions ++ (q.run actions).waiting).Sublist (q.waiting ++ q.log made actions) :=
  log_balance composes_sublist waiting_step q actions

theorem entered_run : (q.log entered actions ++ (q.run actions).carried).Subperm
    (q.carried ++ actions.flatMap Action.handedIn) := by
  have handedIn : q.log (fun _ action => action.handedIn) actions = actions.flatMap Action.handedIn := by
    induction actions generalizing q with
    | nil => rfl
    | cons action rest ih => rw [log, ih, List.flatMap_cons]
  exact handedIn ▸ log_balance composes_subperm entered_step q actions

theorem log_sublist {α : Type} {fewer more : EventQueue ε → Action ε → List α}
    (sublist : ∀ q action, (fewer q action).Sublist (more q action)) :
    (q.log fewer actions).Sublist (q.log more actions) := by
  induction actions generalizing q with
  | nil => exact List.Sublist.refl _
  | cons action rest ih => exact (sublist q action).append (ih _)

theorem log_dispatched_sublist : (q.log dispatched actions).Sublist (q.log taken actions) :=
  q.log_sublist actions fun q action =>
    (List.sublist_append_right (q.polled action) (q.dispatched action)).trans (List.sublist_append_left _ _)

end Runs

/-- Where nothing is ever cleared, what goes out of the sequence is popped. -/
theorem log_taken_of_no_clear {actions : List (Action ε)} (noClear : .clear ∉ actions) (q : EventQueue ε) :
    q.log taken actions = q.log popped actions := by
  refine log_congr (fun action member q => ?_) q
  have kept : q.cleared action = [] := by
    cases action with
    | clear => exact absurd member noClear
    | _ => rfl
  rw [taken, kept, List.append_nil]

section New

variable {actions : List (Action ε)}

/-- Each call has a number of its own. -/
theorem call_eq_of_ticket {call other : Call ε} (known : call ∈ ({} : EventQueue ε).log made actions)
    (member : other ∈ ({} : EventQueue ε).log made actions) (same : call.ticket = other.ticket) :
    call = other := by
  have numbers := (({} : EventQueue ε).calls_run actions).2
  exact List.inj_on_of_nodup_map (numbers ▸ List.nodup_range') known member same

/-- A call that has had the lock is not in line any more. -/
theorem ticket_ne_of_obtained {call other : Call ε} (had : call ∈ ({} : EventQueue ε).log obtained actions)
    (waits : other ∈ (({} : EventQueue ε).run actions).waiting) : call.ticket ≠ other.ticket := by
  have numbers := (({} : EventQueue ε).calls_run actions).2
  have line := (({} : EventQueue ε).waiting_run actions).map (·.ticket)
  have distinct : ((({} : EventQueue ε).log made actions).map (·.ticket)).Nodup := numbers ▸ List.nodup_range'
  have apart := distinct.sublist line
  rw [List.map_append, List.nodup_append] at apart
  exact apart.2.2 _ (List.mem_map_of_mem had) _ (List.mem_map_of_mem waits)

/-- Where no event is handed in twice, those that have entered and those of the calls in line are all
different. -/
theorem nodup_entered (distinct : (actions.flatMap Action.handedIn).Nodup) :
    (({} : EventQueue ε).log entered actions ++ (({} : EventQueue ε).run actions).carried).Nodup := by
  obtain ⟨some, same, fewer⟩ := ({} : EventQueue ε).entered_run actions
  exact same.nodup_iff.mp (distinct.sublist fewer)

end New

theorem polled_poll (q : EventQueue ε) : q.polled .poll = q.pending.take 1 := by
  cases line : q.pending <;> simp [polled, step, poll, line]

/-- A call that puts its event into the sequence takes one out in the same step. -/
theorem length_dispatched_progress (q : EventQueue ε) :
    (q.dispatched .progress).length = (q.entered .progress).length := by
  rcases q.admission_or_untouched with ⟨call, head, admission, oldest⟩ | ⟨nothing, nobody, -⟩
  · rw [oldest, admission.entered_eq]
    rfl
  · rw [nothing, nobody]

/-- Whatever polls, offers, clears, calls and cancellations come in between, events go first in, first
out. The events that have entered are, in order, those taken out and those pending, so what is pending is
the end of them. A pop yields the first that had not been taken, and there is a pop wherever there is an
event to poll or a call puts its own event in. Calls get the delivery lock in the order in which they were
made, and those still in line come behind. What was received and is on its way is in the order in which
calls took it out, and that is the order in which it entered. All of this is about each event handed in, not
about its value only, as the events may carry numbers that tell equal ones apart. -/
theorem events_leave_in_order (actions : List (Action ε)) :
    let start : EventQueue ε := {}
    let q := start.run actions
    start.log entered actions = start.log taken actions ++ q.pending ∧
      (∀ action, (start.log taken actions ++ q.popped action) <+: start.log entered (actions ++ [action])) ∧
      q.polled .poll = q.pending.take 1 ∧
      (q.dispatched .progress).length = (q.entered .progress).length ∧
      (∀ (r : EventQueue ε) (e : ε),
        ({ r with pending := r.pending ++ [e] } : EventQueue ε).poll = ((r.rotate e).1, some (r.rotate e).2)) ∧
      (start.log obtained actions ++ q.waiting).Sublist (start.log made actions) ∧
      (start.log made actions).map (·.ticket) = List.range q.calls ∧
      (start.log received actions ++ q.slot.toList ++ q.holder.toList.map (·.event)).Sublist
        (start.log dispatched actions) ∧
      (start.log dispatched actions).Sublist (start.log entered actions) ∧
      (.clear ∉ actions → start.log entered actions = start.log popped actions ++ q.pending) := by
  intro start q
  have whole : start.log taken actions ++ q.pending = start.log entered actions := start.pending_run actions
  have inLine : (start.log obtained actions ++ q.waiting).Sublist (start.log made actions) :=
    start.waiting_run actions
  have onTheirWay : (start.log received actions ++ q.inFlight).Sublist (start.log dispatched actions) :=
    start.inFlight_run actions
  obtain ⟨calls, numbers⟩ := start.calls_run actions
  refine ⟨whole.symm, ?_, q.polled_poll, q.length_dispatched_progress, poll_of_rotate, inLine, ?_, ?_, ?_, ?_⟩
  · intro action
    have next : start.log taken (actions ++ [action]) ++ (start.run (actions ++ [action])).pending =
        start.log entered (actions ++ [action]) := start.pending_run _
    rw [log_concat, taken] at next
    refine ⟨q.cleared action ++ (start.run (actions ++ [action])).pending, ?_⟩
    rw [← next]
    simp only [List.append_assoc, q]
  · rw [numbers, List.range_eq_range']
    congr 1
    exact (calls.trans (Nat.zero_add _)).symm
  · rwa [inFlight, ← List.append_assoc] at onTheirWay
  · rw [← whole]
    exact (start.log_dispatched_sublist actions).trans (List.sublist_append_left _ _)
  · intro noClear
    rw [← whole, log_taken_of_no_clear noClear]

end EventQueue

end PartitionLease

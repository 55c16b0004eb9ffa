import PartitionLease.EventQueue.Action

namespace PartitionLease

namespace EventQueue

variable {ε : Type}

/-- What an action brings into the queue. -/
def Action.handedIn : Action ε → List ε
  | .offer e | .notify e => [e]
  | _ => []

/-- What becomes of a queue when one thing after another happens to it. -/
def run (q : EventQueue ε) (actions : List (Action ε)) : EventQueue ε :=
  actions.foldl (fun q action => (q.step action).1) q

/-- What single steps show, collected over a run. -/
def log {α : Type} (reading : EventQueue ε → Action ε → List α) (q : EventQueue ε) :
    List (Action ε) → List α
  | [] => []
  | action :: rest => reading q action ++ log reading (q.step action).1 rest

/-- The numbers of the calls that wait, that of the holder of the lock first. -/
def tickets (q : EventQueue ε) : List Nat := (q.holder.toList ++ q.waiting).map (·.ticket)

@[simp] theorem run_nil (q : EventQueue ε) : q.run [] = q := rfl

@[simp] theorem run_cons (q : EventQueue ε) (action : Action ε) (rest : List (Action ε)) :
    q.run (action :: rest) = (q.step action).1.run rest := rfl

theorem run_append (q : EventQueue ε) (first later : List (Action ε)) :
    q.run (first ++ later) = (q.run first).run later := List.foldl_append

theorem log_append {α : Type} (reading : EventQueue ε → Action ε → List α) (q : EventQueue ε)
    (first later : List (Action ε)) :
    q.log reading (first ++ later) = q.log reading first ++ (q.run first).log reading later := by
  induction first generalizing q with
  | nil => rfl
  | cons action rest ih => simp only [List.cons_append, log, ih, run_cons, List.append_assoc]

theorem log_concat {α : Type} (reading : EventQueue ε → Action ε → List α) (q : EventQueue ε)
    (actions : List (Action ε)) (action : Action ε) :
    q.log reading (actions ++ [action]) = q.log reading actions ++ reading (q.run actions) action := by
  rw [log_append, log, log, List.append_nil]

theorem log_congr {α : Type} {first second : EventQueue ε → Action ε → List α} {actions : List (Action ε)}
    (agree : ∀ action ∈ actions, ∀ q, first q action = second q action) (q : EventQueue ε) :
    q.log first actions = q.log second actions := by
  induction actions generalizing q with
  | nil => rfl
  | cons action rest ih =>
    have others := ih fun next member => agree next (List.mem_cons_of_mem action member)
    rw [log, log, agree action List.mem_cons_self, others]

/-- Ways to compare lists that can be chained and put side by side. -/
structure Composes {α : Type} (R : List α → List α → Prop) : Prop where
  refl : ∀ l, R l l
  trans : ∀ {a b c}, R a b → R b c → R a c
  append : ∀ {a b c d}, R a b → R c d → R (a ++ c) (b ++ d)

theorem composes_eq {α : Type} : Composes (α := α) (· = ·) where
  refl _ := rfl
  trans := Eq.trans
  append := by
    rintro a b c d rfl rfl
    rfl

theorem composes_sublist {α : Type} : Composes (α := α) List.Sublist where
  refl := List.Sublist.refl
  trans := List.Sublist.trans
  append := List.Sublist.append

/-- What came out and what a queue still has compare to what it had and what came in, over a run as they
do in a step. -/
theorem log_balance {α : Type} {R : List α → List α → Prop} (composes : Composes R)
    {view : EventQueue ε → List α} {into out : EventQueue ε → Action ε → List α}
    (step : ∀ q action, R (out q action ++ view (q.step action).1) (view q ++ into q action))
    (q : EventQueue ε) (actions : List (Action ε)) :
    R (q.log out actions ++ view (q.run actions)) (view q ++ q.log into actions) := by
  induction actions generalizing q with
  | nil => simpa [log] using composes.refl (view q)
  | cons action rest ih =>
    have later := composes.append (composes.refl (out q action)) (ih (q.step action).1)
    have first := composes.append (step q action) (composes.refl ((q.step action).1.log into rest))
    simp only [log, run_cons, List.append_assoc] at first later ⊢
    exact composes.trans later first

theorem mem_log {α : Type} {reading : EventQueue ε → Action ε → List α} {q : EventQueue ε}
    {actions : List (Action ε)} {x : α} :
    x ∈ q.log reading actions ↔
      ∃ before action after, actions = before ++ action :: after ∧
        x ∈ reading (q.run before) action := by
  induction actions generalizing q with
  | nil => simp [log]
  | cons first rest ih =>
    rw [log, List.mem_append, ih]
    constructor
    · rintro (now | ⟨before, action, after, rfl, later⟩)
      · exact ⟨[], first, rest, rfl, now⟩
      · exact ⟨first :: before, action, after, rfl, later⟩
    · rintro ⟨before, action, after, split, seen⟩
      cases before with
      | nil =>
        obtain ⟨rfl, rfl⟩ := List.cons.inj split
        exact Or.inl seen
      | cons start others =>
        obtain ⟨rfl, rfl⟩ := List.cons.inj split
        exact Or.inr ⟨others, action, after, rfl, seen⟩

theorem pending_rotate (q : EventQueue ε) (e : ε) :
    (q.rotate e).2 :: (q.rotate e).1.pending = q.pending ++ [e] := by
  unfold rotate
  split
  · rename_i none
    simp [publish, none]
  · rename_i head rest line
    simp [publish, line]

theorem rotate_eq (q : EventQueue ε) (e : ε) :
    ∃ pending figures, (q.rotate e).1 = { q with pending := pending, figures := figures } := by
  unfold rotate
  split <;> exact ⟨_, _, rfl⟩

/-- What a waiting call can do by itself. -/
inductive Progress (q : EventQueue ε) : EventQueue ε → Option Ended → Prop
  | letDown {call : Call ε} (held : q.holder = some call) (closed : q.receiving = false) :
      Progress q { q with holder := none } (some ⟨call.ticket, .channelClosed⟩)
  | delivered {call : Call ε} {figures : EventFigures} (held : q.holder = some call)
      (opened : q.receiving = true) (free : q.slot = none) :
      Progress q { q with holder := none, slot := some call.event, figures := figures }
        (some ⟨call.ticket, .delivered⟩)
  | turnedAway {call : Call ε} {rest : List (Call ε)} (free : q.holder = none)
      (line : q.waiting = call :: rest) (closed : q.receiving = false) :
      Progress q { q with waiting := rest } (some ⟨call.ticket, .channelClosed⟩)
  | locked {call : Call ε} {rest : List (Call ε)} {head : ε} {pending : List ε} {figures : EventFigures}
      (free : q.holder = none) (line : q.waiting = call :: rest) (opened : q.receiving = true)
      (rotated : head :: pending = q.pending ++ [call.event]) :
      Progress q { q with
        pending := pending
        waiting := rest
        holder := some ⟨call.ticket, head⟩
        figures := figures } none

theorem progress_of_progress? {q next : EventQueue ε} {ended : Option Ended}
    (move : q.progress? = some (next, ended)) : Progress q next ended := by
  unfold progress? at move
  split at move
  · rename_i call held
    split at move
    · rename_i closed
      cases move
      exact .letDown held (by simpa using closed)
    · rename_i opened
      split at move
      · cases move
      · rename_i free
        cases move
        exact .delivered held (by simpa using opened) free
  · rename_i free
    split at move
    · cases move
    · rename_i call rest line
      split at move
      · rename_i closed
        cases move
        exact .turnedAway free line (by simpa using closed)
      · rename_i opened
        obtain ⟨pending, figures, same⟩ := rotate_eq { q with waiting := rest } call.event
        have order := pending_rotate { q with waiting := rest } call.event
        rw [same] at order
        simp only [same, Option.some.injEq, Prod.mk.injEq] at move
        obtain ⟨rfl, rfl⟩ := move
        exact .locked free line (by simpa using opened) order

theorem Progress.closed {q next : EventQueue ε} {ticket : Nat}
    (progress : Progress q next (some ⟨ticket, .channelClosed⟩)) :
    q.receiving = false ∧
      ((∃ call, q.holder = some call ∧ call.ticket = ticket) ∨
        q.holder = none ∧ ∃ call, q.waiting.head? = some call ∧ call.ticket = ticket) := by
  cases progress with
  | letDown held closed => exact ⟨closed, Or.inl ⟨_, held, rfl⟩⟩
  | turnedAway free line closed => exact ⟨closed, Or.inr ⟨free, _, by rw [line]; rfl, rfl⟩⟩

/-- What an attempt to abandon a call can come to. -/
inductive Cancellation (q : EventQueue ε) (ticket : Nat) : EventQueue ε → Bool → Prop
  | head {call : Call ε} (held : q.holder = some call) (own : call.ticket = ticket) :
      Cancellation q ticket { q with holder := none } true
  | inLine (elsewhere : ∀ call, q.holder = some call → call.ticket ≠ ticket)
      (waits : ∃ call ∈ q.waiting, call.ticket = ticket) :
      Cancellation q ticket { q with waiting := q.waiting.filter (·.ticket != ticket) } true
  | absent (ended : ticket ∉ q.tickets) : Cancellation q ticket q false

theorem cancellation (q : EventQueue ε) (ticket : Nat) :
    Cancellation q ticket (q.cancel ticket).1 (q.cancel ticket).2 := by
  unfold cancel
  split
  · rename_i own
    obtain ⟨call, held, same⟩ := Option.any_eq_true _ _ |>.mp own
    exact .head held (by simpa using same)
  · rename_i elsewhere
    have other : ∀ call, q.holder = some call → call.ticket ≠ ticket := by
      intro call held same
      simp [held, same] at elsewhere
    split
    · rename_i waits
      exact .inLine other (by simpa using waits)
    · rename_i absent
      refine .absent ?_
      simp only [tickets, List.mem_map, List.mem_append, Option.mem_toList, not_exists, not_and]
      rintro call (held | waits) same
      · exact other call held same
      · exact absent (List.any_eq_true.mpr ⟨call, waits, by simpa using same⟩)

/-- A call that is abandoned leaves its place, be it in line or at the lock, and nothing else changes. -/
theorem cancel_eq (q : EventQueue ε) (ticket : Nat) :
    ∃ waiting holder, (q.cancel ticket).1 = { q with waiting := waiting, holder := holder } ∧
      waiting.Sublist q.waiting ∧ holder.toList.Sublist q.holder.toList := by
  have cancelled := q.cancellation ticket
  generalize (q.cancel ticket).1 = next at *
  generalize (q.cancel ticket).2 = was at *
  cases cancelled with
  | head _ _ => exact ⟨_, _, rfl, List.Sublist.refl _, List.nil_sublist _⟩
  | inLine _ _ => exact ⟨_, _, rfl, List.filter_sublist, List.Sublist.refl _⟩
  | absent _ => exact ⟨_, _, rfl, List.Sublist.refl _, List.Sublist.refl _⟩

/-- Calls wait in the order they were made, and each has a number of its own. -/
structure Orderly (q : EventQueue ε) : Prop where
  rising : q.tickets.Pairwise (· < ·)
  given : ∀ ticket ∈ q.tickets, ticket < q.calls

/-- A call that ends leaves the calls that wait, and the others keep their places. -/
theorem Progress.tickets_eq {q next : EventQueue ε} {ended : Option Ended} (progress : Progress q next ended) :
    ended.toList.map (·.ticket) ++ next.tickets = q.tickets := by
  cases progress with
  | letDown held closed => simp [tickets, held]
  | delivered held opened free => simp [tickets, held]
  | turnedAway free line closed => simp [tickets, free, line]
  | locked free line opened rotated => simp [tickets, free, line]

theorem tickets_progress {q next : EventQueue ε} {ended : Option Ended} (progress : Progress q next ended) :
    next.tickets.Sublist q.tickets ∧ next.calls = q.calls :=
  ⟨progress.tickets_eq ▸ List.sublist_append_right _ _, by cases progress <;> rfl⟩

theorem tickets_cancellation {q next : EventQueue ε} {ticket : Nat} {was : Bool}
    (cancelled : Cancellation q ticket next was) :
    next.tickets.Sublist q.tickets ∧ next.calls = q.calls := by
  cases cancelled with
  | head held own => exact ⟨by simp [tickets, held], rfl⟩
  | inLine elsewhere waits =>
    exact ⟨((List.filter_sublist.append_left _).map _), rfl⟩
  | absent ended => exact ⟨List.Sublist.refl _, rfl⟩

theorem holder_waiting_calls_poll (q : EventQueue ε) :
    q.poll.1.holder = q.holder ∧ q.poll.1.waiting = q.waiting ∧ q.poll.1.calls = q.calls := by
  unfold poll
  split <;> exact ⟨rfl, rfl, rfl⟩

theorem holder_waiting_calls_receive (q : EventQueue ε) :
    q.receive.1.holder = q.holder ∧ q.receive.1.waiting = q.waiting ∧ q.receive.1.calls = q.calls := by
  unfold receive
  split
  · split <;> exact ⟨rfl, rfl, rfl⟩
  · exact ⟨rfl, rfl, rfl⟩

theorem tickets_step (q : EventQueue ε) (action : Action ε) :
    (∃ e, action = .notify e ∧ (q.step action).1.tickets = q.tickets ++ [q.calls] ∧
        (q.step action).1.calls = q.calls + 1) ∨
      (q.step action).1.tickets.Sublist q.tickets ∧ (q.step action).1.calls = q.calls := by
  cases action with
  | notify e =>
    refine Or.inl ⟨e, rfl, ?_, rfl⟩
    simp [step, notify, tickets, recordOffered]
  | cancel ticket => exact Or.inr (tickets_cancellation (q.cancellation ticket))
  | progress =>
    refine Or.inr ?_
    simp only [step]
    split
    · exact ⟨List.Sublist.refl _, rfl⟩
    · rename_i next ended move
      exact tickets_progress (progress_of_progress? move)
  | poll =>
    obtain ⟨holder, waiting, calls⟩ := q.holder_waiting_calls_poll
    exact Or.inr ⟨by simp [step, tickets, holder, waiting], calls⟩
  | receive =>
    obtain ⟨holder, waiting, calls⟩ := q.holder_waiting_calls_receive
    exact Or.inr ⟨by simp [step, tickets, holder, waiting], calls⟩
  | offer _ | clear | dropReceiver | dropOwner => exact Or.inr ⟨List.Sublist.refl _, rfl⟩

theorem orderly_new : ({} : EventQueue ε).Orderly := ⟨.nil, fun _ member => nomatch member⟩

theorem orderly_step {q : EventQueue ε} (orderly : q.Orderly) (action : Action ε) :
    (q.step action).1.Orderly := by
  rcases q.tickets_step action with ⟨e, rfl, line, calls⟩ | ⟨fewer, calls⟩
  · constructor
    · rw [line, List.pairwise_append]
      refine ⟨orderly.rising, List.pairwise_singleton _ _, ?_⟩
      intro ticket member last own
      have := orderly.given ticket member
      have := List.mem_singleton.mp own
      omega
    · intro ticket member
      rw [line, List.mem_append, List.mem_singleton] at member
      rcases member with old | rfl
      · have := orderly.given ticket old
        omega
      · omega
  · constructor
    · exact orderly.rising.sublist fewer
    · intro ticket member
      rw [calls]
      exact orderly.given ticket (fewer.subset member)

theorem orderly_run {q : EventQueue ε} (orderly : q.Orderly) (actions : List (Action ε)) :
    (q.run actions).Orderly := by
  induction actions generalizing q with
  | nil => exact orderly
  | cons action rest ih => exact ih (orderly_step orderly action)

theorem receiving_step (q : EventQueue ε) (action : Action ε) :
    (q.step action).1.receiving = false ↔ q.receiving = false ∨ action = .dropReceiver := by
  have same : action ≠ .dropReceiver → (q.step action).1.receiving = q.receiving := by
    intro other
    cases action with
    | dropReceiver => exact absurd rfl other
    | poll => simp only [step, poll]; split <;> rfl
    | receive =>
      simp only [step, receive]
      split
      · split <;> rfl
      · rfl
    | cancel ticket =>
      obtain ⟨waiting, holder, left, -⟩ := q.cancel_eq ticket
      change (q.cancel ticket).1.receiving = q.receiving
      rw [left]
    | progress =>
      simp only [step]
      split
      · rfl
      · rename_i move
        cases progress_of_progress? move <;> rfl
    | offer _ | notify _ | clear | dropOwner => rfl
  by_cases drop : action = .dropReceiver
  · subst drop
    simp [step, dropReceiver]
  · simp [same drop, drop]

/-- A call gets the lock of an open channel, puts its event behind the others and goes on with the oldest
one, `head`. -/
structure Admission (q : EventQueue ε) (call : Call ε) (head : ε) : Prop where
  free : q.holder = none
  first : q.waiting.head? = some call
  opened : q.receiving = true
  rotated : head :: (q.step .progress).1.pending = q.pending ++ [call.event]

/-- Who holds the lock after a step has held it before or gets it now. -/
theorem holder_step {q : EventQueue ε} {action : Action ε} {holder : Call ε}
    (held : (q.step action).1.holder = some holder) :
    q.holder = some holder ∨
      action = .progress ∧ ∃ call, call.ticket = holder.ticket ∧ Admission q call holder.event := by
  cases action with
  | poll => exact Or.inl (q.holder_waiting_calls_poll.1 ▸ held)
  | receive => exact Or.inl (q.holder_waiting_calls_receive.1 ▸ held)
  | cancel ticket =>
    obtain ⟨waiting, remaining, left, -, fewer⟩ := q.cancel_eq ticket
    have stays : remaining = some holder := (congrArg EventQueue.holder left).symm.trans held
    exact Or.inl (Option.mem_toList.mp (fewer.subset (Option.mem_toList.mpr stays)))
  | progress =>
    cases move : q.progress? with
    | none => exact Or.inl (by simpa [step, move] using held)
    | some result =>
      obtain ⟨next, ended⟩ := result
      have after : (q.step .progress).1 = next := by simp [step, move]
      rw [after] at held
      cases progress_of_progress? move with
      | letDown _ _ | delivered _ _ _ => cases held
      | turnedAway _ _ _ => exact Or.inl held
      | @locked call rest head pending figures free line opened rotated =>
        obtain rfl := Option.some.inj held
        refine Or.inr ⟨rfl, call, rfl, free, by rw [line]; rfl, opened, ?_⟩
        rw [after]
        exact rotated
  | offer _ | notify _ | clear | dropReceiver | dropOwner => exact Or.inl held

/-- Who holds the lock after a run has held it before, or got it in the run with the event then popped. -/
theorem holder_run {q : EventQueue ε} {actions : List (Action ε)} {holder : Call ε}
    (held : (q.run actions).holder = some holder) :
    q.holder = some holder ∨ ∃ earlier later call, actions = earlier ++ .progress :: later ∧
      call.ticket = holder.ticket ∧ Admission (q.run earlier) call holder.event := by
  induction actions generalizing q with
  | nil => exact Or.inl held
  | cons action rest ih =>
    rcases ih held with first | ⟨earlier, later, call, rfl, own, admission⟩
    · rcases holder_step first with before | ⟨rfl, call, own, admission⟩
      · exact Or.inl before
      · exact Or.inr ⟨[], rest, call, rfl, own, admission⟩
    · exact Or.inr ⟨action :: earlier, later, call, rfl, own, admission⟩

end EventQueue

end PartitionLease

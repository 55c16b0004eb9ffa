import PartitionLease.Proofs.EventOrder

namespace PartitionLease

namespace EventQueue

variable {ε : Type}

/-- In no move of its own does the call of this number change what is pending. It makes one when it stands
before all others that wait, the holder of the lock being the first of them. -/
def Spares (actions : List (Action ε)) (ticket : Nat) : Prop :=
  ∀ earlier later, actions = earlier ++ .progress :: later →
    (({} : EventQueue ε).run earlier).tickets.head? = some ticket →
    ((({} : EventQueue ε).run earlier).step .progress).1.pending = (({} : EventQueue ε).run earlier).pending

/-- Once a call has had the lock it never gets it again. -/
theorem Admission.not_again {earlier later : List (Action ε)} {call other : Call ε} {head next : ε}
    (admission : Admission (({} : EventQueue ε).run earlier) call head)
    (again : Admission (({} : EventQueue ε).run (earlier ++ .progress :: later)) other next) :
    call.ticket ≠ other.ticket :=
  ticket_ne_of_obtained (admission.mem_obtained later) again.mem_waiting

/-- A call gets the lock at most at one moment of a run. -/
theorem Admission.earlier_eq {earlier later before after : List (Action ε)} {call other : Call ε}
    {head next : ε}
    (admission : Admission (({} : EventQueue ε).run earlier) call head)
    (again : Admission (({} : EventQueue ε).run before) other next)
    (split : earlier ++ .progress :: later = before ++ .progress :: after)
    (same : call.ticket = other.ticket) : earlier = before := by
  rcases List.append_eq_append_iff.mp split with ⟨between, rfl, rest⟩ | ⟨between, rfl, rest⟩
  · cases between with
    | nil => exact (List.append_nil earlier).symm
    | cons action between =>
      obtain ⟨rfl, -⟩ := List.cons.inj rest
      exact absurd same (admission.not_again again)
  · cases between with
    | nil => exact List.append_nil before
    | cons action between =>
      obtain ⟨rfl, -⟩ := List.cons.inj rest
      exact absurd same.symm (again.not_again admission)

/-- Where no event is handed in twice, a call that gets the lock changes what is pending unless nothing
is. -/
theorem Admission.pending_eq_iff {earlier : List (Action ε)} {call : Call ε} {head : ε}
    (distinct : (earlier.flatMap Action.handedIn).Nodup)
    (admission : Admission (({} : EventQueue ε).run earlier) call head) :
    ((({} : EventQueue ε).run earlier).step .progress).1.pending = (({} : EventQueue ε).run earlier).pending ↔
      (({} : EventQueue ε).run earlier).pending = [] := by
  have rotated := admission.rotated
  have whole := ({} : EventQueue ε).pending_run earlier
  have apart := (List.nodup_append.mp (nodup_entered distinct)).2.2
  have carries := List.mem_map_of_mem (f := fun call : Call ε => call.event) admission.mem_waiting
  have absent : call.event ∉ (({} : EventQueue ε).run earlier).pending := by
    intro inside
    have entered : call.event ∈ ({} : EventQueue ε).log entered earlier := by
      rw [← List.nil_append (log entered _ _)]
      exact whole ▸ List.mem_append_right _ inside
    exact absurd rfl (apart _ entered _ carries)
  constructor
  · intro same
    rw [same] at rotated
    cases line : (({} : EventQueue ε).run earlier).pending with
    | nil => rfl
    | cons first rest =>
      rw [line] at rotated absent
      have behind : first :: rest = rest ++ [call.event] := (List.cons.inj rotated).2
      exact absurd (behind ▸ List.mem_append_right rest (List.mem_singleton_self _)) absent
  · intro empty
    rw [empty] at rotated ⊢
    exact (List.cons.inj rotated).2

theorem closed_of_failed {q : EventQueue ε} {ticket : Nat}
    (failed : (q.step .progress).2 = .progressed (some ⟨ticket, .channelClosed⟩)) :
    (q.step .progress).1.pending = q.pending ∧
      ((∃ head, q.holder = some ⟨ticket, head⟩) ∨
        q.holder = none ∧ ∃ call ∈ q.waiting, call.ticket = ticket) := by
  cases move : q.progress? with
  | none => simp [step, move] at failed
  | some result =>
    obtain ⟨next, ended⟩ := result
    have after : (q.step .progress).1 = next := by simp [step, move]
    obtain rfl : ended = some ⟨ticket, .channelClosed⟩ := by simpa [step, move] using failed
    have progress := progress_of_progress? move
    rw [after]
    constructor
    · cases progress <;> rfl
    · rcases progress.closed.2 with ⟨⟨own, head⟩, held, rfl⟩ | ⟨free, call, first, own⟩
      · exact Or.inl ⟨head, held⟩
      · exact Or.inr ⟨free, call, List.mem_of_mem_head? first, own⟩

/-- A call that fails because the channel is closed has left the sequence of pending events alone, unless it
had the delivery lock while the channel was open and something was pending then. Its event went behind the
others at that moment, the oldest of which it took out, and that is how the sequence stays when the call
fails with the event in its hands. -/
theorem failed_call_spares_iff {actions : List (Action ε)} {ticket : Nat}
    (distinct : (actions.flatMap Action.handedIn).Nodup)
    (failed : ((({} : EventQueue ε).run actions).step .progress).2 =
      .progressed (some ⟨ticket, .channelClosed⟩)) :
    let start : EventQueue ε := {}
    let q := start.run actions
    (q.step .progress).1.pending = q.pending ∧
      (q.holder = none ∧ Spares actions ticket ∨
        ∃ earlier later call head, actions = earlier ++ .progress :: later ∧ call.ticket = ticket ∧
          Admission (start.run earlier) call head ∧ q.holder = some ⟨ticket, head⟩ ∧
          (Spares actions ticket ↔ (start.run earlier).pending = [])) := by
  intro start q
  obtain ⟨kept, failure⟩ := closed_of_failed failed
  refine ⟨kept, ?_⟩
  rcases failure with ⟨head, held⟩ | ⟨free, call, waits, own⟩
  · rcases holder_run held with no | ⟨earlier, later, call, split, own, admission⟩
    · cases no
    · refine Or.inr ⟨earlier, later, call, head, split, own, admission, held, ?_⟩
      rw [split, List.flatMap_append] at distinct
      have unchanged := admission.pending_eq_iff (List.nodup_append.mp distinct).1
      constructor
      · intro spares
        exact unchanged.mp (spares earlier later split (admission.head?_tickets.trans (congrArg some own)))
      · intro empty before after splits first
        rcases (start.run before).admission_or_untouched with ⟨other, next, again, -⟩ | ⟨-, -, same⟩
        · -- The only move in which the call can have changed anything is the one in which it got the lock.
          have same := own.trans (Option.some.inj (first.symm.trans again.head?_tickets))
          obtain rfl := admission.earlier_eq again (split.symm.trans splits) same
          exact unchanged.mpr empty
        · exact same
  · refine Or.inl ⟨free, fun before after split first => ?_⟩
    rcases (start.run before).admission_or_untouched with ⟨other, next, admission, -⟩ | ⟨-, -, same⟩
    · have had : other ∈ start.log obtained actions := split ▸ admission.mem_obtained after
      have same := (Option.some.inj (first.symm.trans admission.head?_tickets)).symm
      exact absurd (same.trans own.symm) (ticket_ne_of_obtained had waits)
    · exact same

/-- A call fails in line for the lock, having left alone what is pending. -/
theorem turned_away_call_spares :
    let start : EventQueue Nat := {}
    let actions : List (Action Nat) :=
      [.notify 1, .progress, .progress, .offer 2, .notify 3, .dropReceiver]
    ((start.run actions).step .progress).2 = .progressed (some ⟨1, .channelClosed⟩) ∧
      ((start.run actions).step .progress).1.pending = [2] ∧ Spares actions 1 := by
  intro start actions
  have failed : ((start.run actions).step .progress).2 = .progressed (some ⟨1, .channelClosed⟩) := by decide
  obtain ⟨kept, ⟨-, spares⟩ | ⟨-, -, -, head, -, -, -, held, -⟩⟩ :=
    @failed_call_spares_iff Nat actions 1 (by decide) failed
  · exact ⟨failed, kept.trans (by decide), spares⟩
  · have free : (start.run actions).holder = none := by decide
    exact absurd held (free ▸ nofun)

/-- A call has the lock when the receiver goes. It fails, its own event is pending, and the one that was
pending before the call is lost with it. -/
theorem let_down_call_spoils_sequence :
    let start : EventQueue Nat := {}
    let before : List (Action Nat) := [.notify 1, .progress, .progress, .offer 2]
    let actions := before ++ [.notify 3, .progress, .dropReceiver]
    let q := start.run actions
    (start.run before).pending = [2] ∧ (start.run before).calls = 1 ∧
      (q.step .progress).2 = .progressed (some ⟨1, .channelClosed⟩) ∧
      (q.step .progress).1.pending = [3] ∧
      start.log lost (actions ++ [.progress]) = [1, 2] := by
  decide

end EventQueue

end PartitionLease

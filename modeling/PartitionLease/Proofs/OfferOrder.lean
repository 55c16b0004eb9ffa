import PartitionLease.Proofs.EventOrder

namespace PartitionLease

namespace EventQueue

section Order

variable {α : Type} {first second : α}

/-- In a list without repetition something stands before a given place if it is found before it. -/
theorem pair_sublist_iff {before after : List α} (distinct : (before ++ second :: after).Nodup) :
    [first, second].Sublist (before ++ second :: after) ↔ first ∈ before := by
  obtain ⟨-, here, apart⟩ := List.nodup_append.mp distinct
  constructor
  · intro order
    obtain ⟨early, late, split, inFront, behind⟩ := List.sublist_append_iff.mp order
    match early with
    | [] =>
      obtain rfl : [first, second] = late := split
      have later : second ∈ after := by
        rcases List.sublist_cons_iff.mp behind with further | ⟨rest, same, further⟩
        · exact further.subset (by simp)
        · obtain ⟨rfl, rfl⟩ := List.cons.inj same
          exact further.subset (by simp)
      exact absurd later (List.nodup_cons.mp here).1
    | next :: _ =>
      obtain rfl : first = next := (List.cons.inj split).1
      exact inFront.subset List.mem_cons_self
  · intro inFront
    exact (List.singleton_sublist.mpr inFront).append (List.singleton_sublist.mpr List.mem_cons_self)

/-- An order holds in a first part of a list that has the later of the two. -/
theorem pair_sublist_of_prefix {early whole : List α} (initial : early <+: whole) (distinct : whole.Nodup)
    (order : [first, second].Sublist whole) (member : second ∈ early) : [first, second].Sublist early := by
  obtain ⟨before, after, rfl⟩ := List.append_of_mem member
  obtain ⟨rest, rfl⟩ := initial
  rw [List.append_assoc, List.cons_append] at order distinct
  have inFront := (pair_sublist_iff distinct).mp order
  exact (List.singleton_sublist.mpr inFront).append (List.singleton_sublist.mpr List.mem_cons_self)

end Order

variable {ε : Type}

/-- The event of a call that still waits has entered if the call holds the lock, and only then. -/
theorem mem_entered_iff_of_waits {before between : List (Action ε)} {e : ε}
    (distinct : ((before ++ .notify e :: between).flatMap Action.handedIn).Nodup)
    (waits : (({} : EventQueue ε).run before).calls ∈
      (({} : EventQueue ε).run (before ++ .notify e :: between)).tickets) :
    e ∈ ({} : EventQueue ε).log entered (before ++ .notify e :: between) ↔
      (({} : EventQueue ε).run (before ++ .notify e :: between)).holder.map (·.ticket) =
        some (({} : EventQueue ε).run before).calls := by
  generalize whole : before ++ .notify e :: between = actions at *
  have own : ⟨(({} : EventQueue ε).run before).calls, e⟩ ∈ ({} : EventQueue ε).log made actions :=
    mem_log.mpr ⟨before, .notify e, between, whole.symm, List.mem_singleton_self _⟩
  have line := ({} : EventQueue ε).waiting_run actions
  have known : ∀ call ∈ ({} : EventQueue ε).log obtained actions ++ (({} : EventQueue ε).run actions).waiting,
      call.ticket = (({} : EventQueue ε).run before).calls → call.event = e := by
    intro call member same
    rw [call_eq_of_ticket (line.subset member) own same]
  constructor
  · intro inside
    obtain ⟨call, member, same⟩ := List.mem_map.mp waits
    rcases List.mem_append.mp member with holds | inLine
    · rw [Option.mem_toList.mp holds, Option.map_some, same]
    · -- An event that is still with a call in line is not among those that have entered.
      have event := known call (List.mem_append_right _ inLine) same
      have apart := (List.nodup_append.mp (nodup_entered distinct)).2.2
      exact absurd rfl (apart e inside e (List.mem_map.mpr ⟨call, inLine, event⟩))
  · intro holds
    obtain ⟨holder, held, same⟩ := Option.map_eq_some_iff.mp holds
    rcases holder_run held with no | ⟨earlier, later, call, split, ticket, admission⟩
    · cases no
    · have had : call ∈ ({} : EventQueue ε).log obtained actions := split ▸ admission.mem_obtained later
      have event := known call (List.mem_append_left _ had) (ticket.trans same)
      refine mem_log.mpr ⟨earlier, .progress, later, split, ?_⟩
      rw [admission.entered_eq, event]
      exact List.mem_singleton_self _

/-- An event offered while a call waits to deliver another stays behind the other exactly if the call
holds the delivery lock by then, however many wait. A call in line has not put its event into the sequence
yet, and does it behind all that is offered meanwhile. Events are taken out in the order in which they
entered. -/
theorem offered_behind_iff_locked {before between after : List (Action ε)} {e x : ε}
    (distinct : ((before ++ .notify e :: between ++ .offer x :: after).flatMap Action.handedIn).Nodup)
    (waits : (({} : EventQueue ε).run before).calls ∈
      (({} : EventQueue ε).run (before ++ .notify e :: between)).tickets) :
    let start : EventQueue ε := {}
    let actions := before ++ .notify e :: between ++ .offer x :: after
    let holds :=
      (start.run (before ++ .notify e :: between)).holder.map (·.ticket) = some (start.run before).calls
    ([e, x].Sublist (start.log entered actions) ↔ holds) ∧
      (¬ holds → e ∈ start.log entered actions → [x, e].Sublist (start.log entered actions)) ∧
      ∀ first second, [first, second].Sublist (start.log entered actions) →
        second ∈ start.log taken actions → [first, second].Sublist (start.log taken actions) := by
  intro start actions holds
  have inOrder : start.log entered actions = start.log entered (before ++ .notify e :: between) ++
      x :: ((start.run (before ++ .notify e :: between)).step (.offer x)).1.log entered after :=
    log_append entered start (before ++ .notify e :: between) (.offer x :: after)
  have once : (start.log entered actions).Nodup := (List.nodup_append.mp (nodup_entered distinct)).1
  rw [List.flatMap_append, List.nodup_append] at distinct
  obtain ⟨earlier, -, apart⟩ := distinct
  have different : e ≠ x := apart e (by simp [Action.handedIn]) x (by simp [Action.handedIn])
  have found : e ∈ start.log entered (before ++ .notify e :: between) ↔ holds :=
    mem_entered_iff_of_waits earlier waits
  refine ⟨?_, ?_, ?_⟩
  · rw [inOrder] at once ⊢
    exact (pair_sublist_iff once).trans found
  · intro inLine enters
    rw [inOrder, List.mem_append] at enters
    have late := (List.mem_cons.mp (enters.resolve_left (mt found.mp inLine))).resolve_left different
    rw [inOrder]
    exact ((List.singleton_sublist.mpr late).cons_cons x).trans (List.sublist_append_right _ _)
  · intro first second order member
    have initial : start.log taken actions <+: start.log entered actions :=
      ⟨_, start.pending_run actions⟩
    exact pair_sublist_of_prefix initial once order member

/-- The second of two events to be notified of lies in the hands of its call when a third is offered. -/
theorem third_stays_behind_second :
    let start : EventQueue Nat := {}
    let before : List (Action Nat) := [.notify 1, .progress, .progress]
    let actions := before ++ .notify 2 :: [.progress] ++ .offer 3 :: [.receive, .progress, .receive, .poll]
    (start.run (before ++ .notify 2 :: [.progress])).tickets = [1] ∧
      [2, 3].Sublist (start.log entered actions) ∧ [2, 3].Sublist (start.log taken actions) := by
  intro start before actions
  have waits : (start.run before).calls ∈ (start.run (before ++ .notify 2 :: [.progress])).tickets := by decide
  obtain ⟨behind, -, inOrder⟩ := @offered_behind_iff_locked Nat before [.progress]
    [.receive, .progress, .receive, .poll] 2 3 (by decide) waits
  have enters := behind.mpr (by decide)
  exact ⟨by decide, enters, inOrder 2 3 enters (by decide)⟩

/-- With a third call in line the fourth event, which is offered while the call waits, overtakes the third:
it is delivered, and the third is left to be polled. -/
theorem fourth_overtakes_third :
    let start : EventQueue Nat := {}
    let before : List (Action Nat) := [.notify 1, .progress, .progress, .notify 2, .progress]
    let waiting := start.run (before ++ [.notify 3])
    let actions := before ++ .notify 3 :: .offer 4 ::
      [.receive, .progress, .progress, .receive, .progress, .receive, .poll]
    (start.run before).calls = 2 ∧ waiting.tickets = [1, 2] ∧ waiting.progress? = none ∧
      start.log entered actions = [1, 2, 4, 3] ∧ start.log received actions = [1, 2, 4] ∧
      start.log polled actions = [3] := by
  decide

end EventQueue

end PartitionLease

import Mathlib.Algebra.GroupWithZero.Nat
import PartitionLease.Proofs.KeyEffects

namespace PartitionLease

/-- The whole milliseconds of several spans together, however many they are. -/
def Duration.sumMillis (spans : List Duration) : Nat := (spans.map fun span => span.totalNanos / 1000000).sum

theorem Duration.sumMillis_cons (span : Duration) (rest : List Duration) :
    sumMillis (span :: rest) = span.totalNanos / 1000000 + sumMillis rest := by
  rw [sumMillis, List.map_cons, List.sum_cons]
  rfl

theorem Duration.sumMillis_perm {spans others : List Duration} (perm : spans.Perm others) :
    sumMillis spans = sumMillis others := (perm.map _).sum_nat

namespace Clock

theorem now_le (c : Clock) : c.now.toNat ≤ word64Max := Nat.le_pred_of_lt c.now.toNat_lt_size

/-- To cut off each span and each time on the way comes to the same as to cut off the sum, because a clock that has
come to its last time stays there. -/
theorem now_foldl_advance (c : Clock) (spans : List Duration) :
    (spans.foldl advance c).now.toNat = min word64Max (c.now.toNat + Duration.sumMillis spans) := by
  induction spans generalizing c with
  | nil => exact (Nat.min_eq_right c.now_le).symm
  | cons span rest ih =>
    rw [List.foldl_cons, ih, advance_now, Duration.wholeMillis, toNat_saturate64, Duration.sumMillis_cons]
    omega

/-- What happens to a clock. That a call to move it on has begun is nothing that the clock shows. -/
inductive Event
  | set (millis : UInt64)
  | begun (span : Duration)
  | advanced (span : Duration)
deriving DecidableEq

def after (c : Clock) : Event → Clock
  | .set millis => c.set millis
  | .begun _ => c
  | .advanced span => c.advance span

def Event.begun? : Event → Option Duration
  | .begun span => some span
  | _ => none

def Event.advanced? : Event → Option Duration
  | .advanced span => some span
  | _ => none

/-- A clock that nobody sets is moved on by the spans it is advanced by, and by nothing else. -/
theorem foldl_after_of_unset {events : List Event} (unset : ∀ millis, .set millis ∉ events) (c : Clock) :
    events.foldl after c = (events.filterMap Event.advanced?).foldl advance c := by
  induction events generalizing c with
  | nil => rfl
  | cons event rest ih =>
    have unsetLater (millis : UInt64) : .set millis ∉ rest := fun member =>
      unset millis (List.mem_cons_of_mem event member)
    rw [List.foldl_cons, ih unsetLater, List.filterMap_cons]
    cases event with
    | set millis => exact absurd List.mem_cons_self (unset millis)
    | begun span => rfl
    | advanced span => rfl

theorem now_foldl_after {events : List Event} (unset : ∀ millis, .set millis ∉ events) (c : Clock) :
    (events.foldl after c).now.toNat =
      min word64Max (c.now.toNat + Duration.sumMillis (events.filterMap Event.advanced?)) := by
  rw [foldl_after_of_unset unset, now_foldl_advance]

end Clock

namespace Cache

/-- What an action has to do with the clock. -/
def clockEvent? : Action → Option Clock.Event
  | .setClock millis => some (.set millis)
  | .advanceClock span => some (.advanced span)
  | _ => none

theorem clock_step (c : Cache) (action : Action) :
    (c.step action).1.clock = (clockEvent? action).toList.foldl Clock.after c.clock := by
  have after : (c.step action).1.clock = (c.surroundings.after action).clock :=
    congrArg Surroundings.clock (c.surroundings_step action)
  rw [after]
  cases action <;> rfl

theorem clock_run (c : Cache) (actions : List Action) :
    (c.run actions).clock = (actions.filterMap clockEvent?).foldl Clock.after c.clock := by
  induction actions generalizing c with
  | nil => rfl
  | cons action rest ih =>
    rw [run_cons, ih, clock_step, List.filterMap_cons]
    cases clockEvent? action <;> rfl

end Cache

/-- A call that moves a clock on. It has seen a time, and puts the later one in its place if the clock still shows what
was seen. When it has done so it is over and sees nothing more. -/
structure ClockCall where
  place : Nat
  span : Duration
  seen : Option Clock

namespace ClockCall

/-- The call sees what its clock shows now, unless it is over. -/
def look (call : ClockCall) (clocks : List Clock) : ClockCall :=
  { call with seen := call.seen.bind fun _ => clocks[call.place]? }

/-- The span by which the call has yet to move the clock at that place on. -/
def waits (call : ClockCall) (place : Nat) : List Duration :=
  if call.place = place ∧ call.seen.isSome then [call.span] else []

end ClockCall

/-- Clocks at their places, the places at which those who hold a clock find it, and calls that move clocks on and go on
side by side. Who is given a copy of a clock holds the clock that was copied. -/
structure SharedClocks where
  clocks : List Clock := []
  held : List Nat := []
  calls : List ClockCall := []

namespace SharedClocks

/-- What happens next; holders and calls are numbered as they come. A call looks at the time as it begins and may look
again at any moment, and looks again when it tries in vain to put the later time in its place. -/
inductive Move
  | make (start : UInt64)
  | copy (holder : Nat)
  | set (holder : Nat) (millis : UInt64)
  | begins (holder : Nat) (span : Duration)
  | looks (call : Nat)
  | tries (call : Nat)

def look (s : SharedClocks) (call : Nat) : SharedClocks :=
  { s with calls := s.calls.modify call (·.look s.clocks) }

/-- Also tells at which place something happens to a clock, and what. -/
def step (s : SharedClocks) : Move → SharedClocks × Option (Nat × Clock.Event)
  | .make start => ({ s with clocks := s.clocks ++ [⟨start⟩], held := s.held ++ [s.clocks.length] }, none)
  | .copy holder => ({ s with held := s.held ++ s.held[holder]?.toList }, none)
  | .set holder millis =>
    match s.held[holder]? with
    | some place => ({ s with clocks := s.clocks.modify place (·.set millis) }, some (place, .set millis))
    | none => (s, none)
  | .begins holder span =>
    match s.held[holder]? with
    | some place => ({ s with calls := s.calls ++ [⟨place, span, s.clocks[place]?⟩] }, some (place, .begun span))
    | none => (s, none)
  | .looks call => (s.look call, none)
  | .tries call =>
    match s.calls[call]? with
    | some ⟨place, span, some seen⟩ =>
      if s.clocks[place]? = some seen then
        ({ s with clocks := s.clocks.set place (seen.advance span), calls := s.calls.set call ⟨place, span, none⟩ },
          some (place, .advanced span))
      else (s.look call, none)
    | _ => (s, none)

def run (s : SharedClocks) (moves : List Move) : SharedClocks := moves.foldl (fun s move => (s.step move).1) s

/-- What is told of the clock at one place. -/
def about (place : Nat) (told : Option (Nat × Clock.Event)) : List Clock.Event :=
  (told.toList.filter (·.1 == place)).map (·.2)

/-- What happens to the clock at one place in a run, in the order in which it does. -/
def events (s : SharedClocks) (place : Nat) : List Move → List Clock.Event
  | [] => []
  | move :: rest => about place (s.step move).2 ++ (s.step move).1.events place rest

/-- The spans by which calls have yet to move a clock on. -/
def waiting (s : SharedClocks) (place : Nat) : List Duration := s.calls.flatMap (·.waits place)

/-- Calls that are made one after the other by holders, each of which goes through before the next begins. -/
def inTurn (s : SharedClocks) (calls : List (Nat × Duration)) : List Move :=
  (calls.zipIdx s.calls.length).flatMap fun ((holder, span), call) => [.begins holder span, .tries call]

/-- The time as a holder reads it. -/
def time? (s : SharedClocks) (holder : Nat) : Option UInt64 :=
  (s.held[holder]?.bind (s.clocks[·]?)).map (·.now)

variable {s t : SharedClocks} {place : Nat} {c : Clock}

theorem run_append (s : SharedClocks) (first later : List Move) :
    s.run (first ++ later) = (s.run first).run later := List.foldl_append

theorem events_append (s : SharedClocks) (place : Nat) (first later : List Move) :
    s.events place (first ++ later) = s.events place first ++ (s.run first).events place later := by
  induction first generalizing s with
  | nil => rfl
  | cons move rest ih =>
    rw [List.cons_append, events, events, ih, List.append_assoc]
    rfl

theorem about_self (place : Nat) (event : Clock.Event) : about place (some (place, event)) = [event] := by
  simp [about]

theorem about_other {other : Nat} (apart : other ≠ place) (event : Clock.Event) :
    about place (some (other, event)) = [] := by
  simp [about, apart]

theorem time?_of_held {holder : Nat} (held : s.held[holder]? = some place) (here : s.clocks[place]? = some c) :
    s.time? holder = some c.now := by
  rw [time?, held, Option.bind_some, here, Option.map_some]

theorem held_prefix_step (s : SharedClocks) (move : Move) : s.held <+: (s.step move).1.held := by
  cases move with
  | make start => exact List.prefix_append _ _
  | copy holder => exact List.prefix_append _ _
  | looks call => exact List.prefix_rfl
  | set holder millis | begins holder span =>
    simp only [step]
    split <;> exact List.prefix_rfl
  | tries call =>
    simp only [step]
    repeat' split
    all_goals exact List.prefix_rfl

/-- Whoever comes to hold a clock, the others hold what they have held. -/
theorem held_prefix_run (s : SharedClocks) (moves : List Move) : s.held <+: (s.run moves).held := by
  induction moves generalizing s with
  | nil => exact List.prefix_rfl
  | cons move rest ih => exact (s.held_prefix_step move).trans (ih _)

theorem waits_look (here : s.clocks[place]? = some c) (call : ClockCall) :
    (call.look s.clocks).waits place = call.waits place := by
  unfold ClockCall.waits ClockCall.look
  by_cases own : call.place = place
  · cases seen : call.seen <;> simp [own, here]
  · simp [own]

/-- To look again ends no call. -/
theorem waiting_look (here : s.clocks[place]? = some c) (call : Nat) :
    (s.look call).waiting place = s.waiting place := by
  unfold waiting look
  by_cases known : call < s.calls.length
  · obtain ⟨before, found, after, calls, -, looked⟩ := List.exists_of_modify (·.look s.clocks) known
    rw [looked, calls, List.flatMap_append, List.flatMap_append, List.flatMap_cons, List.flatMap_cons, waits_look here]
  · rw [List.modify_eq_self (Nat.le_of_not_lt known)]

/-- What one call waits with goes when another takes its number, and what the other waits with comes. -/
theorem perm_waits_set (place : Nat) {calls : List ClockCall} {i : Nat} {call : ClockCall}
    (found : calls[i]? = some call) (other : ClockCall) : (call.waits place ++ (calls.set i other).flatMap (·.waits place)).Perm
      (other.waits place ++ calls.flatMap (·.waits place)) := by
  obtain ⟨bound, rfl⟩ := List.getElem?_eq_some_iff.mp found
  obtain ⟨before, after, split, -, replaced⟩ := @List.exists_of_set _ i other calls bound
  rw [replaced]
  generalize calls[i] = call at split
  rw [split]
  simp only [List.flatMap_append, List.flatMap_cons, List.perm_iff_count, List.count_append]
  omega

/-- From `s` to `t` the events are all that has happened to a clock that showed `c`: it shows what they make of `c`,
and the calls that waited or have begun since have moved it on or are waiting. -/
structure Follows (place : Nat) (c : Clock) (s t : SharedClocks) (events : List Clock.Event) : Prop where
  shows : t.clocks[place]? = some (events.foldl Clock.after c)
  accounts : (events.filterMap Clock.Event.advanced? ++ t.waiting place).Perm
    (s.waiting place ++ events.filterMap Clock.Event.begun?)

namespace Follows

theorem trans {u : SharedClocks} {first later : List Clock.Event} (follows : Follows place c s t first)
    (next : Follows place (first.foldl Clock.after c) t u later) : Follows place c s u (first ++ later) where
  shows := by rw [next.shows, List.foldl_append]
  accounts := by
    rw [List.filterMap_append, List.filterMap_append, List.append_assoc, ← List.append_assoc (s.waiting place)]
    refine (next.accounts.append_left _).trans ?_
    rw [← List.append_assoc]
    exact follows.accounts.append_right _

theorem nothing (here : t.clocks[place]? = some c) (waiting : (t.waiting place).Perm (s.waiting place)) :
    Follows place c s t [] where
  shows := here
  accounts := by
    rw [List.filterMap_nil, List.filterMap_nil, List.nil_append, List.append_nil]
    exact waiting

theorem look (here : s.clocks[place]? = some c) (call : Nat) : Follows place c s (s.look call) [] :=
  nothing here (.of_eq (waiting_look here call))

theorem sets (here : s.clocks[place]? = some c) (other : Nat) (millis : UInt64) :
    Follows place c s { s with clocks := s.clocks.modify other (·.set millis) }
      (about place (some (other, .set millis))) := by
  by_cases own : other = place
  · subst own
    rw [about_self]
    exact ⟨by simp [here, Clock.after], .of_eq (List.append_nil _).symm⟩
  · rw [about_other own]
    exact nothing (by simp [own, here]) .rfl

theorem begins (here : s.clocks[place]? = some c) (other : Nat) (span : Duration) :
    Follows place c s { s with calls := s.calls ++ [⟨other, span, s.clocks[other]?⟩] }
      (about place (some (other, .begun span))) := by
  by_cases own : other = place
  · subst own
    rw [about_self]
    refine ⟨here, .of_eq ?_⟩
    simp [waiting, ClockCall.waits, here, List.filterMap_cons, Clock.Event.advanced?, Clock.Event.begun?]
  · rw [about_other own]
    refine nothing here (.of_eq ?_)
    simp [waiting, ClockCall.waits, own]

/-- A call that finds the time it has seen moves the clock on from where it is. -/
theorem advances (here : s.clocks[place]? = some c) {call other : Nat} {span : Duration} {seen : Clock}
    (found : s.calls[call]? = some ⟨other, span, some seen⟩) (unchanged : s.clocks[other]? = some seen) :
    Follows place c s { s with
        clocks := s.clocks.set other (seen.advance span), calls := s.calls.set call ⟨other, span, none⟩ }
      (about place (some (other, .advanced span))) := by
  have moved := perm_waits_set place found ⟨other, span, none⟩
  by_cases own : other = place
  · subst own
    obtain rfl : c = seen := Option.some.inj (here.symm.trans unchanged)
    rw [about_self]
    refine ⟨?_, ?_⟩
    · rw [List.getElem?_set_self (List.getElem?_eq_some_iff.mp here).1]
      rfl
    · simpa [waiting, ClockCall.waits, List.filterMap_cons, Clock.Event.advanced?, Clock.Event.begun?] using moved
  · rw [about_other own]
    refine nothing ((List.getElem?_set_ne own).trans here) ?_
    simpa [waiting, ClockCall.waits, own] using moved

theorem step (here : s.clocks[place]? = some c) (move : Move) :
    Follows place c s (s.step move).1 (about place (s.step move).2) := by
  cases move with
  | make start =>
    exact nothing ((List.getElem?_append_left (List.getElem?_eq_some_iff.mp here).1).trans here) .rfl
  | copy holder => exact nothing here .rfl
  | set holder millis =>
    simp only [SharedClocks.step]
    split
    · exact sets here _ millis
    · exact nothing here .rfl
  | begins holder span =>
    simp only [SharedClocks.step]
    split
    · exact begins here _ span
    · exact nothing here .rfl
  | looks call => exact look here call
  | tries call =>
    simp only [SharedClocks.step]
    split
    case h_1 found =>
      split
      case isTrue unchanged => exact advances here found unchanged
      case isFalse => exact look here call
    case h_2 => exact nothing here .rfl

theorem run (here : s.clocks[place]? = some c) (moves : List Move) :
    Follows place c s (s.run moves) (s.events place moves) := by
  induction moves generalizing s c with
  | nil => exact nothing here .rfl
  | cons move rest ih => exact (step here move).trans (ih (step here move).shows)

end Follows

/-- A call that nothing comes between goes through with its first try. -/
theorem events_call {holder : Nat} (held : s.held[holder]? = some place) (here : s.clocks[place]? = some c)
    (span : Duration) :
    s.events place [.begins holder span, .tries s.calls.length] = [.begun span, .advanced span] := by
  simp [events, step, held, here, about_self]

theorem length_calls_call {holder : Nat} (held : s.held[holder]? = some place) (here : s.clocks[place]? = some c)
    (span : Duration) : (s.run [.begins holder span, .tries s.calls.length]).calls.length = s.calls.length + 1 := by
  simp [run, step, held, here]

theorem held_of_held_run {holder : Nat} (held : s.held[holder]? = some place) (moves : List Move) :
    (s.run moves).held[holder]? = some place := by
  obtain ⟨bound, rfl⟩ := List.getElem?_eq_some_iff.mp held
  exact List.prefix_iff_getElem?.mp (held_prefix_run s moves) _ bound

/-- Calls that are made in turn move the clock on by their spans, one after the other. -/
theorem events_inTurn (here : s.clocks[place]? = some c) {calls : List (Nat × Duration)}
    (held : ∀ call ∈ calls, s.held[call.1]? = some place) :
    s.events place (s.inTurn calls) = calls.flatMap fun call => [.begun call.2, .advanced call.2] := by
  induction calls generalizing s c with
  | nil => rfl
  | cons call rest ih =>
    obtain ⟨holder, span⟩ := call
    have own := held (holder, span) List.mem_cons_self
    let u := s.run [.begins holder span, .tries s.calls.length]
    -- One call has begun, so the numbers of the others are those that `u` gives them.
    have later : s.inTurn ((holder, span) :: rest) =
        [.begins holder span, .tries s.calls.length] ++ u.inTurn rest := by
      simp only [inTurn, u, length_calls_call own here, List.zipIdx_cons, List.flatMap_cons]
    rw [later, events_append, events_call own here, List.flatMap_cons,
      ih (Follows.run here _).shows fun call member => held_of_held_run (held call (List.mem_cons_of_mem _ member)) _]

/-- A call that is late goes through when it looks again and nothing comes between. -/
theorem events_retry {call : Nat} {span : Duration} {seen : Clock}
    (waits : s.calls[call]? = some ⟨place, span, some seen⟩) (here : s.clocks[place]? = some c) :
    s.events place [.looks call, .tries call] = [.advanced span] := by
  simp [events, step, look, ClockCall.look, waits, here, about]

/-- Who is given a copy holds the clock that was copied, and keeps it. -/
theorem held_copy {first last : List Move} {holder : Nat} (held : (s.run first).held[holder]? = some place) :
    (s.run (first ++ .copy holder :: last)).held[(s.run first).held.length]? = some place := by
  have copied : ((s.run first).step (.copy holder)).1.held[(s.run first).held.length]? = some place := by
    simp [step, held]
  rw [run_append]
  exact held_of_held_run copied last

theorem now_run (here : s.clocks[place]? = some c) {moves : List Move}
    (unset : ∀ millis, .set millis ∉ s.events place moves) :
    ∃ d, (s.run moves).clocks[place]? = some d ∧ d.now.toNat = min word64Max (c.now.toNat +
      Duration.sumMillis ((s.events place moves).filterMap Clock.Event.advanced?)) :=
  ⟨_, (Follows.run here moves).shows, Clock.now_foldl_after unset c⟩

/-- Whoever reads a clock later reads no earlier time. -/
theorem now_mono (here : s.clocks[place]? = some c) {first later : List Move}
    (unset : ∀ millis, .set millis ∉ s.events place (first ++ later)) {holder other : Nat}
    (held : (s.run first).held[holder]? = some place) (too : (s.run (first ++ later)).held[other]? = some place) :
    ∃ earlier now, (s.run first).time? holder = some earlier ∧ (s.run (first ++ later)).time? other = some now ∧
      earlier ≤ now := by
  rw [events_append] at unset
  obtain ⟨d, shown, -⟩ := now_run here fun millis member => unset millis (List.mem_append_left _ member)
  obtain ⟨e, shownThen, later⟩ := now_run shown fun millis member => unset millis (List.mem_append_right _ member)
  rw [← run_append] at shownThen
  refine ⟨d.now, e.now, time?_of_held held shown, time?_of_held too shownThen, ?_⟩
  -- The later time is a sum that begins with the earlier one, and that one is not cut off again.
  have fits := d.now_le
  rw [UInt64.le_iff_toNat_le, later]
  omega

/-- A clock that nobody sets shows the time it began with and the whole milliseconds of all spans it has been moved on
by, added up without bound, or the last time it can show if that is earlier. All who hold it or are given a copy of it
read this, and so does a cache, whatever the order of the spans and whoever called. No one reads an earlier time than
someone has read before. Calls that are made in turn all go through. Of calls that go on side by side each moves the
clock on once or has yet to do so, and one that is late goes through when it looks again and tries before anything else
happens. -/
theorem spans_add_up_in_any_order (here : s.clocks[place]? = some c) {moves : List Move}
    (unset : ∀ millis, .set millis ∉ s.events place moves) {spans : List Duration}
    (applied : ((s.events place moves).filterMap Clock.Event.advanced?).Perm spans) :
    let t := s.run moves
    (∀ holder, t.held[holder]? = some place → ∃ now, t.time? holder = some now ∧
      now.toNat = min (UInt64.size - 1) (c.now.toNat + Duration.sumMillis spans)) ∧
    (∀ first holder last, moves = first ++ .copy holder :: last → (s.run first).held[holder]? = some place →
      t.held[(s.run first).held.length]? = some place) ∧
    (∀ (k : Cache) (actions : List Cache.Action), k.clock = c →
      (actions.filterMap Cache.clockEvent?).Perm (spans.map .advanced) →
      (k.run actions).clock.now.toNat = min (UInt64.size - 1) (c.now.toNat + Duration.sumMillis spans)) ∧
    (∀ first middle last, moves = first ++ middle ++ last → ∀ holder other,
      (s.run first).held[holder]? = some place → (s.run (first ++ middle)).held[other]? = some place →
      ∃ earlier now, (s.run first).time? holder = some earlier ∧ (s.run (first ++ middle)).time? other = some now ∧
        earlier ≤ now) ∧
    (spans ++ t.waiting place).Perm
      (s.waiting place ++ (s.events place moves).filterMap Clock.Event.begun?) ∧
    (∀ calls : List (Nat × Duration), (∀ call ∈ calls, t.held[call.1]? = some place) →
      t.events place (t.inTurn calls) = calls.flatMap fun call => [.begun call.2, .advanced call.2]) ∧
    ∀ call span seen, t.calls[call]? = some ⟨place, span, some seen⟩ →
      t.events place [.looks call, .tries call] = [.advanced span] := by
  intro t
  have follows := Follows.run here moves
  obtain ⟨d, shown, sum⟩ := now_run here unset
  rw [Duration.sumMillis_perm applied] at sum
  refine ⟨fun holder held => ⟨d.now, time?_of_held held shown, sum⟩, ?_, ?_, ?_, ?_, ?_, ?_⟩
  · rintro first holder last rfl held
    exact held_copy held
  · intro k actions same told
    have quiet (millis : UInt64) : .set millis ∉ actions.filterMap Cache.clockEvent? := fun member => by
      simpa using told.mem_iff.mp member
    have moved : ((spans.map Clock.Event.advanced).filterMap Clock.Event.advanced?) = spans := by
      rw [List.filterMap_map]
      exact List.filterMap_some
    rw [k.clock_run, Clock.now_foldl_after quiet, same, Duration.sumMillis_perm (told.filterMap _), moved]
    rfl
  · rintro first middle last rfl holder other held too
    rw [events_append] at unset
    exact now_mono here (fun millis member => unset millis (List.mem_append_left _ member)) held too
  · exact (applied.symm.append_right _).trans follows.accounts
  · exact fun calls held => events_inTurn shown held
  · exact fun call span seen waits => events_retry waits shown

/-- Two calls have seen the same time, and the one that comes second has to look again; its span alone is more than a
clock can count. -/
theorem late_call_moves_clock_to_its_end :
    let s := ({} : SharedClocks).run [.make 18446744073709551605, .copy 0, .make 5]
    let short : Duration := ⟨0, 4999999, by decide⟩
    let long : Duration := ⟨18446744073709551615, 999999999, by decide⟩
    let moves : List Move := [.begins 0 short, .begins 1 long, .tries 0, .tries 1, .set 2 7, .tries 1]
    s.clocks[0]? = some ⟨18446744073709551605⟩ ∧ (∀ millis, .set millis ∉ s.events 0 moves) ∧
      ((s.events 0 moves).filterMap Clock.Event.advanced?).Perm [long, short] ∧
      (s.run moves).time? 0 = some 18446744073709551615 ∧ (s.run moves).time? 1 = some 18446744073709551615 := by
  intro s short long moves
  have here : s.clocks[0]? = some ⟨18446744073709551605⟩ := by decide
  have told : s.events 0 moves = [.begun short, .begun long, .advanced short, .advanced long] := by decide
  have unset (millis : UInt64) : .set millis ∉ s.events 0 moves := by
    rw [told]
    simp
  have applied : ((s.events 0 moves).filterMap Clock.Event.advanced?).Perm [long, short] := by
    rw [told]
    exact List.Perm.swap long short []
  obtain ⟨reads, -⟩ := spans_add_up_in_any_order here unset applied
  have last (holder : Nat) (held : (s.run moves).held[holder]? = some 0) :
      (s.run moves).time? holder = some 18446744073709551615 := by
    obtain ⟨now, read, sum⟩ := reads holder held
    rw [read, Option.some.injEq, ← UInt64.toNat_inj, sum]
    decide
  exact ⟨here, unset, applied, last 0 (by decide), last 1 (by decide)⟩

example : let s := ({} : SharedClocks).run [.make 1000, .copy 0, .begins 0 (.ofMillis 250), .tries 0]
    s.time? 1 = some 1250 ∧ (s.run [.set 1 5]).time? 0 = some 5 := by decide

end SharedClocks

end PartitionLease

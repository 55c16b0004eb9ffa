import Mathlib.Data.List.Induction
import PartitionLease.Proofs.PoolSteps

namespace PartitionLease

section Pairs

variable {α : Type} {first second : α}

theorem pair_sublist_append {left right : List α} : [first, second].Sublist (left ++ right) ↔
    [first, second].Sublist left ∨ first ∈ left ∧ second ∈ right ∨ [first, second].Sublist right := by
  constructor
  · intro order
    obtain ⟨early, late, split, inLeft, inRight⟩ := List.sublist_append_iff.mp order
    match early with
    | [] =>
      obtain rfl : [first, second] = late := split
      exact Or.inr (Or.inr inRight)
    | [one] =>
      obtain ⟨rfl, rfl⟩ : first = one ∧ [second] = late := List.cons.inj split
      exact Or.inr (Or.inl ⟨List.singleton_sublist.mp inLeft, List.singleton_sublist.mp inRight⟩)
    | one :: other :: rest =>
      obtain ⟨rfl, rest⟩ := List.cons.inj split
      obtain ⟨rfl, -⟩ := List.cons.inj rest
      exact Or.inl ((List.Sublist.cons_cons _ (List.Sublist.cons_cons _ (List.nil_sublist _))).trans inLeft)
  · rintro (inLeft | ⟨before, after⟩ | inRight)
    · exact inLeft.trans (List.sublist_append_left _ _)
    · exact (List.singleton_sublist.mpr before).append (List.singleton_sublist.mpr after)
    · exact inRight.trans (List.sublist_append_right _ _)

theorem pair_sublist_filter {keep : α → Bool} {line : List α} :
    [first, second].Sublist (line.filter keep) ↔
      [first, second].Sublist line ∧ keep first ∧ keep second := by
  constructor
  · intro order
    have kept : ∀ x ∈ [first, second], keep x := fun x member =>
      (List.mem_filter.mp (order.subset member)).2
    exact ⟨order.trans List.filter_sublist, kept first (by simp), kept second (by simp)⟩
  · rintro ⟨order, keepFirst, keepSecond⟩
    simpa [keepFirst, keepSecond] using order.filter keep

end Pairs

namespace Cache

/-- The keys that step number `n` of a run puts at the end of the line. -/
def queuedAt (c : Cache) (actions : List Action) (n : Nat) : List String :=
  match actions[n]? with
  | some action => (c.run (actions.take n)).queued action
  | none => []

/-- Step number `n` of a run is the last one that queued a key. -/
def LastQueuedAt (c : Cache) (key : String) (actions : List Action) (n : Nat) : Prop :=
  key ∈ c.queuedAt actions n ∧ ∀ later, n < later → key ∉ c.queuedAt actions later

/-- An action is about a key itself: it registers or removes it, reclaims it or hands it out by name. -/
def Names (key : String) : Action → Prop
  | .add p => p.key = key
  | .withdraw subscriptions _ _ => key ∈ subscriptions.map (·.key)
  | .drop keys => key ∈ keys
  | .markUsed k | .reclaim k _ => k = key
  | _ => False

/-- How often the first in line is asked for. -/
def takes (actions : List Action) : Nat :=
  actions.countP fun
    | .take => true
    | _ => false

/-- In a run from `c` a key is handed out as the first in line when at most so many others have been, and it
stands in line until then. -/
def InTurn (c : Cache) (key : String) (later : List Action) (others : Nat) : Prop :=
  ∃ early late p, later = early ++ .take :: late ∧
    ((c.run early).step .take).2 = .partition (some p) ∧ p.key = key ∧
    takes early ≤ others ∧ ∀ past, past <+: early → key ∈ (c.run past).assignment.pool.idle

theorem queuedAt_concat (c : Cache) (actions : List Action) (action : Action) (n : Nat) :
    c.queuedAt (actions ++ [action]) n =
      if n = actions.length then (c.run actions).queued action else c.queuedAt actions n := by
  unfold queuedAt
  rcases Nat.lt_trichotomy n actions.length with early | rfl | late
  · rw [List.getElem?_append_left early, List.take_append_of_le_length (Nat.le_of_lt early),
      if_neg (Nat.ne_of_lt early)]
  · simp
  · have past : (actions ++ [action]).length ≤ n := by
      rw [List.length_append]
      exact late
    rw [if_neg (Nat.ne_of_gt late), List.getElem?_eq_none past, List.getElem?_eq_none (Nat.le_of_lt late)]

theorem queuedAt_of_length_le {c : Cache} {actions : List Action} {n : Nat} (past : actions.length ≤ n) :
    c.queuedAt actions n = [] := by
  simp [queuedAt, List.getElem?_eq_none past]

theorem lastQueuedAt_concat {c : Cache} {key : String} {actions : List Action} {action : Action} {n : Nat} :
    LastQueuedAt c key (actions ++ [action]) n ↔
      if key ∈ (c.run actions).queued action then n = actions.length else LastQueuedAt c key actions n := by
  simp only [LastQueuedAt, queuedAt_concat]
  by_cases queue : key ∈ (c.run actions).queued action
  · rw [if_pos queue]
    constructor
    · rintro ⟨here, last⟩
      by_contra other
      rw [if_neg other] at here
      rcases Nat.lt_or_gt_of_ne other with early | late
      · exact last actions.length early (by rwa [if_pos rfl])
      · rw [queuedAt_of_length_le (Nat.le_of_lt late)] at here
        cases here
    · rintro rfl
      refine ⟨by rwa [if_pos rfl], fun later past => ?_⟩
      rw [if_neg (Nat.ne_of_gt past), queuedAt_of_length_le (Nat.le_of_lt past)]
      exact List.not_mem_nil
  · rw [if_neg queue]
    have same (m : Nat) : (key ∈ if m = actions.length then (c.run actions).queued action
        else c.queuedAt actions m) ↔ key ∈ c.queuedAt actions m := by
      by_cases now : m = actions.length
      · rw [if_pos now, queuedAt_of_length_le (Nat.le_of_eq now.symm)]
        exact iff_of_false queue List.not_mem_nil
      · rw [if_neg now]
    simp only [same]

theorem LastQueuedAt.lt {c : Cache} {key : String} {actions : List Action} {n : Nat}
    (last : LastQueuedAt c key actions n) : n < actions.length := by
  refine Nat.lt_of_not_le fun past => ?_
  have here := last.1
  rw [queuedAt_of_length_le past] at here
  cases here

theorem nodup_idle_step {c : Cache} (sound : c.assignment.Sound) (agree : c.assignment.AlarmsAgree)
    (action : Action) :
    (c.assignment.pool.idle.filter (· ∉ c.pulled action) ++ c.queued action).Nodup :=
  idle_step sound agree action ▸ (sound_step sound action).once

/-- A key in line was queued at some step, since the line starts empty. -/
theorem exists_lastQueuedAt {c : Cache} (sound : c.assignment.Sound) (agree : c.assignment.AlarmsAgree)
    (empty : c.assignment.pool.idle = []) (actions : List Action) {key : String}
    (inLine : key ∈ (c.run actions).assignment.pool.idle) : ∃ n, LastQueuedAt c key actions n := by
  induction actions using List.reverseRecOn with
  | nil =>
    rw [run_nil, empty] at inLine
    cases inLine
  | append_singleton actions action ih =>
    simp only [lastQueuedAt_concat]
    by_cases queue : key ∈ (c.run actions).queued action
    · exact ⟨actions.length, by rw [if_pos queue]⟩
    · rw [run_append, run_cons, run_nil, idle_step (sound_run sound actions) (agree_run sound agree actions),
        List.mem_append] at inLine
      obtain ⟨n, last⟩ := ih (List.mem_of_mem_filter (inLine.resolve_right queue))
      exact ⟨n, by rwa [if_neg queue]⟩

/-- The line stands in the order in which its keys were queued last. -/
theorem pair_sublist_idle_iff {c : Cache} (sound : c.assignment.Sound) (agree : c.assignment.AlarmsAgree)
    (empty : c.assignment.pool.idle = []) (actions : List Action) {first second : String} {m n : Nat}
    (inLine : first ∈ (c.run actions).assignment.pool.idle)
    (alsoInLine : second ∈ (c.run actions).assignment.pool.idle)
    (lastFirst : LastQueuedAt c first actions m) (lastSecond : LastQueuedAt c second actions n) :
    [first, second].Sublist (c.run actions).assignment.pool.idle ↔
      m < n ∨ m = n ∧ [first, second].Sublist (c.queuedAt actions m) := by
  induction actions using List.reverseRecOn generalizing m n with
  | nil =>
    rw [run_nil, empty] at inLine
    cases inLine
  | append_singleton actions action ih =>
    have distinct := nodup_idle_step (sound_run sound actions) (agree_run sound agree actions) action
    have apart := (List.nodup_append.mp distinct).2.2
    rw [run_append, run_cons, run_nil,
      idle_step (sound_run sound actions) (agree_run sound agree actions)] at inLine alsoInLine ⊢
    rw [lastQueuedAt_concat] at lastFirst lastSecond
    rw [pair_sublist_append, queuedAt_concat]
    rw [List.mem_append] at inLine alsoInLine
    -- What is queued in the last step stands behind what was in line before.
    split at lastFirst <;> rename_i queueFirst <;> split at lastSecond <;> rename_i queueSecond
    · subst lastFirst lastSecond
      have notBefore : first ∉ (c.run actions).assignment.pool.idle.filter
          (· ∉ (c.run actions).pulled action) := fun before => apart first before first queueFirst rfl
      rw [if_pos rfl]
      constructor
      · rintro (order | ⟨before, -⟩ | order)
        · exact absurd (order.subset (by simp)) notBefore
        · exact absurd before notBefore
        · exact Or.inr ⟨rfl, order⟩
      · rintro (no | ⟨-, order⟩)
        · exact absurd no (Nat.lt_irrefl _)
        · exact Or.inr (Or.inr order)
    · subst lastFirst
      have before := lastSecond.lt
      have notBefore : first ∉ (c.run actions).assignment.pool.idle.filter
          (· ∉ (c.run actions).pulled action) := fun before => apart first before first queueFirst rfl
      refine iff_of_false ?_ (by omega)
      rintro (order | ⟨inFront, -⟩ | order)
      · exact notBefore (order.subset (by simp))
      · exact notBefore inFront
      · exact queueSecond (order.subset (by simp))
    · subst lastSecond
      have before := lastFirst.lt
      exact iff_of_true (Or.inr (Or.inl ⟨inLine.resolve_right queueFirst, queueSecond⟩)) (Or.inl before)
    · have stays := inLine.resolve_right queueFirst
      have alsoStays := alsoInLine.resolve_right queueSecond
      have old := ih (List.mem_of_mem_filter stays) (List.mem_of_mem_filter alsoStays) lastFirst lastSecond
      rw [if_neg (Nat.ne_of_lt lastFirst.lt), ← old, pair_sublist_filter]
      constructor
      · rintro (order | ⟨-, queue⟩ | order)
        · exact order.1
        · exact absurd queue queueSecond
        · exact absurd (order.subset (by simp)) queueFirst
      · exact fun order => Or.inl ⟨order, (List.mem_filter.mp stays).2, (List.mem_filter.mp alsoStays).2⟩

/-- Taking is answered with the first in line, and leaves the others as they stand. -/
theorem take_of_line {c : Cache} (sound : c.assignment.Sound) {key : String} {rest : List String}
    (line : c.assignment.pool.idle = key :: rest) :
    ∃ p, (c.step .take).2 = .partition (some p) ∧ p.key = key ∧
      (c.step .take).1.assignment.pool.idle = rest := by
  have known := sound.idle_known key (line ▸ List.mem_cons_self)
  rw [Registry.contains_eq_isSome_find?] at known
  obtain ⟨p, found⟩ := Option.isSome_iff_exists.mp known
  refine ⟨p, ?_, sound.registry.keyed key p found, ?_⟩
  · simp [step, sound.take_cons line, found]
  · simp [step, sound.take_cons line, line]

/-- Only what is about a key, or asks for the first in line, takes it out of the line. -/
theorem not_mem_pulled {c : Cache} {key : String} {action : Action} (alone : ¬ Names key action)
    (other : action ≠ .take) : key ∉ c.pulled action := by
  cases action with
  | take => exact absurd rfl other
  | add p => exact fun own => alone (List.mem_singleton.mp own).symm
  | withdraw subscriptions rollback removed => exact alone
  | drop keys => exact alone
  | markUsed k =>
    rw [pulled]
    split
    · exact fun own => alone (List.mem_singleton.mp own).symm
    · exact List.not_mem_nil
  | reclaim k requeue => exact fun own => alone (List.mem_singleton.mp own).symm
  | _ => exact List.not_mem_nil

/-- In one step a key comes to stand behind another one only by being queued. -/
theorem pair_sublist_of_idle_step {c : Cache} (sound : c.assignment.Sound) (agree : c.assignment.AlarmsAgree)
    {action : Action} {first second : String} (stays : second ∉ c.queued action)
    (order : [first, second].Sublist (c.step action).1.assignment.pool.idle) :
    [first, second].Sublist c.assignment.pool.idle := by
  rw [idle_step sound agree, pair_sublist_append] at order
  rcases order with order | ⟨-, queue⟩ | order
  · exact order.trans List.filter_sublist
  · exact absurd queue stays
  · exact absurd (order.subset (by simp)) stays

/-- A step that is neither a sweep nor the passing of time queues one key or none. -/
theorem length_queued_le (c : Cache) {action : Action} (single : ∀ maxAge order, action ≠ .sweep maxAge order)
    (still : ∀ millis, action ≠ .pass millis) : (c.queued action).length ≤ 1 := by
  cases action with
  | sweep maxAge order => exact absurd rfl (single maxAge order)
  | pass millis => exact absurd rfl (still millis)
  | reclaim key requeue =>
    cases requeue with
    | true =>
      rw [queued]
      split <;> simp
    | false => simp [queued]
  | release _ _ | expire _ =>
    rw [queued]
    split <;> simp
  | _ => simp [queued]

theorem takes_cons_of_ne {action : Action} (other : action ≠ .take) (rest : List Action) :
    takes (action :: rest) = takes rest := by
  cases action with
  | take => exact absurd rfl other
  | _ => rfl

theorem takes_take_cons (rest : List Action) : takes (.take :: rest) = takes rest + 1 :=
  List.countP_cons_of_pos rfl

/-- A key whose turn comes in a run from the next state has it in the run from this one, if it is in line. -/
theorem InTurn.cons {c : Cache} {key : String} {action : Action} {rest : List Action} {fewer others : Nat}
    (inTurn : InTurn (c.step action).1 key rest fewer) (inLine : key ∈ c.assignment.pool.idle)
    (count : ∀ early, takes early ≤ fewer → takes (action :: early) ≤ others) :
    InTurn c key (action :: rest) others := by
  obtain ⟨early, late, p, rfl, reply, own, few, waits⟩ := inTurn
  refine ⟨action :: early, late, p, rfl, reply, own, count early few, fun past prior => ?_⟩
  rcases List.prefix_cons_iff.mp prior with rfl | ⟨tail, rfl, before⟩
  · exact inLine
  · exact waits tail before

/-- A key in line that is left alone is handed out once those in front of it have been, at the latest. -/
theorem inTurn_of_idle {c : Cache} (sound : c.assignment.Sound) (agree : c.assignment.AlarmsAgree)
    {key : String} {front back : List String} (line : c.assignment.pool.idle = front ++ key :: back)
    {later : List Action} (alone : ∀ action ∈ later, ¬ Names key action)
    (enough : front.length < takes later) : InTurn c key later front.length := by
  have inLine : key ∈ c.assignment.pool.idle := by simp [line]
  induction later generalizing c front back with
  | nil => cases enough
  | cons action rest ih =>
    have soundNext := sound_step sound action
    have agreeNext := agree_step sound agree action
    have aloneNext : ∀ action ∈ rest, ¬ Names key action := fun a member =>
      alone a (List.mem_cons_of_mem _ member)
    by_cases asked : action = .take
    · subst asked
      rw [takes_take_cons] at enough
      cases front with
      | nil =>
        obtain ⟨p, reply, own, -⟩ := take_of_line sound line
        refine ⟨[], rest, p, rfl, reply, own, Nat.le_refl _, fun past prior => ?_⟩
        rw [List.prefix_nil.mp prior]
        exact inLine
      | cons head front =>
        obtain ⟨-, -, -, lineNext⟩ := take_of_line sound line
        have inTurn := ih soundNext agreeNext lineNext aloneNext (Nat.lt_of_succ_lt_succ enough)
          (by simp [lineNext])
        refine inTurn.cons inLine fun early few => ?_
        rw [takes_take_cons, List.length_cons]
        omega
    · -- The key stays, and behind no more than those that were in front of it.
      have stays := not_mem_pulled (c := c) (alone action List.mem_cons_self) asked
      have lineNext := idle_step sound agree action
      rw [line, List.filter_append, List.filter_cons_of_pos (by simpa using stays), List.append_assoc,
        List.cons_append] at lineNext
      have fewer := List.length_filter_le (fun k => decide (k ∉ c.pulled action)) front
      rw [takes_cons_of_ne asked] at enough
      have inTurn := ih soundNext agreeNext lineNext aloneNext (Nat.lt_of_le_of_lt fewer enough)
        (by simp [lineNext])
      refine inTurn.cons inLine fun early few => ?_
      rw [takes_cons_of_ne asked]
      exact Nat.le_trans few fewer

/-- The line is first in, first out. Its keys stand in the order in which they were queued last, those queued
by one sweep or in one passing of time in the order in which it came upon them, and taking hands out the
first. In each step the keys that stay keep their order, and those queued come behind them. So a key is not
overtaken while it is left alone, and its turn comes after that of those in front of it. -/
theorem line_is_first_in_first_out (config : Config) (clock : Clock) (timeKept : Bool) (actions : List Action) :
    let start := new config clock timeKept
    let c := start.run actions
    let line := c.assignment.pool.idle
    (∀ key ∈ line, ∃ n, LastQueuedAt start key actions n) ∧
    (∀ first ∈ line, ∀ second ∈ line, ∀ m n, LastQueuedAt start first actions m →
      LastQueuedAt start second actions n →
      ([first, second].Sublist line ↔ m < n ∨ m = n ∧ [first, second].Sublist (start.queuedAt actions m))) ∧
    (∀ n, 1 < (start.queuedAt actions n).length →
      (∃ maxAge order, actions[n]? = some (.sweep maxAge order)) ∨ ∃ millis, actions[n]? = some (.pass millis)) ∧
    (line = [] → (c.step .take).2 = .partition none) ∧
    (∀ key rest, line = key :: rest → ∃ p, (c.step .take).2 = .partition (some p) ∧ p.key = key ∧
      (c.step .take).1.assignment.pool.idle = rest) ∧
    (∀ action, ∃ left, left.Sublist line ∧
      (c.step action).1.assignment.pool.idle = left ++ c.queued action) ∧
    (∀ action first second, second ∉ c.queued action →
      [first, second].Sublist (c.step action).1.assignment.pool.idle → [first, second].Sublist line) ∧
    ∀ front key back, line = front ++ key :: back → ∀ later, (∀ action ∈ later, ¬ Names key action) →
      front.length < takes later → InTurn c key later front.length := by
  intro start c line
  have soundStart := sound_new config clock timeKept
  have agreeStart := agree_new config clock timeKept
  have sound : c.assignment.Sound := sound_run soundStart actions
  have agree : c.assignment.AlarmsAgree := agree_run soundStart agreeStart actions
  have empty : start.assignment.pool.idle = [] := rfl
  refine ⟨?_, ?_, ?_, ?_, ?_, ?_, ?_, ?_⟩
  · exact fun key inLine => exists_lastQueuedAt soundStart agreeStart empty actions inLine
  · exact fun first inLine second alsoInLine m n lastFirst lastSecond =>
      pair_sublist_idle_iff soundStart agreeStart empty actions inLine alsoInLine lastFirst lastSecond
  · intro n many
    rw [queuedAt] at many
    split at many
    · rename_i action found
      rw [found]
      by_contra neither
      simp only [Option.some.injEq, not_or, not_exists] at neither
      exact absurd (length_queued_le _ neither.1 neither.2) (Nat.not_le_of_lt many)
    · cases many
  · intro none
    simp [step, sound.take_nil none]
  · exact fun key rest first => take_of_line sound first
  · exact fun action => ⟨_, List.filter_sublist, idle_step sound agree action⟩
  · exact fun action first second stays order => pair_sublist_of_idle_step sound agree stays order
  · exact fun front key back place later alone enough => inTurn_of_idle sound agree place alone enough

end Cache

end PartitionLease

import PartitionLease.Proofs.FigureBalance
import PartitionLease.Proofs.RegistryContents

namespace PartitionLease

theorem AllocationFigures.recordRemoved_publish (f : AllocationFigures) (registered idle used : Nat)
    (mode : String) (n : Nat) : (f.publish registered idle used).recordRemoved mode n =
      (f.recordRemoved mode n).publish registered idle used := by
  unfold recordRemoved
  split <;> rfl

theorem AllocationFigures.recordRemoved_recordRemoved (f : AllocationFigures) (mode : String) (n m : Nat) :
    (f.recordRemoved mode n).recordRemoved mode m = f.recordRemoved mode (n + m) := by
  unfold recordRemoved
  by_cases first : n = 0
  · simp [first]
  · by_cases later : m = 0
    · simp [first, later]
    · rw [if_neg later, if_neg first, if_neg (by omega : n + m ≠ 0)]
      simp only [Tally.add_add]

theorem AllocationFigures.recordRemoved_eq (f : AllocationFigures) (mode : String) (n : Nat) :
    f.recordRemoved mode n = { f with removed := (f.recordRemoved mode n).removed } := by
  unfold recordRemoved
  split <;> rfl

theorem AllocationFigures.count_recordRemoved (f : AllocationFigures) (mode : String) (n : Nat)
    (label : String) : (f.recordRemoved mode n).removed.count label =
      f.removed.count label + if label = mode then n else 0 := by
  unfold recordRemoved
  split
  · rename_i none
    simp [none]
  · rw [Tally.count_add]
    simp only [eq_comm]

/-- Puts a partition behind those already collected from its broker. -/
def RemovedPartitions.collect (removed : RemovedPartitions) (p : Partition) : RemovedPartitions :=
  removed.insert p.broker (removed[p.broker]?.getD [] ++ [p])

/-- Collected from a broker are, behind those it had before, the partitions that are with it, in their order. A
broker with none of them gets no entry. -/
theorem RemovedPartitions.getElem?_foldl_collect (removed : RemovedPartitions) (ps : List Partition)
    (broker : Broker) : (ps.foldl collect removed)[broker]? =
      if ps.filter (·.broker = broker) = [] then removed[broker]?
      else some (removed[broker]?.getD [] ++ ps.filter (·.broker = broker)) := by
  induction ps generalizing removed with
  | nil => rfl
  | cons p rest ih =>
    rw [List.foldl_cons, ih, collect, Std.ExtTreeMap.getElem?_insert]
    simp only [Std.LawfulEqCmp.compare_eq_iff_eq]
    by_cases own : p.broker = broker
    · subst own
      by_cases last : rest.filter (·.broker = p.broker) = []
      · simp [last]
      · simp [last]
    · simp [own]

namespace Registry

variable {r : Registry}

/-- The keys of a list that are known, in the order in which they first occur there. -/
def knownAmong (r : Registry) (keys : List String) : List String := (keys.filter r.contains).eraseDups

/-- The partitions known under the keys of a list, in the order in which these first occur. -/
def partitionsAmong (r : Registry) (keys : List String) : List Partition :=
  (r.knownAmong keys).filterMap r.find?

theorem mem_knownAmong {keys : List String} {key : String} :
    key ∈ r.knownAmong keys ↔ key ∈ keys ∧ r.contains key := by
  rw [knownAmong, List.mem_eraseDups, List.mem_filter]

/-- A key that has been forgotten is not come upon again. -/
theorem knownAmong_cons (r : Registry) (key : String) (rest : List String) :
    r.knownAmong (key :: rest) =
      (if r.contains key then [key] else []) ++ (r.remove key).1.knownAmong rest := by
  -- What comes once `key` is forgotten are the known keys other than `key`, and `eraseDups` looks at no others.
  have others : (r.remove key).1.knownAmong rest =
      ((rest.filter r.contains).filter fun k => !k == key).eraseDups := by
    rw [knownAmong, List.filter_filter]
    refine congrArg List.eraseDups (List.filter_congr fun k _ => ?_)
    rw [Bool.eq_iff_iff, contains_remove]
    simp [ne_comm]
  rw [others, knownAmong]
  split
  · rename_i known
    rw [List.filter_cons_of_pos known, List.eraseDups_cons]
    rfl
  · rename_i unknown
    have absent : ((rest.filter r.contains).filter fun k => !k == key) = rest.filter r.contains := by
      refine List.filter_eq_self.mpr fun k member => ?_
      simpa using fun same : k = key => unknown (same ▸ (List.mem_filter.mp member).2)
    rw [List.filter_cons_of_neg unknown, absent, List.nil_append]

theorem partitionsAmong_cons (r : Registry) (key : String) (rest : List String) :
    r.partitionsAmong (key :: rest) = (r.find? key).toList ++ (r.remove key).1.partitionsAmong rest := by
  have first : (if r.contains key then [key] else []).filterMap r.find? = (r.find? key).toList := by
    rw [contains_eq_isSome_find?]
    cases found : r.find? key <;> simp [found]
  have later : ((r.remove key).1.knownAmong rest).filterMap r.find? = (r.remove key).1.partitionsAmong rest := by
    refine List.filterMap_congr fun k member => ?_
    have apart := ((r.contains_remove key k).mp (mem_knownAmong.mp member).2).1
    rw [find?_remove, if_neg apart]
  rw [partitionsAmong, knownAmong_cons, List.filterMap_append, first, later]

theorem Sound.map_key_partitionsAmong (sound : r.Sound) (keys : List String) :
    (r.partitionsAmong keys).map (·.key) = r.knownAmong keys := by
  rw [partitionsAmong, List.map_filterMap]
  refine (List.filterMap_congr fun key member => ?_).trans List.filterMap_some
  have known := (mem_knownAmong.mp member).2
  rw [contains_eq_isSome_find?, Option.isSome_iff_exists] at known
  obtain ⟨p, found⟩ := known
  rw [found, Option.map_some, sound.keyed key p found]

theorem Sound.mem_partitionsAmong (sound : r.Sound) {keys : List String} {p : Partition} :
    p ∈ r.partitionsAmong keys ↔ p.key ∈ keys ∧ r.find? p.key = some p := by
  rw [partitionsAmong, List.mem_filterMap]
  constructor
  · rintro ⟨key, member, found⟩
    obtain rfl := sound.keyed key p found
    exact ⟨(mem_knownAmong.mp member).1, found⟩
  · rintro ⟨named, found⟩
    refine ⟨p.key, mem_knownAmong.mpr ⟨named, ?_⟩, found⟩
    rw [contains_eq_isSome_find?, found]
    rfl

/-- Of keys that are not known nothing is there to be taken away. -/
theorem ite_mem_knownAmong {β : Type} {keys : List String} {key : String} {entry : Option β}
    (unknown : r.contains key = false → entry = none) :
    (if key ∈ keys then none else entry) = if key ∈ r.knownAmong keys then none else entry := by
  cases known : r.contains key with
  | false => rw [unknown known, ite_self, ite_self]
  | true => simp only [mem_knownAmong, known, and_true]

theorem Sound.derives_removeAll (sound : r.Sound) (keys : List String) : (r.removeAll keys).Derives
    fun key => if key ∈ r.knownAmong keys then none else r.subscription? key := by
  have entries : (r.removeAll keys).subscription? =
      fun key => if key ∈ r.knownAmong keys then none else r.subscription? key := by
    funext key
    refine (sound.subscription?_removeAll keys key).trans (ite_mem_knownAmong ?_)
    rw [sound.contains_eq, Option.isSome_eq_false_iff, Option.isNone_iff_eq_none]
    exact id
  exact entries ▸ (sound.removeAll keys).derives

end Registry

namespace Assignment

variable {a : Assignment}

theorem Sound.getElem?_used_of_unknown (sound : a.Sound) {key : String}
    (unknown : a.registry.contains key = false) : a.pool.used[key]? = none := by
  cases held : a.pool.used[key]? with
  | none => rfl
  | some checkout =>
    have out : a.pool.isUsed key := by
      rw [Pool.isUsed, Std.ExtTreeMap.contains_eq_isSome_getElem?, held]
      rfl
    rw [sound.used_known key out] at unknown
    cases unknown

/-- Tells the sizes and counts some removed partitions. -/
def recordRemoval (a : Assignment) (mode : RemovalMode) (n : Nat) : Assignment :=
  a.publish.withFigures (a.publish.figures.recordRemoved mode.label n)

theorem figures_recordRemoval (a : Assignment) (mode : RemovalMode) (n : Nat) :
    (a.recordRemoval mode n).figures =
      (a.figures.recordRemoved mode.label n).publish a.registry.size a.pool.idle.length a.pool.used.size :=
  a.figures.recordRemoved_publish _ _ _ mode.label n

/-- Removals counted one after the other are counted together. -/
theorem recordRemoval_withFigures (a b : Assignment) (mode : RemovalMode) (n m : Nat) :
    (a.withFigures (b.recordRemoval mode n).figures).recordRemoval mode m =
      (a.withFigures b.figures).recordRemoval mode (n + m) := by
  have same : ((a.withFigures (b.recordRemoval mode n).figures).recordRemoval mode m).figures =
      ((a.withFigures b.figures).recordRemoval mode (n + m)).figures := by
    rw [figures_recordRemoval, figures_recordRemoval, withFigures, withFigures, figures_recordRemoval,
      AllocationFigures.recordRemoved_publish, AllocationFigures.recordRemoved_recordRemoved]
    rfl
  exact congrArg a.withFigures same

theorem snd_withdrawOne (rollback : Bool) (state : Assignment × RemovedPartitions × Nat) (s : Subscription) :
    (withdrawOne rollback state s).2 =
      ((state.1.registry.find? s.key).toList.foldl RemovedPartitions.collect state.2.1,
        state.2.2 + (state.1.registry.find? s.key).toList.length) := by
  obtain ⟨a, removed, n⟩ := state
  unfold withdrawOne
  dsimp only
  split <;> rename_i found <;> rw [found] <;> rfl

/-- What the removal of some subscriptions collects, and how many partitions it counts. -/
theorem snd_foldl_withdrawOne (subscriptions : List Subscription) (rollback : Bool)
    (state : Assignment × RemovedPartitions × Nat) :
    let ps := state.1.registry.partitionsAmong (subscriptions.map (·.key))
    (subscriptions.foldl (withdrawOne rollback) state).2 =
      (ps.foldl RemovedPartitions.collect state.2.1, state.2.2 + ps.length) := by
  induction subscriptions generalizing state with
  | nil => rfl
  | cons s rest ih =>
    rw [List.foldl_cons, ih]
    simp only [registry_withdrawOne, snd_withdrawOne, List.map_cons, Registry.partitionsAmong_cons,
      List.foldl_append, List.length_append, Nat.add_assoc]

theorem withdrawOne_withFigures (rollback : Bool) (a : Assignment) (figures : AllocationFigures)
    (removed : RemovedPartitions) (n m : Nat) (s : Subscription) :
    withdrawOne rollback (a.withFigures figures, removed, n + m) s =
      let after := withdrawOne rollback (a, removed, m) s
      (after.1.withFigures figures, after.2.1, n + after.2.2) := by
  unfold withdrawOne withFigures
  dsimp only
  split
  · rfl
  · split <;> rfl

/-- What is removed and collected does not depend on the figures, nor on how many were counted before. -/
theorem foldl_withdrawOne_withFigures (a : Assignment) (figures : AllocationFigures)
    (subscriptions : List Subscription) (rollback : Bool) (removed : RemovedPartitions) (n m : Nat) :
    subscriptions.foldl (withdrawOne rollback) (a.withFigures figures, removed, n + m) =
      let after := subscriptions.foldl (withdrawOne rollback) (a, removed, m)
      (after.1.withFigures figures, after.2.1, n + after.2.2) := by
  induction subscriptions generalizing a removed m with
  | nil => rfl
  | cons s rest ih => rw [List.foldl_cons, List.foldl_cons, withdrawOne_withFigures, ih]

theorem Told.withdraw_eq (told : a.Told) (subscriptions : List Subscription) (rollback : Bool)
    (removed : RemovedPartitions) : a.withdraw subscriptions rollback removed =
      let after := subscriptions.foldl (withdrawOne rollback) (a, removed, 0)
      (after.1.recordRemoval (if rollback then .rollback else .commit) after.2.2, after.2.1) := by
  unfold Assignment.withdraw
  cases subscriptions with
  | nil => exact congrArg (·, removed) told.publish_eq.symm
  | cons s rest => rfl

/-- What is collected and counted of some subscriptions. -/
theorem Told.withdraw_eq_collect (told : a.Told) (subscriptions : List Subscription) (rollback : Bool)
    (removed : RemovedPartitions) : a.withdraw subscriptions rollback removed =
      let ps := a.registry.partitionsAmong (subscriptions.map (·.key))
      ((subscriptions.foldl (withdrawOne rollback) (a, removed, 0)).1.recordRemoval
        (if rollback then .rollback else .commit) ps.length, ps.foldl RemovedPartitions.collect removed) := by
  have collects := snd_foldl_withdrawOne subscriptions rollback (a, removed, 0)
  simp only [Nat.zero_add] at collects
  rw [told.withdraw_eq]
  simp only [collects]

/-- Subscriptions may be removed in several goes. -/
theorem Told.withdraw_append (told : a.Told) (first later : List Subscription) (rollback : Bool)
    (removed : RemovedPartitions) : a.withdraw (first ++ later) rollback removed =
      let after := a.withdraw first rollback removed
      after.1.withdraw later rollback after.2 := by
  let mode : RemovalMode := if rollback then .rollback else .commit
  let mid := first.foldl (withdrawOne rollback) (a, removed, 0)
  let rest := later.foldl (withdrawOne rollback) (mid.1, mid.2.1, 0)
  have half : a.withdraw first rollback removed = (mid.1.recordRemoval mode mid.2.2, mid.2.1) :=
    told.withdraw_eq first rollback removed
  have toldMid : (mid.1.recordRemoval mode mid.2.2).Told := by
    have toldHalf := told.withdraw first rollback removed
    rwa [half] at toldHalf
  -- From the middle on both go through the same states, but for what was told and counted so far.
  have once : later.foldl (withdrawOne rollback) mid =
      (rest.1.withFigures mid.1.figures, rest.2.1, mid.2.2 + rest.2.2) :=
    foldl_withdrawOne_withFigures mid.1 mid.1.figures later rollback mid.2.1 mid.2.2 0
  have again : later.foldl (withdrawOne rollback) (mid.1.recordRemoval mode mid.2.2, mid.2.1, 0) =
      (rest.1.withFigures (mid.1.recordRemoval mode mid.2.2).figures, rest.2.1, 0 + rest.2.2) :=
    foldl_withdrawOne_withFigures mid.1 (mid.1.recordRemoval mode mid.2.2).figures later rollback mid.2.1 0 0
  simp only [half]
  rw [told.withdraw_eq, toldMid.withdraw_eq, List.foldl_append, once, again]
  simp only [Nat.zero_add]
  rw [recordRemoval_withFigures]

theorem pool_withdrawOne (rollback : Bool) (state : Assignment × RemovedPartitions × Nat) (s : Subscription) :
    (withdrawOne rollback state s).1.pool = (state.1.pool.release s.key).1 := by
  unfold withdrawOne
  dsimp only
  split
  · rfl
  · split <;> rfl

theorem foldl_dropOne (subscriptions : List Subscription) (rollback : Bool)
    (state : Assignment × RemovedPartitions × Nat) (other : Assignment × Nat)
    (registry : other.1.registry = state.1.registry) (pool : other.1.pool = state.1.pool)
    (count : other.2 = state.2.2) :
    let after := subscriptions.foldl (withdrawOne rollback) state
    let otherAfter := (subscriptions.map (·.key)).foldl dropOne other
    otherAfter.1.registry = after.1.registry ∧ otherAfter.1.pool = after.1.pool ∧ otherAfter.2 = after.2.2 := by
  induction subscriptions generalizing state other with
  | nil => exact ⟨registry, pool, count⟩
  | cons s rest ih =>
    refine ih (withdrawOne rollback state s) (dropOne other s.key) ?_ ?_ ?_
    · rw [registry_withdrawOne, ← registry]
      rfl
    · rw [pool_withdrawOne, ← pool]
      rfl
    · rw [snd_withdrawOne, ← registry, ← Registry.snd_remove, ← count]
      rfl

/-- Whether keys are dropped or subscriptions to them withdrawn, the same is removed. -/
theorem Told.drop_agrees (told : a.Told) (subscriptions : List Subscription) (rollback : Bool)
    (removed : RemovedPartitions) :
    let keys := subscriptions.map (·.key)
    (a.drop keys).1.registry = (a.withdraw subscriptions rollback removed).1.registry ∧
      (a.drop keys).1.pool = (a.withdraw subscriptions rollback removed).1.pool ∧
      (a.drop keys).2 = (a.registry.partitionsAmong keys).length := by
  intro keys
  obtain ⟨registry, pool, count⟩ := foldl_dropOne subscriptions rollback (a, removed, 0) (a, 0) rfl rfl rfl
  have collects := snd_foldl_withdrawOne subscriptions rollback (a, removed, 0)
  rw [drop_eq, told.withdraw_eq]
  refine ⟨registry, pool, count.trans ?_⟩
  rw [collects, Nat.zero_add]

theorem Sound.idle_withdraw (sound : a.Sound) (subscriptions : List Subscription) (rollback : Bool)
    (removed : RemovedPartitions) : (a.withdraw subscriptions rollback removed).1.pool.idle =
      a.pool.idle.filter (· ∉ a.registry.knownAmong (subscriptions.map (·.key))) := by
  rw [(Forgets.withdraw sound subscriptions rollback removed).idle]
  refine List.filter_congr fun key member => ?_
  simp only [Registry.mem_knownAmong, sound.idle_known key member, and_true]

end Assignment

namespace Cache

/-- Of the subscriptions withdrawn those count whose keys are known, each key once and where it first occurs. These
keys are forgotten, and all about other keys stays; the partitions known under them, which need not be those
subscribed to, are collected by broker behind what was collected before, and those checked out are marked. It makes
no difference in how many goes this is done, and dropping the keys takes the same away. -/
theorem withdrawal_takes_exactly_the_known (config : Config) (clock : Clock) (timeKept : Bool)
    (actions : List Action) (subscriptions : List Subscription) (rollback : Bool) (removed : RemovedPartitions) :
    let c := (new config clock timeKept).run actions
    let a := c.assignment
    let keys := subscriptions.map (·.key)
    let ks := a.registry.knownAmong keys
    let ps := a.registry.partitionsAmong keys
    ∃ (b d : Assignment) (collected : RemovedPartitions),
      c.step (.withdraw subscriptions rollback removed) = ({ c with assignment := b }, .removed collected) ∧
      ps.map (·.key) = ks ∧
      b.registry.Derives (fun key => if key ∈ ks then none else a.registry.subscription? key) ∧
      b.pool.idle = a.pool.idle.filter (· ∉ ks) ∧
      (∀ key : String, b.pool.used[key]? = if key ∈ ks then none else a.pool.used[key]?) ∧
      b.pool.issued = a.pool.issued ∧
      (∀ broker : Broker, collected[broker]? = if ps.filter (·.broker = broker) = [] then removed[broker]?
        else some (removed[broker]?.getD [] ++ ps.filter (·.broker = broker))) ∧
      (∀ p, b.marks p = if p ∈ ps ∧ a.pool.isUsed p.key then !rollback else a.marks p) ∧
      (∀ label, b.figures.removed.count label = a.figures.removed.count label +
        if label = (if rollback then RemovalMode.rollback else .commit).label then ks.length else 0) ∧
      b.figures = { a.figures with
        registered := b.registry.size
        idle := b.pool.idle.length
        used := b.pool.used.size
        removed := b.figures.removed } ∧
      (∀ first later, subscriptions = first ++ later → ∃ c' partly,
        c.step (.withdraw first rollback removed) = (c', .removed partly) ∧
        c'.step (.withdraw later rollback partly) = ({ c with assignment := b }, .removed collected)) ∧
      c.step (.drop keys) = ({ c with assignment := d }, .count ks.length) ∧
      d.registry = b.registry ∧ d.pool = b.pool := by
  intro c a keys ks ps
  have sound : a.Sound := sound_run_new config clock timeKept actions
  have told : a.Told := told_run (sound_new config clock timeKept) ⟨rfl, rfl, rfl⟩ actions
  let mode : RemovalMode := if rollback then .rollback else .commit
  let after := subscriptions.foldl (Assignment.withdrawOne rollback) (a, removed, 0)
  let b := (a.withdraw subscriptions rollback removed).1
  have own : ps.map (·.key) = ks := sound.registry.map_key_partitionsAmong keys
  have known : ps.length = ks.length := by rw [← own, List.length_map]
  have withdrawn : a.withdraw subscriptions rollback removed =
      (after.1.recordRemoval mode ks.length, ps.foldl RemovedPartitions.collect removed) :=
    known ▸ told.withdraw_eq_collect subscriptions rollback removed
  have left : b = after.1.recordRemoval mode ks.length := congrArg Prod.fst withdrawn
  have figures : b.figures = (a.figures.recordRemoved mode.label ks.length).publish b.registry.size
      b.pool.idle.length b.pool.used.size := by
    have before : after.1.figures = a.figures := (a.size_foldl_withdrawOne subscriptions rollback removed).2
    rw [left, Assignment.figures_recordRemoval, before]
    rfl
  obtain ⟨registry, pool, count⟩ := told.drop_agrees subscriptions rollback removed
  refine ⟨b, (a.drop keys).1, (a.withdraw subscriptions rollback removed).2, rfl, own, ?_,
    sound.idle_withdraw subscriptions rollback removed, ?_,
    (Assignment.Vacating.withdraw a subscriptions rollback removed).still.2.2.2, ?_, ?_, ?_, ?_, ?_, ?_,
    registry, pool⟩
  · exact Eq.symm (a.registry_withdraw subscriptions rollback removed) ▸ sound.registry.derives_removeAll keys
  · exact fun key => (a.getElem?_used_withdraw subscriptions rollback removed key).trans
      (Registry.ite_mem_knownAmong sound.getElem?_used_of_unknown)
  · intro broker
    rw [withdrawn]
    exact removed.getElem?_foldl_collect ps broker
  · intro p
    have written := sound.marks_withdraw subscriptions rollback removed p
    simpa only [ps, sound.registry.mem_partitionsAmong, and_assoc] using written
  · intro label
    rw [figures]
    exact a.figures.count_recordRemoved mode.label ks.length label
  · refine figures.trans ?_
    rw [figures, a.figures.recordRemoved_eq]
    rfl
  · rintro first later rfl
    have split := told.withdraw_append first later rollback removed
    exact ⟨_, _, rfl, congrArg (fun after : Assignment × RemovedPartitions =>
      (({ c with assignment := after.1 }, .removed after.2) : Cache × Reply)) split.symm⟩
  · have whole : (a.drop keys).2 = ks.length := count.trans known
    exact congrArg (fun n => (({ c with assignment := (a.drop keys).1 }, .count n) : Cache × Reply)) whole

end Cache

end PartitionLease

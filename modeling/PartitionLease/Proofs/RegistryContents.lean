import Mathlib.Data.List.Induction
import PartitionLease.Proofs.PoolSteps

namespace PartitionLease

namespace Indexes

variable {β : Type} [Ord β] [Std.TransOrd β] [Std.LawfulEqOrd β]
variable {index other : Std.ExtTreeMap β KeySet} {feature : Partition → β}
variable {partitions : Std.ExtTreeMap String Partition}

/-- The partitions leave no choice in how they are indexed. -/
theorem unique (agrees : Indexes index feature partitions) (also : Indexes other feature partitions) :
    index = other := by
  have same (x : β) : index[x]?.getD ∅ = other[x]?.getD ∅ := by
    refine Std.ExtTreeSet.ext_mem fun key => ?_
    rw [agrees.filed, also.filed]
  refine Std.ExtTreeMap.ext_getElem? fun x => ?_
  have here := same x
  cases entry : index[x]? with
  | none =>
    cases entryToo : other[x]? with
    | none => rfl
    | some keys =>
      rw [entry, entryToo] at here
      exact absurd here.symm (also.occupied x keys entryToo)
  | some keys =>
    cases entryToo : other[x]? with
    | none =>
      rw [entry, entryToo] at here
      exact absurd here (agrees.occupied x keys entry)
    | some keysToo =>
      rw [entry, entryToo] at here
      exact congrArg some here

end Indexes

namespace Registry

/-- All that a registry holds comes from one map of keys to subscriptions: its partitions are those subscribed
to, and its indices are theirs. -/
structure Derives (r : Registry) (entry : String → Option Subscription) : Prop where
  keyed : ∀ key s, entry key = some s → s.key = key
  subscriptions : ∀ key : String, r.subscriptions[key]? = entry key
  partitions : ∀ key : String, r.partitions[key]? = (entry key).map (·.partition)
  topics : Indexes r.byTopic (·.topic) r.partitions
  brokers : Indexes r.byBroker (·.broker) r.partitions

theorem Sound.find?_eq {r : Registry} (sound : r.Sound) (key : String) :
    r.find? key = (r.subscription? key).map (·.partition) := (sound.subscribed key).symm

theorem Sound.contains_eq {r : Registry} (sound : r.Sound) (key : String) :
    r.contains key = (r.subscription? key).isSome := by
  rw [contains_eq_isSome_find?, sound.find?_eq, Option.isSome_map]

theorem Sound.derives {r : Registry} (sound : r.Sound) : r.Derives r.subscription? where
  keyed := by
    intro key s found
    refine sound.keyed key s.partition ?_
    rw [← sound.subscribed, show r.subscriptions[key]? = some s from found]
    rfl
  subscriptions _ := rfl
  partitions key := (sound.subscribed key).symm
  topics := sound.topics
  brokers := sound.brokers

namespace Derives

variable {r q : Registry} {entry : String → Option Subscription}

/-- The map leaves no choice in how it is represented. -/
theorem unique (derives : r.Derives entry) (also : q.Derives entry) : r = q := by
  have subscriptions : r.subscriptions = q.subscriptions :=
    Std.ExtTreeMap.ext_getElem? fun key => by rw [derives.subscriptions, also.subscriptions]
  have partitions : r.partitions = q.partitions :=
    Std.ExtTreeMap.ext_getElem? fun key => by rw [derives.partitions, also.partitions]
  have topics : r.byTopic = q.byTopic := derives.topics.unique (partitions ▸ also.topics)
  have brokers : r.byBroker = q.byBroker := derives.brokers.unique (partitions ▸ also.brokers)
  cases r
  cases q
  simp_all

theorem size_eq (derives : r.Derives entry) :
    ∃ keys : List String, keys.Nodup ∧ (∀ key, key ∈ keys ↔ (entry key).isSome) ∧ r.size = keys.length := by
  refine ⟨r.partitions.keys, Std.ExtTreeMap.nodup_keys, fun key => ?_, Std.ExtTreeMap.length_keys.symm⟩
  rw [Std.ExtTreeMap.mem_keys, Std.ExtTreeMap.mem_iff_isSome_getElem?, derives.partitions, Option.isSome_map]

theorem allSubscriptions (derives : r.Derives entry) :
    r.allSubscriptions.Nodup ∧ ∀ s, s ∈ r.allSubscriptions ↔ entry s.key = some s := by
  have own (key : String) (s : Subscription) (listed : (key, s) ∈ r.subscriptions.toList) :
      entry key = some s ∧ s.key = key := by
    have found := Std.ExtTreeMap.mem_toList_iff_getElem?_eq_some.mp listed
    rw [derives.subscriptions] at found
    exact ⟨found, derives.keyed key s found⟩
  constructor
  · have distinct : (r.subscriptions.toList.map (·.1)).Nodup :=
      Std.ExtTreeMap.map_fst_toList_eq_keys (t := r.subscriptions) ▸ Std.ExtTreeMap.nodup_keys
    refine List.Nodup.map_on ?_ distinct.of_map
    rintro ⟨key, s⟩ listed ⟨other, t⟩ listedToo same
    obtain rfl : s = t := same
    rw [← (own key s listed).2, ← (own other s listedToo).2]
  · intro s
    refine List.mem_map.trans ⟨?_, fun found => ?_⟩
    · rintro ⟨⟨key, t⟩, listed, rfl⟩
      obtain ⟨found, rfl⟩ := own key t listed
      exact found
    · refine ⟨(s.key, s), Std.ExtTreeMap.mem_toList_iff_getElem?_eq_some.mpr ?_, rfl⟩
      rw [derives.subscriptions, found]

/-- An entry of an index stands for the partitions filed there, each of them once. -/
theorem partitionsOf (derives : r.Derives entry) {β : Type} [Ord β] [Std.TransOrd β] [Std.LawfulEqOrd β]
    {index : Std.ExtTreeMap β KeySet} {feature : Partition → β} (agrees : Indexes index feature r.partitions)
    (x : β) : (r.partitionsOf index[x]?).Nodup ∧ ∀ p, p ∈ r.partitionsOf index[x]? ↔
      (entry p.key).map (·.partition) = some p ∧ feature p = x := by
  have own (key : String) (p : Partition) (stored : r.partitions[key]? = some p) : p.key = key := by
    rw [derives.partitions, Option.map_eq_some_iff] at stored
    obtain ⟨s, found, rfl⟩ := stored
    exact derives.keyed key s found
  constructor
  · refine List.Nodup.filterMap ?_ ?_
    · intro key other p stored storedToo
      rw [← own key p stored, own other p storedToo]
    · exact Std.ExtTreeSet.distinct_toList.imp fun apart same => apart (by simp [same])
  · intro p
    rw [Registry.partitionsOf, List.mem_filterMap, ← derives.partitions]
    constructor
    · rintro ⟨key, filed, stored⟩
      obtain ⟨q, storedToo, feature⟩ := (agrees.filed x key).mp (Std.ExtTreeSet.mem_toList.mp filed)
      obtain rfl : p = q := Option.some.inj (stored.symm.trans storedToo)
      rw [own key p stored]
      exact ⟨stored, feature⟩
    · rintro ⟨stored, feature⟩
      exact ⟨p.key, Std.ExtTreeSet.mem_toList.mpr ((agrees.filed x p.key).mpr ⟨p, stored, feature⟩), stored⟩

theorem mem_keys_iff (derives : r.Derives entry) {β : Type} [Ord β] [Std.TransOrd β] [Std.LawfulEqOrd β]
    {index : Std.ExtTreeMap β KeySet} {feature : Partition → β} (agrees : Indexes index feature r.partitions)
    (x : β) : x ∈ index.keys ↔ ∃ key s, entry key = some s ∧ feature s.partition = x := by
  simp only [agrees.mem_keys_iff, derives.partitions, Option.map_eq_some_iff]
  constructor
  · rintro ⟨key, -, ⟨s, found, rfl⟩, has⟩
    exact ⟨key, s, found, has⟩
  · rintro ⟨key, s, found, has⟩
    exact ⟨key, s.partition, ⟨s, found, rfl⟩, has⟩

/-- Not known are the partitions whose keys are not. -/
theorem unsubscribed {a : Assignment} (derives : a.registry.Derives entry) (offered : List Subscription) :
    a.unsubscribed offered = (offered.filter fun s => (entry s.key).isNone).map (·.partition) := by
  have absent (key : String) : (!a.registry.contains key) = (entry key).isNone := by
    rw [contains_eq_isSome_find?, find?, derives.partitions, Option.isSome_map, Option.not_isSome]
  unfold Assignment.unsubscribed
  split
  · rename_i empty
    have all : offered.filter (fun s => (entry s.key).isNone) = offered := by
      refine List.filter_eq_self.mpr fun s _ => ?_
      rw [← absent, contains, Std.ExtTreeMap.isEmpty_iff.mp empty]
      rfl
    rw [all]
  · simp only [absent]

end Derives

theorem Sound.removeAll {r : Registry} (sound : r.Sound) (keys : List String) : (r.removeAll keys).Sound := by
  induction keys generalizing r with
  | nil => exact sound
  | cons key rest ih => exact ih (sound.remove key)

theorem Sound.subscription?_insert {r : Registry} (sound : r.Sound) (s : Subscription) (key : String) :
    (r.insert s).1.subscription? key =
      if s.key = key then some ((r.subscription? key).getD s) else r.subscription? key := by
  unfold Registry.insert subscription?
  split
  · rename_i known
    split
    · rename_i own
      subst own
      obtain ⟨p, stored⟩ := Option.isSome_iff_exists.mp (contains_eq_isSome_find? r s.key ▸ known)
      rw [find?, ← sound.subscribed, Option.map_eq_some_iff] at stored
      obtain ⟨old, found, -⟩ := stored
      simp [found]
    · rfl
  · rename_i unknown
    simp only [Std.ExtTreeMap.getElem?_insert, Std.LawfulEqCmp.compare_eq_iff_eq]
    split
    · rename_i own
      subst own
      rw [contains_eq_isSome_find?, find?, ← sound.subscribed, Option.isSome_map] at unknown
      rw [Option.not_isSome_iff_eq_none.mp unknown]
      rfl
    · rfl

theorem Sound.subscription?_remove {r : Registry} (sound : r.Sound) (key k : String) :
    (r.remove key).1.subscription? k = if key = k then none else r.subscription? k := by
  unfold Registry.remove subscription?
  split
  · rename_i unknown
    split
    · rename_i own
      subst own
      rw [← sound.subscribed, Option.map_eq_none_iff] at unknown
      exact unknown
    · rfl
  · simp only [Std.ExtTreeMap.getElem?_erase, Std.LawfulEqCmp.compare_eq_iff_eq]

theorem Sound.subscription?_removeAll {r : Registry} (sound : r.Sound) (keys : List String) (k : String) :
    (r.removeAll keys).subscription? k = if k ∈ keys then none else r.subscription? k := by
  induction keys generalizing r with
  | nil => simp [Registry.removeAll]
  | cons key rest ih =>
    refine (ih (sound.remove key)).trans ?_
    rw [sound.subscription?_remove]
    by_cases later : k ∈ rest
    · simp [later]
    · by_cases now : key = k
      · simp [now]
      · simp [later, now, Ne.symm now]

end Registry

namespace Cache

/-- What is to be known after some actions, in one map: who the consumer is, and the subscription of each key. -/
structure Books where
  consumer : String := ""
  group : String := ""
  entry : String → Option Subscription := fun _ => none

/-- A key keeps its first subscription until it is removed. -/
def Books.after (b : Books) : Action → Books
  | .setConsumer consumer group => { b with consumer, group }
  | .add p => { b with entry := fun key =>
      if p.key = key then some ((b.entry key).getD ⟨b.consumer, b.group, p⟩) else b.entry key }
  | action => { b with entry := fun key => if key ∈ forgotten action then none else b.entry key }

def books (actions : List Action) : Books := actions.foldl Books.after {}

/-- Consumer and group are those of the action that set them last, or empty if none did. -/
def SetLast (actions : List Action) (consumer group : String) : Prop :=
  (∃ before after, actions = before ++ .setConsumer consumer group :: after ∧
    ∀ c g, .setConsumer c g ∉ after) ∨
  consumer = "" ∧ group = "" ∧ ∀ c g, .setConsumer c g ∉ actions

/-- A key has been removed after each of its registrations. -/
def Unbound (actions : List Action) (key : String) : Prop :=
  ∀ before p after, actions = before ++ .add p :: after → p.key = key → ∃ action ∈ after, key ∈ forgotten action

/-- A subscription is that of the first registration of its key since the last removal, and for the consumer
and group set then. -/
def BoundFirst (actions : List Action) (s : Subscription) : Prop :=
  ∃ before after, actions = before ++ .add s.partition :: after ∧ SetLast before s.consumer s.group ∧
    Unbound before s.key ∧ ∀ action ∈ after, s.key ∉ forgotten action

theorem books_concat (actions : List Action) (action : Action) :
    books (actions ++ [action]) = (books actions).after action := List.foldl_concat ..

theorem setLast_concat {actions : List Action} {action : Action} {consumer group : String} :
    SetLast (actions ++ [action]) consumer group ↔ action = .setConsumer consumer group ∨
      (∀ c g, action ≠ .setConsumer c g) ∧ SetLast actions consumer group := by
  constructor
  · rintro (⟨before, after, split, last⟩ | ⟨rfl, rfl, never⟩)
    · rcases concat_eq_append_cons_iff.mp split with ⟨rfl, rfl, rfl⟩ | ⟨others, rfl, rfl⟩
      · exact Or.inl rfl
      · refine Or.inr ⟨fun c g own => last c g (by simp [own]), Or.inl ⟨before, others, rfl, ?_⟩⟩
        exact fun c g member => last c g (List.mem_append_left _ member)
    · refine Or.inr ⟨fun c g own => never c g (by simp [own]), Or.inr ⟨rfl, rfl, ?_⟩⟩
      exact fun c g member => never c g (List.mem_append_left _ member)
  · rintro (rfl | ⟨other, ⟨before, after, rfl, last⟩ | ⟨rfl, rfl, never⟩⟩)
    · exact Or.inl ⟨actions, [], rfl, fun _ _ => List.not_mem_nil⟩
    · refine Or.inl ⟨before, after ++ [action], by simp, fun c g member => ?_⟩
      rcases List.mem_append.mp member with old | new
      · exact last c g old
      · exact other c g (List.mem_singleton.mp new).symm
    · refine Or.inr ⟨rfl, rfl, fun c g member => ?_⟩
      rcases List.mem_append.mp member with old | new
      · exact never c g old
      · exact other c g (List.mem_singleton.mp new).symm

theorem unbound_concat {actions : List Action} {action : Action} {key : String} :
    Unbound (actions ++ [action]) key ↔ (∀ p, action = .add p → p.key ≠ key) ∧
      (key ∈ forgotten action ∨ Unbound actions key) := by
  constructor
  · intro unbound
    refine ⟨?_, ?_⟩
    · rintro p rfl own
      obtain ⟨_, none, -⟩ := unbound actions p [] rfl own
      cases none
    · by_cases forgets : key ∈ forgotten action
      · exact Or.inl forgets
      · refine Or.inr fun before p after split own => ?_
        obtain ⟨removal, member, names⟩ := unbound before p (after ++ [action]) (by simp [split]) own
        rcases List.mem_append.mp member with old | new
        · exact ⟨removal, old, names⟩
        · rw [List.mem_singleton.mp new] at names
          exact absurd names forgets
  · rintro ⟨other, how⟩ before p after split own
    rcases concat_eq_append_cons_iff.mp split with ⟨rfl, rfl, rfl⟩ | ⟨others, rfl, rfl⟩
    · exact absurd own (other p rfl)
    · rcases how with forgets | unbound
      · exact ⟨action, by simp, forgets⟩
      · obtain ⟨removal, member, names⟩ := unbound before p others rfl own
        exact ⟨removal, List.mem_append_left _ member, names⟩

theorem boundFirst_concat {actions : List Action} {action : Action} {s : Subscription} :
    BoundFirst (actions ++ [action]) s ↔
      action = .add s.partition ∧ SetLast actions s.consumer s.group ∧ Unbound actions s.key ∨
        BoundFirst actions s ∧ s.key ∉ forgotten action := by
  constructor
  · rintro ⟨before, after, split, set, unbound, stays⟩
    rcases concat_eq_append_cons_iff.mp split with ⟨rfl, rfl, rfl⟩ | ⟨others, rfl, rfl⟩
    · exact Or.inl ⟨rfl, set, unbound⟩
    · exact Or.inr ⟨⟨before, others, rfl, set, unbound, fun a member => stays a (List.mem_append_left _ member)⟩,
        stays action (by simp)⟩
  · rintro (⟨rfl, set, unbound⟩ | ⟨⟨before, after, rfl, set, unbound, stays⟩, remains⟩)
    · exact ⟨actions, [], rfl, set, unbound, by simp⟩
    · refine ⟨before, after ++ [action], by simp, set, unbound, fun a member => ?_⟩
      rcases List.mem_append.mp member with old | new
      · exact stays a old
      · exact List.mem_singleton.mp new ▸ remains

/-- The books tell who set consumer and group last. -/
theorem setLast_iff (actions : List Action) (consumer group : String) :
    SetLast actions consumer group ↔ (books actions).consumer = consumer ∧ (books actions).group = group := by
  induction actions using List.reverseRecOn with
  | nil => simp [SetLast, books, @eq_comm _ ""]
  | append_singleton actions action ih =>
    rw [setLast_concat, books_concat, ih]
    cases action <;> simp [Books.after]

theorem Books.entry_after_add (b : Books) (p : Partition) : (b.after (.add p)).entry p.key =
    some ((b.entry p.key).getD ⟨b.consumer, b.group, p⟩) := if_pos rfl

theorem Books.entry_after (b : Books) {action : Action} {key : String}
    (other : ∀ p, action = .add p → p.key ≠ key) :
    (b.after action).entry key = if key ∈ forgotten action then none else b.entry key := by
  cases action with
  | add p => exact if_neg (other p rfl)
  | _ => rfl

/-- What the books say of a key is what its registrations and removals say. -/
theorem entry_books_iff (actions : List Action) (key : String) :
    ((books actions).entry key = none ↔ Unbound actions key) ∧
      ∀ s, (books actions).entry key = some s ↔ s.key = key ∧ BoundFirst actions s := by
  induction actions using List.reverseRecOn with
  | nil => simp [books, Unbound, BoundFirst]
  | append_singleton actions action ih =>
    obtain ⟨unbound, bound⟩ := ih
    rw [books_concat, unbound_concat]
    simp only [boundFirst_concat, setLast_iff]
    by_cases other : ∀ p, action = .add p → p.key ≠ key
    · rw [Books.entry_after _ other, ← unbound, and_iff_right other]
      have notNow {s : Subscription} (own : s.key = key) : action ≠ .add s.partition :=
        fun same => other s.partition same own
      by_cases forgets : key ∈ forgotten action
      · refine ⟨by simp [forgets], fun s => ?_⟩
        rw [if_pos forgets]
        refine iff_of_false (by simp) ?_
        rintro ⟨rfl, ⟨same, -⟩ | ⟨-, stays⟩⟩
        · exact notNow rfl same
        · exact stays forgets
      · refine ⟨by simp [forgets], fun s => ?_⟩
        rw [if_neg forgets, bound]
        refine and_congr_right ?_
        rintro rfl
        rw [or_iff_right fun now => notNow rfl now.1, and_iff_left forgets]
    · simp only [not_forall, ne_eq, not_not] at other
      obtain ⟨p, rfl, rfl⟩ := other
      rw [Books.entry_after_add]
      refine ⟨by simp, fun s => ?_⟩
      simp only [Option.some.injEq, Action.add.injEq, forgotten, List.not_mem_nil, not_false_eq_true, and_true]
      cases old : (books actions).entry p.key with
      | none =>
        have free := unbound.mp old
        constructor
        · rintro rfl
          exact ⟨rfl, Or.inl ⟨rfl, ⟨rfl, rfl⟩, free⟩⟩
        · rintro ⟨own, ⟨rfl, ⟨consumer, group⟩, -⟩ | first⟩
          · rw [consumer, group]
            rfl
          · have found := (bound s).mpr ⟨own, first⟩
            rw [old] at found
            cases found
      | some kept =>
        have taken : ¬ Unbound actions p.key := by
          rw [← unbound, old]
          simp
        rw [Option.getD_some, ← Option.some.injEq, ← old, bound]
        refine and_congr_right fun own => ?_
        rw [or_iff_right]
        rintro ⟨-, -, free⟩
        exact taken (own ▸ free)

/-- Only who the consumer is can change in a session. -/
theorem session_step (c : Cache) (action : Action) : (c.step action).1.session = match action with
    | .setConsumer consumer group => c.session.setConsumer consumer group
    | _ => c.session := by
  cases action with
  | advanceClock span => rw [step_advanceClock]
  | pass millis =>
    simp only [step, pass]
    split <;> rfl
  | _ => rfl

/-- An action changes what is known of a key. -/
theorem subscription?_step {c : Cache} (sound : c.assignment.Sound) (agree : c.assignment.AlarmsAgree)
    (action : Action) (key : String) :
    (c.step action).1.assignment.registry.subscription? key = ((⟨c.session.consumer, c.session.group,
      c.assignment.registry.subscription?⟩ : Books).after action).entry key := by
  by_cases other : ∀ p, action ≠ .add p
  · rw [registry_step sound agree other, sound.registry.subscription?_removeAll,
      Books.entry_after _ fun p own => absurd own (other p)]
  · simp only [not_forall, ne_eq, not_not] at other
    obtain ⟨p, rfl⟩ := other
    refine (congrArg (·.subscription? key) (c.assignment.registry_add _ _ p)).trans ?_
    exact sound.registry.subscription?_insert ⟨c.session.consumer, c.session.group, p⟩ key

/-- What a cache says of its registrations is what the books say. -/
structure Follows (c : Cache) (b : Books) : Prop where
  consumer : c.session.consumer = b.consumer
  group : c.session.group = b.group
  subscription : c.assignment.registry.subscription? = b.entry

theorem Follows.step {c : Cache} {b : Books} (follows : c.Follows b) (sound : c.assignment.Sound)
    (agree : c.assignment.AlarmsAgree) (action : Action) : (c.step action).1.Follows (b.after action) := by
  obtain ⟨consumer, group, entry⟩ := b
  obtain ⟨rfl, rfl, rfl⟩ := follows
  constructor
  · rw [session_step]
    cases action <;> rfl
  · rw [session_step]
    cases action <;> rfl
  · funext key
    exact subscription?_step sound agree action key

theorem follows_run (config : Config) (clock : Clock) (timeKept : Bool) (actions : List Action) :
    ((new config clock timeKept).run actions).Follows (books actions) := by
  have soundStart := sound_new config clock timeKept
  have agreeStart := agree_new config clock timeKept
  induction actions using List.reverseRecOn with
  | nil => exact ⟨rfl, rfl, funext fun key => by simp [new, Registry.subscription?, books]⟩
  | append_singleton actions action ih =>
    rw [books_concat, run_append]
    exact ih.step (sound_run soundStart actions) (agree_run soundStart agreeStart actions) action

/-- A key that was not known and is removed again leaves the books as they were. -/
theorem entry_after_removal {b : Books} {p : Partition} {removal : Action} (new : b.entry p.key = none)
    (removes : forgotten removal = [p.key]) : ((b.after (.add p)).after removal).entry = b.entry := by
  funext key
  have other : ∀ q, removal = .add q → q.key ≠ key := by
    rintro q rfl
    cases removes
  simp only [Books.entry_after _ other, removes, List.mem_singleton]
  split
  · rename_i own
    rw [own, new]
  · rename_i apart
    exact if_neg (Ne.symm apart)

/-- The registry is one map from keys to subscriptions, whatever happens to a new cache: all that it holds is
derived from this map, by which it is determined, and all that is asked of it is answered from it. The map
has for each key the first registration since its last removal, under the consumer and group set then. So
the registry does not remember what was registered and removed again. -/
theorem registry_holds_first_registrations (config : Config) (clock : Clock) (timeKept : Bool)
    (actions : List Action) :
    let c := (new config clock timeKept).run actions
    let r := c.assignment.registry
    let entry := (books actions).entry
    let registered (p : Partition) := (entry p.key).map (·.partition) = some p
    r.Derives entry ∧ (∀ other : Registry, other.Derives entry → other = r) ∧
    (∀ key s, entry key = some s ↔ s.key = key ∧ BoundFirst actions s) ∧
    (∀ key, r.find? key = (entry key).map (·.partition) ∧ r.subscription? key = entry key) ∧
    (∃ keys : List String, keys.Nodup ∧ (∀ key, key ∈ keys ↔ (entry key).isSome) ∧ r.size = keys.length) ∧
    (r.allSubscriptions.Nodup ∧ ∀ s, s ∈ r.allSubscriptions ↔ entry s.key = some s) ∧
    (∀ topic, (r.partitionsForTopic topic).Nodup ∧
      ∀ p, p ∈ r.partitionsForTopic topic ↔ registered p ∧ p.topic = topic) ∧
    (∀ broker, (r.partitionsForBroker broker).Nodup ∧
      ∀ p, p ∈ r.partitionsForBroker broker ↔ registered p ∧ p.broker = broker) ∧
    (∀ broker lookalike : Broker, lookalike.endpoint = broker.endpoint → lookalike ≠ broker →
      ∀ p ∈ r.partitionsForBroker broker, p ∉ r.partitionsForBroker lookalike) ∧
    (r.topics.Nodup ∧ ∀ topic, topic ∈ r.topics ↔ ∃ key s, entry key = some s ∧ s.partition.topic = topic) ∧
    (r.brokers.Nodup ∧ ∀ broker, broker ∈ r.brokers ↔
      ∃ key s, entry key = some s ∧ s.partition.broker = broker) ∧
    (∀ offered, c.assignment.unsubscribed offered =
      (offered.filter fun s => (entry s.key).isNone).map (·.partition)) ∧
    ∀ p removal, entry p.key = none → forgotten removal = [p.key] →
      (c.run [.add p, removal]).assignment.registry = r := by
  intro c r entry registered
  have derived (actions : List Action) :
      ((new config clock timeKept).run actions).assignment.registry.Derives (books actions).entry := by
    have derives := (sound_run_new config clock timeKept actions).registry.derives
    rwa [(follows_run config clock timeKept actions).subscription] at derives
  have derives : r.Derives entry := derived actions
  refine ⟨derives, fun other also => also.unique derives, fun key => (entry_books_iff actions key).2,
    fun key => ⟨derives.partitions key, derives.subscriptions key⟩, derives.size_eq, derives.allSubscriptions,
    derives.partitionsOf derives.topics, derives.partitionsOf derives.brokers, ?_,
    ⟨Std.ExtTreeMap.nodup_keys, derives.mem_keys_iff derives.topics⟩,
    ⟨Std.ExtTreeMap.nodup_keys, derives.mem_keys_iff derives.brokers⟩, derives.unsubscribed, ?_⟩
  · intro broker lookalike _ other p member also
    have own := ((derives.partitionsOf derives.brokers broker).2 p).mp member
    have ownToo := ((derives.partitionsOf derives.brokers lookalike).2 p).mp also
    exact other (ownToo.2.symm.trans own.2)
  · intro p removal fresh removes
    have twice : books (actions ++ [.add p, removal]) = ((books actions).after (.add p)).after removal :=
      List.foldl_append
    have again := derived (actions ++ [.add p, removal])
    rw [run_append, twice, entry_after_removal fresh removes] at again
    exact again.unique derives

end Cache

end PartitionLease

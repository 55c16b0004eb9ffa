import Mathlib.Data.List.Perm.Subperm
import PartitionLease.Proofs.RegistryAgreement

namespace PartitionLease

/-- Two maps have the same keys exactly if they are of one size and the keys of one are among those of the
other: a map with more keys would be larger. -/
theorem mem_iff_mem_iff_size_eq {β γ : Type} {t : Std.ExtTreeMap String β} {u : Std.ExtTreeMap String γ} :
    (∀ key, key ∈ u ↔ key ∈ t) ↔ u.size = t.size ∧ ∀ key ∈ t, key ∈ u := by
  rw [← Std.ExtTreeMap.length_keys, ← Std.ExtTreeMap.length_keys]
  simp only [← Std.ExtTreeMap.mem_keys]
  constructor
  · intro same
    have perm : u.keys.Perm t.keys :=
      (List.perm_ext_iff_of_nodup Std.ExtTreeMap.nodup_keys Std.ExtTreeMap.nodup_keys).mpr same
    exact ⟨perm.length_eq, fun key => (same key).mpr⟩
  · rintro ⟨size, among⟩ key
    have fewer : t.keys.Subperm u.keys := List.subperm_of_subset Std.ExtTreeMap.nodup_keys among
    exact (fewer.perm_of_length_le (Nat.le_of_eq size)).mem_iff.symm

/-- An index has an entry for exactly what some partition has, and the entry holds exactly the keys of the
partitions that have it. -/
structure EntersExactly {β : Type} [Ord β] [Std.TransOrd β] (index : Std.ExtTreeMap β KeySet)
    (feature : Partition → β) (partitions : Std.ExtTreeMap String Partition) : Prop where
  entered : ∀ x, x ∈ index ↔ ∃ (key : String) (p : Partition), partitions[key]? = some p ∧ feature p = x
  holds : ∀ (x : β) (keys : KeySet), index[x]? = some keys →
    ∀ key, key ∈ keys ↔ ∃ p, partitions[key]? = some p ∧ feature p = x

section EntersExactly

variable {β : Type} [Ord β] [Std.TransOrd β] [Std.LawfulEqOrd β]
variable {index : Std.ExtTreeMap β KeySet} {feature : Partition → β}
variable {partitions : Std.ExtTreeMap String Partition}

theorem Indexes.entersExactly (agrees : Indexes index feature partitions) :
    EntersExactly index feature partitions where
  entered x := Std.ExtTreeMap.mem_keys.symm.trans (agrees.mem_keys_iff x)
  holds x keys entry key := by
    rw [← agrees.filed, entry]
    rfl

/-- An index is right if every partition is filed, and every entry has keys and only such as belong there. -/
theorem entersExactly_iff : EntersExactly index feature partitions ↔
    (∀ key p, partitions[key]? = some p → key ∈ index[feature p]?.getD ∅) ∧
      ∀ (x : β) (keys : KeySet), index[x]? = some keys →
        keys ≠ ∅ ∧ ∀ key ∈ keys, ∃ p, partitions[key]? = some p ∧ feature p = x := by
  constructor
  · intro right
    constructor
    · intro key p stored
      have entered := (right.entered (feature p)).mpr ⟨key, p, stored, rfl⟩
      obtain ⟨keys, entry⟩ := Option.isSome_iff_exists.mp (Std.ExtTreeMap.mem_iff_isSome_getElem?.mp entered)
      rw [entry]
      exact (right.holds _ keys entry key).mpr ⟨p, stored, rfl⟩
    · intro x keys entry
      have entered : x ∈ index := by
        rw [Std.ExtTreeMap.mem_iff_isSome_getElem?, entry]
        rfl
      obtain ⟨key, filed⟩ := (right.entered x).mp entered
      have member := (right.holds x keys entry key).mpr filed
      refine ⟨?_, fun k => (right.holds x keys entry k).mp⟩
      rintro rfl
      exact Std.ExtTreeSet.not_mem_empty member
  · rintro ⟨filed, entries⟩
    have agrees : Indexes index feature partitions := by
      refine ⟨fun x key => ⟨fun member => ?_, ?_⟩, fun x keys entry => (entries x keys entry).1⟩
      · cases entry : index[x]? with
        | none =>
          rw [entry] at member
          exact absurd member Std.ExtTreeSet.not_mem_empty
        | some keys =>
          rw [entry] at member
          exact (entries x keys entry).2 key member
      · rintro ⟨p, stored, rfl⟩
        exact filed key p stored
    exact agrees.entersExactly

end EntersExactly

theorem told_eq_none_iff {P : Prop} [Decidable P] {fault : Fault} {others : Option Fault} :
    (if P then some fault else others) = none ↔ ¬ P ∧ others = none := by
  by_cases told : P <;> simp [told]

/-- `listed` goes through the entries of an index, each once, and through the keys of each, in whatever order. -/
def ListsIndex {β : Type} [Ord β] [Std.TransOrd β] (listed : List (β × List String))
    (index : Std.ExtTreeMap β KeySet) : Prop :=
  ∃ entries, entries.Perm index.toList ∧
    List.Forall₂ (fun seen entry => seen.1 = entry.1 ∧ seen.2.Perm entry.2.toList) listed entries

theorem listsIndex_toList {β : Type} [Ord β] [Std.TransOrd β] (index : Std.ExtTreeMap β KeySet) :
    ListsIndex (index.toList.map fun (x, keys) => (x, keys.toList)) index := by
  refine ⟨index.toList, .refl _, ?_⟩
  rw [List.forall₂_map_left_iff, List.forall₂_same]
  exact fun _ _ => ⟨rfl, .refl _⟩

/-- What does not depend on the order of keys holds of all entries listed if it does of all there are. -/
theorem ListsIndex.forall_iff {β : Type} [Ord β] [Std.TransOrd β] [Std.LawfulEqOrd β]
    {listed : List (β × List String)} {index : Std.ExtTreeMap β KeySet} (lists : ListsIndex listed index)
    {P : β → List String → Prop}
    (free : ∀ x {keys others : List String}, keys.Perm others → (P x keys ↔ P x others)) :
    (∀ seen ∈ listed, P seen.1 seen.2) ↔ ∀ x (keys : KeySet), index[x]? = some keys → P x keys.toList := by
  obtain ⟨entries, perm, goes⟩ := lists
  have each : (∀ seen ∈ listed, P seen.1 seen.2) ↔ ∀ entry ∈ entries, P entry.1 entry.2.toList := by
    clear perm
    induction goes with
    | nil => simp
    | cons same _ ih =>
      rw [List.forall_mem_cons, List.forall_mem_cons, ih, same.1, free _ same.2]
  rw [each]
  constructor
  · intro all x keys entry
    exact all (x, keys) (perm.mem_iff.mpr (Std.ExtTreeMap.mem_toList_iff_getElem?_eq_some.mpr entry))
  · rintro all ⟨x, keys⟩ member
    exact all x keys (Std.ExtTreeMap.mem_toList_iff_getElem?_eq_some.mp (perm.mem_iff.mp member))

namespace Registry

/-- `l` goes through the partitions and the indices of a registry in whatever order. -/
structure Listing.Lists (l : Listing) (r : Registry) : Prop where
  partitions : l.partitions.Perm r.partitions.toList
  topics : ListsIndex l.topics r.byTopic
  brokers : ListsIndex l.brokers r.byBroker

theorem lists_listing (r : Registry) : r.listing.Lists r :=
  ⟨.refl _, listsIndex_toList r.byTopic, listsIndex_toList r.byBroker⟩

/-- The four maps fit each other: the same keys have subscriptions and partitions, every partition is stored
under its own key, and both indices are right. Whether a subscription is to the partition stored is not asked. -/
structure Consistent (r : Registry) : Prop where
  subscribed : ∀ key, key ∈ r.subscriptions ↔ key ∈ r.partitions
  keyed : ∀ (key : String) (p : Partition), r.partitions[key]? = some p → p.key = key
  topics : EntersExactly r.byTopic (·.topic) r.partitions
  brokers : EntersExactly r.byBroker (·.broker) r.partitions

theorem Sound.consistent {r : Registry} (sound : r.Sound) : r.Consistent where
  subscribed key := by
    rw [Std.ExtTreeMap.mem_iff_isSome_getElem?, Std.ExtTreeMap.mem_iff_isSome_getElem?, ← sound.subscribed,
      Option.isSome_map]
  keyed := sound.keyed
  topics := sound.topics.entersExactly
  brokers := sound.brokers.entersExactly

/-- What is filed is found by the check, which looks for an entry and for the key in it. -/
theorem any_contains_iff {keys : Option KeySet} {key : String} :
    keys.any (·.contains key) ↔ key ∈ keys.getD ∅ := by
  cases keys with
  | none => simp
  | some present => exact Iff.rfl

theorem partitionFault_eq_none_iff (r : Registry) (key : String) (p : Partition) :
    r.partitionFault (key, p) = none ↔ p.key = key ∧ key ∈ r.subscriptions ∧
      key ∈ r.byTopic[p.topic]?.getD ∅ ∧ key ∈ r.byBroker[p.broker]?.getD ∅ := by
  simp only [partitionFault, told_eq_none_iff, Bool.not_eq_true', Bool.not_eq_false, not_not,
    Std.ExtTreeMap.contains_iff_mem, any_contains_iff, and_true, ne_eq]

/-- Both indices are gone through in the same way. -/
theorem entryFault_eq_none_iff {β : Type} [DecidableEq β] (r : Registry) (feature : Partition → β) (x : β)
    (keys : List String) (empty : Fault) (orphan wrong : String → Fault) :
    (if keys.isEmpty then some empty
      else keys.findSome? fun key => match r.partitions[key]? with
        | none => some (orphan key)
        | some p => if feature p = x then none else some (wrong key)) = none ↔
      keys ≠ [] ∧ ∀ key ∈ keys, ∃ p, r.partitions[key]? = some p ∧ feature p = x := by
  rw [told_eq_none_iff, List.isEmpty_iff, List.findSome?_eq_none_iff]
  refine and_congr_right fun _ => forall₂_congr fun key _ => ?_
  cases r.partitions[key]? with
  | none => simp
  | some p => simp

theorem topicFault_eq_none_iff (r : Registry) (topic : String) (keys : List String) :
    r.topicFault (topic, keys) = none ↔
      keys ≠ [] ∧ ∀ key ∈ keys, ∃ p, r.partitions[key]? = some p ∧ p.topic = topic :=
  r.entryFault_eq_none_iff (·.topic) topic keys _ _ _

theorem brokerFault_eq_none_iff (r : Registry) (broker : Broker) (keys : List String) :
    r.brokerFault (broker, keys) = none ↔
      keys ≠ [] ∧ ∀ key ∈ keys, ∃ p, r.partitions[key]? = some p ∧ p.broker = broker :=
  r.entryFault_eq_none_iff (·.broker) broker keys _ _ _

/-- No entry listed is at fault if the entries of the index have keys and only such as belong there. -/
theorem forall_entries_iff {β : Type} [Ord β] [Std.TransOrd β] [Std.LawfulEqOrd β] (r : Registry)
    {listed : List (β × List String)} {index : Std.ExtTreeMap β KeySet} (lists : ListsIndex listed index)
    (feature : Partition → β) :
    (∀ seen ∈ listed, seen.2 ≠ [] ∧ ∀ key ∈ seen.2, ∃ p, r.partitions[key]? = some p ∧ feature p = seen.1) ↔
      ∀ (x : β) (keys : KeySet), index[x]? = some keys →
        keys ≠ ∅ ∧ ∀ key ∈ keys, ∃ p, r.partitions[key]? = some p ∧ feature p = x := by
  refine (lists.forall_iff (P := fun x keys =>
    keys ≠ [] ∧ ∀ key ∈ keys, ∃ p, r.partitions[key]? = some p ∧ feature p = x) ?_).trans ?_
  · intro x keys others perm
    simp only [ne_eq, ← List.isEmpty_iff, perm.isEmpty_eq, perm.mem_iff]
  · simp [Std.ExtTreeSet.mem_toList]

/-- The registry passes its check exactly if its maps fit each other. In which order the check goes through
them is no matter. -/
theorem faultIn_eq_none_iff {r : Registry} {l : Listing} (lists : l.Lists r) :
    r.faultIn l = none ↔ r.Consistent := by
  have partitions : (∀ entry ∈ l.partitions, r.partitionFault entry = none) ↔
      ∀ (key : String) (p : Partition), r.partitions[key]? = some p → p.key = key ∧ key ∈ r.subscriptions ∧
        key ∈ r.byTopic[p.topic]?.getD ∅ ∧ key ∈ r.byBroker[p.broker]?.getD ∅ := by
    simp only [lists.partitions.mem_iff, Prod.forall, Std.ExtTreeMap.mem_toList_iff_getElem?_eq_some,
      partitionFault_eq_none_iff]
  have topics : (∀ entry ∈ l.topics, r.topicFault entry = none) ↔ _ :=
    (forall₂_congr fun (entry : String × List String) _ => r.topicFault_eq_none_iff entry.1 entry.2).trans
      (r.forall_entries_iff lists.topics (·.topic))
  have brokers : (∀ entry ∈ l.brokers, r.brokerFault entry = none) ↔ _ :=
    (forall₂_congr fun (entry : Broker × List String) _ => r.brokerFault_eq_none_iff entry.1 entry.2).trans
      (r.forall_entries_iff lists.brokers (·.broker))
  have stored {key : String} : key ∈ r.partitions ↔ ∃ p, r.partitions[key]? = some p := by
    rw [Std.ExtTreeMap.mem_iff_isSome_getElem?, Option.isSome_iff_exists]
  simp only [faultIn, Option.or_eq_none_iff, told_eq_none_iff, List.findSome?_eq_none_iff, partitions, topics,
    brokers, and_true, ne_eq, not_not, and_assoc]
  constructor
  · rintro ⟨size, each, inTopics, inBrokers⟩
    refine ⟨mem_iff_mem_iff_size_eq.mpr ⟨size, fun key known => ?_⟩, fun key p found => (each key p found).1,
      entersExactly_iff.mpr ⟨fun key p found => (each key p found).2.2.1, inTopics⟩,
      entersExactly_iff.mpr ⟨fun key p found => (each key p found).2.2.2, inBrokers⟩⟩
    obtain ⟨p, found⟩ := stored.mp known
    exact (each key p found).2.1
  · intro fits
    obtain ⟨filedByTopic, inTopics⟩ := entersExactly_iff.mp fits.topics
    obtain ⟨filedByBroker, inBrokers⟩ := entersExactly_iff.mp fits.brokers
    refine ⟨(mem_iff_mem_iff_size_eq.mp fits.subscribed).1, fun key p found => ⟨fits.keyed key p found, ?_,
      filedByTopic key p found, filedByBroker key p found⟩, inTopics, inBrokers⟩
    exact (fits.subscribed key).mpr (stored.mpr ⟨p, found⟩)

end Registry

/-- The check of the line looks for checkouts of what is in line, and for what is in line again further back. -/
theorem Pool.lineFault_eq_none_iff {α : Type} (p : Pool α) (line : List String) :
    p.lineFault line = none ↔ line.Nodup ∧ ∀ key ∈ line, p.isUsed key = false := by
  induction line with
  | nil => simp [lineFault]
  | cons key rest ih =>
    rw [lineFault, told_eq_none_iff, told_eq_none_iff, ih, List.nodup_cons, List.forall_mem_cons,
      List.contains_iff_mem, Bool.not_eq_true]
    tauto

namespace Assignment

/-- The books agree: the registry's maps fit each other, the line names each key once, no key in line is checked
out, and only known keys are in line or checked out. -/
structure Consistent (a : Assignment) : Prop where
  registry : a.registry.Consistent
  once : a.pool.idle.Nodup
  idle_free : ∀ key ∈ a.pool.idle, a.pool.isUsed key = false
  idle_known : ∀ key ∈ a.pool.idle, a.registry.contains key
  used_known : ∀ key, a.pool.isUsed key → a.registry.contains key

theorem faultIn_eq_none_iff {a : Assignment} {l : Registry.Listing} {used : List String}
    (lists : l.Lists a.registry) (perm : used.Perm a.pool.used.keys) :
    a.faultIn l used = none ↔ a.Consistent := by
  have known (fault : String → Fault) (keys : List String) :
      (keys.findSome? fun key => if a.registry.contains key then none else some (fault key)) = none ↔
        ∀ key ∈ keys, a.registry.contains key := by
    rw [List.findSome?_eq_none_iff]
    refine forall₂_congr fun key _ => ?_
    by_cases known : a.registry.contains key <;> simp [known]
  simp only [faultIn, Option.or_eq_none_iff, Registry.faultIn_eq_none_iff lists, Pool.fault?,
    Pool.lineFault_eq_none_iff, known, perm.mem_iff, Std.ExtTreeMap.mem_keys, and_assoc]
  constructor
  · rintro ⟨registry, once, free, idle, used⟩
    exact ⟨registry, once, free, idle, used⟩
  · rintro ⟨registry, once, free, idle, used⟩
    exact ⟨registry, once, free, idle, used⟩

/-- The check of the books is exact, whatever state they are in: it passes if and only if they agree. Of several
contradictions it depends on the order in which the check comes upon them which one is told, but not whether
one is. -/
theorem check_passes_iff_books_agree (a : Assignment) : (a.fault? = none ↔ a.Consistent) ∧
    ∀ (l : Registry.Listing) (used : List String), l.Lists a.registry → used.Perm a.pool.used.keys →
      (a.faultIn l used = none ↔ a.Consistent) :=
  ⟨faultIn_eq_none_iff a.registry.lists_listing (.refl _), fun _ _ lists perm => faultIn_eq_none_iff lists perm⟩

end Assignment

end PartitionLease

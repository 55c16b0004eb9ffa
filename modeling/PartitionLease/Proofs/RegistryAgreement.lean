import PartitionLease.Consistency

namespace PartitionLease

namespace KeySet

theorem exists_mem {keys : KeySet} (occupied : keys ≠ ∅) : ∃ key, key ∈ keys := by
  have listed : keys.toList ≠ [] := by
    rw [← List.isEmpty_eq_false_iff, Std.ExtTreeSet.isEmpty_toList]
    exact Std.ExtTreeSet.isEmpty_eq_false_iff.mpr occupied
  obtain ⟨key, rest⟩ := List.exists_mem_of_ne_nil _ listed
  exact ⟨key, Std.ExtTreeSet.mem_toList.mp rest⟩

theorem getD_adding (keys : Option KeySet) (key : String) :
    (adding keys key).getD ∅ = (keys.getD ∅).insert key := rfl

theorem getD_removing (keys : Option KeySet) (key : String) :
    (removing keys key).getD ∅ = (keys.getD ∅).erase key := by
  cases keys with
  | none => simp [removing]
  | some present =>
    simp only [removing, Option.bind_some, Option.getD_some]
    split
    · rename_i empty
      exact (Std.ExtTreeSet.isEmpty_iff.mp empty).symm
    · rfl

theorem adding_ne_empty {keys : Option KeySet} {key : String} {after : KeySet}
    (result : adding keys key = some after) : after ≠ ∅ := by
  obtain rfl := Option.some.inj result
  intro empty
  have member : key ∈ (keys.getD ∅).insert key := Std.ExtTreeSet.mem_insert_self
  rw [empty] at member
  exact Std.ExtTreeSet.not_mem_empty member

theorem removing_ne_empty {keys : Option KeySet} {key : String} {after : KeySet}
    (result : removing keys key = some after) : after ≠ ∅ := by
  obtain ⟨present, -, left⟩ := Option.bind_eq_some_iff.mp result
  dsimp only at left
  split at left
  · cases left
  · rename_i occupied
    obtain rfl := Option.some.inj left
    exact fun empty => occupied (Std.ExtTreeSet.isEmpty_iff.mpr empty)

end KeySet

/-- An index of the known partitions by something that each of them has: a key is filed under what its
own partition has and nowhere else, and every entry has keys. -/
structure Indexes {β : Type} [Ord β] [Std.TransOrd β] [Std.LawfulEqOrd β]
    (index : Std.ExtTreeMap β KeySet) (feature : Partition → β)
    (partitions : Std.ExtTreeMap String Partition) : Prop where
  filed : ∀ (x : β) (key : String),
    key ∈ index[x]?.getD ∅ ↔ ∃ p, partitions[key]? = some p ∧ feature p = x
  occupied : ∀ (x : β) (keys : KeySet), index[x]? = some keys → keys ≠ ∅

namespace Indexes

variable {β : Type} [Ord β] [Std.TransOrd β] [Std.LawfulEqOrd β]
variable {index : Std.ExtTreeMap β KeySet} {feature : Partition → β}
variable {partitions : Std.ExtTreeMap String Partition}

theorem empty (feature : Partition → β) : Indexes ∅ feature ∅ where
  filed := by simp
  occupied := by simp

theorem insert (agrees : Indexes index feature partitions) {key : String} (p : Partition)
    (fresh : partitions[key]? = none) :
    Indexes (index.alter (feature p) (KeySet.adding · key)) feature (partitions.insert key p) where
  filed := by
    intro x k
    have old := agrees.filed x k
    simp only [Std.ExtTreeMap.getElem?_alter, Std.ExtTreeMap.getElem?_insert,
      Std.LawfulEqCmp.compare_eq_iff_eq]
    by_cases same : feature p = x
    · subst same
      simp only [if_true, KeySet.getD_adding, Std.ExtTreeSet.mem_insert,
        Std.LawfulEqCmp.compare_eq_iff_eq]
      by_cases new : key = k
      · simp [new]
      · simp [new, old]
    · by_cases new : key = k
      · subst new
        simp [same, old, fresh]
      · simp [same, new, old]
  occupied := by
    intro x keys entry
    rw [Std.ExtTreeMap.getElem?_alter] at entry
    split at entry
    · exact KeySet.adding_ne_empty entry
    · exact agrees.occupied x keys entry

theorem erase (agrees : Indexes index feature partitions) {key : String} {p : Partition}
    (known : partitions[key]? = some p) :
    Indexes (index.alter (feature p) (KeySet.removing · key)) feature (partitions.erase key) where
  filed := by
    intro x k
    have old := agrees.filed x k
    simp only [Std.ExtTreeMap.getElem?_alter, Std.ExtTreeMap.getElem?_erase,
      Std.LawfulEqCmp.compare_eq_iff_eq]
    by_cases same : feature p = x
    · subst same
      simp only [if_true, KeySet.getD_removing, Std.ExtTreeSet.mem_erase, ne_eq,
        Std.LawfulEqCmp.compare_eq_iff_eq]
      by_cases gone : key = k
      · simp [gone]
      · simp [gone, old]
    · by_cases gone : key = k
      · subst gone
        simp [same, old, known]
      · simp [same, gone, old]
  occupied := by
    intro x keys entry
    rw [Std.ExtTreeMap.getElem?_alter] at entry
    split at entry
    · exact KeySet.removing_ne_empty entry
    · exact agrees.occupied x keys entry

/-- There is an entry for whatever some partition has, and for nothing else. -/
theorem mem_keys_iff (agrees : Indexes index feature partitions) (x : β) :
    x ∈ index.keys ↔ ∃ (key : String) (p : Partition), partitions[key]? = some p ∧ feature p = x := by
  rw [Std.ExtTreeMap.mem_keys, Std.ExtTreeMap.mem_iff_isSome_getElem?, Option.isSome_iff_exists]
  constructor
  · rintro ⟨keys, entry⟩
    obtain ⟨key, member⟩ := KeySet.exists_mem (agrees.occupied x keys entry)
    refine ⟨key, (agrees.filed x key).mp ?_⟩
    rwa [entry]
  · rintro ⟨key, filed⟩
    have member := (agrees.filed x key).mpr filed
    cases entry : index[x]? with
    | some keys => exact ⟨keys, rfl⟩
    | none =>
      rw [entry] at member
      exact absurd member Std.ExtTreeSet.not_mem_empty

end Indexes

namespace Registry

theorem contains_eq_isSome_find? (r : Registry) (key : String) :
    r.contains key = (r.find? key).isSome :=
  Std.ExtTreeMap.contains_eq_isSome_getElem?

/-- The four maps tell one story: partitions are stored under their own keys, exactly these keys have
subscriptions, each to the very partition stored, and both indices are right. -/
structure Sound (r : Registry) : Prop where
  keyed : ∀ (key : String) (p : Partition), r.partitions[key]? = some p → p.key = key
  subscribed : ∀ key : String, r.subscriptions[key]?.map (·.partition) = r.partitions[key]?
  topics : Indexes r.byTopic (·.topic) r.partitions
  brokers : Indexes r.byBroker (·.broker) r.partitions

theorem sound_empty : Sound {} where
  keyed := by simp
  subscribed := by simp
  topics := Indexes.empty _
  brokers := Indexes.empty _

theorem Sound.insert {r : Registry} (sound : r.Sound) (s : Subscription) : (r.insert s).1.Sound := by
  unfold Registry.insert
  split
  · exact sound
  · rename_i unknown
    have fresh : r.partitions[s.key]? = none := by
      rw [contains_eq_isSome_find?] at unknown
      exact Option.not_isSome_iff_eq_none.mp unknown
    refine ⟨?_, ?_, sound.topics.insert s.partition fresh, sound.brokers.insert s.partition fresh⟩
    · intro key p stored
      simp only [Std.ExtTreeMap.getElem?_insert, Std.LawfulEqCmp.compare_eq_iff_eq] at stored
      split at stored
      · rename_i own
        obtain rfl := Option.some.inj stored
        exact own
      · exact sound.keyed key p stored
    · intro key
      simp only [Std.ExtTreeMap.getElem?_insert]
      split
      · rfl
      · exact sound.subscribed key

theorem Sound.remove {r : Registry} (sound : r.Sound) (key : String) : (r.remove key).1.Sound := by
  unfold Registry.remove
  split
  · exact sound
  · rename_i p known
    refine ⟨?_, ?_, sound.topics.erase known, sound.brokers.erase known⟩
    · intro k q stored
      simp only [Std.ExtTreeMap.getElem?_erase] at stored
      split at stored
      · cases stored
      · exact sound.keyed k q stored
    · intro k
      simp only [Std.ExtTreeMap.getElem?_erase]
      split
      · rfl
      · exact sound.subscribed k

end Registry

end PartitionLease

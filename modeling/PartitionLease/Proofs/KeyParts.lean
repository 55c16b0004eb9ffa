import Std.Data.String.ToInt
import PartitionLease.Partition

namespace PartitionLease

/-- A part without separator ends at the first separator, whatever comes behind it. -/
theorem append_cons_inj_of_not_mem {α : Type} {separator : α} {part other rest others : List α}
    (clear : separator ∉ part) (clearToo : separator ∉ other) :
    part ++ separator :: rest = other ++ separator :: others ↔ part = other ∧ rest = others := by
  refine ⟨fun same => ?_, fun ⟨head, tail⟩ => head ▸ tail ▸ rfl⟩
  induction part generalizing other with
  | nil =>
    cases other with
    | nil => exact ⟨rfl, (List.cons.inj same).2⟩
    | cons x _ => exact absurd ((List.cons.inj same).1 ▸ List.mem_cons_self) clearToo
  | cons x part ih =>
    cases other with
    | nil => exact absurd ((List.cons.inj same).1 ▸ List.mem_cons_self) clear
    | cons y other =>
      obtain ⟨rfl, left⟩ := List.cons.inj same
      obtain ⟨rfl, tail⟩ := ih (fun member => clear (List.mem_cons_of_mem x member))
        (fun member => clearToo (List.mem_cons_of_mem x member)) left
      exact ⟨rfl, tail⟩

/-- A part without separator begins behind the last separator, whatever comes before it. -/
theorem append_cons_inj_of_not_mem_right {α : Type} {separator : α} {part other rest others : List α}
    (clear : separator ∉ part) (clearToo : separator ∉ other) :
    rest ++ separator :: part = others ++ separator :: other ↔ rest = others ∧ part = other := by
  have turned : part.reverse ++ separator :: rest.reverse = other.reverse ++ separator :: others.reverse ↔
      part.reverse = other.reverse ∧ rest.reverse = others.reverse :=
    append_cons_inj_of_not_mem (mt List.mem_reverse.mp clear) (mt List.mem_reverse.mp clearToo)
  rw [← List.reverse_inj]
  simpa [and_comm] using turned

theorem not_mem_toList_repr {separator : Char} (other : separator.isDigit = false) (n : Nat) :
    separator ∉ n.repr.toList := by
  intro member
  rw [Nat.toList_repr] at member
  rw [Nat.isDigit_of_mem_toDigits (by decide) (by decide) member] at other
  cases other

theorem separator_not_mem_broker (broker : BrokerId) : ':' ∉ broker.text.toList :=
  not_mem_toList_repr rfl _

theorem separator_not_mem_id (id : Int32) : ':' ∉ id.toInt.repr.toList := by
  have clear (n : Nat) : ':' ∉ n.repr.toList := not_mem_toList_repr rfl n
  rw [Int.repr_eq_if]
  split
  · exact clear _
  · simpa using clear _

theorem BrokerId.text_inj {broker other : BrokerId} : broker.text = other.text ↔ broker = other := by
  obtain ⟨number⟩ := broker
  obtain ⟨numberToo⟩ := other
  rw [BrokerId.text, BrokerId.text, Nat.repr_inj, UInt32.toNat_inj, BrokerId.mk.injEq]

theorem toList_partitionKey (broker : BrokerId) (topic : String) (id : Int32) :
    (partitionKey broker topic id).toList =
      broker.text.toList ++ ':' :: (topic.toList ++ ':' :: id.toInt.repr.toList) := by
  simp [partitionKey, keySeparator]

/-- A key is made of the broker number up to its first separator, the partition number from its last separator on,
and the topic between, though the topic is written as it is. So partitions that share a key are on brokers of one
number and have the same topic and number. -/
theorem keys_tell_partitions_apart :
    (∀ (broker other : BrokerId) (topic topicToo : String) (id idToo : Int32),
      partitionKey broker topic id = partitionKey other topicToo idToo ↔
        broker = other ∧ topic = topicToo ∧ id = idToo) ∧
    ∀ p q : Partition, p.key = q.key ↔ p.broker.id = q.broker.id ∧ p.topic = q.topic ∧ p.id = q.id := by
  have inj (broker other : BrokerId) (topic topicToo : String) (id idToo : Int32) :
      partitionKey broker topic id = partitionKey other topicToo idToo ↔
        broker = other ∧ topic = topicToo ∧ id = idToo := by
    rw [← String.toList_inj, toList_partitionKey, toList_partitionKey,
      append_cons_inj_of_not_mem (separator_not_mem_broker broker) (separator_not_mem_broker other),
      append_cons_inj_of_not_mem_right (separator_not_mem_id id) (separator_not_mem_id idToo),
      String.toList_inj, BrokerId.text_inj, String.toList_inj, String.toList_inj, Int.repr_inj, Int32.toInt_inj]
  exact ⟨inj, fun p q => inj p.broker.id q.broker.id p.topic q.topic p.id q.id⟩

example : partitionKey ⟨1⟩ "2:-3" (-4) = "1:2:-3:-4" := by decide

end PartitionLease

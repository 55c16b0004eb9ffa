import Std.Data.ExtTreeMap

namespace PartitionLease

/-- The number under which a cluster's master knows one of its brokers. -/
structure BrokerId where
  value : UInt32
deriving DecidableEq, Ord

def BrokerId.text (id : BrokerId) : String := id.value.toNat.repr

instance : Inhabited BrokerId := ⟨⟨0⟩⟩

/-- Where a broker is reached. Endpoints are plain data and equal when all their parts are. -/
structure Endpoint where
  id : BrokerId
  host : String
  tcpPort : UInt16
deriving DecidableEq

def Endpoint.address (e : Endpoint) : String := e.host ++ ":" ++ e.tcpPort.toNat.repr

/-- A broker as it was announced once. Announcing the same endpoint a second time makes a second
broker: `serial` numbers the announcements, so equality of brokers is identity, and a copy of a
broker is that broker. -/
structure Broker where
  serial : Nat
  endpoint : Endpoint
deriving DecidableEq

def Broker.id (b : Broker) : BrokerId := b.endpoint.id

def Broker.text (b : Broker) : String := b.id.text ++ "@" ++ b.endpoint.address

/-- Brokers are listed in the order of their announcement. The rest of the order only makes it agree
with equality. -/
instance : Ord Broker where
  compare := compareLex (compareOn Broker.serial) <| compareLex (compareOn (·.endpoint.id.value)) <|
    compareLex (compareOn (·.endpoint.host)) (compareOn (·.endpoint.tcpPort))

theorem Broker.compare_def (a b : Broker) : compare a b =
    ((compare a.serial b.serial).then <| (compare a.endpoint.id.value b.endpoint.id.value).then <|
      (compare a.endpoint.host b.endpoint.host).then (compare a.endpoint.tcpPort b.endpoint.tcpPort)) := rfl

instance : Std.TransOrd Broker :=
  inferInstanceAs (Std.TransCmp (compareLex (compareOn Broker.serial) _))

instance : Std.LawfulEqOrd Broker where
  eq_of_compare {a b} same := by
    simp only [Broker.compare_def, Ordering.then_eq_eq, Std.LawfulEqOrd.compare_eq_iff_eq] at same
    obtain ⟨serial, id, host, tcpPort⟩ := same
    rcases a with ⟨_, ⟨⟨_⟩, _, _⟩⟩
    rcases b with ⟨_, ⟨⟨_⟩, _, _⟩⟩
    simp_all

end PartitionLease

import PartitionLease.Proofs.EventConservation
import PartitionLease.Proofs.EventRelabelling

namespace PartitionLease

namespace EventQueue

section Relabelling

variable {α β : Type} (f : α → β)

end Relabelling

end EventQueue

end PartitionLease

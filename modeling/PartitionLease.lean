import PartitionLease.EventQueue.Stream
import PartitionLease.Logging
import PartitionLease.Sweeper
import PartitionLease.Proofs.EventWhereabouts
import PartitionLease.Proofs.HandOutExclusion
import PartitionLease.Proofs.StaleAlarms
import PartitionLease.Proofs.EventOrder
import PartitionLease.Proofs.OfferOrder
import PartitionLease.Proofs.FailedCalls
import PartitionLease.Proofs.LateReturns
import PartitionLease.Proofs.Parking
import PartitionLease.Proofs.LineOrder
import PartitionLease.Proofs.CheckoutDeadlines
import PartitionLease.Proofs.BackPressure
import PartitionLease.Proofs.RegistryContents
import PartitionLease.Proofs.MarkHistory
import PartitionLease.Proofs.KeyIsolation
import PartitionLease.Proofs.SweepByAlarms
import PartitionLease.Proofs.BulkRemoval
import PartitionLease.Proofs.ClosingGaps
import PartitionLease.Proofs.KeyParts
import PartitionLease.Proofs.RoundRobin
import PartitionLease.Proofs.ConfigReading
import PartitionLease.Proofs.StandAlonePool
import PartitionLease.Proofs.AlarmOwnership
import PartitionLease.Proofs.RepeatedReclaims
import PartitionLease.Proofs.LedgerBooking
import PartitionLease.Proofs.SharedClocks

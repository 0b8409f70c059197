import CpreLabs.CStrings
import CpreLabs.ExpiringMap
import CpreLabs.HashTableOperations
import CpreLabs.HashTableContents
import CpreLabs.HashTableRefinement
import CpreLabs.HashTableStatistics
import CpreLabs.SweepTiming
import CpreLabs.PthreadMonitor
import CpreLabs.RingBuffer
import CpreLabs.WorkQueue
import CpreLabs.ServerThreads
import CpreLabs.QueueWakeups
import CpreLabs.ShutdownDrain
import CpreLabs.RwlockGrantOrder
import CpreLabs.HashTableThreads
import CpreLabs.HashTableThreadsCorrect
import CpreLabs.HashTableSerializability
import CpreLabs.FormattedScanning
import CpreLabs.HandleClient
import CpreLabs.CommandParsing
import CpreLabs.ClientSessions
import CpreLabs.WireIntegrity
import CpreLabs.RequestFraming
import CpreLabs.RequestRoundTrip
import CpreLabs.LogQueue
import CpreLabs.ReadersWriters
import CpreLabs.WriterPriority
import CpreLabs.ShutdownSignal
import CpreLabs.StartGate
import CpreLabs.CircularQueue
import CpreLabs.DemandPaging
import CpreLabs.OptimalReplacement
import CpreLabs.RwlockExclusion
import CpreLabs.SchedulerContract
import CpreLabs.SchedulersSound
import CpreLabs.ShortestRemaining
import CpreLabs.StatsSnapshot
import CpreLabs.BucketCount
import CpreLabs.Competitiveness
import CpreLabs.ExpirySweep
import CpreLabs.FaultFloor
import CpreLabs.WorkConservation
import CpreLabs.CommandRecognition
import CpreLabs.ReferenceInput
import CpreLabs.BenchAgreement
import CpreLabs.BoundedWaiting
import CpreLabs.FirstComeFirstServed
import CpreLabs.LeftoverTurn
import CpreLabs.PriorityRotation
import CpreLabs.QueueRefinement
import CpreLabs.RunIndependence
import CpreLabs.ChainOwnership
import CpreLabs.ConcurrentSessions
import CpreLabs.ConcurrentSessionsInvariant
import CpreLabs.ConcurrentSessionsSteps
import CpreLabs.NodeAccounting
import CpreLabs.ServerCleanup
import CpreLabs.SessionLinearizability
import CpreLabs.CounterRace
import CpreLabs.CounterRaceOutcomes
import CpreLabs.WithdrawalOutcomes
import CpreLabs.PthreadCompletion
import CpreLabs.TaskCompletion
import CpreLabs.LevelIsolation
import CpreLabs.FrameCounts
import CpreLabs.ReferenceLoops
import CpreLabs.DescriptorAccounts
import CpreLabs.DescriptorSafety
import CpreLabs.QueueCalls
import CpreLabs.SimulationRanges

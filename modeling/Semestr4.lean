import Semestr4.ScheduledRun
import Semestr4.CircularBuffer
import Semestr4.FifoChannel
import Semestr4.ByteText
import Semestr4.ConditionMonitor
import Semestr4.BufferMachine
import Semestr4.BufferInvariant
import Semestr4.BufferProgress
import Semestr4.BarberMachine
import Semestr4.BarberQueue
import Semestr4.BarberVisit
import Semestr4.BarberChair
import Semestr4.BarberSemaphore
import Semestr4.ErlangTerm
import Semestr4.PollutionMonitor
import Semestr4.PollutionInvariant
import Semestr4.PollutionOutcome
import Semestr4.PollutionServer
import Semestr4.PollutionClients
import Semestr4.PollutionRefinement
import Semestr4.LogicEvaluator
import Semestr4.PostfixMachine
import Semestr4.LogicGrammar
import Semestr4.LogicCheck
import Semestr4.LogicPostfix
import Semestr4.LogicValue
import Semestr4.LogicVerdict
import Semestr4.ImageFilter
import Semestr4.ImageColumns
import Semestr4.DecimalText
import Semestr4.LineBuffer
import Semestr4.PgmFile
import Semestr4.PgmRows
import Semestr4.PgmRoundTrip
import Semestr4.ClusterRegistry
import Semestr4.ClusterClient
import Semestr4.ClusterStream
import Semestr4.CpuClock
import Semestr4.PollutionAddress
import Semestr4.DescriptorTable
import Semestr4.PipelineDescriptors
import Semestr4.PendingSlot
import Semestr4.PermissionSignals
import Semestr4.SignalHandshake
import Semestr4.QueueServer
import Semestr4.ClusterAcceptor
import Semestr4.ClusterSlots
import Semestr4.GatedSection
import Semestr4.BufferGates
import Semestr4.GateProgress
import Semestr4.GateObservation
import Semestr4.FileSortOrder
import Semestr4.FileSortGrowth
import Semestr4.FileCopyContent
import Semestr4.FileCopyErrors
import Semestr4.BlockStorage
import Semestr4.BlockSearch
import Semestr4.ListingOrder
import Semestr4.ListingModes
import Semestr4.LoggerDelivery
import Semestr4.OnpExpression
import Semestr4.BlockAccess
import Semestr4.PollutionMinimum
import Semestr4.PollutionMissing
import Semestr4.PollutionMean
import Semestr4.CalcRequest
import Semestr4.MirrorRequest
import Semestr4.ReplyRouting
import Semestr4.FrameMirror
import Semestr4.QueueClient
import Semestr4.ClusterCalculation
import Semestr4.NodeNumbers
import Semestr4.LineSearch
import Semestr4.ImageBounds
import Semestr4.FilterRoundTrip
import Semestr4.FilterRange
import Semestr4.PermissionHandler
import Semestr4.OptionFlags
import Semestr4.BatchInterpreter
import Semestr4.PipelineParsing
import Semestr4.DivisorSums
import Semestr4.ErlangQuicksort
import Semestr4.LogicValuations
import Semestr4.DebugTrigger
import Semestr4.DebugTiming
import Semestr4.ButtonClock
import Semestr4.CpuPrograms
import Semestr4.GateRefinement
import Semestr4.FilterProgram
import Semestr4.PollutionOrder
import Semestr4.DatagramCluster
import Semestr4.DatagramResults
import Semestr4.FrameOutcomes
import Semestr4.NodeOrder

import SistemasOperativos.TransitionRuns
import SistemasOperativos.TokenPlaces
import SistemasOperativos.Census
import SistemasOperativos.FifoSemaphore
import SistemasOperativos.BoundedFifo
import SistemasOperativos.ConditionMonitor
import SistemasOperativos.Connections
import SistemasOperativos.DenseArray
import SistemasOperativos.MachineInt
import SistemasOperativos.ByteMemory
import SistemasOperativos.ByteRing
import SistemasOperativos.StackMachine
import SistemasOperativos.UThread
import SistemasOperativos.UThreadConservation
import SistemasOperativos.UThreadSemaphore
import SistemasOperativos.UThreadOwnership
import SistemasOperativos.UThreadEvent
import SistemasOperativos.ThreadResults
import SistemasOperativos.ThreadResultsDelivery
import SistemasOperativos.UThreadQueue
import SistemasOperativos.ContextSwitch
import SistemasOperativos.ThreadPool
import SistemasOperativos.ThreadPoolSteps
import SistemasOperativos.ThreadPoolClosing
import SistemasOperativos.ThreadPoolExecution
import SistemasOperativos.ThreadPoolWakeups
import SistemasOperativos.ThreadPoolShutdown
import SistemasOperativos.ThreadPoolTeardown
import SistemasOperativos.ThreadPoolDestroyers
import SistemasOperativos.MutexChannel
import SistemasOperativos.MutexChannelRefinement
import SistemasOperativos.MutexChannelWakeups
import SistemasOperativos.SemaphoreChannel
import SistemasOperativos.SemaphoreChannelTickets
import SistemasOperativos.ChannelNames
import SistemasOperativos.EchoChannels
import SistemasOperativos.EchoChannelsAgreement
import SistemasOperativos.SelectServer
import SistemasOperativos.SelectServerRegistry
import SistemasOperativos.PollServer
import SistemasOperativos.PollServerReports
import SistemasOperativos.EpollServer
import SistemasOperativos.EpollServerBookkeeping
import SistemasOperativos.EventLoop
import SistemasOperativos.EventLoopHandles
import SistemasOperativos.EchoCallbacks
import SistemasOperativos.EchoServers
import SistemasOperativos.BufferedWrites
import SistemasOperativos.LibuvServer
import SistemasOperativos.LibuvServerReplies
import SistemasOperativos.LibuvServerShutdown
import SistemasOperativos.ParAdder
import SistemasOperativos.ParAdderSum
import SistemasOperativos.ParAdderAgreement
import SistemasOperativos.CountdownLatch
import SistemasOperativos.LatchedAdder
import SistemasOperativos.LatchedAdderSafety
import SistemasOperativos.PreallocatedPool
import SistemasOperativos.PreallocatedPoolItems
import SistemasOperativos.FlagThreadPool
import SistemasOperativos.FlagThreadPoolSteps
import SistemasOperativos.FlagThreadPoolShutdown
import SistemasOperativos.RemovingScan
import SistemasOperativos.SelectServerRounds
import SistemasOperativos.PollServerRounds
import SistemasOperativos.ServerRounds
import SistemasOperativos.EventBuffers
import SistemasOperativos.EchoCallbacksSockets
import SistemasOperativos.Pgrep
import SistemasOperativos.PgrepSteps
import SistemasOperativos.PgrepStreams
import SistemasOperativos.PgrepThreads
import SistemasOperativos.PgrepProgress
import SistemasOperativos.PgrepRun
import SistemasOperativos.PgrepResult
import SistemasOperativos.CircularChain
import SistemasOperativos.IntrusiveList
import SistemasOperativos.GreedyService
import SistemasOperativos.UThreadPosts
import SistemasOperativos.ThreadStates
import SistemasOperativos.ChannelSlots
import SistemasOperativos.IntAdder
import SistemasOperativos.StackAlignment
import SistemasOperativos.EchoStatements
import SistemasOperativos.EchoStatementsRefinement
import SistemasOperativos.EchoTeardown
import SistemasOperativos.LinkedUThread
import SistemasOperativos.LinkedUThreadRefinement
import SistemasOperativos.RecordPipes
import SistemasOperativos.FifoEcho
import SistemasOperativos.FifoEchoRecords
import SistemasOperativos.FifoEchoProgress
import SistemasOperativos.OwnedConnections
import SistemasOperativos.PoolEcho
import SistemasOperativos.PoolEchoThreads
import SistemasOperativos.PoolEchoOwnership
import SistemasOperativos.MutexChannelProgress
import SistemasOperativos.EchoChannelsProgress
import SistemasOperativos.EchoStatementsProgress
import SistemasOperativos.EchoStatementsCompletion
import SistemasOperativos.CountingGate
import SistemasOperativos.FastLatch
import SistemasOperativos.FastLatchAgreement
import SistemasOperativos.FastLatchProgress
import SistemasOperativos.ExclusiveLock
import SistemasOperativos.Races
import SistemasOperativos.RacesProgress
import SistemasOperativos.LinkedQueue
import SistemasOperativos.LinkedQueueSafety

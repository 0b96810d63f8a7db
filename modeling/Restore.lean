import Restore.Shared.Counter
import Restore.Shared.Window
import Restore.Shared.Fifo
import Restore.Shared.Schedules
import Restore.Model.BuffRing
import Restore.Model.RingMachine
import Restore.Model.RingBuff
import Restore.Model.RingBuffMachine
import Restore.Verification.BuffRing.Equations
import Restore.Verification.BuffRing.Sequential
import Restore.Verification.BuffRing.Correctness
import Restore.Verification.BuffRing.Reservations
import Restore.Shared.Batches
import Restore.Verification.BuffRing.Calls
import Restore.Verification.BuffRing.Exclusion
import Restore.Verification.BuffRing.Linearization
import Restore.Verification.BuffRing.Alone
import Restore.Verification.BuffRing.Progress
import Restore.Verification.BuffRing.Occupancy
import Restore.Model.BufferRingC
import Restore.Verification.BufferRingC.Refinement
import Restore.Model.RwLock
import Restore.Verification.RwLock.Exclusion
import Restore.Verification.RingBuff.Equations
import Restore.Verification.RingBuff.Sequential
import Restore.Verification.RingBuff.Refinement
import Restore.Verification.RingBuff.Interleaving
import Restore.Shared.Fetch
import Restore.Shared.WorkSharing
import Restore.Shared.Cycles
import Restore.Model.Pcap
import Restore.Model.LoggerTest
import Restore.Verification.Pcap.Equations
import Restore.Verification.Pcap.Bounds
import Restore.Verification.Pcap.Captures
import Restore.Verification.Pcap.Emission
import Restore.Verification.Pcap.Decode
import Restore.Verification.Pcap.Isolation
import Restore.Verification.LoggerTest.Partition
import Restore.Model.Gzip
import Restore.Verification.Gzip.Equations
import Restore.Verification.Gzip.Cycles
import Restore.Verification.Gzip.Record
import Restore.Model.Logger
import Restore.Model.LoggerMachine
import Restore.Model.LoggerThreads
import Restore.Model.VectorLogger
import Restore.Verification.Logger.Equations
import Restore.Verification.Logger.Rotation
import Restore.Verification.Logger.Paths
import Restore.Verification.Logger.Conservation
import Restore.Verification.Logger.Accounts
import Restore.Verification.Logger.Delivery
import Restore.Verification.Logger.Record
import Restore.Verification.Logger.Room
import Restore.Verification.Logger.Timeout
import Restore.Verification.LoggerTest.Loggers
import Restore.Shared.Bytes
import Restore.Shared.StdString
import Restore.Shared.Stdio
import Restore.Model.CmdLine
import Restore.Verification.CmdLine.Equations
import Restore.Verification.CmdLine.Bounds
import Restore.Verification.CmdLine.Matches
import Restore.Verification.CmdLine.Erasing
import Restore.Shared.Terminal
import Restore.Verification.CmdLine.Completion
import Restore.Verification.CmdLine.Legible
import Restore.Verification.CmdLine.Screen
import Restore.Verification.CmdLine.Browsing
import Restore.Verification.CmdLine.History
import Restore.Verification.CmdLine.Enter
import Restore.Verification.CmdLine.FailedReads
import Restore.Shared.Delimited
import Restore.Verification.Logger.LogText
import Restore.Verification.Logger.Sizes
import Restore.Model.Util
import Restore.Verification.Util.KeyValue
import Restore.Model.Rte
import Restore.Verification.Config.Lines
import Restore.Shared.Files
import Restore.Model.GzipFile
import Restore.Verification.Gzip.Dump
import Restore.Model.FileReader
import Restore.Verification.FileReader.Contents
import Restore.Model.ClockTime
import Restore.Verification.ClockTime.Durations
import Restore.Verification.BufferRingC.Copies
import Restore.Shared.Rounds
import Restore.Verification.RingBuff.Sizes
import Restore.Shared.Retry
import Restore.Verification.BuffRing.Retries
import Restore.Verification.RwLock.Progress
import Restore.Model.BufferRingCMachine
import Restore.Verification.BufferRingC.Interleaving
import Restore.Verification.BufferRingC.Mixed
import Restore.Model.LoggerTestMachine
import Restore.Verification.Logger.Order
import Restore.Verification.LoggerTest.Rounds
import Restore.Verification.LoggerTest.Flows
import Restore.Shared.Linearization
import Restore.Model.VectorLoggerMachine
import Restore.Verification.VectorLogger.Linearization
import Restore.Verification.VectorLogger.Conservation
import Restore.Verification.Logger.Streams
import Restore.Shared.LineEditor
import Restore.Model.CmdLineProcess
import Restore.Verification.CmdLine.Zipper
import Restore.Verification.LoggerTest.Commands
import Restore.Model.GzipTest
import Restore.Verification.Gzip.FileTest
import Restore.Model.PcapFile
import Restore.Verification.Pcap.ShortReads
import Restore.Model.LoggerTestFiles
import Restore.Verification.LoggerTest.Files

import Libzorpll.LineBuffer
import Libzorpll.LineCalls
import Libzorpll.LineFraming
import Libzorpll.LineTruncate
import Libzorpll.LinePolicy
import Libzorpll.LineSplit
import Libzorpll.LineSafety
import Libzorpll.Links
import Libzorpll.StreamStack
import Libzorpll.Umbrella
import Libzorpll.BufferQueue
import Libzorpll.BufferShutdown
import Libzorpll.Pushback
import Libzorpll.Code
import Libzorpll.Base64
import Libzorpll.CodeBase64
import Libzorpll.Base64Decode
import Libzorpll.Base64Lines
import Libzorpll.Base64RoundTrip
import Libzorpll.Base64Results
import Libzorpll.StreamChunk
import Libzorpll.StreamGzip
import Libzorpll.GzipString
import Libzorpll.GzipHeader
import Libzorpll.GzipWrite
import Libzorpll.GzipFinish
import Libzorpll.GzipRead
import Libzorpll.ZeroArray
import Libzorpll.BlobContents
import Libzorpll.Trace
import Libzorpll.BlobSystem
import Libzorpll.BlobRun
import Libzorpll.BlobLedger
import Libzorpll.BlobState
import Libzorpll.Tally
import Libzorpll.BlobAccount
import Libzorpll.BlobQuota
import Libzorpll.BlobWait
import Libzorpll.ContextIdentity
import Libzorpll.Custody
import Libzorpll.Debts
import Libzorpll.StackLife
import Libzorpll.UserData
import Libzorpll.NotifiedOnce
import Libzorpll.FlushError
import Libzorpll.StreamTee
import Libzorpll.Headcount
import Libzorpll.ThreadPool
import Libzorpll.CString
import Libzorpll.UrlParse
import Libzorpll.UrlReturns
import Libzorpll.UrlBuild
import Libzorpll.UrlDecode
import Libzorpll.UrlPort
import Libzorpll.Rounds
import Libzorpll.CharSet
import Libzorpll.CharSetRounds
import Libzorpll.CharSetReturns
import Libzorpll.CharSetItems
import Libzorpll.StrEscape
import Libzorpll.PortRange
import Libzorpll.InetRange
import Libzorpll.Signed
import Libzorpll.TextDump
import Libzorpll.PacketBuf
import Libzorpll.PacketItems
import Libzorpll.PacketRun
import Libzorpll.RecMutex
import Libzorpll.Connector
import Libzorpll.ConnectorCancel
import Libzorpll.Base64Noise
import Libzorpll.Base64LineLength
import Libzorpll.Base64Bounds
import Libzorpll.CodeGrow
import Libzorpll.CodeGzip
import Libzorpll.CodeGzipReturns
import Libzorpll.ZlibStored
import Libzorpll.ZlibContract
import Libzorpll.CodeGzipLossless
import Libzorpll.BlobTransfer
import Libzorpll.Registry
import Libzorpll.RegistryMap
import Libzorpll.Supervise
import Libzorpll.RestartWindow
import Libzorpll.SslVerify
import Libzorpll.Memo
import Libzorpll.LogSpec
import Libzorpll.Listener
import Libzorpll.ListenerCalls
import Libzorpll.ListenerHeld
import Libzorpll.LogCache
import Libzorpll.LogDecision
import Libzorpll.LogFresh
import Libzorpll.LogRace
import Libzorpll.LogSpecParse
import Libzorpll.GlobMatch
import Libzorpll.PushbackOrder
import Libzorpll.PacketArrays
import Libzorpll.BlobTruncate
import Libzorpll.BlobStream
import Libzorpll.BlobSwapIn
import Libzorpll.Versions
import Libzorpll.WatchDispatch
import Libzorpll.CodeGrowLoop
import Libzorpll.DeadlockCheck
import Libzorpll.ThresholdSource
import Libzorpll.Md5Crypt
import Libzorpll.BitStream
import Libzorpll.Forest
import Libzorpll.ObjectMethods
import Libzorpll.RandomBounded
import Libzorpll.ChunkTransfer
import Libzorpll.ConnectBlock
import Libzorpll.LinkArray
import Libzorpll.MemTrace
import Libzorpll.MemTraceCalls
import Libzorpll.PacketSeek
import Libzorpll.PushbackPacket
import Libzorpll.StartupResult
import Libzorpll.StartupFork
import Libzorpll.StartupRun
import Libzorpll.StartupStatus
import Libzorpll.StartupSystem
import Libzorpll.StartupWiring
import Libzorpll.StartupFork
import Libzorpll.LogFresh
import Libzorpll.StackHeld
import Libzorpll.StackRun
import Libzorpll.StackCalls
import Libzorpll.StackEnd
import Libzorpll.StackCallbacks
import Libzorpll.StackPhases
import Libzorpll.StackSteps

import CrossTransfer.Library.FixedWidth
import CrossTransfer.Library.ListSums
import CrossTransfer.Library.Loop
import CrossTransfer.Library.Machine
import CrossTransfer.Library.FileSystem
import CrossTransfer.Library.OrderedMap
import CrossTransfer.Library.OrderedSet
import CrossTransfer.Library.RunPacking
import CrossTransfer.Transfer.BlockCodec
import CrossTransfer.Transfer.Bitmap
import CrossTransfer.Transfer.BitmapRuns
import CrossTransfer.Transfer.HaveRuns
import CrossTransfer.Transfer.BitmapSet
import CrossTransfer.Transfer.ExactRuns
import CrossTransfer.Transfer.PathSanitize
import CrossTransfer.Transfer.Manifest
import CrossTransfer.Transfer.BuildManifest
import CrossTransfer.Transfer.JsonText
import CrossTransfer.Transfer.ReceivePaths
import CrossTransfer.Transfer.Utf8
import CrossTransfer.Transfer.PathGrammar
import CrossTransfer.Share.ChooseNames
import CrossTransfer.Transfer.Receiver
import CrossTransfer.Transfer.ReceiverStart
import CrossTransfer.Transfer.Sender
import CrossTransfer.Transfer.Repair
import CrossTransfer.Share.TransferSession
import CrossTransfer.Share.Duplex
import CrossTransfer.Transfer.SenderLedger
import CrossTransfer.Transfer.SenderRun
import CrossTransfer.Share.SendProgress
import CrossTransfer.Share.SenderParty
import CrossTransfer.Transfer.ReceiverRun
import CrossTransfer.Share.ReceiverParty
import CrossTransfer.Share.Agreement
import CrossTransfer.Share.StaleSack
import CrossTransfer.Api.Configuration
import CrossTransfer.Api.Core
import CrossTransfer.Api.SessionEffects
import CrossTransfer.Api.SessionSteps
import CrossTransfer.Api.ShareRequests
import CrossTransfer.Api.ClaimAttempts
import CrossTransfer.Api.ShareStates
import CrossTransfer.Api.Addressing
import CrossTransfer.Signal.Codes
import CrossTransfer.Signal.CodeTable
import CrossTransfer.Signal.Protocol
import CrossTransfer.Signal.Hub
import CrossTransfer.Signal.Teardown
import CrossTransfer.Signal.Integrity
import CrossTransfer.Signal.Effects
import CrossTransfer.Signal.Traces
import CrossTransfer.Signal.Subscribers
import CrossTransfer.Library.Utf8Runes
import CrossTransfer.Library.JsonScanner
import CrossTransfer.Library.JsonPrinter
import CrossTransfer.Notification.Store
import CrossTransfer.Notification.ItemJson
import CrossTransfer.Notification.SavedStore
import CrossTransfer.Notification.StoreDurability
import CrossTransfer.Notification.Publication
import CrossTransfer.Notification.Inbox
import CrossTransfer.Notification.Alerts
import CrossTransfer.Library.EventLog
import CrossTransfer.Signal.Claims
import CrossTransfer.Signal.Announce
import CrossTransfer.Signal.Order
import CrossTransfer.Signal.Replies
import CrossTransfer.Signal.Routing
import CrossTransfer.Signal.Capacity
import CrossTransfer.Signal.Limiter
import CrossTransfer.Signal.LimiterSweep
import CrossTransfer.Signal.ShareLifetime
import CrossTransfer.Signal.ClaimDelay
import CrossTransfer.Signal.WsSink
import CrossTransfer.Transfer.CtrlCodec
import CrossTransfer.Transfer.CodecRoundTrip
import CrossTransfer.Runtime.SessionLink
import CrossTransfer.Share.Lifecycle
import CrossTransfer.Share.FinalRecord
import CrossTransfer.Share.PauseUnion
import CrossTransfer.Share.CtrlText
import CrossTransfer.Share.CtrlDispatch
import CrossTransfer.Share.CtrlHarmless
import CrossTransfer.Share.Offerable
import CrossTransfer.Api.ReceiveCancel
import CrossTransfer.Library.CappedSet
import CrossTransfer.Library.CheckedList
import CrossTransfer.Library.SeparatedPath
import CrossTransfer.Transfer.ManifestTree
import CrossTransfer.Transfer.ManifestRoundTrip
import CrossTransfer.Share.ManifestSignature
import CrossTransfer.Share.DerivedNames
import CrossTransfer.Library.Schedule
import CrossTransfer.Transfer.BlockLayout
import CrossTransfer.Transfer.SenderMachine
import CrossTransfer.Transfer.LossEstimate
import CrossTransfer.Transfer.LossWindow
import CrossTransfer.Transfer.ReceivedBytes
import CrossTransfer.Transfer.StoredBytes
import CrossTransfer.Transfer.SweepFile
import CrossTransfer.Transfer.IndexRange
import CrossTransfer.Transfer.ResendHold
import CrossTransfer.Transfer.ReceiverMachine
import CrossTransfer.Transfer.CollectedRun
import CrossTransfer.Transfer.MarkedBlocks
import CrossTransfer.Library.FileFrame
import CrossTransfer.Transfer.PartFiles
import CrossTransfer.Transfer.OneByOne
import CrossTransfer.Transfer.HandleBatch
import CrossTransfer.Transfer.BatchRun
import CrossTransfer.Minirtc.DtlsTransport
import CrossTransfer.Minirtc.PeerConnection
import CrossTransfer.Minirtc.PathSwitch
import CrossTransfer.App.TakeCode
import CrossTransfer.App.CoreReading
import CrossTransfer.App.CodeSpelling
import CrossTransfer.App.AppReading
import CrossTransfer.App.CodeAgreement
import CrossTransfer.Library.TextSearch
import CrossTransfer.Library.Trimming
import CrossTransfer.Library.Pieces
import CrossTransfer.Transfer.Utf8Reads
import CrossTransfer.Share.TakeCodeLinks
import CrossTransfer.Library.Attempt
import CrossTransfer.Minirtc.ByteIo
import CrossTransfer.Minirtc.RtpPacket
import CrossTransfer.Minirtc.RtpPacketizer
import CrossTransfer.Library.TimedQueue
import CrossTransfer.Runtime.EventLoop
import CrossTransfer.Runtime.TaskOrder
import CrossTransfer.Library.TextStream
import CrossTransfer.Minirtc.DataStreams
import CrossTransfer.Minirtc.StreamNegotiation
import CrossTransfer.Minirtc.RtcpPacket
import CrossTransfer.Minirtc.CongestionFeedback
import CrossTransfer.Minirtc.FeedbackFragments
import CrossTransfer.Minirtc.FeedbackRoundTrip
import CrossTransfer.Transfer.FileFlags
import CrossTransfer.Transfer.BlockFrontier
import CrossTransfer.Transfer.AnnouncedHash
import CrossTransfer.Transfer.FileAgreement
import CrossTransfer.Minirtc.SeqNumUnwrapper
import CrossTransfer.Minirtc.FeedbackTracker
import CrossTransfer.Minirtc.FeedbackGenerator
import CrossTransfer.Minirtc.FeedbackAdapter
import CrossTransfer.Minirtc.AcknowledgedPackets
import CrossTransfer.Minirtc.FeedbackKeys
import CrossTransfer.Minirtc.FeedbackLoop
import CrossTransfer.Minirtc.PacketQueue
import CrossTransfer.Minirtc.PacketQueueInvariant
import CrossTransfer.Minirtc.PacketQueueSteps
import CrossTransfer.Minirtc.PacketQueueRuns
import CrossTransfer.Library.WeightedBucket
import CrossTransfer.Turn.RelayLimiter
import CrossTransfer.Turn.RelayQuota

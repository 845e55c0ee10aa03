import Carbond.Whisper.RingProofs
import Carbond.Whisper.WindowProofs
import Carbond.Bytes.Writes
import Carbond.Whisper.LateProofs
import Carbond.Whisper.CreateProofs
import Carbond.Whisper.TilingProofs
import Carbond.Whisper.RunProofs
import Carbond.Whisper.SlotProofs
import Carbond.Conf.Parse
import Carbond.Whisper.DivisionProofs
import Carbond.Heap.Cells
import Carbond.Heap.Segment
import Carbond.Cache.Database
import Carbond.Fifo.Delivery
import Carbond.Cache.DatabaseProofs
import Carbond.Cache.DeliveryProofs
import Carbond.Receiver.Tcp
import Carbond.Receiver.SegmentProofs
import Carbond.Daemon.Main
import Carbond.Conf.ParseProofs
import Carbond.Daemon.StopProofs
import Carbond.Threads.Pause
import Carbond.Threads.PauseProofs
import Carbond.Whisper.PathProofs
import Carbond.Ieee.Format
import Carbond.Whisper.AggregateProofs
import Carbond.Conf.Settings
import Carbond.Daemon.Reload
import Carbond.Threads.Shutdown
import Carbond.Cache.Feeders
import Carbond.Cache.FeedersProofs
import Carbond.Cache.Handover
import Carbond.Cache.HandoverProofs
import Carbond.Whisper.Interval
import Carbond.Whisper.PlanProofs
import Carbond.Whisper.RatioProofs
import Carbond.Whisper.BufferProofs
import Carbond.Whisper.BucketProofs
import Carbond.Whisper.StampProofs
import Carbond.Whisper.ArrivalProofs
import Carbond.Whisper.MisreadProofs
import Carbond.Receiver.MessageProofs
import Carbond.Cache.DrainProofs
import Carbond.Whisper.DirectoryProofs
import Carbond.Conf.Lines
import Carbond.Conf.RetentionProofs
import Carbond.Conf.SchemaProofs
import Carbond.Conf.AggregationProofs
import Carbond.Posix.Noted
import Carbond.Whisper.HeaderProofs
import Carbond.Whisper.Cascade
import Carbond.Whisper.CascadeProofs
import Carbond.Posix.Faults
import Carbond.Whisper.TruncationProofs
import Carbond.Whisper.FailureProofs
import Carbond.Whisper.SuccessProofs
import Carbond.Posix.Lockstep
import Carbond.Whisper.FileProofs
import Carbond.Posix.Places
import Carbond.Whisper.PlacesProofs
import Carbond.Whisper.Requests
import Carbond.Whisper.IsolationProofs
import Carbond.Backlog.Levels
import Carbond.Cache.BacklogProofs
import Carbond.Whisper.NewestProofs
import Carbond.Daemon.Storage
import Carbond.Daemon.StorageProofs
import Carbond.Daemon.DiskProofs
import Carbond.Daemon.ArchiveProofs
import Carbond.Whisper.GuardProofs
import Carbond.Whisper.SettledProofs
import Carbond.Whisper.Print
import Carbond.Whisper.PrintProofs
import Carbond.Posix.Globals
import Carbond.Whisper.CountProofs
import Carbond.Cache.HistoryProofs
import Carbond.Daemon.Monitoring
import Carbond.Daemon.MonitoringProofs
import Carbond.Heap.Assertion
import Carbond.Heap.Triple
import Carbond.Blocks.Memory
import Carbond.Blocks.Parse
import Carbond.Blocks.Reload
import Carbond.Blocks.ListProofs

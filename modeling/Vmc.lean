import Vmc.Client.VideoPath
import Vmc.Core
import Vmc.Lib.Bytes
import Vmc.Lib.Crc8
import Vmc.Lib.Pool
import Vmc.Lib.Run
import Vmc.Lib.Serial
import Vmc.Sim.Sender
import Vmc.Transport.JitterBuffer
import Vmc.Transport.Protocol
import Vmc.Video.Fragment
import Vmc.Client.FrameSlots
import Vmc.Client.DecodeOrder
import Vmc.Client.AvTimeline
import Vmc.Client.DeadlineShift
import Vmc.Client.HttpGet
import Vmc.Sim.DashServer
import Vmc.Client.SegmentFetch
import Vmc.Client.DashReader
import Vmc.Client.EndToEnd
import Vmc.Transport.JitterRuns
import Vmc.Transport.JitterFlow
import Vmc.Lib.Ring
import Vmc.Video.DrmScanout
import Vmc.Video.ScanoutSafety
import Vmc.Client.DecodeWorker
import Vmc.Client.SlotConservation
import Vmc.Client.BufferCustody
import Vmc.Client.FrameIdentity
import Vmc.Core.Telemetry
import Vmc.Core.SlotOwnership
import Vmc.Core.RingOrder
import Vmc.Core.EmitAccounts
import Vmc.Core.Shutdown
import Vmc.Core.SeqOrder
import Vmc.Client.Rebase
import Vmc.Transport.LossAccounts
import Vmc.Client.ReaderAnchor
import Vmc.Client.SlotDelivery
import Vmc.Client.EndOfContent
import Vmc.Client.ReaderCancel
import Vmc.Client.Vrender
import Vmc.Input.Batch
import Vmc.Client.InputPath
import Vmc.Session.Session
import Vmc.Client.RttSamples
import Vmc.Core.Ringbuf
import Vmc.Session.Termination
import Vmc.Sim.MecSim
import Vmc.Sim.NalSplitter
import Vmc.Sim.PipeSource
import Vmc.Sim.FileSource
import Vmc.Client.TruncatedFetch
import Vmc.Client.ChunkLoop
import Vmc.Client.Manifest
import Vmc.Client.LiveEdge
import Vmc.Core.TelemetrySinks
import Vmc.Transport.BurstErrors
import Vmc.Transport.Drain
import Vmc.Sim.ReadCuts
import Vmc.Client.E2eLatency
import Vmc.Client.UnitIdentity
import Vmc.Input.Evdev
import Vmc.Client.AudioFifo
import Vmc.Client.ManifestBounds
import Vmc.Audio.Mixer
import Vmc.Client.SyncServo
import Vmc.Client.StreamCopy
import Vmc.Harness.TheilSen
import Vmc.Video.FbDisplay
import Vmc.Harness.ClockMap
import Vmc.Harness.Buckets
import Vmc.Harness.DropCount
import Vmc.Harness.OffsetSamples
import Vmc.Lib.Replace
import Vmc.Sim.MpdPatch
import Vmc.Client.SegmentRequest
import Vmc.Sim.ServerLoop
import Vmc.Session.Mapper
import Vmc.Client.PresentQueue
import Vmc.Client.Wakeups
import Vmc.Client.PipelineProgress
import Vmc.Harness.Gates
import Vmc.Harness.Verdict
import Vmc.Harness.Certify

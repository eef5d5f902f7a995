import CaptureRing.Block
import CaptureRing.Bytes
import CaptureRing.Bytes.Order
import CaptureRing.Capture
import CaptureRing.Capture.Schedule
import CaptureRing.Condition
import CaptureRing.Config
import CaptureRing.Config.Saved
import CaptureRing.Config.Stored
import CaptureRing.Disk
import CaptureRing.Disk.Path
import CaptureRing.Duration
import CaptureRing.Error
import CaptureRing.Host
import CaptureRing.Machine
import CaptureRing.Merge
import CaptureRing.Number.Dyadic
import CaptureRing.Number.Instances
import CaptureRing.Number.Numeral
import CaptureRing.Output
import CaptureRing.Pcap.FileHeader
import CaptureRing.Pcap.Record
import CaptureRing.Pcapng.BlockKind
import CaptureRing.Pcapng.Frame
import CaptureRing.Pcapng.Interface
import CaptureRing.Pcapng.LinkType
import CaptureRing.Pcapng.Option
import CaptureRing.Pcapng.Packet
import CaptureRing.Pcapng.SectionHeader
import CaptureRing.Pcapng.Statistics
import CaptureRing.Preamble
import CaptureRing.Proofs.Arrivals
import CaptureRing.Proofs.Attribution
import CaptureRing.Proofs.Conservation
import CaptureRing.Proofs.Context
import CaptureRing.Proofs.Cutting
import CaptureRing.Proofs.Delivery
import CaptureRing.Proofs.FileNames
import CaptureRing.Proofs.Filing
import CaptureRing.Proofs.Ledger
import CaptureRing.Proofs.Numbering
import CaptureRing.Proofs.RoundTrip
import CaptureRing.Reader
import CaptureRing.Source
import CaptureRing.Source.Opened
import CaptureRing.Stream
import CaptureRing.Tally
import CaptureRing.Text.Blank
import CaptureRing.Text.Digits
import CaptureRing.Text.Quoted
import CaptureRing.Text.Unprintable
import CaptureRing.Text.Utf8
import CaptureRing.World
import CaptureRing.Writer
import CaptureRing.Proofs.Rereading
import CaptureRing.Proofs.Draft
import CaptureRing.Proofs.Acceptance
import CaptureRing.Proofs.Endianness
import CaptureRing.Proofs.Translation
import CaptureRing.Proofs.Course
import CaptureRing.Proofs.Lockstep
import CaptureRing.Proofs.Accounts
import CaptureRing.Proofs.Autostop
import CaptureRing.Proofs.Legibility
import CaptureRing.Proofs.Reseeding
import CaptureRing.Proofs.Readiness
import CaptureRing.Proofs.Readback
import CaptureRing.Proofs.Places
import CaptureRing.Proofs.Storage
import CaptureRing.Proofs.Ring
import CaptureRing.Proofs.Pieces
import CaptureRing.Proofs.Truncation
import CaptureRing.Proofs.Balance
import CaptureRing.Proofs.Sealing
import CaptureRing.Proofs.Isolation
import CaptureRing.Proofs.Passage
import CaptureRing.Proofs.Paging
import CaptureRing.Proofs.Rotation
import CaptureRing.Proofs.Verdict
import CaptureRing.Proofs.Waiting
import CaptureRing.Proofs.Promptness
import CaptureRing.Proofs.Handles
import CaptureRing.Proofs.Session
import CaptureRing.Proofs.Contents
import CaptureRing.Proofs.Fields
import CaptureRing.Proofs.Refusals
import CaptureRing.Proofs.Finality
import CaptureRing.Proofs.Extent
import CaptureRing.Proofs.Orphans
import CaptureRing.Proofs.Clipping
import CaptureRing.Proofs.OptionNumbers
import CaptureRing.Proofs.Overlength
import CaptureRing.Proofs.Utf8RoundTrip
import CaptureRing.Proofs.Saving
import CaptureRing.Proofs.Loading
import CaptureRing.Proofs.Conditions
import CaptureRing.Proofs.Overlong
import CaptureRing.Proofs.Decimals
import CaptureRing.Proofs.Thresholds
import CaptureRing.Proofs.Indexing
import CaptureRing.Proofs.Delimiting

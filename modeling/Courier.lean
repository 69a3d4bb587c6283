import Courier.BitSet
import Courier.Blueprint
import Courier.Bytes
import Courier.Cache
import Courier.Config
import Courier.Config.Text
import Courier.Datum
import Courier.Decoder
import Courier.Double
import Courier.Error
import Courier.Fixed
import Courier.Frame
import Courier.Handler
import Courier.ItemType
import Courier.Length
import Courier.Message
import Courier.Nesting
import Courier.Pack
import Courier.Pack.Shape
import Courier.Proofs.Agree
import Courier.Proofs.Alike
import Courier.Proofs.AlikeDesks
import Courier.Proofs.Allocations
import Courier.Proofs.Ancestors
import Courier.Proofs.Bindings
import Courier.Proofs.Bound
import Courier.Proofs.Buffer
import Courier.Proofs.Buffers
import Courier.Proofs.BuffersUnseen
import Courier.Proofs.CachesOverRuns
import Courier.Proofs.Calls
import Courier.Proofs.CapacityUnseen
import Courier.Proofs.Chain
import Courier.Proofs.Codes
import Courier.Proofs.Conduct
import Courier.Proofs.Contained
import Courier.Proofs.CountCheck
import Courier.Proofs.Counts
import Courier.Proofs.Course
import Courier.Proofs.Custody
import Courier.Proofs.Depth
import Courier.Proofs.Dispatch
import Courier.Proofs.Doubling
import Courier.Proofs.Fence
import Courier.Proofs.Groups
import Courier.Proofs.Harmless
import Courier.Proofs.Hashing
import Courier.Proofs.Hostile
import Courier.Proofs.Layout
import Courier.Proofs.Least
import Courier.Proofs.Leaves
import Courier.Proofs.Levels
import Courier.Proofs.LevelsCleared
import Courier.Proofs.LevelsUnread
import Courier.Proofs.Lives
import Courier.Proofs.Local
import Courier.Proofs.Maps
import Courier.Proofs.Members
import Courier.Proofs.Mirror
import Courier.Proofs.Moments
import Courier.Proofs.NoTrace
import Courier.Proofs.OnePass
import Courier.Proofs.Opaque
import Courier.Proofs.Parallel
import Courier.Proofs.Patch
import Courier.Proofs.Presized
import Courier.Proofs.ReadYields
import Courier.Proofs.Reads
import Courier.Proofs.ReadsLeaveClear
import Courier.Proofs.Recode
import Courier.Proofs.Refusals
import Courier.Proofs.Resume
import Courier.Proofs.Retained
import Courier.Proofs.Retrieve
import Courier.Proofs.Rewriting
import Courier.Proofs.RoomDecides
import Courier.Proofs.Rootless
import Courier.Proofs.RoundTrip
import Courier.Proofs.Sameness
import Courier.Proofs.Scalars
import Courier.Proofs.Segments
import Courier.Proofs.Session
import Courier.Proofs.Spelling
import Courier.Proofs.Steady
import Courier.Proofs.Strokes
import Courier.Proofs.Tree
import Courier.Proofs.Truncation
import Courier.Proofs.Window
import Courier.Proofs.WindowCodes
import Courier.Proofs.WindowExtension
import Courier.Proofs.Words
import Courier.Proofs.Workshop
import Courier.Reader
import Courier.Reader.Code
import Courier.Reader.Message
import Courier.Scenario
import Courier.Scratch
import Courier.Turn
import Courier.Utf8
import Courier.ValueMap
import Courier.Varint
import Courier.Writer
import Courier.Writer.Code
import Courier.Writer.Message

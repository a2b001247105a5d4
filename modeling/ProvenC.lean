import ProvenC.Hpack.Independence
import ProvenC.Hpack.Queue
import ProvenC.Time.Breakdown
import ProvenC.Quic.InFlight
import ProvenC.H2.Places
import ProvenC.Sort.Introsort
import ProvenC.Map.Walking
import ProvenC.Map.Churn
import ProvenC.Memory.Discipline
import ProvenC.Memory.Contents
import ProvenC.Url.Containment
import ProvenC.Url.Lossless
import ProvenC.Http.Delivery
import ProvenC.Http.Messages
import ProvenC.Ws.Writing
import ProvenC.Ws.Streams
import ProvenC.Quic.Fallback
import ProvenC.Quic.DatagramSize
import ProvenC.Quic.Amplification
import ProvenC.Quic.Events
import ProvenC.Quic.KeyUpdate
import ProvenC.Quic.Reassembly
import ProvenC.Quic.Limits
import ProvenC.Http.Shelf
import ProvenC.Crypto.Exact
import ProvenC.Jobs.Stalling
import ProvenC.Random.Exact
import ProvenC.Stream.Ledger
import ProvenC.Stream.Chunking
import ProvenC.X509.Barred
import ProvenC.X509.Finding
import ProvenC.Text.Carried
import ProvenC.Text.EncodeExact
import ProvenC.Stream.WideText
import ProvenC.Quic.AckCodec
import ProvenC.Quic.TransportParameters
import ProvenC.Qpack.Required
import ProvenC.H2.ContentLength
import ProvenC.Http.RangeTotals
import ProvenC.Http.DateCenturies
import ProvenC.H2.BlockFraming
import ProvenC.Text.Lossy
import ProvenC.Url.FormData
import ProvenC.H2.TableSize
import ProvenC.H2.Scratch

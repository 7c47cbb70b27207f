-- SUMMARY: The root of the development: it imports every other module.
import OmegaStreamer.Lib.Binary64
import OmegaStreamer.Lib.Buffered
import OmegaStreamer.Lib.Codec
import OmegaStreamer.Lib.Duplex
import OmegaStreamer.Lib.Endian
import OmegaStreamer.Lib.Mealy
import OmegaStreamer.Lib.Memory
import OmegaStreamer.Lib.Registry
import OmegaStreamer.Lib.RoundRobin
import OmegaStreamer.Lib.Resumable
import OmegaStreamer.Lib.Sharded
import OmegaStreamer.Lib.Trace
import OmegaStreamer.Lib.Window
import OmegaStreamer.Base.BytesReader
import OmegaStreamer.Network.MsgBuffer
import OmegaStreamer.Network.ReadLoop
import OmegaStreamer.Network.TcpConnection
import OmegaStreamer.Network.TcpServer
import OmegaStreamer.Network.WriteQueue
import OmegaStreamer.Rtmp.Header
import OmegaStreamer.Rtmp.ChunkParse
import OmegaStreamer.Rtmp.Segmentation
import OmegaStreamer.Rtmp.Interleaving
import OmegaStreamer.Rtmp.Accumulation
import OmegaStreamer.Rtmp.ChunkFormat
import OmegaStreamer.Rtmp.ChunkCodec
import OmegaStreamer.Rtmp.Grouping
import OmegaStreamer.Rtmp.Sender
import OmegaStreamer.Rtmp.Reassembly
import OmegaStreamer.Rtmp.Timestamps
import OmegaStreamer.Rtmp.Deltas
import OmegaStreamer.Rtmp.Holding
import OmegaStreamer.Rtmp.HandShake
import OmegaStreamer.Rtmp.Digests
import OmegaStreamer.Rtmp.Context
import OmegaStreamer.Rtmp.HandShakeSteps
import OmegaStreamer.Rtmp.HandShakeRuns
import OmegaStreamer.Rtmp.ClientHandShake
import OmegaStreamer.Rtmp.AMF0
import OmegaStreamer.Rtmp.AMF0Format
import OmegaStreamer.Rtmp.AMF0Encoder
import OmegaStreamer.Rtmp.AMF0Usage
import OmegaStreamer.Rtmp.AMF0Recognition
import OmegaStreamer.Rtmp.AMF0Nesting
import OmegaStreamer.Rtmp.AMF0Calls
import OmegaStreamer.Media.MediaSource
import OmegaStreamer.Media.Headers
import OmegaStreamer.Media.Consumers
import OmegaStreamer.Media.Keyframes
import OmegaStreamer.Media.Joining
import OmegaStreamer.Media.MediaSourceMgr
import OmegaStreamer.Rtmp.Session
import OmegaStreamer.Rtmp.AMF0Truncation
import OmegaStreamer.Rtmp.MetaData
import OmegaStreamer.Rtmp.Replies
import OmegaStreamer.Rtmp.Publishing
import OmegaStreamer.Rtmp.Ingest
import OmegaStreamer.Rtmp.StreamIds
import OmegaStreamer.Rtmp.ChunkSizes
import OmegaStreamer.Rtmp.ServerContext
import OmegaStreamer.Rtmp.ServerSteps
import OmegaStreamer.Rtmp.HandShakePair
import OmegaStreamer.Rtmp.ServerRuns
import OmegaStreamer.Rtmp.Conversation
import OmegaStreamer.Rtmp.ServerMemory
import OmegaStreamer.Rtmp.MemoryRuns
import OmegaStreamer.Rtmp.AsyncConnection
import OmegaStreamer.Rtmp.Backlog
import OmegaStreamer.Rtmp.RtmpServer

import FpgaAcoustic.Signal.Operators
import FpgaAcoustic.Rtl.CicDecimator
import FpgaAcoustic.Rtl.CicExact
import FpgaAcoustic.Rtl.CicOverflow
import FpgaAcoustic.Rtl.DelayModule
import FpgaAcoustic.Rtl.Coherence
import FpgaAcoustic.Rtl.DelayModels
import FpgaAcoustic.Rtl.AddrCounter
import FpgaAcoustic.Rtl.Capture
import FpgaAcoustic.Driver.BeamSelect
import FpgaAcoustic.Driver.CaptureIsolation
import FpgaAcoustic.Bytes.Memory
import FpgaAcoustic.Bytes.Stream
import FpgaAcoustic.Bytes.Parser
import FpgaAcoustic.Server.Operation
import FpgaAcoustic.Server.TupleCodec
import FpgaAcoustic.Client.CppSerdes
import FpgaAcoustic.Server.Tcp
import FpgaAcoustic.Server.Payload
import FpgaAcoustic.Client.CppClient
import FpgaAcoustic.Bytes.Utf8
import FpgaAcoustic.Client.PyClient
import FpgaAcoustic.Server.Truncation
import FpgaAcoustic.Server.Extent
import FpgaAcoustic.Server.WebSocket
import FpgaAcoustic.Server.Frame
import FpgaAcoustic.Server.ShortFrame
import FpgaAcoustic.Server.Dispatch
import FpgaAcoustic.Alloc.IdPool
import FpgaAcoustic.Transition.System
import FpgaAcoustic.Server.SessionManager
import FpgaAcoustic.Server.Threads
import FpgaAcoustic.Server.Lifetime
import FpgaAcoustic.Server.Admission
import FpgaAcoustic.Server.Framing
import FpgaAcoustic.Rtl.AxisTlast
import FpgaAcoustic.Rtl.Acquisition
import FpgaAcoustic.Rtl.AxisStream
import FpgaAcoustic.Rtl.SamplePulses
import FpgaAcoustic.Signal.PulseWidth
import FpgaAcoustic.Rtl.Ws2812
import FpgaAcoustic.Rtl.Ws2812Invariants
import FpgaAcoustic.Rtl.Leds
import FpgaAcoustic.Rtl.LedWrites
import FpgaAcoustic.Server.Startup
import FpgaAcoustic.Build.RegisterMap
import FpgaAcoustic.Build.Drivers
import FpgaAcoustic.Client.Cli
import FpgaAcoustic.Rtl.Cadence
import FpgaAcoustic.Rtl.Headroom
import FpgaAcoustic.Server.ReadBytes
import FpgaAcoustic.Server.Emission
import FpgaAcoustic.Bytes.Reader
import FpgaAcoustic.Server.BufferBounds
import FpgaAcoustic.Bytes.Sender
import FpgaAcoustic.Server.Sending
import FpgaAcoustic.Driver.Beamforming
import FpgaAcoustic.Server.Response
import FpgaAcoustic.Client.PyReceive
import FpgaAcoustic.Driver.DmaTransfer
import FpgaAcoustic.Server.MemoryMap
import FpgaAcoustic.Transition.WhileLoop
import FpgaAcoustic.Client.RecvAll
import FpgaAcoustic.Server.VectorReception
import FpgaAcoustic.Server.Circular
import FpgaAcoustic.Driver.OneCapture
import FpgaAcoustic.Bytes.Safety
import FpgaAcoustic.Driver.Readers
import FpgaAcoustic.Driver.MicPacking
import FpgaAcoustic.Bytes.Base64
import FpgaAcoustic.Bytes.Search
import FpgaAcoustic.Server.Handshake
import FpgaAcoustic.Signal.Handshake
import FpgaAcoustic.Rtl.AxiRegister
import FpgaAcoustic.Build.RegisterAccess
import FpgaAcoustic.Bytes.Blocks
import FpgaAcoustic.Bytes.Sha1
import FpgaAcoustic.Server.Sha1
import FpgaAcoustic.Server.WebSession
import FpgaAcoustic.Server.Base64Decode
import FpgaAcoustic.Client.CppReceive
import FpgaAcoustic.Transition.Monitor
import FpgaAcoustic.Server.Concurrent
import FpgaAcoustic.Client.Conversation
import FpgaAcoustic.Rtl.Pipeline
import FpgaAcoustic.Driver.Recording
import FpgaAcoustic.Driver.DmaStream
import FpgaAcoustic.Rtl.Display
import FpgaAcoustic.Server.Interface
import FpgaAcoustic.Client.Names
import FpgaAcoustic.Driver.DmaRead
import FpgaAcoustic.Driver.Rounds
import FpgaAcoustic.Client.Calls

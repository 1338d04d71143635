import Wimi.AddrMode
import Wimi.Adjacency
import Wimi.Alignment
import Wimi.BypassRead
import Wimi.Capture
import Wimi.ChainBounds
import Wimi.CleanWriteback
import Wimi.ConcurrentCopies
import Wimi.ContainerBounds
import Wimi.Control
import Wimi.ControlWord
import Wimi.CyclicLayout
import Wimi.CyclicSetup
import Wimi.Daq2Config
import Wimi.DeviceFile
import Wimi.EngineRuns
import Wimi.Events
import Wimi.Experiment
import Wimi.FixedAddress
import Wimi.GateRestored
import Wimi.HeaderBounds
import Wimi.HeaderFormat
import Wimi.Instances
import Wimi.Interrupts
import Wimi.McapRequest
import Wimi.MsixRouting
import Wimi.OclFrequency
import Wimi.PacketCopy
import Wimi.PerfLifecycle
import Wimi.Playback
import Wimi.PolledCalls
import Wimi.PolledReads
import Wimi.QueueDiscipline
import Wimi.RegisterReads
import Wimi.Release
import Wimi.ResourceBalance
import Wimi.RetireList
import Wimi.RingMmap
import Wimi.RingScan
import Wimi.RxClose
import Wimi.RxIntake
import Wimi.SampleFormat
import Wimi.Spi
import Wimi.StreamHold
import Wimi.TransferBuild
import Wimi.Triggers
import Wimi.TxFrame
import Wimi.TxPlay
import Wimi.UserRequests

import Connectal.Memory.WriteDone
import Connectal.Memory.ReadData
import Connectal.Memory.SglIdLife
import Connectal.Memory.MemServerIsolation
import Connectal.Marshall.Numeric
import Connectal.Marshall.Signed
import Connectal.Marshall.Enums
import Connectal.Marshall.Floats
import Connectal.Pcie.GearboxRun
import Connectal.Pcie.Arbiter
import Connectal.Pcie.SlaveWrites
import Connectal.Pcie.SlaveReads
import Connectal.Pipe.Funnel
import Connectal.Strstr.Software
import Connectal.Pcie.MasterFlow
import Connectal.Portal.RemoteCalls
import Connectal.Regexp.EngineRun
import Connectal.Strstr.MPEngineProgress
import Connectal.Memory.SimAddress
import Connectal.Matmul.DotProdServer
import Connectal.Memory.MemUtils
import Connectal.Portal.Poller
import Connectal.Socket.Bounds
import Connectal.Socket.Dispatch
import Connectal.Memory.PortalMemHeap
import Connectal.Engine.UGBramFifos
import Connectal.Marshall.Preprocess
import Connectal.Pipe.Range
import Connectal.Pipe.StackReg
import Connectal.Memory.AxiDma
import Connectal.Pcie.MifoPositions

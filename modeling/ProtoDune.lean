import ProtoDune.Daq.WindowSelection
import ProtoDune.Daq.EventPool
import ProtoDune.Daq.ListBulk
import ProtoDune.Daq.Ownership
import ProtoDune.Daq.RxConservation
import ProtoDune.Daq.RxListen
import ProtoDune.Daq.Rssi
import ProtoDune.Daq.SoftTrigger
import ProtoDune.Daq.DropSeq
import ProtoDune.Daq.Ranges
import ProtoDune.Daq.EventSize
import ProtoDune.Daq.FrameContinuity
import ProtoDune.Daq.FragmentSent
import ProtoDune.Firmware.Histogram
import ProtoDune.Firmware.WibFrameWrite
import ProtoDune.Firmware.ApdDecode
import ProtoDune.Firmware.ApeChecker
import ProtoDune.Firmware.PacketWrite
import ProtoDune.Firmware.DataCompressionFilter
import ProtoDune.Firmware.EmuChannelMap
import ProtoDune.Firmware.WibFrameCreate
import ProtoDune.Firmware.WibLink
import ProtoDune.Firmware.TimingMsg
import ProtoDune.Firmware.WibRxFramer
import ProtoDune.Firmware.PendingBits
import ProtoDune.Firmware.BfuScan
import ProtoDune.Firmware.HistogramDecode
import ProtoDune.Firmware.ChannelDecode
import ProtoDune.Firmware.WibAdcs
import ProtoDune.Firmware.WibFields
import ProtoDune.Firmware.PacketStatus
import ProtoDune.Firmware.MonitorRead
import ProtoDune.Firmware.HeaderDecode
import ProtoDune.Firmware.Lossless
import ProtoDune.Firmware.CoderLimits
import ProtoDune.Firmware.CompressionCore
import ProtoDune.Firmware.Btd
import ProtoDune.Util.Monitor
import ProtoDune.Firmware.FembLink
import ProtoDune.Firmware.WibErrors
import ProtoDune.Daq.TriggerDelivery
import ProtoDune.Daq.PacketReceived

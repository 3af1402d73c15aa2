import ZrSoc.ArbiterChannels
import ZrSoc.ArbiterFairness
import ZrSoc.DebugBusWrites
import ZrSoc.DebugBusStatus
import ZrSoc.DebugBusErrors
import ZrSoc.DebugBusRegisters
import ZrSoc.DebugPathReset
import ZrSoc.Tcm
import ZrSoc.CoreplexBus
import ZrSoc.DmSlavePort
import ZrSoc.FabricRouting
import ZrSoc.SubsysPerips
import ZrSoc.FlashFragments
import ZrSoc.QspiDelays
import ZrSoc.FlashSnapshot
import ZrSoc.PeripAccesses
import ZrSoc.UartLoop
import ZrSoc.UartRxBreak
import ZrSoc.FlashReads
import ZrSoc.UartModelReceive
import ZrSoc.UartModelStops
import ZrSoc.RbbServer
import ZrSoc.Simulation
import ZrSoc.QspiPulses
import ZrSoc.SpiReads
import ZrSoc.QueueRefinement
import ZrSoc.PwmCounting
import ZrSoc.GpioInterrupts
import ZrSoc.QspiReceive
import ZrSoc.QspiTransmit
import ZrSoc.CdcTransfer
import ZrSoc.FifoV3
import ZrSoc.Loopback
import ZrSoc.PwmWaveform
import ZrSoc.FlashTransfers
import ZrSoc.SocConsole
import ZrSoc.CoreInit
import ZrSoc.CoreNumbers
import ZrSoc.CoreCrc

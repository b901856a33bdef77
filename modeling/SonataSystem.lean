import SonataSystem.HyperRam.WrBufReads
import SonataSystem.HyperRam.TlPort
import SonataSystem.HyperRam.PortCommands
import SonataSystem.HyperRam.Bursts
import SonataSystem.HyperRam.Filling
import SonataSystem.HyperRam.Notify
import SonataSystem.HyperRam.Responses
import SonataSystem.Lib.OrderedMem
import SonataSystem.HyperRam.MemSystem
import SonataSystem.HyperRam.Coherence
import SonataSystem.Storage.BlockCache
import SonataSystem.Lib.Masks
import SonataSystem.Storage.Volume
import SonataSystem.Storage.Objects
import SonataSystem.Storage.FileRead
import SonataSystem.Lib.Fairness
import SonataSystem.Lib.ShiftReg
import SonataSystem.Spi.Core
import SonataSystem.Spi.Wire
import SonataSystem.Spi.Transfer
import SonataSystem.Spi.Host
import SonataSystem.Spi.Counters
import SonataSystem.System.Rs485Ctrl
import SonataSystem.HyperRam.WrBufCounts
import SonataSystem.HyperRam.SeqNumbers
import SonataSystem.HyperRam.Tags
import SonataSystem.Lib.Fallible
import SonataSystem.TopGen.Generator
import SonataSystem.TopGen.Routing
import SonataSystem.Usb.Driver
import SonataSystem.Usb.Ownership
import SonataSystem.Storage.ClusterList
import SonataSystem.Storage.Directory
import SonataSystem.Storage.LongNames
import SonataSystem.Storage.Enumerate
import SonataSystem.System.RvTimer
import SonataSystem.System.RevCtl
import SonataSystem.Hat.Eeprom
import SonataSystem.Lib.Crc
import SonataSystem.Storage.CardCrc
import SonataSystem.Storage.CardRead
import SonataSystem.Storage.Mount
import SonataSystem.Storage.Positions
import SonataSystem.Usb.Control
import SonataSystem.Storage.NameCodec
import SonataSystem.HyperRam.WrBufTimer
import SonataSystem.Lib.PulseWidth
import SonataSystem.Rgbled.Ws281xDrv
import SonataSystem.Rgbled.Waveform
import SonataSystem.Rgbled.RgbledCtrl
import SonataSystem.I2cDpi.Devices
import SonataSystem.I2cDpi.PageWrites
import SonataSystem.I2cDpi.Bus
import SonataSystem.I2cDpi.Traffic
import SonataSystem.I2cDpi.Phases
import SonataSystem.I2cDpi.Bytes
import SonataSystem.I2cDpi.Decoding
import SonataSystem.I2cDpi.Observed
import SonataSystem.I2cDpi.RepeatedStart
import SonataSystem.SpiDpi.Flash
import SonataSystem.SpiDpi.Framing
import SonataSystem.SpiDpi.Selection
import SonataSystem.SpiDpi.Commands
import SonataSystem.SpiDpi.Reads
import SonataSystem.SpiDpi.Law
import SonataSystem.SpiDpi.Twins
import SonataSystem.SpiDpi.Leftovers
import SonataSystem.SpiDpi.Renewal
import SonataSystem.Storage.RunningCrc
import SonataSystem.Gpio.Debounce
import SonataSystem.Legacy.I2cWrite
import SonataSystem.TopGen.Selectors
import SonataSystem.TopGen.Packing
import SonataSystem.TopGen.Inputs
import SonataSystem.Boot.BootLoader
import SonataSystem.Boot.Segments
import SonataSystem.Boot.Loading
import SonataSystem.Boot.FlashBoot
import SonataSystem.SpiDpi.MicroSd
import SonataSystem.Storage.CardDriver
import SonataSystem.Storage.CardProtocol
import SonataSystem.Storage.CardStop
import SonataSystem.Prim.MaxTree
import SonataSystem.Prim.TlulAdapterReg
import SonataSystem.Spi.Board
import SonataSystem.System.Interrupts
import SonataSystem.System.Pwm
import SonataSystem.System.RevokerIrq
import SonataSystem.Lcd.Calls
import SonataSystem.Lcd.Fbcon
import SonataSystem.Lcd.OutOfStep

import Thronix.Lib.Runs
import Thronix.Platform
import Thronix.Json.Walk
import Thronix.Json.WalkSpec
import Thronix.Json.Parsed
import Thronix.Json.Fuel
import Thronix.Json.Extend
import Thronix.Json.Accept
import Thronix.Json.Scanf
import Thronix.MqttRecv
import Thronix.Commands
import Thronix.Exact
import Thronix.Json.Wrapped
import Thronix.Agreement
import Thronix.Sensors
import Thronix.Station
import Thronix.Pump
import Thronix.Watering
import Thronix.Thresholds
import Thronix.WaterLevel
import Thronix.EchoEnd
import Thronix.EchoFresh
import Thronix.Automatic
import Thronix.Pausing
import Thronix.I2cIf
import Thronix.I2cQueue
import Thronix.I2cTrigger
import Thronix.Lib.Stuffing
import Thronix.Protocol
import Thronix.Frames
import Thronix.Lib.JsonRead
import Thronix.Json.Printf
import Thronix.Json.Strings
import Thronix.Reports
import Thronix.MqttHeap
import Thronix.Isolation
import Thronix.Connection
import Thronix.GuiPanel
import Thronix.Ping
import Thronix.I2cTransfer
import Thronix.I2cReadFrom
import Thronix.FrameErrors
import Thronix.FrameDecoder
import Thronix.Lib.Crc
import Thronix.SensorCrc
import Thronix.Topics
import Thronix.UartIf
import Thronix.GuiHistory
import Thronix.Lib.Ring
import Thronix.UartStdio
import Thronix.ConsoleBounds
import Thronix.ConsoleLines
import Thronix.ConsoleHistory
import Thronix.ConsoleRecall
import Thronix.ConsoleSafety
import Thronix.RunTimeStats
import Thronix.Lib.Tiling
import Thronix.Lib.Words
import Thronix.Lib.Buffer
import Thronix.KernelHeap
import Thronix.KernelHeapSpec
import Thronix.KernelHeapCalls
import Thronix.KernelHeapRuns
import Thronix.KernelQueue
import Thronix.KernelQueueCalls
import Thronix.KernelQueueRuns
import Thronix.KernelQueueWakeups
import Thronix.MqttPacket
import Thronix.MqttBuild
import Thronix.MqttReceive
import Thronix.MqttPublish
import Thronix.Lib.Traces
import Thronix.Lib.Once
import Thronix.Lib.Wakeups
import Thronix.MqttQos2

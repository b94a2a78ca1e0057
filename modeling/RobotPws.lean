import RobotPws.Lib.Runs
import RobotPws.Lib.CArray
import RobotPws.Kernel.Queues
import RobotPws.Hal.Serial
import RobotPws.Lib.Lines
import RobotPws.Lib.CInt
import RobotPws.Main
import RobotPws.Wifly.Parser
import RobotPws.Wifly.Callback
import RobotPws.Wifly.Loop
import RobotPws.Wifly.Framing
import RobotPws.Wifly.System
import RobotPws.Wifly.Moves
import RobotPws.Wifly.InputQueue
import RobotPws.Wifly.WakeUp
import RobotPws.Wifly.RealInput
import RobotPws.Wifly.ErrorReset
import RobotPws.Wifly.Overflow
import RobotPws.Gui.Protocol
import RobotPws.Gui.Reply
import RobotPws.Gui.Handshake
import RobotPws.Gui.Duration
import RobotPws.Lib.DeltaList
import RobotPws.Kernel.VirtualTimers
import RobotPws.Motor.Model
import RobotPws.Motor.Moves
import RobotPws.Motor.Ownership
import RobotPws.Motor.Safety
import RobotPws.Motor.OnTime
import RobotPws.Motor.Commands
import RobotPws.Motor.Durations
import RobotPws.Motor.Off
import RobotPws.Wifly.EmptyLines
import RobotPws.Wifly.Between
import RobotPws.Wifly.Receive
import RobotPws.Wifly.Outgoing
import RobotPws.Lib.LinkedList
import RobotPws.Kernel.MemPools
import RobotPws.Wifly.Buffers
import RobotPws.Wifly.ReadCommand
import RobotPws.Lib.Calls
import RobotPws.Gui.Window
import RobotPws.Gui.Connection
import RobotPws.Hal.Transmit
import RobotPws.Wifly.Completion
import RobotPws.Wifly.Timing
import RobotPws.Lib.CString
import RobotPws.Wifly.Answer
import RobotPws.Hal.Adc
import RobotPws.Sonar.Model
import RobotPws.Sonar.Mean
import RobotPws.Sonar.Flag
import RobotPws.Hal.I2c
import RobotPws.Heading.Model
import RobotPws.Heading.Reading
import RobotPws.Gui.Numbers
import RobotPws.Sonar.Sending
import RobotPws.Sonar.ErrorIsr
import RobotPws.Wifly.Connect
import RobotPws.Wifly.Stores
import RobotPws.Wifly.Refinement
import RobotPws.Wifly.Wire
import RobotPws.Lib.PrioQueue
import RobotPws.Lib.Inheritance
import RobotPws.Kernel.Threads
import RobotPws.Kernel.Services
import RobotPws.Kernel.Placement
import RobotPws.Kernel.Frame
import RobotPws.Kernel.Order
import RobotPws.Kernel.Mutexes
import RobotPws.Kernel.Waits
import RobotPws.Kernel.Invariant
import RobotPws.Kernel.Sound
import RobotPws.Kernel.Machine
import RobotPws.Kernel.Safety
import RobotPws.Kernel.Footprint
import RobotPws.Kernel.Interference
import RobotPws.Lib.Semaphore
import RobotPws.Kernel.Tokens
import RobotPws.Kernel.Timeouts

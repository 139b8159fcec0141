import LinuxAppSamp.Foundations.Buffer
import LinuxAppSamp.Foundations.Loop
import LinuxAppSamp.Foundations.Steps
import LinuxAppSamp.Foundations.Tally
import LinuxAppSamp.Foundations.Merge
import LinuxAppSamp.Foundations.Mutex
import LinuxAppSamp.Foundations.Progress
import LinuxAppSamp.Foundations.Heap
import LinuxAppSamp.Foundations.Decimal
import LinuxAppSamp.Foundations.Family
import LinuxAppSamp.Foundations.Layout
import LinuxAppSamp.Foundations.Signed
import LinuxAppSamp.Foundations.Channel
import LinuxAppSamp.Foundations.Wire
import LinuxAppSamp.Messages.Reply
import LinuxAppSamp.Echo.Servers
import LinuxAppSamp.Echo.Bounds
import LinuxAppSamp.Echo.Replies
import LinuxAppSamp.Echo.Leftovers
import LinuxAppSamp.Echo.Network
import LinuxAppSamp.Echo.Settling
import LinuxAppSamp.Sockets.Texts
import LinuxAppSamp.Transfer.Server
import LinuxAppSamp.Transfer.Client
import LinuxAppSamp.Transfer.Blocks
import LinuxAppSamp.Transfer.Acceptance
import LinuxAppSamp.Transfer.Closing
import LinuxAppSamp.Transfer.Stream
import LinuxAppSamp.Transfer.Cuts
import LinuxAppSamp.Transfer.Segmentation
import LinuxAppSamp.Transfer.Overrun
import LinuxAppSamp.Transfer.Partition
import LinuxAppSamp.Semaphore.Counter
import LinuxAppSamp.Semaphore.Blocked
import LinuxAppSamp.Queue.Receive
import LinuxAppSamp.Queue.Sharing
import LinuxAppSamp.Queue.Draining
import LinuxAppSamp.Queue.Polling
import LinuxAppSamp.Queue.SystemV
import LinuxAppSamp.Pipe.Lines
import LinuxAppSamp.Threads.Fifo
import LinuxAppSamp.Threads.Completion
import LinuxAppSamp.Threads.Handshake
import LinuxAppSamp.Threads.Arguments
import LinuxAppSamp.Threads.Variable
import LinuxAppSamp.Processes.Fork
import LinuxAppSamp.Processes.Segment
import LinuxAppSamp.Processes.Catches
import LinuxAppSamp.Processes.Signals
import LinuxAppSamp.Switch.Debounce
import LinuxAppSamp.Switch.Tasks
import LinuxAppSamp.Switch.Windows
import LinuxAppSamp.Gpio.Names
import LinuxAppSamp.Gpio.Presses
import LinuxAppSamp.Clock.Elapsed
import LinuxAppSamp.Clock.Printed
import LinuxAppSamp.Clock.Stamps
import LinuxAppSamp.Network.Interfaces
import LinuxAppSamp.Card.Records
import LinuxAppSamp.Script.Output

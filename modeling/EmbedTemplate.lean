import EmbedTemplate.Library.Circular
import EmbedTemplate.Library.Machine
import EmbedTemplate.Library.EvictingQueue
import EmbedTemplate.Logging.RoundTrip
import EmbedTemplate.Logging.Accounting
import EmbedTemplate.Logging.WakeUp
import EmbedTemplate.Logging.ReaderSafety
import EmbedTemplate.Logging.MultiWriter
import EmbedTemplate.Logging.Wrap
import EmbedTemplate.Logging.Truncation
import EmbedTemplate.Console.Fifo
import EmbedTemplate.Gpio.Hardware
import EmbedTemplate.Gpio.Interrupts
import EmbedTemplate.Thermal.Startup
import EmbedTemplate.Thermal.Safety
import EmbedTemplate.Thermal.Emergency
import EmbedTemplate.Thermal.Explicit
import EmbedTemplate.Thermal.RoundTrip
import EmbedTemplate.Thermal.Physics
import EmbedTemplate.Thermal.Watchdog
import EmbedTemplate.Time.Nesting
import EmbedTemplate.Time.BootOffset
import EmbedTemplate.Time.MachineTimer
import EmbedTemplate.Cli.MenuNames
import EmbedTemplate.Cli.History
import EmbedTemplate.Cli.Engine
import EmbedTemplate.Cli.Batches
import EmbedTemplate.Cli.LineEditing
import EmbedTemplate.Cli.SetLog
import EmbedTemplate.Cli.SimArguments
import EmbedTemplate.Cli.NameTables
import EmbedTemplate.Cli.Bindings
import EmbedTemplate.Cli.MiniCli
import EmbedTemplate.Library.LinearProbe
import EmbedTemplate.Interrupt.Dispatch
import EmbedTemplate.Pci.Restore
import EmbedTemplate.Pci.Enumeration
import EmbedTemplate.Pci.MsiDelivery
import EmbedTemplate.Pci.Windows
import EmbedTemplate.Pci.Capabilities
import EmbedTemplate.Pci.MsiCapability
import EmbedTemplate.Pci.BarRecords
import EmbedTemplate.Pci.Untrusted
import EmbedTemplate.Pci.BridgeWindows
import EmbedTemplate.Vfio.Reassembly
import EmbedTemplate.Secure.Mpc
import EmbedTemplate.Profiler.Windows
import EmbedTemplate.Profiler.Entries
import EmbedTemplate.Profiler.Lookup
import EmbedTemplate.Cli.Dialogue
import EmbedTemplate.Cli.Offers
import EmbedTemplate.Cli.Completions
import EmbedTemplate.Cli.Confined
import EmbedTemplate.Cli.Overflow
import EmbedTemplate.Cli.Display

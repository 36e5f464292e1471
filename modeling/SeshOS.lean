import SeshOS.Base.Layout
import SeshOS.Base.Run
import SeshOS.Libc.Order
import SeshOS.Libc.Search
import SeshOS.Memory.Malloc
import SeshOS.Memory.Ledger
import SeshOS.Memory.Integrity
import SeshOS.Memory.Reuse
import SeshOS.Memory.Region
import SeshOS.Memory.FirstFit
import SeshOS.Memory.Footprint
import SeshOS.Memory.Totals
import SeshOS.Memory.Walk
import SeshOS.Video.SgrList
import SeshOS.Video.FinalByte
import SeshOS.Video.Overlong
import SeshOS.Video.LogLine
import SeshOS.Video.Screen
import SeshOS.Video.Erasing
import SeshOS.Video.Drawing
import SeshOS.UserInput.Buffer
import SeshOS.UserInput.Interrupts
import SeshOS.Fs.Octal
import SeshOS.Fs.Search
import SeshOS.Fs.Malformed
import SeshOS.Fs.Headers
import SeshOS.Fs.Listing
import SeshOS.Boot.CheckLoader
import SeshOS.Serial.Comout
import SeshOS.Idt.Entries
import SeshOS.Rtc.Sleep
import SeshOS.Pci.Calls
import SeshOS.Pci.Describe
import SeshOS.Acpi.Init
import SeshOS.Disks.PortTable
import SeshOS.Disks.Handshake
import SeshOS.Disks.Command
import SeshOS.Disks.Await
import SeshOS.Disks.Tables
import SeshOS.Printf.Stream
import SeshOS.Printf.Unbounded
import SeshOS.Printf.Standard
import SeshOS.Printf.Terminated
import SeshOS.Printf.Callers
import SeshOS.Pci.Line
import SeshOS.Idt.Delivery

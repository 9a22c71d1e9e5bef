import Punkos.Foundation.Run
import Punkos.Memory.FrameAllocator
import Punkos.Foundation.RadixTree
import Punkos.Memory.PageTable
import Punkos.Memory.HeapInit
import Punkos.Memory.Mapper
import Punkos.Xhci.CommandRing
import Punkos.Xhci.EventRing
import Punkos.Xhci.Driver
import Punkos.Xhci.DmaLayout
import Punkos.Xhci.Ports
import Punkos.Xhci.BringUp
import Punkos.Boot.KernelMain
import Punkos.Interrupts.Preemption
import Punkos.Foundation.BoundedQueue
import Punkos.Keyboard.Delivery
import Punkos.Memory.Enumeration
import Punkos.Memory.PageWalk
import Punkos.Keyboard.Shift
import Punkos.Pci.Config
import Punkos.Pci.Scan
import Punkos.Foundation.Command
import Punkos.Xhci.Observed
import Punkos.Xhci.Lifecycle
import Punkos.Xhci.Discipline
import Punkos.Xhci.Interrupter
import Punkos.Xhci.StopReset
import Punkos.Foundation.Overlay
import Punkos.Render.Framebuffer
import Punkos.Render.Canvas
import Punkos.Render.Animation
import Punkos.Foundation.Lap
import Punkos.Xhci.RingHistory
import Punkos.Keyboard.Overflow
import Punkos.Xhci.Alignment
import Punkos.Xhci.Registers
import Punkos.Keyboard.Extended
import Punkos.Pci.BarLayout
import Punkos.Pci.BarRange
import Punkos.Foundation.Cancellation
import Punkos.Keyboard.ReadLine
import Punkos.Render.Disc
import Punkos.Interrupts.Atomic
import Punkos.Interrupts.Readers
import Punkos.Keyboard.Typist
import Punkos.Render.Screen
import Punkos.Serial.Uart
import Punkos.Boot.Choice
import Punkos.Interrupts.Service
import Punkos.Xhci.PortSessions
import Punkos.Memory.FrameBudget
import Punkos.Pci.Bridge
import Punkos.Memory.OffsetWalk
import Punkos.Interrupts.Timer
import Punkos.Xhci.Simulation
import Punkos.Xhci.Addresses
import Punkos.Interrupts.Response
import Punkos.Interrupts.Liveness
import Punkos.Xhci.Straddling

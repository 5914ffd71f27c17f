import ShipOS.Lib.ByteMem
import ShipOS.Lib.Runs
import ShipOS.Lib.Pointers
import ShipOS.Memory.Layout
import ShipOS.Memory.Kalloc
import ShipOS.Memory.AllocRuns
import ShipOS.Memory.WholePages
import ShipOS.Paging.Entry
import ShipOS.Paging.Code
import ShipOS.Paging.Tables
import ShipOS.Paging.Walk
import ShipOS.Lib.Cache
import ShipOS.Paging.Space
import ShipOS.Paging.Ranges
import ShipOS.Paging.Refinement
import ShipOS.Paging.Rollback
import ShipOS.Sched.Threads
import ShipOS.Sched.Code
import ShipOS.Sched.Queues
import ShipOS.Sched.Calls
import ShipOS.Sched.RunQueues
import ShipOS.Sched.Exclusion
import ShipOS.Lib.Scheduling
import ShipOS.Sched.Bypass
import ShipOS.Sched.Context
import ShipOS.Sched.Create
import ShipOS.Sched.Resume
import ShipOS.Sync.Handoff
import ShipOS.Sync.LockSafety
import ShipOS.Apic.Madt
import ShipOS.Paging.Codec
import ShipOS.Sched.BringUp
import ShipOS.Smp.Percpu
import ShipOS.Smp.Stacks
import ShipOS.Smp.Startup
import ShipOS.Lib.Text
import ShipOS.Tty.Directives
import ShipOS.Tty.Printf
import ShipOS.Tty.Terminals
import ShipOS.Apic.IoApic
import ShipOS.Boot.Handover
import ShipOS.Sched.Legacy
import ShipOS.Sched.Processes
import ShipOS.Serial.Ports
import ShipOS.Smp.Processors
import ShipOS.Sched.Balance
import ShipOS.Sched.Exhaustion
import ShipOS.Sched.RingQueues
import ShipOS.Sync.LockWord
import ShipOS.Apic.MadtTable
import ShipOS.Acpi.Tables
import ShipOS.Apic.MadtReads
import ShipOS.Tty.Digits
import ShipOS.Tty.Fields
import ShipOS.Tty.Scanner
import ShipOS.Tty.Layout
import ShipOS.Apic.Redirection
import ShipOS.Paging.Frame
import ShipOS.Acpi.Lookup
import ShipOS.Acpi.Relocation
import ShipOS.Paging.Tlb
import ShipOS.Sync.Sections
import ShipOS.Sync.KernelSections
import ShipOS.Serial.Lines
import ShipOS.Interrupts.Idt
import ShipOS.Interrupts.Exceptions
import ShipOS.Interrupts.Delivery
import ShipOS.Smp.Gdt
import ShipOS.Smp.CpuStacks
import ShipOS.Smp.StartupCpu
import ShipOS.Smp.Trampoline
import ShipOS.Memory.KallocRace
import ShipOS.Sched.Pages
import ShipOS.Kernel.Clients
import ShipOS.Kernel.Sharing
import ShipOS.Lib.Sentinel
import ShipOS.List.Circular
import ShipOS.Boot.Start

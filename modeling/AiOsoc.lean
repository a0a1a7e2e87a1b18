import AiOsoc.Clocked
import AiOsoc.Npc.Sequential
import AiOsoc.Npc.Transactions
import AiOsoc.Npc.Progress
import AiOsoc.Npc.Memory
import AiOsoc.Npc.Legal
import AiOsoc.Npc.Safety
import AiOsoc.Npc.Transfer
import AiOsoc.Npc.DataCommit
import AiOsoc.Npc.Counters
import AiOsoc.Npc.Handshake
import AiOsoc.Npc.Machine
import AiOsoc.Nemu.Access
import AiOsoc.Nemu.Refine
import AiOsoc.Nemu.Muldiv
import AiOsoc.Difftest.Harness
import AiOsoc.Difftest.History
import AiOsoc.Difftest.Registers
import AiOsoc.Sim.LocalBus
import AiOsoc.Sim.System
import AiOsoc.Sim.Uart
import AiOsoc.Klib.Field
import AiOsoc.Klib.Bounds
import AiOsoc.Klib.Strto
import AiOsoc.Klib.Subject
import AiOsoc.Klib.Heap
import AiOsoc.Klib.Rand
import AiOsoc.Klib.Int64
import AiOsoc.Klib.String
import AiOsoc.Am.Timer
import AiOsoc.Am.Threads
import AiOsoc.Am.Libgcc
import AiOsoc.Minirv.Simulation
import AiOsoc.Npc.Routines

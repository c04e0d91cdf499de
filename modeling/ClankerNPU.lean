import ClankerNPU.EagleTx.Buffers
import ClankerNPU.EagleTx.Room
import ClankerNPU.EagleRx.Conservation
import ClankerNPU.EagleRx.Splice
import ClankerNPU.EagleRx.Restarted
import ClankerNPU.Kite.Whole
import ClankerNPU.Kite.Pipeline
import ClankerNPU.Kite.Classify
import ClankerNPU.Kite.Late
import ClankerNPU.Kite.Opening
import ClankerNPU.Kite.Select
import ClankerNPU.Kite.Window
import ClankerNPU.Kite.Keeps
import ClankerNPU.Kite.Bar
import ClankerNPU.Kite.Filled
import ClankerNPU.Kite.Bytes
import ClankerNPU.Kite.Moored
import ClankerNPU.Kite.ChainRuns
import ClankerNPU.Kite.Sheds
import ClankerNPU.Kite.Nodes
import ClankerNPU.Kite.Orderly
import ClankerNPU.Kite.EntryRuns
import ClankerNPU.Kite.Flows
import ClankerNPU.Kite.Delivered
import ClankerNPU.Kite.RxRuns
import ClankerNPU.Kite.RxSlots
import ClankerNPU.Kite.Ledger
import ClankerNPU.Kite.Conserved
import ClankerNPU.Kite.Segments
import ClankerNPU.Kite.Drain
import ClankerNPU.EagleRx.Fifo
import ClankerNPU.EagleRx.Fast
import ClankerNPU.EagleRx.Generation
import ClankerNPU.EagleRx.RefillOrder
import ClankerNPU.Bufid.Batch
import ClankerNPU.StaQ.Probe
import ClankerNPU.StaQ.Limit
import ClankerNPU.StaQ.Resume
import ClankerNPU.Tunnel.FragmentV6
import ClankerNPU.Tunnel.Lengths
import ClankerNPU.Tunnel.Credit
import ClankerNPU.Tunnel.Templates
import ClankerNPU.Tunnel.Checksum
import ClankerNPU.Tunnel.Endpoint
import ClankerNPU.Tunnel.Reassembly
import ClankerNPU.L4s.Mark
import ClankerNPU.Dba.Terminated
import ClankerNPU.Dba.Fec
import ClankerNPU.Dba.NewDba
import ClankerNPU.Dba.Settle
import ClankerNPU.Dba.Cap
import ClankerNPU.Dba.Fair
import ClankerNPU.Dba.Fit
import ClankerNPU.Dba.Geometry
import ClankerNPU.Dba.Bursts
import ClankerNPU.Dba.Placed
import ClankerNPU.Dba.TwoFrameMap
import ClankerNPU.Hostadpt.Chain
import ClankerNPU.Tdma.Submit
import ClankerNPU.Mbox.Dispatch
import ClankerNPU.HostMail.Tables
import ClankerNPU.Lib.LinkedList
import ClankerNPU.Hart0.Mutex
import ClankerNPU.Sram.Alloc
import ClankerNPU.StaQ.Isqrt
import ClankerNPU.EagleTx.Search
import ClankerNPU.Dba.Sort
import ClankerNPU.Kite.Frame
import ClankerNPU.EagleRx.Segments
import ClankerNPU.Console.Commands
import ClankerNPU.Console.Printf

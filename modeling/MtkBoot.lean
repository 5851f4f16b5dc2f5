import MtkBoot.Lmb.Sound
import MtkBoot.Lmb.Normal
import MtkBoot.Lmb.Fixed
import MtkBoot.Mdump.Payload
import MtkBoot.Nmbm.Restore
import MtkBoot.Nmbm.Header
import MtkBoot.Nmbm.Content
import MtkBoot.Bsp.Run
import MtkBoot.Env.Walk
import MtkBoot.Uart.Agree
import MtkBoot.Http.Reassembly
import MtkBoot.Http.Exclusion
import MtkBoot.Spmc.Accepted
import MtkBoot.Spmc.Borrow
import MtkBoot.Spmc.Version
import MtkBoot.Psci.EntryPoint
import MtkBoot.Psci.OsInit
import MtkBoot.Fwu.Authentic
import MtkBoot.Bmt.Survive
import MtkBoot.Tcp.Transmit
import MtkBoot.Fip.Bounds
import MtkBoot.Xlat.Dynamic
import MtkBoot.Env.Redundant
import MtkBoot.Mtd.Bl2
import MtkBoot.Mtd.Boot
import MtkBoot.Mtd.Range
import MtkBoot.Bmt.Bbt
import MtkBoot.Http.Wget
import MtkBoot.Net.Reassembly
import MtkBoot.Bloblist.Refine
import MtkBoot.Bloblist.Received
import MtkBoot.Tftp.Shift
import MtkBoot.Lmb.Free
import MtkBoot.Ubi.Calls
import MtkBoot.Uart.Handshake
import MtkBoot.Image.Untar
import MtkBoot.Image.DualBoot

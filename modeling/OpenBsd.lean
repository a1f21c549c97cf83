import OpenBsd.Boot.GptAgree
import OpenBsd.Boot.MbrAgree
import OpenBsd.Crypto.Idgen
import OpenBsd.Dev.Softraid
import OpenBsd.Dev.SoftraidRaid5Run
import OpenBsd.Dev.SoftraidRaid6Run
import OpenBsd.Efiboot.EfidIo
import OpenBsd.Efiboot.EfidevScan
import OpenBsd.Efiboot.Getsecs
import OpenBsd.Efiboot.MemprobeOrder
import OpenBsd.Gdisk.Edit
import OpenBsd.Kern.ExtentBestFit
import OpenBsd.Kern.ExtentDescriptors
import OpenBsd.Kern.KernBufq
import OpenBsd.Kern.KernDescripRun
import OpenBsd.Kern.KernTime
import OpenBsd.Kern.LockfCount
import OpenBsd.Kern.RwlockSafe
import OpenBsd.Kern.SubrDiskGpt
import OpenBsd.Kern.SubrDiskSpoof
import OpenBsd.Kern.SubrDiskUid
import OpenBsd.Kern.SubrPoolRun
import OpenBsd.Kern.SysPipeSafe
import OpenBsd.Kern.SysvSemClear
import OpenBsd.Kern.SysvSemSleep
import OpenBsd.Kern.TimeoutWheel
import OpenBsd.Kern.TtySubrNdqb
import OpenBsd.Kern.TtySubrRun
import OpenBsd.Kern.UipcMbufSafe
import OpenBsd.Kern.UipcSocket2Bytes
import OpenBsd.Kern.UipcUsrreqGc
import OpenBsd.Msdosfs.MsdosfsBmap
import OpenBsd.Msdosfs.MsdosfsConvSafe
import OpenBsd.Msdosfs.MsdosfsFatFind
import OpenBsd.Msdosfs.MsdosfsTime
import OpenBsd.Net.ArtLookup
import OpenBsd.Net.ArtReclaim
import OpenBsd.Net.ArtWalk
import OpenBsd.Net.BpfChain
import OpenBsd.Net.PfAnchor
import OpenBsd.Net.PfAnchorRuleSafe
import OpenBsd.Net.PfFragPurge
import OpenBsd.Net.PfReass6Header
import OpenBsd.Net.PfReass6Overlap
import OpenBsd.Net.PfStateRun
import OpenBsd.Netinet.InCksum
import OpenBsd.Netinet.IpEspAccept
import OpenBsd.Netinet.IpFragmentReass
import OpenBsd.Netinet.IpId
import OpenBsd.Netinet.IpReassEcn
import OpenBsd.Netinet.TcpReassSafe
import OpenBsd.Netinet.TcpSackSafe
import OpenBsd.Sys.TreeWalk
import OpenBsd.Ufs.FfsAllocSafe
import OpenBsd.Ufs.UfsBmapPath
import OpenBsd.Uvm.AmapSafe

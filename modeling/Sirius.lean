import Sirius.Zfs.RaidzRepair
import Sirius.Zfs.MetaslabRuns
import Sirius.Zfs.RangeLockRuns
import Sirius.Zfs.Rrwlock
import Sirius.Zfs.Txg
import Sirius.Zfs.Lzjb
import Sirius.Dtrace.Stddev
import Sirius.Dtrace.SpeculationSafety
import Sirius.Dtrace.DifArith
import Sirius.Dtrace.Canstore
import Sirius.Dtrace.DifVars
import Sirius.Common.AvlRuns
import Sirius.Common.AvlDestroy
import Sirius.Dtrace.DofSafety
import Sirius.Zfs.DslDir
import Sirius.Zfs.DnodeRanges
import Sirius.Zfs.Bplist
import Sirius.Zfs.DnodeRuns
import Sirius.Zfs.ZilClaim
import Sirius.Zfs.ZilReplay
import Sirius.Zfs.ZilDurable
import Sirius.Zfs.DslAccounting
import Sirius.S390x.CrossCall
import Sirius.S390x.HatKey
import Sirius.S390x.BootDatMap
import Sirius.Zfs.DmuRecvHostile
import Sirius.S390x.BootMemlist
import Sirius.S390x.HatUnload
import Sirius.Inet.SackBlocks
import Sirius.Dtrace.Lquantize
import Sirius.Zfs.MetaslabFirstFit
import Sirius.Zfs.MzapUpgrade

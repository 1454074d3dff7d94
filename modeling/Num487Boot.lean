import Num487Boot.Invariants
import Num487Boot.RequestResponse
import Num487Boot.Session
import Num487Boot.StaleBytes
import Num487Boot.Documented
import Num487Boot.ProgrammingPaths
import Num487Boot.NorChip
import Num487Boot.W25q128jv
import Num487Boot.IdleChip
import Num487Boot.Lib.Simulation
import Num487Boot.LfsPort
import Num487Boot.Gating
import Num487Boot.Resync
import Num487Boot.UpdateWindow
import Num487Boot.PageBounds
import Num487Boot.ReadBack
import Num487Boot.BootRelease
import Num487Boot.BusTraffic
import Num487Boot.WriteEnable
import Num487Boot.SectorTransfer
import Num487Boot.BlockTransfer
import Num487Boot.PageTransfer
import Num487Boot.LineFaults
import Num487Boot.Verify
import Num487Boot.EraseAll
import Num487Boot.LfsUtil
import Num487Boot.Lib.LittleEndian
import Num487Boot.LfsBlock
import Num487Boot.LfsCache
import Num487Boot.LfsFilling
import Num487Boot.LfsLogs
import Num487Boot.LfsOnChip
import Num487Boot.LfsCtz
import Num487Boot.LfsFileRead
import Num487Boot.LfsAlloc
import Num487Boot.Lib.Wheel
import Num487Boot.Retries
import Num487Boot.Startup
import Num487Boot.FlashMemory
import Num487Boot.LfsTag
import Num487Boot.Lib.Yields
import Num487Boot.LfsDir
import Num487Boot.LfsDirFetch
import Num487Boot.LfsDirCached
import Num487Boot.LfsDirGet
import Num487Boot.LfsFsPred
import Num487Boot.LfsDirRead

import Pintos.Kernel.Hash
import Pintos.Kernel.Arithmetic
import Pintos.Kernel.Strings
import Pintos.FileSys.CacheRace
import Pintos.FileSys.Shown
import Pintos.FileSys.MapOnDisk
import Pintos.FileSys.DirMap
import Pintos.FileSys.AllocRace
import Pintos.FileSys.OpenRace
import Pintos.FileSys.Deferred
import Pintos.FileSys.FileRuns
import Pintos.FileSys.FailedCreate
import Pintos.FileSys.Names
import Pintos.FileSys.Chdir
import Pintos.FileSys.Shutdown
import Pintos.Devices.IntqWait
import Pintos.Threads.Condition
import Pintos.Threads.Wakeup
import Pintos.Threads.Calloc
import Pintos.VM.SecondChance
import Pintos.VM.MapIds
import Pintos.VM.WriteBack
import Pintos.UserProg.FileCalls
import Pintos.UserProg.Lifecycle
import Pintos.UserProg.Pagedir
import Pintos.UserProg.Load

import QuarkOS.Drivers.Cmos
import QuarkOS.Drivers.Terminal
import QuarkOS.Fs.BlockLayers
import QuarkOS.Fs.Coherence
import QuarkOS.Fs.DirLayout
import QuarkOS.Fs.DirName
import QuarkOS.Fs.InodeTable
import QuarkOS.Fs.PageGet
import QuarkOS.Fs.PageRecycle
import QuarkOS.Fs.PathCopies
import QuarkOS.Fs.Reading
import QuarkOS.Fs.Rmdir
import QuarkOS.Fs.SuperBlock
import QuarkOS.Fs.Unwritten
import QuarkOS.Mm.BlockAlloc
import QuarkOS.Mm.Brk
import QuarkOS.Mm.Cow
import QuarkOS.Mm.Krealloc
import QuarkOS.Mm.PageFlags
import QuarkOS.Mm.Recycle
import QuarkOS.Mm.SlabRuns
import QuarkOS.Mm.TestAlloc
import QuarkOS.Task.Mutex
import QuarkOS.Task.Pids
import QuarkOS.Task.RwLock
import QuarkOS.Task.SleepStores
import QuarkOS.User.Malloc

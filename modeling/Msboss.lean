import Msboss.Bio.Lru
import Msboss.Fs.Bitmap
import Msboss.Fs.Decoded
import Msboss.Fss.Agreement
import Msboss.Fss.Progress
import Msboss.Fss.Records
import Msboss.Grep.Reading
import Msboss.Inodes.Dangling
import Msboss.Inodes.Links
import Msboss.Log.Crash
import Msboss.Log.Space
import Msboss.Log.Transactions
import Msboss.Malloc.Sizes
import Msboss.Mutex.Confined
import Msboss.Mutex.Unique
import Msboss.Ptable.Kill
import Msboss.Ptable.Sched
import Msboss.Sh.Exact
import Msboss.Strings.Memmove
import Msboss.Vm.Asking
import Msboss.Vm.ForkFail
import Msboss.Vm.Growth
import Msboss.Vm.Listing
import Msboss.Vm.References
import Msboss.Vm.Removal

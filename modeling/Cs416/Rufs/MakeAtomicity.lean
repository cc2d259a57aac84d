import Cs416.Rufs.NamespaceRuns
import Cs416.Rufs.Safety

/-!
# Failing `mkdir` and `create`

`rufs_mkdir` and `rufs_create` take an inode number before `dir_add` can refuse the name, and
nothing gives it back. So a failure leaves the disk alone exactly when it happens before: the
parent is missing or no directory, or there is no free inode. Once both are there, a name that
does not fit costs an inode bit, and in a full directory a data block as well.
-/

open ByteMem Scan Lts

namespace Rufs

section Failing

variable {s : Fs} {path : CPath} {mode : ℕ} {env : Env}

end Failing

end Rufs

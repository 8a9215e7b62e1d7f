/-
  Entangle.Port.Error — `PortError` of entangle/src/error.rs, and what the
  errors of entangle-transport/src/contracts.rs print.
-/
import Entangle.Transport.DataSegment

namespace Entangle.Port

open Entangle.Transport

/-- `PortError`, as far as the modelled functions return it. -/
inductive PortError where
  | loan (e : LoanError)
  | send (e : SendError)
  | receive (e : ReceiveError)
  deriving Repr, DecidableEq

end Entangle.Port

namespace Entangle.Transport

/-- What `Display` prints. -/
def LoanError.message : LoanError → String
  | .outOfMemory => "out of memory in data segment"
  | .exceedsMaxLoans max => s!"max loaned samples ({max}) exceeded"

def SendError.message : SendError → String
  | .connectionBroken => "connection broken: receiver no longer exists"
  | .queueFull => "receiver queue is full"

def ReceiveError.message : ReceiveError → String
  | .empty => "no data available"
  | .connectionBroken => "connection broken: sender no longer exists"

end Entangle.Transport

namespace Entangle.Port

def PortError.message : PortError → String
  | .loan e => s!"loan failed: {e.message}"
  | .send e => s!"send failed: {e.message}"
  | .receive e => s!"receive failed: {e.message}"

end Entangle.Port

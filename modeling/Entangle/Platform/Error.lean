/-
  Entangle.Platform.Error — `PlatformError` of entangle-platform/src/error.rs,
  as far as the modelled functions return it, and the texts the operating
  system gives for the errors they meet.
-/

namespace Entangle.Platform

inductive PlatformError where
  | sharedMemoryCreate (name reason : String)
  | sharedMemoryOpen (name reason : String)
  | mmap (reason : String)
  | fileLock (reason : String)
  | event (reason : String)
  | processMonitor (reason : String)
  deriving Repr, DecidableEq

/-- What `Display` prints. -/
def PlatformError.message : PlatformError → String
  | .sharedMemoryCreate name reason => s!"shared memory creation failed for '{name}': {reason}"
  | .sharedMemoryOpen name reason => s!"shared memory open failed for '{name}': {reason}"
  | .mmap reason => s!"mmap failed: {reason}"
  | .fileLock reason => s!"file lock error: {reason}"
  | .event reason => s!"event notification error: {reason}"
  | .processMonitor reason => s!"process monitor error: {reason}"

/-- `std::io::Error` for `ENOENT`. -/
def noSuchFile : String := "No such file or directory (os error 2)"

/-- `std::io::Error` for `EWOULDBLOCK`, which is `EAGAIN`. -/
def wouldBlock : String := "Resource temporarily unavailable (os error 11)"

end Entangle.Platform

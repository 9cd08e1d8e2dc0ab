/-! # Errors of the core library and of the driver -/

namespace Venom

inductive VnmError
  | authenticationFailed
  | containerNotFound (path : String)
  | containerAlreadyExists (path : String)
  | slotNotFound (slot : Nat)
  | corruptedSlot (slot : Nat) (reason : String)
  | invalidFormat (reason : String)
  | noSpaceLeft
  | cipherError (reason : String)
  | kdfError (reason : String)
  | io (reason : String)
  | serialization (reason : String)
  | alreadyMounted
  | notMounted
  | sizeTooSmall (minimum : Nat)
  | rollbackDetected (currentGen expectedGen : Nat)
  | merkleIntegrityFailure
  deriving DecidableEq, Repr

/-- The error codes of the FUSE driver. -/
inductive Errno
  | eexist
  | einval
  | eio
  | eisdir
  | enoent
  | enotempty
  | enotdir
  deriving DecidableEq, Repr

/-- How an operation of the driver fails to return `Ok`: with an error code, or by
    following an index chain that never ends. -/
inductive Failure
  | errno (code : Errno)
  | diverges
  deriving DecidableEq, Repr

/-- How a call that builds a container fails to return `Ok`: with an error, or by a panic. -/
inductive Fault
  | error (e : VnmError)
  | panic (message : String)
  deriving DecidableEq, Repr

end Venom

/-! # Layout of a container file

The file starts with two 512-byte headers and the recipient area; the data slots
follow at `dataAreaOffset`, 32 KB each.
-/

namespace Venom.Container

inductive CipherAlgorithm
  | xchacha20Poly1305
  | deoxysII256
  | serpent256
  | triple
  deriving DecidableEq, Repr

def headerSize : Nat := 512

def headerRegionSize : Nat := 1024

def slotSize : Nat := 32768

def maxPasswordSlots : Nat := 8

def maxKeySlots : Nat := 8

def x25519PkSize : Nat := 32

def ctSize : Nat := 1568

/-- The largest sealed 32-byte payload: Triple, with its 63-byte header and three tags. -/
def vnmbEncrypted32Max : Nat := 143

def pwSlotSize : Nat := 32 + 1 + vnmbEncrypted32Max

def keySlotSize : Nat := x25519PkSize + ctSize + vnmbEncrypted32Max

def recipientAreaSize : Nat := maxPasswordSlots * pwSlotSize + maxKeySlots * keySlotSize

/-- Byte offset of slot 0. -/
def dataAreaOffset : Nat := headerRegionSize + recipientAreaSize

end Venom.Container

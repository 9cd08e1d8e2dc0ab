import Venom.Storage.SlotIo
import Venom.Crypto.Plain

/-! # What is sealed is opened

Sealing a block lengthens it by the cipher's overhead, and opening it gives the plaintext
back, with one exception: the length check of the Triple decoder asks for a byte more than
the encoder of an empty plaintext writes.
-/

namespace Venom.Storage.SlotStore

open Venom.Container (CipherAlgorithm slotSize)
open Venom.Crypto
open Venom.Library
open Venom.Library.Words
open Venom.Library.StateError

variable {P : Primitives} {key : Key} {cipher : CipherAlgorithm} {aad plaintext block : List UInt8}
  {w w' : World}

/-- The Triple decoder refuses a block without ciphertext. -/
theorem decryptBlock_triple_short (h : block.length < nonceOffset + tripleNonceLen + 48 + 1) :
    decryptBlock P key .triple aad block = .error .authenticationFailed := by
  change decryptTriple P key aad block = _
  simp only [decryptTriple, checkVnmb, if_pos h]
  rfl

/-- A sealed block is opened exactly when it is not the empty one of Triple. -/
theorem decryptBlock_sealed_iff (h : (encryptBlock P key cipher aad plaintext).run w = .ok block w') :
    decryptBlock P key cipher aad block = .ok plaintext ↔ (cipher = .triple → plaintext ≠ []) := by
  obtain ⟨-, hlen, hdec⟩ := encryptBlock_ok h
  refine ⟨?_, hdec⟩
  rintro hopen rfl rfl
  have hshort : block.length < nonceOffset + tripleNonceLen + 48 + 1 := by
    rw [hlen]
    decide
  rw [decryptBlock_triple_short hshort] at hopen
  cases hopen

/-- The same of a slot that has been written. -/
theorem read_written_iff {slot : Nat} {s s' : OpenStore} {u : Unit}
    (h : (write P slot plaintext).run s = .ok u s') :
    s'.store.read P s'.world slot = .ok plaintext ↔ (s.store.cipher = .triple → plaintext ≠ []) := by
  obtain ⟨encrypted, v, henc, hfits, hwrite, hstore⟩ := write_sealed h
  obtain ⟨-, hlen, -⟩ := encryptBlock_ok henc
  obtain ⟨f, -, hw⟩ := writeBytesAt_ok hwrite
  have hge := vnmbOverhead_ge s.store.cipher
  have hslice : (f.write (slotOffset slot) (slotBytes encrypted)).slice (slotOffset slot) slotSize =
      slotBytes encrypted := by
    have hself := ByteFile.slice_write_self (slotOffset slot) (slotBytes encrypted) f
    rwa [length_slotBytes hfits] at hself
  have hfile : s'.world.file = some (f.write (slotOffset slot) (slotBytes encrypted)) := by
    rw [hw]
    rfl
  have hinside : slotOffset slot + slotSize ≤
      (f.write (slotOffset slot) (slotBytes encrypted)).size := by
    rw [ByteFile.size_write, length_slotBytes hfits]
    exact Nat.le_max_right _ _
  rw [← decryptBlock_sealed_iff henc, read_eq_ok hfile, Holds, hslice, and_iff_right hinside,
    @openSlot_congr _ s.store _ (by rw [hstore]) (by rw [hstore]),
    openSlot_slotBytes_eq (by omega) hfits]
  cases decryptBlock P (s.store.deriveSlotKey P slot) s.store.cipher (littleEndian 8 slot) encrypted <;>
    simp [Except.mapError]

/-- Encryption succeeds below the ciphers' length limit; what it returns is opened again, by
    the block decoder and in a slot, unless it is the empty plaintext under Triple. -/
theorem vnmb_round_trip (P : Primitives) (key : Key) (cipher : CipherAlgorithm)
    (aad plaintext : List UInt8) :
    (∀ w, plaintext.length + aad.length + 32 < 2 ^ 36 →
      ∃ block w', (encryptBlock P key cipher aad plaintext).run w = .ok block w') ∧
    (∀ w block w', (encryptBlock P key cipher aad plaintext).run w = .ok block w' →
      block.length = vnmbOverhead cipher + plaintext.length ∧
        (decryptBlock P key cipher aad block = .ok plaintext ↔
          (cipher = .triple → plaintext ≠ []))) ∧
    ∀ slot s s', s.store.cipher = cipher → (write P slot plaintext).run s = .ok () s' →
      (s'.store.read P s'.world slot = .ok plaintext ↔ (cipher = .triple → plaintext ≠ [])) := by
  refine ⟨fun w hlen => encryptBlock_isOk hlen, fun w block w' h => ?_, fun slot s s' hcipher h => ?_⟩
  · exact ⟨(encryptBlock_ok h).2.1, decryptBlock_sealed_iff h⟩
  · rw [← hcipher]
    exact read_written_iff h

/-- The empty plaintext, sealed with Triple and not opened again. -/
theorem vnmb_round_trip_empty : ∃ w block w',
    (encryptBlock plain (toBytes 32 []) .triple [] []).run w = .ok block w' ∧
      decryptBlock plain (toBytes 32 []) .triple [] block ≠ .ok [] := by
  obtain ⟨block, w', henc⟩ := @encryptBlock_isOk plain (toBytes 32 []) .triple [] []
    { path := "vault", file := none, issued := [], rollback := .empty, rng := fun _ => 7, now := 0 }
    (by decide)
  exact ⟨_, block, w', henc, fun hdec => (decryptBlock_sealed_iff henc).mp hdec rfl rfl⟩

end Venom.Storage.SlotStore

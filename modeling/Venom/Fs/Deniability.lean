import Venom.Fs.NewFile

/-! # Deniability of the file image

Could an image with a hidden volume have come from a `create` without one?  The length of
the file gives the answer away: the tail behind the last slot is 1024 bytes with a hidden
volume and 512 without.
-/

namespace Venom.Fs

open Venom.Container
open Venom.Crypto
open Venom.Storage
open Venom.Library
open Venom.Library.StateError

variable {P : Primitives}

/-- Some size and some outcome of the random fill make `create` without a hidden volume
    return an image of the same length with the same bytes in `[512, 1024)` and in the
    hidden data slots. -/
def Deniable (P : Primitives) (outerPassword : List UInt8) (cipher : CipherAlgorithm)
    (kdfProfile : String) (label : Option String) (lay : Layout) (f : ByteFile) : Prop :=
  ∃ (totalSizeBytes : UInt64) (w w' : World) (m : VnmContainer) (g : ByteFile),
    (create P outerPassword totalSizeBytes cipher kdfProfile label none).run w = .ok m w' ∧
      w'.file = some g ∧ g.size = f.size ∧ ByteFile.AgreeOn 512 512 g f ∧
      ∀ s, lay.Has (.hiddenSlot s) → ByteFile.AgreeOn (slotOffset s) slotSize g f

section Length

variable {outerPassword : List UInt8} {totalSizeBytes : UInt64} {cipher : CipherAlgorithm}
  {kdfProfile : String} {label : Option String} {hidden : Option HiddenVolumeOptions}
  {w w' : World} {m : VnmContainer} {f : ByteFile}

/-- The length of a new file is the data area's offset and the tail, modulo the slot size. -/
theorem size_mod (h : (create P outerPassword totalSizeBytes cipher kdfProfile label hidden).run w =
    .ok m w') (hf : w'.file = some f) :
    f.size % slotSize = (dataAreaOffset + if hidden.isSome then 1024 else 512) % slotSize := by
  obtain ⟨b, hc⟩ := create_ok h
  cases hf.symm.trans hc.file_eq
  have htail := hc.sizes.tail_eq
  have hfile := hc.sizes.fileSize
  rw [hc.hasHidden] at htail
  rw [hc.size, hfile, htail, Nat.add_right_comm, Nat.add_mul_mod_self_right]

/-- Two new files of one length both have a hidden volume, or neither has. -/
theorem hidden_of_size_eq {password' : List UInt8} {total' : UInt64} {cipher' : CipherAlgorithm}
    {profile' : String} {label' : Option String} {hidden' : Option HiddenVolumeOptions}
    {v v' : World} {m' : VnmContainer} {g : ByteFile}
    (h : (create P outerPassword totalSizeBytes cipher kdfProfile label hidden).run w = .ok m w')
    (hf : w'.file = some f)
    (h' : (create P password' total' cipher' profile' label' hidden').run v = .ok m' v')
    (hg : v'.file = some g) (hsize : g.size = f.size) : hidden'.isSome = hidden.isSome := by
  have hmod := size_mod h hf
  have hmod' := size_mod h' hg
  rw [hsize, hmod] at hmod'
  cases hh : hidden.isSome with
  | false =>
    cases hh' : hidden'.isSome with
    | false => rfl
    | true => rw [hh, hh'] at hmod'; exact absurd hmod' (by decide)
  | true =>
    cases hh' : hidden'.isSome with
    | false => rw [hh, hh'] at hmod'; exact absurd hmod' (by decide)
    | true => rfl

/-- A container with a hidden volume is never deniable. -/
theorem hidden_never_deniable {opts : HiddenVolumeOptions} {lay : Layout}
    (h : (create P outerPassword totalSizeBytes cipher kdfProfile label (some opts)).run w = .ok m w')
    (hf : w'.file = some f) : ¬ Deniable P outerPassword cipher kdfProfile label lay f := by
  rintro ⟨total, v, v', m', g, hcreate, hg, hsize, -, -⟩
  cases hidden_of_size_eq h hf hcreate hg hsize

end Length

/-! ## A container with a hidden volume -/

def hiddenOptions : HiddenVolumeOptions where
  password := [2]
  sizeBytes := 70000
  label := none
  kdfProfile := "interactive"

/-- A million bytes, 70000 of them for a hidden volume. -/
theorem create_hidden_isOk : ∃ m w', (create plain [1] 1000000 .xchacha20Poly1305 "interactive" none
    (some hiddenOptions)).run (freePath 7) = .ok m w' := by
  refine create_isOk rfl
    (show layout 1000000 (some 70000) = .ok ⟨26, 3, 1024, 967672⟩ from rfl)
    (fun _ => plain_hasKeys _ _) (by decide) ?_
  rintro h ⟨⟩
  exact ⟨plain_hasKeys _ _, by decide, by decide⟩

theorem hidden_never_deniable_million :
    ∃ m w' f, (create plain [1] 1000000 .xchacha20Poly1305 "interactive" none
        (some hiddenOptions)).run (freePath 7) = .ok m w' ∧ w'.file = some f ∧
      ¬ Deniable plain [1] .xchacha20Poly1305 "interactive" none ⟨26, 3, 1024, 967672⟩ f := by
  obtain ⟨m, w', hcreate⟩ := create_hidden_isOk
  obtain ⟨b, hc⟩ := create_ok hcreate
  exact ⟨m, w', _, hcreate, hc.file_eq, hidden_never_deniable hcreate hc.file_eq⟩

/-- Not every container with a hidden volume is deniable. -/
theorem hidden_revealed_by_length : ¬ ∀ (P : Primitives) (outerPassword : List UInt8)
    (totalSizeBytes : UInt64) (cipher : CipherAlgorithm) (kdfProfile : String)
    (label : Option String) (opts : HiddenVolumeOptions) (lay : Layout) (w w' : World)
    (m : VnmContainer) (f : ByteFile), layout totalSizeBytes (some opts.sizeBytes) = .ok lay →
    (create P outerPassword totalSizeBytes cipher kdfProfile label (some opts)).run w = .ok m w' →
    w'.file = some f → Deniable P outerPassword cipher kdfProfile label lay f := by
  intro h
  obtain ⟨m, w', hcreate⟩ := create_hidden_isOk
  obtain ⟨b, hc⟩ := create_ok hcreate
  obtain ⟨total, v, v', m', g, hcreate', hg, hsize, -, -⟩ :=
    h plain [1] 1000000 .xchacha20Poly1305 "interactive" none hiddenOptions ⟨26, 3, 1024, 967672⟩
      (freePath 7) w' m _ rfl hcreate hc.file_eq
  cases hidden_of_size_eq hcreate hc.file_eq hcreate' hg hsize

end Venom.Fs

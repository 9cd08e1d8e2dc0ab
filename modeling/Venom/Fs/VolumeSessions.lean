import Venom.Fs.ClientRuns
import Venom.Fuse.FullVolume

/-! # Sessions on a container

A container that `create` has made is mounted, serves requests, and is flushed and opened again.
All the while it is the volume of its header, so a mount finds what the last flush saved: such a
session is a trace of a file system.
-/

namespace Venom.Fs

open Venom.Container
open Venom.Crypto
open Venom.Storage
open Venom.Storage.SlotStore
open Venom.Fuse
open Venom.Library
open Venom.Library.StateError

variable {P : Primitives}

/-- An outer volume comes back from a flush and an `open`. -/
def OuterHeader.medium (H : OuterHeader P) : Medium (OuterVolume H) where
  remount v v' := Remounts v.plain v'.plain
  reopens {v v'} hfree hremount := by
    have hplain : FreeOk v.plain := ⟨hfree.nodup, hfree.dataSlot⟩
    have hre := hremount.reopens v.2 hplain
    exact ⟨Restricted.sameVolume hre.same, hre.nodes, hre.free⟩

section Created

variable {outerPassword : List UInt8} {totalSizeBytes : UInt64} {cipher : CipherAlgorithm}
  {kdfProfile : String} {label : Option String} {hidden : Option HiddenVolumeOptions}
  {w w' : World} {m : VnmContainer} {b : Blocks}

theorem Created.outerVolume_formatted {H : OuterHeader P} {v : OuterVolume H}
    (h : Created P outerPassword totalSizeBytes cipher kdfProfile label hidden w m w' b)
    (hv : v.plain = h.volume) : Formatted v outerRootSlot := by
  obtain ⟨hdata, hroot, hfree, hnodup⟩ := h.formatted
  rw [← hv] at hdata hroot hfree hnodup
  exact ⟨hdata, hroot, hfree, hnodup⟩

/-- Every session on a container that `create` has made is a trace of a file system, and the
    container that it leads to stands for the file system that the trace leads to. -/
theorem container_session_refines
    (hcreate : (create P outerPassword totalSizeBytes cipher kdfProfile label hidden).run w = .ok m w')
    (hid : m.containerId ≠ zeroId) (honly : OneHeader P m w') :
    ∃ (H : OuterHeader P) (v : OuterVolume H), v.plain.mounted = { container := m, world := w' } ∧
      ∀ events s, Session H.medium m.rootSlot.toNat v events s → ∃ A bytes own,
        FileSystem.Trace events A ∧ StandsFor m.rootSlot.toNat s A bytes own := by
  obtain ⟨b, h⟩ := create_ok hcreate
  refine ⟨h.outerHeader hid honly, h.outerVolume hid honly, rfl, fun events s hs => ?_⟩
  rw [h.rootSlot] at hs ⊢
  exact hs.refines (h.outerVolume_formatted rfl)

/-- The client of a new container makes a directory through the driver. -/
theorem Client.Inv.mkdir {H : OuterHeader P} {v : OuterVolume H} {s : VenomFuse (OuterVolume H)}
    {name : String} {reply : Reply} {ords : Orders}
    (h : Created P outerPassword totalSizeBytes cipher kdfProfile label hidden w m w' b)
    (hinv : Client.Inv b.lay m.kMaster (newPayload b cipher w outerPassword kdfProfile label)
      (.new h.volume outerPassword)) (hv : v.plain = h.volume)
    (hrun : ((Request.mkdir 1 (some name)).serve ords).run (VenomFuse.new outerRootSlot v) = .ok reply s) :
    s.openFiles.keys = [] ∧ ∃ C, Client.Inv b.lay m.kMaster
      (newPayload b cipher w outerPassword kdfProfile label) ⟨s.container.plain, C, .created outerPassword⟩ := by
  obtain ⟨hopen, slot, c, n, hwrite, hupdate⟩ := mkdir_calls (p := outerRootSlot) rfl hrun
  refine ⟨by rw [hopen]; rfl, ?_⟩
  have hwrite' : (NodeStore.writeNode emptyDir).run h.volume = .ok slot c.plain := by
    rw [← hv]
    exact onSubtype_ok.mp hwrite
  have hupdate' : (NodeStore.updateNode outerRootSlot n).run c.plain = .ok () s.container.plain :=
    onSubtype_ok.mp hupdate
  have hstep : Client.Step (.new h.volume outerPassword) ⟨c.plain, _, .created outerPassword⟩ :=
    .called (.wrote hwrite')
  have hinv₁ := hinv.step h.sizes rfl hstep
  have hheld : Function.update (Client.new h.volume outerPassword).contents slot (some emptyDir)
      outerRootSlot ≠ none := by
    by_cases heq : outerRootSlot = slot
    · rw [heq, Function.update_self]
      exact Option.some_ne_none _
    · rw [Function.update_of_ne heq, Client.root_new]
      exact Option.some_ne_none _
  have hstep' : Client.Step ⟨c.plain, _, .created outerPassword⟩ ⟨s.container.plain, _, .created outerPassword⟩ :=
    .called (.updated hheld hupdate')
  exact ⟨_, hinv₁.step h.sizes rfl hstep'⟩

/-- A directory is made in a container of 30 slots, which is saved and opened again. -/
theorem container_session_refines_million : ∃ (m : VnmContainer) (w' : World) (H : OuterHeader plain)
    (v : OuterVolume H) (reply : Reply) (s : VenomFuse (OuterVolume H)) (A : FileSystem)
    (bytes : Nat → List UInt8) (own : Nat → List Nat),
    (create plain [1] 1000000 .xchacha20Poly1305 "interactive" (some "vault") none).run (freePath 7) =
      .ok m w' ∧ v.plain.mounted = { container := m, world := w' } ∧
    Session H.medium m.rootSlot.toNat v [.served (.mkdir 1 (some "letters")) reply, .mounted] s ∧
      FileSystem.Trace [.served (.mkdir 1 (some "letters")) reply, .mounted] A ∧
      StandsFor m.rootSlot.toNat s A bytes own := by
  obtain ⟨m, w', hcreate⟩ := create_million_isOk 7
  obtain ⟨b, h⟩ := create_ok hcreate
  have hid := created_million_id h
  have honly := h.oneHeader_plain
  obtain ⟨hthirty, hfree⟩ := free_million h
  have hfits : AllocFits .xchacha20Poly1305 b.lay.outerSlots.toNat := by rw [hthirty]; decide
  obtain ⟨H, v, hv, hrefines⟩ := container_session_refines hcreate hid honly
  have hplain : v.plain = h.volume := Subtype.ext hv
  have hinv := h.clientInv hid honly
  -- there is room for the directory
  have hformatted := h.outerVolume_formatted hplain
  have hfree' : free v ≠ [] := by
    change free v.plain ≠ []
    rw [hplain]
    exact List.ne_nil_of_length_pos (Nat.zero_lt_of_lt hfree)
  have hcipher : NodeStore.cipher v = .xchacha20Poly1305 := by
    change v.plain.store.cipher = _
    rw [hplain]
    exact hinv.cipher_eq
  have hroom : ∀ slot ∈ free v, Fits (NodeStore.cipher v)
      (.directory { kind := .directory, entries := [] ++ [{ name := "letters", slot, kind := .directory }] }) := by
    intro slot hslot
    have hdata : IsDataSlot h.volume slot := hplain ▸ ((hformatted.mem_free slot).mp hslot).1
    rw [h.hasSlot_iff, h.slots.1, h.slots.2.1, hthirty] at hdata
    rw [hcipher]
    have hsmall : ∀ t < 30, Fits .xchacha20Poly1305
        (.directory { kind := .directory, entries := [] ++ [{ name := "letters", slot := t, kind := .directory }] }) := by
      decide +kernel
    exact hsmall slot hdata.1.2
  obtain ⟨reply, s, hrun⟩ : ∃ reply s, ((Request.mkdir 1 (some "letters")).serve .listed).run
      (VenomFuse.new outerRootSlot v) = .ok reply s :=
    (StandsFor.formatted hformatted).mkdir_served rfl hformatted.rootNode rfl hfree' hroom
  obtain ⟨hopen, C, hinv'⟩ := hinv.mkdir h hplain hrun
  -- the password opens what the flush leaves
  obtain ⟨u, hflush⟩ := hinv'.flush_isOk hfits
  have hfinds : Recovers plain m.kMaster u.mounted.world (.password [1]) :=
    Client.Inv.recovers_plain h (hinv'.step h.sizes rfl (.flushed hflush)) seven_unmarked
      (show SetsApart (.created [1]) [1] by decide)
  obtain ⟨v', hre⟩ := hinv'.remounts hflush hfinds
  have hback : WritesBack .listed (fun _ => .listed) s s := by
    rw [WritesBack, hopen]
    rfl
  have hallowed : (Request.mkdir 1 (some "letters")).Allowed .listed (VenomFuse.new outerRootSlot v) :=
    show 2 + 1 < 2 ^ 64 by decide
  rw [← h.rootSlot] at hrun hallowed
  have hs : Session H.medium m.rootSlot.toNat v [.served (.mkdir 1 (some "letters")) reply, .mounted]
      (VenomFuse.new m.rootSlot.toNat (⟨v', hre.on s.container.2 hinv'.holds.freeOk⟩ : OuterVolume H)) :=
    .mounted (.served .start hallowed hrun) hback hre
  obtain ⟨A, bytes, own, htrace, hstands⟩ := hrefines _ _ hs
  exact ⟨m, w', H, v, reply, _, A, bytes, own, hcreate, hv, hs, htrace, hstands⟩

end Created

end Venom.Fs

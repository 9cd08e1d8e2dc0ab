import Venom.Fs.NodeIo
import Venom.Fs.DamagedHeader

/-! # Sessions of an outer handle

No call of the slot store checks a slot against the bounds of its volume.  What keeps the
outer handle to its own slots is that the free list stays within the volume, from `create`
on and through every save and load of the allocation block.
-/

namespace Venom.Fs

open Venom.Container
open Venom.Crypto
open Venom.Storage
open Venom.Storage.SlotStore
open Venom.Library
open Venom.Library.Words
open Venom.Library.StateError

variable {P : Primitives}

/-! ## Sessions of the outer handle -/

/-- A handle on its file. -/
structure OuterSession where
  mounted : Mounted
  /-- The slots handed out by `writeNode` and not freed since. -/
  live : List Nat
  /-- No node has been written to the allocation slot since the allocation block was. -/
  intact : Bool

namespace OuterSession

/-- The root and the slots handed out are the ones a caller knows. -/
def Known (s : OuterSession) (slot : Nat) : Prop :=
  slot = s.mounted.container.rootSlot.toNat ∨ slot ∈ s.live

/-- A call that has written to one slot. -/
def touched (s : OuterSession) (slot : Nat) : Bool := s.intact && decide (slot ≠ outerAllocSlot)

end OuterSession

/-- The node calls and the recipient calls through an outer handle, whether they succeed or
    fail. -/
inductive OuterCall (P : Primitives) : OuterSession → OuterSession → Prop
  | wrote {s : OuterSession} {node : VaultNode} {slot : Nat} {m' : Mounted}
      (h : (writeNode P node).run s.mounted = .ok slot m') :
      OuterCall P s { mounted := m', live := slot :: s.live, intact := s.touched slot }
  | writeFailed {s : OuterSession} {node : VaultNode} {e : VnmError} {m' : Mounted}
      (h : (writeNode P node).run s.mounted = .error e m') : OuterCall P s { s with mounted := m' }
  | updated {s : OuterSession} {node : VaultNode} {slot : Nat} {m' : Mounted} (hknown : s.Known slot)
      (h : (updateNode P slot node).run s.mounted = .ok () m') :
      OuterCall P s { s with mounted := m', intact := s.touched slot }
  | updateFailed {s : OuterSession} {node : VaultNode} {slot : Nat} {e : VnmError} {m' : Mounted}
      (h : (updateNode P slot node).run s.mounted = .error e m') : OuterCall P s { s with mounted := m' }
  | freed {s : OuterSession} {slot : Nat} (hknown : s.Known slot) :
      OuterCall P s { mounted := freeNode slot s.mounted, live := s.live.filter (· ≠ slot)
                      intact := s.touched slot }
  | recipient {s : OuterSession} {c : RecipientCall} {m' : Mounted}
      (h : (c.run P).run s.mounted = .ok () m') : OuterCall P s { s with mounted := m' }
  | recipientFailed {s : OuterSession} {c : RecipientCall} {e : VnmError} {m' : Mounted}
      (h : (c.run P).run s.mounted = .error e m') : OuterCall P s { s with mounted := m' }

/-- The calls, `flush`, and opening the file again.  What `open` hands out is taken to be the
    same volume: the credential recovers its master key, and the header decodes under its
    cipher.  The handle of a container with a zero id has no generation; it reads its block as
    a legacy one and may be given the allocation slot itself for a node.  A guarded run opens
    the file of such a container again only while that has not happened. -/
inductive OuterStep (P : Primitives) (guarded : Bool) : OuterSession → OuterSession → Prop
  | called {s s' : OuterSession} (h : OuterCall P s s') : OuterStep P guarded s s'
  | flushed {s : OuterSession} {m' : Mounted} (h : (flush P).run s.mounted = .ok () m') :
      OuterStep P guarded s { s with mounted := m', intact := true }
  | flushFailed {s : OuterSession} {e : Fault} {m' : Mounted}
      (h : (flush P).run s.mounted = .error e m') : OuterStep P guarded s { s with mounted := m' }
  | opened {s : OuterSession} {credential : OpenCredential} {c : VnmContainer}
      (h : openContainer P s.mounted.world credential = .ok c) (houter : c.isHidden = false)
      (hkey : c.kMaster = s.mounted.container.kMaster) (hcipher : c.cipher = s.mounted.container.cipher)
      (hintact : guarded = true → s.mounted.container.store.hasGeneration = false → s.intact = true) :
      OuterStep P guarded s { s with mounted := { container := c, world := s.mounted.world } }

/-! ## The writes of the outer volume -/

def Part.IsOuter : Part → Prop
  | .hiddenBackup | .hiddenPrimary | .hiddenSlot _ => False
  | .outerHeader | .outerBackup | .pwSlot _ | .keySlot _ | .outerSlot _ => True

theorem Part.IsAccess.isOuter {p : Part} (h : p.IsAccess) : p.IsOuter := by
  cases p <;> trivial

/-- A write to a part of the outer volume. -/
def OuterWrite (lay : Layout) (x : ByteFile.Write) : Prop := ∃ p : Part, p.IsOuter ∧ AtPart lay p x

/-- The calls leave the allocation slot alone when there is a generation. -/
def CallWrite (lay : Layout) (hasGeneration : Bool) (x : ByteFile.Write) : Prop :=
  ∃ p : Part, p.IsOuter ∧ (hasGeneration = true → p ≠ .outerSlot outerAllocSlot) ∧ AtPart lay p x

theorem CallWrite.outer {lay : Layout} {hasGeneration : Bool} {x : ByteFile.Write}
    (h : CallWrite lay hasGeneration x) : OuterWrite lay x := by
  obtain ⟨p, hp, -, hx⟩ := h
  exact ⟨p, hp, hx⟩

section Frame

variable {total : UInt64} {hidden : Option UInt64} {lay : Layout} {k : Key} {payload : HeaderPayload}
  {l : AccessList} {f f' : ByteFile}

/-- Writes beside the access parts keep the access list. -/
theorem Granted.of_slices (h : Granted P lay k payload l f) (hsize : f'.size = f.size)
    (hslice : ∀ p : Part, lay.Has p → p.IsAccess →
      f'.slice (lay.region p).off (lay.region p).len = f.slice (lay.region p).off (lay.region p).len) :
    Granted P lay k payload l f' := by
  have hheader := hslice .outerHeader trivial trivial
  have hregion : lay.region .outerHeader = ⟨0, 512⟩ := rfl
  rw [hregion] at hheader
  have hbackup := hslice .outerBackup trivial trivial
  have hregion' : lay.region .outerBackup =
      ⟨outerBackupOffset lay.fileSize.toNat lay.hasHidden, 512⟩ := rfl
  rw [hregion'] at hbackup
  dsimp only at hheader hbackup
  refine ⟨hsize.trans h.size, h.passwords_le, h.keys_le, ?_, ?_, fun i p hi => ?_, fun j pk hj => ?_⟩
  · rw [hheader]
    exact h.header
  · rw [hheader, hbackup]
    exact h.backup
  · have hpw := hslice (.pwSlot i)
      (Nat.lt_of_lt_of_le (List.getElem?_eq_some_iff.mp hi).1 h.passwords_le) trivial
    have hregion : lay.region (.pwSlot i) = ⟨pwSlotOffset i, pwSlotSize⟩ := rfl
    rw [hregion] at hpw
    dsimp only at hpw
    rw [hpw]
    exact h.pwSlot i p hi
  · have hkey := hslice (.keySlot j)
      (Nat.lt_of_lt_of_le (List.getElem?_eq_some_iff.mp hj).1 h.keys_le) trivial
    have hregion : lay.region (.keySlot j) = ⟨keySlotOffset j, keySlotSize⟩ := rfl
    rw [hregion] at hkey
    dsimp only at hkey
    rw [hkey]
    exact h.keySlot j pk hj

/-- A write to a data slot keeps the access list. -/
theorem Granted.slot_write {total : UInt64} {hidden : Option UInt64} (h : Granted P lay k payload l f)
    (hs : Sizes total hidden lay) {slot : Nat} {x : ByteFile.Write} (hat : AtPart lay (.outerSlot slot) x) :
    Granted P lay k payload l (f.replay [x]) := by
  have hr := Rewrites.one hat
  refine h.of_slices ((hr.size hs h.size).trans h.size.symm) fun p hp haccess => ?_
  refine hr.slice_other hs h.size hp fun hmem => ?_
  rw [List.mem_singleton.mp hmem] at haccess
  exact haccess

/-- A recipient call leaves the slots. -/
theorem Regranted.slice_slot {m m' : Mounted} {parts : List Part} {ws : List ByteFile.Write}
    (h : Regranted P lay k payload l f m m' parts ws) (hs : Sizes total hidden lay)
    (hsize : f.size = lay.fileSize.toNat) {slot : Nat} (hslot : slot < lay.outerSlots.toNat) :
    (f.replay ws).slice (slotOffset slot) slotSize = f.slice (slotOffset slot) slotSize :=
  h.rewrites.slice_other (p := .outerSlot slot) hs hsize hslot fun hmem => h.access (.outerSlot slot) hmem

theorem Regranted.read_slot {m m' : Mounted} {parts : List Part} {ws : List ByteFile.Write}
    (h : Regranted P lay k payload l f m m' parts ws) (hs : Sizes total hidden lay)
    (hf : m.world.file = some f) (hsize : f.size = lay.fileSize.toNat) {slot : Nat}
    (hslot : slot < lay.outerSlots.toNat) :
    m'.world.read (slotOffset slot) slotSize = m.world.read (slotOffset slot) slotSize := by
  simp only [World.read, hf, h.issued.file_eq hf, ByteFile.read, h.granted.size, hsize,
    h.slice_slot hs hsize hslot]

end Frame

/-! ## The invariant -/

/-- The store of the outer volume, as far as it never changes. -/
structure OuterShape (lay : Layout) (k : Key) (cipher : CipherAlgorithm) (st : SlotStore) : Prop where
  masterKey : st.masterKey = k
  cipher : st.cipher = cipher
  slotStart : st.slotStart = 0
  slotLimit : st.slotLimit = lay.outerSlots.toNat
  allocSlot : st.allocSlot = outerAllocSlot

/-- What holds throughout the sessions of an outer handle.  With a generation the allocation
    slot is out of reach for nodes; without one it is so as long as `intact` is set. -/
structure OuterInv (P : Primitives) (lay : Layout) (k : Key) (payload : HeaderPayload)
    (s : OuterSession) : Prop where
  granted : ∃ l f, s.mounted.world.file = some f ∧ Granted P lay k payload l f
  kMaster : s.mounted.container.kMaster = k
  cipher : payload.cipher = s.mounted.container.cipher
  rootSlot : s.mounted.container.rootSlot = payload.rootSlot
  shape : OuterShape lay k payload.cipher s.mounted.container.store
  range : FreeInRange s.mounted.container.store
  live : ∀ slot ∈ s.live, slot < lay.outerSlots.toNat
  block : s.intact = true → ∀ data,
    s.mounted.container.store.read P s.mounted.world outerAllocSlot = .ok data →
      ofLittleEndian (sub data 0 8) ≤ lay.outerSlots.toNat
  strict : s.mounted.container.store.hasGeneration = true → s.intact = true ∧
    outerAllocSlot ∉ s.mounted.container.store.free ∧ outerAllocSlot ∉ s.live ∧ ∀ data,
      s.mounted.container.store.read P s.mounted.world outerAllocSlot = .ok data →
        Bitmap.getBit 0 (data.drop 48) = false
  generation : payload.containerId ≠ zeroId → s.mounted.container.store.hasGeneration = true

/-- What a call leaves. -/
structure Called (P : Primitives) (lay : Layout) (k : Key) (payload : HeaderPayload)
    (s s' : OuterSession) : Prop where
  inv : OuterInv P lay k payload s'
  issues : World.Issues (CallWrite lay s.mounted.container.store.hasGeneration) s.mounted.world
    s'.mounted.world
  rollback : s'.mounted.world.rollback = s.mounted.world.rollback
  containerId : s'.mounted.container.containerId = s.mounted.container.containerId
  generation : s'.mounted.container.store.generation = s.mounted.container.store.generation

/-- The root slot lies in the volume, behind the allocation slot. -/
def RootInside (lay : Layout) (payload : HeaderPayload) : Prop :=
  payload.rootSlot.toNat < lay.outerSlots.toNat ∧ payload.rootSlot.toNat ≠ outerAllocSlot

section Steps

variable {total : UInt64} {hidden : Option UInt64} {lay : Layout} {k : Key} {payload : HeaderPayload}
  {s s' : OuterSession}

theorem OuterShape.with_free {cipher : CipherAlgorithm} {st st' : SlotStore}
    (h : OuterShape lay k cipher st) (hshape : SameShape st st') : OuterShape lay k cipher st' :=
  ⟨hshape.masterKey.trans h.masterKey, hshape.cipher.trans h.cipher, hshape.slotStart.trans h.slotStart,
    hshape.slotLimit.trans h.slotLimit, hshape.allocSlot.trans h.allocSlot⟩

/-- A read sees the slot's bytes, the key and the cipher. -/
theorem read_congr {st st' : SlotStore} {w w' : World} {f f' : ByteFile} {slot : Nat}
    (hf : w.file = some f) (hf' : w'.file = some f') (hsize : f'.size = f.size)
    (hslice : f'.slice (slotOffset slot) slotSize = f.slice (slotOffset slot) slotSize)
    (hkey : st'.masterKey = st.masterKey) (hcipher : st'.cipher = st.cipher) :
    st'.read P w' slot = st.read P w slot := by
  have hread : w'.read (slotOffset slot) slotSize = w.read (slotOffset slot) slotSize := by
    simp only [World.read, hf, hf', ByteFile.read, hsize, hslice]
  unfold SlotStore.read
  rw [hread]
  exact bind_congr fun buf => openSlot_congr hkey hcipher slot buf

/-- The slots a caller knows lie in the volume. -/
theorem OuterInv.known (h : OuterInv P lay k payload s) (hroot : RootInside lay payload) {slot : Nat}
    (hknown : s.Known slot) : slot < lay.outerSlots.toNat ∧
      (s.mounted.container.store.hasGeneration = true → slot ≠ outerAllocSlot) := by
  rcases hknown with rfl | hlive
  · rw [h.rootSlot]
    exact ⟨hroot.1, fun _ => hroot.2⟩
  · exact ⟨h.live slot hlive, fun hgen he => (h.strict hgen).2.2.1 (he ▸ hlive)⟩

/-- A node slot is written or wiped. -/
theorem OuterInv.slot_write (h : OuterInv P lay k payload s) (hs : Sizes total hidden lay) {slot : Nat}
    {bytes : List UInt8} {st : SlotStore} {w : World} {live : List Nat}
    (hslot : slot < lay.outerSlots.toNat) (hlen : bytes.length = slotSize)
    (hwrote : World.Wrote (slotOffset slot) bytes s.mounted.world w)
    (hshape : SameShape s.mounted.container.store st)
    (hgeneration : st.generation = s.mounted.container.store.generation)
    (hfree : ∀ x ∈ st.free, x ∈ s.mounted.container.store.free ∨ x = slot)
    (hlive : ∀ x ∈ live, x ∈ s.live ∨ x = slot)
    (hne : s.mounted.container.store.hasGeneration = true → slot ≠ outerAllocSlot) :
    Called P lay k payload s
      { mounted := { container := { s.mounted.container with store := st }, world := w }
        live, intact := s.touched slot } := by
  have hat : AtPart lay (.outerSlot slot) ⟨slotOffset slot, bytes⟩ := ⟨hslot, rfl, hlen⟩
  have hr := Rewrites.one hat
  obtain ⟨l, f, hf, hg⟩ := h.granted
  have hfile := (World.Issued.of_wrote hwrote).file_eq hf
  have hsize := hr.size hs hg.size
  have hread : slot ≠ outerAllocSlot → st.read P w outerAllocSlot =
      s.mounted.container.store.read P s.mounted.world outerAllocSlot := fun hne =>
    read_congr hf hfile (hsize.trans hg.size.symm)
      (hr.slice_other (p := .outerSlot outerAllocSlot) hs hg.size (Nat.zero_lt_of_lt hslot)
        (by simpa using hne.symm)) hshape.masterKey hshape.cipher
  refine ⟨⟨⟨l, _, hfile, hg.slot_write hs hat⟩, h.kMaster, h.cipher, h.rootSlot, h.shape.with_free hshape,
    ?_, ?_, ?_, ?_, ?_⟩,
    .of_wrote hwrote ⟨.outerSlot slot, trivial, fun hgen => by simpa using hne hgen, hat⟩,
    hwrote.rollback, rfl, hgeneration⟩
  · intro x hx
    change st.slotStart ≤ x ∧ x < st.slotLimit
    rw [hshape.slotStart, hshape.slotLimit]
    rcases hfree x hx with hold | rfl
    · exact h.range x hold
    · rw [h.shape.slotStart, h.shape.slotLimit]
      exact ⟨Nat.zero_le _, hslot⟩
  · intro x hx
    rcases hlive x hx with hold | rfl
    · exact h.live x hold
    · exact hslot
  · intro hintact data hdata
    obtain ⟨hold, hslot⟩ := Bool.and_eq_true_iff.mp hintact
    rw [hread (of_decide_eq_true hslot)] at hdata
    exact h.block hold data hdata
  · intro hgen
    have hgen' : s.mounted.container.store.hasGeneration = true := hshape.hasGeneration.symm.trans hgen
    obtain ⟨hintact, hfree', hlive', hbit⟩ := h.strict hgen'
    have hslot' := hne hgen'
    refine ⟨Bool.and_eq_true_iff.mpr ⟨hintact, decide_eq_true hslot'⟩, fun hx => ?_, fun hx => ?_, ?_⟩
    · exact (hfree _ hx).elim hfree' fun he => hslot' he.symm
    · exact (hlive _ hx).elim hlive' fun he => hslot' he.symm
    · intro data hdata
      rw [hread hslot'] at hdata
      exact hbit data hdata
  · intro hid
    exact hshape.hasGeneration.trans (h.generation hid)

/-- A call that has left the file alone, and changed the store's bookkeeping at most. -/
theorem OuterInv.quiet (h : OuterInv P lay k payload s) {st : SlotStore} {w : World}
    (hfile : w.file = s.mounted.world.file) (hshape : SameShape s.mounted.container.store st)
    (hfree : ∀ x ∈ st.free, x ∈ s.mounted.container.store.free) :
    OuterInv P lay k payload
      { s with mounted := { container := { s.mounted.container with store := st }, world := w } } := by
  obtain ⟨l, f, hf, hg⟩ := h.granted
  have hf' : w.file = some f := hfile.trans hf
  have hread : st.read P w outerAllocSlot =
      s.mounted.container.store.read P s.mounted.world outerAllocSlot :=
    read_congr hf hf' rfl rfl hshape.masterKey hshape.cipher
  refine ⟨⟨l, f, hf', hg⟩, h.kMaster, h.cipher, h.rootSlot, h.shape.with_free hshape, ?_, h.live, ?_, ?_,
    ?_⟩
  · intro x hx
    change st.slotStart ≤ x ∧ x < st.slotLimit
    rw [hshape.slotStart, hshape.slotLimit]
    exact h.range x (hfree x hx)
  · intro hintact data hdata
    exact h.block hintact data (hread.symm.trans hdata)
  · intro hgen
    obtain ⟨hintact, hfree', hlive', hbit⟩ := h.strict (hshape.hasGeneration.symm.trans hgen)
    exact ⟨hintact, fun hx => hfree' (hfree _ hx), hlive', fun data hdata =>
      hbit data (hread.symm.trans hdata)⟩
  · intro hid
    exact hshape.hasGeneration.trans (h.generation hid)

theorem OuterInv.untouched (h : OuterInv P lay k payload s) {m : Mounted}
    (hu : Untouched s.mounted m) : Called P lay k payload s { s with mounted := m } := by
  obtain ⟨container, world⟩ := m
  obtain ⟨hcontainer, hdrew⟩ := hu
  cases hcontainer
  exact ⟨h.quiet hdrew.file ⟨rfl, rfl, rfl, rfl, rfl, rfl⟩ fun _ hx => hx, .of_drew hdrew,
    hdrew.rollback, rfl, rfl⟩

/-- The allocation block is written. -/
theorem OuterInv.flushSlots (h : OuterInv P lay k payload s) (hs : Sizes total hidden lay)
    {u : Unit} {m : Mounted} (hrun : (flushSlots P).run s.mounted = .ok u m) :
    OuterInv P lay k payload { s with mounted := m, intact := true } ∧
      World.Issues (OuterWrite lay) s.mounted.world m.world := by
  obtain ⟨st, bitmap, bytes, s₂, hrooted, hbitmap, hwritten, rfl⟩ := flushSlots_ok hrun
  obtain ⟨hshape, hfree, -⟩ := hrooted.sameShape
  have hstore := h.shape.with_free hshape
  have hrange : FreeInRange st := by
    intro x hx
    rw [hshape.slotStart, hshape.slotLimit]
    exact h.range x (hfree ▸ hx)
  have hinside := hs.outer
  have hat : AtPart lay (.outerSlot outerAllocSlot) ⟨slotOffset st.allocSlot, bytes⟩ :=
    ⟨by change 0 < _; omega, by rw [hstore.allocSlot]; rfl, hwritten.length⟩
  have hr := Rewrites.one hat
  obtain ⟨l, f, hf, hg⟩ := h.granted
  have hfile := (World.Issued.of_wrote hwritten.wrote).file_eq hf
  have hsize := hr.size hs hg.size
  have hsame : s₂.store = { st.saved with merkleDirty := true } := hwritten.store
  have hread : ∀ data, s₂.store.read P s₂.world outerAllocSlot = .ok data →
      data = st.saved.allocData bitmap := by
    intro data hdata
    have hopens := hwritten.opens fun _ => allocData_ne_nil
    obtain ⟨-, hdata⟩ := (read_eq_ok hfile).mp hdata
    have hslice := hr.slice (f := f) hs (.head _)
    have hregion : lay.region (.outerSlot outerAllocSlot) = ⟨slotOffset outerAllocSlot, slotSize⟩ := rfl
    rw [hregion] at hslice
    dsimp only at hslice
    rw [hslice, @openSlot_congr _ st.saved _ (by rw [hsame]) (by rw [hsame])] at hdata
    have halloc : st.allocSlot = outerAllocSlot := hstore.allocSlot
    rw [halloc] at hopens
    cases hopens.symm.trans hdata
    rfl
  refine ⟨⟨⟨l, _, hfile, hg.slot_write hs hat⟩, h.kMaster, h.cipher, h.rootSlot, ?_, ?_, h.live, ?_, ?_,
    ?_⟩, .of_wrote hwritten.wrote ⟨.outerSlot outerAllocSlot, trivial, hat⟩⟩
  · change OuterShape _ _ _ s₂.store
    rw [hsame]
    exact ⟨hstore.masterKey, hstore.cipher, hstore.slotStart, hstore.slotLimit, hstore.allocSlot⟩
  · change FreeInRange s₂.store
    rw [hsame]
    exact hrange
  · intro _ data hdata
    have hcount := @count_allocData st.saved bitmap (by
      change st.slotLimit - st.slotStart < 2 ^ 64
      rw [hstore.slotStart, hstore.slotLimit]
      exact lay.outerSlots.toNat_lt)
    rw [hread data hdata, hcount]
    change st.slotLimit - st.slotStart ≤ _
    rw [hstore.slotStart, hstore.slotLimit]
    exact Nat.le_refl _
  · intro hgen
    change s₂.store.hasGeneration = true at hgen
    rw [hsame] at hgen
    have hgen' : st.saved.hasGeneration = true := hgen
    obtain ⟨-, hfree', hlive', -⟩ := h.strict (hshape.hasGeneration.symm.trans hgen)
    refine ⟨rfl, ?_, hlive', fun data hdata => ?_⟩
    · change outerAllocSlot ∉ s₂.store.free
      rw [hsame]
      exact fun hx => hfree' (hfree ▸ hx)
    · obtain ⟨bitmap', hbitmap', -, hbits⟩ := freeBitmap_isSome hrange
      cases hbitmap.symm.trans hbitmap'
      rw [hread data hdata, drop_allocData hgen', hbits, hstore.slotStart, hfree]
      exact decide_eq_false hfree'
  · intro hid
    change s₂.store.hasGeneration = true
    rw [hsame]
    exact hshape.hasGeneration.trans (h.generation hid)

theorem OuterInv.recipient (h : OuterInv P lay k payload s) (hs : Sizes total hidden lay)
    {c : RecipientCall} {u : Unit} {m : Mounted} (hrun : (c.run P).run s.mounted = .ok u m) :
    Called P lay k payload s { s with mounted := m } := by
  obtain ⟨l, f, hf, hg⟩ := h.granted
  obtain ⟨parts, ws, hre⟩ := RecipientCall.run_ok hg hs hf h.kMaster h.cipher hrun
  have hfile := hre.issued.file_eq hf
  have hinside := hs.outer
  have hslot := hre.slice_slot hs hg.size (show outerAllocSlot < _ from Nat.zero_lt_of_lt hinside)
  have hread : m.container.store.read P m.world outerAllocSlot =
      s.mounted.container.store.read P s.mounted.world outerAllocSlot := by
    rw [hre.container]
    exact read_congr hf hfile (hre.rewrites.size hs hg.size |>.trans hg.size.symm) hslot rfl rfl
  refine ⟨⟨⟨_, _, hfile, hre.granted⟩, ?_, ?_, ?_, ?_, ?_, h.live, fun hintact data hdata => ?_,
    fun hgen => ?_, ?_⟩, ⟨ws, hre.issued.issued, hre.issued.file, fun x hx => ?_⟩, hre.issued.rollback,
    ?_, ?_⟩
  · rw [hre.container]
    exact h.kMaster
  · rw [hre.container]
    exact h.cipher
  · rw [hre.container]
    exact h.rootSlot
  · rw [hre.container]
    exact h.shape
  · rw [hre.container]
    exact h.range
  · exact h.block hintact data (hread.symm.trans hdata)
  · rw [hre.container] at hgen
    obtain ⟨hintact, hfree, hlive, hbit⟩ := h.strict hgen
    refine ⟨hintact, ?_, hlive, fun data hdata => hbit data (hread.symm.trans hdata)⟩
    rw [hre.container]
    exact hfree
  · rw [hre.container]
    exact h.generation
  · obtain ⟨p, hp, hx⟩ := forall₂_right hre.rewrites.atPart hx
    refine ⟨p, (hre.access p hp).isOuter, fun _ he => ?_, hx⟩
    exact (he ▸ hre.access p hp : Part.IsAccess (.outerSlot outerAllocSlot))
  · rw [hre.container]
  · rw [hre.container]

/-! ### Opening again -/

theorem decodeHeader_cipher {raw : List UInt8} {c : CipherAlgorithm} {isHidden : Bool}
    {header : HeaderPayload} (h : decodeHeader P raw k c isHidden = .ok header) : header.cipher = c := by
  unfold decodeHeader at h
  cases hdec : decryptBlock P k c (headerAad isHidden) (sub raw bodyOffset (encBodySize c)) with
  | error e => rw [hdec] at h; cases h
  | ok body =>
    rw [hdec] at h
    dsimp only at h
    split at h
    next => cases h
    next =>
      split at h
      next => cases h
      next => cases h; rfl

/-- The header that is found under the container's cipher is the container's. -/
theorem Granted.found {l : AccessList} {f : ByteFile} (h : Granted P lay k payload l f)
    {w : World} (hf : w.file = some f) (hsize : 1024 ≤ f.size) {header : HeaderPayload}
    (hfound : findOuterHeader P w f.size k = some header) (hcipher : header.cipher = payload.cipher) :
    header = counted payload l := by
  rw [findOuterHeader_eq hf hsize] at hfound
  have hsome : (probeHeader P (f.slice 0 512) k false).isSome := by
    rw [probeHeader, List.findSome?_isSome_iff]
    refine ⟨payload.cipher, by cases payload.cipher <;> decide, ?_⟩
    have hdecode : decodeHeader P (f.slice 0 512) k payload.cipher false = .ok (counted payload l) :=
      h.header.decode
    rw [hdecode]
    rfl
  obtain ⟨header', hprobe⟩ := Option.isSome_iff_exists.mp hsome
  have heq : header' = header := by
    rw [hprobe] at hfound
    exact Option.some.inj hfound
  subst heq
  obtain ⟨c, -, hc⟩ := List.exists_of_findSome?_eq_some hprobe
  cases hdecode : decodeHeader P (f.slice 0 512) k c false with
  | error e => rw [hdecode] at hc; cases hc
  | ok header =>
    rw [hdecode] at hc
    cases hc
    have hc' := (decodeHeader_cipher hdecode).symm.trans hcipher
    subst hc'
    have hown : decodeHeader P (f.slice 0 512) k payload.cipher false = .ok (counted payload l) :=
      h.header.decode
    cases hdecode.symm.trans hown
    rfl

/-- A store loaded from a block that names no more slots than the volume has. -/
theorem load_inRange {st st' : SlotStore} {w : World} (hload : st.loadFreeList P w = .ok st')
    (hstart : st.slotStart = 0)
    (hcount : ∀ data, st.read P w st.allocSlot = .ok data → ofLittleEndian (sub data 0 8) ≤ st.slotLimit) :
    FreeInRange st' ∧ (st.hasGeneration = true → (∀ data, st.read P w st.allocSlot = .ok data →
      st.allocSlot = 0 ∧ Bitmap.getBit 0 (data.drop 48) = false) → st.allocSlot ∉ st'.free) := by
  rcases loadFreeList_ok hload with ⟨-, rfl⟩ | ⟨data, hread, -, rfl⟩
  · exact ⟨fun x hx => (mem_rebuildFreeList.mp hx).1, fun _ _ hx => (mem_rebuildFreeList.mp hx).2 rfl⟩
  · refine ⟨fun x hx => ?_, fun hgen hbit hx => ?_⟩
    · obtain ⟨i, hi, -, rfl⟩ := mem_freeOfBitmap.mp hx
      have hle := hcount data hread
      change st.slotStart ≤ st.slotStart + i ∧ st.slotStart + i < st.slotLimit
      change i < ofLittleEndian (sub data 0 8) at hi
      omega
    · obtain ⟨i, hi, hset, hslot⟩ := mem_freeOfBitmap.mp hx
      obtain ⟨hzero, hclear⟩ := hbit data hread
      have hi0 : i = 0 := by omega
      subst hi0
      rw [hgen] at hset
      change Bitmap.getBit 0 (data.drop 48) = true at hset
      rw [hclear] at hset
      cases hset

/-- What `open` loads: the header is the container's, whatever its counts. -/
theorem OuterInv.reopened (h : OuterInv P lay k payload s) (hs : Sizes total hidden lay)
    (hslots : payload.outerSlots = lay.outerSlots) {credential : OpenCredential} {c : VnmContainer}
    (hopen : openContainer P s.mounted.world credential = .ok c) (houter : c.isHidden = false)
    (hkey : c.kMaster = s.mounted.container.kMaster) (hcipher : c.cipher = s.mounted.container.cipher) :
    ∃ l store, (storeToLoad k (counted payload l) 0 lay.outerSlots.toNat outerAllocSlot).loadFreeList P
        s.mounted.world = .ok store ∧
      c = containerOf k (counted payload l) false lay.outerSlots store := by
  obtain ⟨l, f, hf, hg⟩ := h.granted
  obtain ⟨header, hfind, hvolume⟩ := openContainer_isOuter hf hopen houter
  obtain ⟨-, hfound⟩ := findOuter_eq_some.mp hfind
  rw [hkey, h.kMaster] at hfound hvolume
  obtain ⟨store, hload, -, rfl⟩ := openVolume_eq_ok.mp hvolume
  have hinside := hs.inside (p := .outerBackup) trivial
  have hlarge : 1024 ≤ f.size := by
    have hfile := hs.fileSize_eq
    have hdata : 16376 ≤ slotOffset (lay.outerSlots.toNat + lay.hiddenSlots.toNat) :=
      Nat.le_add_right _ _
    rw [hg.size]
    omega
  cases hg.found hf hlarge hfound (hcipher.trans h.cipher.symm)
  have hn : (counted payload l).outerSlots = lay.outerSlots := hslots
  rw [hn] at hload
  refine ⟨l, store, hload, ?_⟩
  rw [hn]

theorem OuterInv.opened (h : OuterInv P lay k payload s) (hs : Sizes total hidden lay)
    (hslots : payload.outerSlots = lay.outerSlots) {credential : OpenCredential} {c : VnmContainer}
    (hopen : openContainer P s.mounted.world credential = .ok c) (houter : c.isHidden = false)
    (hkey : c.kMaster = s.mounted.container.kMaster) (hcipher : c.cipher = s.mounted.container.cipher)
    (hintact : s.mounted.container.store.hasGeneration = false → s.intact = true) :
    OuterInv P lay k payload { s with mounted := { container := c, world := s.mounted.world } } := by
  obtain ⟨l, store, hload, rfl⟩ := h.reopened hs hslots hopen houter hkey hcipher
  obtain ⟨l', f, hf, hg⟩ := h.granted
  have hshape := loadFreeList_sameShape hload
  have hold : s.intact = true := by
    cases hgen : s.mounted.container.store.hasGeneration with
    | true => exact (h.strict hgen).1
    | false => exact hintact hgen
  have hread : (storeToLoad k (counted payload l) 0 lay.outerSlots.toNat outerAllocSlot).read P
      s.mounted.world outerAllocSlot = s.mounted.container.store.read P s.mounted.world outerAllocSlot :=
    read_congr hf hf rfl rfl h.shape.masterKey.symm h.shape.cipher.symm
  obtain ⟨hrange, hfree⟩ := load_inRange hload rfl fun data hdata =>
    h.block hold data (hread.symm.trans hdata)
  have hread' : store.read P s.mounted.world outerAllocSlot =
      s.mounted.container.store.read P s.mounted.world outerAllocSlot :=
    (read_congr hf hf rfl rfl hshape.masterKey hshape.cipher).trans hread
  refine ⟨⟨l', f, hf, hg⟩, rfl, rfl, rfl, ⟨hshape.masterKey, hshape.cipher, hshape.slotStart,
    hshape.slotLimit, hshape.allocSlot⟩, hrange, h.live, fun _ data hdata =>
    h.block hold data (hread'.symm.trans hdata), fun hgen => ?_, fun hne => ?_⟩
  · have hgen' : (storeToLoad k (counted payload l) 0 lay.outerSlots.toNat
        outerAllocSlot).hasGeneration = true := hshape.hasGeneration.symm.trans hgen
    have hne : (counted payload l).containerId ≠ zeroId := of_decide_eq_true hgen'
    obtain ⟨-, -, hlive, hbit⟩ := h.strict (h.generation hne)
    exact ⟨hold, hfree hgen' fun data hdata => ⟨rfl, hbit data (hread.symm.trans hdata)⟩, hlive,
      fun data hdata => hbit data (hread'.symm.trans hdata)⟩
  · have hne' : (counted payload l).containerId ≠ zeroId := hne
    exact hshape.hasGeneration.trans (decide_eq_true hne')

/-! ### Every step -/

/-- The slot a node is written to comes from the free list. -/
theorem OuterInv.wrote (h : OuterInv P lay k payload s) (hs : Sizes total hidden lay)
    {node : VaultNode} {slot : Nat} {m : Mounted} (hrun : (writeNode P node).run s.mounted = .ok slot m) :
    Called P lay k payload s { mounted := m, live := slot :: s.live, intact := s.touched slot } := by
  obtain ⟨hpop, data, bytes, t, -, hwritten, rfl⟩ := writeNode_ok hrun
  have hmem : slot ∈ s.mounted.container.store.free := by
    rw [hpop]
    exact List.mem_append_right _ (.head _)
  have hslot := h.range slot hmem
  rw [h.shape.slotStart, h.shape.slotLimit] at hslot
  have hstore := hwritten.store
  refine h.slot_write hs hslot.2 hwritten.length hwritten.wrote ?_ ?_ ?_ ?_ ?_
  · rw [hstore]
    exact ⟨rfl, rfl, rfl, rfl, rfl, rfl⟩
  · rw [hstore]
    rfl
  · rw [hstore]
    exact fun x hx => .inl (List.dropLast_subset _ hx)
  · exact fun x hx => (List.mem_cons.mp hx).symm
  · exact fun hgen he => (h.strict hgen).2.1 (he ▸ hmem)

theorem OuterInv.updated (h : OuterInv P lay k payload s) (hs : Sizes total hidden lay)
    (hroot : RootInside lay payload) {node : VaultNode} {slot : Nat} {m : Mounted} {u : Unit}
    (hknown : s.Known slot) (hrun : (updateNode P slot node).run s.mounted = .ok u m) :
    Called P lay k payload s { s with mounted := m, intact := s.touched slot } := by
  obtain ⟨data, bytes, t, -, hwritten, rfl⟩ := updateNode_ok hrun
  obtain ⟨hslot, hne⟩ := h.known hroot hknown
  have hstore := hwritten.store
  refine h.slot_write hs hslot hwritten.length hwritten.wrote ?_ ?_ ?_ (fun _ hx => .inl hx) hne
  · rw [hstore]
    exact ⟨rfl, rfl, rfl, rfl, rfl, rfl⟩
  · rw [hstore]
    rfl
  · rw [hstore]
    exact fun x hx => .inl hx

theorem OuterInv.freed (h : OuterInv P lay k payload s) (hs : Sizes total hidden lay)
    (hroot : RootInside lay payload) {slot : Nat} (hknown : s.Known slot) :
    Called P lay k payload s { mounted := freeNode slot s.mounted
                               live := s.live.filter (· ≠ slot), intact := s.touched slot } := by
  obtain ⟨l, f, hf, -⟩ := h.granted
  obtain ⟨bytes, hlen, hwrote, hcontainer⟩ := freeNode_spec slot (m := s.mounted)
    (by rw [hf]; exact Option.some_ne_none f)
  obtain ⟨hslot, hne⟩ := h.known hroot hknown
  generalize freeNode slot s.mounted = m at hwrote hcontainer
  obtain ⟨container, world⟩ := m
  cases hcontainer
  refine h.slot_write hs hslot hlen hwrote ⟨rfl, rfl, rfl, rfl, rfl, rfl⟩ rfl ?_ ?_ hne
  · exact fun x hx => (mem_insertFree.mp hx).symm
  · exact fun x hx => .inl (List.mem_of_mem_filter hx)

/-- Every call keeps the invariant. -/
theorem OuterInv.called (h : OuterInv P lay k payload s) (hs : Sizes total hidden lay)
    (hroot : RootInside lay payload) (hcall : OuterCall P s s') : Called P lay k payload s s' := by
  cases hcall with
  | wrote hrun => exact h.wrote hs hrun
  | @writeFailed node e m hrun =>
    obtain ⟨hdrew, hcontainer⟩ := writeNode_error hrun
    obtain ⟨container, world⟩ := m
    rcases hcontainer with rfl | rfl
    · exact ⟨h.quiet hdrew.file ⟨rfl, rfl, rfl, rfl, rfl, rfl⟩ fun _ hx => hx, .of_drew hdrew,
        hdrew.rollback, rfl, rfl⟩
    · exact ⟨h.quiet hdrew.file ⟨rfl, rfl, rfl, rfl, rfl, rfl⟩ fun x hx => List.dropLast_subset _ hx,
        .of_drew hdrew, hdrew.rollback, rfl, rfl⟩
  | updated hknown hrun => exact h.updated hs hroot hknown hrun
  | updateFailed hrun => exact h.untouched (updateNode_error hrun)
  | freed hknown => exact h.freed hs hroot hknown
  | recipient hrun => exact h.recipient hs hrun
  | recipientFailed hrun =>
    obtain ⟨l, f, hf, hg⟩ := h.granted
    exact h.untouched (RecipientCall.run_error hg hs hf h.kMaster h.cipher hrun)

theorem OuterInv.flushed (h : OuterInv P lay k payload s) (hs : Sizes total hidden lay) {u : Unit}
    {m : Mounted} (hrun : (flush P).run s.mounted = .ok u m) :
    OuterInv P lay k payload { s with mounted := m, intact := true } ∧
      World.Issues (OuterWrite lay) s.mounted.world m.world := by
  obtain ⟨m₁, hslots, hcontainer, hfile, hissued, -⟩ := flush_ok hrun
  obtain ⟨hinv, ws, hws, hws', hgood⟩ := h.flushSlots hs hslots
  obtain ⟨container, world⟩ := m
  cases hcontainer
  exact ⟨hinv.quiet hfile ⟨rfl, rfl, rfl, rfl, rfl, rfl⟩ fun _ hx => hx, ws, hissued.trans hws,
    hfile.trans hws', hgood⟩

/-- The handle of a volume whose allocation block fits can be flushed. -/
theorem OuterInv.flush_isOk (h : OuterInv P lay k payload s) (hs : Sizes total hidden lay)
    (hgen : s.mounted.container.store.hasGeneration = true)
    (hfits : AllocFits payload.cipher lay.outerSlots.toNat) : ∃ m, (flush P).run s.mounted = .ok () m := by
  obtain ⟨l, f, hf, hg⟩ := h.granted
  refine Venom.Fs.flush_isOk hf (fun x hx => ?_) h.range hgen ?_
  · rw [hg.size]
    rw [h.shape.slotLimit] at hx
    exact hs.inside (p := .outerSlot x) hx
  · rw [h.shape.cipher, h.shape.slotLimit, h.shape.slotStart]
    exact hfits

theorem OuterInv.flushFailed (h : OuterInv P lay k payload s) {e : Fault} {m : Mounted}
    (hrun : (flush P).run s.mounted = .error e m) :
    OuterInv P lay k payload { s with mounted := m } ∧
      World.Issues (OuterWrite lay) s.mounted.world m.world := by
  obtain ⟨hdrew, st, hst, hcontainer⟩ := flushSlots_error (flush_error hrun)
  have hst' : SameShape s.mounted.container.store st ∧ st.free = s.mounted.container.store.free := by
    rcases hst with rfl | hrooted
    · exact ⟨⟨rfl, rfl, rfl, rfl, rfl, rfl⟩, rfl⟩
    · exact ⟨hrooted.sameShape.1, hrooted.sameShape.2.1⟩
  obtain ⟨hshape, hfree⟩ := hst'
  obtain ⟨container, world⟩ := m
  refine ⟨?_, .of_drew hdrew⟩
  rcases hcontainer with rfl | rfl
  · exact h.quiet hdrew.file hshape fun x hx => hfree ▸ hx
  · exact h.quiet hdrew.file ⟨hshape.masterKey, hshape.cipher, hshape.slotStart, hshape.slotLimit,
      hshape.allocSlot, hshape.hasGeneration⟩ fun x hx => hfree ▸ hx

/-- Every step keeps the invariant, and writes to the outer volume only. -/
theorem OuterInv.step (h : OuterInv P lay k payload s) (hs : Sizes total hidden lay)
    (hroot : RootInside lay payload) (hslots : payload.outerSlots = lay.outerSlots)
    (hstep : OuterStep P true s s') : OuterInv P lay k payload s' ∧
      World.Issues (OuterWrite lay) s.mounted.world s'.mounted.world := by
  cases hstep with
  | called hcall =>
    have hcalled := h.called hs hroot hcall
    exact ⟨hcalled.inv, hcalled.issues.mono fun _ hx => hx.outer⟩
  | flushed hrun => exact h.flushed hs hrun
  | flushFailed hrun => exact h.flushFailed hrun
  | opened hopen houter hkey hcipher hintact =>
    exact ⟨h.opened hs hslots hopen houter hkey hcipher (hintact rfl), .refl _⟩

/-- A run keeps the invariant, and writes to the outer volume only. -/
theorem OuterInv.run (h : OuterInv P lay k payload s) (hs : Sizes total hidden lay)
    (hroot : RootInside lay payload) (hslots : payload.outerSlots = lay.outerSlots)
    (hrun : Relation.ReflTransGen (OuterStep P true) s s') : OuterInv P lay k payload s' ∧
      World.Issues (OuterWrite lay) s.mounted.world s'.mounted.world := by
  induction hrun with
  | refl => exact ⟨h, .refl _⟩
  | tail _ hstep ih =>
    obtain ⟨hinv, hissues⟩ := ih
    obtain ⟨hinv', hissues'⟩ := hinv.step hs hroot hslots hstep
    exact ⟨hinv', hissues.trans hissues'⟩

end Steps

/-! ## From `create` on -/

section Create

variable {outerPassword : List UInt8} {totalSizeBytes : UInt64} {cipher : CipherAlgorithm}
  {kdfProfile : String} {label : Option String} {opts : HiddenVolumeOptions}
  {hidden : Option HiddenVolumeOptions} {w w' : World} {m : VnmContainer} {b : Blocks}

/-- The handle `create` returns. -/
def OuterSession.created (m : VnmContainer) (w : World) : OuterSession where
  mounted := { container := m, world := w }
  live := []
  intact := true

theorem Created.rootInside
    (h : Created P outerPassword totalSizeBytes cipher kdfProfile label hidden w m w' b) :
    RootInside b.lay (newPayload b cipher w outerPassword kdfProfile label) := by
  have htwo := h.sizes.outer
  refine ⟨?_, Nat.one_ne_zero⟩
  change 1 < b.lay.outerSlots.toNat
  omega

theorem Created.outerInv
    (h : Created P outerPassword totalSizeBytes cipher kdfProfile label hidden w m w' b) :
    OuterInv P b.lay (drawnKey w b.lay) (newPayload b cipher w outerPassword kdfProfile label)
      (.created m w') := by
  have hm := h.parts.container
  have hstore := h.store
  have hread : ∀ data, m.store.read P w' outerAllocSlot = .ok data → data =
      (emptied (outerStore b.lay cipher (drawnKey w b.lay)) outerRootSlot).saved.allocData b.bitmap := by
    intro data hdata
    have hnew := h.reads_alloc h.file_eq (Nat.le_refl _) rfl
      (show m.store.masterKey = _ by rw [hstore]; rfl) (by rw [hstore]; rfl)
    cases hdata.symm.trans hnew
    rfl
  refine ⟨⟨_, _, h.file_eq, h.granted⟩, ?_, ?_, ?_, ?_, ?_, ?_, ?_, ?_, ?_⟩
  · change m.kMaster = _
    rw [hm]
  · change _ = m.cipher
    rw [hm]
    rfl
  · change m.rootSlot = _
    rw [hm]
    rfl
  · change OuterShape _ _ _ m.store
    rw [hstore]
    exact ⟨rfl, rfl, rfl, rfl, rfl⟩
  · change FreeInRange m.store
    rw [hstore]
    exact freeInRange_emptied _ _
  · exact fun x hx => (List.not_mem_nil hx).elim
  · intro _ data hdata
    have hcount := @count_allocData (emptied (outerStore b.lay cipher (drawnKey w b.lay))
      outerRootSlot).saved b.bitmap
      (show b.lay.outerSlots.toNat - 0 < 2 ^ 64 from b.lay.outerSlots.toNat_lt)
    rw [hread data hdata, hcount]
    exact Nat.le_refl _
  · intro _
    refine ⟨rfl, ?_, List.not_mem_nil, fun data hdata => ?_⟩
    · change outerAllocSlot ∉ m.store.free
      rw [hstore]
      exact fun hx => (mem_emptied.mp hx).2.1 rfl
    · rw [hread data hdata, drop_allocData rfl, h.bits]
      exact decide_eq_false fun hx => (mem_emptied.mp hx).2.1 rfl
  · intro _
    change m.store.hasGeneration = true
    rw [hstore]
    rfl

end Create

end Venom.Fs

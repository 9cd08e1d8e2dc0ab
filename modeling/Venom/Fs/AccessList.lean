import Venom.Fs.Recipients
import Venom.Fs.RoundTrip

/-! # Recipient management is an access list

After any sequence of recipient calls, `open` accepts the passwords and the private keys of
the list that the calls describe, and no others.  The primitives have to do their part: a
slot opens with its own credential only, under its own cipher only.
-/

namespace Venom.Fs

open Venom.Container
open Venom.Crypto
open Venom.Storage
open Venom.Storage.SlotStore
open Venom.Library
open Venom.Library.Words
open Venom.Library.StateError

variable {P : Primitives}

/-! ## A run of calls -/

section Run

variable {total : UInt64} {hidden : Option UInt64} {lay : Layout} {k : Key} {payload : HeaderPayload}
  {l l' : AccessList} {f f' : ByteFile} {m m' : Mounted} {calls : List RecipientCall}

/-- What a run of calls leaves: a file that carries the new list and is otherwise as before. -/
structure Managed (P : Primitives) (lay : Layout) (k : Key) (payload : HeaderPayload)
    (l : AccessList) (f : ByteFile) (m m' : Mounted) (f' : ByteFile) : Prop where
  file : m'.world.file = some f'
  container : m'.container = m.container
  rollback : m'.world.rollback = m.world.rollback
  granted : Granted P lay k payload l f'
  others : ∀ p, lay.Has p → ¬ p.IsAccess →
    f'.slice (lay.region p).off (lay.region p).len = f.slice (lay.region p).off (lay.region p).len

theorem run_managed (h : Granted P lay k payload l f) (hs : Sizes total hidden lay)
    (hf : m.world.file = some f) (hk : m.container.kMaster = k)
    (hcipher : payload.cipher = m.container.cipher)
    (hrun : (calls.forM (RecipientCall.run P)).run m = .ok ⟨⟩ m') :
    ∃ f', Managed P lay k payload (calls.foldl RecipientCall.apply l) f m m' f' := by
  refine forM_ok_induction (fun done m₁ => ∃ f₁, Managed P lay k payload
    (done.foldl RecipientCall.apply l) f m m₁ f₁) hrun ⟨f, hf, rfl, rfl, h, fun _ _ _ => rfl⟩
    fun done c rest m₁ m₂ _ ⟨f₁, hinv⟩ hstep => ?_
  obtain ⟨parts, ws, hre⟩ := RecipientCall.run_ok hinv.granted hs hinv.file
    (by rw [hinv.container]; exact hk) (by rw [hinv.container]; exact hcipher) hstep
  refine ⟨f₁.replay ws, hre.issued.file_eq hinv.file, hre.container.trans hinv.container,
    hre.issued.rollback.trans hinv.rollback, ?_, fun p hp hnot => ?_⟩
  · rw [List.foldl_append]
    exact hre.granted
  · rw [hre.rewrites.slice_other hs hinv.granted.size hp fun hmem => hnot (hre.access p hmem)]
    exact hinv.others p hp hnot

end Run

/-! ## What is asked of the primitives -/

/-- For one password: its slots open under their cipher only, the slots of other passwords
    and the places of a hidden header not at all. -/
structure PasswordExact (P : Primitives) (f : ByteFile) (l : AccessList) (p : List UInt8) : Prop where
  own : ∀ i, l.passwords[i]? = some p → OnlyTriple P p (f.slice (pwSlotOffset i) pwSlotSize)
  other : ∀ i q, l.passwords[i]? = some q → q ≠ p →
    tryPasswordSlot P (f.slice (pwSlotOffset i) pwSlotSize) p = none
  hidden : p ∉ l.passwords → ∀ off, off = f.size - 512 ∨ off = 512 → ∀ key,
    deriveHiddenKey P (f.slice off 512) p = .ok key → probeHeader P (f.slice off 512) key true = none

/-- For one private key. -/
structure KeyExact (P : Primitives) (f : ByteFile) (l : AccessList) (cipher : CipherAlgorithm)
    (sk : HybridPrivateKey) : Prop where
  own : ∀ j, l.keys[j]? = some (sk.publicKey P) →
    OnlySealed P sk cipher (f.slice (keySlotOffset j) keySlotSize)
  other : ∀ j pk, l.keys[j]? = some pk → pk ≠ sk.publicKey P →
    tryKeySlot P (f.slice (keySlotOffset j) keySlotSize) sk = none

/-! ## Searching the slots -/

section Search

variable {lay : Layout} {total : UInt64} {hidden : Option UInt64} {k : Key} {payload : HeaderPayload}
  {l : AccessList} {f : ByteFile} {w : World}

/-- Slots of a list, of which exactly those of a credential open. -/
theorem findSome?_range {α β : Type} {entries : List α} {mine : α} {g : Nat → Option β} {b : β}
    (hown : ∀ i, entries[i]? = some mine → g i = some b)
    (hother : ∀ i a, entries[i]? = some a → a ≠ mine → g i = none) :
    (mine ∈ entries → (List.range' 0 entries.length).findSome? g = some b) ∧
      (mine ∉ entries → (List.range' 0 entries.length).findSome? g = none) := by
  have hget : ∀ i ∈ List.range' 0 entries.length, ∃ a, entries[i]? = some a := fun i hi =>
    ⟨_, List.getElem?_eq_getElem (by have := List.mem_range'_1.mp hi; omega)⟩
  constructor
  · intro hmem
    obtain ⟨i, hi⟩ := List.mem_iff_getElem?.mp hmem
    have hlt := (List.getElem?_eq_some_iff.mp hi).1
    refine findSome?_of_unique (List.mem_range'_1.mpr ⟨Nat.zero_le i, by omega⟩) (hown i hi) ?_
    intro j hj b' hb'
    obtain ⟨a, ha⟩ := hget j hj
    by_cases heq : a = mine
    · rw [hown j (heq ▸ ha)] at hb'
      exact (Option.some.inj hb').symm
    · rw [hother j a ha heq] at hb'
      cases hb'
  · intro hnot
    rw [List.findSome?_eq_none_iff]
    intro j hj
    obtain ⟨a, ha⟩ := hget j hj
    exact hother j a ha fun heq => hnot (heq ▸ List.mem_of_getElem? ha)

namespace Granted

/-- The counts `open` reads. -/
theorem slotCounts_eq (h : Granted P lay k payload l f) (hs : Sizes total hidden lay)
    (hf : w.file = some f) (hne : 0 < l.passwords.length + l.keys.length) :
    slotCounts w f.size = (l.passwords.length, l.keys.length) := by
  have hpw := toNat_ofNat_le h.passwords_le
  have hkey := toNat_ofNat_le h.keys_le
  refine (slotCounts_primary hf (h.large hs) h.plaintext ?_).trans (by rw [hpw, hkey])
  rintro ⟨hzero, hzero'⟩
  rw [hzero] at hpw
  rw [hzero'] at hkey
  change 0 = _ at hpw hkey
  omega

theorem recoverMaster_password (h : Granted P lay k payload l f) (hs : Sizes total hidden lay)
    (hf : w.file = some f) (hne : 0 < l.passwords.length + l.keys.length) (p : List UInt8) :
    recoverMaster P w f.size (.password p) = (List.range' 0 l.passwords.length).findSome? fun i =>
      tryPasswordSlot P (f.slice (pwSlotOffset i) pwSlotSize) p := by
  unfold recoverMaster
  rw [h.slotCounts_eq hs hf hne]
  refine @trySlots_eq _ _ (fun i => f.slice (pwSlotOffset i) pwSlotSize) _ _ fun i _ hi => ?_
  refine World.read_eq hf ?_
  have := h.passwords_le
  rw [h.size]
  exact hs.inside (p := .pwSlot i) (by change i < maxPasswordSlots; omega)

theorem recoverMaster_key (h : Granted P lay k payload l f) (hs : Sizes total hidden lay)
    (hf : w.file = some f) (hne : 0 < l.passwords.length + l.keys.length) (sk : HybridPrivateKey) :
    recoverMaster P w f.size (.privateKey sk) = (List.range' 0 l.keys.length).findSome? fun j =>
      tryKeySlot P (f.slice (keySlotOffset j) keySlotSize) sk := by
  unfold recoverMaster
  rw [h.slotCounts_eq hs hf hne]
  refine @trySlots_eq _ _ (fun j => f.slice (keySlotOffset j) keySlotSize) _ _ fun j _ hj => ?_
  refine World.read_eq hf ?_
  have := h.keys_le
  rw [h.size]
  exact hs.inside (p := .keySlot j) (by change j < maxKeySlots; omega)

end Granted

/-- A password of the list whose key begins unlike the keys of the others, with the toy primitives. -/
def SetsApart (l : AccessList) (p : List UInt8) : Prop :=
  p ∈ l.passwords ∧ ∀ q ∈ l.passwords, q ≠ p →
    (plainLayerKey (toBytes 32 (1 :: p)) .triple).toList.take 15 ≠
      (plainLayerKey (toBytes 32 (1 :: q)) .triple).toList.take 15

instance (l : AccessList) (p : List UInt8) : Decidable (SetsApart l p) :=
  inferInstanceAs (Decidable (_ ∧ _))

/-- Such a password recovers the key. -/
theorem Granted.recoverMaster_plain {v : UInt8} {p : List UInt8}
    (h : Granted plain lay k payload l f) (hs : Sizes total hidden lay) (hf : w.file = some f)
    (hbytes : k.toList = List.replicate 32 v) (hv : ∀ c, v ≠ plainMark c) (hp : SetsApart l p) :
    recoverMaster plain w f.size (.password p) = some (k, .triple) := by
  obtain ⟨hmem, hothers⟩ := hp
  rw [h.recoverMaster_password hs hf (Nat.add_pos_left (List.length_pos_of_mem hmem) _)]
  refine (findSome?_range (fun i hi => ?_) fun i q hi hne => ?_).1 hmem
  · exact tryPasswordSlot_eq (h.pwSlot i p hi) ((h.pwSlot i p hi).onlyTriple_plain hbytes hv)
  · exact (h.pwSlot i q hi).rejects_plain hbytes hv (hothers q (List.mem_of_getElem? hi) hne)

end Search

/-! ## The list of a new container -/

section Created

variable {outerPassword : List UInt8} {totalSizeBytes : UInt64} {cipher : CipherAlgorithm}
  {kdfProfile : String} {label : Option String} {hidden : Option HiddenVolumeOptions}
  {w w' : World} {m : VnmContainer} {b : Blocks}

theorem counted_newPayload : counted (newPayload b cipher w outerPassword kdfProfile label)
    (.created outerPassword) = newPayload b cipher w outerPassword kdfProfile label := by
  unfold counted AccessList.created newPayload outerPayload
  cases outerPassword <;> rfl

namespace Created

theorem granted (h : Created P outerPassword totalSizeBytes cipher kdfProfile label hidden w m w' b) :
    Granted P b.lay (drawnKey w b.lay) (newPayload b cipher w outerPassword kdfProfile label)
      (.created outerPassword) (image b w') := by
  have hslice : (image b w').slice 0 512 = b.hdr := h.slice_header
  have hone : (AccessList.created outerPassword).passwords.length ≤ 1 := by
    unfold AccessList.created
    split <;> simp
  refine ⟨h.size, hone.trans (by decide), Nat.zero_le _, ?_, ?_, ?_, fun j pk hj => by cases hj⟩
  · rw [hslice, counted_newPayload]
    exact h.isHeader
  · rw [hslice, h.hasHidden]
    exact h.slice_backup
  · intro i p hi
    unfold AccessList.created at hi
    by_cases hempty : outerPassword.isEmpty = true
    · simp [hempty] at hi
    · have hne : outerPassword ≠ [] := fun hnil => hempty (by rw [hnil]; rfl)
      simp only [if_neg hempty] at hi
      have hi' := List.getElem?_eq_some_iff.mp hi
      obtain ⟨hlt, hget⟩ := hi'
      have hzero : i = 0 := Nat.lt_one_iff.mp hlt
      subst hzero
      rw [h.slice_pwSlot hne, ← hget]
      exact h.parts.pwSlot hne

theorem baseline_le_one
    (h : Created P outerPassword totalSizeBytes cipher kdfProfile label hidden w m w' b)
    {v : World} (hrollback : v.rollback = w'.rollback) {stored : Nat}
    (hstored : v.baseline (drawnContainerId w b.lay) = some stored) : stored ≤ 1 := by
  have hbase := h.baseline (drawnContainerId w b.lay)
  rw [if_pos rfl, World.baseline, ← hrollback] at hbase
  cases hbase.symm.trans hstored
  exact Nat.le_refl 1

/-- In a file that carries the list of the new container, the toy primitives find the outer
    volume for the password. -/
theorem found_plain {v : UInt8} (h : Created plain outerPassword totalSizeBytes .xchacha20Poly1305
      kdfProfile label hidden (freePath v) m w' b) (hpw : outerPassword ≠ []) (hv : ∀ c, v ≠ plainMark c)
    {x : World} {g : ByteFile} (hx : x.file = some g)
    (hg : Granted plain b.lay (drawnKey (freePath v) b.lay)
      (newPayload b .xchacha20Poly1305 (freePath v) outerPassword kdfProfile label)
      (.created outerPassword) g) :
    (∃ c, recoverMaster plain x g.size (.password outerPassword) =
        some (drawnKey (freePath v) b.lay, c)) ∧
      findOuterHeader plain x g.size (drawnKey (freePath v) b.lay) =
        some (newPayload b .xchacha20Poly1305 (freePath v) outerPassword kdfProfile label) := by
  have hlist : (AccessList.created outerPassword).passwords = [outerPassword] := by
    unfold AccessList.created
    cases outerPassword with
    | nil => exact absurd rfl hpw
    | cons _ _ => rfl
  have hlarge : 1024 ≤ g.size := by
    rw [hg.size, ← h.size]
    exact h.size_ge.1
  have hapart : SetsApart (.created outerPassword) outerPassword := by
    rw [SetsApart, hlist]
    exact ⟨.head _, fun q hq hne => absurd (List.mem_singleton.mp hq) hne⟩
  refine ⟨⟨.triple, hg.recoverMaster_plain h.sizes hx (drawn_freePath v _ 32) hv hapart⟩, ?_⟩
  rw [← counted_newPayload]
  exact findOuterHeader_primary hx hlarge (probeHeader_eq hg.header (hg.header.onlyCipher_plain rfl))

/-- The volume is loaded from any file that has the allocation block and the header's fields. -/
theorem opens (h : Created P outerPassword totalSizeBytes cipher kdfProfile label hidden w m w' b)
    {v : World} {g : ByteFile} (hv : v.file = some g) (hsize : (image b w').size ≤ g.size)
    (hslice : g.slice (slotOffset outerAllocSlot) slotSize =
      (image b w').slice (slotOffset outerAllocSlot) slotSize)
    (hbaseline : ∀ stored, v.baseline (drawnContainerId w b.lay) = some stored → stored ≤ 1)
    {header : HeaderPayload} (hcipher : header.cipher = cipher)
    (hslots : header.outerSlots = b.lay.outerSlots)
    (hid : header.containerId = drawnContainerId w b.lay) :
    ∃ store, openOuter P v (drawnKey w b.lay) header =
      .ok (containerOf (drawnKey w b.lay) header false b.lay.outerSlots store) := by
  unfold openOuter
  rw [hslots]
  by_cases hzero : header.containerId = zeroId
  · have hread := h.reads_alloc hv hsize hslice
      (show (storeToLoad (drawnKey w b.lay) header 0 b.lay.outerSlots.toNat
        outerAllocSlot).masterKey = _ from rfl) hcipher
    have hload := loadFreeList_legacy (decide_eq_false fun hne => hne hzero) hread
      (by rw [length_allocData]; split <;> exact Nat.le_add_right_of_le (by decide))
    exact ⟨_, openVolume_eq_ok.mpr ⟨_, hload, fun hne => absurd hzero hne, rfl⟩⟩
  · obtain ⟨store, hload, hgeneration, -⟩ := h.load hv hsize hslice hcipher hzero
    refine ⟨store, openVolume_eq_ok.mpr ⟨store, hload, fun _ stored hstored => ?_, rfl⟩⟩
    rw [hgeneration]
    exact hbaseline stored (hid ▸ hstored)

end Created

end Created

/-! ## The access list -/

def Opens (P : Primitives) (w : World) (credential : OpenCredential) : Prop :=
  ∃ c, openContainer P w credential = .ok c

/-- The file behaves as an access list: what is listed, what both headers say, and who may
    open it. -/
structure Implements (P : Primitives) (m : VnmContainer) (l : AccessList) (m' : Mounted)
    (f : ByteFile) : Prop where
  passwords_le : l.passwords.length ≤ maxPasswordSlots
  keys_le : l.keys.length ≤ maxKeySlots
  listed : listRecipients m' = .ok ((List.range l.passwords.length).map (RecipientInfo.mk false) ++
    (List.range l.keys.length).map (RecipientInfo.mk true))
  counts : ∀ off, off = 0 ∨ off = f.size - 512 → ∃ kdfProfile, readHeaderPlaintext (f.slice off 512) =
    (kdfProfile, UInt8.ofNat l.passwords.length, UInt8.ofNat l.keys.length)
  password : ∀ p, PasswordExact P f l p → (Opens P m'.world (.password p) ↔ p ∈ l.passwords) ∧
    ∀ c, openContainer P m'.world (.password p) = .ok c → c.kMaster = m.kMaster ∧ c.cipher = m.cipher
  privateKey : ∀ sk, KeyExact P f l m.cipher sk →
    (Opens P m'.world (.privateKey sk) ↔ sk.publicKey P ∈ l.keys) ∧
    ∀ c, openContainer P m'.world (.privateKey sk) = .ok c → c.kMaster = m.kMaster ∧ c.cipher = m.cipher

section AccessList

variable {outerPassword : List UInt8} {totalSizeBytes : UInt64} {cipher : CipherAlgorithm}
  {kdfProfile : String} {label : Option String} {hidden : Option HiddenVolumeOptions}
  {w w' : World} {m : VnmContainer} {b : Blocks} {l : AccessList} {f : ByteFile} {m' : Mounted}

/-- The creation password is never removed. -/
theorem passwords_pos (hpw : outerPassword ≠ []) (calls : List RecipientCall) :
    0 < (calls.foldl RecipientCall.apply (.created outerPassword)).passwords.length := by
  have hinit : 0 < (AccessList.created outerPassword).passwords.length := by
    unfold AccessList.created
    cases outerPassword with
    | nil => exact absurd rfl hpw
    | cons _ _ => exact Nat.one_pos
  have go : ∀ (calls : List RecipientCall) (l : AccessList), 0 < l.passwords.length →
      0 < (calls.foldl RecipientCall.apply l).passwords.length := by
    intro calls
    induction calls with
    | nil => exact fun _ h => h
    | cons c calls ih =>
      intro l hl
      refine ih (c.apply l) ?_
      cases c with
      | addPassword p =>
        change 0 < (l.passwords ++ [p]).length
        rw [List.length_append]
        omega
      | addKey _ | removeKey _ => exact hl
  exact go calls _ hinit

/-- A credential that recovers the key opens the volume; one that does not is refused. -/
theorem Created.open_of_master
    (h : Created P outerPassword totalSizeBytes cipher kdfProfile label hidden w m w' b)
    (hm : Managed P b.lay (drawnKey w b.lay) (newPayload b cipher w outerPassword kdfProfile label) l
      (image b w') { container := m, world := w' } m' f)
    (honly : OnlyCipher P m.kMaster false m.cipher (f.slice 0 512)) {credential : OpenCredential}
    {c : CipherAlgorithm}
    (hmaster : recoverMaster P m'.world f.size credential = some (drawnKey w b.lay, c)) :
    ∃ opened, openContainer P m'.world credential = .ok opened ∧ opened.kMaster = m.kMaster ∧
      opened.cipher = m.cipher := by
  have hparts := h.parts.container
  have hkey : m.kMaster = drawnKey w b.lay := by rw [hparts]
  have hcipher : m.cipher = cipher := by rw [hparts]
  rw [hkey, hcipher] at honly
  have hsize : (image b w').size ≤ f.size := by rw [hm.granted.size, h.size]
  have hprobe := probeHeader_eq hm.granted.header honly
  have hheader := findOuterHeader_primary hm.file (h.size_ge.1.trans hsize) hprobe
  obtain ⟨store, hopen⟩ := h.opens hm.file hsize
    (hm.others (.outerSlot outerAllocSlot) h.alloc.has (fun hf => hf))
    (fun stored hstored => h.baseline_le_one hm.rollback hstored)
    (show (counted (newPayload b cipher w outerPassword kdfProfile label) l).cipher = _ from rfl)
    rfl rfl
  refine ⟨_, (openContainer_outer hm.file (findOuter_eq_some.mpr ⟨⟨c, hmaster⟩, hheader⟩)).trans hopen,
    ?_, ?_⟩
  · rw [hkey]
    rfl
  · rw [hcipher]
    rfl

/-- A credential opens the container exactly if it is a member. -/
theorem Created.open_iff
    (h : Created P outerPassword totalSizeBytes cipher kdfProfile label hidden w m w' b)
    (hm : Managed P b.lay (drawnKey w b.lay) (newPayload b cipher w outerPassword kdfProfile label) l
      (image b w') { container := m, world := w' } m' f)
    (honly : OnlyCipher P m.kMaster false m.cipher (f.slice 0 512)) {credential : OpenCredential}
    {c : CipherAlgorithm} {member : Prop}
    (hin : member → recoverMaster P m'.world f.size credential = some (drawnKey w b.lay, c))
    (hout : ¬ member → openContainer P m'.world credential = .error .authenticationFailed) :
    (Opens P m'.world credential ↔ member) ∧ ∀ opened, openContainer P m'.world credential =
      .ok opened → opened.kMaster = m.kMaster ∧ opened.cipher = m.cipher := by
  by_cases hmem : member
  · obtain ⟨opened, hopen, hsame⟩ := h.open_of_master hm honly (hin hmem)
    refine ⟨⟨fun _ => hmem, fun _ => ⟨opened, hopen⟩⟩, fun opened' hopen' => ?_⟩
    cases hopen.symm.trans hopen'
    exact hsame
  · have hopen := hout hmem
    refine ⟨⟨fun ⟨c, hc⟩ => ?_, fun hin => absurd hin hmem⟩, fun c hc => ?_⟩
    · rw [hopen] at hc
      cases hc
    · rw [hopen] at hc
      cases hc

theorem Created.password_iff
    (h : Created P outerPassword totalSizeBytes cipher kdfProfile label hidden w m w' b)
    (hm : Managed P b.lay (drawnKey w b.lay) (newPayload b cipher w outerPassword kdfProfile label) l
      (image b w') { container := m, world := w' } m' f)
    (honly : OnlyCipher P m.kMaster false m.cipher (f.slice 0 512)) (hpos : 0 < l.passwords.length)
    (hlarge : 1024 ≤ f.size) {p : List UInt8} (hexact : PasswordExact P f l p) :
    (Opens P m'.world (.password p) ↔ p ∈ l.passwords) ∧ ∀ opened, openContainer P m'.world
      (.password p) = .ok opened → opened.kMaster = m.kMaster ∧ opened.cipher = m.cipher := by
  have hg := hm.granted
  obtain ⟨hin, hout⟩ := @findSome?_range _ _ _ p
    (fun i => tryPasswordSlot P (f.slice (pwSlotOffset i) pwSlotSize) p) _
    (fun i hi => tryPasswordSlot_eq (hg.pwSlot i p hi) (hexact.own i hi)) hexact.other
  have hmaster := hg.recoverMaster_password h.sizes hm.file (by omega) p
  refine h.open_iff hm honly (fun hmem => hmaster.trans (hin hmem)) fun hmem => ?_
  have hnone : findHidden P m'.world f.size p = none := by
    unfold findHidden
    rw [tryHiddenAt_none hm.file (by omega) (hexact.hidden hmem _ (.inl rfl)),
      tryHiddenAt_none hm.file (by omega) (hexact.hidden hmem _ (.inr rfl))]
    rfl
  exact openContainer_password_none hm.file (findOuter_none_of_master (hmaster.trans (hout hmem))) hnone

theorem Created.privateKey_iff
    (h : Created P outerPassword totalSizeBytes cipher kdfProfile label hidden w m w' b)
    (hm : Managed P b.lay (drawnKey w b.lay) (newPayload b cipher w outerPassword kdfProfile label) l
      (image b w') { container := m, world := w' } m' f)
    (honly : OnlyCipher P m.kMaster false m.cipher (f.slice 0 512)) (hpos : 0 < l.passwords.length)
    {sk : HybridPrivateKey} (hexact : KeyExact P f l cipher sk) :
    (Opens P m'.world (.privateKey sk) ↔ sk.publicKey P ∈ l.keys) ∧ ∀ opened, openContainer P m'.world
      (.privateKey sk) = .ok opened → opened.kMaster = m.kMaster ∧ opened.cipher = m.cipher := by
  have hg := hm.granted
  have hown : ∀ j, l.keys[j]? = some (sk.publicKey P) →
      tryKeySlot P (f.slice (keySlotOffset j) keySlotSize) sk = some (drawnKey w b.lay, cipher) :=
    fun j hj => tryKeySlot_eq (hg.keySlot j _ hj) (hexact.own j hj)
  obtain ⟨hin, hout⟩ := @findSome?_range _ _ _ (sk.publicKey P)
    (fun j => tryKeySlot P (f.slice (keySlotOffset j) keySlotSize) sk) _ hown hexact.other
  have hmaster := hg.recoverMaster_key h.sizes hm.file (by omega) sk
  exact h.open_iff hm honly (fun hmem => hmaster.trans (hin hmem)) fun hmem =>
    openContainer_privateKey hm.file (findOuter_none_of_master (hmaster.trans (hout hmem)))

/-- What is listed, and the counts of both headers when there is no hidden volume. -/
theorem Managed.listed {lay : Layout} {k : Key} {payload : HeaderPayload} {m₀ : Mounted}
    {f₀ : ByteFile} (hm : Managed P lay k payload l f₀ m₀ m' f) (hlarge : 1024 ≤ f.size) :
    listRecipients m' = .ok ((List.range l.passwords.length).map (RecipientInfo.mk false) ++
      (List.range l.keys.length).map (RecipientInfo.mk true)) := by
  have hg := hm.granted
  unfold listRecipients
  rw [except_bind_of_ok (read512At_eq hm.file (show 0 + 512 ≤ f.size by omega)), hg.plaintext]
  dsimp only
  rw [toNat_ofNat_le hg.passwords_le, toNat_ofNat_le hg.keys_le]

theorem Managed.backup {lay : Layout} {k : Key} {payload : HeaderPayload} {m₀ : Mounted}
    {f₀ : ByteFile} (hm : Managed P lay k payload l f₀ m₀ m' f) (hhidden : lay.hasHidden = false) :
    f.slice (f.size - 512) 512 = f.slice 0 512 := by
  have hoff : outerBackupOffset f.size false = f.size - 512 := if_neg Bool.false_ne_true
  rw [← hm.granted.backup, ← hm.granted.size, hhidden, hoff]

/-- Recipient management implements an access list, whatever sequence of calls succeeded. -/
theorem access_list {calls : List RecipientCall}
    (hcreate : (create P outerPassword totalSizeBytes cipher kdfProfile label none).run w = .ok m w')
    (hpw : outerPassword ≠ [])
    (hrun : (calls.forM (RecipientCall.run P)).run { container := m, world := w' } = .ok ⟨⟩ m')
    (hf : m'.world.file = some f) (honly : OnlyCipher P m.kMaster false m.cipher (f.slice 0 512)) :
    Implements P m (calls.foldl RecipientCall.apply (.created outerPassword)) m' f := by
  obtain ⟨b, h⟩ := create_ok hcreate
  have hparts := h.parts.container
  have hkey : m.kMaster = drawnKey w b.lay := by rw [hparts]
  have hcipher : m.cipher = cipher := by rw [hparts]
  obtain ⟨f', hm⟩ := run_managed (m := { container := m, world := w' }) h.granted h.sizes h.file_eq hkey
    hcipher.symm hrun
  cases hf.symm.trans hm.file
  have hpos := passwords_pos hpw calls
  have hlarge : 1024 ≤ f.size := by
    rw [hm.granted.size, ← h.size]
    exact h.size_ge.1
  refine ⟨hm.granted.passwords_le, hm.granted.keys_le, hm.listed hlarge, fun off hoff => ?_,
    fun p hexact => h.password_iff hm honly hpos hlarge hexact, fun sk hexact => ?_⟩
  · have hslice : f.slice off 512 = f.slice 0 512 := by
      rcases hoff with hoff | hoff
      · rw [hoff]
      · rw [hoff]
        exact hm.backup h.hasHidden
    rw [hslice]
    exact ⟨_, hm.granted.plaintext⟩
  · rw [hcipher] at hexact
    exact h.privateKey_iff hm honly hpos hexact

/-- A second password is added, and opens the container. -/
theorem access_list_second :
    ∃ m w' m' f, (create plain [1] 1000000 .xchacha20Poly1305 "interactive" (some "vault") none).run
        (freePath 7) = .ok m w' ∧
      ([.addPassword [2]].forM (RecipientCall.run plain)).run { container := m, world := w' } =
        .ok ⟨⟩ m' ∧ m'.world.file = some f ∧
      Implements plain m { passwords := [[1], [2]], keys := [] } m' f ∧
      Opens plain m'.world (.password [2]) := by
  obtain ⟨m, w', hcreate⟩ := create_million_isOk 7
  obtain ⟨b, h⟩ := create_ok hcreate
  have hparts := h.parts.container
  have hkey : m.kMaster = drawnKey (freePath 7) b.lay := by rw [hparts]
  have hcipher : m.cipher = .xchacha20Poly1305 := by rw [hparts]
  have hbytes : (drawnKey (freePath 7) b.lay).toList = List.replicate 32 7 := drawn_freePath 7 _ 32
  have hmarks : ∀ c, (7 : UInt8) ≠ plainMark c := fun c => by cases c <;> decide
  obtain ⟨slot, w₁, hencode⟩ := @encodePasswordSlot_isOk plain (drawnKey (freePath 7) b.lay) w' _ _
      ((plain_hasKeys [2] (kdfId "interactive")).slot _)
  obtain ⟨m', hadd⟩ := addPassword_isOk (m := { container := m, world := w' }) h.granted h.sizes
    h.file_eq hkey hcipher.symm (by decide) hencode
  have hrun : ([.addPassword [2]].forM (RecipientCall.run plain)).run { container := m, world := w' } =
      .ok ⟨⟩ m' := (run_bind_of_ok hadd).trans rfl
  obtain ⟨f, hm⟩ := run_managed (m := { container := m, world := w' }) h.granted h.sizes h.file_eq hkey
    hcipher.symm hrun
  have honly : OnlyCipher plain m.kMaster false m.cipher (f.slice 0 512) := by
    rw [hkey, hcipher]
    exact hm.granted.header.onlyCipher_plain rfl
  have himplements := access_list hcreate (by simp) hrun hm.file honly
  refine ⟨m, w', m', f, hcreate, hrun, hm.file, himplements, ((himplements.password [2] ?_).1).mpr (by decide)⟩
  refine ⟨fun i hi => ?_, fun i q hi hne => ?_, fun hnot => absurd (by decide) hnot⟩
  · exact (hm.granted.pwSlot i [2] hi).onlyTriple_plain hbytes hmarks
  · have hq : q = [1] := by
      have hmem := List.mem_of_getElem? hi
      rcases List.mem_cons.mp hmem with rfl | hmem
      · rfl
      · exact absurd (List.mem_singleton.mp hmem) hne
    subst hq
    exact (hm.granted.pwSlot i [1] hi).rejects_plain hbytes hmarks (by decide)

end AccessList

end Venom.Fs

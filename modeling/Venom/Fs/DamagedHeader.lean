import Venom.Fs.AccessList

/-! # A damaged primary header

512 bytes are written over the primary header and the rest of the file is intact.  `open`
takes the slot counts from the damaged bytes, unless both are zero there, and looks for a
header that decodes only after a slot has opened: the backup is of use to the credentials
whose slot the counts still cover.
-/

namespace Venom.Fs

open Venom.Container
open Venom.Crypto
open Venom.Storage
open Venom.Storage.SlotStore
open Venom.Library
open Venom.Library.Words
open Venom.Library.StateError

variable {P : Primitives}

/-! ## The first slot that opens -/

/-- Slot `i` is the first one a credential opens. -/
def FirstOpening (readSlot : Nat → Except VnmError (List UInt8))
    (trySlot : List UInt8 → Option (Key × CipherAlgorithm)) (i : Nat) (k : Key) : Prop :=
  (∀ j < i, ∃ slot, readSlot j = .ok slot ∧ trySlot slot = none) ∧
    ∃ slot c, readSlot i = .ok slot ∧ trySlot slot = some (k, c)

section Search

variable {readSlot : Nat → Except VnmError (List UInt8)}
  {trySlot : List UInt8 → Option (Key × CipherAlgorithm)} {i n : Nat} {k : Key}

/-- Whether a search finds the slot is a question of how many it tries. -/
theorem FirstOpening.search (h : FirstOpening readSlot trySlot i k) : ∃ c, ∀ n,
    trySlots readSlot trySlot 0 n = if i < n then some (k, c) else none := by
  obtain ⟨hbefore, slot, c, hread, htry⟩ := h
  refine ⟨c, fun n => ?_⟩
  have go : ∀ d n, d ≤ i → trySlots readSlot trySlot (i - d) n =
      if d < n then some (k, c) else none := by
    intro d
    induction d with
    | zero =>
      intro n _
      cases n with
      | zero => rfl
      | succ n =>
        rw [trySlots, Nat.sub_zero, hread]
        simp only [htry]
        rw [if_pos (Nat.succ_pos n)]
    | succ d ih =>
      intro n hd
      cases n with
      | zero => rfl
      | succ n =>
        obtain ⟨slot', hread', htry'⟩ := hbefore (i - (d + 1)) (by omega)
        rw [trySlots, hread']
        simp only [htry']
        rw [show i - (d + 1) + 1 = i - d by omega, ih n (by omega)]
        simp only [Nat.succ_lt_succ_iff]
  have := go i n (Nat.le_refl i)
  rwa [Nat.sub_self] at this

/-- A search that finds a key stops at the first slot that opens. -/
theorem firstOpening_of_trySlots {r : Key × CipherAlgorithm}
    (h : trySlots readSlot trySlot 0 n = some r) :
    ∃ i < n, FirstOpening readSlot trySlot i r.1 := by
  have go : ∀ n i, trySlots readSlot trySlot i n = some r →
      (∀ j < i, ∃ slot, readSlot j = .ok slot ∧ trySlot slot = none) →
      ∃ i' < i + n, FirstOpening readSlot trySlot i' r.1 := by
    intro n
    induction n with
    | zero => intro i h; cases h
    | succ n ih =>
      intro i h hbefore
      unfold trySlots at h
      cases hread : readSlot i with
      | error e => rw [hread] at h; cases h
      | ok slot =>
        rw [hread] at h
        cases htry : trySlot slot with
        | some r' =>
          simp only [htry] at h
          cases h
          exact ⟨i, by omega, hbefore, slot, r.2, hread, htry⟩
        | none =>
          simp only [htry] at h
          obtain ⟨i', hlt, hfirst⟩ := ih (i + 1) h fun j hj => by
            rcases Nat.lt_succ_iff_lt_or_eq.mp hj with hj | rfl
            · exact hbefore j hj
            · exact ⟨slot, hread, htry⟩
          exact ⟨i', by omega, hfirst⟩
  obtain ⟨i, hlt, hfirst⟩ := go n 0 h fun j hj => absurd hj (Nat.not_lt_zero j)
  exact ⟨i, by omega, hfirst⟩

end Search

/-! ## The counts a reader falls back to -/

/-- The counts a header names, if it names any. -/
def namedCounts (raw : List UInt8) : Option (Nat × Nat) :=
  let (_, p, k) := readHeaderPlaintext raw
  if p = 0 ∧ k = 0 then none else some (p.toNat, k.toNat)

/-- The counts named at the end of the file. -/
def tailCounts (f : ByteFile) : Nat × Nat :=
  ((namedCounts (f.slice (f.size - 512) 512)).or (namedCounts (f.slice (f.size - 1024) 512))).getD (0, 0)

theorem namedCounts_eq (raw : List UInt8) : namedCounts raw =
    (let (_, p, k) := readHeaderPlaintext raw
     if 0 < p ∨ 0 < k then some (p.toNat, k.toNat) else none) := by
  unfold namedCounts readHeaderPlaintext
  dsimp only
  by_cases hp : raw.getD 66 0 = 0
  · by_cases hk : raw.getD 67 0 = 0
    · rw [if_pos ⟨hp, hk⟩, if_neg (by rw [hp, hk]; simp)]
    · rw [if_neg fun h => hk h.2, if_pos (.inr (UInt8.pos_iff_ne_zero.mpr hk))]
  · rw [if_neg fun h => hp h.1, if_pos (.inl (UInt8.pos_iff_ne_zero.mpr hp))]

/-- The counts at a place, as the fallback of `open` takes them. -/
theorem namedAt_eq {w : World} {off : Nat} {raw : List UInt8} (h : read512At w off = .ok raw) :
    ((read512At w off).toOption.bind fun raw =>
      let (_, p, k) := readHeaderPlaintext raw
      if 0 < p ∨ 0 < k then some (p.toNat, k.toNat) else none) = namedCounts raw := by
  rw [h, namedCounts_eq]
  rfl

theorem slotCounts_of_reads {w : World} {size : Nat} {raw₀ raw₁ raw₂ : List UInt8}
    (h₀ : read512At w 0 = .ok raw₀) (h₁ : read512At w (size - 512) = .ok raw₁)
    (h₂ : read512At w (size - 1024) = .ok raw₂) : slotCounts w size =
      (namedCounts raw₀).getD (((namedCounts raw₁).or (namedCounts raw₂)).getD (0, 0)) := by
  obtain ⟨kdf, p, k, hplain⟩ : ∃ kdf p k, readHeaderPlaintext raw₀ = (kdf, p, k) := ⟨_, _, _, rfl⟩
  unfold slotCounts
  rw [h₀]
  simp only [Except.toOption, Option.getD_some, hplain]
  by_cases hzero : p = 0 ∧ k = 0
  · have hnone : namedCounts raw₀ = none := by simp only [namedCounts, hplain, if_pos hzero]
    rw [if_pos hzero, hnone, Option.getD_none, List.findSome?_cons, List.findSome?_cons,
      List.findSome?_nil]
    have hat₁ := namedAt_eq h₁
    have hat₂ := namedAt_eq h₂
    simp only [Except.toOption] at hat₁ hat₂
    rw [hat₁, hat₂]
    cases namedCounts raw₁ <;> cases namedCounts raw₂ <;> rfl
  · have hsome : namedCounts raw₀ = some (p.toNat, k.toNat) := by
      simp only [namedCounts, hplain, if_neg hzero]
    rw [if_neg hzero, hsome]
    rfl

theorem slotCounts_named {w : World} {f : ByteFile} (hf : w.file = some f) (hsize : 1024 ≤ f.size) :
    slotCounts w f.size = (namedCounts (f.slice 0 512)).getD (tailCounts f) :=
  slotCounts_of_reads (read512At_eq hf (by omega)) (read512At_eq hf (by omega))
    (read512At_eq hf (by omega))

/-! ## The slots of a credential -/

namespace OpenCredential

def readSlot (w : World) : OpenCredential → Nat → Except VnmError (List UInt8)
  | .password _ => readPwSlotRaw w
  | .privateKey _ => readKeySlotRaw w

def trySlot (P : Primitives) : OpenCredential → List UInt8 → Option (Key × CipherAlgorithm)
  | .password p => fun slot => tryPasswordSlot P slot p
  | .privateKey sk => fun slot => tryKeySlot P slot sk

/-- The count of the slots of its kind. -/
def count : OpenCredential → Nat × Nat → Nat
  | .password _ => Prod.fst
  | .privateKey _ => Prod.snd

end OpenCredential

theorem recoverMaster_search (w : World) (size : Nat) (credential : OpenCredential) :
    recoverMaster P w size credential = trySlots (credential.readSlot w) (credential.trySlot P) 0
      (credential.count (slotCounts w size)) := by
  cases credential <;> rfl

/-! ## The damage -/

section Damage

variable {w : World} {f : ByteFile} {raw : List UInt8}

theorem size_damaged (hraw : raw.length = 512) (hsize : 512 ≤ f.size) : (f.write 0 raw).size = f.size :=
  ByteFile.size_write_of_le (by omega)

theorem slice_damaged (hraw : raw.length = 512) : (f.write 0 raw).slice 0 512 = raw := by
  have := ByteFile.slice_write_self 0 raw f
  rwa [hraw] at this

/-- What lies behind the header reads as before. -/
theorem read_damaged (hf : w.file = some f) (hraw : raw.length = 512) (hsize : 512 ≤ f.size) {off : Nat}
    (hoff : 512 ≤ off) (len : Nat) : (w.write 0 raw f).read off len = w.read off len := by
  have hread : (f.write 0 raw).read off len = f.read off len := by
    unfold ByteFile.read
    rw [size_damaged hraw hsize]
    by_cases hle : off + len ≤ f.size
    · rw [if_pos hle, if_pos hle, (ByteFile.agreeOn_write hle (.inr (by omega))).slice_eq]
    · rw [if_neg hle, if_neg hle]
  simp only [World.read, hf, World.file_write, hread]

theorem slice_behind (hraw : raw.length = 512) {off len : Nat} (hoff : 512 ≤ off)
    (hle : off + len ≤ f.size) : (f.write 0 raw).slice off len = f.slice off len :=
  (ByteFile.agreeOn_write hle (.inr (by omega))).slice_eq

theorem tailCounts_damaged (hraw : raw.length = 512) (hsize : 1536 ≤ f.size) :
    tailCounts (f.write 0 raw) = tailCounts f := by
  unfold tailCounts
  rw [size_damaged hraw (by omega), slice_behind hraw (by omega) (by omega),
    slice_behind hraw (by omega) (by omega)]

theorem readSlot_damaged (hf : w.file = some f) (hraw : raw.length = 512) (hsize : 512 ≤ f.size)
    (credential : OpenCredential) : credential.readSlot (w.write 0 raw f) = credential.readSlot w := by
  have hregion : 512 ≤ headerRegionSize := by decide
  cases credential with
  | password p =>
    exact funext fun i => read_damaged hf hraw hsize (hregion.trans (Nat.le_add_right _ _)) _
  | privateKey sk =>
    exact funext fun j => read_damaged hf hraw hsize (hregion.trans (Nat.le_add_right _ _)) _

theorem slots_damaged (hf : w.file = some f) (hraw : raw.length = 512) (hsize : 512 ≤ f.size)
    (slot : Nat) : (w.write 0 raw f).read (slotOffset slot) slotSize =
      w.read (slotOffset slot) slotSize := by
  have hdata : 512 ≤ dataAreaOffset := by decide
  exact read_damaged hf hraw hsize (hdata.trans (Nat.le_add_right _ _)) _

/-- The first slot that opens is found when the counts at hand cover it. -/
theorem recoverMaster_damaged (hf : w.file = some f) (hraw : raw.length = 512) (hsize : 1536 ≤ f.size)
    {credential : OpenCredential} {i : Nat} {k : Key}
    (h : FirstOpening (credential.readSlot w) (credential.trySlot P) i k) :
    ∃ c, recoverMaster P (w.write 0 raw f) f.size credential =
      if i < credential.count ((namedCounts raw).getD (tailCounts f)) then some (k, c) else none := by
  obtain ⟨c, hsearch⟩ := h.search
  have hcounts := slotCounts_named (World.file_write w 0 raw f)
    (by rw [size_damaged hraw (by omega)]; omega)
  rw [size_damaged hraw (by omega), slice_damaged hraw, tailCounts_damaged hraw hsize] at hcounts
  refine ⟨c, ?_⟩
  rw [recoverMaster_search, readSlot_damaged hf hraw (by omega), hcounts]
  exact hsearch _

/-- One of two copies is found without the original. -/
theorem or_of_copy {α : Type} {p q r : Option α} {a : α} (h : p.or (q.or r) = some a)
    (hcopy : q = p ∨ r = p ∧ q = none) : q.or r = some a := by
  rcases hcopy with rfl | ⟨rfl, rfl⟩
  · cases q <;> exact h
  · cases r <;> exact h

/-- What decodes of the damaged header, or else the backup, provided that the backup is found
    at all: nothing in front of it decodes. -/
theorem findOuterHeader_damaged (hf : w.file = some f) (hraw : raw.length = 512)
    (hsize : 1536 ≤ f.size) {k : Key} {header : HeaderPayload}
    (hbackup : f.slice (f.size - 512) 512 = f.slice 0 512 ∨
      f.slice (f.size - 1024) 512 = f.slice 0 512 ∧
        probeHeader P (f.slice (f.size - 512) 512) k false = none)
    (h : findOuterHeader P w f.size k = some header) :
    findOuterHeader P (w.write 0 raw f) f.size k =
      some ((probeHeader P raw k false).getD header) := by
  have hdamaged := findOuterHeader_eq (P := P) (World.file_write w 0 raw f)
    (by rw [size_damaged hraw (by omega)]; omega) k
  rw [size_damaged hraw (by omega), slice_damaged hraw, slice_behind hraw (by omega) (by omega),
    slice_behind hraw (by omega) (by omega)] at hdamaged
  rw [findOuterHeader_eq hf (by omega)] at h
  rw [hdamaged]
  have hcopies : probeHeader P (f.slice (f.size - 512) 512) k false = probeHeader P (f.slice 0 512) k false ∨
      probeHeader P (f.slice (f.size - 1024) 512) k false = probeHeader P (f.slice 0 512) k false ∧
        probeHeader P (f.slice (f.size - 512) 512) k false = none :=
    hbackup.imp (fun hcopy => by rw [hcopy]) fun hcopy => ⟨by rw [hcopy.1], hcopy.2⟩
  rw [or_of_copy h hcopies]
  cases probeHeader P raw k false <;> rfl

end Damage

/-! ## Opening the damaged file -/

section Survival

variable {w : World} {f : ByteFile} {raw : List UInt8} {credential : OpenCredential} {c : VnmContainer}

theorem openContainer_isOuter (hf : w.file = some f) (h : openContainer P w credential = .ok c)
    (houter : c.isHidden = false) : ∃ header,
      findOuter P w f.size credential = some (c.kMaster, header) ∧
      openOuter P w c.kMaster header = .ok c := by
  cases hfind : findOuter P w f.size credential with
  | some found =>
    obtain ⟨k, header⟩ := found
    rw [openContainer_outer hf hfind] at h
    obtain ⟨store, hload, hbase, rfl⟩ := openVolume_eq_ok.mp h
    exact ⟨header, rfl, h⟩
  | none =>
    cases credential with
    | privateKey sk =>
      rw [openContainer_privateKey hf hfind] at h
      cases h
    | password pw =>
      cases hhidden : findHidden P w f.size pw with
      | none =>
        rw [openContainer_password_none hf hfind hhidden] at h
        cases h
      | some found =>
        obtain ⟨k, header⟩ := found
        rw [openContainer_hidden hf hfind hhidden] at h
        obtain ⟨store, -, -, rfl⟩ := openVolume_eq_ok.mp h
        cases houter

/-- A header speaks of the volume that was opened. -/
structure SameVolume (c : VnmContainer) (header : HeaderPayload) : Prop where
  cipher : header.cipher = c.cipher
  outerSlots : header.outerSlots = c.outerSlots
  rootSlot : header.rootSlot = c.rootSlot
  label : labelFrom header.label = c.label
  containerId : header.containerId = c.containerId

/-- `open` still hands out the outer volume. -/
def Survives (P : Primitives) (c : VnmContainer) (w : World) (credential : OpenCredential) : Prop :=
  ∃ c', openContainer P w credential = .ok c' ∧ c'.isHidden = false ∧ c'.kMaster = c.kMaster ∧
    c'.cipher = c.cipher ∧ c'.outerSlots = c.outerSlots ∧ c'.rootSlot = c.rootSlot ∧
    c'.label = c.label ∧ c'.containerId = c.containerId

/-- The damage leaves slot `i` covered by the counts, and what decodes of the damaged bytes
    speaks of the same volume. -/
structure Recoverable (P : Primitives) (f : ByteFile) (c : VnmContainer)
    (credential : OpenCredential) (i : Nat) (raw : List UInt8) : Prop where
  covered : i < credential.count ((namedCounts raw).getD (tailCounts f))
  genuine : ∀ header, probeHeader P raw c.kMaster false = some header → SameVolume c header

/-- A header of the same volume opens it in the damaged file. -/
theorem openOuter_damaged (hf : w.file = some f) (hraw : raw.length = 512) (hsize : 1536 ≤ f.size)
    {header header' : HeaderPayload} (hopen : openOuter P w c.kMaster header = .ok c)
    (hsame : SameVolume c header') :
    ∃ store, openOuter P (w.write 0 raw f) c.kMaster header' =
      .ok (containerOf c.kMaster header' false header'.outerSlots store) := by
  obtain ⟨store, hload, hbase, hc⟩ := openVolume_eq_ok.mp hopen
  have hcipher : header'.cipher = header.cipher := by rw [hsame.cipher, hc]; rfl
  have hid : header'.containerId = header.containerId := by rw [hsame.containerId, hc]; rfl
  have hslots : header'.outerSlots = header.outerSlots := by rw [hsame.outerSlots, hc]; rfl
  refine ⟨store, openVolume_eq_ok.mpr ⟨store, ?_, ?_, rfl⟩⟩
  · rw [loadFreeList_congr (slots_damaged hf hraw (by omega))]
    unfold storeToLoad at hload ⊢
    rw [hcipher, hid, hslots]
    exact hload
  · rw [hid]
    exact hbase

/-- Opening after the damage succeeds exactly if it is recoverable. -/
theorem survives_iff (hf : w.file = some f) (hsize : 1536 ≤ f.size)
    (hbackup : f.slice (f.size - 512) 512 = f.slice 0 512 ∨
      f.slice (f.size - 1024) 512 = f.slice 0 512 ∧
        probeHeader P (f.slice (f.size - 512) 512) c.kMaster false = none)
    (hopen : openContainer P w credential = .ok c) (houter : c.isHidden = false) {i : Nat}
    (hfirst : FirstOpening (credential.readSlot w) (credential.trySlot P) i c.kMaster)
    (hraw : raw.length = 512) :
    Survives P c (w.write 0 raw f) credential ↔ Recoverable P f c credential i raw := by
  obtain ⟨header, hfind, hvolume⟩ := openContainer_isOuter hf hopen houter
  obtain ⟨-, hheader⟩ := findOuter_eq_some.mp hfind
  obtain ⟨cipher, hmaster⟩ := recoverMaster_damaged hf hraw hsize hfirst
  have hheader' := findOuterHeader_damaged hf hraw hsize hbackup hheader
  have hf' : (w.write 0 raw f).file = some (f.write 0 raw) := rfl
  have hsize' := size_damaged hraw (show 512 ≤ f.size by omega)
  by_cases hcovered : i < credential.count ((namedCounts raw).getD (tailCounts f))
  · rw [if_pos hcovered] at hmaster
    have hopen' := openContainer_outer (P := P) hf' (by
      rw [hsize']
      exact findOuter_eq_some.mpr ⟨⟨cipher, hmaster⟩, hheader'⟩)
    have hvolumeOf : SameVolume c header := by
      obtain ⟨store, -, -, hc⟩ := openVolume_eq_ok.mp hvolume
      rw [hc]
      exact ⟨rfl, rfl, rfl, rfl, rfl⟩
    constructor
    · rintro ⟨c', hc', -, -, hcipher, hslots, hroot, hlabel, hid⟩
      refine ⟨hcovered, fun found hfound => ?_⟩
      rw [hfound, Option.getD_some] at hopen'
      rw [hopen'] at hc'
      obtain ⟨store, -, -, rfl⟩ := openVolume_eq_ok.mp hc'
      exact ⟨hcipher, hslots, hroot, hlabel, hid⟩
    · intro hrecoverable
      have hsame : SameVolume c ((probeHeader P raw c.kMaster false).getD header) := by
        cases hprobe : probeHeader P raw c.kMaster false with
        | none => exact hvolumeOf
        | some found => exact hrecoverable.genuine found hprobe
      obtain ⟨store, hstore⟩ := openOuter_damaged hf hraw hsize hvolume hsame
      exact ⟨_, hopen'.trans hstore, rfl, rfl, hsame.cipher, hsame.outerSlots, hsame.rootSlot,
        hsame.label, hsame.containerId⟩
  · rw [if_neg hcovered] at hmaster
    constructor
    · rintro ⟨c', hc', houter', -⟩
      obtain ⟨header'', hfind', -⟩ := openContainer_isOuter hf' hc' houter'
      rw [hsize', findOuter_none_of_master hmaster] at hfind'
      cases hfind'
    · exact fun hrecoverable => absurd hrecoverable.covered hcovered

end Survival

/-! ## After recipient calls -/

section Loss

variable {outerPassword : List UInt8} {totalSizeBytes : UInt64} {cipher : CipherAlgorithm}
  {kdfProfile : String} {label : Option String} {hidden : Option HiddenVolumeOptions}
  {w w' : World} {m c : VnmContainer} {b : Blocks} {l : AccessList} {f : ByteFile} {m' : Mounted}
  {credential : OpenCredential}

theorem namedCounts_of_plaintext {raw : List UInt8} {kdf p k : UInt8}
    (h : readHeaderPlaintext raw = (kdf, p, k)) (hne : ¬ (p = 0 ∧ k = 0)) :
    namedCounts raw = some (p.toNat, k.toNat) := by
  simp only [namedCounts, h, if_neg hne]

namespace Created

theorem size_ge' (h : Created P outerPassword totalSizeBytes cipher kdfProfile label hidden w m w' b) :
    1536 ≤ (image b w').size := by
  have hfile := h.sizes.fileSize_eq
  have hdata : 16376 ≤ slotOffset (b.lay.outerSlots.toNat + b.lay.hiddenSlots.toNat) :=
    Nat.le_add_right _ _
  rw [h.size]
  omega

/-- With a hidden volume its header stands at the end of the file: one password slot. -/
theorem tailCounts_hidden
    (h : Created P outerPassword totalSizeBytes cipher kdfProfile label hidden w m w' b)
    (hm : Managed P b.lay (drawnKey w b.lay) (newPayload b cipher w outerPassword kdfProfile label) l
      (image b w') { container := m, world := w' } m' f) (hhidden : hidden.isSome) :
    tailCounts f = (1, 0) := by
  have hother := hm.others .hiddenPrimary (h.hasHidden.trans hhidden) (fun hf => hf)
  have hregion : b.lay.region .hiddenPrimary = ⟨b.lay.fileSize.toNat - 512, headerSize⟩ := rfl
  rw [hregion] at hother
  dsimp only at hother
  rw [← hm.granted.size] at hother
  obtain ⟨kdf, hplain⟩ := h.hidden_counts hhidden
  rw [h.size, ← hm.granted.size, ← hother] at hplain
  have hnamed := namedCounts_of_plaintext hplain (by decide)
  unfold tailCounts
  have hsize : headerSize = 512 := rfl
  rw [hsize] at hnamed
  rw [hnamed]
  rfl

/-- Without one, the backup of the outer header does. -/
theorem tailCounts_outer
    (h : Created P outerPassword totalSizeBytes cipher kdfProfile label hidden w m w' b)
    (hm : Managed P b.lay (drawnKey w b.lay) (newPayload b cipher w outerPassword kdfProfile label) l
      (image b w') { container := m, world := w' } m' f) (hhidden : hidden = none)
    (hne : 0 < l.passwords.length + l.keys.length) :
    tailCounts f = (l.passwords.length, l.keys.length) := by
  have hpw := toNat_ofNat_le hm.granted.passwords_le
  have hkey := toNat_ofNat_le hm.granted.keys_le
  have hnamed := namedCounts_of_plaintext hm.granted.plaintext (by
    rintro ⟨hzero, hzero'⟩
    rw [hzero] at hpw
    rw [hzero'] at hkey
    change 0 = _ at hpw hkey
    omega)
  unfold tailCounts
  rw [hm.backup (h.hasHidden.trans (by rw [hhidden]; rfl)), hnamed, hpw, hkey]
  rfl

end Created

/-- After any recipient calls, a credential that opens the outer volume keeps opening it
    under exactly that damage to the primary header which is recoverable. -/
theorem header_loss {calls : List RecipientCall}
    (hcreate : (create P outerPassword totalSizeBytes cipher kdfProfile label hidden).run w = .ok m w')
    (hrun : (calls.forM (RecipientCall.run P)).run { container := m, world := w' } = .ok ⟨⟩ m')
    (hf : m'.world.file = some f) (hopen : openContainer P m'.world credential = .ok c)
    (houter : c.isHidden = false)
    (hrejected : hidden.isSome → probeHeader P (f.slice (f.size - 512) 512) c.kMaster false = none) :
    (hidden.isSome → tailCounts f = (1, 0)) ∧
      (hidden = none →
        0 < (calls.foldl RecipientCall.apply (.created outerPassword)).passwords.length +
          (calls.foldl RecipientCall.apply (.created outerPassword)).keys.length →
        tailCounts f = ((calls.foldl RecipientCall.apply (.created outerPassword)).passwords.length,
          (calls.foldl RecipientCall.apply (.created outerPassword)).keys.length)) ∧
      ∃ i, FirstOpening (credential.readSlot m'.world) (credential.trySlot P) i c.kMaster ∧
        ∀ raw : List UInt8, raw.length = 512 →
          (Survives P c (m'.world.write 0 raw f) credential ↔ Recoverable P f c credential i raw) := by
  obtain ⟨b, h⟩ := create_ok hcreate
  have hparts := h.parts.container
  have hkey : m.kMaster = drawnKey w b.lay := by rw [hparts]
  have hcipher : m.cipher = cipher := by rw [hparts]
  obtain ⟨f', hm⟩ := run_managed (m := { container := m, world := w' }) h.granted h.sizes h.file_eq hkey
    hcipher.symm hrun
  cases hf.symm.trans hm.file
  have hsize : 1536 ≤ f.size := by
    rw [hm.granted.size, ← h.size]
    exact h.size_ge'
  refine ⟨h.tailCounts_hidden hm, h.tailCounts_outer hm, ?_⟩
  obtain ⟨header, hfind, -⟩ := openContainer_isOuter hf hopen houter
  obtain ⟨⟨c₀, hmaster⟩, -⟩ := findOuter_eq_some.mp hfind
  rw [recoverMaster_search] at hmaster
  obtain ⟨i, -, hfirst⟩ := firstOpening_of_trySlots hmaster
  refine ⟨i, hfirst, fun raw hraw => survives_iff hf hsize ?_ hopen houter hfirst hraw⟩
  cases hhidden : hidden with
  | none => exact .inl (hm.backup (h.hasHidden.trans (by rw [hhidden]; rfl)))
  | some opts =>
    have hbackup := hm.granted.backup
    rw [h.hasHidden, hhidden, ← hm.granted.size] at hbackup
    exact .inr ⟨hbackup, hrejected (by rw [hhidden]; rfl)⟩

/-! ## A million bytes -/

/-- The new container opens with its password, whose slot is the first one. -/
theorem Created.opens_plain
    (h : Created plain [1] 1000000 .xchacha20Poly1305 "interactive" (some "vault") none (freePath 7) m
      w' b) :
    (∃ c, openContainer plain w' (.password [1]) = .ok c ∧ c.isHidden = false) ∧
      ∃ slot, readPwSlotRaw w' 0 = .ok slot ∧ (tryPasswordSlot plain slot [1]).isSome := by
  constructor
  · have hid : drawnContainerId (freePath 7) b.lay ≠ zeroId := fun hid =>
      absurd ((drawn_freePath 7 (65536 * fillPieces b.lay.fileSize.toNat + 32) 16).symm.trans
        (congrArg List.Vector.toList hid)) (by decide)
    have hkey : m.kMaster = drawnKey (freePath 7) b.lay := by rw [h.parts.container]
    have hdistinct := h.distinct_plain (by simp) fun c => by cases c <;> decide
    rw [hkey] at hdistinct
    obtain ⟨c, hopen, houter, -⟩ := h.reopens (by simp) label_vault hdistinct hid
    exact ⟨c, hopen, houter⟩
  · refine ⟨b.pwSlot, ?_, (h.parts.pwSlot (by simp)).opens⟩
    rw [readPwSlotRaw_eq h.file_eq h.size_ge.2, h.slice_pwSlot (by simp)]

/-- Zeros do not decode. -/
theorem probeHeader_zeros (k : Key) : probeHeader plain (List.replicate 512 0) k false = none := by
  refine List.findSome?_eq_none_iff.mpr fun c _ => ?_
  unfold decodeHeader
  rw [encBodySize_eq]
  have hzeros : sub (List.replicate 512 0) bodyOffset bodyAvailable = List.replicate 444 0 := by
    decide +kernel
  rw [hzeros]
  cases hdec : decryptBlock plain k c (headerAad false) (List.replicate 444 0) with
  | error e => rfl
  | ok body =>
    have hmark := mark_of_decrypt hdec
    have hlast : ((List.replicate 444 (0 : UInt8)).drop ((List.replicate 444 (0 : UInt8)).length - 16))[15]? =
      some 0 := by decide +kernel
    rw [hlast] at hmark
    cases c <;> exact absurd hmark (by decide)

/-- A header of zeros is recoverable. -/
theorem header_loss_zeros :
    ∃ m w' f c, (create plain [1] 1000000 .xchacha20Poly1305 "interactive" (some "vault") none).run
        (freePath 7) = .ok m w' ∧ w'.file = some f ∧
      Survives plain c (w'.write 0 (List.replicate 512 0) f) (.password [1]) := by
  obtain ⟨m, w', hcreate⟩ := create_million_isOk 7
  obtain ⟨b, h⟩ := create_ok hcreate
  obtain ⟨⟨c, hopen, houter⟩, slot, hread, htry⟩ := h.opens_plain
  refine ⟨m, w', _, c, hcreate, h.file_eq, ?_⟩
  obtain ⟨-, htail, i, hfirst, hiff⟩ := header_loss hcreate
    (show (List.forM [] (RecipientCall.run plain)).run { container := m, world := w' } =
      .ok ⟨⟩ { container := m, world := w' } from rfl) h.file_eq hopen houter (fun hs => by cases hs)
  refine (hiff _ (by rw [List.length_replicate])).mpr ⟨?_, fun header hprobe => ?_⟩
  · have hzero : i = 0 := by
      by_contra hne
      obtain ⟨slot', hread', htry'⟩ := hfirst.1 0 (Nat.pos_of_ne_zero hne)
      cases hread.symm.trans hread'
      change tryPasswordSlot plain slot [1] = none at htry'
      rw [htry'] at htry
      cases htry
    have hnone : namedCounts (List.replicate 512 0) = none := by decide
    rw [hnone, Option.getD_none, htail rfl (by decide), hzero]
    decide
  · rw [probeHeader_zeros] at hprobe
    cases hprobe

/-- 512 bytes that name a key slot and no password slot. -/
def keyOnlyHeader : List UInt8 := List.replicate 67 0 ++ 1 :: List.replicate 444 0

/-- They lock the password out. -/
theorem key_only_header_locks_out : ¬ ∀ (P : Primitives) (outerPassword : List UInt8)
    (totalSizeBytes : UInt64) (cipher : CipherAlgorithm) (kdfProfile : String)
    (label : Option String) (hidden : Option HiddenVolumeOptions) (calls : List RecipientCall)
    (w w' : World) (m c : VnmContainer) (m' : Mounted) (f : ByteFile) (credential : OpenCredential)
    (raw : List UInt8),
    (create P outerPassword totalSizeBytes cipher kdfProfile label hidden).run w = .ok m w' →
    (calls.forM (RecipientCall.run P)).run { container := m, world := w' } = .ok ⟨⟩ m' →
    m'.world.file = some f → openContainer P m'.world credential = .ok c → c.isHidden = false →
    (hidden.isSome → probeHeader P (f.slice (f.size - 512) 512) c.kMaster false = none) →
    raw.length = 512 → Survives P c (m'.world.write 0 raw f) credential := by
  intro hall
  obtain ⟨m, w', hcreate⟩ := create_million_isOk 7
  obtain ⟨b, h⟩ := create_ok hcreate
  obtain ⟨⟨c, hopen, houter⟩, -⟩ := h.opens_plain
  have hsurvives := hall plain [1] 1000000 .xchacha20Poly1305 "interactive" (some "vault") none []
    (freePath 7) w' m c { container := m, world := w' } _ (.password [1]) keyOnlyHeader hcreate rfl
    h.file_eq hopen houter (fun hs => by cases hs) (by decide +kernel)
  obtain ⟨header, hfind, -⟩ := openContainer_isOuter h.file_eq hopen houter
  obtain ⟨⟨c₀, hmaster⟩, -⟩ := findOuter_eq_some.mp hfind
  rw [recoverMaster_search] at hmaster
  obtain ⟨i, -, hfirst⟩ := firstOpening_of_trySlots hmaster
  have hbackup := (run_managed h.granted h.sizes
    (show ({ container := m, world := w' } : Mounted).world.file = _ from h.file_eq)
    (by rw [h.parts.container]) (by rw [h.parts.container]; rfl)
    (show (List.forM [] (RecipientCall.run plain)).run _ = _ from rfl))
  obtain ⟨f', hm⟩ := hbackup
  cases h.file_eq.symm.trans hm.file
  have hcovered := ((survives_iff h.file_eq h.size_ge' (.inl (hm.backup h.hasHidden)) hopen houter
    hfirst (by decide +kernel)).mp hsurvives).covered
  have hnamed : namedCounts keyOnlyHeader = some (0, 1) := by decide
  rw [hnamed] at hcovered
  exact absurd hcovered (Nat.not_lt_zero i)

end Loss

end Venom.Fs

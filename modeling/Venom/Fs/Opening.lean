import Venom.Fs.Layout
import Venom.Storage.FreeList

/-! # How `open` finds a volume

The parts of `open` one by one: the recipient slots are tried in order, the header copies
are tried in order and each under all ciphers, and the store is loaded and checked against
the baseline.
-/

namespace Venom.Fs

open Venom.Container
open Venom.Crypto
open Venom.Storage
open Venom.Storage.SlotStore
open Venom.Library
open Venom.Library.Words
open Venom.Library.StateError

variable {P : Primitives}

/-! ## Searching a list -/

/-- A search in which all hits agree finds the common value. -/
theorem findSome?_of_unique {α β : Type} {g : α → Option β} {l : List α} {a : α} {b : β}
    (ha : a ∈ l) (hg : g a = some b) (hunique : ∀ x ∈ l, ∀ b', g x = some b' → b' = b) :
    l.findSome? g = some b := by
  have hsome : (l.findSome? g).isSome := by
    rw [List.findSome?_isSome_iff]
    exact ⟨a, ha, by rw [hg]; rfl⟩
  obtain ⟨b', hb'⟩ := Option.isSome_iff_exists.mp hsome
  obtain ⟨x, hx, hgx⟩ := List.exists_of_findSome?_eq_some hb'
  rw [hb', hunique x hx b' hgx]

theorem findSome?_three {α β : Type} (g : α → Option β) (a b c : α) :
    [a, b, c].findSome? g = (g a).or ((g b).or (g c)) := by
  rw [List.findSome?_cons, List.findSome?_cons, List.findSome?_cons, List.findSome?_nil]
  cases g a <;> cases g b <;> cases g c <;> rfl

/-- Readable slots are tried in order. -/
theorem trySlots_eq {readSlot : Nat → Except VnmError (List UInt8)}
    {trySlot : List UInt8 → Option (Key × CipherAlgorithm)} {slot : Nat → List UInt8} {i n : Nat}
    (h : ∀ j, i ≤ j → j < i + n → readSlot j = .ok (slot j)) :
    trySlots readSlot trySlot i n = (List.range' i n).findSome? fun j => trySlot (slot j) := by
  induction n generalizing i with
  | zero => rfl
  | succ n ih =>
    rw [trySlots, h i (Nat.le_refl i) (by omega), List.range'_succ, List.findSome?_cons]
    cases hslot : trySlot (slot i) with
    | some result => simp only [hslot]
    | none =>
      simp only [hslot]
      exact ih fun j hj hlt => h j (by omega) (by omega)

/-! ## Headers -/

section Headers

variable {w : World} {f : ByteFile} {k : Key} {isHidden : Bool} {raw : List UInt8}
  {payload : HeaderPayload}

theorem probeHeader_eq (h : IsHeader P k isHidden payload raw)
    (honly : OnlyCipher P k isHidden payload.cipher raw) :
    probeHeader P raw k isHidden = some payload := by
  refine findSome?_of_unique (a := payload.cipher) ?_ ?_ ?_
  · cases payload.cipher <;> decide
  · rw [h.decode]
    rfl
  · intro c _ b' hb'
    by_cases hc : c = payload.cipher
    · rw [hc, h.decode] at hb'
      cases hb'
      rfl
    · rw [honly c hc] at hb'
      cases hb'

theorem read512At_eq (hf : w.file = some f) {off : Nat} (h : off + 512 ≤ f.size) :
    read512At w off = .ok (f.slice off 512) := World.read_eq hf h

/-- The header at one of the three places. -/
theorem probeAt_eq (hf : w.file = some f) {off : Nat} (h : off + 512 ≤ f.size) (k : Key)
    (isHidden : Bool) : ((read512At w off).toOption.bind fun raw => probeHeader P raw k isHidden) =
      probeHeader P (f.slice off 512) k isHidden := by
  rw [read512At_eq hf h]
  exact Option.bind_some _ _

/-- The three places of the outer header in order. -/
theorem findOuterHeader_eq (hf : w.file = some f) (hsize : 1024 ≤ f.size) (k : Key) :
    findOuterHeader P w f.size k =
      ((probeHeader P (f.slice 0 512) k false).or
        ((probeHeader P (f.slice (f.size - 512) 512) k false).or
          (probeHeader P (f.slice (f.size - 1024) 512) k false))) := by
  have h₀ := probeAt_eq (P := P) hf (show 0 + 512 ≤ f.size by omega) k false
  have h₁ := probeAt_eq (P := P) hf (show f.size - 512 + 512 ≤ f.size by omega) k false
  have h₂ := probeAt_eq (P := P) hf (show f.size - 1024 + 512 ≤ f.size by omega) k false
  unfold findOuterHeader
  rw [findSome?_three, h₀, h₁, h₂]

theorem findOuterHeader_primary (hf : w.file = some f) (hsize : 1024 ≤ f.size)
    (h : probeHeader P (f.slice 0 512) k false = some payload) :
    findOuterHeader P w f.size k = some payload := by
  rw [findOuterHeader_eq hf hsize, h]
  rfl

/-- The counts come from the primary header unless both are zero there. -/
theorem slotCounts_primary (hf : w.file = some f) (hsize : 512 ≤ f.size) {kdf nPw nKey : UInt8}
    (hplain : readHeaderPlaintext (f.slice 0 512) = (kdf, nPw, nKey)) (hne : ¬ (nPw = 0 ∧ nKey = 0)) :
    slotCounts w f.size = (nPw.toNat, nKey.toNat) := by
  unfold slotCounts
  rw [read512At_eq hf (show 0 + 512 ≤ f.size by omega)]
  simp only [Except.toOption, Option.getD_some, hplain, if_neg hne]

end Headers

/-! ## Volumes -/

section Volume

variable {w : World} {f : ByteFile} {k : Key} {header : HeaderPayload} {isHidden : Bool}
  {slotStart slotLimit allocSlot : Nat} {outerLimit : UInt64} {c : VnmContainer}

/-- The container `open` hands out for a loaded store. -/
def containerOf (k : Key) (header : HeaderPayload) (isHidden : Bool) (outerLimit : UInt64)
    (store : SlotStore) : VnmContainer :=
  { store, rootSlot := header.rootSlot, isHidden, cipher := header.cipher
    outerSlots := header.outerSlots, outerLimit, label := labelFrom header.label
    createdAt := header.createdAt, kMaster := k, containerId := header.containerId }

/-- The store that is loaded. -/
def storeToLoad (k : Key) (header : HeaderPayload) (slotStart slotLimit allocSlot : Nat) : SlotStore :=
  SlotStore.new k header.cipher slotStart slotLimit allocSlot
    (decide (header.containerId ≠ zeroId))

theorem openVolume_eq_ok :
    openVolume P w k header isHidden slotStart slotLimit allocSlot outerLimit = .ok c ↔
      ∃ store, (storeToLoad k header slotStart slotLimit allocSlot).loadFreeList P w = .ok store ∧
        (header.containerId ≠ zeroId → ∀ stored, w.baseline header.containerId = some stored →
          stored ≤ store.generation) ∧
        c = containerOf k header isHidden outerLimit store := by
  unfold openVolume storeToLoad
  rw [except_bind_ok]
  refine exists_congr fun store => and_congr_right fun _ => ?_
  by_cases hid : header.containerId = zeroId
  · simp only [hid, ne_eq, not_true_eq_false, decide_false, Bool.false_eq_true, if_false,
      false_implies, true_and]
    rw [except_bind_ok]
    constructor
    · rintro ⟨u, -, h⟩
      cases h
      rw [containerOf, hid]
    · rintro rfl
      refine ⟨(), rfl, ?_⟩
      rw [containerOf, hid]
  · rw [decide_eq_true hid, if_pos rfl, except_bind_ok]
    constructor
    · rintro ⟨u, hcheck, h⟩
      cases h
      exact ⟨fun _ => RollbackState.check_ok.mp hcheck, rfl⟩
    · rintro ⟨hbase, rfl⟩
      exact ⟨(), RollbackState.check_ok.mpr (hbase hid), rfl⟩

/-- Without a container id the loaded generation is 0. -/
theorem generation_of_zeroId
    (h : openVolume P w k header isHidden slotStart slotLimit allocSlot outerLimit = .ok c)
    (hid : header.containerId = zeroId) : c.store.generation = 0 := by
  obtain ⟨store, hload, -, rfl⟩ := openVolume_eq_ok.mp h
  have hgen : (storeToLoad k header slotStart slotLimit allocSlot).hasGeneration = false := by
    change decide (header.containerId ≠ zeroId) = false
    rw [hid]
    rfl
  change store.generation = 0
  rcases loadFreeList_ok hload with ⟨-, rfl⟩ | ⟨data, -, -, rfl⟩
  · rfl
  · rw [hgen]
    rfl

/-- `open` takes the outer volume when the credential finds it. -/
theorem openContainer_outer {credential : OpenCredential} (hf : w.file = some f)
    (h : findOuter P w f.size credential = some (k, header)) :
    openContainer P w credential = openOuter P w k header := by
  unfold openContainer
  simp only [hf, h]

theorem openContainer_privateKey {sk : HybridPrivateKey} (hf : w.file = some f)
    (h : findOuter P w f.size (.privateKey sk) = none) :
    openContainer P w (.privateKey sk) = .error .authenticationFailed := by
  unfold openContainer
  simp only [hf, h]

theorem openContainer_hidden {pw : List UInt8} (hf : w.file = some f)
    (h : findOuter P w f.size (.password pw) = none)
    (hhidden : findHidden P w f.size pw = some (k, header)) :
    openContainer P w (.password pw) = openHidden P w k header := by
  unfold openContainer
  simp only [hf, h, hhidden]

theorem openContainer_password_none {pw : List UInt8} (hf : w.file = some f)
    (h : findOuter P w f.size (.password pw) = none) (hhidden : findHidden P w f.size pw = none) :
    openContainer P w (.password pw) = .error .authenticationFailed := by
  unfold openContainer
  simp only [hf, h, hhidden]

theorem findOuter_eq_some {credential : OpenCredential} {size : Nat} :
    findOuter P w size credential = some (k, header) ↔
      (∃ c, recoverMaster P w size credential = some (k, c)) ∧
        findOuterHeader P w size k = some header := by
  unfold findOuter
  cases hr : recoverMaster P w size credential with
  | none => simp
  | some kc =>
    obtain ⟨k', c⟩ := kc
    simp only [Option.bind_eq_bind, Option.bind_some, Option.bind_eq_some_iff, Option.some.injEq,
      Prod.mk.injEq]
    constructor
    · rintro ⟨h', hh, rfl, rfl⟩
      exact ⟨⟨c, rfl, rfl⟩, hh⟩
    · rintro ⟨⟨c', rfl, rfl⟩, hh⟩
      exact ⟨header, hh, rfl, rfl⟩

theorem findOuter_none_of_master {credential : OpenCredential} {size : Nat}
    (h : recoverMaster P w size credential = none) : findOuter P w size credential = none := by
  unfold findOuter
  rw [h]
  rfl

end Volume

end Venom.Fs

import Venom.Fs.Created

/-! # When `create` fails

`create` makes and fills the file before it derives a key, encodes a header or saves an
allocation block, and it does not remove the file when one of these fails.  So it leaves
nothing behind exactly when only the size checks can fail.
-/

namespace Venom.Fs

open Venom.Container
open Venom.Crypto
open Venom.Storage
open Venom.Library
open Venom.Library.StateError

variable {P : Primitives}

/-! ## Keys -/

/-- The password has a key under no salt of a length in use. -/
def NoKeys (P : Primitives) (password : List UInt8) (kdfProfile : UInt8) : Prop :=
  ∀ salt : List UInt8, salt.length = 32 ∨ salt.length = saltLen →
    ∃ e, passwordKey P password salt kdfProfile = .error e

/-- Argon2 refuses a password for its length or for its parameters, never for the bytes of
    the salt. -/
def SaltIndependent (P : Primitives) : Prop :=
  ∀ password kdfProfile, HasKeys P password kdfProfile ∨ NoKeys P password kdfProfile

/-! ## Failing with the file in place -/

/-- The computation ends in an error, and there is a file. -/
def FailsWithFile {α : Type} (x : EStateM Fault World α) (w : World) : Prop :=
  ∃ e w', x.run w = .error (.error e) w' ∧ w'.file ≠ none

namespace FailsWithFile

variable {α β : Type} {x y : EStateM Fault World α} {w w₁ : World}

theorem bind {f : α → EStateM Fault World β} (h : FailsWithFile x w) : FailsWithFile (x >>= f) w := by
  obtain ⟨e, w', hrun, hfile⟩ := h
  exact ⟨e, w', run_bind_of_error hrun, hfile⟩

theorem of_run (h : FailsWithFile y w₁) (hrun : x.run w = y.run w₁) : FailsWithFile x w := by
  obtain ⟨e, w', herr, hfile⟩ := h
  exact ⟨e, w', hrun.trans herr, hfile⟩

theorem bind_of_ok {f : α → EStateM Fault World β} {a : α} (hrun : x.run w = .ok a w₁)
    (h : FailsWithFile (f a) w₁) : FailsWithFile (x >>= f) w := h.of_run (run_bind_of_ok hrun)

end FailsWithFile

section Steps

variable {lay : Layout} {cipher : CipherAlgorithm} {now : UInt64} {w : World}

/-- A password slot needs a key; without one only its salt has been drawn. -/
theorem encodePasswordSlot_noKey {password : List UInt8} {kdfProfile : UInt8} {kMaster : Key}
    (hno : NoKeys P password kdfProfile) (hfile : w.file ≠ none) :
    FailsWithFile (fallible (encodePasswordSlot P kMaster password kdfProfile)) w := by
  obtain ⟨e, hkey⟩ := hno (w.drawn 32).toList (.inl (List.Vector.toList_length _))
  have hrun : (encodePasswordSlot P kMaster password kdfProfile).run w = .error e (w.skip 32) := by
    unfold encodePasswordSlot
    rw [run_bind_of_ok (fillBytes_eq 32 w), hkey]
    rfl
  exact ⟨e, w.skip 32, fallible_error.mpr ⟨e, hrun, rfl⟩, hfile⟩

theorem initVolume_withStore_tooLarge {st : SlotStore} {rootSlot : Nat} (hfile : w.file ≠ none)
    (hgen : st.hasGeneration = true)
    (hlarge : ¬ AllocFits st.cipher (st.slotLimit - st.slotStart)) :
    FailsWithFile (withStore st (initVolume P rootSlot)) w := by
  obtain ⟨e, s, herr, hfile'⟩ := @initVolume_tooLarge P rootSlot { store := st, world := w } hfile
    hgen (Nat.not_le.mp hlarge)
  refine ⟨e, s.world, ?_, hfile'⟩
  change withStore st (initVolume P rootSlot) w = _
  rw [withStore, herr]

/-! ## The hidden part -/

section Hidden

variable {h : HiddenVolumeOptions} {f : ByteFile}

theorem createHidden_noKey (hf : w.file = some f) (hno : NoKeys P h.password (kdfId h.kdfProfile)) :
    FailsWithFile (createHidden P lay cipher now h) w := by
  have hfile : ((w.skip 32).skip 16).file ≠ none := by
    change w.file ≠ none
    rw [hf]
    exact Option.some_ne_none _
  refine .bind_of_ok (fillBytes_eq 32 w) (.bind_of_ok (fillBytes_eq 16 _) ?_)
  exact (encodePasswordSlot_noKey hno hfile).bind

theorem createHidden_tooLarge (hf : w.file = some f)
    (hkeys : HasKeys P h.password (kdfId h.kdfProfile)) (hcipher : cipher ≠ .triple)
    (hlarge : ¬ AllocFits cipher lay.hiddenSlots.toNat) :
    FailsWithFile (createHidden P lay cipher now h) w := by
  obtain ⟨w₁, hfile, hrun⟩ := @createHidden_toVolume P lay cipher now w h f hf hkeys hcipher
  have hinit := @initVolume_withStore_tooLarge P w₁ (hiddenStore lay cipher (w.drawn 32))
    (lay.outerSlots.toNat + 1) hfile rfl (by rw [slots_hiddenStore]; exact hlarge)
  exact hinit.bind.of_run hrun

/-- The header of the hidden part does not fit under Triple. -/
theorem createHidden_triple (hf : w.file = some f)
    (hkeys : HasKeys P h.password (kdfId h.kdfProfile)) : ∃ message w',
      (createHidden P lay .triple now h).run w = .error (.panic message) w' := by
  obtain ⟨containerId, w₁, -, hrun⟩ := @createHidden_toHeader P lay .triple now w h f hf hkeys
  obtain ⟨message, w₂, hpanic⟩ := @encodeHeaderWithPassword_triple P
    (hiddenPayload lay .triple now h containerId) true w₁ h.password (hkeys.header w₁) rfl
  exact ⟨message, w₂, hrun.trans (run_bind_of_error hpanic)⟩

end Hidden

/-! ## The outer part -/

section Outer

variable {hidden : Bool} {outerPassword : List UInt8} {kdfProfile : String} {label : Option String}
  {kOuter : Key} {containerId : Bytes 16} {f : ByteFile}

theorem createOuter_noKey (hf : w.file = some f) (hpw : outerPassword ≠ [])
    (hno : NoKeys P outerPassword (kdfId kdfProfile)) :
    FailsWithFile (createOuter P lay hidden cipher now outerPassword kdfProfile label kOuter
      containerId) w := by
  obtain ⟨w₁, hfile, hrun⟩ := @createOuter_toVolume P lay cipher now w hidden outerPassword
    kdfProfile label kOuter containerId f hf
  have hslot : FailsWithFile (writePasswordSlot P outerPassword kdfProfile kOuter) w₁ := by
    unfold writePasswordSlot
    rw [if_neg (mt List.isEmpty_iff.mp hpw)]
    exact (encodePasswordSlot_noKey hno hfile).bind
  exact hslot.bind.of_run hrun

theorem createOuter_tooLarge (hf : w.file = some f)
    (hkeys : outerPassword ≠ [] → HasKeys P outerPassword (kdfId kdfProfile))
    (hlarge : ¬ AllocFits cipher lay.outerSlots.toNat) :
    FailsWithFile (createOuter P lay hidden cipher now outerPassword kdfProfile label kOuter
      containerId) w := by
  obtain ⟨w₁, hfile, hrun⟩ := @createOuter_toVolume P lay cipher now w hidden outerPassword
    kdfProfile label kOuter containerId f hf
  obtain ⟨f₁, hf₁⟩ := Option.ne_none_iff_exists'.mp hfile
  obtain ⟨w₂, hpw, hfile₂⟩ := @writePasswordSlot_isOk P _ _ _ kOuter _ hf₁ hkeys
  have hinit := @initVolume_withStore_tooLarge P w₂ (outerStore lay cipher kOuter) outerRootSlot
    hfile₂ rfl hlarge
  exact FailsWithFile.of_run (.bind_of_ok hpw hinit.bind) hrun

end Outer

end Steps

/-! ## The whole -/

section Whole

variable {outerPassword : List UInt8} {totalSizeBytes : UInt64} {cipher : CipherAlgorithm}
  {kdfProfile : String} {label : Option String} {hidden : Option HiddenVolumeOptions}
  {lay : Layout} {w : World}

/-- `create` leaves no file when it returns an error. -/
def AllOrNothing (P : Primitives) (outerPassword : List UInt8) (totalSizeBytes : UInt64)
    (cipher : CipherAlgorithm) (kdfProfile : String) (label : Option String)
    (hidden : Option HiddenVolumeOptions) (w : World) : Prop :=
  ∀ e w', (create P outerPassword totalSizeBytes cipher kdfProfile label hidden).run w =
    .error (.error e) w' → w'.file = none

/-- Keys can be derived and allocation blocks fit, as far as `create` comes: a hidden volume
    under Triple ends it in a panic. -/
structure NoLateFailure (P : Primitives) (outerPassword : List UInt8) (cipher : CipherAlgorithm)
    (kdfProfile : String) (hidden : Option HiddenVolumeOptions) (lay : Layout) : Prop where
  hiddenKeys : ∀ h ∈ hidden, HasKeys P h.password (kdfId h.kdfProfile)
  hiddenFits : hidden.isSome → cipher ≠ .triple → AllocFits cipher lay.hiddenSlots.toNat
  outerKeys : hidden = none ∨ cipher ≠ .triple → outerPassword ≠ [] →
    HasKeys P outerPassword (kdfId kdfProfile)
  outerFits : hidden = none ∨ cipher ≠ .triple → AllocFits cipher lay.outerSlots.toNat

/-- A failure of the hidden part is one of `create`. -/
theorem create_hidden_fails (hfresh : w.file = none)
    (hlay : layout totalSizeBytes (hidden.map (·.sizeBytes)) = .ok lay)
    (hfails : ∀ w₁ f, w₁.file = some f → FailsWithFile (createHidden? P lay cipher w.now hidden) w₁) :
    FailsWithFile (create P outerPassword totalSizeBytes cipher kdfProfile label hidden) w := by
  obtain ⟨kOuter, containerId, w₁, hfile, hrun⟩ := @create_toParts P lay cipher w outerPassword
    totalSizeBytes kdfProfile label hidden hfresh hlay
  obtain ⟨f, hf⟩ := Option.ne_none_iff_exists'.mp hfile
  exact (hfails w₁ f hf).bind.of_run hrun

/-- So is one of the outer part, which comes after a hidden part that succeeds. -/
theorem create_outer_fails (hfresh : w.file = none)
    (hlay : layout totalSizeBytes (hidden.map (·.sizeBytes)) = .ok lay)
    (hhidden : ∀ h ∈ hidden, HasKeys P h.password (kdfId h.kdfProfile) ∧ cipher ≠ .triple ∧
      AllocFits cipher lay.hiddenSlots.toNat)
    (hfails : ∀ w₁ f kOuter containerId, w₁.file = some f →
      FailsWithFile (createOuter P lay hidden.isSome cipher w.now outerPassword kdfProfile label
        kOuter containerId) w₁) :
    FailsWithFile (create P outerPassword totalSizeBytes cipher kdfProfile label hidden) w := by
  obtain ⟨kOuter, containerId, w₁, hfile, hrun⟩ := @create_toParts P lay cipher w outerPassword
    totalSizeBytes kdfProfile label hidden hfresh hlay
  obtain ⟨f, hf⟩ := Option.ne_none_iff_exists'.mp hfile
  obtain ⟨w₂, f₂, hhid, hf₂⟩ := createHidden?_isOk hf hhidden
  exact FailsWithFile.of_run (.bind_of_ok hhid (hfails w₂ f₂ kOuter containerId hf₂)) hrun

/-- Every late failure leaves the file. -/
theorem noLateFailure_of_allOrNothing (hsalt : SaltIndependent P) (hfresh : w.file = none)
    (hlay : layout totalSizeBytes (hidden.map (·.sizeBytes)) = .ok lay)
    (h : AllOrNothing P outerPassword totalSizeBytes cipher kdfProfile label hidden w) :
    NoLateFailure P outerPassword cipher kdfProfile hidden lay := by
  have hnever : ¬ FailsWithFile
      (create P outerPassword totalSizeBytes cipher kdfProfile label hidden) w :=
    fun ⟨e, w', hrun, hfile⟩ => hfile (h e w' hrun)
  have hhiddenKeys : ∀ opts ∈ hidden, HasKeys P opts.password (kdfId opts.kdfProfile) := by
    rintro opts ⟨⟩
    refine (hsalt opts.password (kdfId opts.kdfProfile)).resolve_right fun hno => hnever ?_
    exact create_hidden_fails hfresh hlay fun w₁ f hf => createHidden_noKey hf hno
  have hhiddenFits : hidden.isSome → cipher ≠ .triple → AllocFits cipher lay.hiddenSlots.toNat := by
    intro hsome hcipher
    obtain ⟨opts, rfl⟩ := Option.isSome_iff_exists.mp hsome
    by_contra hlarge
    refine hnever (create_hidden_fails hfresh hlay fun w₁ f hf => ?_)
    exact createHidden_tooLarge hf (hhiddenKeys opts rfl) hcipher hlarge
  -- the outer part is reached unless a hidden volume asks for Triple
  have hhidden : hidden = none ∨ cipher ≠ .triple → ∀ opts ∈ hidden,
      HasKeys P opts.password (kdfId opts.kdfProfile) ∧ cipher ≠ .triple ∧
        AllocFits cipher lay.hiddenSlots.toNat := by
    rintro hreach opts hopts
    have hcipher : cipher ≠ .triple := hreach.resolve_left (by rintro rfl; cases hopts)
    exact ⟨hhiddenKeys opts hopts, hcipher, hhiddenFits (by rw [hopts]; rfl) hcipher⟩
  have houterKeys : hidden = none ∨ cipher ≠ .triple → outerPassword ≠ [] →
      HasKeys P outerPassword (kdfId kdfProfile) := by
    intro hreach hpw
    refine (hsalt outerPassword (kdfId kdfProfile)).resolve_right fun hno => hnever ?_
    exact create_outer_fails hfresh hlay (hhidden hreach) fun w₁ f kOuter containerId hf =>
      createOuter_noKey hf hpw hno
  refine ⟨hhiddenKeys, hhiddenFits, houterKeys, fun hreach => ?_⟩
  by_contra hlarge
  refine hnever (create_outer_fails hfresh hlay (hhidden hreach) fun w₁ f kOuter containerId hf => ?_)
  exact createOuter_tooLarge hf (houterKeys hreach) hlarge

/-- Without a late failure, `create` returns a container or panics. -/
theorem not_error_of_noLateFailure (hfresh : w.file = none)
    (hlay : layout totalSizeBytes (hidden.map (·.sizeBytes)) = .ok lay)
    (h : NoLateFailure P outerPassword cipher kdfProfile hidden lay) (e : VnmError) (w' : World) :
    (create P outerPassword totalSizeBytes cipher kdfProfile label hidden).run w ≠
      .error (.error e) w' := by
  intro herr
  by_cases hreach : hidden = none ∨ cipher ≠ .triple
  · have hhidden : ∀ opts ∈ hidden, HasKeys P opts.password (kdfId opts.kdfProfile) ∧
        cipher ≠ .triple ∧ AllocFits cipher lay.hiddenSlots.toNat := by
      intro opts hopts
      have hcipher : cipher ≠ .triple := hreach.resolve_left (by rintro rfl; cases hopts)
      exact ⟨h.hiddenKeys opts hopts, hcipher, h.hiddenFits (by rw [hopts]; rfl) hcipher⟩
    obtain ⟨m, w₁, hok⟩ := @create_isOk P lay cipher w outerPassword totalSizeBytes kdfProfile label
      hidden hfresh hlay (h.outerKeys hreach) (h.outerFits hreach) hhidden
    cases hok.symm.trans herr
  · obtain ⟨hsome, htriple⟩ := not_or.mp hreach
    obtain ⟨opts, rfl⟩ := Option.ne_none_iff_exists'.mp hsome
    cases not_not.mp htriple
    obtain ⟨kOuter, containerId, w₁, hfile, hrun⟩ := @create_toParts P lay .triple w outerPassword
      totalSizeBytes kdfProfile label (some opts) hfresh hlay
    obtain ⟨f, hf⟩ := Option.ne_none_iff_exists'.mp hfile
    obtain ⟨message, w₂, hpanic⟩ := @createHidden_triple P lay w.now w₁ opts f hf
      (h.hiddenKeys opts rfl)
    have hpanics := hrun.trans (run_bind_of_error (x := createHidden? P lay .triple w.now (some opts))
      hpanic)
    cases hpanics.symm.trans herr

/-- `create` is all or nothing exactly when the size checks refuse the request or nothing
    fails after them. -/
theorem create_all_or_nothing_iff (hsalt : SaltIndependent P) (hfresh : w.file = none) :
    AllOrNothing P outerPassword totalSizeBytes cipher kdfProfile label hidden w ↔
      ∀ lay, layout totalSizeBytes (hidden.map (·.sizeBytes)) = .ok lay →
        NoLateFailure P outerPassword cipher kdfProfile hidden lay := by
  constructor
  · intro h lay hlay
    exact noLateFailure_of_allOrNothing hsalt hfresh hlay h
  · intro h e w' herr
    cases hlay : layout totalSizeBytes (hidden.map (·.sizeBytes)) with
    | ok lay => exact absurd herr (not_error_of_noLateFailure hfresh hlay (h lay hlay) e w')
    | error reason =>
      rw [create_tooSmall hfresh hlay] at herr
      cases herr
      exact hfresh

end Whole

/-! ## Eight gibibytes and more -/

theorem plain_saltIndependent : SaltIndependent plain := fun _ _ => .inl (plain_hasKeys _ _)

/-- A million bytes, 70000 of them for a hidden volume. -/
theorem create_all_or_nothing_hidden :
    AllOrNothing plain [1] 1000000 .xchacha20Poly1305 "interactive" (some "vault")
      (some { password := [2], sizeBytes := 70000, kdfProfile := "interactive", label := none })
      (freePath 7) := by
  refine (create_all_or_nothing_iff plain_saltIndependent rfl).mpr fun lay hlay => ?_
  cases (show layout 1000000 (some 70000) = .ok ⟨26, 3, 1024, 967672⟩ from rfl).symm.trans hlay
  exact ⟨fun _ _ => plain_hasKeys _ _, fun _ _ => by decide, fun _ _ => plain_hasKeys _ _,
    fun _ => by decide⟩

/-- The allocation bitmap of sixteen gibibytes takes 64 KiB, two slots. -/
theorem oversized_create_leaves_file : ¬ ∀ (P : Primitives) (outerPassword : List UInt8)
    (totalSizeBytes : UInt64) (cipher : CipherAlgorithm) (kdfProfile : String)
    (label : Option String) (hidden : Option HiddenVolumeOptions) (w : World), w.file = none →
      AllOrNothing P outerPassword totalSizeBytes cipher kdfProfile label hidden w := by
  intro h
  have hlay : layout 17179869184 (Option.map HiddenVolumeOptions.sizeBytes none) =
      .ok ⟨524287, 0, 512, 17179853304⟩ := rfl
  have hfails : FailsWithFile (create plain [1] 17179869184 .xchacha20Poly1305 "interactive" none none)
      (freePath 7) :=
    create_outer_fails rfl hlay (fun _ hnone => by cases hnone) fun w₁ f kOuter containerId hf =>
      createOuter_tooLarge hf (fun _ => plain_hasKeys _ _) (by decide)
  obtain ⟨e, w', hrun, hfile⟩ := hfails
  exact hfile (h plain [1] 17179869184 .xchacha20Poly1305 "interactive" none none (freePath 7) rfl
    e w' hrun)

end Venom.Fs

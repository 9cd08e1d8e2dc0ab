import Venom.Fuse.Refusals

/-! # Full volumes

`EIO` means that there was no room.  A request that fails so has found no free slot, or the
directory it changes does not fit into its slot.
-/

namespace Venom.Fuse

open Venom.Storage
open Venom.Library
open Venom.Library.NameTree
open Venom.Library.StateError

variable {σ : Type} [NodeStore σ] [NodeView σ]

/-- A request writes the chunks of a file. -/
def Request.storesChunks : Request → Bool
  | .write _ _ _ | .flush _ | .fsync _ => true
  | _ => false

/-- What a request ran into that could not write. -/
inductive NoRoom (s s' : VenomFuse σ) : Request → Prop
  /-- All slots are in use, some of them by chunks that it has stored. -/
  | chunks {req : Request} : req.storesChunks = true → free s'.container = [] → NoRoom s s' req
  | node {req : Request} : req.makes.isSome = true → free s.container = [] → NoRoom s s' req
  | entry {req : Request} {parent p : Nat} {name : String} {d : DirectoryBlock} {en : DirEntry} :
      req.makes = some (parent, some name) → s.inodes.slotOf parent = some p → en.name = name →
      nodes s.container p = some (.directory d) →
      ¬ Fits (NodeStore.cipher s.container) (.directory { d with entries := d.entries ++ [en] }) →
      NoRoom s s' req
  /-- What is left of a directory does not fit where the whole of it was. -/
  | rest {req : Request} {parent p : Nat} {name : String} {d : DirectoryBlock} :
      req.finds = some (parent, some name) → s.inodes.slotOf parent = some p →
      nodes s.container p = some (.directory d) →
      ¬ Fits (NodeStore.cipher s.container) (.directory (without d name)) → NoRoom s s' req

variable {root : Nat} {s s₁ s' : VenomFuse σ} {A : FileSystem}
  {bytes : Nat → List UInt8} {own : Nat → List Nat} {ords : Orders} {req : Request} {name : String}
  {p parent : Nat}

omit [NodeStore σ] [NodeView σ] in
theorem slotOfIno_eio {ino : Nat} : ¬ (slotOfIno ino).run s = .error (.errno .eio) s' := fun h => by
  cases (slotOfIno_refused h).1

variable [FiniteNodeStore σ]

/-- A `mkdir` writes the new directory and then its parent. -/
theorem mkdir_calls {reply : Reply} (hp : s.inodes.slotOf parent = some p)
    (hrun : ((Request.mkdir parent (some name)).serve ords).run s = .ok reply s') :
    s'.openFiles = s.openFiles ∧ ∃ slot c n, (NodeStore.writeNode emptyDir).run s.container = .ok slot c ∧
      (NodeStore.updateNode p n).run c = .ok () s'.container := by
  obtain ⟨_, hname, hcont⟩ := toStr_ok hrun
  cases hname
  obtain ⟨r, _, hmkdir, hret⟩ := run_bind_ok.mp hcont
  cases hret
  obtain ⟨q, _, hslot, h₁⟩ := run_bind_ok.mp hmkdir
  obtain ⟨hq, rfl⟩ := slotOfIno_ok.mp hslot
  cases hp.symm.trans hq
  obtain ⟨slot, _, hwrite, h₂⟩ := run_bind_ok.mp h₁
  obtain ⟨c, hwrite', rfl⟩ := liftStore_ok.mp hwrite
  obtain ⟨_, _, hlink, h₃⟩ := run_bind_ok.mp h₂
  obtain ⟨d, _, hread, hadd⟩ := run_bind_ok.mp (linkOrFree_ok hlink)
  obtain ⟨rfl, -⟩ := readDirBlock_ok hread
  obtain ⟨ino, _, hino, h₄⟩ := run_bind_ok.mp h₃
  cases h₄
  obtain ⟨rfl, -⟩ := inoOfSlot_ok hino
  split at hadd
  next => cases hadd
  next =>
    obtain ⟨c', hupdate, rfl⟩ := liftStore_ok.mp hadd
    exact ⟨rfl, slot, c, _, writeNode_store hwrite', updateNode_store hupdate⟩

namespace StandsFor

theorem readDirBlock_eio (h : StandsFor root s A bytes own) (hin : InTree s.container root p) :
    ¬ (readDirBlock p).run s = .error (.errno .eio) s' := fun hread => by
  obtain ⟨n, hn⟩ := h.exists_node hin
  cases (readDirBlock_refused (h.backs.tree.dataSlot p hin) hn hread).1

theorem removal_noRoom (h : StandsFor root s A bytes own)
    (hfinds : req.finds = some (parent, some name)) (hp : s.inodes.slotOf parent = some p)
    (hrun : (dirRemoveEntry p name).run s = .error (.errno .eio) s') : NoRoom s s' req := by
  cases h.notTaken (h.backs.known parent p hp) hrun with
  | noRoom hd hno => exact .rest hfinds hp hd hno

theorem notMade_noRoom (h : StandsFor root s A bytes own) {n : VaultNode} {entry : Nat → DirEntry}
    (hfail : NotMade s parent n entry (.errno .eio) s') (hfits : Fits (NodeStore.cipher s.container) n)
    (hname : ∀ slot, (entry slot).name = name) (hmakes : req.makes = some (parent, some name)) :
    NoRoom s s' req := by
  cases hfail with
  | unknown hslot => exact absurd hslot slotOfIno_eio
  | notWritten hwrite =>
    obtain ⟨c, hwrite', -⟩ := liftStore_error.mp hwrite
    obtain ⟨e', hstore⟩ := writeNode_failed hwrite'
    obtain ⟨-, -, ⟨hnil, -⟩ | ⟨_, -, hno⟩⟩ := LawfulNodeStore.writeNode_error hstore
    · exact .node (by rw [hmakes]; rfl) hnil
    · exact absurd hfits hno
  | @notLinked p slot s₁ hp hwrite hlink =>
    cases h.notLinkedCause (h.backs.known parent p hp) hwrite hlink with
    | noRoom hd hno => exact .entry hmakes hp (hname slot) hd hno

/-- Where there is room for the node and for its entry, both are made. -/
theorem not_notMade (h : StandsFor root s A bytes own) {n : VaultNode} {entry : Nat → DirEntry}
    {e : Failure} {d : DirectoryBlock} (hp : s.inodes.slotOf parent = some p)
    (hd : nodes s.container p = some (.directory d)) (hname : ∀ slot, (entry slot).name = name)
    (hnew : entryOf d name = none) (hfree : free s.container ≠ []) (hfits : Fits (NodeStore.cipher s.container) n)
    (hroom : ∀ slot ∈ free s.container, Fits (NodeStore.cipher s.container)
      (.directory { d with entries := d.entries ++ [entry slot] })) : ¬ NotMade s parent n entry e s' := by
  rintro (hslot | hwrite | @⟨q, slot, s₁, hq, hwrite, hlink⟩)
  · rw [(slotOfIno_refused hslot).2] at hp
    cases hp
  · obtain ⟨c, hwrite', -⟩ := liftStore_error.mp hwrite
    obtain ⟨e', hstore⟩ := writeNode_failed hwrite'
    obtain ⟨-, -, ⟨hnil, -⟩ | ⟨_, -, hno⟩⟩ := LawfulNodeStore.writeNode_error hstore
    · exact hfree hnil
    · exact hno hfits
  · cases hp.symm.trans hq
    have hmem := (writeNode_written h.backs.freeOk.2 hwrite).2.2.2.2.2
    cases h.notLinkedCause (h.backs.known parent p hp) hwrite hlink with
    | notDirectory hn hne => exact hne d (Option.some.inj (hn.symm.trans hd))
    | taken hd' hen =>
      cases hd.symm.trans hd'
      rw [hname slot, hnew] at hen
      cases hen
    | noRoom hd' hno =>
      cases hd.symm.trans hd'
      exact hno (hroom slot hmem)

/-- A new directory is made where there is room for it. -/
theorem mkdir_served (h : StandsFor root s A bytes own) {d : DirectoryBlock}
    (hp : s.inodes.slotOf parent = some p) (hd : nodes s.container p = some (.directory d))
    (hnew : entryOf d name = none) (hfree : free s.container ≠ [])
    (hroom : ∀ slot ∈ free s.container, Fits (NodeStore.cipher s.container)
      (.directory { d with entries := d.entries ++ [{ name, slot, kind := .directory }] })) :
    ∃ reply s', ((Request.mkdir parent (some name)).serve ords).run s = .ok reply s' := by
  rcases run_cases ((Request.mkdir parent (some name)).serve ords) s with ⟨reply, hrun⟩ | ⟨e, hrun⟩
  · exact ⟨reply, _, hrun⟩
  · cases serve_error hrun with
    | notUtf8 hname => cases hname
    | mkdir hmkdir =>
      exact absurd (opMkdir_error hmkdir)
        (h.not_notMade hp hd (fun _ => rfl) hnew hfree (emptyDir_fits _) hroom)

/-- A request fails with `EIO` for want of room only. -/
theorem noRoom (h : StandsFor root s A bytes own) (hallowed : req.Allowed ords s)
    (hcontained : req.Contained ords s) (hrun : (req.serve ords).run s = .error (.errno .eio) s') :
    NoRoom s s' req := by
  -- a request that only reads has other errors
  obtain hreads | hwrites := Bool.eq_false_or_eq_true req.writes |>.symm
  · obtain ⟨code, hcode, hrefuses⟩ := h.refuses hallowed hcontained hrun
    cases hcode
    obtain ⟨heq, -⟩ | hkind := hrefuses.of_reads hreads
    · cases heq
    · cases hkind
  cases serve_error hrun with
  | notUtf8 hname he => cases hname <;> cases he
  | mkdir hmkdir => exact h.notMade_noRoom (opMkdir_error hmkdir) (emptyDir_fits _) (fun _ => rfl) rfl
  | create hcreate =>
    exact h.notMade_noRoom (opCreate_error hcreate) (emptyHead_fits _) (fun _ => rfl) rfl
  | rmdir hrmdir =>
    cases opRmdir_error hrmdir with
    | unknown hslot => exact absurd hslot slotOfIno_eio
    | unread hp hread => exact absurd hread (h.readDirBlock_eio (h.backs.known _ _ hp))
    | noEntry _ _ _ he => cases he
    | unreadTarget hp hd hen hread =>
      have hin := h.backs.known _ _ hp
      have hd' := (readDirBlock_ok hd).2 (h.backs.tree.dataSlot _ hin)
      exact absurd hread (h.readDirBlock_eio (hin.entry hd' hen))
    | notEmpty _ _ _ _ _ he => cases he
    | notTaken hp hremove => exact h.removal_noRoom rfl hp hremove
  | unlink hunlink =>
    obtain ⟨_, _, _, _, _, -, -, -, hok, -⟩ | ⟨e', u', herror, -, hcause⟩ :=
      opUnlink_cases h.backs (hallowed _ · · rfl)
    · cases hunlink.symm.trans hok
    · cases hunlink.symm.trans herror
      obtain hslot | ⟨p, hp, hremove⟩ := hcause
      · exact absurd hslot slotOfIno_eio
      · exact h.removal_noRoom rfl hp hremove
  | rename hrename =>
    obtain hslot | hslot | ⟨p, hp, hremove⟩ := h.opRename_error (hcontained _ _ rfl rfl) hrename
    · exact absurd hslot slotOfIno_eio
    · exact absurd hslot slotOfIno_eio
    · exact h.removal_noRoom rfl hp hremove
  | @flush fh hflush | @fsync fh hflush =>
    cases hf : s.openFiles.get fh with
    | some f => exact .chunks rfl (h.backs.flush_full hf (hcontained f hf) hflush)
    | none => cases (opFlush_noHandle hf).symm.trans hflush
  | @write fh offset data hwrite =>
    cases hf : s.openFiles.get fh with
    | some f =>
      exact .chunks rfl (h.backs.write_full hf (hallowed _ (h.size_of_handle hf)) hwrite)
    | none => cases (opWrite_noHandle hf hwrite).1
  | _ => cases hwrites

end StandsFor

/-- In a session a request fails with `EIO` for want of room only. -/
theorem session_noRoom {M : Medium σ} {c : σ} {events : List Event} (hc : Formatted c root)
    (h : Session M root c events s) (hallowed : req.Allowed ords s)
    (hcontained : req.Contained ords s)
    (hrun : (req.serve ords).run s = .error (.errno .eio) s') : NoRoom s s' req := by
  obtain ⟨A, bytes, own, -, hstands⟩ := h.refines hc
  exact hstands.noRoom hallowed hcontained hrun

/-- The root directory and a file fill a volume of two slots. -/
theorem session_noRoom_letters : ∃ s', ((Request.mkdir 1 (some "letters")).serve .listed).run (noted 2) =
      .error (.errno .eio) s' ∧ NoRoom (noted 2) s' (.mkdir 1 (some "letters")) := by
  have hrun : ((Request.mkdir 1 (some "letters")).serve .listed).run (noted 2) =
      .error (.errno .eio) _ := run_of_errorOf (by decide +kernel)
  have hallowed : (Request.mkdir 1 (some "letters")).Allowed .listed (noted 2) := by
    change (noted 2).inodes.nextIno + 1 < 2 ^ 64
    decide +kernel
  exact ⟨_, hrun, session_noRoom (Volume.fresh_formatted _ (by decide)) (noted_session (.inl rfl))
    hallowed trivial hrun⟩

end Venom.Fuse

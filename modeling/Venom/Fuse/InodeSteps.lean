import Venom.Fuse.ListedChanges
import Venom.Fuse.RenameTree

/-! # What a call does to the inodes

An inode leads to a slot in use, and a slot in use has one name at most.  The path that frees
a slot takes its only name as well, and drops its mapping and no other.  `InodeStep` says what
becomes of the inodes in a call, where `gone` is the slot whose node the call gives up.
-/

namespace Venom.Fuse

open Venom.Storage
open Venom.Library
open Venom.Library.NameTree
open Venom.Library.StateError

/-! ## The map -/

/-- What becomes of the inodes of a map: that of the slot `gone` is forgotten, the others stay
    where they are, and a number that leads nowhere is not handed out again. -/
structure InodeMap.Follows (m m' : InodeMap) (gone : Option Nat) : Prop where
  kept : ∀ ino t, m.slotOf ino = some t → gone ≠ some t → m'.slotOf ino = some t
  forgotten : ∀ ino t, m.slotOf ino = some t → gone = some t → m'.slotOf ino = none
  silent : ∀ ino, ino < m.nextIno → m.slotOf ino = none → m'.slotOf ino = none
  next : m.nextIno ≤ m'.nextIno

section Map

variable {m m' : InodeMap} {gone : Option Nat}

theorem InodeMap.Follows.refl (m : InodeMap) : m.Follows m none :=
  ⟨fun _ _ h _ => h, fun _ _ _ h => (by cases h), fun _ _ h => h, Nat.le_refl _⟩

theorem InodeMap.Ok.getOrAlloc_follows (h : m.Ok) (slot : Nat)
    (hroom : m.slotToIno.get slot = none → m.nextIno + 1 < 2 ^ 64) :
    m.Follows (m.getOrAlloc slot).2 none where
  kept _ _ hino _ := h.getOrAlloc_slotOf slot hino
  forgotten _ _ _ hgone := by cases hgone
  silent ino hlt hnone := by
    unfold InodeMap.getOrAlloc
    split
    next => exact hnone
    -- the number handed out is a new one
    next => rwa [InodeMap.slotOf, HashMap.get_insert, if_neg (Nat.ne_of_lt hlt)]
  next := by
    unfold InodeMap.getOrAlloc
    split
    next => exact Nat.le_refl _
    next hnone =>
      rw [Nat.mod_eq_of_lt (hroom hnone)]
      exact Nat.le_succ _

theorem InodeMap.Paired.removeSlot_follows (h : m.Paired) (slot : Nat) :
    m.Follows (m.removeSlot slot) (some slot) where
  kept ino t hino hne := by
    rw [h.removeSlot_slotOf hino, if_neg fun heq => hne (congrArg some heq.symm)]
  forgotten ino t hino hgone := by
    rw [h.removeSlot_slotOf hino, if_pos (Option.some.inj hgone).symm]
  silent ino _ hnone := InodeMap.removeSlot_none slot hnone
  next := by
    unfold InodeMap.removeSlot
    split
    next => exact Nat.le_refl _
    next => exact Nat.le_refl _

theorem InodeMap.Follows.trans {m'' : InodeMap} (h : m.Follows m' gone) (h' : m'.Follows m'' none)
    (hm : m.Ok) : m.Follows m'' gone where
  kept ino t hino hne := h'.kept ino t (h.kept ino t hino hne) (Option.some_ne_none t).symm
  forgotten ino t hino hgone := h'.silent ino
    (Nat.lt_of_lt_of_le (hm.fresh ino t hino) h.next) (h.forgotten ino t hino hgone)
  silent ino hlt hnone := h'.silent ino (Nat.lt_of_lt_of_le hlt h.next) (h.silent ino hlt hnone)
  next := Nat.le_trans h.next h'.next

/-- Handing out inodes, as long as the numbers do not wrap around. -/
theorem InodeMap.Paired.handOut (h : m.Paired) {slots : List Nat}
    (hroom : m.nextIno + m.newNumbers slots < 2 ^ 64) :
    (m.handOut slots).Paired ∧ m.Follows (m.handOut slots) none ∧
      ∀ ino t, (m.handOut slots).slotOf ino = some t → m.slotOf ino = some t ∨ t ∈ slots := by
  induction slots generalizing m with
  | nil => exact ⟨h, .refl m, fun _ _ => .inl⟩
  | cons slot slots ih =>
    obtain ⟨hone, hrest⟩ := newNumbers_room hroom
    obtain ⟨hpaired, hfollows, hknown⟩ := ih (h.getOrAlloc slot hone) hrest
    refine ⟨hpaired, (h.ok.getOrAlloc_follows slot hone).trans hfollows h.ok, fun ino t ht => ?_⟩
    rcases hknown ino t ht with hold | hmem
    · refine ((h.back.getOrAlloc slot).2 ino t hold).imp_right fun heq => ?_
      rw [heq]
      exact .head _
    · exact .inr (.tail _ hmem)

end Map

variable {σ : Type} [NodeStore σ] [NodeView σ]

/-! ## The invariant -/

/-- A slot that is not on the free list. -/
def Used (c : σ) (t : Nat) : Prop := IsDataSlot c t ∧ t ∉ free c

/-- What a call on names leaves in a slot: a directory with each name once, or a file with no
    slot but its head. -/
def WellMade : VaultNode → Prop
  | .directory d => UniqueNames d
  | .file fb => fb.dataSlots = [] ∧ fb.indexChain = none
  | _ => True

structure InodesOk (root : Nat) (s : VenomFuse σ) : Prop where
  freeOk : FreeOk s.container
  rootUsed : Used s.container root
  entered : Entered (child (nodes s.container)) (Used s.container) root
  wellMade : ∀ t n, Used s.container t → nodes s.container t = some n → WellMade n
  paired : s.inodes.Paired
  inoOfRoot : s.inodes.slotOf rootIno = some root
  used : ∀ ino t, s.inodes.slotOf ino = some t → Used s.container t

/-- What becomes of the inodes and the slots of a state. -/
structure InodeStep (root : Nat) (gone : Option Nat) (s s' : VenomFuse σ) : Prop where
  ok : InodesOk root s'
  inodes : s.inodes.Follows s'.inodes gone
  used : ∀ t, Used s.container t → gone ≠ some t → Used s'.container t

section Invariant

variable {root : Nat} {gone : Option Nat} {s s₁ s' : VenomFuse σ}

omit [NodeStore σ]

theorem InodesOk.names (h : InodesOk root s) {t : Nat} {d : DirectoryBlock} (ht : Used s.container t)
    (hd : nodes s.container t = some (.directory d)) : UniqueNames d := h.wellMade t _ ht hd

theorem InodesOk.plain (h : InodesOk root s) {t : Nat} {fb : FileBlock} (ht : Used s.container t)
    (hfb : nodes s.container t = some (.file fb)) : fb.dataSlots = [] ∧ fb.indexChain = none :=
  h.wellMade t _ ht hfb

theorem InodeStep.refl (h : InodesOk root s) : InodeStep root none s s :=
  ⟨h, .refl _, fun _ ht _ => ht⟩

/-- A step that leaves the nodes in use and the inodes. -/
theorem InodeStep.quiet (h : InodesOk root s) (hfree : FreeOk s'.container)
    (hused : ∀ t, Used s'.container t ↔ Used s.container t)
    (hnodes : ∀ t, Used s.container t → nodes s'.container t = nodes s.container t)
    (hinodes : s'.inodes = s.inodes) : InodeStep root none s s' := by
  refine ⟨⟨hfree, (hused root).mpr h.rootUsed, ?_, fun t n ht hn => ?_, ?_, ?_, fun ino t ht => ?_⟩, ?_,
    fun t ht _ => (hused t).mpr ht⟩
  · exact h.entered.congr hused fun u n hu => child_congr (hnodes u hu) n
  · have hold := (hused t).mp ht
    rw [hnodes t hold] at hn
    exact h.wellMade t n hold hn
  · rw [hinodes]
    exact h.paired
  · rw [hinodes]
    exact h.inoOfRoot
  · rw [hinodes] at ht
    exact (hused t).mpr (h.used ino t ht)
  · rw [hinodes]
    exact .refl _

/-- Inodes are handed out for slots in use. -/
theorem InodeStep.handOut (h : InodeStep root gone s s₁) (hs : s.inodes.Ok) {slots : List Nat}
    (hslots : ∀ t ∈ slots, Used s₁.container t)
    (hroom : s₁.inodes.nextIno + s₁.inodes.newNumbers slots < 2 ^ 64)
    (hc : s'.container = s₁.container) (hinodes : s'.inodes = s₁.inodes.handOut slots) :
    InodeStep root gone s s' := by
  obtain ⟨⟨hfree, hroot, hentered, hmade, hpaired, hrootIno, hused⟩, hfollows, hkept⟩ := h
  rw [← hc] at hfree hroot hentered hmade hused hslots hkept
  obtain ⟨hpaired', hfollows', hnew⟩ := hpaired.handOut hroom
  rw [← hinodes] at hpaired' hfollows' hnew
  refine ⟨⟨hfree, hroot, hentered, hmade, hpaired', ?_, fun ino t ht => ?_⟩,
    hfollows.trans hfollows' hs, hkept⟩
  · exact hfollows'.kept _ _ hrootIno (Option.some_ne_none root).symm
  · rcases hnew ino t ht with hold | hmem
    · exact hused ino t hold
    · exact hslots t hmem

end Invariant

/-! ## Reading -/

section Reading

variable [LawfulNodeStore σ] {root : Nat} {s : VenomFuse σ}

/-- The slot a successful lookup asks an inode for. -/
def lookupSlots (s : VenomFuse σ) (parent : Nat) (name : String) : List Nat :=
  ((valueOf (opLookup parent name) s).bind fun _ => target s parent name).toList

/-- A lookup hands out the inode of what it finds, and nothing else. -/
theorem InodesOk.opLookup_after (h : InodesOk root s) (parent : Nat) (name : String) :
    after (opLookup parent name) s =
      { s with inodes := s.inodes.handOut (lookupSlots s parent name) } := by
  have hquiet : ∀ {e s₁}, (opLookup parent name).run s = .error e s₁ → s₁ = s →
      after (opLookup parent name) s =
        { s with inodes := s.inodes.handOut (lookupSlots s parent name) } := by
    intro e s₁ hrun heq
    rw [after_of_error hrun, lookupSlots, valueOf_of_error hrun, heq]
    rfl
  cases hslot : (slotOfIno (σ := σ) parent).run s with
  | error e s₁ => exact hquiet (run_bind_of_error hslot) (slotOfIno_error hslot)
  | ok p s₁ =>
  obtain ⟨hp, rfl⟩ := slotOfIno_ok.mp hslot
  cases hdir : (readDirBlock p).run s₁ with
  | error e s₂ =>
    exact hquiet ((run_bind_of_ok hslot).trans (run_bind_of_error hdir)) (readDirBlock_error hdir).1
  | ok d s₂ =>
  obtain ⟨rfl, hd⟩ := readDirBlock_ok hdir
  have hread : (opLookup parent name).run s₂ = _ := (run_bind_of_ok hslot).trans (run_bind_of_ok hdir)
  cases hentry : entryOf d name with
  | none =>
    have hfind : d.entries.find? (fun e => decide (e.name = name)) = none := hentry
    rw [hfind] at hread
    exact hquiet hread rfl
  | some e =>
    have hfind : d.entries.find? (fun e => decide (e.name = name)) = some e := hentry
    rw [hfind] at hread
    dsimp only at hread
    cases hnode : (liftStore (readNode (σ := σ) e.slot)).run s₂ with
    | error f s₃ =>
      obtain ⟨c, hread', rfl⟩ := liftStore_error.mp hnode
      obtain ⟨rfl, -⟩ := readNode_error hread'
      rw [run_bind_of_error hnode] at hread
      exact hquiet hread rfl
    | ok n s₃ =>
      obtain ⟨c, hread', rfl⟩ := liftStore_ok.mp hnode
      obtain ⟨rfl, -⟩ := readNode_inv hread'
      rw [run_bind_of_ok hnode, run_bind_of_ok (inoOfSlot_run e.slot _)] at hread
      rw [after_of_ok hread, lookupSlots, valueOf_of_ok hread, Option.bind_some,
        target_eq hp (hd (h.used parent p hp).1), hentry]
      rfl

/-- A listing hands out the inodes of the entries, and nothing else. -/
theorem InodesOk.readdir_after (h : InodesOk root s) (room : ReplyRoom) (ino offset : Nat) :
    after (readdir room ino offset) s = { s with inodes := s.inodes.handOut (entrySlots s ino) } := by
  cases hslot : (slotOfIno (σ := σ) ino).run s with
  | error e s₁ =>
    obtain rfl := slotOfIno_error hslot
    rw [readdir, after_of_error (run_bind_of_error hslot)]
    have hnone : s₁.inodes.slotOf ino = none := by
      cases hi : s₁.inodes.slotOf ino with
      | none => rfl
      | some p =>
        rw [slotOfIno_ok.mpr ⟨hi, rfl⟩] at hslot
        cases hslot
    rw [entrySlots, dirBlock, hnone]
    rfl
  | ok p s₁ =>
    obtain ⟨hp, rfl⟩ := slotOfIno_ok.mp hslot
    rw [readdir, after_bind_of_ok hslot]
    cases hdir : (readDirBlock p).run s₁ with
    | error e s₂ =>
      obtain ⟨rfl, hd⟩ := readDirBlock_error hdir
      rw [after_of_error (run_bind_of_error hdir), entrySlots,
        dirBlock_no_directory hp (hd (h.used ino p hp).1)]
      rfl
    | ok d s₂ =>
      obtain ⟨rfl, hd⟩ := readDirBlock_ok hdir
      obtain ⟨children, hchildren, -⟩ := childEntries_run d.entries s₂
      rw [after_bind_of_ok hdir, after_bind_of_ok hchildren,
        entrySlots_directory hp (hd (h.used ino p hp).1)]
      rfl

omit [LawfulNodeStore σ] in
omit [NodeStore σ] in
/-- The slots of a directory's entries are in use. -/
theorem InodesOk.entry_used (h : InodesOk root s) {p : Nat} {d : DirectoryBlock} {e : DirEntry}
    (hp : Used s.container p) (hd : nodes s.container p = some (.directory d)) (he : e ∈ d.entries) :
    Used s.container e.slot := by
  have hfind : child (nodes s.container) p e.name = some e.slot := by
    rw [child_directory hd, (h.names hp hd).find he]
    rfl
  exact (h.entered.target hp hfind).1

omit [NodeStore σ] [LawfulNodeStore σ] in
theorem InodesOk.dirBlock_entries (h : InodesOk root s) {ino : Nat} {d : DirectoryBlock} {e : DirEntry}
    (hd : dirBlock s ino = some d) (he : e ∈ d.entries) : Used s.container e.slot := by
  obtain ⟨p, hp, hn⟩ := dirBlock_eq_some.mp hd
  exact h.entry_used (h.used ino p hp) hn he

omit [NodeStore σ] [LawfulNodeStore σ] in
theorem InodesOk.entrySlots_used (h : InodesOk root s) (ino : Nat) :
    ∀ t ∈ entrySlots s ino, Used s.container t := by
  intro t ht
  unfold entrySlots at ht
  cases hd : dirBlock s ino with
  | none =>
    rw [hd] at ht
    cases ht
  | some d =>
    rw [hd] at ht
    obtain ⟨e, he, rfl⟩ := List.mem_map.mp ht
    exact h.dirBlock_entries hd he

omit [LawfulNodeStore σ] in
theorem InodesOk.lookupSlots_used (h : InodesOk root s) (parent : Nat) (name : String) :
    ∀ t ∈ lookupSlots s parent name, Used s.container t := by
  intro t ht
  obtain ⟨-, -, htarget⟩ := Option.bind_eq_some_iff.mp (Option.mem_toList.mp ht)
  obtain ⟨e, he, rfl⟩ := Option.map_eq_some_iff.mp htarget
  obtain ⟨d, hd, he⟩ := Option.bind_eq_some_iff.mp he
  exact h.dirBlock_entries hd (entryOf_mem he).1

end Reading

/-! ## A new node -/

section Linking

variable [LawfulNodeStore σ] {root : Nat} {s s₁ s₂ : VenomFuse σ} {n : VaultNode} {slot p : Nat}

theorem wellMade_empty (hn : n = emptyDir ∨ n = headNode 0 [] none []) : WellMade n := by
  rcases hn with rfl | rfl
  · exact List.nodup_nil
  · exact ⟨rfl, rfl⟩

theorem isLeaf_empty {f : Nat → Option VaultNode} (hn : n = emptyDir ∨ n = headNode 0 [] none [])
    (hslot : f slot = some n) : IsLeaf f slot := by
  rcases hn with rfl | rfl
  · exact .inl ⟨_, hslot, rfl⟩
  · exact .inr ⟨_, hslot⟩

/-- A new node is written and linked. -/
theorem InodesOk.linked (h : InodesOk root s) (hp : Used s.container p) {entry : DirEntry}
    (hn : n = emptyDir ∨ n = headNode 0 [] none []) (hentry : entry.slot = slot)
    (hwrite : (liftStore (writeNode n)).run s = .ok slot s₁)
    (hlink : (linkOrFree p slot entry).run s₁ = .ok () s₂) :
    InodeStep root none s s₂ ∧ Used s₂.container slot ∧ s₂.inodes = s.inodes := by
  obtain ⟨hs₁, hfree, hnode, hothers, hsame, hmem⟩ := writeNode_written h.freeOk.dataSlot hwrite
  obtain ⟨d, hadd⟩ := dirAddEntry_added (hsame.isDataSlot.mpr hp.1) (linkOrFree_ok hlink)
  have hvolume := hsame.trans hadd.same
  have hfresh : ∀ t, Used s.container t → t ≠ slot := fun t ht heq => ht.2 (heq ▸ hmem)
  have hfree₂ : free s.container = free s₂.container ++ [slot] := by rw [hadd.free, hfree]
  have hnodup := h.freeOk.nodup
  rw [hfree₂, List.nodup_append] at hnodup
  have hused : ∀ t, Used s₂.container t ↔ Used s.container t ∨ t = slot := by
    intro t
    rw [Used, Used, hvolume.isDataSlot, hfree₂, List.mem_append, List.mem_singleton]
    constructor
    · rintro ⟨hdata, hnot⟩
      by_cases hts : t = slot
      · exact .inr hts
      · exact .inl ⟨hdata, fun hor => hor.elim hnot hts⟩
    · rintro (⟨hdata, hnot⟩ | rfl)
      · exact ⟨hdata, fun hin => hnot (.inl hin)⟩
      · exact ⟨h.freeOk.dataSlot t hmem, fun hin => hnodup.2.2 t hin t List.mem_cons_self rfl⟩
  -- the nodes after the call
  have hd : nodes s.container p = some (.directory d) := by
    rw [← hothers p hp.1 (hfresh p hp)]
    exact hadd.dir
  have hslot : nodes s₂.container slot = some n := by
    rw [hadd.others slot (hsame.isDataSlot.mpr (h.freeOk.dataSlot slot hmem)) (hfresh p hp).symm, hnode]
  have hkept : ∀ t, Used s.container t → t ≠ p → nodes s₂.container t = nodes s.container t :=
    fun t ht htp => by
      rw [hadd.others t (hsame.isDataSlot.mpr ht.1) htp, hothers t ht.1 (hfresh t ht)]
  have hinodes : s₂.inodes = s.inodes := by rw [hadd.state, hs₁]
  have hnotRoot : slot ≠ root := (hfresh root h.rootUsed).symm
  have hold : ∀ u m t, Used s₂.container u → child (nodes s₂.container) u m = some t →
      (Used s.container u ∧ child (nodes s.container) u m = some t ∧ t ≠ slot) ∨
        (u = p ∧ m = entry.name ∧ t = slot) := by
    intro u m t hu ht
    rcases (hused u).mp hu with hu | rfl
    · by_cases hup : u = p
      · subst hup
        rw [child_directory hadd.node, entryOf_withEntry] at ht
        cases hm : entryOf d m with
        | some x =>
          rw [hm] at ht
          have hc : child (nodes s.container) u m = some t := by
            rw [child_directory hd, hm]
            exact ht
          exact .inl ⟨hu, hc, hfresh t (h.entered.target hu hc).1⟩
        | none =>
          rw [hm, Option.none_or] at ht
          split at ht
          next hname =>
            cases ht
            exact .inr ⟨rfl, hname.symm, hentry⟩
          next => cases ht
      · rw [child_congr (hkept u hu hup)] at ht
        exact .inl ⟨hu, ht, hfresh t (h.entered.target hu ht).1⟩
    · rw [(isLeaf_empty hn hslot).child m] at ht
      cases ht
  refine ⟨⟨⟨?_, (hused root).mpr (.inl h.rootUsed), ?_, ?_, ?_, ?_, ?_⟩, ?_, fun t ht _ => (hused t).mpr (.inl ht)⟩,
    (hused slot).mpr (.inr rfl), hinodes⟩
  · refine ⟨hnodup.1, fun t ht => hvolume.isDataSlot.mpr (h.freeOk.dataSlot t ?_)⟩
    rw [hfree₂]
    exact List.mem_append_left _ ht
  · refine h.entered.relinked p entry.name hnotRoot hold fun u m t hu ht => (hused t).mpr ?_
    rcases hold u m t hu ht with ⟨hu, hc, -⟩ | ⟨-, -, rfl⟩
    · exact .inl (h.entered.target hu hc).1
    · exact .inr rfl
  · intro t m ht hm
    rcases (hused t).mp ht with ht | rfl
    · by_cases htp : t = p
      · subst htp
        rw [hadd.node] at hm
        cases hm
        exact (h.names ht hd).withEntry hadd.new
      · rw [hkept t ht htp] at hm
        exact h.wellMade t m ht hm
    · rw [hslot] at hm
      cases hm
      exact wellMade_empty hn
  · rw [hinodes]
    exact h.paired
  · rw [hinodes]
    exact h.inoOfRoot
  · intro ino t ht
    rw [hinodes] at ht
    exact (hused t).mpr (.inl (h.used ino t ht))
  · rw [hinodes]
    exact .refl _

/-- A node that could not be linked is given up, and its slot is free as before. -/
theorem InodesOk.notLinked (h : InodesOk root s) {entry : DirEntry} {e : Failure}
    (hwrite : (liftStore (writeNode n)).run s = .ok slot s₁)
    (hlink : (linkOrFree p slot entry).run s₁ = .error e s₂) : InodeStep root none s s₂ := by
  obtain ⟨hs₁, hfree, -, hothers, hsame, hmem⟩ := writeNode_written h.freeOk.dataSlot hwrite
  obtain ⟨s₃, hun, rfl⟩ := linkOrFree_error hlink
  have hvolume := hsame.trans hun.same
  obtain ⟨hfreed, hothers', hsame'⟩ := LawfulNodeStore.freeNode_spec s₃.container slot
    (hvolume.isDataSlot.mpr (h.freeOk.dataSlot slot hmem))
  have hnodup := h.freeOk.nodup
  rw [hfree, List.nodup_append] at hnodup
  have hmem_free : ∀ t, t ∈ free (NodeStore.freeNode slot s₃.container) ↔ t ∈ free s.container := by
    intro t
    rw [hfreed, mem_insertFree, hun.free, hfree, List.mem_append, List.mem_singleton]
    exact or_comm
  refine .quiet h ⟨?_, fun t ht => ?_⟩ (fun t => ?_) (fun t ht => ?_) ?_
  · change (free (NodeStore.freeNode slot s₃.container)).Nodup
    rw [hfreed, nodup_insertFree, hun.free]
    exact ⟨fun hin => hnodup.2.2 slot hin slot List.mem_cons_self rfl, hnodup.1⟩
  · exact (hvolume.trans hsame').isDataSlot.mpr (h.freeOk.dataSlot t ((hmem_free t).mp ht))
  · exact and_congr (hvolume.trans hsame').isDataSlot (not_congr (hmem_free t))
  · have hne : t ≠ slot := fun heq => ht.2 (heq ▸ hmem)
    exact (hothers' t (hvolume.isDataSlot.mpr ht.1) hne).trans
      ((hun.nodes t (hsame.isDataSlot.mpr ht.1)).trans (hothers t ht.1 hne))
  · change s₃.inodes = s.inodes
    rw [hun.inodes, hs₁]

omit [LawfulNodeStore σ] in
theorem Unchanged.inodeStep (hun : Unchanged s s₁) (h : InodesOk root s) : InodeStep root none s s₁ := by
  have hused : ∀ t, Used s₁.container t ↔ Used s.container t := fun t => by
    rw [Used, Used, hun.same.isDataSlot, hun.free]
  refine .quiet h ⟨?_, fun t ht => ?_⟩ hused (fun t ht => hun.nodes t ht.1) hun.inodes
  · rw [hun.free]
    exact h.freeOk.nodup
  · rw [hun.free] at ht
    exact hun.same.isDataSlot.mpr (h.freeOk.dataSlot t ht)

end Linking

/-! ## A node given up -/

section GivingUp

variable [WipingNodeStore σ] {root : Nat} {s s₁ s' : VenomFuse σ} {p pSlot npSlot : Nat}
  {name newname : String} {d dest : DirectoryBlock} {e : DirEntry} {node : VaultNode}

/-- An entry is taken out, and its slot and its inode are given up. -/
theorem InodesOk.cut (h : InodesOk root s) (hp : Used s.container p) (hrem : Removed s s₁ p d name e)
    (hc : s'.container = NodeStore.freeNode e.slot s₁.container)
    (hinodes : s'.inodes = s.inodes.removeSlot e.slot) : InodeStep root (some e.slot) s s' := by
  have hsome : child (nodes s.container) p name = some e.slot := by
    rw [child_directory hrem.dir, hrem.entry]
    rfl
  obtain ⟨hslot, hnotRoot⟩ := h.entered.target hp hsome
  obtain ⟨hfreed, hothers, hsame⟩ :=
    LawfulNodeStore.freeNode_spec s₁.container e.slot (hrem.same.isDataSlot.mpr hslot.1)
  rw [← hc, hrem.free] at hfreed
  rw [← hc] at hothers hsame
  have hvolume := hrem.same.trans hsame
  have hused : ∀ t, Used s'.container t ↔ Used s.container t ∧ t ≠ e.slot := by
    intro t
    rw [Used, Used, hvolume.isDataSlot, hfreed, mem_insertFree]
    tauto
  have hdir : p ≠ e.slot → nodes s'.container p = some (.directory (without d name)) := fun hne =>
    (hothers p (hrem.same.isDataSlot.mpr hp.1) hne).trans hrem.node
  have hkept : ∀ t, Used s'.container t → t ≠ p → nodes s'.container t = nodes s.container t :=
    fun t ht htp => by
      obtain ⟨ht, hne⟩ := (hused t).mp ht
      rw [hothers t (hrem.same.isDataSlot.mpr ht.1) hne, hrem.others t ht.1 htp]
  -- the name that was taken out was the only one
  have hold : ∀ u m t, Used s'.container u → child (nodes s'.container) u m = some t →
      Used s.container u ∧ child (nodes s.container) u m = some t ∧ t ≠ e.slot := by
    intro u m t hu ht
    obtain ⟨hu', hne⟩ := (hused u).mp hu
    by_cases hup : u = p
    · subst hup
      rw [child_directory (hdir hne)] at ht
      have hm : m ≠ name := fun heq => by
        rw [heq, entryOf_without_self (h.names hp hrem.dir)] at ht
        cases ht
      rw [entryOf_without_ne hm, ← child_directory hrem.dir] at ht
      exact ⟨hu', ht, fun heq => hm (h.entered.single hu' hu' (heq ▸ ht) hsome).2⟩
    · rw [child_congr (hkept u hu hup)] at ht
      exact ⟨hu', ht, fun heq => hup (h.entered.single hu' hp (heq ▸ ht) hsome).1⟩
  have hpaired := h.paired.removeSlot e.slot
  have hknown := (h.paired.back.removeSlot e.slot).2
  rw [← hinodes] at hpaired hknown
  refine ⟨⟨⟨?_, fun t ht => ?_⟩, (hused root).mpr ⟨h.rootUsed, hnotRoot.symm⟩, ?_, fun t m ht hm => ?_,
    hpaired, ?_, fun ino t ht => ?_⟩, ?_, fun t ht hne => (hused t).mpr ⟨ht, fun heq => hne (heq ▸ rfl)⟩⟩
  · rw [hfreed, nodup_insertFree]
    exact ⟨hslot.2, h.freeOk.nodup⟩
  · rw [hfreed, mem_insertFree] at ht
    rcases ht with rfl | ht
    · exact hvolume.isDataSlot.mpr hslot.1
    · exact hvolume.isDataSlot.mpr (h.freeOk.dataSlot t ht)
  · refine h.entered.relinked p name hnotRoot (fun u m t hu ht => .inl (hold u m t hu ht))
      fun u m t hu ht => ?_
    obtain ⟨hu', ht', hne⟩ := hold u m t hu ht
    exact (hused t).mpr ⟨(h.entered.target hu' ht').1, hne⟩
  · obtain ⟨ht', hne⟩ := (hused t).mp ht
    by_cases htp : t = p
    · subst htp
      rw [hdir hne] at hm
      cases hm
      exact (h.names hp hrem.dir).without name
    · rw [hkept t ht htp] at hm
      exact h.wellMade t m ht' hm
  · rw [hinodes]
    exact (h.paired.removeSlot_follows e.slot).kept _ _ h.inoOfRoot fun heq =>
      hnotRoot (Option.some.inj heq)
  · obtain ⟨hold, hne⟩ := hknown ino t ht
    exact (hused t).mpr ⟨h.used ino t hold, hne⟩
  · rw [hinodes]
    exact h.paired.removeSlot_follows e.slot

theorem uniqueNames_linked (h : UniqueNames d) (newname : String) (moved : Nat) (node : VaultNode) :
    UniqueNames (linked d newname moved node) :=
  (h.without newname).withEntry (entryOf_without_self h)

omit [WipingNodeStore σ] in
/-- The names after a rename are old ones of other nodes, but for the new one. -/
theorem Renamed.old_names (h : Renamed s s' pSlot name npSlot newname d dest e node)
    (hs : InodesOk root s) (hp : Used s.container pSlot) (hnp : Used s.container npSlot) {u t : Nat}
    {m : String} (hu : Used s.container u)
    (hreplaced : replaced (nodes s.container) pSlot name npSlot newname ≠ some u)
    (ht : child (nodes s'.container) u m = some t) :
    (child (nodes s.container) u m = some t ∧ t ≠ e.slot ∧ (u = npSlot → m ≠ newname)) ∨
      (u = npSlot ∧ m = newname ∧ t = e.slot) := by
  have hsome : child (nodes s.container) pSlot name = some e.slot := h.source_child
  have hother : child (nodes s.container) u m = some t → ¬ (u = pSlot ∧ m = name) → t ≠ e.slot :=
    fun hc hne heq => hne (hs.entered.single hu hp (heq ▸ hc) hsome)
  by_cases hunp : u = npSlot
  · subst hunp
    by_cases hm : m = newname
    · have hbase : UniqueNames (if u = pSlot then without d name else dest) := by
        split
        next => exact (hs.names hp h.dir).without name
        next => exact hs.names hu h.destDir
      rw [child_directory h.new, linked, entryOf_withEntry, hm, entryOf_without_self hbase] at ht
      simp only [Option.none_or, if_true, Option.map_some, Option.some.injEq] at ht
      exact .inr ⟨rfl, hm, ht.symm⟩
    · rw [child_directory h.new, linked, entryOf_withEntry, if_neg (Ne.symm hm), Option.or_none,
        entryOf_without_ne hm] at ht
      have hold : child (nodes s.container) u m = some t ∧ ¬ (u = pSlot ∧ m = name) := by
        by_cases hup : u = pSlot
        · subst hup
          rw [if_pos rfl] at ht
          have hmn : m ≠ name := fun heq => by
            rw [heq, entryOf_without_self (hs.names hp h.dir)] at ht
            cases ht
          rw [entryOf_without_ne hmn, ← child_directory h.dir] at ht
          exact ⟨ht, fun hand => hmn hand.2⟩
        · rw [if_neg hup, ← child_directory h.destDir] at ht
          exact ⟨ht, fun hand => hup hand.1⟩
      exact .inl ⟨hold.1, hother hold.1 hold.2, fun _ => hm⟩
  · refine .inl ?_
    by_cases hup : u = pSlot
    · subst hup
      rw [child_directory (h.source hunp hreplaced)] at ht
      have hmn : m ≠ name := fun heq => by
        rw [heq, entryOf_without_self (hs.names hp h.dir)] at ht
        cases ht
      rw [entryOf_without_ne hmn, ← child_directory h.dir] at ht
      exact ⟨ht, hother ht fun hand => hmn hand.2, fun heq => absurd heq hunp⟩
    · rw [child_congr (h.others u hu.1 hup hunp hreplaced)] at ht
      exact ⟨ht, hother ht fun hand => hup hand.1, fun heq => absurd heq hunp⟩

omit [WipingNodeStore σ] in
/-- A successful rename gives up the node that had the new name. -/
theorem InodesOk.renamed (hs : InodesOk root s)
    (h : Renamed s s' pSlot name npSlot newname d dest e node) (hp : Used s.container pSlot) (hnp : Used s.container npSlot)
    (hnone : replaced (nodes s.container) pSlot name npSlot newname = none →
      free s'.container = free s.container ∧ s'.inodes = s.inodes)
    (hsome : ∀ o, replaced (nodes s.container) pSlot name npSlot newname = some o →
      free s'.container = insertFree o (free s.container) ∧ s'.inodes = s.inodes.removeSlot o) :
    InodeStep root (replaced (nodes s.container) pSlot name npSlot newname) s s' := by
  have hmoved := hs.entered.target hp h.source_child
  have hold : ∀ o, replaced (nodes s.container) pSlot name npSlot newname = some o →
      Used s.container o ∧ o ≠ root := fun o ho => hs.entered.target hnp (Renamed.replaced_child ho)
  have hused : ∀ t, Used s'.container t ↔ Used s.container t ∧
      replaced (nodes s.container) pSlot name npSlot newname ≠ some t := by
    intro t
    rw [Used, Used, h.same.isDataSlot, h.free]
    tauto
  have hkeeps : replaced (nodes s.container) pSlot name npSlot newname ≠ some e.slot := by
    unfold replaced
    split
    next => exact (Option.some_ne_none _).symm
    next hne => exact fun hc => hne (hs.entered.single hnp hp hc h.source_child)
  have hentered : Entered (child (nodes s'.container)) (Used s'.container) root := by
    refine hs.entered.relinked npSlot newname hmoved.2 (fun u m t hu ht => ?_)
      fun u m t hu ht => ?_
    · obtain ⟨hu, hne⟩ := (hused u).mp hu
      exact (h.old_names hs hp hnp hu hne ht).imp (fun hc => ⟨hu, hc.1, hc.2.1⟩) id
    · obtain ⟨hu, hne⟩ := (hused u).mp hu
      rcases h.old_names hs hp hnp hu hne ht with ⟨hc, -, hm⟩ | ⟨-, -, rfl⟩
      · refine (hused t).mpr ⟨(hs.entered.target hu hc).1, fun heq => ?_⟩
        -- the node given up had the new name, and no other
        obtain ⟨hunp, hmn⟩ := hs.entered.single hu hnp hc (Renamed.replaced_child heq)
        exact hm hunp hmn
      · exact (hused _).mpr ⟨hmoved.1, hkeeps⟩
  have hmade : ∀ t n, Used s'.container t → nodes s'.container t = some n → WellMade n := by
    intro t n ht hn
    obtain ⟨ht, hne⟩ := (hused t).mp ht
    by_cases htnp : t = npSlot
    · subst htnp
      rw [h.new] at hn
      cases hn
      refine uniqueNames_linked ?_ _ _ _
      split
      next => exact (hs.names hp h.dir).without name
      next => exact hs.names ht h.destDir
    · by_cases htp : t = pSlot
      · subst htp
        rw [h.source htnp hne] at hn
        cases hn
        exact (hs.names hp h.dir).without name
      · rw [h.others t ht.1 htp htnp hne] at hn
        exact hs.wellMade t n ht hn
  have hkept : ∀ t, Used s.container t →
      replaced (nodes s.container) pSlot name npSlot newname ≠ some t → Used s'.container t :=
    fun t ht hne => (hused t).mpr ⟨ht, hne⟩
  have hdata : ∀ t, t ∈ free s'.container → IsDataSlot s'.container t := fun t ht => by
    rcases (h.free t).mp ht with ho | ht
    · exact h.same.isDataSlot.mpr (hold t ho).1.1
    · exact h.same.isDataSlot.mpr (hs.freeOk.dataSlot t ht)
  have hroot : replaced (nodes s.container) pSlot name npSlot newname ≠ some root := fun ho =>
    (hold root ho).2 rfl
  cases hgone : replaced (nodes s.container) pSlot name npSlot newname with
  | none =>
    obtain ⟨hfree, hinodes⟩ := hnone hgone
    rw [hgone] at hkept hroot
    refine ⟨⟨⟨by rw [hfree]; exact hs.freeOk.nodup, hdata⟩, hkept root hs.rootUsed hroot, hentered, hmade,
      ?_, ?_, fun ino t ht => ?_⟩, ?_, hkept⟩
    · rw [hinodes]
      exact hs.paired
    · rw [hinodes]
      exact hs.inoOfRoot
    · rw [hinodes] at ht
      exact hkept t (hs.used ino t ht) (Option.some_ne_none t).symm
    · rw [hinodes]
      exact .refl _
  | some o =>
    obtain ⟨hfree, hinodes⟩ := hsome o hgone
    have hfollows := hs.paired.removeSlot_follows o
    have hpaired := hs.paired.removeSlot o
    have hknown := (hs.paired.back.removeSlot o).2
    rw [← hinodes] at hfollows hpaired hknown
    rw [hgone] at hkept hroot
    refine ⟨⟨⟨?_, hdata⟩, hkept root hs.rootUsed hroot, hentered, hmade, hpaired, ?_, fun ino t ht => ?_⟩,
      hfollows, hkept⟩
    · rw [hfree, nodup_insertFree]
      exact ⟨(hold o hgone).1.2, hs.freeOk.nodup⟩
    · exact hfollows.kept _ _ hs.inoOfRoot hroot
    · obtain ⟨ht, hne⟩ := hknown ino t ht
      exact hkept t (hs.used ino t ht) fun heq => hne (Option.some.inj heq).symm

end GivingUp

end Venom.Fuse

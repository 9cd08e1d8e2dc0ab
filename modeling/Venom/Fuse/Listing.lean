import Venom.Fuse.ListedChanges

/-! # Listing a directory in several calls

`ListingRun` is a listing from its first call on, each call going on at the offset of the last
entry it got, in between other calls on the directory.  The offset is a position: an entry that
goes away in front of it moves all that follow one place up, and the next call begins one entry
too late.  A listing is complete when no such call comes in between, or none before the last
entry has been handed out.
-/

namespace Venom.Fuse

open Venom.Storage
open Venom.Library
open Venom.Library.PositionScan
open Venom.Library.StateError

/-! ## Calls on a directory -/

inductive DirCall
  | create (parent : Nat) (name : String)
  | mkdir (parent : Nat) (name : String)
  | unlink (parent : Nat) (name : String)
  | rmdir (parent : Nat) (name : String)
  | rename (parent : Nat) (name : String) (newparent : Nat) (newname : String)

namespace DirCall

def run {σ : Type} [NodeStore σ] : DirCall → FuseM σ Unit
  | create parent name => discard (opCreate parent name)
  | mkdir parent name => discard (opMkdir parent name)
  | unlink parent name => opUnlink parent name
  | rmdir parent name => opRmdir parent name
  | rename parent name newparent newname => opRename parent name newparent newname

/-- The call is one in the directory of an inode. -/
def In (ino : Nat) : DirCall → Prop
  | create parent _ | mkdir parent _ | unlink parent _ | rmdir parent _ => parent = ino
  | rename parent _ newparent _ => parent = ino ∨ newparent = ino

variable {σ : Type} [NodeStore σ] [NodeView σ]

/-- The names the call takes out of the directory. -/
def takes (s : VenomFuse σ) (ino : Nat) : DirCall → List String
  | create .. | mkdir .. => []
  | unlink parent name => if parent = ino then [name] else []
  | rmdir parent name =>
    if parent = ino ∧ ((target s parent name).bind (nodes s.container)).any isEmptyDir then [name] else []
  | rename parent name newparent newname => renameTakes s ino parent name newparent newname

/-- The call takes out no entry in front of the offset, or nothing is left behind it. -/
def Spares (s : VenomFuse σ) (ino offset : Nat) (call : DirCall) : Prop :=
  (∀ name ∈ call.takes s ino, .child name ∉ (listing s ino).take offset) ∨
    (listing s ino).length ≤ offset

/-- How many inode numbers the call may take. -/
def numbers : DirCall → Nat
  | create .. | mkdir .. => 1
  | unlink .. | rmdir .. | rename .. => 0

/-- The call spares what is in front of the offset, and does not hand out the number of the
    directory again.  The numbers wrap around after 2^64. -/
def Careful (s : VenomFuse σ) (ino offset : Nat) (call : DirCall) : Prop :=
  call.Spares s ino offset ∧ s.inodes.Avoids ino call.numbers

instance (s : VenomFuse σ) (ino offset : Nat) (call : DirCall) : Decidable (call.Careful s ino offset) :=
  inferInstanceAs (Decidable ((_ ∨ _) ∧ _))

end DirCall

/-! ## A listing -/

section Runs

variable {σ : Type} [NodeStore σ] [NodeView σ]

/-- A directory in use that has each name once. -/
def Listable (s : VenomFuse σ) (ino : Nat) : Prop :=
  ∃ slot d, LiveDir ino slot d s ∧ UniqueNames d

/-- A listing of the directory of `ino`, with what it has returned and the entries that have
    been there since it began.  Other calls may fail; in a careful run they spare what is in
    front of the offset, and no call hands out `ino` again. -/
inductive ListingRun (careful : Prop) (ino : Nat) :
    VenomFuse σ → Nat → List DirReply → (Listed → Prop) → Prop
  | start {root : Nat} {s : VenomFuse σ} (hs : Reached root s) (hdir : Listable s ino) :
      ListingRun careful ino s 0 [] (· ∈ listing s ino)
  | read {s s' : VenomFuse σ} {offset : Nat} {returned reply : List DirReply} {present : Listed → Prop}
      (room : ReplyRoom) (hroom : ∀ r, room [] r = true)
      (h : ListingRun careful ino s offset returned present)
      (hnumbers : careful → s.inodes.Avoids ino (entrySlots s ino).length)
      (hrun : (readdir room ino offset).run s = .ok reply s') :
      ListingRun careful ino s' (nextOffset offset reply) (returned ++ reply)
        fun k => present k ∧ k ∈ listing s' ino
  | call {s : VenomFuse σ} {offset : Nat} {returned : List DirReply} {present : Listed → Prop}
      (call : DirCall) (h : ListingRun careful ino s offset returned present) (hin : call.In ino)
      (hcareful : careful → call.Careful s ino offset) :
      ListingRun careful ino (after call.run s) offset returned
        fun k => present k ∧ k ∈ listing (after call.run s) ino

variable [WipingNodeStore σ] {D : Nat → Prop} {ino slot : Nat} {d : DirectoryBlock} {s : VenomFuse σ}

/-! ## One call -/

theorem opCreate_liveDir (h : LiveDir ino slot d s) (hs : DriverWithin D s)
    (hne : s.inodes.nextIno ≠ ino) (parent : Nat) (name : String) :
    ∃ b, LiveDir ino slot b (after (opCreate parent name) s) ∧ Edit [] (names d) (names b) := by
  refine h.create hs hne parent ⟨by simp [refs, headNode], Nat.zero_le _⟩ (fun head => ⟨name, head, .file⟩)
    fun head b s hb hne => ?_
  rw [after_bind_of_ok (inoOfSlot_run head s)]
  have hdir := hb.inoOfSlot hne head
  exact ⟨hdir.inode, hdir.stored⟩

theorem opMkdir_liveDir (h : LiveDir ino slot d s) (hs : DriverWithin D s)
    (hne : s.inodes.nextIno ≠ ino) (parent : Nat) (name : String) :
    ∃ b, LiveDir ino slot b (after (opMkdir parent name) s) ∧ Edit [] (names d) (names b) := by
  refine h.create hs hne parent ⟨by simp [refs, emptyDir], Nat.zero_le _⟩ (fun t => ⟨name, t, .directory⟩)
    fun t b s hb hne => ?_
  rw [after_bind_of_ok (inoOfSlot_run t s)]
  exact hb.inoOfSlot hne t

/-- What a call leaves of a directory: the names it takes are out, and one may have come. -/
theorem DirCall.leaves (h : LiveDir ino slot d s) (hs : DriverWithin D s) (hnum : Numbered s)
    (hunique : UniqueNames d) (call : DirCall) (havoids : s.inodes.Avoids ino call.numbers) :
    Leaves ino slot (fun b => Edit (call.takes s ino) (names d) (names b)) (after call.run s) := by
  cases call with
  | create parent name =>
    obtain ⟨b, hb, hedit⟩ := opCreate_liveDir h hs havoids.ne parent name
    exact .inl ⟨b, by rwa [DirCall.run, after_discard], hedit⟩
  | mkdir parent name =>
    obtain ⟨b, hb, hedit⟩ := opMkdir_liveDir h hs havoids.ne parent name
    exact .inl ⟨b, by rwa [DirCall.run, after_discard], hedit⟩
  | unlink parent name => exact h.unlink hs hnum hunique parent name
  | rmdir parent name => exact h.rmdir hs hnum hunique parent name
  | rename parent name newparent newname => exact h.rename hs hnum hunique parent name newparent newname

theorem DirCall.keeps (call : DirCall) : Keeps (DriverWithin (σ := σ) D) call.run fun _ => True := by
  cases call with
  | create parent name => exact (DriverCall.create parent name).keeps
  | mkdir parent name => exact (DriverCall.mkdir parent name).keeps
  | unlink parent name => exact (DriverCall.unlink parent name).keeps
  | rmdir parent name => exact (DriverCall.rmdir parent name).keeps
  | rename parent name newparent newname => exact (DriverCall.rename parent name newparent newname).keeps

omit [NodeView σ] [WipingNodeStore σ] in
theorem DirCall.numbered (call : DirCall) : Keeps (Numbered (σ := σ)) call.run fun _ => True := by
  cases call with
  | create parent name => exact (DriverCall.create parent name).numbered
  | mkdir parent name => exact (DriverCall.mkdir parent name).numbered
  | unlink parent name => exact (DriverCall.unlink parent name).numbered
  | rmdir parent name => exact (DriverCall.rmdir parent name).numbered
  | rename parent name newparent newname => exact (DriverCall.rename parent name newparent newname).numbered

/-! ## Whole listings -/

/-- The directory is there, and the listing stands at its offset. -/
structure Underway (D : Nat → Prop) (ino slot : Nat) (d : DirectoryBlock) (s : VenomFuse σ) (offset : Nat)
    (returned : List DirReply) (present : Listed → Prop) : Prop where
  within : DriverWithin D s
  numbered : Numbered s
  dir : LiveDir ino slot d s
  unique : UniqueNames d
  scanned : Scanned (listed (names d)) offset (returned.map DirReply.listed) present

variable {s' : VenomFuse σ} {offset : Nat} {returned reply : List DirReply} {present : Listed → Prop}

theorem Underway.read {room : ReplyRoom} (h : Underway D ino slot d s offset returned present)
    (hroom : ∀ r, room [] r = true) (hnumbers : s.inodes.Avoids ino (entrySlots s ino).length)
    (hrun : (readdir room ino offset).run s = .ok reply s') :
    Underway D ino slot d s' (nextOffset offset reply) (returned ++ reply)
      fun k => present k ∧ k ∈ listing s' ino := by
  obtain ⟨hpiece, hnext, -, hstate⟩ := readdir_ok h.within hroom hrun
  have hdir : LiveDir ino slot d s' := by
    rw [hstate]
    exact ⟨InodeMap.handOut_slotOf hnumbers h.dir.inode, h.dir.stored⟩
  have hnum : Numbered s' := by
    rw [hstate]
    exact InodeMap.Backed.handOut h.numbered _
  refine ⟨((readdir_keeps room ino offset).ok h.within hrun).1, hnum, hdir, h.unique, ?_⟩
  have hread := (h.scanned.read reply.length).restrict fun k (hk : present k ∧ k ∈ listing s' ino) => hk.1
  rw [h.dir.listing] at hpiece
  rwa [hnext, List.map_append, hpiece]

theorem Underway.call (h : Underway D ino slot d s offset returned present) (call : DirCall)
    (hcareful : call.Careful s ino offset) :
    (∃ b, Underway D ino slot b (after call.run s) offset returned
      fun k => present k ∧ k ∈ listing (after call.run s) ino) ∨
      listing (after call.run s) ino = [] := by
  obtain ⟨hspares, havoids⟩ := hcareful
  rcases call.leaves h.dir h.within h.numbered h.unique havoids with ⟨b, hb, hedit⟩ | hgone
  · have hunique : UniqueNames b := hedit.nodup h.unique
    have hsteady : Steady offset (listed (names d)) (listed (names b)) := by
      unfold DirCall.Spares at hspares
      rw [h.dir.listing] at hspares
      rcases hspares with hbehind | hend
      · refine (edit_listed hedit).steady_behind fun k hk => ?_
        obtain ⟨name, hname, rfl⟩ := List.mem_map.mp hk
        exact hbehind name hname
      · exact (edit_listed hedit).steady_end hend
    refine .inl ⟨b, call.keeps.after h.within, call.numbered.after h.numbered, hb, hunique, ?_⟩
    rw [hb.listing]
    exact h.scanned.changed (nodup_listed h.unique) (nodup_listed hunique) hsteady
  · exact .inr hgone

/-- In a careful run the listing stands where it should, as long as anything is left that has
    been there all the time. -/
theorem ListingRun.underway (h : ListingRun True ino s offset returned present) :
    (∀ k, ¬ present k) ∨ ∃ D slot d, Underway D ino slot d s offset returned present := by
  induction h with
  | start hs hdir =>
    obtain ⟨slot, d, hd, hunique⟩ := hdir
    refine .inr ⟨_, slot, d, hs.within.1, hs.numbered, hd, hunique, ?_⟩
    rw [hd.listing]
    exact .start _
  | read room hroom _ hnumbers hrun ih =>
    rcases ih with hnone | ⟨D, slot, d, hu⟩
    · exact .inl fun k hk => hnone k hk.1
    · exact .inr ⟨D, slot, d, hu.read hroom (hnumbers trivial) hrun⟩
  | call call _ _ hcareful ih =>
    rcases ih with hnone | ⟨D, slot, d, hu⟩
    · exact .inl fun k hk => hnone k hk.1
    · rcases hu.call call (hcareful trivial) with ⟨b, hb⟩ | hgone
      · exact .inr ⟨D, slot, b, hb⟩
      · refine .inl fun k hk => ?_
        rw [hgone] at hk
        cases hk.2

/-- A careful listing hands out no entry twice that has been there all the time, and when a
    call returns nothing any more it has handed out each of them once. -/
theorem listing_exactly_once (h : ListingRun True ino s offset returned present) :
    (∀ k, present k → (returned.map DirReply.listed).count k ≤ 1) ∧
    ∀ room s', (∀ r, room [] r = true) → (readdir room ino offset).run s = .ok [] s' →
      ∀ k, present k → (returned.map DirReply.listed).count k = 1 := by
  rcases h.underway with hnone | ⟨D, slot, d, hu⟩
  · exact ⟨fun k hk => absurd hk (hnone k), fun _ _ _ _ k hk => absurd hk (hnone k)⟩
  · refine ⟨fun k hk => hu.scanned.count_le_one (nodup_listed hu.unique) hk, fun room s' hroom hrun k hk => ?_⟩
    obtain ⟨-, -, hend, -⟩ := readdir_ok hu.within hroom hrun
    rw [hu.dir.listing] at hend
    exact hu.scanned.count_eq_one (nodup_listed hu.unique) (hend rfl) hk

end Runs

/-! ## Two files -/

/-- A volume with the files `a` and `b` in its root directory. -/
def twoFiles : VenomFuse Volume :=
  after (DriverCall.create 1 "b").run (after (DriverCall.create 1 "a").run mounted)

theorem twoFiles_reached : Reached 0 twoFiles := .call _ (.call _ (.fresh _ (by decide)))

theorem twoFiles_listable : Listable twoFiles 1 :=
  ⟨0, { kind := .directory, entries := [⟨"a", 1, .file⟩, ⟨"b", 2, .file⟩] },
    ⟨by decide +kernel, by decide +kernel, by decide +kernel⟩, by unfold UniqueNames; decide⟩

/-- A buffer for `n` entries. -/
def roomFor (n : Nat) : ReplyRoom := fun reply _ => decide (reply.length < n)

/-- The first call has room for three entries, the last of them `a`. -/
def firstReply : List DirReply :=
  [⟨1, 1, .directory, "."⟩, ⟨1, 2, .directory, ".."⟩, ⟨2, 3, .regularFile, "a"⟩]

def begun : VenomFuse Volume := after (readdir (roomFor 3) 1 0) twoFiles

theorem begun_run (careful : Prop) : ListingRun careful 1 begun 3 firstReply
    fun k => k ∈ listing twoFiles 1 ∧ k ∈ listing begun 1 := by
  have hrun : (readdir (roomFor 3) 1 0).run twoFiles = .ok firstReply begun :=
    run_of_valueOf (by decide +kernel)
  have hstart : ListingRun careful 1 twoFiles 0 [] (· ∈ listing twoFiles 1) :=
    .start twoFiles_reached twoFiles_listable
  exact hstart.read (roomFor 3) (fun _ => rfl) (fun _ => by decide +kernel) hrun

/-- In between `b` goes and `c` comes, both behind the offset; `a` is listed once. -/
theorem listing_exactly_once_a : ∃ (s : VenomFuse Volume) (returned : List DirReply)
    (present : Listed → Prop), ListingRun True 1 s 4 returned present ∧ present (.child "a") ∧
      (returned.map DirReply.listed).count (.child "a") = 1 := by
  have hremoved := (begun_run True).call (.unlink 1 "b") rfl fun _ => by decide +kernel
  have hcreated := hremoved.call (.create 1 "c") rfl fun _ => by decide +kernel
  have hrun := run_of_valueOf (x := readdir (roomFor 1) 1 3)
    (s := after (DirCall.create 1 "c").run (after (DirCall.unlink 1 "b").run begun))
    (a := [⟨4, 4, .regularFile, "c"⟩]) (by decide +kernel)
  have hread := hcreated.read (roomFor 1) (fun _ => rfl) (fun _ => by decide +kernel) hrun
  have hend := run_of_valueOf (x := readdir (roomFor 1) 1 4)
    (s := after (readdir (roomFor 1) 1 3)
      (after (DirCall.create 1 "c").run (after (DirCall.unlink 1 "b").run begun)))
    (a := []) (by decide +kernel)
  have hpresent : (((.child "a" ∈ listing twoFiles 1 ∧ .child "a" ∈ listing begun 1) ∧
      .child "a" ∈ listing (after (DirCall.unlink 1 "b").run begun) 1) ∧
      .child "a" ∈ listing (after (DirCall.create 1 "c").run (after (DirCall.unlink 1 "b").run begun)) 1) ∧
      .child "a" ∈ listing (after (readdir (roomFor 1) 1 3)
        (after (DirCall.create 1 "c").run (after (DirCall.unlink 1 "b").run begun))) 1 := by
    decide +kernel
  exact ⟨_, _, _, hread, hpresent,
    (listing_exactly_once hread).2 (roomFor 1) _ (fun _ => rfl) hend _ hpresent⟩

/-- The file `a` is removed once it has been listed, as a scan that deletes does: the listing
    ends there, and `b` has not been listed. -/
theorem removal_hides_next_entry : ¬ ∀ (ino : Nat) (s : VenomFuse Volume) (offset : Nat)
    (returned : List DirReply) (present : Listed → Prop),
    ListingRun False ino s offset returned present →
    (∀ k, present k → (returned.map DirReply.listed).count k ≤ 1) ∧
    ∀ room s', (∀ r, room [] r = true) → (readdir room ino offset).run s = .ok [] s' →
      ∀ k, present k → (returned.map DirReply.listed).count k = 1 := by
  intro hall
  have hremoved := (begun_run False).call (.unlink 1 "a") rfl nofun
  have hend : (readdir (roomFor 3) 1 3).run (after (DirCall.unlink 1 "a").run begun) = .ok [] _ :=
    run_of_valueOf (by decide +kernel)
  have hpresent : (.child "b" ∈ listing twoFiles 1 ∧ .child "b" ∈ listing begun 1) ∧
      .child "b" ∈ listing (after (DirCall.unlink 1 "a").run begun) 1 := by decide +kernel
  have hcount := (hall _ _ _ _ _ hremoved).2 (roomFor 3) _ (fun _ => rfl) hend _ hpresent
  exact absurd hcount (by decide)

end Venom.Fuse

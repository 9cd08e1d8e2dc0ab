import Venom.Fuse.InodeSteps

/-! # The life of an inode

A slot is taken into use again as soon as it is free, while the kernel may keep its inode.  A
`Watch` counts how often each slot was taken, so that a slot holds another node each time.  An
inode denotes the node it was handed out for until a call gives that node up, and none from then
on, whatever the slot is used for later.
-/

namespace Venom.Fuse

open Venom.Storage
open Venom.Library
open Venom.Library.NameTree
open Venom.Library.StateError

/-! ## The calls -/

inductive InodeCall
  | lookup (parent : Nat) (name : String)
  | mkdir (parent : Nat) (name : String)
  | create (parent : Nat) (name : String)
  | unlink (parent : Nat) (name : String)
  | rmdir (parent : Nat) (name : String)
  | rename (parent : Nat) (name : String) (newparent : Nat) (newname : String)
  | readdir (room : ReplyRoom) (ino offset : Nat)

variable {σ : Type} [NodeStore σ] [NodeView σ]

namespace InodeCall

def run : InodeCall → FuseM σ Unit
  | lookup parent name => discard (opLookup parent name)
  | mkdir parent name => discard (opMkdir parent name)
  | create parent name => discard (opCreate parent name)
  | unlink parent name => opUnlink parent name
  | rmdir parent name => opRmdir parent name
  | rename parent name newparent newname => opRename parent name newparent newname
  | readdir room ino offset => discard (Fuse.readdir room ino offset)

/-- How many numbers the call takes: one for each slot that has none and is asked for. -/
def numbers (s : VenomFuse σ) : InodeCall → Nat
  | lookup parent name => s.inodes.newNumbers (lookupSlots s parent name)
  | mkdir parent name => if (valueOf (opMkdir parent name) s).isSome then 1 else 0
  | create parent name => if (valueOf (opCreate parent name) s).isSome then 1 else 0
  | readdir _ ino _ => s.inodes.newNumbers (entrySlots s ino)
  | unlink .. | rmdir .. | rename .. => 0

/-- The numbers do not wrap around in the call. -/
def InRange (s : VenomFuse σ) (call : InodeCall) : Prop := s.inodes.nextIno + call.numbers s < 2 ^ 64

instance (s : VenomFuse σ) (call : InodeCall) : Decidable (call.InRange s) :=
  inferInstanceAs (Decidable (_ < _))

/-- A rename is successful; any other call may fail. -/
def Allowed (s : VenomFuse σ) : InodeCall → Prop
  | rename parent name newparent newname =>
    ∃ s', (opRename parent name newparent newname).run s = .ok () s'
  | _ => True

/-- The slot whose node a successful call gives up: an unlinked file, a removed directory, or what
    had the new name before a rename. -/
def victim (s : VenomFuse σ) : InodeCall → Option Nat
  | unlink parent name | rmdir parent name => target s parent name
  | rename parent name newparent newname =>
    (s.inodes.slotOf parent).bind fun pSlot => (s.inodes.slotOf newparent).bind fun npSlot =>
      replaced (nodes s.container) pSlot name npSlot newname
  | lookup .. | mkdir .. | create .. | readdir .. => none

/-- A call that fails gives up nothing. -/
def removed (call : InodeCall) (s : VenomFuse σ) : Option Nat :=
  (valueOf call.run s).bind fun _ => call.victim s

theorem removed_of_ok (call : InodeCall) {s s' : VenomFuse σ} {u : Unit}
    (h : call.run.run s = .ok u s') : call.removed s = call.victim s := by
  rw [removed, valueOf_of_ok h, Option.bind_some]

theorem removed_of_error (call : InodeCall) {s s' : VenomFuse σ} {e : Failure}
    (h : call.run.run s = .error e s') : call.removed s = none := by
  rw [removed, valueOf_of_error h, Option.bind_none]

theorem removed_of_victim {call : InodeCall} {s : VenomFuse σ} (h : call.victim s = none) :
    call.removed s = none := by
  rw [removed, h, Option.bind_fun_none]

end InodeCall

/-! ## One call -/

section Calls

variable {D : Nat → Prop} {root : Nat} {s : VenomFuse σ}

omit [NodeStore σ] in
/-- A call that only hands out inodes. -/
theorem InodesOk.handedOut (h : InodesOk root s) {slots : List Nat}
    (hslots : ∀ t ∈ slots, Used s.container t)
    (hroom : s.inodes.nextIno + s.inodes.newNumbers slots < 2 ^ 64) :
    InodeStep root none s { s with inodes := s.inodes.handOut slots } :=
  (InodeStep.refl h).handOut h.paired.ok hslots hroom rfl rfl

variable [WipingNodeStore σ]

/-- A new node is written and linked, or nothing has changed. -/
theorem InodesOk.created {α : Type} (h : InodesOk root s) (parent : Nat) {n : VaultNode}
    (hn : n = emptyDir ∨ n = headNode 0 [] none []) (entry : Nat → DirEntry)
    (hentry : ∀ t, (entry t).slot = t) {rest : Nat → FuseM σ α} {x : FuseM σ α}
    (hx : x = (do
      let pSlot ← slotOfIno parent
      let t ← liftStore (writeNode n)
      linkOrFree pSlot t (entry t)
      rest t))
    (hrest : ∀ t s₁, ∃ a s₂, (rest t).run s₁ = .ok a s₂ ∧ s₂.container = s₁.container ∧
      s₂.inodes = (s₁.inodes.getOrAlloc t).2)
    (hroom : s.inodes.nextIno + (if (valueOf x s).isSome then 1 else 0) < 2 ^ 64) :
    InodeStep root none s (after x s) := by
  subst hx
  have hfits : Fits (NodeStore.cipher s.container) n := by
    rcases hn with rfl | rfl
    · exact emptyDir_fits _
    · exact emptyHead_fits _
  cases hslot : (slotOfIno (σ := σ) parent).run s with
  | error e s₁ =>
    rw [after_of_error (run_bind_of_error hslot), slotOfIno_error hslot]
    exact .refl h
  | ok p s₁ =>
    obtain ⟨hp, rfl⟩ := slotOfIno_ok.mp hslot
    rw [after_bind_of_ok hslot]
    cases hwrite : (liftStore (writeNode n)).run s₁ with
    | error e s₂ =>
      rw [after_of_error (run_bind_of_error hwrite)]
      exact (writeNode_unchanged hfits hwrite).inodeStep h
    | ok t s₂ =>
      rw [after_bind_of_ok hwrite]
      cases hlink : (linkOrFree p t (entry t)).run s₂ with
      | error e s₃ =>
        rw [after_of_error (run_bind_of_error hlink)]
        exact h.notLinked hwrite hlink
      | ok u s₃ =>
        rw [after_bind_of_ok hlink]
        obtain ⟨hstep, hused, hsame⟩ := h.linked (h.used parent p hp) hn (hentry t) hwrite hlink
        obtain ⟨a, s₄, hrun, hc, hinodes⟩ := hrest t s₃
        rw [valueOf_bind_of_ok hslot, valueOf_bind_of_ok hwrite, valueOf_bind_of_ok hlink,
          valueOf_of_ok hrun, Option.isSome_some, if_pos rfl] at hroom
        rw [after_of_ok hrun]
        have hslots : ∀ u ∈ [t], Used s₃.container u := fun u hu => List.mem_singleton.mp hu ▸ hused
        have hone : s₃.inodes.newNumbers [t] ≤ 1 := by
          rw [InodeMap.newNumbers, InodeMap.newNumbers]
          split <;> decide
        refine hstep.handOut h.paired.ok hslots ?_ hc hinodes
        rw [hsame] at hone ⊢
        omega

theorem opMkdir_inodeStep (h : InodesOk root s) {parent : Nat} {name : String}
    (hrange : (InodeCall.mkdir parent name).InRange s) :
    InodeStep root none s (after (opMkdir parent name) s) :=
  h.created parent (.inl rfl) (fun t => ⟨name, t, .directory⟩) (fun _ => rfl) rfl
    (fun _ _ => ⟨_, _, rfl, rfl, rfl⟩) hrange

theorem opCreate_inodeStep (h : InodesOk root s) {parent : Nat} {name : String}
    (hrange : (InodeCall.create parent name).InRange s) :
    InodeStep root none s (after (opCreate parent name) s) :=
  h.created parent (.inr rfl) (fun t => ⟨name, t, .file⟩) (fun _ => rfl) rfl
    (fun _ _ => ⟨_, _, rfl, rfl, rfl⟩) hrange

theorem opUnlink_inodeStep (h : InodesOk root s) (parent : Nat) (name : String) :
    InodeStep root ((InodeCall.unlink parent name).removed s) s (after (opUnlink parent name) s) := by
  cases hslot : (slotOfIno (σ := σ) parent).run s with
  | error e s₁ =>
    have hrun : (opUnlink parent name).run s = .error e s₁ := run_bind_of_error hslot
    rw [InodeCall.removed_of_error (.unlink parent name) hrun, after_of_error hrun,
      slotOfIno_error hslot]
    exact .refl h
  | ok p s₁ =>
    obtain ⟨hp, rfl⟩ := slotOfIno_ok.mp hslot
    have hpu := h.used parent p hp
    cases hremove : (dirRemoveEntry p name).run s₁ with
    | error e s₂ =>
      have hrun : (opUnlink parent name).run s₁ = .error e s₂ :=
        (run_bind_of_ok hslot).trans (run_bind_of_error hremove)
      rw [InodeCall.removed_of_error (.unlink parent name) hrun, after_of_error hrun]
      exact (dirRemoveEntry_error hremove).inodeStep h
    | ok t s₂ =>
      obtain ⟨d, e, hrem, rfl⟩ := dirRemoveEntry_ok hpu.1 hremove
      have heu := h.entry_used hpu hrem.dir (entryOf_mem hrem.entry).1
      obtain ⟨s', hrun, hc, hinodes⟩ := opUnlink_plain hp hremove hrem
        (hrem.same.isDataSlot.mpr heu.1) fun fb hfb => by
          by_cases hep : e.slot = p
          · rw [hep, hrem.node] at hfb
            cases hfb
          · rw [hrem.others _ heu.1 hep] at hfb
            exact h.plain heu hfb
      have hvictim : (InodeCall.unlink parent name).victim s₁ = some e.slot := by
        rw [InodeCall.victim, target_eq hp hrem.dir, hrem.entry]
        rfl
      rw [InodeCall.removed_of_ok (.unlink parent name) hrun, hvictim, after_of_ok hrun]
      exact h.cut hpu hrem hc hinodes

theorem opRmdir_inodeStep (h : InodesOk root s) (parent : Nat) (name : String) :
    InodeStep root ((InodeCall.rmdir parent name).removed s) s (after (opRmdir parent name) s) := by
  -- a call that ends before it has taken the entry out changes nothing
  have hquiet : ∀ {e s₁}, (opRmdir parent name).run s = .error e s₁ → Unchanged s s₁ →
      InodeStep root ((InodeCall.rmdir parent name).removed s) s (after (opRmdir parent name) s) :=
    fun hrun hun => by
      rw [InodeCall.removed_of_error (.rmdir parent name) hrun, after_of_error hrun]
      exact hun.inodeStep h
  cases hslot : (slotOfIno (σ := σ) parent).run s with
  | error e s₁ =>
    refine hquiet (run_bind_of_error hslot) ?_
    rw [slotOfIno_error hslot]
    exact .refl s
  | ok p s₁ =>
  obtain ⟨hp, rfl⟩ := slotOfIno_ok.mp hslot
  have hpu := h.used parent p hp
  cases hdir : (readDirBlock p).run s₁ with
  | error e s₂ =>
    refine hquiet ((run_bind_of_ok hslot).trans (run_bind_of_error hdir)) ?_
    rw [(readDirBlock_error hdir).1]
    exact .refl s₁
  | ok d s₂ =>
  obtain ⟨rfl, hd⟩ := readDirBlock_ok hdir
  have hd := hd hpu.1
  have hread : (opRmdir parent name).run s₂ = _ := (run_bind_of_ok hslot).trans (run_bind_of_ok hdir)
  cases hentry : entryOf d name with
  | none =>
    have hfind : d.entries.find? (fun e => decide (e.name = name)) = none := hentry
    rw [hfind] at hread
    exact hquiet hread (.refl s₂)
  | some e =>
    have hfind : d.entries.find? (fun e => decide (e.name = name)) = some e := hentry
    rw [hfind] at hread
    dsimp only at hread
    cases htarget : (readDirBlock e.slot).run s₂ with
    | error f s₃ =>
      rw [run_bind_of_error htarget] at hread
      refine hquiet hread ?_
      rw [(readDirBlock_error htarget).1]
      exact .refl s₂
    | ok t s₃ =>
      obtain ⟨rfl, -⟩ := readDirBlock_ok htarget
      rw [run_bind_of_ok htarget] at hread
      by_cases hnonempty : t.entries ≠ []
      · rw [if_pos hnonempty] at hread
        exact hquiet hread (.refl s₃)
      · rw [if_neg hnonempty] at hread
        cases hremove : (dirRemoveEntry p name).run s₃ with
        | error f s₄ =>
          rw [run_bind_of_error hremove] at hread
          exact hquiet hread (dirRemoveEntry_error hremove)
        | ok removed s₄ =>
          rw [run_bind_of_ok hremove] at hread
          obtain ⟨d', e', hrem, rfl⟩ := dirRemoveEntry_ok hpu.1 hremove
          have hvictim : (InodeCall.rmdir parent name).victim s₃ = some e'.slot := by
            rw [InodeCall.victim, target_eq hp hrem.dir, hrem.entry]
            rfl
          have hrun : (opRmdir parent name).run s₃ = .ok () { s₄ with
              container := NodeStore.freeNode e'.slot s₄.container
              inodes := s₄.inodes.removeSlot e'.slot } := hread
          rw [InodeCall.removed_of_ok (.rmdir parent name) hrun, hvictim, after_of_ok hrun]
          exact h.cut hpu hrem rfl (by rw [hrem.state])

theorem opRename_inodeStep (h : InodesOk root s) (hs : DriverWithin D s) {parent newparent : Nat}
    {name newname : String} {s' : VenomFuse σ}
    (hrun : (opRename parent name newparent newname).run s = .ok () s') :
    InodeStep root ((InodeCall.rename parent name newparent newname).removed s) s s' := by
  obtain ⟨pSlot, s₁, hslot, h₁⟩ := run_bind_ok.mp hrun
  obtain ⟨hp, rfl⟩ := slotOfIno_ok.mp hslot
  obtain ⟨npSlot, s₂, hslot', h₂⟩ := run_bind_ok.mp h₁
  obtain ⟨hnp, rfl⟩ := slotOfIno_ok.mp hslot'
  have hunique : ∀ d, nodes s₂.container pSlot = some (.directory d) → UniqueNames d := fun d hd =>
    h.names (h.used parent pSlot hp) hd
  have hvictim : (InodeCall.rename parent name newparent newname).victim s₂ =
      replaced (nodes s₂.container) pSlot name npSlot newname := by
    rw [InodeCall.victim, hp, Option.bind_some, hnp, Option.bind_some]
  obtain ⟨d, dest, e, node, hrenamed⟩ := opRename_renamed hs hp hnp hunique hrun
  obtain ⟨hnone, hsome⟩ := opRename_vacates hs hp hnp hunique hrun
  rw [InodeCall.removed_of_ok (.rename parent name newparent newname) hrun, hvictim]
  exact h.renamed hrenamed (h.used parent pSlot hp) (h.used newparent npSlot hnp) hnone hsome

/-- A call gives up one node at most, and drops the inode of that node and no other. -/
theorem InodeCall.step (h : InodesOk root s) (hs : DriverWithin D s) (call : InodeCall)
    (hallowed : call.Allowed s) (hrange : call.InRange s) : InodeStep root (call.removed s) s (after call.run s) := by
  cases call with
  | lookup parent name =>
    rw [InodeCall.removed_of_victim rfl, InodeCall.run, after_discard]
    rw [h.opLookup_after]
    exact h.handedOut (h.lookupSlots_used parent name) hrange
  | mkdir parent name =>
    rw [InodeCall.removed_of_victim rfl, InodeCall.run, after_discard]
    exact opMkdir_inodeStep h hrange
  | create parent name =>
    rw [InodeCall.removed_of_victim rfl, InodeCall.run, after_discard]
    exact opCreate_inodeStep h hrange
  | unlink parent name => exact opUnlink_inodeStep h parent name
  | rmdir parent name => exact opRmdir_inodeStep h parent name
  | rename parent name newparent newname =>
    obtain ⟨s', hrun⟩ := hallowed
    have hafter : after (InodeCall.rename parent name newparent newname).run s = s' := after_of_ok hrun
    rw [hafter]
    exact opRename_inodeStep h hs hrun
  | readdir room ino offset =>
    rw [InodeCall.removed_of_victim rfl, InodeCall.run, after_discard]
    rw [h.readdir_after]
    exact h.handedOut (h.entrySlots_used ino) hrange

theorem InodeCall.keeps (call : InodeCall) : Keeps (DriverWithin (σ := σ) D) call.run fun _ => True := by
  cases call with
  | lookup parent name => exact (DriverCall.lookup parent name).keeps
  | mkdir parent name => exact (DriverCall.mkdir parent name).keeps
  | create parent name => exact (DriverCall.create parent name).keeps
  | unlink parent name => exact (DriverCall.unlink parent name).keeps
  | rmdir parent name => exact (DriverCall.rmdir parent name).keeps
  | rename parent name newparent newname => exact (DriverCall.rename parent name newparent newname).keeps
  | readdir room ino offset => exact discard_keeps (readdir_keeps room ino offset)

end Calls

/-! ## Runs -/

/-- One of the nodes a slot holds in turn: the one it got when it was taken for the `birth`-th time. -/
structure LiveNode where
  slot : Nat
  birth : Nat
deriving DecidableEq

/-- A driver, and how often each slot was taken from the free list. -/
structure Watch (σ : Type) where
  driver : VenomFuse σ
  births : Nat → Nat

namespace Watch

def new (s : VenomFuse σ) : Watch σ := { driver := s, births := fun _ => 0 }

def after (w : Watch σ) (call : InodeCall) : Watch σ :=
  let s := StateError.after call.run w.driver
  { driver := s
    births := fun t =>
      if t ∈ free w.driver.container ∧ t ∉ free s.container then w.births t + 1 else w.births t }

def run (w : Watch σ) (calls : List InodeCall) : Watch σ := calls.foldl after w

/-- The node an inode leads to. -/
def denotes (w : Watch σ) (ino : Nat) : Option LiveNode :=
  (w.driver.inodes.slotOf ino).map fun slot => ⟨slot, w.births slot⟩

/-- The node a call gives up. -/
def removed (w : Watch σ) (call : InodeCall) : Option LiveNode :=
  (call.removed w.driver).map fun slot => ⟨slot, w.births slot⟩

/-- Every rename of the run is successful. -/
def Allows (w : Watch σ) : List InodeCall → Prop
  | [] => True
  | call :: calls => call.Allowed w.driver ∧ (w.after call).Allows calls

/-- The numbers do not wrap around in the run. -/
def InRange (w : Watch σ) : List InodeCall → Prop
  | [] => True
  | call :: calls => call.InRange w.driver ∧ (w.after call).InRange calls

/-- A call of the run gives up the node. -/
def Removes (w : Watch σ) (n : LiveNode) : List InodeCall → Prop
  | [] => False
  | call :: calls => w.removed call = some n ∨ (w.after call).Removes n calls

theorem allows_append {w : Watch σ} {calls later : List InodeCall} :
    w.Allows (calls ++ later) ↔ w.Allows calls ∧ (w.run calls).Allows later := by
  induction calls generalizing w with
  | nil => exact (iff_of_eq (true_and _)).symm
  | cons call calls ih => exact (and_congr Iff.rfl ih).trans and_assoc.symm

theorem inRange_append {w : Watch σ} {calls later : List InodeCall} :
    w.InRange (calls ++ later) ↔ w.InRange calls ∧ (w.run calls).InRange later := by
  induction calls generalizing w with
  | nil => exact (iff_of_eq (true_and _)).symm
  | cons call calls ih => exact (and_congr Iff.rfl ih).trans and_assoc.symm

/-- The driver of a watch is sound. -/
structure Ok (D : Nat → Prop) (root : Nat) (w : Watch σ) : Prop where
  inodes : InodesOk root w.driver
  within : DriverWithin D w.driver

section Steps

variable [WipingNodeStore σ] {D : Nat → Prop} {root : Nat} {w : Watch σ} {call : InodeCall}

theorem Ok.after (h : w.Ok D root) (hallowed : call.Allowed w.driver) (hrange : call.InRange w.driver) :
    (w.after call).Ok D root :=
  ⟨(InodeCall.step h.inodes h.within call hallowed hrange).ok, call.keeps.after h.within⟩

omit [NodeStore σ] [NodeView σ] [WipingNodeStore σ] in
theorem denotes_eq_some {ino : Nat} {n : LiveNode} :
    w.denotes ino = some n ↔ w.driver.inodes.slotOf ino = some n.slot ∧ w.births n.slot = n.birth := by
  rw [denotes, Option.map_eq_some_iff]
  constructor
  · rintro ⟨slot, hslot, rfl⟩
    exact ⟨hslot, rfl⟩
  · rintro ⟨hslot, hbirth⟩
    exact ⟨n.slot, hslot, by rw [hbirth]⟩

omit [WipingNodeStore σ] in
theorem removed_iff {n : LiveNode} (hbirth : w.births n.slot = n.birth) :
    w.removed call = some n ↔ call.removed w.driver = some n.slot := by
  rw [removed, Option.map_eq_some_iff]
  constructor
  · rintro ⟨slot, hslot, rfl⟩
    exact hslot
  · exact fun hslot => ⟨n.slot, hslot, by rw [hbirth]⟩

/-- A call leaves an inode with its node, unless it gives that up. -/
theorem Ok.denotes_after (h : w.Ok D root) (hallowed : call.Allowed w.driver)
    (hrange : call.InRange w.driver) {ino : Nat} {n : LiveNode} (hn : w.denotes ino = some n) (hkept : w.removed call ≠ some n) :
    (w.after call).denotes ino = some n := by
  obtain ⟨hslot, hbirth⟩ := denotes_eq_some.mp hn
  have hstep := InodeCall.step h.inodes h.within call hallowed hrange
  have hne : call.removed w.driver ≠ some n.slot := fun heq => hkept ((removed_iff hbirth).mpr heq)
  refine denotes_eq_some.mpr ⟨hstep.inodes.kept ino n.slot hslot hne, ?_⟩
  -- the slot was in use, so it was not taken again
  have hused := (h.inodes.used ino n.slot hslot).2
  exact (if_neg fun htaken => hused htaken.1).trans hbirth

/-- The inode of a node that is given up leads nowhere. -/
theorem Ok.denotes_removed (h : w.Ok D root) (hallowed : call.Allowed w.driver)
    (hrange : call.InRange w.driver) {ino : Nat} {n : LiveNode} (hn : w.denotes ino = some n) (hgone : w.removed call = some n) :
    (w.after call).denotes ino = none := by
  obtain ⟨hslot, hbirth⟩ := denotes_eq_some.mp hn
  have hstep := InodeCall.step h.inodes h.within call hallowed hrange
  rw [denotes, Option.map_eq_none_iff]
  exact hstep.inodes.forgotten ino n.slot hslot ((removed_iff hbirth).mp hgone)

/-- A number that was handed out and leads nowhere. -/
def Silent (w : Watch σ) (ino : Nat) : Prop := ino < w.driver.inodes.nextIno ∧ w.denotes ino = none

theorem Ok.silent_after (h : w.Ok D root) (hallowed : call.Allowed w.driver)
    (hrange : call.InRange w.driver) {ino : Nat} (hino : w.Silent ino) : (w.after call).Silent ino := by
  obtain ⟨hlt, hnone⟩ := hino
  have hstep := InodeCall.step h.inodes h.within call hallowed hrange
  refine ⟨Nat.lt_of_lt_of_le hlt hstep.inodes.next, ?_⟩
  rw [denotes, Option.map_eq_none_iff] at hnone ⊢
  exact hstep.inodes.silent ino hlt hnone

/-! ### Many calls -/

theorem Ok.run (h : w.Ok D root) {calls : List InodeCall} (hallowed : w.Allows calls)
    (hrange : w.InRange calls) : (w.run calls).Ok D root := by
  induction calls generalizing w with
  | nil => exact h
  | cons call calls ih => exact ih (h.after hallowed.1 hrange.1) hallowed.2 hrange.2

theorem Ok.silent_run (h : w.Ok D root) {calls : List InodeCall} (hallowed : w.Allows calls)
    (hrange : w.InRange calls) {ino : Nat} (hino : w.Silent ino) : (w.run calls).Silent ino := by
  induction calls generalizing w with
  | nil => exact hino
  | cons call calls ih =>
    exact ih (h.after hallowed.1 hrange.1) hallowed.2 hrange.2 (h.silent_after hallowed.1 hrange.1 hino)

theorem Ok.denotes_run (h : w.Ok D root) {calls : List InodeCall} (hallowed : w.Allows calls)
    (hrange : w.InRange calls) {ino : Nat} {n : LiveNode} (hn : w.denotes ino = some n) :
    (¬ w.Removes n calls → (w.run calls).denotes ino = some n) ∧
      (w.Removes n calls → (w.run calls).denotes ino = none) := by
  induction calls generalizing w with
  | nil => exact ⟨fun _ => hn, fun hgone => hgone.elim⟩
  | cons call calls ih =>
    have hafter := h.after hallowed.1 hrange.1
    by_cases hgone : w.removed call = some n
    · have hlt : ino < w.driver.inodes.nextIno :=
        h.inodes.paired.ok.fresh ino n.slot (denotes_eq_some.mp hn).1
      have hsilent : (w.after call).Silent ino :=
        ⟨Nat.lt_of_lt_of_le hlt (InodeCall.step h.inodes h.within call hallowed.1 hrange.1).inodes.next,
          h.denotes_removed hallowed.1 hrange.1 hn hgone⟩
      exact ⟨fun hkept => absurd (.inl hgone) hkept,
        fun _ => (hafter.silent_run hallowed.2 hrange.2 hsilent).2⟩
    · obtain ⟨hkeep, hdrop⟩ := ih hafter hallowed.2 hrange.2 (h.denotes_after hallowed.1 hrange.1 hn hgone)
      exact ⟨fun hkept => hkeep fun hlater => hkept (.inr hlater),
        fun hlater => hdrop (hlater.resolve_left hgone)⟩

end Steps

end Watch

omit [NodeStore σ] in
/-- A new volume has one node in use, the root, and one inode. -/
theorem InodesOk.formatted {c : σ} {root : Nat} (hc : Formatted c root) :
    InodesOk root (VenomFuse.new root c) := by
  have hmap : ∀ ino t, (InodeMap.new root).slotOf ino = some t → t = root := by
    intro ino t ht
    simp only [InodeMap.new, InodeMap.slotOf, HashMap.get_insert, HashMap.get_empty] at ht
    split at ht
    · exact (Option.some.inj ht).symm
    · cases ht
  have hroot : Used c root := ⟨hc.dataSlot, fun hin => ((hc.mem_free root).mp hin).2 rfl⟩
  have hused : ∀ t, Used c t → t = root := fun t ht => by
    by_contra hne
    exact ht.2 ((hc.mem_free t).mpr ⟨ht.1, hne⟩)
  have hleaf : ∀ m, child (nodes (VenomFuse.new root c).container) root m = none :=
    (isLeaf_empty (.inl rfl) hc.rootNode).child
  refine ⟨⟨hc.nodup, fun t ht => ((hc.mem_free t).mp ht).1⟩, hroot, ⟨fun hu ht => ?_, fun hu _ ht => ?_⟩,
    fun t n ht hn => ?_, .new root, ?_, fun ino t ht => ?_⟩
  · rw [hused _ hu, hleaf] at ht
    cases ht
  · rw [hused _ hu, hleaf] at ht
    cases ht
  · have hn : nodes c root = some n := hused t ht ▸ hn
    rw [hc.rootNode] at hn
    cases hn
    exact wellMade_empty (.inl rfl)
  · simp [VenomFuse.new, InodeMap.new, InodeMap.slotOf]
  · rw [hmap ino t ht]
    exact hroot

/-- At every point of a run on a new volume in which the numbers do not wrap around, the two maps
    are inverse to each other, every inode is below the next one, and the root has its own.  An
    inode that denotes a node does so as long as no call gives the node up, and from then on it
    denotes none. -/
theorem inodes_live [WipingNodeStore σ] {c : σ} {root : Nat} (hc : Formatted c root)
    (hblank : ∀ s, IsDataSlot c s → s ≠ root → nodes c s = none) (calls later : List InodeCall)
    (hallowed : (Watch.new (VenomFuse.new root c)).Allows (calls ++ later))
    (hrange : (Watch.new (VenomFuse.new root c)).InRange (calls ++ later)) {w : Watch σ}
    (hw : w = (Watch.new (VenomFuse.new root c)).run calls) :
    (∀ ino slot, w.driver.inodes.inoToSlot.get ino = some slot ↔
      w.driver.inodes.slotToIno.get slot = some ino) ∧
    (∀ ino slot, w.driver.inodes.inoToSlot.get ino = some slot → ino < w.driver.inodes.nextIno) ∧
    w.driver.inodes.inoToSlot.get rootIno = some root ∧
    ∀ ino n, w.denotes ino = some n → n.slot ∉ free w.driver.container ∧
      (¬ w.Removes n later → (w.run later).denotes ino = some n) ∧
      (w.Removes n later → (w.run later).denotes ino = none) := by
  subst hw
  obtain ⟨hcalls, hlater⟩ := Watch.allows_append.mp hallowed
  obtain ⟨hrangeCalls, hrangeLater⟩ := Watch.inRange_append.mp hrange
  have hstart : (Watch.new (VenomFuse.new root c)).Ok (IsDataSlot c) root :=
    ⟨.formatted hc, (Reached.start hc hblank).within.1⟩
  have hok := hstart.run hcalls hrangeCalls
  refine ⟨fun ino slot => ⟨hok.inodes.paired.back ino slot, hok.inodes.paired.ok.mapped slot ino⟩,
    hok.inodes.paired.ok.fresh, hok.inodes.inoOfRoot, fun ino n hn =>
      ⟨?_, hok.denotes_run hlater hrangeLater hn⟩⟩
  exact (hok.inodes.used ino n.slot (Watch.denotes_eq_some.mp hn).1).2

/-- A file is renamed, unlinked, and its slot goes to another file: its inode 2 leads nowhere. -/
theorem inodes_live_reused : ∃ w : Watch Volume,
    w = (Watch.new mounted).run [.create 1 "notes"] ∧ w.denotes 2 = some ⟨1, 1⟩ ∧
      (w.run [.rename 1 "notes" 1 "letters"]).denotes 2 = some ⟨1, 1⟩ ∧
      (w.run [.rename 1 "notes" 1 "letters", .unlink 1 "letters", .create 1 "drafts"]).denotes 2 = none ∧
      (w.run [.rename 1 "notes" 1 "letters", .unlink 1 "letters", .create 1 "drafts"]).denotes 3 =
        some ⟨1, 2⟩ := by
  have hc : Formatted (Volume.fresh .xchacha20Poly1305 8) 0 := Volume.fresh_formatted _ (by decide)
  have hallowed : (Watch.new mounted).Allows ([.create 1 "notes"] ++
      [.rename 1 "notes" 1 "letters", .unlink 1 "letters", .create 1 "drafts"]) :=
    ⟨trivial, ⟨_, run_of_valueOf (a := ()) (by decide +kernel)⟩, trivial, trivial, trivial⟩
  have hrange : (Watch.new mounted).InRange ([.create 1 "notes"] ++
      [.rename 1 "notes" 1 "letters", .unlink 1 "letters", .create 1 "drafts"]) :=
    ⟨by decide +kernel, by decide +kernel, by decide +kernel, by decide +kernel, trivial⟩
  have hblank : ∀ s, IsDataSlot (Volume.fresh .xchacha20Poly1305 8) s → s ≠ 0 →
      nodes (Volume.fresh .xchacha20Poly1305 8) s = none := fun s _ hne => if_neg hne
  have hnode : ((Watch.new mounted).run [.create 1 "notes"]).denotes 2 = some ⟨1, 1⟩ := by decide +kernel
  obtain ⟨-, -, -, hlives⟩ := inodes_live hc hblank _ _ hallowed hrange rfl
  have hgone : ((Watch.new mounted).run [.create 1 "notes"]).Removes ⟨1, 1⟩
      [.rename 1 "notes" 1 "letters", .unlink 1 "letters", .create 1 "drafts"] :=
    .inr (.inl (by decide +kernel))
  exact ⟨_, rfl, hnode, by decide +kernel, (hlives 2 _ hnode).2.2 hgone, by decide +kernel⟩

/-! ## Numbers that wrap around -/

/-- The small volume with `n` as its next number. -/
def counting (n : Nat) : VenomFuse Volume :=
  { mounted with inodes := { mounted.inodes with nextIno := n } }

/-- With a directory in the root directory. -/
def made (n : Nat) : VenomFuse Volume := after (opMkdir 1 "d") (counting n)

theorem made_inodes (n : Nat) : (made n).inodes = ((counting n).inodes.getOrAlloc 1).2 := by rfl

theorem mounted_unknown {ino : Nat} (h : ino ≠ 1) : mounted.inodes.inoToSlot.get ino = none := by
  change (HashMap.empty.insert rootIno 0).get ino = none
  exact (HashMap.get_insert _ _ _ _).trans (if_neg h)

theorem made_container (n : Nat) :
    ((made n).container.put 0 emptyDir).freeNode 1 = mounted.container := by
  refine (Volume.mk.injEq ..).mpr ⟨rfl, rfl, funext fun t => ?_, rfl⟩
  by_cases h1 : t = 1
  · rw [h1]
    rfl
  · by_cases h0 : t = 0
    · rw [h0]
      rfl
    · refine (Function.update_of_ne h1 _ _).trans ((Function.update_of_ne h0 _ _).trans ?_)
      exact (Function.update_of_ne h0 _ _).trans (Function.update_of_ne h1 _ _)

/-- A directory that is made and removed again has used up a number. -/
theorem made_removed {n : Nat} (hn : n ≠ 1) : after (opRmdir 1 "d") (made n) = counting (nextNumber n) := by
  have hroot : (made n).inodes.slotOf 1 = some 0 := by
    rw [made_inodes]
    exact InodeMap.getOrAlloc_slotOf_of_ne 1 hn rfl
  have hinodes : (made n).inodes.removeSlot 1 = (counting (nextNumber n)).inodes := by
    rw [made_inodes]
    exact InodeMap.removeSlot_getOrAlloc rfl (mounted_unknown hn)
  have hrun : (opRmdir 1 "d").run (made n) = .ok () { made n with
      container := ((made n).container.put 0 emptyDir).freeNode 1
      inodes := (made n).inodes.removeSlot 1 } :=
    (run_bind_of_ok (slotOfIno_ok.mpr ⟨hroot, rfl⟩)).trans rfl
  rw [after_of_ok hrun, hinodes, made_container]
  rfl

/-- The calls that make a directory and remove it, `n` times. -/
def directories : Nat → List InodeCall
  | 0 => []
  | n + 1 => directories n ++ [.mkdir 1 "d", .rmdir 1 "d"]

theorem directories_allowed (w : Watch Volume) (n : Nat) : w.Allows (directories n) := by
  induction n with
  | zero => trivial
  | succ n ih => exact Watch.allows_append.mpr ⟨ih, trivial, trivial, trivial⟩

theorem directories_run {n : Nat} (hn : n + 2 ≤ 2 ^ 64) :
    ((Watch.new mounted).run (directories n)).driver = counting ((n + 2) % 2 ^ 64) := by
  induction n with
  | zero => rfl
  | succ n ih =>
    rw [directories, Watch.run, List.foldl_append]
    change after (InodeCall.rmdir 1 "d").run (after (InodeCall.mkdir 1 "d").run
      ((Watch.new mounted).run (directories n)).driver) = _
    rw [ih (by omega), InodeCall.run, InodeCall.run, after_discard, Nat.mod_eq_of_lt hn]
    exact made_removed (by omega)

/-- After 2^64 - 2 directories the numbers begin again at 0, and the directory `b` gets the number
    of the root. -/
theorem root_number_reused : ¬ ∀ (c : Volume) (root : Nat), Formatted c root →
    (∀ s, IsDataSlot c s → s ≠ root → nodes c s = none) → ∀ calls later : List InodeCall,
    (Watch.new (VenomFuse.new root c)).Allows (calls ++ later) → ∀ w : Watch Volume,
    w = (Watch.new (VenomFuse.new root c)).run calls →
    (∀ ino slot, w.driver.inodes.inoToSlot.get ino = some slot ↔
      w.driver.inodes.slotToIno.get slot = some ino) ∧
    (∀ ino slot, w.driver.inodes.inoToSlot.get ino = some slot → ino < w.driver.inodes.nextIno) ∧
    w.driver.inodes.inoToSlot.get rootIno = some root ∧
    ∀ ino n, w.denotes ino = some n → n.slot ∉ free w.driver.container ∧
      (¬ w.Removes n later → (w.run later).denotes ino = some n) ∧
      (w.Removes n later → (w.run later).denotes ino = none) := by
  intro hall
  obtain ⟨n, hn⟩ : ∃ n, n + 2 = 2 ^ 64 := ⟨2 ^ 64 - 2, by decide⟩
  have hallowed : (Watch.new mounted).Allows (directories n ++ [.mkdir 1 "a", .mkdir 1 "b"] ++ []) :=
    Watch.allows_append.mpr ⟨Watch.allows_append.mpr
      ⟨directories_allowed _ n, trivial, trivial, trivial⟩, trivial⟩
  obtain ⟨-, -, hroot, -⟩ := hall _ _ (Volume.fresh_formatted .xchacha20Poly1305 (by decide))
    (fun _ _ hne => if_neg hne) _ [] hallowed _ rfl
  rw [Watch.run, List.foldl_append] at hroot
  change (after (InodeCall.mkdir 1 "b").run (after (InodeCall.mkdir 1 "a").run
    ((Watch.new mounted).run (directories n)).driver)).inodes.inoToSlot.get rootIno = some 0 at hroot
  rw [directories_run hn.le, hn, Nat.mod_self] at hroot
  exact absurd hroot (by decide +kernel)

end Venom.Fuse

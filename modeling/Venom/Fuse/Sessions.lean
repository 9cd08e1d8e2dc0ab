import Venom.Fuse.Released
import Venom.Fuse.Serving
import Venom.Storage.NodeRuns

/-! # Sessions

A session is what a kernel and a driver do with a volume from its creation on: requests that are
served, requests that fail, and mounts in between.  Whatever it was, a file system has seen the
same requests, given the same replies, and has the tree that the volume holds.
-/

namespace Venom.Fuse

open Venom.Storage
open Venom.Library
open Venom.Library.NameTree
open Venom.Library.StateError

variable {σ : Type} [NodeStore σ] [NodeView σ]

/-! ## A mount -/

section Mounts

variable [LawfulNodeStore σ] {root : Nat} {c c' : σ} {s : VenomFuse σ} {bytes : Nat → List UInt8}
  {own : Nat → List Nat} {A : FileSystem}

omit [NodeStore σ] [LawfulNodeStore σ] in
/-- A new volume has a root directory, and nothing else is in use. -/
theorem Backs.formatted (h : Formatted c root) :
    Backs root (VenomFuse.new root c) (fun _ => []) (Function.update (fun _ => []) root [root]) := by
  have hmem : ∀ i u, u ∈ Function.update (fun _ => []) root [root] i → i = root ∧ u = root := by
    intro i u hu
    by_cases hi : i = root
    · rw [hi, Function.update_self, List.mem_singleton] at hu
      exact ⟨hi, hu⟩
    · rw [Function.update_of_ne hi] at hu
      cases hu
  have hroot : ∀ t, InTree c root t → nodes c t = some emptyDir := fun t ht => by
    rw [(h.inTree t).mp ht, h.rootNode]
  refine ⟨h.treeOk, ⟨h.nodup, fun i => ?_, fun i u hu hf => ?_, fun hi hj => ?_⟩, fun t ht => ?_,
    fun t ht => ?_, fun t d ht _ => ?_, fun t d n e ht hd he => ?_, fun t fb ht hfb => ?_,
    fun fh f hf => ?_, fun fh _ f _ hf => ?_, fun fh f hf => ?_, .new root, fun ino t ht => ?_⟩
  · by_cases hi : i = root
    · rw [hi, Function.update_self]
      exact List.nodup_singleton root
    · rw [Function.update_of_ne hi]
      exact List.nodup_nil
  · exact ((h.mem_free u).mp hf).2 (hmem i u hu).2
  · rw [(hmem _ _ hi).1, (hmem _ _ hj).1]
  · obtain ht | ⟨i, ht⟩ := ht
    · exact ((h.mem_free t).mp ht).1
    · rw [(hmem i t ht).2]
      exact h.dataSlot
  · exact Function.update_of_ne (fun heq => ht ((h.inTree t).mpr heq)) _ _
  · rw [(h.inTree t).mp ht, Function.update_self]
  · cases hd.symm.trans (hroot t ht)
    cases he
  · cases hfb.symm.trans (hroot t ht)
  · cases hf
  · cases hf
  · cases hf
  · simp only [VenomFuse.new, InodeMap.new, InodeMap.slotOf, HashMap.get_insert] at ht
    split at ht
    next => exact (h.inTree t).mpr (Option.some.inj ht).symm
    next => simp at ht

omit [NodeStore σ] [LawfulNodeStore σ] in
/-- After a mount the root is known, and no file is open. -/
theorem Backs.new (h : Backs root (VenomFuse.new root c) bytes own) :
    StandsFor root (VenomFuse.new root c)
      { FileSystem.empty with tree := fileTree c root bytes } bytes own := by
  refine ⟨h, rfl, ?_, ?_⟩
  · have hslots : (VenomFuse.new root c).inodes.slotOf =
        Function.update (fun _ => none) 1 (some root) := by
      funext i
      simp [VenomFuse.new, InodeMap.new, InodeMap.slotOf, HashMap.get_insert, Function.update_apply, rootIno]
    rw [hslots]
    exact Named.empty.insert h.tree.tree rfl 1
  · exact Named.empty.congr (fun _ => rfl) fun _ => rfl

omit [NodeStore σ] [LawfulNodeStore σ] in
theorem StandsFor.formatted (h : Formatted c root) :
    StandsFor root (VenomFuse.new root c) FileSystem.empty (fun _ => [])
      (Function.update (fun _ => []) root [root]) := by
  have hs := (Backs.formatted h).new
  have htree : fileTree c root (fun _ => []) = FileSystem.empty.tree := by
    funext q
    cases q with
    | nil =>
      rw [fileTree_walk rfl, entryAt_directory h.rootNode]
      rfl
    | cons n q =>
      rw [fileTree, walk, IsLeaf.child (.inl ⟨_, h.rootNode, rfl⟩)]
      rfl
  rwa [htree] at hs

omit [LawfulNodeStore σ] in
/-- When all handles are written back, a mount finds the same tree and the same files. -/
theorem StandsFor.remounted (h : StandsFor root s A bytes own)
    (hclean : ∀ fh f, s.openFiles.get fh = some f → Clean f) (hc : Reopens s.container c') :
    StandsFor root (VenomFuse.new root c') A.mounted bytes own := by
  have hb := h.backs
  have hslots : ∀ i, ∀ u ∈ own i, nodes c' u = nodes s.container u := fun i u hu =>
    hc.nodes u (hb.dataSlot u (.inr ⟨i, hu⟩))
  have hnode : ∀ t, InTree s.container root t → nodes c' t = nodes s.container t := fun t ht =>
    hslots t t (hb.self_mem ht)
  have hin := inTree_of_nodes hnode
  have hdivided := hb.divided.reorder hc.free
  have hdata : ∀ t, Division.Listed (free c') own t → IsDataSlot c' t := fun t ht =>
    hc.same.isDataSlot.mpr (hb.dataSlot t (ht.imp_left hc.free.mem_iff.mp))
  have hbacks : Backs root (VenomFuse.new root c') bytes own := by
    refine ⟨hb.tree.of_nodes hc.same hnode, hdivided, hdata, fun t ht => hb.outside t ((hin t).not.mp ht),
      fun t d ht hd => ?_, fun t d n e ht hd he => ?_, fun t fb ht hfb => ?_, fun fh f hf => ?_,
      fun fh _ f _ hf => ?_, fun fh f hf => ?_, .new root, fun ino t ht => ?_⟩
    · have hold := (hin t).mp ht
      exact hb.dirs t d hold (by rw [← hnode t hold]; exact hd)
    · have hold := (hin t).mp ht
      have hd' : nodes s.container t = some (.directory d) := by
        rw [← hnode t hold]
        exact hd
      change (nodes c' e.slot).map kindOf = _
      rw [hnode _ (hold.entry hd' he)]
      exact hb.kinds t d n e hold hd' he
    · have hold := (hin t).mp ht
      have hfb' : nodes s.container t = some (.file fb) := by
        rw [← hnode t hold]
        exact hfb
      -- a handle that is written back leaves a file that can be opened
      obtain ⟨fb', ids, chain, hcarries⟩ : ∃ fb' ids chain,
          Carries s.container (reopened 0 t fb' ids) fb' ids chain (bytes t) (own t) := by
        cases hb.files t fb hold hfb' with
        | closed _ hcarries => exact ⟨_, _, _, hcarries⟩
        | @opened fh f _ _ _ hf hhead _ =>
          obtain ⟨fb', ids, chain, ho, hsize, hown, -⟩ := hb.opened hf
          have hcl := hclean fh f hf
          have hclosed := ho.closed hcl (flat_positions ho hcl)
          have hsame := (ho.ok.handle.clean hcl.metaDirty).1
          refine ⟨fb', ids, chain, hhead ▸ ⟨hclosed.ok.withIno 0, ?_, ?_, ?_⟩⟩
          · exact hsame.trans hsize
          · rw [hown, ownedSlots, ownedSlots, ho.ok.handle.reopened_slots hcl]
            rfl
          · exact hclosed.ok.lists rfl
      refine .closed (fun fh f hf => by cases hf) (hcarries.framed ⟨hdivided.nodup_append t, ?_⟩ (hslots t))
      exact fun u hu => hdata u ((List.mem_append.mp hu).imp_right fun hown => ⟨t, hown⟩)
    · cases hf
    · cases hf
    · cases hf
    · simp only [VenomFuse.new, InodeMap.new, InodeMap.slotOf, HashMap.get_insert] at ht
      split at ht
      next =>
        cases ht
        exact .self
      next => simp at ht
  have hs := hbacks.new
  have htree : fileTree c' root bytes = A.tree := by
    rw [h.tree]
    funext q
    rw [fileTree, fileTree, walk_of_nodes hnode]
    cases hq : walk (child (nodes s.container)) root q with
    | none => rfl
    | some t => rw [Option.bind_some, Option.bind_some, entryAt, entryAt, hnode t ⟨q, hq⟩]
  rwa [htree] at hs

/-! ### The drop -/

/-- A flush that succeeds leaves its handle clean, and the others alone. -/
theorem Backs.opFlush_clean (h : Backs root s bytes own) {ord : IterOrder Nat} {fh : Nat}
    {s' : VenomFuse σ} (hrun : (opFlush ord fh).run s = .ok () s') :
    (∀ k, k ≠ fh → s'.openFiles.get k = s.openFiles.get k) ∧
      ∀ f, s'.openFiles.get fh = some f → Clean f ∧ s.openFiles.get fh ≠ none := by
  cases hf : s.openFiles.get fh with
  | none =>
    obtain ⟨_, _, hget, hcont⟩ := run_bind_ok.mp hrun
    cases hget
    rw [hf] at hcont
    cases hcont
    refine ⟨fun _ _ => rfl, fun f hf' => ?_⟩
    rw [hf] at hf'
    cases hf'
  | some f =>
    obtain ⟨_, _, _, ho, hsize, -⟩ := h.opened hf
    obtain ⟨f', _, _, _, ho', hclean, -⟩ := opFlush_ok ho (fun p hp hlt => absurd hlt (by omega)) hrun
    refine ⟨fun k hk => ?_, fun g hg => ?_⟩
    · rw [opFlush_run hf] at hrun
      obtain ⟨h', -, rfl⟩ := withHandle_ok.mp hrun
      rw [HashMap.get_insert, if_neg hk]
    · cases ho'.entry.symm.trans hg
      exact ⟨hclean, Option.some_ne_none f⟩

theorem StandsFor.writtenBack (h : StandsFor root s A bytes own) {dirtyOrd : Nat → IterOrder Nat}
    {fhs : List Nat} {t : VenomFuse σ}
    (hrun : (fhs.forM fun fh => Fuse.opFlush (dirtyOrd fh) fh).run s = .ok () t) :
    (∃ bytes' own', StandsFor root t A bytes' own') ∧ ∀ fh f, t.openFiles.get fh = some f →
      s.openFiles.get fh ≠ none ∧ (fh ∈ fhs → Clean f) := by
  refine forM_ok_induction (fun done u => (∃ bytes' own', StandsFor root u A bytes' own') ∧
    ∀ fh f, u.openFiles.get fh = some f → s.openFiles.get fh ≠ none ∧ (fh ∈ done → Clean f)) hrun
    ⟨⟨bytes, own, h⟩, fun fh f hf => ⟨by rw [hf]; exact Option.some_ne_none f, fun hmem => by cases hmem⟩⟩
    fun done fh rest u u' _ hinv hflush => ?_
  obtain ⟨⟨bytes₁, own₁, hu⟩, hhandles⟩ := hinv
  obtain ⟨hothers, hclean⟩ := hu.backs.opFlush_clean hflush
  refine ⟨hu.opFlush hflush, fun k f hk => ?_⟩
  by_cases hkfh : k = fh
  · rw [hkfh] at hk ⊢
    obtain ⟨hcl, hsome⟩ := hclean f hk
    obtain ⟨g, hg⟩ := Option.ne_none_iff_exists'.mp hsome
    exact ⟨(hhandles fh g hg).1, fun _ => hcl⟩
  · rw [hothers k hkfh] at hk
    obtain ⟨hsome, hdone⟩ := hhandles k f hk
    refine ⟨hsome, fun hmem => hdone ?_⟩
    obtain hmem | hmem := List.mem_append.mp hmem
    · exact hmem
    · exact absurd (List.mem_singleton.mp hmem) hkfh

end Mounts

/-- The flushes of the drop, each of which succeeds. -/
def WritesBack (ord : IterOrder Nat) (dirtyOrd : Nat → IterOrder Nat) (s t : VenomFuse σ) : Prop :=
  ((ord.order s.openFiles.keys).forM fun fh => opFlush (dirtyOrd fh) fh).run s = .ok () t

/-! ## Sessions -/

/-- How a container is saved and comes back: with the nodes and the free list it had. -/
structure Medium (σ : Type) [NodeStore σ] [NodeView σ] where
  remount : σ → σ → Prop
  reopens : ∀ {c c' : σ}, FreeOk c → remount c c' → Reopens c c'

/-- A table of nodes comes back as it is. -/
def Volume.medium : Medium Volume where
  remount c c' := c' = c
  reopens _ h := by rw [h]; exact ⟨.refl _, fun _ _ => rfl, .refl _⟩

inductive Event
  | served (req : Request) (reply : Reply)
  | failed (req : Request)
  | mounted

/-- What happens to the container `c` from its creation on, and the state it leads to.  Requests
    keep to the restrictions of the client, and when one fails, its failure is contained.  A drop
    writes back every handle. -/
inductive Session (M : Medium σ) (root : Nat) (c : σ) : List Event → VenomFuse σ → Prop
  | start : Session M root c [] (VenomFuse.new root c)
  | served {events : List Event} {s s' : VenomFuse σ} {ords : Orders} {req : Request} {reply : Reply} :
      Session M root c events s → req.Allowed ords s → (req.serve ords).run s = .ok reply s' →
      Session M root c (events ++ [.served req reply]) s'
  | failed {events : List Event} {s s' : VenomFuse σ} {ords : Orders} {req : Request} {e : Failure} :
      Session M root c events s → req.Allowed ords s → req.Contained ords s →
      (req.serve ords).run s = .error e s' → Session M root c (events ++ [.failed req]) s'
  | mounted {events : List Event} {s t : VenomFuse σ} {ord : IterOrder Nat}
      {dirtyOrd : Nat → IterOrder Nat} {c' : σ} : Session M root c events s →
      WritesBack ord dirtyOrd s t → M.remount t.container c' →
      Session M root c (events ++ [.mounted]) (VenomFuse.new root c')

/-- The events a file system goes through, from an empty one on. -/
inductive FileSystem.Trace : List Event → FileSystem → Prop
  | start : Trace [] .empty
  | served {events : List Event} {A A' : FileSystem} {req : Request} {reply : Reply} :
      Trace events A → A.Step req reply A' → Trace (events ++ [.served req reply]) A'
  | failed {events : List Event} {A A' : FileSystem} {req : Request} : Trace events A →
      A.Fail req A' → Trace (events ++ [.failed req]) A'
  | mounted {events : List Event} {A : FileSystem} : Trace events A →
      Trace (events ++ [.mounted]) A.mounted

variable {M : Medium σ} {root : Nat} {c : σ} {events : List Event} {s : VenomFuse σ}

theorem Session.serve_of_valueOf {ords : Orders} {req : Request} {reply : Reply}
    (h : Session M root c events s) (hallowed : req.Allowed ords s)
    (hvalue : valueOf (req.serve ords) s = some reply) :
    Session M root c (events ++ [.served req reply]) (after (req.serve ords) s) :=
  h.served hallowed (run_of_valueOf hvalue)

variable [FiniteNodeStore σ]

/-- A session is a trace of a file system, and its state stands for the one the trace leads to. -/
theorem Session.refines (hc : Formatted c root) (h : Session M root c events s) : ∃ A bytes own,
    FileSystem.Trace events A ∧ StandsFor root s A bytes own := by
  induction h with
  | start => exact ⟨_, _, _, .start, .formatted hc⟩
  | served _ hallowed hrun ih =>
    obtain ⟨A, bytes, own, htrace, hs⟩ := ih
    obtain ⟨A', bytes', own', hstep, hs'⟩ := hs.serve hallowed hrun
    exact ⟨A', bytes', own', htrace.served hstep, hs'⟩
  | failed _ hallowed hcontained hrun ih =>
    obtain ⟨A, bytes, own, htrace, hs⟩ := ih
    obtain ⟨A', bytes', own', hfail, hs'⟩ := hs.failed hallowed hcontained hrun
    exact ⟨A', bytes', own', htrace.failed hfail, hs'⟩
  | mounted _ hback hremount ih =>
    obtain ⟨A, bytes, own, htrace, hs⟩ := ih
    obtain ⟨⟨bytes', own', ht⟩, hclean⟩ := hs.writtenBack hback
    have hreopens := M.reopens ht.backs.freeOk hremount
    refine ⟨_, bytes', own', htrace.mounted, ht.remounted (fun fh f hf => ?_) hreopens⟩
    obtain ⟨hsome, hwritten⟩ := hclean fh f hf
    apply hwritten
    rw [IterOrder.mem_order, HashMap.mem_keys]
    exact Option.isSome_iff_ne_none.mpr hsome

/-! ## A session with a file -/

/-- Every traversal in the order of the entries. -/
def Orders.listed : Orders := ⟨.listed, .listed⟩

/-- The requests are made one after another on a new volume of `n` slots. -/
def serving (n : Nat) (reqs : List Request) : VenomFuse Volume :=
  reqs.foldl (fun s req => after (req.serve .listed) s)
    (VenomFuse.new 0 (Volume.fresh .xchacha20Poly1305 n))

/-- A file gets three bytes, and is flushed. -/
def noted (n : Nat) : VenomFuse Volume :=
  serving n [.create 1 (some "notes"), .write 1 0 [1, 2, 3], .flush 1]

def notedEvents : List Event :=
  [.served (.create 1 (some "notes")) (.created (makeFileAttr 2 0) 1),
    .served (.write 1 0 [1, 2, 3]) (.written 3), .served (.flush 1) .ok]

theorem noted_session {n : Nat} (hn : n = 2 ∨ n = 8) :
    Session Volume.medium 0 (Volume.fresh .xchacha20Poly1305 n) notedEvents (noted n) := by
  have hcreate : valueOf ((Request.create 1 (some "notes")).serve .listed) (serving n []) =
      some (.created (makeFileAttr 2 0) 1) := by
    rcases hn with rfl | rfl <;> decide +kernel
  have hwrite : valueOf ((Request.write 1 0 [1, 2, 3]).serve .listed)
      (serving n [.create 1 (some "notes")]) = some (.written 3) := by
    rcases hn with rfl | rfl <;> decide +kernel
  have hflush : valueOf ((Request.flush 1).serve .listed)
      (serving n [.create 1 (some "notes"), .write 1 0 [1, 2, 3]]) = some .ok := by
    rcases hn with rfl | rfl <;> decide +kernel
  have hallowed : (Request.create 1 (some "notes")).Allowed .listed (serving n []) :=
    show 2 + 1 < 2 ^ 64 ∧ 1 + 1 < 2 ^ 64 by decide
  have hstart : (Request.write 1 0 [1, 2, 3]).Allowed .listed (serving n [.create 1 (some "notes")]) :=
    fun _ _ => Nat.zero_le _
  have hcreated := (Session.start (M := Volume.medium)).serve_of_valueOf hallowed hcreate
  have hwritten := hcreated.serve_of_valueOf hstart hwrite
  exact hwritten.serve_of_valueOf trivial hflush

/-- A directory comes to the file. -/
def lettered : VenomFuse Volume := after ((Request.mkdir 1 (some "letters")).serve .listed) (noted 8)

def letteredEvents : List Event := notedEvents ++ [.served (.mkdir 1 (some "letters")) (.entry (makeDirAttr 3))]

theorem lettered_session :
    Session Volume.medium 0 (Volume.fresh .xchacha20Poly1305 8) letteredEvents lettered := by
  have hallowed : (Request.mkdir 1 (some "letters")).Allowed .listed (noted 8) := by
    change (noted 8).inodes.nextIno + 1 < 2 ^ 64
    decide +kernel
  exact (noted_session (.inr rfl)).serve_of_valueOf hallowed (by decide +kernel)

/-- After the next mount the file is looked up by its name. -/
def remounted : VenomFuse Volume :=
  VenomFuse.new 0 (after ((IterOrder.listed.order lettered.openFiles.keys).forM fun fh =>
    opFlush .listed fh) lettered).container

def lookedUp : VenomFuse Volume := after ((Request.lookup 1 (some "notes")).serve .listed) remounted

def lookedUpEvents : List Event :=
  letteredEvents ++ [.mounted] ++ [.served (.lookup 1 (some "notes")) (.entry (makeFileAttr 2 3))]

theorem lookedUp_session :
    Session Volume.medium 0 (Volume.fresh .xchacha20Poly1305 8) lookedUpEvents lookedUp := by
  have hback : WritesBack .listed (fun _ => .listed) lettered _ :=
    run_of_valueOf (by decide +kernel)
  have hallowed : (Request.lookup 1 (some "notes")).Allowed .listed remounted :=
    show 2 + 1 < 2 ^ 64 by decide
  exact (lettered_session.mounted hback rfl).serve_of_valueOf hallowed (by decide +kernel)

end Venom.Fuse

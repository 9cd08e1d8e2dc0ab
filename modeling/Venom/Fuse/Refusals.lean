import Venom.Fuse.Sessions

/-! # Why a request fails

Each error a caller sees is accounted for by the file system: the inode or the handle is
unknown, a name is not UTF-8, is not there or is taken, a file stands where a directory is
asked for or the other way round, or a directory is not empty.  Only requests that write fail
for other reasons, and those they report as `EIO`.
-/

namespace Venom.Fuse

open Venom.Storage
open Venom.Library
open Venom.Library.NameTree
open Venom.Library.StateError

/-! ## The errors of a file system -/

namespace Request

/-- The inodes a request is made on. -/
def inodes : Request → List Nat
  | lookup parent _ | mkdir parent _ | rmdir parent _ | create parent _ | unlink parent _ => [parent]
  | getattr ino | setattr ino _ _ | readdir _ ino _ | openFile ino => [ino]
  | rename parent _ newparent _ => [parent, newparent]
  | release _ | flush _ | fsync _ | read _ _ _ | write _ _ _ => []

/-- The directory a request looks into, with the name it looks for. -/
def finds : Request → Option (Nat × Option String)
  | lookup parent name | rmdir parent name | unlink parent name => some (parent, name)
  | rename parent name _ _ => some (parent, name)
  | _ => none

/-- The directory a request makes a name in. -/
def makes : Request → Option (Nat × Option String)
  | mkdir parent name | create parent name => some (parent, name)
  | _ => none

/-- The directory whose entries a request reads. -/
def directory : Request → Option Nat
  | readdir _ ino _ => some ino
  | req =>
    match req.finds.or req.makes with
    | some (parent, some _) => some parent
    | _ => none

/-- A request reads or writes through a handle. -/
def handle : Request → Option Nat
  | read fh _ _ | write fh _ _ => some fh
  | _ => none

def writes : Request → Bool
  | mkdir _ _ | rmdir _ _ | create _ _ | unlink _ _ | rename _ _ _ _ | flush _ | fsync _
  | write _ _ _ => true
  | _ => false

end Request

/-- The errors a file system has for a request. -/
inductive FileSystem.Refuses (A : FileSystem) : Request → Errno → Prop
  | unknown {req : Request} {ino : Nat} : ino ∈ req.inodes → A.inodes ino = none → Refuses A req .enoent
  /-- A name that is not UTF-8 is not there. -/
  | notThere {parent : Nat} : Refuses A (.lookup parent none) .enoent
  | notUtf8 {req : Request} {parent : Nat} : req.writes = true →
      req.finds = some (parent, none) ∨ req.makes = some (parent, none) → Refuses A req .einval
  | newNotUtf8 {parent newparent : Nat} {name : String} :
      Refuses A (.rename parent (some name) newparent none) .einval
  | notDirectory {req : Request} {ino : Nat} {q : List String} : req.directory = some ino →
      A.inodes ino = some q → A.tree q ≠ some .directory → Refuses A req .enotdir
  | noEntry {req : Request} {parent : Nat} {name : String} {path : List String} :
      req.finds = some (parent, some name) → A.inodes parent = some path →
      A.tree path = some .directory → A.tree (path ++ [name]) = none → Refuses A req .enoent
  | taken {req : Request} {parent : Nat} {name : String} {path : List String} :
      req.makes = some (parent, some name) → A.inodes parent = some path →
      A.tree (path ++ [name]) ≠ none → Refuses A req .eexist
  | rmdirFile {parent : Nat} {name : String} {path : List String} {bytes : List UInt8} :
      A.inodes parent = some path → A.tree (path ++ [name]) = some (.file bytes) →
      Refuses A (.rmdir parent (some name)) .enotdir
  | notEmpty {parent : Nat} {name n : String} {path : List String} : A.inodes parent = some path →
      A.tree (path ++ [name] ++ [n]) ≠ none → Refuses A (.rmdir parent (some name)) .enotempty
  | openDirectory {ino : Nat} {q : List String} : A.inodes ino = some q →
      A.tree q = some .directory → Refuses A (.openFile ino) .eisdir
  | noHandle {req : Request} {fh : Nat} : req.handle = some fh → A.handles fh = none →
      Refuses A req .enoent
  | notWritten {req : Request} : req.writes = true → Refuses A req .eio

theorem Request.NotUtf8.refuses {A : FileSystem} {req : Request} {code : Errno}
    (h : req.NotUtf8 code) : A.Refuses req code := by
  cases h with
  | lookup => exact .notThere
  | mkdir | create => exact .notUtf8 rfl (.inr rfl)
  | rmdir | unlink | rename => exact .notUtf8 rfl (.inl rfl)
  | renameTo => exact .newNotUtf8

/-! ## Requests that only read -/

namespace FileSystem

variable {A A' : FileSystem} {req : Request} {reply : Reply} {code code' : Errno}

/-- What a request that only reads asks for is not there. -/
inductive Missing (A : FileSystem) : Request → Prop
  | inode {req : Request} {ino : Nat} : ino ∈ req.inodes → A.inodes ino = none → Missing A req
  | name {parent : Nat} : Missing A (.lookup parent none)
  | entry {req : Request} {parent : Nat} {name : String} {path : List String} :
      req.finds = some (parent, some name) → A.inodes parent = some path →
      A.tree path = some .directory → A.tree (path ++ [name]) = none → Missing A req
  | handle {req : Request} {fh : Nat} : req.handle = some fh → A.handles fh = none → Missing A req

/-- What a request that only reads asks for is of the wrong kind. -/
inductive WrongKind (A : FileSystem) : Request → Errno → Prop
  | notDirectory {req : Request} {ino : Nat} {q : List String} : req.directory = some ino →
      A.inodes ino = some q → A.tree q ≠ some .directory → WrongKind A req .enotdir
  | directory {ino : Nat} {q : List String} : A.inodes ino = some q → A.tree q = some .directory →
      WrongKind A (.openFile ino) .eisdir

theorem makes_writes {x : Nat × Option String} (hmakes : req.makes = some x) : req.writes = true := by
  cases req <;> first | rfl | cases hmakes

theorem Refuses.of_reads (h : A.Refuses req code) (hreads : req.writes = false) :
    code = .enoent ∧ A.Missing req ∨ A.WrongKind req code := by
  cases h with
  | unknown hmem hnone => exact .inl ⟨rfl, .inode hmem hnone⟩
  | notThere => exact .inl ⟨rfl, .name⟩
  | notUtf8 hwrites => cases hreads.symm.trans hwrites
  | newNotUtf8 => cases hreads
  | notDirectory hdir hq htree => exact .inr (.notDirectory hdir hq htree)
  | noEntry hfinds hpath hdir hnone => exact .inl ⟨rfl, .entry hfinds hpath hdir hnone⟩
  | taken hmakes => cases hreads.symm.trans (makes_writes hmakes)
  | rmdirFile => cases hreads
  | notEmpty => cases hreads
  | openDirectory hq htree => exact .inr (.directory hq htree)
  | noHandle hfh hnone => exact .inl ⟨rfl, .handle hfh hnone⟩
  | notWritten hwrites => cases hreads.symm.trans hwrites

theorem directory_inodes {ino : Nat} (hdir : req.directory = some ino) (hreads : req.writes = false) :
    req.inodes = [ino] ∧ req.handle = none := by
  cases req with
  | lookup parent name =>
    cases name with
    | none => cases hdir
    | some name => cases hdir; exact ⟨rfl, rfl⟩
  | readdir room ino' offset => cases hdir; exact ⟨rfl, rfl⟩
  | _ => first | cases hdir | cases hreads

theorem finds_directory {parent : Nat} {name : String} (hfinds : req.finds = some (parent, some name)) :
    req.directory = some parent := by
  cases req <;> cases hfinds <;> rfl

/-- What is of the wrong kind is there. -/
theorem WrongKind.not_missing (h : A.WrongKind req code) (hreads : req.writes = false) :
    ¬ A.Missing req := by
  intro hmissing
  cases h with
  | notDirectory hdir hq htree =>
    obtain ⟨hinodes, hhandle⟩ := directory_inodes hdir hreads
    cases hmissing with
    | inode hmem hnone =>
      rw [hinodes, List.mem_singleton] at hmem
      rw [hmem, hq] at hnone
      cases hnone
    | name => cases hdir
    | entry hfinds hpath htree' hnone =>
      cases hdir.symm.trans (finds_directory hfinds)
      cases hq.symm.trans hpath
      exact htree htree'
    | handle hfh => cases hhandle.symm.trans hfh
  | directory hq htree =>
    cases hmissing with
    | inode hmem hnone =>
      cases List.mem_singleton.mp hmem
      cases hq.symm.trans hnone
    | entry hfinds => cases hfinds
    | handle hfh => cases hfh

theorem WrongKind.unique (h : A.WrongKind req code) (h' : A.WrongKind req code') : code = code' := by
  cases h with
  | notDirectory hdir =>
    cases h' with
    | notDirectory => rfl
    | directory => cases hdir
  | directory =>
    cases h' with
    | notDirectory hdir => cases hdir
    | directory => rfl

/-- There is one error for a request that only reads. -/
theorem Refuses.unique (h : A.Refuses req code) (h' : A.Refuses req code')
    (hreads : req.writes = false) : code = code' := by
  obtain ⟨rfl, hmissing⟩ | hkind := h.of_reads hreads
  · obtain ⟨rfl, -⟩ | hkind' := h'.of_reads hreads
    · rfl
    · exact absurd hmissing (hkind'.not_missing hreads)
  · obtain ⟨rfl, hmissing⟩ | hkind' := h'.of_reads hreads
    · exact absurd hmissing (hkind.not_missing hreads)
    · exact hkind.unique hkind'

/-- A request that is served asks for what is there. -/
theorem Step.not_missing (h : A.Step req reply A') (hreads : req.writes = false) : ¬ A.Missing req := by
  intro hmissing
  cases h with
  | lookup hpath hdir hentry =>
    cases hmissing with
    | inode hmem hnone =>
      cases List.mem_singleton.mp hmem
      cases hpath.symm.trans hnone
    | entry hfinds hpath' htree hnone =>
      cases hfinds
      cases hpath.symm.trans hpath'
      cases hentry.symm.trans hnone
    | handle hfh => cases hfh
  | getattr hq | setattr hq | resize hq | readdir hq | openFile hq =>
    cases hmissing with
    | inode hmem hnone =>
      cases List.mem_singleton.mp hmem
      cases hq.symm.trans hnone
    | entry hfinds => cases hfinds
    | handle hfh => cases hfh
  | read hq =>
    cases hmissing with
    | inode hmem => cases hmem
    | entry hfinds => cases hfinds
    | handle hfh hnone =>
      cases hfh
      cases hq.symm.trans hnone
  | release =>
    cases hmissing with
    | inode hmem => cases hmem
    | entry hfinds => cases hfinds
    | handle hfh => cases hfh
  | _ => cases hreads

theorem Step.not_wrongKind (h : A.Step req reply A') (hreads : req.writes = false) :
    ¬ A.WrongKind req code := by
  intro hkind
  cases h with
  | lookup hpath hdir | readdir hpath hdir =>
    cases hkind with
    | notDirectory hdir' hq htree =>
      cases hdir'
      cases hpath.symm.trans hq
      exact htree hdir
  | openFile hq hfile =>
    cases hkind with
    | notDirectory hdir => cases hdir
    | directory hq' hdir =>
      cases hq.symm.trans hq'
      cases hfile.symm.trans hdir
  | getattr | setattr | resize | read | release =>
    cases hkind with
    | notDirectory hdir => cases hdir
  | _ => cases hreads

/-- What is served is not refused. -/
theorem Step.not_refused (h : A.Step req reply A') (hreads : req.writes = false) :
    ¬ A.Refuses req code := fun hrefuses => by
  obtain ⟨-, hmissing⟩ | hkind := hrefuses.of_reads hreads
  · exact h.not_missing hreads hmissing
  · exact h.not_wrongKind hreads hkind

end FileSystem

variable {σ : Type} [NodeStore σ]

/-! ## Writes -/

section Writes

variable {ord : IterOrder Nat} {ci slot : Nat}

theorem readNode_eio : FailsOnly eio (readNode slot : StoreM σ VaultNode) := fun c e c' h => by
  change readNode slot c = _ at h
  unfold readNode at h
  split at h
  next => cases h
  next => cases h; rfl

omit [NodeStore σ] in
theorem onContainer_eio {α : Type} {x : StoreM σ α} (hx : FailsOnly eio x) :
    FailsOnly eio (onContainer x) := fun h e h' hrun => by
  change onContainer x h = _ at hrun
  unfold onContainer at hrun
  split at hrun
  next => cases hrun
  next hfail => cases hrun; exact hx hfail

theorem storeChunk_eio : FailsOnly eio (storeChunk ci : HandleM σ Unit) := by
  unfold storeChunk
  refine .bind .get fun h => ?_
  split
  next => exact .pure
  next =>
    split
    next => exact onContainer_eio .adaptExcept
    next => exact .bind (onContainer_eio .adaptExcept) fun _ => .modify
    next => exact .pure

theorem storeDirtyChunks_eio : FailsOnly eio (storeDirtyChunks ord : HandleM σ Unit) :=
  .bind .get fun _ => .forM fun _ => storeChunk_eio

theorem loadChunk_eio : FailsOnly eio (loadChunk ci : HandleM σ (List UInt8)) := by
  unfold loadChunk
  refine .bind .get fun h => ?_
  split
  next =>
    refine .bind (onContainer_eio readNode_eio) fun n => ?_
    split
    next => exact .ite .pure .throw
    next => exact .pure
    next => exact .throw
  next =>
    refine .ite (.bind (onContainer_eio readNode_eio) fun n => ?_) .pure
    split
    next => exact .pure
    next => exact .throw
  next => exact .throw

theorem ensureCached_eio : FailsOnly eio (ensureCached ord ci : HandleM σ Unit) :=
  .bind .get fun _ => .ite .pure (.bind loadChunk_eio fun _ => .modify)

theorem writePiece_eio {stop pos : Nat} {piece : List UInt8} :
    FailsOnly eio (writePiece ord stop pos piece : HandleM σ Unit) := by
  refine .bind .modify fun _ => .bind ?_ fun _ => .bind .get fun h => ?_
  · exact .bind .get fun _ => .ite .pure (.ite ensureCached_eio .modify)
  · split
    next => exact .throw
    next => exact .modify

theorem writeLoop_eio {offset pos : Nat} {data : List UInt8} :
    FailsOnly eio (writeLoop ord offset data pos : HandleM σ Unit) := by
  induction pos using writeLoop.induct offset data with
  | case1 pos hlt take =>
    rename_i ih
    rw [writeLoop, if_pos hlt]
    exact .bind writePiece_eio fun _ => ih
  | case2 pos hge =>
    rw [writeLoop, if_neg hge]
    exact .pure

theorem writeThroughChunk_eio : FailsOnly eio (writeThroughChunk ci : HandleM σ Unit) :=
  .bind .get fun _ => .ite (.bind storeChunk_eio fun _ => .modify) .pure

theorem writeHandle_eio {offset : Nat} {data : List UInt8} :
    FailsOnly eio (writeHandle ord offset data : HandleM σ Nat) := by
  refine .bind writeLoop_eio fun _ => .bind .get fun h => .ite (.bind ?_ fun _ => .pure) .pure
  exact .bind .get fun _ => .forM fun _ => writeThroughChunk_eio

end Writes

/-! ## Names and directories -/

omit [NodeStore σ] in
theorem slotOfIno_refused {ino : Nat} {s s' : VenomFuse σ} {e : Failure}
    (h : (slotOfIno ino).run s = .error e s') :
    e = .errno .enoent ∧ s.inodes.slotOf ino = none := by
  unfold slotOfIno at h
  rw [run_bind_of_ok run_get] at h
  split at h
  next => cases h
  next hnone => cases h; exact ⟨rfl, hnone⟩

variable [NodeView σ] [FiniteNodeStore σ] {root : Nat} {s s₁ s' : VenomFuse σ} {A : FileSystem}
  {bytes : Nat → List UInt8} {own : Nat → List Nat} {ords : Orders} {req : Request} {e : Failure}
  {path : List String} {name : String} {p : Nat}

theorem readDirBlock_refused {slot : Nat} {n : VaultNode} (hs : IsDataSlot s.container slot)
    (hn : nodes s.container slot = some n) (h : (readDirBlock slot).run s = .error e s') :
    e = .errno .enotdir ∧ ∀ d, n ≠ .directory d := by
  rcases run_bind_error.mp h with hread | ⟨n', s₁, hread, hcont⟩
  · obtain ⟨c, hread', rfl⟩ := liftStore_error.mp hread
    rw [(readNode_error hread').2 hs] at hn
    cases hn
  · obtain ⟨c, hread', rfl⟩ := liftStore_ok.mp hread
    obtain ⟨rfl, hn'⟩ := readNode_inv hread'
    cases hn.symm.trans (hn' hs)
    cases n with
    | directory d => cases hcont
    | file => cases hcont; exact ⟨rfl, fun d heq => by cases heq⟩
    | fileData => cases hcont; exact ⟨rfl, fun d heq => by cases heq⟩
    | fileIndex => cases hcont; exact ⟨rfl, fun d heq => by cases heq⟩

namespace StandsFor

omit [NodeStore σ] [FiniteNodeStore σ] in
theorem unknown (h : StandsFor root s A bytes own) {ino : Nat} (hino : s.inodes.slotOf ino = none) :
    A.inodes ino = none := by
  cases hq : A.inodes ino with
  | none => rfl
  | some q =>
    obtain ⟨t, ht, -⟩ := (h.inodes ino q).mp hq
    cases hino.symm.trans ht

omit [NodeStore σ] [FiniteNodeStore σ] in
/-- A request on an inode nobody knows. -/
theorem refuses_unknown (h : StandsFor root s A bytes own) {ino : Nat} (hmem : ino ∈ req.inodes)
    (hrun : (slotOfIno ino).run s = .error e s') : ∃ code, e = .errno code ∧ A.Refuses req code := by
  obtain ⟨rfl, hino⟩ := slotOfIno_refused hrun
  exact ⟨.enoent, rfl, .unknown hmem (h.unknown hino)⟩

omit [NodeStore σ] [FiniteNodeStore σ] in
theorem exists_node (h : StandsFor root s A bytes own) (hin : InTree s.container root p) :
    ∃ n, nodes s.container p = some n := by
  obtain ⟨d, hd⟩ | ⟨fb, hfb⟩ := h.backs.tree.node p hin
  · exact ⟨_, hd⟩
  · exact ⟨_, hfb⟩

omit [NodeStore σ] [FiniteNodeStore σ] in
theorem not_directory (h : StandsFor root s A bytes own)
    (hwalk : walk (child (nodes s.container)) root path = some p) {n : VaultNode}
    (hn : nodes s.container p = some n) (hne : ∀ d, n ≠ .directory d) :
    A.tree path ≠ some .directory := by
  obtain ⟨d, hd⟩ | ⟨fb, hfb⟩ := h.backs.tree.node p ⟨path, hwalk⟩
  · cases hn.symm.trans hd
    exact absurd rfl (hne d)
  · rw [h.tree_file hwalk hfb]
    intro heq
    cases heq

theorem readDirBlock_notDirectory (h : StandsFor root s A bytes own)
    (hwalk : walk (child (nodes s.container)) root path = some p)
    (hrun : (readDirBlock p).run s = .error e s') :
    e = .errno .enotdir ∧ A.tree path ≠ some .directory := by
  have hin : InTree s.container root p := ⟨path, hwalk⟩
  obtain ⟨n, hn⟩ := h.exists_node hin
  obtain ⟨rfl, hne⟩ := readDirBlock_refused (h.backs.tree.dataSlot p hin) hn hrun
  exact ⟨rfl, h.not_directory hwalk hn hne⟩

omit [NodeStore σ] [FiniteNodeStore σ] in
theorem no_entry (h : StandsFor root s A bytes own)
    (hwalk : walk (child (nodes s.container)) root path = some p) {d : DirectoryBlock}
    (hd : nodes s.container p = some (.directory d)) (hnone : entryOf d name = none) :
    A.tree (path ++ [name]) = none := by
  rw [h.tree, fileTree, walk_concat_eq_none hwalk (by rw [child_directory hd, hnone]; rfl)]
  rfl

omit [NodeStore σ] [FiniteNodeStore σ] in
/-- An entry of a directory is there. -/
theorem walk_entry (hwalk : walk (child (nodes s.container)) root path = some p) {d : DirectoryBlock}
    (hd : nodes s.container p = some (.directory d)) {en : DirEntry} (hen : entryOf d name = some en) :
    walk (child (nodes s.container)) root (path ++ [name]) = some en.slot :=
  walk_concat_eq_some.mpr ⟨p, hwalk, by rw [child_directory hd, hen]; rfl⟩

omit [NodeStore σ] [FiniteNodeStore σ] in
theorem tree_ne_none (h : StandsFor root s A bytes own)
    (hwalk : walk (child (nodes s.container)) root path = some p) : A.tree path ≠ none := by
  obtain ⟨d, hd⟩ | ⟨fb, hfb⟩ := h.backs.tree.node p ⟨path, hwalk⟩
  · rw [h.tree_dir hwalk hd]
    exact Option.some_ne_none _
  · rw [h.tree_file hwalk hfb]
    exact Option.some_ne_none _

end StandsFor

/-- Why an entry is not taken out of a directory. -/
inductive NotTaken (s : VenomFuse σ) (p : Nat) (name : String) : Failure → Prop
  | notDirectory {n : VaultNode} (hn : nodes s.container p = some n) (hne : ∀ d, n ≠ .directory d) :
      NotTaken s p name (.errno .enotdir)
  | noEntry {d : DirectoryBlock} (hd : nodes s.container p = some (.directory d))
      (hnone : entryOf d name = none) : NotTaken s p name (.errno .enoent)
  | noRoom {d : DirectoryBlock} (hd : nodes s.container p = some (.directory d))
      (hno : ¬ Fits (NodeStore.cipher s.container) (.directory (without d name))) :
      NotTaken s p name (.errno .eio)

/-- Why an entry is not made in a directory. -/
inductive NotLinked (s : VenomFuse σ) (p : Nat) (entry : DirEntry) : Failure → Prop
  | notDirectory {n : VaultNode} (hn : nodes s.container p = some n) (hne : ∀ d, n ≠ .directory d) :
      NotLinked s p entry (.errno .enotdir)
  | taken {d : DirectoryBlock} {en : DirEntry} (hd : nodes s.container p = some (.directory d))
      (hen : entryOf d entry.name = some en) : NotLinked s p entry (.errno .eexist)
  | noRoom {d : DirectoryBlock} (hd : nodes s.container p = some (.directory d))
      (hno : ¬ Fits (NodeStore.cipher s.container)
        (.directory { d with entries := d.entries ++ [entry] })) :
      NotLinked s p entry (.errno .eio)

namespace StandsFor

theorem notTaken (h : StandsFor root s A bytes own) (hin : InTree s.container root p)
    (hrun : (dirRemoveEntry p name).run s = .error e s') : NotTaken s p name e := by
  have hdata := h.backs.tree.dataSlot p hin
  rcases run_bind_error.mp hrun with hread | ⟨d, s₁, hread, hcont⟩
  · obtain ⟨n, hn⟩ := h.exists_node hin
    obtain ⟨rfl, hne⟩ := readDirBlock_refused hdata hn hread
    exact .notDirectory hn hne
  obtain ⟨rfl, hd⟩ := readDirBlock_ok hread
  split at hcont
  next hnone =>
    cases hcont
    exact .noEntry (hd hdata) hnone
  next =>
    rcases run_bind_error.mp hcont with hupdate | ⟨_, _, -, hret⟩
    · obtain ⟨c, hupdate', -⟩ := liftStore_error.mp hupdate
      obtain rfl : e = eio := FailsOnly.adaptExcept hupdate'
      exact .noRoom (hd hdata) (updateNode_failed hupdate').1
    · cases hret

/-- The node that is linked has been written into a slot that was free. -/
theorem notLinkedCause (h : StandsFor root s A bytes own) (hin : InTree s.container root p)
    {slot : Nat} {n : VaultNode} {entry : DirEntry}
    (hwrite : (liftStore (writeNode n)).run s = .ok slot s₁)
    (hrun : (linkOrFree p slot entry).run s₁ = .error e s') : NotLinked s p entry e := by
  have hdata := h.backs.tree.dataSlot p hin
  obtain ⟨-, -, -, hothers, hsame, hmem⟩ := writeNode_written h.backs.freeOk.2 hwrite
  -- the directory is not the slot that was free
  have hnode : nodes s₁.container p = nodes s.container p :=
    hothers p hdata fun heq => h.backs.not_free hin (heq ▸ hmem)
  have hdata₁ := hsame.isDataSlot.mpr hdata
  change linkOrFree p slot entry s₁ = _ at hrun
  unfold linkOrFree at hrun
  split at hrun
  next => cases hrun
  next hadd =>
    cases hrun
    rcases run_bind_error.mp hadd with hread | ⟨d, s₂, hread, hcont⟩
    · obtain ⟨m, hm⟩ := h.exists_node hin
      obtain ⟨rfl, hne⟩ := readDirBlock_refused hdata₁ (hnode.trans hm) hread
      exact .notDirectory hm hne
    obtain ⟨rfl, hd⟩ := readDirBlock_ok hread
    have hd' := hnode.symm.trans (hd hdata₁)
    split at hcont
    next hany =>
      cases hcont
      obtain ⟨en, hen⟩ : ∃ en, entryOf d entry.name = some en := by
        rw [← Option.isSome_iff_exists, entryOf, List.find?_isSome]
        exact List.any_eq_true.mp hany
      exact .taken hd' hen
    next =>
      obtain ⟨c, hupdate, -⟩ := liftStore_error.mp hcont
      have hno := (updateNode_failed hupdate).1
      rw [hsame.cipher] at hno
      obtain rfl : _ = eio := FailsOnly.adaptExcept hupdate
      exact .noRoom hd' hno

theorem refuses_removal (h : StandsFor root s A bytes own) {parent : Nat}
    (hfinds : req.finds = some (parent, some name)) (hdir : req.directory = some parent)
    (hwrites : req.writes = true) (hp : s.inodes.slotOf parent = some p)
    (hrun : (dirRemoveEntry p name).run s = .error e s') :
    ∃ code, e = .errno code ∧ A.Refuses req code := by
  obtain ⟨path, hpath, hwalk⟩ := h.of_ino hp
  cases h.notTaken ⟨path, hwalk⟩ hrun with
  | notDirectory hn hne =>
    exact ⟨.enotdir, rfl, .notDirectory hdir hpath (h.not_directory hwalk hn hne)⟩
  | noEntry hd hnone =>
    exact ⟨.enoent, rfl, .noEntry hfinds hpath (h.tree_dir hwalk hd) (h.no_entry hwalk hd hnone)⟩
  | noRoom => exact ⟨.eio, rfl, .notWritten hwrites⟩

theorem refuses_link (h : StandsFor root s A bytes own) {parent slot : Nat} {n : VaultNode}
    {entry : DirEntry} (hmakes : req.makes = some (parent, some entry.name))
    (hdir : req.directory = some parent) (hp : s.inodes.slotOf parent = some p)
    (hwrite : (liftStore (writeNode n)).run s = .ok slot s₁)
    (hrun : (linkOrFree p slot entry).run s₁ = .error e s') :
    ∃ code, e = .errno code ∧ A.Refuses req code := by
  obtain ⟨path, hpath, hwalk⟩ := h.of_ino hp
  cases h.notLinkedCause ⟨path, hwalk⟩ hwrite hrun with
  | notDirectory hn hne =>
    exact ⟨.enotdir, rfl, .notDirectory hdir hpath (h.not_directory hwalk hn hne)⟩
  | taken hd hen =>
    exact ⟨.eexist, rfl, .taken hmakes hpath (h.tree_ne_none (walk_entry hwalk hd hen))⟩
  | noRoom => exact ⟨.eio, rfl, .notWritten (FileSystem.makes_writes hmakes)⟩

/-! ## Each request -/

theorem refuses_lookup (h : StandsFor root s A bytes own) {parent : Nat}
    (hrun : (opLookup parent name).run s = .error e s') :
    ∃ code, e = .errno code ∧ A.Refuses (.lookup parent (some name)) code := by
  rcases run_bind_error.mp hrun with hslot | ⟨p, s₁, hslot, h₁⟩
  · exact h.refuses_unknown (.head _) hslot
  obtain ⟨hp, rfl⟩ := slotOfIno_ok.mp hslot
  obtain ⟨path, hpath, hwalk⟩ := h.of_ino hp
  have hin : InTree s₁.container root p := ⟨path, hwalk⟩
  rcases run_bind_error.mp h₁ with hread | ⟨d, s₂, hread, h₂⟩
  · obtain ⟨rfl, hne⟩ := h.readDirBlock_notDirectory hwalk hread
    exact ⟨.enotdir, rfl, .notDirectory rfl hpath hne⟩
  obtain ⟨rfl, hd⟩ := readDirBlock_ok hread
  have hd' := hd (h.backs.tree.dataSlot p hin)
  split at h₂
  next hnone =>
    cases h₂
    exact ⟨.enoent, rfl, .noEntry rfl hpath (h.tree_dir hwalk hd') (h.no_entry hwalk hd' hnone)⟩
  next en hen =>
    rcases run_bind_error.mp h₂ with hnode | ⟨n, s₃, hnode, h₃⟩
    · -- the node of an entry can be read
      have hin' : InTree s₂.container root en.slot := hin.entry hd' hen
      obtain ⟨n, hn⟩ := h.exists_node hin'
      obtain ⟨c, hnode', -⟩ := liftStore_error.mp hnode
      rw [(readNode_error hnode').2 (h.backs.tree.dataSlot _ hin')] at hn
      cases hn
    · rcases run_bind_error.mp h₃ with hino | ⟨ino, s₄, -, h₄⟩
      · cases hino
      · cases h₄

theorem refuses_attr (h : StandsFor root s A bytes own) {ord : IterOrder Nat} {ino : Nat}
    (hmem : ino ∈ req.inodes) (hrun : (Fuse.attrOfIno ord ino).run s = .error e s') :
    ∃ code, e = .errno code ∧ A.Refuses req code := by
  rcases run_bind_error.mp hrun with hslot | ⟨t, s₁, hslot, -⟩
  · exact h.refuses_unknown hmem hslot
  · obtain ⟨reply, hok⟩ : ∃ reply, (Fuse.attrOfIno ord ino).run s = .ok reply s :=
      h.attrOfIno_run (slotOfIno_ok.mp hslot).1
    cases hok.symm.trans hrun

theorem refuses_readdir (h : StandsFor root s A bytes own) {room : ReplyRoom} {ino offset : Nat}
    (hrun : (Fuse.readdir room ino offset).run s = .error e s') :
    ∃ code, e = .errno code ∧ A.Refuses (.readdir room ino offset) code := by
  rcases run_bind_error.mp hrun with hslot | ⟨t, s₁, hslot, h₁⟩
  · exact h.refuses_unknown (.head _) hslot
  obtain ⟨ht, rfl⟩ := slotOfIno_ok.mp hslot
  obtain ⟨q, hq, hwalk⟩ := h.of_ino ht
  rcases run_bind_error.mp h₁ with hread | ⟨d, s₂, -, h₂⟩
  · obtain ⟨rfl, hne⟩ := h.readDirBlock_notDirectory hwalk hread
    exact ⟨.enotdir, rfl, .notDirectory rfl hq hne⟩
  · obtain ⟨children, hchildren, -⟩ := childEntries_run d.entries s₂
    rcases run_bind_error.mp h₂ with herror | ⟨_, s₄, -, h₃⟩
    · cases hchildren.symm.trans herror
    · cases h₃

/-- A node that is not made, in a request that makes one. -/
theorem refuses_notMade (h : StandsFor root s A bytes own) {parent : Nat} {n : VaultNode}
    {entry : Nat → DirEntry} (hfail : NotMade s parent n entry e s')
    (hname : ∀ slot, (entry slot).name = name) (hmem : parent ∈ req.inodes)
    (hmakes : req.makes = some (parent, some name)) (hdir : req.directory = some parent) :
    ∃ code, e = .errno code ∧ A.Refuses req code := by
  cases hfail with
  | unknown hslot => exact h.refuses_unknown hmem hslot
  | notWritten hwrite =>
    obtain ⟨c, hwrite', -⟩ := liftStore_error.mp hwrite
    exact ⟨.eio, FailsOnly.adaptExcept hwrite', .notWritten (FileSystem.makes_writes hmakes)⟩
  | notLinked hp hwrite hlink =>
    exact h.refuses_link (by rw [hname]; exact hmakes) hdir hp hwrite hlink

theorem refuses_rmdir (h : StandsFor root s A bytes own) {parent : Nat}
    (hfail : NotRemoved s parent name e s') :
    ∃ code, e = .errno code ∧ A.Refuses (.rmdir parent (some name)) code := by
  -- where the directory and the entry are found
  have hread : ∀ {p d}, s.inodes.slotOf parent = some p → (readDirBlock p).run s = .ok d s →
      ∃ path, A.inodes parent = some path ∧ walk (child (nodes s.container)) root path = some p ∧
        nodes s.container p = some (.directory d) := fun {p d} hp hd => by
    obtain ⟨path, hpath, hwalk⟩ := h.of_ino hp
    exact ⟨path, hpath, hwalk, (readDirBlock_ok hd).2 (h.backs.tree.dataSlot p ⟨path, hwalk⟩)⟩
  cases hfail with
  | unknown hslot => exact h.refuses_unknown (.head _) hslot
  | unread hp hfail =>
    obtain ⟨path, hpath, hwalk⟩ := h.of_ino hp
    obtain ⟨rfl, hne⟩ := h.readDirBlock_notDirectory hwalk hfail
    exact ⟨.enotdir, rfl, .notDirectory rfl hpath hne⟩
  | noEntry hp hd hnone he =>
    obtain ⟨path, hpath, hwalk, hd'⟩ := hread hp hd
    exact ⟨.enoent, he, .noEntry rfl hpath (h.tree_dir hwalk hd') (h.no_entry hwalk hd' hnone)⟩
  | unreadTarget hp hd hen hfail =>
    obtain ⟨path, hpath, hwalk, hd'⟩ := hread hp hd
    have hwalk' := walk_entry hwalk hd' hen
    obtain ⟨rfl, hne⟩ := h.readDirBlock_notDirectory hwalk' hfail
    obtain ⟨d', hd''⟩ | ⟨fb, hfb⟩ := h.backs.tree.node _ ⟨_, hwalk'⟩
    · exact absurd (h.tree_dir hwalk' hd'') hne
    · exact ⟨.enotdir, rfl, .rmdirFile hpath (h.tree_file hwalk' hfb)⟩
  | @notEmpty p d target en hp hd hen htarget hentries he =>
    -- the first entry is still there
    obtain ⟨path, hpath, hwalk, hd'⟩ := hread hp hd
    have hwalk' := walk_entry hwalk hd' hen
    have ht := (readDirBlock_ok htarget).2 (h.backs.tree.dataSlot _ ⟨_, hwalk'⟩)
    obtain ⟨first, rest, hfirst⟩ := List.exists_cons_of_ne_nil hentries
    have hentry : entryOf target first.name = some first := by
      rw [entryOf, hfirst, List.find?_cons_of_pos (by simp)]
    exact ⟨.enotempty, he, .notEmpty hpath (h.tree_ne_none (walk_entry hwalk' ht hentry))⟩
  | notTaken hp hremove => exact h.refuses_removal rfl rfl rfl hp hremove

theorem refuses_unlink (h : StandsFor root s A bytes own) {parent : Nat}
    (hfile : ∀ p t, s.inodes.slotOf parent = some p → child (nodes s.container) p name = some t →
      ∃ fb, nodes s.container t = some (.file fb))
    (hrun : (opUnlink parent name).run s = .error e s') :
    ∃ code, e = .errno code ∧ A.Refuses (.unlink parent (some name)) code := by
  obtain ⟨_, _, _, _, _, -, -, -, hok, -⟩ | ⟨e', u', herror, -, hcause⟩ := opUnlink_cases h.backs hfile
  · cases hrun.symm.trans hok
  · cases hrun.symm.trans herror
    obtain hslot | ⟨p, hp, hremove⟩ := hcause
    · exact h.refuses_unknown (.head _) hslot
    · exact h.refuses_removal rfl rfl rfl hp hremove

theorem refuses_rename (h : StandsFor root s A bytes own) {parent newparent : Nat} {newname : String}
    (hcompletes : Completes s parent name newparent newname)
    (hrun : (opRename parent name newparent newname).run s = .error e s') :
    ∃ code, e = .errno code ∧ A.Refuses (.rename parent (some name) newparent (some newname)) code := by
  obtain hslot | hslot | ⟨p, hp, hremove⟩ := h.opRename_error hcompletes hrun
  · exact h.refuses_unknown (.head _) hslot
  · exact h.refuses_unknown (.tail _ (.head _)) hslot
  · exact h.refuses_removal rfl rfl rfl hp hremove

theorem refuses_flush (h : StandsFor root s A bytes own) {ord : IterOrder Nat} {fh : Nat}
    (hshort : ∀ f, s.openFiles.get fh = some f →
      (free s.container).length < (newChunks f (toStore ord f)).length)
    (hrun : (Fuse.opFlush ord fh).run s = .error e s') : e = eio := by
  cases hf : s.openFiles.get fh with
  | none => cases (opFlush_noHandle hf).symm.trans hrun
  | some f =>
    obtain ⟨fb, ids, chain, ho, -⟩ := h.backs.opened hf
    rw [Fuse.opFlush, run_bind_of_ok run_get, hf] at hrun
    obtain ⟨h', hflush, -⟩ := withHandle_error.mp hrun
    exact storeDirtyChunks_eio (flushHandle_short ho.ok (hshort f hf) hflush)

omit [FiniteNodeStore σ] in
/-- A write fails for want of a handle, or of room. -/
theorem refuses_write (h : StandsFor root s A bytes own) {ord : IterOrder Nat} {fh offset : Nat}
    {data : List UInt8} (hrun : (opWrite ord fh offset data).run s = .error e s') :
    ∃ code, e = .errno code ∧ A.Refuses (.write fh offset data) code := by
  cases hf : s.openFiles.get fh with
  | none => exact ⟨.enoent, (opWrite_noHandle hf hrun).1, .noHandle rfl (h.handle_none hf)⟩
  | some f =>
    rw [opWrite, run_bind_of_ok run_get, hf] at hrun
    obtain ⟨h', hwrite, -⟩ := withHandle_error.mp hrun
    exact ⟨.eio, writeHandle_eio hwrite, .notWritten rfl⟩

/-- The error of a request that fails is one the file system has for it. -/
theorem refuses (h : StandsFor root s A bytes own) (hallowed : req.Allowed ords s)
    (hcontained : req.Contained ords s) (hrun : (req.serve ords).run s = .error e s') :
    ∃ code, e = .errno code ∧ A.Refuses req code := by
  cases serve_error hrun with
  | notUtf8 hname he => exact ⟨_, he, hname.refuses⟩
  | lookup hlookup => exact h.refuses_lookup hlookup
  | getattr hattr => exact h.refuses_attr (.head _) hattr
  | @setattr ino size hint hset =>
    cases size with
    | none => exact h.refuses_attr (.head _) hset
    | some newSize =>
      obtain ⟨fh, f, hfind, hf, hino, hcut⟩ := hallowed
      obtain ⟨reply, t, hok⟩ := h.resize_run hfind hf hino hcut
      cases hok.symm.trans hset
  | readdir hreaddir => exact h.refuses_readdir hreaddir
  | mkdir hmkdir => exact h.refuses_notMade (opMkdir_error hmkdir) (fun _ => rfl) (.head _) rfl rfl
  | rmdir hrmdir => exact h.refuses_rmdir (opRmdir_error hrmdir)
  | create hcreate =>
    exact h.refuses_notMade (opCreate_error hcreate) (fun _ => rfl) (.head _) rfl rfl
  | unlink hunlink => exact h.refuses_unlink (hallowed _ · · rfl) hunlink
  | rename hrename => exact h.refuses_rename (hcontained _ _ rfl rfl) hrename
  | openFile hopen =>
    obtain ⟨-, hslot | ⟨rfl, t, d, ht, hd⟩⟩ := h.openFile_error hallowed.2 hopen
    · exact h.refuses_unknown (.head _) hslot
    · obtain ⟨q, hq, hwalk⟩ := h.of_ino ht
      exact ⟨.eisdir, rfl, .openDirectory hq (h.tree_dir hwalk hd)⟩
  | release hrelease =>
    -- a release that finds the room does not fail
    obtain ⟨t, hok⟩ := hallowed
    cases hok.symm.trans hrelease
  | flush hflush => exact ⟨.eio, h.refuses_flush hcontained hflush, .notWritten rfl⟩
  | fsync hflush => exact ⟨.eio, h.refuses_flush hcontained hflush, .notWritten rfl⟩
  | @read fh offset size hread =>
    cases hf : s.openFiles.get fh with
    | some f =>
      obtain ⟨r, s₁, hok⟩ := h.backs.read_run hf offset size
      cases hread.symm.trans hok
    | none =>
      cases (opRead_noHandle hf).symm.trans hread
      exact ⟨.enoent, rfl, .noHandle rfl (h.handle_none hf)⟩
  | write hwrite => exact h.refuses_write hwrite

end StandsFor

/-! ## Sessions -/

/-- What happens in a session accounts for the error of the next request. -/
theorem session_refusal {M : Medium σ} {c : σ} {events : List Event} (hc : Formatted c root)
    (h : Session M root c events s) (hallowed : req.Allowed ords s) (hcontained : req.Contained ords s)
    (hrun : (req.serve ords).run s = .error e s') : ∃ A bytes own code, FileSystem.Trace events A ∧
      StandsFor root s A bytes own ∧ e = .errno code ∧ A.Refuses req code := by
  obtain ⟨A, bytes, own, htrace, hstands⟩ := h.refines hc
  obtain ⟨code, rfl, hrefuses⟩ := hstands.refuses hallowed hcontained hrun
  exact ⟨A, bytes, own, code, htrace, hstands, rfl, hrefuses⟩

/-- After a mount the directory `letters` is made a second time. -/
theorem session_refusal_letters : ∃ s A bytes own code,
    ((Request.mkdir 1 (some "letters")).serve .listed).run lookedUp = .error (.errno .eexist) s ∧
      FileSystem.Trace lookedUpEvents A ∧ StandsFor 0 lookedUp A bytes own ∧
      Failure.errno .eexist = .errno code ∧ A.Refuses (.mkdir 1 (some "letters")) code := by
  have hrun : ((Request.mkdir 1 (some "letters")).serve .listed).run lookedUp =
      .error (.errno .eexist) _ := run_of_errorOf (by decide +kernel)
  have hallowed : (Request.mkdir 1 (some "letters")).Allowed .listed lookedUp := by
    change lookedUp.inodes.nextIno + 1 < 2 ^ 64
    decide +kernel
  obtain ⟨A, bytes, own, code, hrest⟩ := session_refusal (Volume.fresh_formatted _ (by decide))
    lookedUp_session hallowed trivial hrun
  exact ⟨_, A, bytes, own, code, hrun, hrest⟩

/-- In a session a request that only reads has the error that the file system has for it, and is
    served when there is none. -/
theorem session_answers {M : Medium σ} {c : σ} {events : List Event} (hc : Formatted c root)
    (h : Session M root c events s) (hreads : req.writes = false) (hallowed : req.Allowed ords s) :
    ∃ A bytes own, FileSystem.Trace events A ∧ StandsFor root s A bytes own ∧
      (∀ code, (∃ s', (req.serve ords).run s = .error (.errno code) s') ↔ A.Refuses req code) ∧
      ((∀ code, ¬ A.Refuses req code) → ∃ reply s' A', (req.serve ords).run s = .ok reply s' ∧
        A.Step req reply A') := by
  obtain ⟨A, bytes, own, htrace, hstands⟩ := h.refines hc
  have hcontained : req.Contained ords s := by
    cases req <;> trivial
  refine ⟨A, bytes, own, htrace, hstands, fun code => ⟨fun herror => ?_, fun hrefuses => ?_⟩,
    fun hnone => ?_⟩
  · obtain ⟨s', hrun⟩ := herror
    obtain ⟨code', hcode, hrefuses⟩ := hstands.refuses hallowed hcontained hrun
    cases hcode
    exact hrefuses
  · rcases run_cases (req.serve ords) s with ⟨reply, hrun⟩ | ⟨e, hrun⟩
    · obtain ⟨_, _, _, hstep, -⟩ := hstands.serve hallowed hrun
      exact absurd hrefuses (hstep.not_refused hreads)
    · obtain ⟨code', rfl, hrefuses'⟩ := hstands.refuses hallowed hcontained hrun
      cases hrefuses.unique hrefuses' hreads
      exact ⟨_, hrun⟩
  · rcases run_cases (req.serve ords) s with ⟨reply, hrun⟩ | ⟨e, hrun⟩
    · obtain ⟨A', _, _, hstep, -⟩ := hstands.serve hallowed hrun
      exact ⟨reply, _, A', hrun, hstep⟩
    · obtain ⟨code, rfl, hrefuses⟩ := hstands.refuses hallowed hcontained hrun
      exact absurd hrefuses (hnone code)

/-- After a mount the file is opened and read. -/
def openedNotes : VenomFuse Volume := after ((Request.openFile 2).serve .listed) lookedUp

theorem session_answers_notes : ∃ A bytes own s' A',
    FileSystem.Trace (lookedUpEvents ++ [.served (.openFile 2) (.opened 1)]) A ∧
    StandsFor 0 openedNotes A bytes own ∧
    ((Request.read 1 1 5).serve .listed).run openedNotes = .ok (.data [2, 3]) s' ∧
    A.Step (.read 1 1 5) (.data [2, 3]) A' := by
  have hclosed : (Request.openFile 2).Allowed .listed lookedUp := by
    refine ⟨show lookedUp.nextFh + 1 < 2 ^ 64 by decide +kernel, fun t _ fh f hf => ?_⟩
    have hkeys : lookedUp.openFiles.keys = [] := by decide +kernel
    rw [(HashMap.get_eq_none _ _).mpr (by rw [hkeys]; exact List.not_mem_nil)] at hf
    cases hf
  have hopened := lookedUp_session.serve_of_valueOf hclosed (show _ = some (.opened 1) by decide +kernel)
  obtain ⟨A, bytes, own, htrace, hstands, herrors, hserves⟩ :=
    session_answers (Volume.fresh_formatted _ (by decide)) hopened
      (show (Request.read 1 1 5).writes = false from rfl) (show (Request.read 1 1 5).Allowed .listed _ from trivial)
  have hok : ((Request.read 1 1 5).serve .listed).run openedNotes = .ok (.data [2, 3]) _ :=
    run_of_valueOf (by decide +kernel)
  obtain ⟨reply, s', A', hok', hstep⟩ := hserves fun code hrefuses => by
    obtain ⟨s'', herror⟩ := (herrors code).mpr hrefuses
    cases hok.symm.trans herror
  cases hok.symm.trans hok'
  exact ⟨A, bytes, own, _, A', htrace, hstands, hok, hstep⟩

end Venom.Fuse

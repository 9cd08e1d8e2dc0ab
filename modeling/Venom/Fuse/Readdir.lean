import Venom.Fuse.InodeNumbers
import Venom.Library.PositionScan

/-! # Reading a directory

`readdir` builds the list of a directory anew at every call, `.` and `..` in front, and hands
out what follows the given offset until the reply is full.  The offset of an entry is its
position in that list plus one, and the kernel goes on at the offset of the last entry it got.
Seen from outside, a call reads a piece of the list by position.
-/

namespace Venom.Fuse

open Venom.Storage
open Venom.Library
open Venom.Library.PositionScan
open Venom.Library.StateError

/-! ## The call -/

inductive FileType
  | directory
  | regularFile
  deriving DecidableEq, Repr

def fileTypeOf (kind : NodeKind) : FileType :=
  if kind = .directory then .directory else .regularFile

/-- An entry as the kernel gets it. -/
structure DirReply where
  ino : Nat
  offset : Nat
  kind : FileType
  name : String
  deriving DecidableEq

/-- Whether the buffer of a reply takes a further entry. -/
abbrev ReplyRoom := List DirReply → DirReply → Bool

/-- `ReplyDirectory::add` stores the entry, or says that the buffer is full. -/
def replyAdd (room : ReplyRoom) (reply : List DirReply) (r : DirReply) : List DirReply × Bool :=
  if room reply r then (reply ++ [r], false) else (reply, true)

/-- The loop of `readdir`: it stops at the first entry that is not stored. -/
def addEntries (room : ReplyRoom) (reply : List DirReply) : List DirReply → List DirReply
  | [] => reply
  | r :: rest =>
    let (reply, full) := replyAdd room reply r
    if full then reply else addEntries room reply rest

/-- The entries with their positions. -/
def enumerated (entries : List (Nat × FileType × String)) : List DirReply :=
  entries.zipIdx.map fun (e, i) => { ino := e.1, offset := i + 1, kind := e.2.1, name := e.2.2 }

section Model

variable {σ : Type} [NodeStore σ]

/-- The entries of a directory block, each with an inode. -/
def childEntries : List DirEntry → FuseM σ (List (Nat × FileType × String))
  | [] => pure []
  | e :: es => do
    let childIno ← inoOfSlot e.slot
    let rest ← childEntries es
    pure ((childIno, fileTypeOf e.kind, e.name) :: rest)

def readdir (room : ReplyRoom) (ino offset : Nat) : FuseM σ (List DirReply) := do
  let slot ← slotOfIno ino
  let dir ← readDirBlock slot
  let children ← childEntries dir.entries
  let entries := (ino, .directory, ".") :: (ino, .directory, "..") :: children
  pure (addEntries room [] ((enumerated entries).drop offset))

end Model

/-- Where the listing goes on after a reply. -/
def nextOffset (offset : Nat) (reply : List DirReply) : Nat :=
  ((reply.getLast?).map (·.offset)).getD offset

/-! ## What is listed -/

/-- An entry of a listing.  Only a child can go away. -/
inductive Listed
  | dot
  | dotDot
  | child (name : String)
  deriving DecidableEq

theorem Listed.child_injective : Function.Injective Listed.child := fun _ _ h => by cases h; rfl

/-- What a reply stands for: the first two positions are `.` and `..`. -/
def DirReply.listed (r : DirReply) : Listed :=
  if r.offset = 1 then .dot else if r.offset = 2 then .dotDot else .child r.name

def names (d : DirectoryBlock) : List String := d.entries.map (·.name)

def listed (names : List String) : List Listed := .dot :: .dotDot :: names.map .child

theorem nodup_listed {ns : List String} (h : ns.Nodup) : (listed ns).Nodup := by
  simp [listed, h.map Listed.child_injective]

/-- A change of the children is a change of the listing. -/
theorem edit_listed {out ns ns' : List String} (h : Edit out ns ns') :
    Edit (out.map .child) (listed ns) (listed ns') := by
  have hmap := h.map Listed.child Listed.child_injective
  exact hmap.append_left [Listed.dot, Listed.dotDot] (by simp) (by simp)

theorem enumerated_listed (a b : Nat) (k k' : FileType) (n n' : String)
    (children : List (Nat × FileType × String)) :
    (enumerated ((a, k, n) :: (b, k', n') :: children)).map DirReply.listed =
      listed (children.map (·.2.2)) := by
  have hchildren : ∀ i, 2 ≤ i → ((children.zipIdx i).map fun (e, i) =>
      ({ ino := e.1, offset := i + 1, kind := e.2.1, name := e.2.2 } : DirReply).listed) =
        (children.map (·.2.2)).map .child := by
    induction children with
    | nil => exact fun _ _ => rfl
    | cons e es ih =>
      intro i hi
      rw [List.zipIdx_cons, List.map_cons, ih (i + 1) (by omega), List.map_cons, List.map_cons]
      congr 1
      simp only [DirReply.listed]
      rw [if_neg (by omega), if_neg (by omega)]
  rw [enumerated, List.map_map, listed]
  exact congrArg (fun l => Listed.dot :: Listed.dotDot :: l) (hchildren 2 le_rfl)

theorem enumerated_offset (entries : List (Nat × FileType × String)) (i : Nat) :
    ((enumerated entries)[i]?).map (·.offset) = if i < entries.length then some (i + 1) else none := by
  rw [enumerated, List.getElem?_map, List.getElem?_zipIdx]
  by_cases hi : i < entries.length
  · simp [hi]
  · simp [hi]

/-! ## A reply -/

/-- A reply is a piece of the entries, and an empty one only when there are none. -/
theorem addEntries_eq (room : ReplyRoom) (reply entries : List DirReply) :
    ∃ n ≤ entries.length, addEntries room reply entries = reply ++ entries.take n ∧
      ∀ r ∈ entries.head?, room reply r = true → n ≠ 0 := by
  induction entries generalizing reply with
  | nil => exact ⟨0, le_rfl, by simp [addEntries], by simp⟩
  | cons r rest ih =>
    by_cases hroom : room reply r = true
    · obtain ⟨n, hn, heq, -⟩ := ih (reply ++ [r])
      refine ⟨n + 1, Nat.succ_le_succ hn, ?_, fun _ _ _ => Nat.succ_ne_zero n⟩
      simp [addEntries, replyAdd, hroom, heq]
    · refine ⟨0, Nat.zero_le _, by simp [addEntries, replyAdd, hroom], fun x hx hx' => ?_⟩
      cases hx
      exact absurd hx' hroom

/-- A reply read as a piece of the listing, and where it leads. -/
theorem reply_listed {room : ReplyRoom} (hroom : ∀ r, room [] r = true)
    (entries : List (Nat × FileType × String)) (offset : Nat) :
    let reply := addEntries room [] ((enumerated entries).drop offset)
    let all := (enumerated entries).map DirReply.listed
    reply.map DirReply.listed = (all.drop offset).take reply.length ∧
      nextOffset offset reply = offset + reply.length ∧
      (reply = [] → all.drop offset = []) := by
  intro reply all
  obtain ⟨n, hn, heq, hsome⟩ := addEntries_eq room [] ((enumerated entries).drop offset)
  have hreply : reply = ((enumerated entries).drop offset).take n := heq
  have hlen : reply.length = n := by rw [hreply, List.length_take, Nat.min_eq_left hn]
  refine ⟨?_, ?_, fun hnil => ?_⟩
  · rw [hlen, hreply, List.map_take, List.map_drop]
  · cases n with
    | zero =>
      rw [List.take_zero] at hreply
      rw [hreply]
      rfl
    | succ n =>
      -- the last entry of the reply has the position before the end of the piece
      have hlast : reply.getLast? = (enumerated entries)[offset + n]? := by
        rw [List.getLast?_eq_getElem?, hlen, hreply, List.getElem?_take, List.getElem?_drop,
          Nat.add_sub_cancel, if_pos (Nat.lt_succ_self n)]
      have hin : offset + n < entries.length := by
        rw [List.length_drop, enumerated, List.length_map, List.length_zipIdx] at hn
        omega
      rw [nextOffset, hlast, enumerated_offset, if_pos hin, hlen]
      rfl
  · rw [← List.map_drop]
    cases hrest : (enumerated entries).drop offset with
    | nil => rfl
    | cons r rest =>
      rw [hnil, List.length_nil] at hlen
      exact absurd hlen.symm (hsome r (by rw [hrest]; rfl) (hroom r))

/-! ## The directory behind an inode -/

variable {σ : Type} [NodeStore σ] [NodeView σ]

def dirBlock (s : VenomFuse σ) (ino : Nat) : Option DirectoryBlock :=
  (s.inodes.slotOf ino).bind fun slot =>
    (nodes s.container slot).bind fun n =>
      match n with
      | .directory d => some d
      | _ => none

omit [NodeStore σ] in
theorem dirBlock_eq_some {s : VenomFuse σ} {ino : Nat} {d : DirectoryBlock} : dirBlock s ino = some d ↔
    ∃ slot, s.inodes.slotOf ino = some slot ∧ nodes s.container slot = some (.directory d) := by
  unfold dirBlock
  constructor
  · intro h
    obtain ⟨slot, hslot, h⟩ := Option.bind_eq_some_iff.mp h
    obtain ⟨n, hn, h⟩ := Option.bind_eq_some_iff.mp h
    cases n with
    | directory b =>
      cases h
      exact ⟨slot, hslot, hn⟩
    | file | fileData | fileIndex => cases h
  · rintro ⟨slot, hslot, hd⟩
    rw [hslot, Option.bind_some, hd, Option.bind_some]

/-- What a listing of the directory would show; nothing when it is none. -/
def listing (s : VenomFuse σ) (ino : Nat) : List Listed :=
  ((dirBlock s ino).map fun d => listed (names d)).getD []

omit [NodeStore σ] in
theorem listing_directory {s : VenomFuse σ} {ino slot : Nat} {d : DirectoryBlock}
    (hslot : s.inodes.slotOf ino = some slot) (hd : nodes s.container slot = some (.directory d)) :
    listing s ino = listed (names d) := by
  rw [listing, dirBlock_eq_some.mpr ⟨slot, hslot, hd⟩, Option.map_some, Option.getD_some]

omit [NodeStore σ] in
theorem listing_no_slot {s : VenomFuse σ} {ino : Nat} (hslot : s.inodes.slotOf ino = none) :
    listing s ino = [] := by
  simp [listing, dirBlock, hslot]

omit [NodeStore σ] in
theorem dirBlock_no_directory {s : VenomFuse σ} {ino slot : Nat}
    (hslot : s.inodes.slotOf ino = some slot)
    (hd : ∀ d, nodes s.container slot ≠ some (.directory d)) : dirBlock s ino = none := by
  refine Option.eq_none_iff_forall_ne_some.mpr fun d h => ?_
  obtain ⟨t, ht, hn⟩ := dirBlock_eq_some.mp h
  cases hslot.symm.trans ht
  exact hd d hn

omit [NodeStore σ] in
theorem listing_no_directory {s : VenomFuse σ} {ino slot : Nat}
    (hslot : s.inodes.slotOf ino = some slot)
    (hd : ∀ d, nodes s.container slot ≠ some (.directory d)) : listing s ino = [] := by
  rw [listing, dirBlock_no_directory hslot hd]
  rfl

/-- The slots a listing of the directory hands out inodes for. -/
def entrySlots (s : VenomFuse σ) (ino : Nat) : List Nat :=
  ((dirBlock s ino).map fun d => d.entries.map (·.slot)).getD []

omit [NodeStore σ] in
theorem entrySlots_directory {s : VenomFuse σ} {ino slot : Nat} {d : DirectoryBlock}
    (hslot : s.inodes.slotOf ino = some slot) (hd : nodes s.container slot = some (.directory d)) :
    entrySlots s ino = d.entries.map (·.slot) := by
  rw [entrySlots, dirBlock_eq_some.mpr ⟨slot, hslot, hd⟩, Option.map_some, Option.getD_some]

omit [NodeView σ] in
omit [NodeStore σ] in
/-- Listing hands out inodes and nothing else. -/
theorem childEntries_run (es : List DirEntry) (s : VenomFuse σ) :
    ∃ r : List (Nat × FileType × String), (childEntries es).run s =
        .ok r { s with inodes := s.inodes.handOut (es.map (·.slot)) } ∧
      r.map (·.2.2) = es.map (·.name) := by
  induction es generalizing s with
  | nil => exact ⟨[], rfl, rfl⟩
  | cons e es ih =>
    obtain ⟨rest, hrest, hnames⟩ := ih { s with inodes := (s.inodes.getOrAlloc e.slot).2 }
    refine ⟨((s.inodes.getOrAlloc e.slot).1, fileTypeOf e.kind, e.name) :: rest, ?_, ?_⟩
    · unfold childEntries
      rw [run_bind_of_ok (inoOfSlot_run e.slot s), run_bind_of_ok hrest]
      rfl
    · rw [List.map_cons, List.map_cons, hnames]

variable [LawfulNodeStore σ]

/-- A listing call on a directory reads a piece of the listing, and changes none. -/
theorem readdir_ok {D : Nat → Prop} {s s' : VenomFuse σ} {room : ReplyRoom} {ino offset : Nat}
    {reply : List DirReply} (hs : DriverWithin D s) (hroom : ∀ r, room [] r = true)
    (hrun : (readdir room ino offset).run s = .ok reply s') :
    reply.map DirReply.listed = ((listing s ino).drop offset).take reply.length ∧
      nextOffset offset reply = offset + reply.length ∧
      (reply = [] → (listing s ino).drop offset = []) ∧
      s' = { s with inodes := s.inodes.handOut (entrySlots s ino) } := by
  obtain ⟨slot, s₁, hslot, h₁⟩ := run_bind_ok.mp hrun
  obtain ⟨hslot, rfl⟩ := slotOfIno_ok.mp hslot
  obtain ⟨d, s₂, hdir, h₂⟩ := run_bind_ok.mp h₁
  obtain ⟨rfl, hd⟩ := readDirBlock_ok hdir
  obtain ⟨children, hchildren, hnames⟩ := childEntries_run d.entries s₂
  rw [run_bind_of_ok hchildren] at h₂
  cases h₂
  have hdata : IsDataSlot s₂.container slot := by
    rw [hs.container.dataSlot]
    exact hs.inodes ino slot hslot
  have hreply := reply_listed hroom ((ino, .directory, ".") :: (ino, .directory, "..") :: children) offset
  dsimp only at hreply
  rw [enumerated_listed, hnames] at hreply
  rw [listing_directory hslot (hd hdata), entrySlots_directory hslot (hd hdata)]
  exact ⟨hreply.1, hreply.2.1, hreply.2.2, rfl⟩

omit [LawfulNodeStore σ] in
theorem readdir_keeps [WipingNodeStore σ] {D : Nat → Prop} (room : ReplyRoom) (ino offset : Nat) :
    Keeps (DriverWithin D) (readdir (σ := σ) room ino offset) fun _ => True := by
  have hchildren : ∀ es : List DirEntry, (∀ e ∈ es, D e.slot) →
      Keeps (DriverWithin D) (childEntries (σ := σ) es) fun _ => True := by
    intro es
    induction es with
    | nil => exact fun _ => .pure trivial
    | cons e es ih =>
      intro hes
      exact (inoOfSlot_keeps (hes e (.head _))).bind fun _ _ =>
        (ih fun x hx => hes x (.tail _ hx)).bind fun _ _ => .pure trivial
  exact (slotOfIno_keeps ino).bind fun _ hslot => (readDirBlock_keeps hslot).bind fun dir hdir =>
    (hchildren dir.entries hdir).bind fun _ _ => .pure trivial

end Venom.Fuse

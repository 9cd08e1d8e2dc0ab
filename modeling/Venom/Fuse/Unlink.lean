import Venom.Fuse.Directory
import Venom.Fuse.Reached

/-! # What an unlink gives back

An unlink frees the head of a file, the slots its head lists, and the blocks of its index
chain.  The slots that are named only inside an index block, or only by the slot map of an
open handle, are not among them.
-/

namespace Venom.Fuse

open Venom.Storage
open Venom.Library
open Venom.Library.StateError

/-! ## The slots of a chain -/

/-- A slot on the chain from a pointer. -/
inductive OnChain (nodes : Nat → Option VaultNode) : Option Nat → Nat → Prop
  | first {s : Nat} : OnChain nodes (some s) s
  | next {s t : Nat} {fi : FileIndexBlock} : nodes s = some (.fileIndex fi) →
      OnChain nodes fi.nextIndex t → OnChain nodes (some s) t

/-- A chain that ends, with the slots on it; its last slot may hold anything. -/
inductive ChainEnds (nodes : Nat → Option VaultNode) : Option Nat → List Nat → Prop
  | nil : ChainEnds nodes none []
  | stop {s : Nat} : (∀ fi, nodes s ≠ some (.fileIndex fi)) → ChainEnds nodes (some s) [s]
  | cons {s : Nat} {fi : FileIndexBlock} {slots : List Nat} : nodes s = some (.fileIndex fi) →
      ChainEnds nodes fi.nextIndex slots → ChainEnds nodes (some s) (s :: slots)

theorem ChainEnds.mem_iff {nodes : Nat → Option VaultNode} {first : Option Nat} {slots : List Nat}
    (h : ChainEnds nodes first slots) (t : Nat) : t ∈ slots ↔ OnChain nodes first t := by
  induction h with
  | nil =>
    refine ⟨fun ht => (by cases ht), fun ht => ?_⟩
    cases ht
  | @stop s hstop =>
    constructor
    · intro ht
      rw [List.mem_singleton.mp ht]
      exact .first
    · intro ht
      cases ht with
      | first => exact List.mem_cons_self
      | next hfi _ => exact absurd hfi (hstop _)
  | @cons s fi slots hnode _ ih =>
    rw [List.mem_cons, ih]
    constructor
    · rintro (rfl | ht)
      · exact .first
      · exact .next hnode ht
    · intro ht
      cases ht with
      | first => exact .inl rfl
      | next hfi ht =>
        rw [hnode] at hfi
        cases hfi
        exact .inr ht

/-- Only the index blocks of a chain matter. -/
theorem ChainEnds.congr {nodes nodes' : Nat → Option VaultNode} {first : Option Nat}
    {slots : List Nat} (h : ChainEnds nodes first slots)
    (hsame : ∀ t ∈ slots, ∀ fi, nodes' t = some (.fileIndex fi) ↔ nodes t = some (.fileIndex fi)) :
    ChainEnds nodes' first slots := by
  induction h with
  | nil => exact .nil
  | stop hstop => exact .stop fun fi hfi => hstop fi ((hsame _ List.mem_cons_self fi).mp hfi)
  | cons hnode _ ih =>
    exact .cons ((hsame _ List.mem_cons_self _).mpr hnode) (ih fun t ht => hsame t (.tail _ ht))

variable {σ : Type} [NodeStore σ] [NodeView σ]

theorem mem_refs_next {fi : FileIndexBlock} {t : Nat} (h : t ∈ fi.nextIndex) :
    t ∈ refs (.fileIndex fi) := List.mem_append_right _ (Option.mem_toList.mpr h)

omit [NodeStore σ] in
theorem OnChain.within {D : Nat → Prop} {c : σ} {first : Option Nat} {t : Nat}
    (hc : StoreWithin D c) (hfirst : ∀ s ∈ first, D s) (h : OnChain (nodes c) first t) : D t := by
  induction h with
  | first => exact hfirst _ rfl
  | next hfi _ ih =>
    exact ih fun u hu => hc.refs _ _ (hfirst _ rfl) hfi u (mem_refs_next hu)

/-! ## Freed slots -/

/-- The slots `l` were wiped and given back, each as often as it is listed. -/
structure Freed (c c' : σ) (l : List Nat) : Prop where
  same : SameVolume c c'
  free : (free c').Perm (l ++ free c)
  wiped : ∀ t ∈ l, nodes c' t = none
  kept : ∀ t, IsDataSlot c t → t ∉ l → nodes c' t = nodes c t

section Freeing

variable {D : Nat → Prop} {c c' c'' : σ}

theorem Freed.refl (c : σ) : Freed c c [] := ⟨.refl c, .refl _, by simp, fun _ _ _ => rfl⟩

theorem Freed.trans {l l' : List Nat} (hl : ∀ t ∈ l, IsDataSlot c t) (h : Freed c c' l)
    (h' : Freed c' c'' l') : Freed c c'' (l ++ l') where
  same := h.same.trans h'.same
  free := by
    refine h'.free.trans ((h.free.append_left l').trans ?_)
    rw [← List.append_assoc]
    exact List.perm_append_comm.append_right _
  wiped t ht := by
    by_cases ht' : t ∈ l'
    · exact h'.wiped t ht'
    · have htl := (List.mem_append.mp ht).resolve_right ht'
      rw [h'.kept t (h.same.isDataSlot.mpr (hl t htl)) ht', h.wiped t htl]
  kept t ht hn := by
    rw [List.mem_append, not_or] at hn
    rw [h'.kept t (h.same.isDataSlot.mpr ht) hn.2, h.kept t ht hn.1]

variable [WipingNodeStore σ]

theorem freeNode_freed {s : Nat} (hs : IsDataSlot c s) : Freed c (NodeStore.freeNode s c) [s] := by
  obtain ⟨hfree, hothers, hsame⟩ := LawfulNodeStore.freeNode_spec c s hs
  refine ⟨hsame, ?_, fun t ht => ?_, fun t ht hn => hothers t ht (by simpa using hn)⟩
  · rw [hfree]
    exact List.perm_orderedInsert _ s _
  · rw [List.mem_singleton.mp ht]
    exact WipingNodeStore.freeNode_wiped c s hs

theorem freeNodes_freed {l : List Nat} (hl : ∀ t ∈ l, IsDataSlot c t)
    (h : (l.forM freeNode).run c = .ok () c') : Freed c c' l := by
  induction l generalizing c with
  | nil => cases h; exact .refl _
  | cons s l ih =>
    change (freeNode s >>= fun _ => l.forM freeNode).run c = _ at h
    obtain ⟨_, c₁, hfree, h₁⟩ := run_bind_ok.mp h
    rw [freeNode_run_ok] at hfree
    subst hfree
    have hfreed := freeNode_freed (hl s List.mem_cons_self)
    exact hfreed.trans (by simpa using hl s List.mem_cons_self)
      (ih (fun t ht => hfreed.same.isDataSlot.mpr (hl t (.tail _ ht))) h₁)

omit [WipingNodeStore σ] in
/-- What is read after slots were wiped was there before. -/
theorem Freed.unwiped {l : List Nat} (h : Freed c c' l) {t : Nat} (ht : IsDataSlot c t)
    {n : VaultNode} (hn : nodes c' t = some n) : nodes c t = some n := by
  by_cases htl : t ∈ l
  · rw [h.wiped t htl] at hn
    cases hn
  · rwa [h.kept t ht htl] at hn

omit [NodeStore σ] [WipingNodeStore σ] in
theorem OnChain.mono {nodes' : Nat → Option VaultNode} {first : Option Nat} {t : Nat}
    (hc : StoreWithin D c)
    (hback : ∀ s, D s → ∀ fi, nodes' s = some (.fileIndex fi) → nodes c s = some (.fileIndex fi))
    (hfirst : ∀ s ∈ first, D s) (h : OnChain nodes' first t) : OnChain (nodes c) first t := by
  induction h with
  | first => exact .first
  | @next s t fi hfi _ ih =>
    have hnode := hback s (hfirst s rfl) fi hfi
    exact .next hnode (ih fun u hu => hc.refs s _ (hfirst s rfl) hnode u (mem_refs_next hu))

/-- A chain is freed up to its first slot that is no index block, or is no more: a slot that
    comes again has been wiped. -/
theorem freeChainFrom_freed {fuel : Nat} {first : Option Nat} (hc : StoreWithin D c)
    (hfirst : ∀ s ∈ first, D s) (h : (freeChainFrom fuel first).run c = .ok () c') :
    ∃ l, Freed c c' l ∧ (∀ t ∈ l, OnChain (nodes c) first t) ∧
      (l.Nodup → ChainEnds (nodes c) first l) ∧
      ∀ slots, ChainEnds (nodes c) first slots → slots.Nodup → l = slots := by
  induction fuel generalizing c first with
  | zero =>
    cases first with
    | none =>
      cases h
      exact ⟨[], .refl _, by simp, fun _ => .nil, fun slots hs _ => by cases hs; rfl⟩
    | some s => cases h
  | succ fuel ih =>
    cases first with
    | none =>
      cases h
      exact ⟨[], .refl _, by simp, fun _ => .nil, fun slots hs _ => by cases hs; rfl⟩
    | some s =>
      have hdata : ∀ t, D t → IsDataSlot c t := fun t ht => by rw [hc.dataSlot]; exact ht
      have hs : D s := hfirst s rfl
      have hfreed := freeNode_freed (hdata s hs)
      obtain ⟨_, _, hget, h₁⟩ := run_bind_ok.mp h
      cases hget
      split at h₁
      next fi hread =>
        have hnode := (readNode_ok (hdata s hs)).mp hread
        obtain ⟨_, c₁, hfree, h₂⟩ := run_bind_ok.mp h₁
        rw [freeNode_run_ok] at hfree
        subst hfree
        have hnext : ∀ t ∈ fi.nextIndex, D t := fun t ht => hc.refs s _ hs hnode t (mem_refs_next ht)
        obtain ⟨l, hl, hmem, hends, huniq⟩ := ih (freeNode_within hs hc) hnext h₂
        -- the rest of the chain is read after `s` has been wiped
        have hon : ∀ t ∈ l, OnChain (nodes c) fi.nextIndex t := fun t ht =>
          (hmem t ht).mono hc (fun u hu _ => hfreed.unwiped (hdata u hu)) hnext
        have hsame : ∀ l : List Nat, (∀ t ∈ l, D t) → s ∉ l →
            ∀ t ∈ l, nodes (NodeStore.freeNode s c) t = nodes c t := fun l hD hsl t ht =>
          hfreed.kept t (hdata t (hD t ht)) fun hts => hsl (List.mem_singleton.mp hts ▸ ht)
        refine ⟨s :: l, hfreed.trans (by simpa using hdata s hs) hl, ?_, fun hnodup => ?_,
          fun slots hslots hnodup => ?_⟩
        · intro t ht
          rcases List.mem_cons.mp ht with rfl | ht
          · exact .first
          · exact .next hnode (hon t ht)
        · obtain ⟨hsl, hnodup'⟩ := List.nodup_cons.mp hnodup
          have hD : ∀ t ∈ l, D t := fun t ht => (hon t ht).within hc hnext
          exact .cons hnode ((hends hnodup').congr fun t ht _ => by rw [hsame l hD hsl t ht])
        · cases hslots with
          | stop hstop => exact absurd hnode (hstop fi)
          | @cons _ fi' slots hfi hrest =>
            obtain rfl : fi' = fi := VaultNode.fileIndex.inj (Option.some.inj (hfi.symm.trans hnode))
            obtain ⟨hsl, hnodup'⟩ := List.nodup_cons.mp hnodup
            have hD : ∀ t ∈ slots, D t := fun t ht => ((hrest.mem_iff t).mp ht).within hc hnext
            rw [huniq slots (hrest.congr fun t ht _ => by rw [hsame slots hD hsl t ht]) hnodup']
      next hread =>
        rw [freeNode_run_ok] at h₁
        subst h₁
        have hstop : ∀ fi, nodes c s ≠ some (.fileIndex fi) := fun fi hfi =>
          hread fi ((readNode_ok (hdata s hs)).mpr hfi)
        refine ⟨[s], hfreed, fun t ht => ?_, fun _ => .stop hstop, fun slots hslots _ => ?_⟩
        · rw [List.mem_singleton.mp ht]
          exact .first
        · cases hslots with
          | stop => rfl
          | cons hfi _ => exact absurd hfi (hstop _)

end Freeing

/-! ## The slots of a file -/

/-- The slots that hold a byte or an index of the file with the head `head`: on the disk, and
    in the slot maps of its open handles. -/
inductive Held (s : VenomFuse σ) (head : Nat) (fb : FileBlock) : Nat → Prop
  | head : Held s head fb head
  | data {t : Nat} : t ∈ fb.dataSlots → Held s head fb t
  | block {t : Nat} : OnChain (nodes s.container) fb.indexChain t → Held s head fb t
  | listed {b t : Nat} {fi : FileIndexBlock} : OnChain (nodes s.container) fb.indexChain b →
      nodes s.container b = some (.fileIndex fi) → t ∈ fi.slotIds → Held s head fb t
  | handle {fh t : Nat} {f : OpenFile} : s.openFiles.get fh = some f → f.headSlot = head →
      some t ∈ f.slotMap → Held s head fb t

/-- Each slot of the file is named exactly once among its head, the ids in the head, its index
    blocks and the free list; and what is not in the first three holds nothing. -/
def Accounted (s : VenomFuse σ) (head : Nat) (fb : FileBlock) : Prop :=
  ∃ blocks, ChainEnds (nodes s.container) fb.indexChain blocks ∧ ∀ t, Held s head fb t →
    (fb.dataSlots ++ (blocks ++ [head]) ++ free s.container).count t = 1 ∧
      (t ∈ fb.dataSlots ++ (blocks ++ [head]) ∨ nodes s.container t = none)

section Unlinking

variable {D : Nat → Prop} {s s' : VenomFuse σ}

omit [NodeStore σ] in
theorem Held.within {head : Nat} {fb : FileBlock} {t : Nat} (hs : DriverWithin D s) (hhead : D head)
    (hfile : nodes s.container head = some (.file fb)) (h : Held s head fb t) : D t := by
  have hrefs := hs.container.refs head _ hhead hfile
  simp only [refs, List.mem_append, Option.mem_toList] at hrefs
  have hon : ∀ {b}, OnChain (nodes s.container) fb.indexChain b → D b := fun hb =>
    hb.within hs.container fun u hu => hrefs u (.inr hu)
  cases h with
  | head => exact hhead
  | data ht => exact hrefs t (.inl ht)
  | block ht => exact hon ht
  | listed hb hfi ht => exact hs.container.refs _ _ (hon hb) hfi t (List.mem_append_left _ ht)
  | handle hf _ ht => exact (hs.handles _ _ hf).slots t ht

variable [WipingNodeStore σ]

/-- What an unlink frees: the ids in the head, the chain as far as it is read once these are
    gone, and the head. -/
theorem opUnlink_freed {parent pSlot : Nat} {name : String} {d : DirectoryBlock} {e : DirEntry}
    {fb : FileBlock} (hs : DriverWithin D s) (hp : s.inodes.slotOf parent = some pSlot)
    (hd : nodes s.container pSlot = some (.directory d)) (he : entryOf d name = some e)
    (hfile : nodes s.container e.slot = some (.file fb))
    (hrun : (opUnlink parent name).run s = .ok () s') :
    ∃ s₁ c₂ l, Removed s s₁ pSlot d name e ∧ Freed s₁.container c₂ fb.dataSlots ∧
      (∀ t ∈ l, OnChain (nodes c₂) fb.indexChain t) ∧
      (l.Nodup → ChainEnds (nodes c₂) fb.indexChain l) ∧
      (∀ slots, ChainEnds (nodes c₂) fb.indexChain slots → slots.Nodup → l = slots) ∧
      Freed s₁.container s'.container (fb.dataSlots ++ (l ++ [e.slot])) := by
  have hdata : ∀ t, D t → IsDataSlot s.container t := fun t ht => by
    rw [hs.container.dataSlot]; exact ht
  have hpD := hs.inodes parent pSlot hp
  obtain ⟨_, s₀, hslot, h₀⟩ := run_bind_ok.mp hrun
  obtain ⟨hp', rfl⟩ := slotOfIno_ok.mp hslot
  rw [hp] at hp'
  cases hp'
  obtain ⟨removed, s₁, hremove, h₁⟩ := run_bind_ok.mp h₀
  have hs₁ := ((dirRemoveEntry_keeps hpD name).ok hs hremove).1
  obtain ⟨d', e', hremoved, rfl⟩ := dirRemoveEntry_ok (hdata _ hpD) hremove
  obtain rfl : d' = d := VaultNode.directory.inj (Option.some.inj (hremoved.dir.symm.trans hd))
  obtain rfl : e' = e := Option.some.inj (hremoved.entry.symm.trans he)
  have heD : D e'.slot := hs.container.refs _ _ hpD hd _ (List.mem_map_of_mem (entryOf_mem he).1)
  have hne : e'.slot ≠ pSlot := fun heq => by rw [heq, hd] at hfile; cases hfile
  have hfile₁ : nodes s₁.container e'.slot = some (.file fb) := by
    rw [hremoved.others _ (hdata _ heD) hne, hfile]
  have hdata₁ : ∀ t, D t → IsDataSlot s₁.container t := fun t ht =>
    hremoved.same.isDataSlot.mpr (hdata t ht)
  have hrefs := hs.container.refs _ _ heD hfile
  simp only [refs, List.mem_append, Option.mem_toList] at hrefs
  obtain ⟨_, s₂, hevict, h₂⟩ := run_bind_ok.mp h₁
  cases hevict
  obtain ⟨_, s₃, hget, h₃⟩ := run_bind_ok.mp h₂
  cases hget
  dsimp only at h₃
  rw [(readNode_ok (hdata₁ _ heD)).mpr hfile₁] at h₃
  obtain ⟨_, s₄, hids, h₄⟩ := run_bind_ok.mp h₃
  obtain ⟨c₂, hids', rfl⟩ := liftStore_ok.mp hids
  have hfreed₂ := freeNodes_freed (fun t ht => hdata₁ t (hrefs t (.inl ht))) hids'
  have hc₂ : StoreWithin D c₂ :=
    ((Keeps.forM fun t ht => freeNode_keeps (hrefs t (.inl ht))).ok hs₁.container hids').1
  obtain ⟨_, s₅, hchain, h₅⟩ := run_bind_ok.mp h₄
  obtain ⟨c₃, hchain', rfl⟩ := liftStore_ok.mp hchain
  obtain ⟨_, _, hgetc, hchain''⟩ := run_bind_ok.mp hchain'
  cases hgetc
  obtain ⟨l, hfreed₃, hmem, hends, huniq⟩ :=
    freeChainFrom_freed hc₂ (fun t ht => hrefs t (.inr ht)) hchain''
  obtain ⟨_, s₆, hhead, h₆⟩ := run_bind_ok.mp h₅
  obtain ⟨c₄, hhead', rfl⟩ := liftStore_ok.mp hhead
  rw [freeNode_run_ok] at hhead'
  subst hhead'
  cases h₆
  have hl : ∀ t ∈ l, IsDataSlot c₂ t := fun t ht => by
    rw [hc₂.dataSlot]
    exact (hmem t ht).within hc₂ fun u hu => hrefs u (.inr hu)
  have hfreed₄ := freeNode_freed (c := c₃) (hfreed₃.same.isDataSlot.mpr
    (hfreed₂.same.isDataSlot.mpr (hdata₁ _ heD)))
  exact ⟨s₁, c₂, l, hremoved, hfreed₂, hmem, hends, huniq,
    hfreed₂.trans (fun t ht => hdata₁ t (hrefs t (.inl ht))) (hfreed₃.trans hl hfreed₄)⟩

omit [WipingNodeStore σ] in
/-- Taking an entry out leaves all index blocks. -/
theorem Removed.index_iff {s₁ : VenomFuse σ} {pSlot : Nat} {d : DirectoryBlock} {name : String}
    {e : DirEntry} (h : Removed s s₁ pSlot d name e) {t : Nat} (ht : IsDataSlot s.container t)
    (fi : FileIndexBlock) : nodes s₁.container t = some (.fileIndex fi) ↔
      nodes s.container t = some (.fileIndex fi) := by
  by_cases htp : t = pSlot
  · rw [htp, h.node, h.dir]
    simp
  · rw [h.others t ht htp]

omit [WipingNodeStore σ] in
/-- A slot holds nothing after an entry was taken out only if it held nothing before. -/
theorem Removed.none_iff {s₁ : VenomFuse σ} {pSlot : Nat} {d : DirectoryBlock} {name : String}
    {e : DirEntry} (h : Removed s s₁ pSlot d name e) {t : Nat} (ht : IsDataSlot s.container t) :
    nodes s₁.container t = none ↔ nodes s.container t = none := by
  by_cases htp : t = pSlot
  · rw [htp, h.node, h.dir]
    simp
  · rw [h.others t ht htp]

/-- Slots named once in two lists are distinct, and in one of them only. -/
theorem nodup_of_count {ids l : List Nat} (h : ∀ t ∈ l, ids.count t + l.count t ≤ 1) :
    l.Nodup ∧ ∀ t ∈ l, t ∉ ids := by
  refine ⟨List.nodup_iff_count_le_one.mpr fun t => ?_, fun t ht hids => ?_⟩
  · by_cases ht : t ∈ l
    · have := h t ht
      omega
    · simp [List.count_eq_zero_of_not_mem ht]
  · have := h t ht
    have := List.count_pos_iff.mpr ht
    have := List.count_pos_iff.mpr hids
    omega

/-- An unlink wipes every slot of the file and gives each back once exactly when each is named
    once by the file's head, its index blocks and the free list. -/
theorem unlink_reclaims {root : Nat} (hr : Reached root s) {parent pSlot : Nat} {name : String}
    {d : DirectoryBlock} {e : DirEntry} {fb : FileBlock}
    (hp : s.inodes.slotOf parent = some pSlot)
    (hd : nodes s.container pSlot = some (.directory d)) (he : entryOf d name = some e)
    (hfile : nodes s.container e.slot = some (.file fb))
    (hrun : (opUnlink parent name).run s = .ok () s') :
    (∀ t, Held s e.slot fb t →
      nodes s'.container t = none ∧ (free s'.container).count t = 1) ↔ Accounted s e.slot fb := by
  obtain ⟨hs, -⟩ := hr.within
  have hpD := hs.inodes parent pSlot hp
  have heD : IsDataSlot s.container e.slot :=
    hs.container.refs _ _ hpD hd _ (List.mem_map_of_mem (entryOf_mem he).1)
  have hheld : ∀ t, Held s e.slot fb t → IsDataSlot s.container t := fun t ht =>
    ht.within hs heD hfile
  obtain ⟨s₁, c₂, l, hremoved, hfreed₂, hmem, hends, huniq, hfreed⟩ :=
    opUnlink_freed hs hp hd he hfile hrun
  have hperm : (free s'.container).Perm (fb.dataSlots ++ (l ++ [e.slot]) ++ free s.container) := by
    rw [← hremoved.free]
    exact hfreed.free
  -- the index blocks that are no ids of the head are there when the chain is read
  have hindex : ∀ t, IsDataSlot s.container t → t ∉ fb.dataSlots → ∀ fi,
      nodes c₂ t = some (.fileIndex fi) ↔ nodes s.container t = some (.fileIndex fi) := by
    intro t ht hnot fi
    rw [hfreed₂.kept t (hremoved.same.isDataSlot.mpr ht) hnot]
    exact hremoved.index_iff ht fi
  -- a slot that is neither freed nor blank keeps its node
  have hwiped : ∀ t, IsDataSlot s.container t → (nodes s'.container t = none ↔
      t ∈ fb.dataSlots ++ (l ++ [e.slot]) ∨ nodes s.container t = none) := by
    intro t ht
    by_cases htl : t ∈ fb.dataSlots ++ (l ++ [e.slot])
    · simp [hfreed.wiped t htl, htl]
    · rw [hfreed.kept t (hremoved.same.isDataSlot.mpr ht) htl, hremoved.none_iff ht]
      simp [htl]
  constructor
  · intro hreclaimed
    have hon : ∀ t ∈ l, OnChain (nodes s.container) fb.indexChain t := by
      intro t ht
      refine (hmem t ht).mono hs.container (fun u hu fi hfi => ?_) fun u hu => ?_
      · exact (hremoved.index_iff hu fi).mp (hfreed₂.unwiped (hremoved.same.isDataSlot.mpr hu) hfi)
      · exact hs.container.refs _ _ heD hfile u (List.mem_append_right _ (Option.mem_toList.mpr hu))
    have hcount : ∀ t ∈ l, fb.dataSlots.count t + l.count t ≤ 1 := by
      intro t ht
      have := (hreclaimed t (.block (hon t ht))).2
      rw [hperm.count_eq] at this
      simp only [List.count_append] at this
      omega
    obtain ⟨hnodup, hnot⟩ := nodup_of_count hcount
    refine ⟨l, (hends hnodup).congr fun t ht fi => ?_, fun t ht => ?_⟩
    · exact (hindex t (hheld t (.block (hon t ht))) (hnot t ht) fi).symm
    · obtain ⟨hnone, hone⟩ := hreclaimed t ht
      exact ⟨by rw [← hperm.count_eq]; exact hone, (hwiped t (hheld t ht)).mp hnone⟩
  · rintro ⟨blocks, hblocks, haccounted⟩
    have hcount : ∀ t ∈ blocks, fb.dataSlots.count t + blocks.count t ≤ 1 := by
      intro t ht
      have := (haccounted t (.block ((hblocks.mem_iff t).mp ht))).1
      simp only [List.count_append] at this
      omega
    obtain ⟨hnodup, hnot⟩ := nodup_of_count hcount
    obtain rfl : l = blocks := huniq blocks (hblocks.congr fun t ht fi =>
      hindex t (hheld t (.block ((hblocks.mem_iff t).mp ht))) (hnot t ht) fi) hnodup
    intro t ht
    obtain ⟨hone, hnone⟩ := haccounted t ht
    exact ⟨(hwiped t (hheld t ht)).mpr hnone, by rw [hperm.count_eq]; exact hone⟩

end Unlinking

/-! ## A file of two chunks -/

/-- The slots that a file lists, and the first block of its index chain. -/
def fileSlots : VaultNode → Option (List Nat × Option Nat)
  | .directory _ => none
  | .file fb => some (fb.dataSlots, fb.indexChain)
  | .fileData _ => none
  | .fileIndex _ => none

/-- The file of `withNotes` has got a second chunk, and is closed. -/
def withChunk : VenomFuse Volume :=
  after (DriverCall.release .listed 1).run
    (after (DriverCall.write .listed 1 chunkSize [9]).run withNotes)

theorem withChunk_reached : Reached 0 withChunk := .call _ (.call _ withNotes_reached)

/-- It is deleted: its head and its other slot are wiped, and each is free again once. -/
theorem unlink_reclaims_chunk : ∃ s' : VenomFuse Volume,
    (opUnlink 1 "notes").run withChunk = .ok () s' ∧
      ∀ t ∈ [1, 2], nodes s'.container t = none ∧ (free s'.container).count t = 1 := by
  obtain ⟨hroot, hdir, hfile, hopen, hfree, hrun⟩ : withChunk.inodes.slotOf 1 = some 0 ∧
      nodes withChunk.container 0 =
        some (.directory { kind := .directory, entries := [⟨"notes", 1, .file⟩] }) ∧
      (nodes withChunk.container 1).bind fileSlots = some ([2], none) ∧
      withChunk.openFiles.entries.isEmpty = true ∧ free withChunk.container = [7, 6, 5, 4, 3] ∧
      valueOf (opUnlink 1 "notes") withChunk = some () := by
    decide +kernel
  obtain ⟨node, hnode, hlisted⟩ := Option.bind_eq_some_iff.mp hfile
  obtain ⟨fb, rfl⟩ : ∃ fb, node = .file fb := by
    cases node with
    | file fb => exact ⟨fb, rfl⟩
    | directory d => cases hlisted
    | fileData d => cases hlisted
    | fileIndex fi => cases hlisted
  obtain ⟨hids, hchain⟩ := Prod.mk.inj (Option.some.inj hlisted)
  change fb.dataSlots = [2] at hids
  change fb.indexChain = none at hchain
  have hdone := run_of_valueOf hrun
  refine ⟨_, hdone, fun t ht => (unlink_reclaims withChunk_reached hroot hdir rfl hnode hdone).mpr
    ⟨[], by rw [hchain]; exact .nil, fun u hu => ?_⟩ t ?_⟩
  · rw [hids, hfree]
    cases hu with
    | head => decide
    | data hmem =>
      rw [hids] at hmem
      rw [List.mem_singleton.mp hmem]
      decide
    | block hon => rw [hchain] at hon; cases hon
    | listed hon => rw [hchain] at hon; cases hon
    | handle hf =>
      have hmem := (HashMap.get_eq_some _ _ _).mp hf
      rw [List.isEmpty_iff.mp hopen] at hmem
      cases hmem
  · rcases List.mem_cons.mp ht with rfl | ht
    · exact .head
    · exact .data (by rw [hids]; exact ht)

/-! ## A slot only a handle knows -/

/-- Two chunks are written on a volume with one slot left: the flush fails, and one of the
    chunks has the slot. -/
def halfFlushed : VenomFuse Volume :=
  let s := after (DriverCall.create 1 "notes").run
    (VenomFuse.new 0 (Volume.fresh .xchacha20Poly1305 3))
  let s := after (DriverCall.write .listed 1 chunkSize [9]).run s
  let s := after (DriverCall.write .listed 1 (2 * chunkSize) [9]).run s
  after (DriverCall.flush .listed 1).run s

/-- The slot of that chunk is neither wiped nor given back when the file is deleted. -/
theorem unlink_loses_slot : ¬ ∀ (root parent pSlot : Nat) (s s' : VenomFuse Volume) (name : String)
    (d : DirectoryBlock) (e : DirEntry) (fb : FileBlock), Reached root s →
    s.inodes.slotOf parent = some pSlot → nodes s.container pSlot = some (.directory d) →
    entryOf d name = some e → nodes s.container e.slot = some (.file fb) →
    (opUnlink parent name).run s = .ok () s' → ∀ t, Held s e.slot fb t →
      nodes s'.container t = none ∧ (free s'.container).count t = 1 := by
  intro h
  have hreached : Reached 0 halfFlushed :=
    .call _ (.call _ (.call _ (.call _ (.fresh _ (by decide)))))
  obtain ⟨hroot, hdir, hfile, hslot, hrun, hfree⟩ : halfFlushed.inodes.slotOf 1 = some 0 ∧
      nodes halfFlushed.container 0 =
        some (.directory { kind := .directory, entries := [⟨"notes", 1, .file⟩] }) ∧
      nodes halfFlushed.container 1 = some (.file
        { kind := .file, totalSize := 0, dataSlots := [], indexChain := none, data := [] }) ∧
      (halfFlushed.openFiles.get 1).any (fun f => f.headSlot = 1 ∧ some 2 ∈ f.slotMap) = true ∧
      valueOf (opUnlink 1 "notes") halfFlushed = some () ∧
      (free (after (opUnlink 1 "notes") halfFlushed).container).count 2 = 0 := by
    decide +kernel
  cases hf : halfFlushed.openFiles.get 1 with
  | none => rw [hf] at hslot; cases hslot
  | some f =>
    rw [hf] at hslot
    obtain ⟨hhead, hmem⟩ := of_decide_eq_true hslot
    have hlost := (h 0 1 0 halfFlushed _ "notes" _ ⟨"notes", 1, .file⟩ _ hreached hroot hdir rfl
      hfile (run_of_valueOf hrun) 2 (.handle hf hhead hmem)).2
    rw [hfree] at hlost
    cases hlost

end Venom.Fuse

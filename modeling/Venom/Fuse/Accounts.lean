import Venom.Fuse.Handle

/-! # Slot accounting

Every slot a file uses is either owned or free, and a container call moves slots
between the two: `Accounts` says that the free list and a list of owned slots are
disjoint, duplicate-free and made of data slots; `Moves` that a computation turned one
owned list into another without losing or inventing a slot and without touching a slot
outside.  Both are kept by composition, so a whole flush is accounted for call by call.
-/

namespace Venom.Fuse

open Venom.Storage
open Venom.Library.StateError

variable {σ : Type}

/-! ## Calls behind a handle -/

theorem onContainer_ok {α : Type} {x : StoreM σ α} {h h' : Handle σ} {a : α} :
    (onContainer x).run h = .ok a h' ↔
      ∃ c', x.run h.container = .ok a c' ∧ h' = { h with container := c' } := by
  change onContainer x h = _ ↔ _
  unfold onContainer
  cases x.run h.container with
  | ok b c => simp [eq_comm]
  | error e c => simp

theorem modifyFile_ok {g : OpenFile → OpenFile} {h h' : Handle σ} {u : Unit} :
    (modifyFile g).run h = .ok u h' ↔ h' = { h with file := g h.file } := by
  unfold modifyFile
  rw [run_modify]
  simp [eq_comm]

variable [NodeStore σ] [NodeView σ]

structure Accounts (c : σ) (own : List Nat) : Prop where
  nodup : (free c ++ own).Nodup
  dataSlot : ∀ s ∈ free c ++ own, IsDataSlot c s

structure Moves (c c' : σ) (own own' : List Nat) : Prop where
  same : SameVolume c c'
  perm : (free c' ++ own').Perm (free c ++ own)
  agree : ∀ t, IsDataSlot c t → t ∉ free c → t ∉ own → nodes c' t = nodes c t

namespace Accounts

variable {c : σ} {own : List Nat}

omit [NodeStore σ]

theorem isDataSlot (h : Accounts c own) {s : Nat} (hs : s ∈ own) : IsDataSlot c s :=
  h.dataSlot s (List.mem_append_right _ hs)

theorem not_free (h : Accounts c own) {s : Nat} (hs : s ∈ own) : s ∉ free c := fun hf =>
  (List.nodup_append.mp h.nodup).2.2 s hf s hs rfl

theorem nodup_own (h : Accounts c own) : own.Nodup := (List.nodup_append.mp h.nodup).2.1

theorem nodup_free (h : Accounts c own) : (free c).Nodup := (List.nodup_append.mp h.nodup).1

theorem of_perm {own' : List Nat} (h : Accounts c own) (hp : own'.Perm own) : Accounts c own' :=
  ⟨(hp.append_left _).nodup_iff.mpr h.nodup,
   fun s hs => h.dataSlot s ((hp.append_left _).mem_iff.mp hs)⟩

/-- Forgetting owned slots. -/
theorem sublist {own' : List Nat} (h : Accounts c own) (hs : own'.Sublist own) : Accounts c own' :=
  ⟨h.nodup.sublist (hs.append_left _), fun s hm => h.dataSlot s ((hs.append_left _).subset hm)⟩

end Accounts

namespace Moves

variable {c c' c'' : σ} {own own' own'' : List Nat}

theorem refl (c : σ) (own : List Nat) : Moves c c own own :=
  ⟨.refl c, .refl _, fun _ _ _ _ => rfl⟩

theorem accounts (h : Moves c c' own own') (ha : Accounts c own) : Accounts c' own' :=
  ⟨h.perm.nodup_iff.mpr ha.nodup,
   fun s hs => h.same.isDataSlot.mpr (ha.dataSlot s (h.perm.mem_iff.mp hs))⟩

/-- A slot neither free nor owned stays so. -/
theorem not_mem (h : Moves c c' own own') {t : Nat} (hf : t ∉ free c) (ho : t ∉ own) :
    t ∉ free c' ∧ t ∉ own' := by
  have hout : t ∉ free c' ++ own' := fun hm => by
    rcases List.mem_append.mp (h.perm.mem_iff.mp hm) with hm | hm
    · exact hf hm
    · exact ho hm
  exact ⟨fun hm => hout (List.mem_append_left _ hm), fun hm => hout (List.mem_append_right _ hm)⟩

theorem trans (h : Moves c c' own own') (h' : Moves c' c'' own' own'') : Moves c c'' own own'' where
  same := h.same.trans h'.same
  perm := h'.perm.trans h.perm
  agree t ht hf ho := by
    obtain ⟨hf', ho'⟩ := h.not_mem hf ho
    rw [h'.agree t (h.same.isDataSlot.mpr ht) hf' ho', h.agree t ht hf ho]

theorem congr {own₁ own₁' : List Nat} (h : Moves c c' own own') (hp : own₁.Perm own)
    (hp' : own₁'.Perm own') : Moves c c' own₁ own₁' where
  same := h.same
  perm := ((hp'.append_left _).trans h.perm).trans (hp.symm.append_left _)
  agree t ht hf ho := h.agree t ht hf (fun hm => ho (hp.mem_iff.mpr hm))

end Moves

/-! ## The container calls -/

section Calls

variable [LawfulNodeStore σ]

theorem readNode_inv {c c' : σ} {s : Nat} {n : VaultNode}
    (h : (readNode s).run c = .ok n c') : c' = c ∧ (IsDataSlot c s → nodes c s = some n) := by
  change readNode s c = _ at h
  unfold readNode at h
  split at h
  next m hread => cases h; exact ⟨rfl, fun hs => (readNode_ok hs).mp hread⟩
  next => contradiction

theorem readNode_run {c : σ} {s : Nat} {n : VaultNode} (hs : IsDataSlot c s)
    (hn : nodes c s = some n) : (readNode s).run c = .ok n c := by
  change readNode s c = _
  unfold readNode
  rw [(readNode_ok hs).mpr hn]

theorem updateNode_run {c : σ} {s : Nat} {n : VaultNode} (hfits : Fits (NodeStore.cipher c) n) :
    ∃ c', (updateNode s n).run c = .ok () c' := by
  obtain ⟨c', hc'⟩ := updateNode_isOk (s := s) hfits
  exact ⟨c', by rw [updateNode, EStateM.run_adaptExcept, hc']⟩

omit [NodeView σ] [LawfulNodeStore σ] in
theorem updateNode_store {c c' : σ} {s : Nat} {n : VaultNode}
    (h : (updateNode s n).run c = .ok () c') : (NodeStore.updateNode s n).run c = .ok () c' := by
  rw [updateNode, EStateM.run_adaptExcept] at h
  cases hr : (NodeStore.updateNode s n).run c <;> rw [hr] at h <;> simp_all

omit [NodeView σ] [LawfulNodeStore σ] in
theorem writeNode_store {c c' : σ} {s : Nat} {n : VaultNode}
    (h : (writeNode n).run c = .ok s c') : (NodeStore.writeNode n).run c = .ok s c' := by
  rw [writeNode, EStateM.run_adaptExcept] at h
  cases hr : (NodeStore.writeNode n).run c <;> rw [hr] at h <;> simp_all

omit [NodeView σ] [LawfulNodeStore σ] in
theorem writeNode_failed {c c' : σ} {n : VaultNode} {e : Failure}
    (h : (writeNode n).run c = .error e c') :
    ∃ e', (NodeStore.writeNode n).run c = .error e' c' := by
  rw [writeNode, EStateM.run_adaptExcept] at h
  cases hr : (NodeStore.writeNode n).run c with
  | ok s c₁ => rw [hr] at h; cases h
  | error e' c₁ => rw [hr] at h; cases h; exact ⟨e', rfl⟩

theorem updateNode_failed {c c' : σ} {s : Nat} {n : VaultNode} {e : Failure}
    (h : (updateNode s n).run c = .error e c') :
    ¬ Fits (NodeStore.cipher c) n ∧ NodesAgree c c' ∧ free c' = free c ∧
      SameVolume c c' := by
  rw [updateNode, EStateM.run_adaptExcept] at h
  cases hr : (NodeStore.updateNode s n).run c with
  | ok u c₁ => rw [hr] at h; cases h
  | error e' c₁ => rw [hr] at h; cases h; exact LawfulNodeStore.updateNode_error hr

/-- What storing node `n` in slot `s` leaves. -/
structure Stored (c c' : σ) (s : Nat) (n : VaultNode) : Prop where
  fits : Fits (NodeStore.cipher c) n
  node : nodes c' s = some n
  others : NodesAgreeExcept s c c'

theorem updateNode_inv {c c' : σ} {s : Nat} {n : VaultNode} {own : List Nat}
    (h : (updateNode s n).run c = .ok () c') (ha : Accounts c own) (hs : s ∈ own) :
    Stored c c' s n ∧ Moves c c' own own ∧ free c' = free c := by
  obtain ⟨hfits, hnode, hfree, hothers, hsame⟩ :=
    LawfulNodeStore.updateNode_ok (updateNode_store h) (ha.isDataSlot hs)
  refine ⟨⟨hfits, hnode, hothers⟩, ⟨hsame, by rw [hfree], ?_⟩, hfree⟩
  exact fun t ht _ ho => hothers t ht (fun e => ho (e ▸ hs))

theorem writeNode_inv {c c' : σ} {s : Nat} {n : VaultNode} {own : List Nat}
    (h : (writeNode n).run c = .ok s c') (ha : Accounts c own) :
    Stored c c' s n ∧ Moves c c' own (s :: own) ∧ free c = free c' ++ [s] := by
  have hmem := LawfulNodeStore.writeNode_ok_free (writeNode_store h)
  obtain ⟨hfree, hfits, hnode, hothers, hsame⟩ := LawfulNodeStore.writeNode_ok (writeNode_store h)
    (ha.dataSlot s (List.mem_append_left _ hmem))
  refine ⟨⟨hfits, hnode, hothers⟩, ⟨hsame, ?_, ?_⟩, hfree⟩
  · rw [hfree, List.append_assoc, List.singleton_append]
  · exact fun t ht hf _ => hothers t ht (fun e => hf (e ▸ hmem))

theorem freeNode_inv {c : σ} {s : Nat} {own : List Nat} (ha : Accounts c (s :: own)) :
    NodesAgreeExcept s c (NodeStore.freeNode s c) ∧
      Moves c (NodeStore.freeNode s c) (s :: own) own := by
  obtain ⟨hfree, hothers, hsame⟩ :=
    LawfulNodeStore.freeNode_spec c s (ha.isDataSlot List.mem_cons_self)
  refine ⟨hothers, hsame, ?_, ?_⟩
  · rw [hfree]
    exact ((List.perm_orderedInsert _ s _).append_right own).trans List.perm_middle.symm
  · exact fun t ht _ ho => hothers t ht (fun e => ho (e ▸ List.mem_cons_self))

end Calls

end Venom.Fuse

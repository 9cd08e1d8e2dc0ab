import Venom.Library.LinkWalk
import Venom.Fuse.IndexChain

/-! # Chains as they are found

A container that is damaged or hostile may hold any index blocks.  Reading a slot map
follows them as they stand; freeing a chain wipes each block behind it.

As long as no block leads back to itself, both loops end in time and every slot is freed
once.  Where one does, reading never ends, and freeing comes to a wiped slot, which it frees
again.
-/

namespace Venom.Fuse

open Venom.Storage
open Venom.Library.StateError
open Venom.Library.LinkWalk

variable {σ : Type} [NodeStore σ]

/-- The link of an index block. -/
def blockLink : Option VaultNode → Option (Option Nat)
  | some (.fileIndex fi) => some fi.nextIndex
  | _ => none

/-- The link in a slot; `none` where the slot holds no index block. -/
def linkOf (c : σ) (slot : Nat) : Option (Option Nat) := blockLink (NodeStore.readNode slot c).toOption

/-- The chain a head slot points to. -/
def chainOf (c : σ) (head : Nat) : Option Nat :=
  match NodeStore.readNode head c with
  | .ok (.file fb) => fb.indexChain
  | _ => none

theorem linkOf_eq_some {c : σ} {slot : Nat} {next : Option Nat} :
    linkOf c slot = some next ↔
      ∃ fi, NodeStore.readNode slot c = .ok (.fileIndex fi) ∧ fi.nextIndex = next := by
  unfold linkOf
  cases NodeStore.readNode slot c with
  | error e => simp [Except.toOption, blockLink]
  | ok n => cases n <;> simp [Except.toOption, blockLink]

theorem readNode_run_of_ok {c : σ} {slot : Nat} {n : VaultNode}
    (h : NodeStore.readNode slot c = .ok n) : (readNode slot).run c = .ok n c := by
  change readNode slot c = _
  rw [readNode, h]

theorem readNode_run_of_error {c : σ} {slot : Nat} {e : VnmError}
    (h : NodeStore.readNode slot c = .error e) : (readNode slot).run c = .error eio c := by
  change readNode slot c = _
  rw [readNode, h]

/-! ## Reading -/

/-- The reads of the loop are the places of the walk. -/
theorem collectIndex_walk {c c' : σ} {first : Option Nat} {slots : List Nat} {fuel : Nat}
    (h : Walk (linkOf c) first slots) (hfuel : slots.length ≤ fuel) :
    (collectIndex fuel first).run c ≠ .error .diverges c' := by
  induction h generalizing fuel with
  | done =>
    cases fuel with
    | zero => exact fun hdiv => by cases hdiv
    | succ fuel => exact fun hdiv => by cases hdiv
  | @stop slot hnone =>
    cases fuel with
    | zero => cases hfuel
    | succ fuel =>
      rw [collectIndex]
      cases hread : NodeStore.readNode slot c with
      | error e =>
        rw [run_bind_of_error (readNode_run_of_error hread)]
        exact fun hdiv => by cases hdiv
      | ok n =>
        rw [run_bind_of_ok (readNode_run_of_ok hread)]
        cases n with
        | fileIndex fi => cases hnone.symm.trans (linkOf_eq_some.mpr ⟨fi, hread, rfl⟩)
        | directory d => exact fun hdiv => by cases hdiv
        | file fb => exact fun hdiv => by cases hdiv
        | fileData d => exact fun hdiv => by cases hdiv
  | @step slot next rest hlink hrest ih =>
    cases fuel with
    | zero => cases hfuel
    | succ fuel =>
      obtain ⟨fi, hread, rfl⟩ := linkOf_eq_some.mp hlink
      have hih := @ih fuel (Nat.le_of_succ_le_succ hfuel)
      rw [collectIndex, run_bind_of_ok (readNode_run_of_ok hread)]
      intro hdiv
      rcases run_bind_error.mp hdiv with hdiv | ⟨ids, c₁, -, hret⟩
      · exact hih hdiv
      · cases hret

/-- `build_slot_map` returns, after at most as many reads as the volume has slots: that of the
    head, and one for every place of the walk. -/
def ReadsEnd (c : σ) (head : Nat) : Prop :=
  (∀ c', (buildSlotMap head).run c ≠ .error .diverges c') ∧
    ∃ slots, Walk (linkOf c) (chainOf c head) slots ∧ (head :: slots).length ≤ NodeStore.slotCount c

theorem buildSlotMap_walk {c c' : σ} {head : Nat} {slots : List Nat}
    (h : Walk (linkOf c) (chainOf c head) slots) (hlen : slots.length ≤ NodeStore.slotCount c) :
    (buildSlotMap head).run c ≠ .error .diverges c' := by
  unfold buildSlotMap
  cases hread : NodeStore.readNode head c with
  | error e =>
    rw [run_bind_of_error (readNode_run_of_error hread)]
    nofun
  | ok n =>
    rw [run_bind_of_ok (readNode_run_of_ok hread)]
    cases n with
    | directory d => nofun
    | fileData d => nofun
    | fileIndex fi => nofun
    | file fb =>
      have hchain : chainOf c head = fb.indexChain := by rw [chainOf, hread]
      rw [hchain] at h
      change (get >>= fun c => _ : StoreM σ _).run c ≠ _
      rw [run_bind_of_ok run_get]
      intro hdiv
      rcases run_bind_error.mp hdiv with hdiv | ⟨ids, c₁, -, hret⟩
      · exact collectIndex_walk h (Nat.le_succ_of_le hlen) hdiv
      · cases hret

section Reading

variable [NodeView σ]

theorem length_blocks {c : σ} (hc : NodeSlots c) {l : List Nat} (hnodup : l.Nodup)
    (hl : ∀ s ∈ l, (linkOf c s).isSome) : l.length ≤ NodeStore.slotCount c := by
  refine Nat.le_of_lt (hc.spare l hnodup fun s hs => ?_)
  obtain ⟨next, hlink⟩ := Option.isSome_iff_exists.mp (hl s hs)
  obtain ⟨fi, hread, -⟩ := linkOf_eq_some.mp hlink
  exact ⟨_, hread⟩

/-- The head and the blocks are different slots that hold nodes; the walk may read one more. -/
theorem length_reads {c : σ} (hc : NodeSlots c) {head : Nat} {slots : List Nat}
    (h : Walk (linkOf c) (chainOf c head) slots) :
    (head :: slots).length ≤ NodeStore.slotCount c := by
  cases hread : NodeStore.readNode head c with
  | error e =>
    rw [chainOf, hread] at h
    cases h
    exact hc.spare [] List.nodup_nil nofun
  | ok n =>
    have hnil : (∀ fb, n ≠ .file fb) → (head :: slots).length ≤ NodeStore.slotCount c := by
      intro hn
      have hchain : chainOf c head = none := by
        rw [chainOf, hread]
        cases n with
        | file fb => exact absurd rfl (hn fb)
        | directory d => rfl
        | fileData d => rfl
        | fileIndex fi => rfl
      rw [hchain] at h
      cases h
      exact hc.spare [] List.nodup_nil nofun
    cases n with
    | directory d => exact hnil nofun
    | fileData d => exact hnil nofun
    | fileIndex fi => exact hnil nofun
    | file fb =>
      obtain ⟨blocks, tail, hsplit, htail, hblocks⟩ := h.split
      have hnodup : blocks.Nodup := (List.nodup_append.mp (hsplit ▸ h.nodup)).1
      have hnodes : ∀ s ∈ blocks, ∃ fi, NodeStore.readNode s c = .ok (.fileIndex fi) := by
        intro s hs
        obtain ⟨next, hlink⟩ := Option.isSome_iff_exists.mp (hblocks s hs)
        obtain ⟨fi, hfi, -⟩ := linkOf_eq_some.mp hlink
        exact ⟨fi, hfi⟩
      have hhead : head ∉ blocks := fun hmem => by
        obtain ⟨fi, hfi⟩ := hnodes head hmem
        cases hread.symm.trans hfi
      have hlt := hc.spare (head :: blocks) (List.nodup_cons.mpr ⟨hhead, hnodup⟩) fun s hs => by
        rcases List.mem_cons.mp hs with rfl | hs
        · exact ⟨_, hread⟩
        · obtain ⟨fi, hfi⟩ := hnodes s hs
          exact ⟨_, hfi⟩
      rw [hsplit]
      simp only [List.length_cons, List.length_append] at hlt ⊢
      omega

theorem readsEnd_iff {c : σ} (hc : NodeSlots c) {head : Nat} :
    ReadsEnd c head ↔ NoReturn (linkOf c) (chainOf c head) := by
  constructor
  · rintro ⟨-, slots, hwalk, -⟩
    exact hwalk.noReturn
  · intro hback
    obtain ⟨slots, hwalk⟩ := exists_walk (fun l => length_blocks hc) hback
    have hlen := length_reads hc hwalk
    refine ⟨fun c' => buildSlotMap_walk hwalk ?_, slots, hwalk, hlen⟩
    rw [List.length_cons] at hlen
    omega

end Reading

/-! ## Freeing -/

section Freeing

variable [NodeView σ] [WipingNodeStore σ] [FreeingNodeStore σ]

/-- The store after some slots have been freed one after another. -/
def freed (slots : List Nat) (c : σ) : σ := slots.foldl (fun c s => NodeStore.freeNode s c) c

/-- A wiped slot is no block any more, and the others are what they were. -/
theorem linkOf_freeNode {c : σ} {slot : Nat} (hs : IsDataSlot c slot) :
    linkOf (NodeStore.freeNode slot c) = erase (linkOf c) slot := by
  obtain ⟨-, -, hsame⟩ := LawfulNodeStore.freeNode_spec c slot hs
  funext t
  by_cases ht : t = slot
  · subst ht
    rw [erase_self, linkOf, LawfulNodeStore.readNode_eq _ _ (hsame.isDataSlot.mpr hs),
      WipingNodeStore.freeNode_wiped c t hs]
    rfl
  · rw [erase_of_ne ht, linkOf, FreeingNodeStore.readNode_freeNode c slot t hs ht, linkOf]

/-- The frees of the loop are the places of the walk that erases. -/
theorem freeChainFrom_walk {c : σ} {first : Option Nat} {slots : List Nat} {fuel : Nat}
    (h : EraseWalk (linkOf c) first slots)
    (hdata : ∀ s ∈ slots, (linkOf c s).isSome → IsDataSlot c s) (hfuel : slots.length ≤ fuel) :
    (freeChainFrom fuel first).run c = .ok () (freed slots c) := by
  induction slots generalizing c first fuel with
  | nil =>
    cases h
    cases fuel <;> rfl
  | cons slot rest ih =>
    cases fuel with
    | zero => cases hfuel
    | succ fuel =>
      cases h with
      | stop hnone =>
        rw [freeChainFrom, run_bind_of_ok run_get]
        cases hread : NodeStore.readNode slot c with
        | error e => rfl
        | ok n =>
          cases n with
          | fileIndex fi => cases hnone.symm.trans (linkOf_eq_some.mpr ⟨fi, hread, rfl⟩)
          | directory d => rfl
          | file fb => rfl
          | fileData d => rfl
      | step hlink hrest =>
        obtain ⟨fi, hread, rfl⟩ := linkOf_eq_some.mp hlink
        have hs := hdata slot List.mem_cons_self (by rw [hlink]; rfl)
        rw [← linkOf_freeNode hs] at hrest
        have hdata' : ∀ s ∈ rest, (linkOf (NodeStore.freeNode slot c) s).isSome →
            IsDataSlot (NodeStore.freeNode slot c) s := by
          intro s hmem hs'
          obtain ⟨-, -, hsame⟩ := LawfulNodeStore.freeNode_spec c slot hs
          rw [linkOf_freeNode hs] at hs'
          have hne : s ≠ slot := by
            rintro rfl
            rw [erase_self] at hs'
            cases hs'
          rw [erase_of_ne hne] at hs'
          exact hsame.isDataSlot.mpr (hdata s (List.mem_cons_of_mem _ hmem) hs')
        have hrun := @ih (NodeStore.freeNode slot c) fi.nextIndex fuel hrest hdata'
          (Nat.le_of_succ_le_succ hfuel)
        rw [freeChainFrom, run_bind_of_ok run_get, hread]
        exact (run_bind_of_ok run_modify).trans hrun

omit [WipingNodeStore σ] in
/-- Freeing adds the slots to the free list, each as often as it is freed. -/
theorem free_freed (slots : List Nat) (c : σ) : (free (freed slots c)).Perm (slots ++ free c) := by
  induction slots generalizing c with
  | nil => exact .refl _
  | cons slot rest ih =>
    have hrest := ih (NodeStore.freeNode slot c)
    rw [FreeingNodeStore.free_freeNode] at hrest
    exact (hrest.trans ((List.perm_orderedInsert _ slot _).append_left rest)).trans List.perm_middle

/-- `free_index_chain` returns, having freed every slot at most once, and the free list has no
    duplicates. -/
def FreesOnce (c : σ) (first : Option Nat) : Prop :=
  ∃ slots, (freeIndexChain first).run c = .ok () (freed slots c) ∧
    EraseWalk (linkOf c) first slots ∧ slots.Nodup ∧ (free (freed slots c)).Nodup

theorem freesOnce_iff {c : σ} (hc : NodeSlots c) (hfree : (free c).Nodup) {first : Option Nat}
    (hchain : ∀ s, OnChain (linkOf c) first s → s ∉ free c) :
    FreesOnce c first ↔ NoReturn (linkOf c) first := by
  have hfinite := fun l => @length_blocks σ _ _ c hc l
  constructor
  · rintro ⟨slots, -, hwalk, hnodup, -⟩
    exact (hwalk.nodup_iff hfinite).mp hnodup
  · intro hback
    obtain ⟨slots, hwalk, hlen⟩ := @exists_eraseWalk _ (linkOf c) first _ _ hfinite
    have hnodup := (hwalk.nodup_iff hfinite).mpr hback
    have hdata : ∀ s ∈ slots, (linkOf c s).isSome → IsDataSlot c s := by
      intro s _ hsome
      obtain ⟨next, hlink⟩ := Option.isSome_iff_exists.mp hsome
      obtain ⟨fi, hread, -⟩ := linkOf_eq_some.mp hlink
      exact hc.dataSlot s _ hread
    refine ⟨slots, ?_, hwalk, hnodup, ?_⟩
    · unfold freeIndexChain
      rw [run_bind_of_ok run_get]
      exact freeChainFrom_walk hwalk hdata hlen
    · rw [(free_freed slots c).nodup_iff]
      refine List.nodup_append.mpr ⟨hnodup, hfree, fun s hs t ht hst => ?_⟩
      -- every slot the loop frees is on the chain
      exact hchain s ((hwalk.walk hnodup).mem_iff.mp hs) (hst ▸ ht)

/-- Both loops do what they should exactly on the chains on which no index block leads back to
    itself. -/
theorem chain_walks_end_iff {c : σ} (hc : NodeSlots c) :
    (∀ head, ReadsEnd c head ↔ NoReturn (linkOf c) (chainOf c head)) ∧
      ∀ first, (free c).Nodup → (∀ s, OnChain (linkOf c) first s → s ∉ free c) →
        (FreesOnce c first ↔ NoReturn (linkOf c) first) :=
  ⟨fun _ => readsEnd_iff hc, fun _ hfree hchain => freesOnce_iff hc hfree hchain⟩

end Freeing

/-! ## Two chains -/

/-- A file in slot 0 whose first index block, in slot 1, links to a second one. -/
def chained (next : Option Nat) : Volume where
  cipher := .triple
  slotCount := 4
  nodes
    | 0 => some (headNode 0 [] (some 1) [])
    | 1 => some (indexNode [] (some 2))
    | 2 => some (indexNode [] next)
    | _ => none
  free := [3]

theorem chained_onChain {next : Option Nat} {s : Nat} (hnext : ∀ t ∈ next, t = 1)
    (h : OnChain (linkOf (chained next)) (some 1) s) : s = 1 ∨ s = 2 := by
  have hall : ∀ {first : Option Nat} {s : Nat}, OnChain (linkOf (chained next)) first s →
      (∀ t ∈ first, t = 1 ∨ t = 2) → s = 1 ∨ s = 2 := by
    intro first s hon
    induction hon with
    | here => exact fun hfirst => hfirst _ rfl
    | @there a b link hlink _ ih =>
      intro hfirst
      rcases hfirst a rfl with rfl | rfl
      · cases hlink
        exact ih fun t ht => .inr (Option.some.inj ht).symm
      · cases hlink
        exact ih fun t ht => .inl (hnext t ht)
  exact hall h fun t ht => .inl (Option.some.inj ht).symm

/-- The second block links back to the first: reading never ends, and freeing comes to the first
    slot again. -/
theorem chained_back :
    (buildSlotMap 0).run (chained (some 1)) = .error .diverges (chained (some 1)) ∧
      ¬ ReadsEnd (chained (some 1)) 0 ∧
      (free (chained (some 1))).Nodup ∧
      (∀ s, OnChain (linkOf (chained (some 1))) (some 1) s → s ∉ free (chained (some 1))) ∧
      (freeIndexChain (some 1)).run (chained (some 1)) = .ok () (freed [1, 2, 1] (chained (some 1))) ∧
      free (freed [1, 2, 1] (chained (some 1))) = [3, 2, 1, 1] := by
  refine ⟨rfl, ?_, by decide, fun s hs => ?_, rfl, rfl⟩
  · rintro ⟨-, slots, hwalk, -⟩
    exact hwalk.noReturn 1 (some 2) .here rfl (.there (show linkOf _ 2 = some (some 1) from rfl) .here)
  · rcases chained_onChain (fun t ht => (Option.some.inj ht).symm) hs with rfl | rfl <;> decide

/-- The second block is the last one. -/
theorem chained_straight : ReadsEnd (chained none) 0 ∧ FreesOnce (chained none) (some 1) := by
  have hheld : ∀ s n, NodeStore.readNode s (chained none) = .ok n → s < 3 := by
    intro s n h
    by_contra hs
    have hnone : (chained none).nodes s = none := by
      obtain ⟨k, rfl⟩ : ∃ k, s = k + 3 := ⟨s - 3, by omega⟩
      rfl
    change Volume.readNode s (chained none) = .ok n at h
    rw [Volume.readNode, hnone] at h
    cases h
  have hc : NodeSlots (chained none) :=
    { dataSlot := fun s n h => Nat.lt_succ_of_lt (hheld s n h)
      spare := fun slots hnodup hslots => by
        have hsub : slots ⊆ List.range 3 := fun s hs => by
          obtain ⟨n, hn⟩ := hslots s hs
          exact List.mem_range.mpr (hheld s n hn)
        exact Nat.lt_succ_of_le (hnodup.length_le_of_subset hsub) }
  have hwalk : Walk (linkOf (chained none)) (some 1) [1, 2] := .step rfl (.step rfl .done)
  obtain ⟨hreads, hfrees⟩ := chain_walks_end_iff hc
  refine ⟨(hreads 0).mpr hwalk.noReturn, (hfrees (some 1) (by decide) fun s hs => ?_).mpr hwalk.noReturn⟩
  rcases chained_onChain (show ∀ t ∈ none, t = 1 from nofun) hs with rfl | rfl <;> decide

end Venom.Fuse

import Venom.Fuse.Session

/-! # The life of a file

`FileRun` is any use of one file through one handle at a time: writes with or without
gaps, reads, resizes in both directions with or without a handle, flushes, releases and
opens.  In each of its states the handle fits the disk, or without a handle the disk can
be opened again.
-/

namespace Venom.Fuse

open Venom.Storage
open Venom.Library
open Venom.Library.StateError
open Venom.Library.OptionLists

variable {σ : Type} [NodeStore σ] [NodeView σ]

/-! ## Resizing on the disk -/

section OnDisk

variable [LawfulNodeStore σ]

/-- The head a resize without a handle leaves. -/
def resizedHead (fb : FileBlock) (newSize : Nat) : FileBlock :=
  if newSize < fb.totalSize then
    { kind := .file, totalSize := newSize, dataSlots := keptSlots (chunkCount newSize) fb,
      indexChain := none, data := if chunkCount newSize = 0 then [] else fb.data.take newSize }
  else { fb with totalSize := newSize }

/-- How a truncation on the disk changes what is known: chunk 0 is cut, the slots behind
    the end are freed, and the last continuation chunk stays as it was. -/
structure TruncatesOnDisk (A A' : Content) (newSize : Nat) : Prop where
  kept : ∀ p b, A p b → p < newSize ∨ 1 ≤ p / chunkSize → p / chunkSize < chunkCount newSize →
    A' p b
  missing : ∀ p, A' p none

theorem reopened_ownedSlots (ino head : Nat) (fb : FileBlock) (ids chain : List Nat) :
    ownedSlots (reopened ino head fb ids) chain = fb.dataSlots ++ ids ++ head :: chain := by
  simp only [ownedSlots, reopened, openedFile]
  rw [List.reduceOption_cons_of_none, reduceOption_map_some]

/-- The slots of a file, before and after it is cut on the disk. -/
theorem cut_perm (ids chain : List Nat) (head n : Nat) (fb : FileBlock) :
    (fb.dataSlots ++ ids ++ head :: chain).Perm
      (fb.dataSlots.drop (n - 1) ++ (chain ++ (keptSlots n fb ++ [head] ++ ids))) := by
  refine List.perm_iff_count.mpr fun s => ?_
  have hdata : (keptSlots n fb ++ fb.dataSlots.drop (n - 1)).count s = fb.dataSlots.count s := by
    rw [keptSlots, List.take_append_drop]
  simp only [List.count_append, List.count_cons, List.count_nil] at hdata ⊢
  omega

/-- The slots that a truncation on the disk keeps, and what they hold. -/
theorem cutOnDisk_ok {c c' : σ} {head newSize : Nat} {fb : FileBlock} {ids chain : List Nat}
    (hhead : nodes c head = some (.file fb)) (hindex : IndexChain (nodes c) fb.indexChain ids chain)
    (hown : Accounts c (fb.dataSlots ++ ids ++ head :: chain)) (hlt : newSize < fb.totalSize)
    (hrun : (resizeOnDisk head newSize).run c = .ok () c') :
    nodes c' head = some (.file (resizedHead fb newSize)) ∧
      Moves c c' (fb.dataSlots ++ ids ++ head :: chain)
        (keptSlots (chunkCount newSize) fb ++ [head] ++ ids) ∧
      ∀ s ∈ keptSlots (chunkCount newSize) fb, nodes c' s = nodes c s := by
  obtain ⟨n, c₀, hread, hcont⟩ := run_bind_ok.mp hrun
  obtain ⟨rfl, hn⟩ := readNode_inv hread
  obtain rfl : n = _ := Option.some.inj ((hn (hown.isDataSlot (by simp))).symm.trans hhead)
  dsimp only at hcont
  rw [if_pos hlt] at hcont
  obtain ⟨_, c₁, hfree, hcont₁⟩ := run_bind_ok.mp hcont
  obtain ⟨_, c₂, hchain, hupd⟩ := run_bind_ok.mp hcont₁
  let kept := keptSlots (chunkCount newSize) fb
  let cut := fb.dataSlots.drop (chunkCount newSize - 1)
  -- the slots cut off and the index chain are freed; the ids of the chain are left behind
  have hsplit : (fb.dataSlots ++ ids ++ head :: chain).Perm
      (cut ++ (chain ++ (kept ++ [head] ++ ids))) := cut_perm ids chain head _ fb
  have ha := hown.of_perm hsplit.symm
  obtain ⟨hm₁, hagree₁⟩ := freeNodes_ok hfree ha
  have ha₁ := hm₁.accounts ha
  have hindex₁ : IndexChain (nodes c₁) fb.indexChain ids chain :=
    hindex.kept ha (fun s hs => List.mem_append_left _ hs) hagree₁
  obtain ⟨hm₂, hagree₂⟩ := freeIndexChain_ok hindex₁ ha₁ hchain
  have ha₂ := hm₂.accounts ha₁
  obtain ⟨hstored, hm₃, -⟩ := updateNode_inv hupd ha₂ (s := head) (by simp)
  refine ⟨by rw [hstored.node, resizedHead, if_pos hlt]; rfl,
    ((hm₁.trans hm₂).trans hm₃).congr hsplit (.refl _), fun s hs => ?_⟩
  have hs₂ : s ∈ kept ++ [head] ++ ids := by simp [kept, hs]
  have hne : s ≠ head := by
    rintro rfl
    have := (List.nodup_append.mp (List.nodup_append.mp ha₂.nodup_own).1).2.2 s hs s (by simp)
    exact this rfl
  have hnot₁ : s ∉ cut := fun hm =>
    (List.nodup_append.mp ha.nodup_own).2.2 s hm s (List.mem_append_right _ hs₂) rfl
  have hnot₂ : s ∉ chain := fun hm =>
    (List.nodup_append.mp ha₁.nodup_own).2.2 s hm s hs₂ rfl
  have hd : IsDataSlot c₀ s :=
    ha.isDataSlot (List.mem_append_right _ (List.mem_append_right _ hs₂))
  have hd₁ := hm₁.same.isDataSlot.mpr hd
  rw [hstored.others s (hm₂.same.isDataSlot.mpr hd₁) hne, hagree₂ s hd₁ hnot₂,
    hagree₁ s hd hnot₁]

omit [NodeStore σ] [LawfulNodeStore σ] in
/-- What a cut file shows. -/
theorem cutOnDisk_backed {A A' : Content} {lim newSize : Nat} {c c' : σ} {ino head : Nat}
    {fb : FileBlock} {ids : List Nat} (hb : Backed A lim c (reopened ino head fb ids) fb)
    (hlt : newSize < fb.totalSize) (htr : TruncatesOnDisk A A' newSize)
    (hsame : ∀ s ∈ keptSlots (chunkCount newSize) fb, nodes c' s = nodes c s) :
    Backed A' (chunkLimit newSize) c' (reopened ino head (resizedHead fb newSize) [])
      (resizedHead fb newSize) := by
  have hclean := reopened_clean ino head fb ids
  have hshows : Shows A' 0 (resizedHead fb newSize).data := by
    rw [resizedHead, if_pos hlt]
    obtain ⟨hlen, hold⟩ := hb.inline (not_pending_of_clean hclean 0)
    dsimp only
    split
    next => exact ⟨by simp, fun off _ => htr.missing _⟩
    next hpos =>
      refine ⟨(List.length_take_le' ..).trans hlen, fun off hoff => ?_⟩
      by_cases hn : off < newSize
      · rw [List.getElem?_take_of_lt hn]
        refine htr.kept _ _ (hold off hoff) (.inl (by omega)) ?_
        rw [div_chunk hoff]; omega
      · rw [List.getElem?_eq_none (by rw [List.length_take]; omega)]
        exact htr.missing _
  -- a kept slot stands where it stood
  have hslot : ∀ {i s : Nat},
      (reopened ino head (resizedHead fb newSize) []).slotMap[i]? = some (some s) →
      s ∈ keptSlots (chunkCount newSize) fb ∧ 1 ≤ i ∧ i < chunkCount newSize ∧
        (reopened ino head fb ids).slotMap[i]? = some (some s) := by
    intro i s hs
    cases i with
    | zero => cases hs
    | succ i =>
      rw [reopened_slotMap_succ, List.append_nil, Option.map_eq_some_iff] at hs
      obtain ⟨t, hs, ht⟩ := hs
      obtain rfl : t = s := Option.some.inj ht
      rw [resizedHead, if_pos hlt] at hs
      have hi := (List.getElem?_eq_some_iff.mp hs).1
      have hmem := List.mem_of_getElem? hs
      have htake : fb.dataSlots[i]? = some t := by
        unfold keptSlots at hs
        rw [List.getElem?_take] at hs
        split at hs
        · exact hs
        · cases hs
      unfold keptSlots at hi
      rw [List.length_take] at hi
      refine ⟨hmem, by omega, by omega, ?_⟩
      rw [reopened_slotMap_succ,
        List.getElem?_append_left (List.getElem?_eq_some_iff.mp htake).1, htake]
      rfl
  refine ⟨fun hd => ?_, fun hd => ?_, fun _ => hshows, ?_, ?_, ?_⟩
  · obtain ⟨rfl, rfl⟩ := openedFile_get hd
    exact hshows
  · obtain ⟨rfl, -⟩ := openedFile_get hd
    exact ⟨by simp [reopened, openedFile], by unfold chunkLimit; omega⟩
  · intro i s d hs hnode _
    obtain ⟨hmem, h1, hi, hold⟩ := hslot hs
    rw [hsame s hmem] at hnode
    refine (hb.slot hold hnode (not_pending_of_clean hclean i)).mono fun off b hoff ha => ?_
    exact htr.kept _ _ ha (.inr (by rwa [div_chunk hoff])) (by rwa [div_chunk hoff])
  · exact fun _ _ _ => ⟨by simp, fun off _ => htr.missing _⟩
  · intro i s d hs hnode
    obtain ⟨hmem, -, -, hold⟩ := hslot hs
    rw [hsame s hmem] at hnode
    exact hb.slotLen hold hnode

/-- A file grown without a handle. -/
theorem grownOnDisk_ok {A : Content} {c c' : σ} {ino head newSize : Nat} {fb : FileBlock}
    {ids chain : List Nat}
    (hok : OpenOk A (chunkLimit fb.totalSize) ⟨c, reopened ino head fb ids⟩ fb ids chain)
    (hle : fb.totalSize ≤ newSize) (hrun : (resizeOnDisk head newSize).run c = .ok () c') :
    OpenOk A (chunkLimit newSize) ⟨c', reopened ino head (resizedHead fb newSize) ids⟩
      (resizedHead fb newSize) ids chain := by
  obtain ⟨hh, hb⟩ := hok
  obtain ⟨n, c₀, hread, hcont⟩ := run_bind_ok.mp hrun
  obtain ⟨rfl, hn⟩ := readNode_inv hread
  have hmem : head ∈ ownedSlots (reopened ino head fb ids) chain := by
    rw [reopened_ownedSlots]; simp
  obtain rfl : n = _ := Option.some.inj ((hn (hh.accounts.isDataSlot hmem)).symm.trans hh.head)
  dsimp only at hcont
  rw [if_neg (by omega)] at hcont
  obtain ⟨hstored, hmoves, -⟩ := updateNode_inv hcont hh.accounts hmem
  have hfb : resizedHead fb newSize = { fb with totalSize := newSize } := if_neg (by omega)
  have hother : ∀ s ∈ fb.dataSlots ++ ids ++ chain, nodes c' s = nodes c₀ s := by
    have ha := hh.accounts
    rw [reopened_ownedSlots] at ha
    intro s hs
    have hs' : s ∈ fb.dataSlots ++ ids ∨ s ∈ chain := List.mem_append.mp hs
    refine hstored.others s (ha.isDataSlot ?_) ?_
    · rcases hs' with h | h
      · exact List.mem_append_left _ h
      · exact List.mem_append_right _ (List.mem_cons_of_mem _ h)
    · rintro rfl
      rcases hs' with h | h
      · exact (List.nodup_append.mp ha.nodup_own).2.2 s h s List.mem_cons_self rfl
      · exact (List.nodup_cons.mp (List.nodup_append.mp ha.nodup_own).2.1).1 h
  have hmap : (reopened ino head (resizedHead fb newSize) ids).slotMap =
      (reopened ino head fb ids).slotMap := by rw [hfb]; rfl
  have hred : (reopened ino head fb ids).slotMap.reduceOption = fb.dataSlots ++ ids := by
    simp only [reopened, openedFile]
    rw [List.reduceOption_cons_of_none, reduceOption_map_some]
  have hdata : ∀ {i s : Nat}, (reopened ino head (resizedHead fb newSize) ids).slotMap[i]? =
      some (some s) → nodes c' s = nodes c₀ s := fun hs =>
    hother _ (List.mem_append_left _ (by rw [← hred, ← hmap]; exact mem_of_getElem? hs))
  have hclean := not_pending_of_clean (reopened_clean ino head fb ids)
  refine ⟨⟨?_, rfl, ?_, rfl, ?_, ?_, fun _ => ⟨rfl, ?_⟩, fun _ => ?_⟩,
    ⟨fun hd => ?_, fun hd => ?_, fun _ => ?_, fun {i s d} hs hnode _ => ?_, fun {i} h1 hs _ => ?_, fun {i s d} hs hnode => ?_⟩⟩
  · rw [hfb]; exact hstored.node
  · have hx : (reopened ino head (resizedHead fb newSize) ids).indexChain = fb.indexChain := by
      rw [hfb]; rfl
    rw [hx]
    exact hh.index.congr fun s hs => hother s (List.mem_append_right _ hs)
  · refine (hmoves.accounts hh.accounts).of_perm ?_
    rw [reopened_ownedSlots, reopened_ownedSlots, hfb]
  · intro s hs
    rw [hmap] at hs
    obtain ⟨d, hd⟩ := hh.data s hs
    exact ⟨d, (hother s (List.mem_append_left _ (hred ▸ hs))).trans hd⟩
  · rw [hmap, hred, hfb]
  · rw [hmap, hfb]
    exact (hh.trimmed rfl).trans (chunkLimit_mono hle)
  · obtain ⟨rfl, rfl⟩ := openedFile_get hd
    rw [hfb]; exact hb.inline (hclean 0)
  · obtain ⟨rfl, -⟩ := openedFile_get hd
    exact ⟨by simp [reopened, openedFile], by unfold chunkLimit; omega⟩
  · rw [hfb]; exact hb.inline (hclean 0)
  · rw [hdata hs] at hnode
    exact hb.slot (by rwa [hmap] at hs) hnode (hclean i)
  · exact hb.gap h1 (by rwa [hmap] at hs) (hclean i)
  · rw [hdata hs] at hnode
    exact hb.slotLen (by rwa [hmap] at hs) hnode

omit [NodeStore σ] [LawfulNodeStore σ] in
/-- What is left of a file cut on the disk can be opened. -/
theorem HandleOk.cut {c c' : σ} {ino head newSize : Nat} {fb : FileBlock} {ids chain : List Nat}
    (hok : HandleOk c (reopened ino head fb ids) fb ids chain) (hlt : newSize < fb.totalSize)
    (hhead : nodes c' head = some (.file (resizedHead fb newSize)))
    (ha : Accounts c' (keptSlots (chunkCount newSize) fb ++ [head]))
    (hsame : ∀ s ∈ keptSlots (chunkCount newSize) fb, nodes c' s = nodes c s) :
    HandleOk c' (reopened ino head (resizedHead fb newSize) []) (resizedHead fb newSize) [] [] := by
  have hfb : resizedHead fb newSize = _ := if_pos hlt
  have hred : (reopened ino head (resizedHead fb newSize) []).slotMap.reduceOption =
      keptSlots (chunkCount newSize) fb := by
    rw [hfb]
    simp only [reopened, openedFile]
    rw [List.reduceOption_cons_of_none, reduceOption_map_some, List.append_nil]
  refine ⟨hhead, rfl, ?_, rfl, ?_, ?_, fun _ => ⟨rfl, ?_⟩, fun _ => ?_⟩
  · rw [show (reopened ino head (resizedHead fb newSize) []).indexChain = none by rw [hfb]; rfl]
    exact .nil
  · rw [reopened_ownedSlots, hfb, List.append_nil]
    exact ha
  · intro s hs
    rw [hred] at hs
    rw [hsame s hs]
    refine hok.data s ?_
    simp only [reopened, openedFile]
    rw [List.reduceOption_cons_of_none, reduceOption_map_some]
    exact List.mem_append_left _ (List.mem_of_mem_take hs)
  · rw [hred, hfb, List.append_nil]
  · rw [hfb]
    change (none :: (keptSlots (chunkCount newSize) fb ++ []).map some).length ≤ chunkLimit newSize
    have hlen : (keptSlots (chunkCount newSize) fb).length ≤ chunkCount newSize - 1 :=
      List.length_take_le ..
    rw [List.append_nil, List.length_cons, List.length_map]
    unfold chunkLimit
    omega

theorem resizeOnDisk_ok {A A' : Content} {c c' : σ} {ino head newSize : Nat} {fb : FileBlock}
    {ids chain : List Nat}
    (hok : OpenOk A (chunkLimit fb.totalSize) ⟨c, reopened ino head fb ids⟩ fb ids chain)
    (hcut : newSize < fb.totalSize → TruncatesOnDisk A A' newSize)
    (hgrow : fb.totalSize ≤ newSize → ∀ p b, A p b → A' p b)
    (hrun : (resizeOnDisk head newSize).run c = .ok () c') :
    ∃ ids' chain', OpenOk A' (chunkLimit newSize)
      ⟨c', reopened ino head (resizedHead fb newSize) ids'⟩ (resizedHead fb newSize) ids' chain' := by
  by_cases hlt : newSize < fb.totalSize
  · have hown := hok.handle.accounts
    rw [reopened_ownedSlots] at hown
    obtain ⟨hhead, hmoves, hsame⟩ := cutOnDisk_ok hok.handle.head hok.handle.index hown hlt hrun
    exact ⟨[], [], hok.handle.cut hlt hhead
      ((hmoves.accounts hown).sublist (List.sublist_append_left _ _)) hsame,
      cutOnDisk_backed hok.backed hlt (hcut hlt) hsame⟩
  · have hok' := grownOnDisk_ok hok (by omega) hrun
    exact ⟨ids, chain, hok'.handle, hok'.backed.mono (hgrow (by omega)) le_rfl⟩

theorem opSetattrSize_closed {A A' : Content} {s s' : VenomFuse σ} {ord : IterOrder Nat}
    {ino head newSize : Nat} {hint : Option Nat} {fb : FileBlock} {ids chain : List Nat}
    (hc : Closed A s ino head fb ids chain) (hno : findHandle ord ino hint s.openFiles = none)
    (hcut : newSize < fb.totalSize → TruncatesOnDisk A A' newSize)
    (hgrow : fb.totalSize ≤ newSize → ∀ p b, A p b → A' p b)
    (hrun : (opSetattrSize ord ino hint newSize).run s = .ok () s') :
    ∃ fb' ids' chain', Closed A' s' ino head fb' ids' chain' ∧ fb'.totalSize = newSize := by
  obtain ⟨_, _, hget, hcont⟩ := run_bind_ok.mp hrun
  cases hget
  rw [hno] at hcont
  obtain ⟨slot, s₁, hslot, hresize⟩ := run_bind_ok.mp hcont
  obtain ⟨hslot', rfl⟩ := slotOfIno_ok.mp hslot
  obtain rfl : head = slot := Option.some.inj (hc.inode.symm.trans hslot')
  obtain ⟨c', hresize', rfl⟩ := liftStore_ok.mp hresize
  obtain ⟨ids', chain', hok⟩ := resizeOnDisk_ok hc.ok hcut hgrow hresize'
  have htotal : (resizedHead fb newSize).totalSize = newSize := by
    unfold resizedHead; split <;> rfl
  exact ⟨_, ids', chain', ⟨hc.inode, by rw [htotal]; exact hok⟩, htotal⟩

end OnDisk

/-! ## Runs -/

omit [NodeView σ] in
/-- A resize works on the open handle when there is one to find. -/
theorem opSetattrSize_found {s : VenomFuse σ} {ord : IterOrder Nat} {ino newSize fh : Nat}
    {hint : Option Nat} (h : findHandle ord ino hint s.openFiles = some fh) :
    (opSetattrSize ord ino hint newSize).run s =
      (opSetattrSize ord ino (some fh) newSize).run s := by
  unfold opSetattrSize
  rw [run_bind_of_ok run_get, run_bind_of_ok run_get, h]
  rfl

/-- The states of a file's life, each with the handle it is open at, if it is. -/
inductive FileRun (ino : Nat) : VenomFuse σ → Option Nat → Prop
  | create {s s' : VenomFuse σ} {parent fh : Nat} {name : String} : DriverOk s →
      (opCreate parent name).run s = .ok (ino, fh) s' → FileRun ino s' (some fh)
  | write {s s' : VenomFuse σ} {fh n : Nat} (ord : IterOrder Nat) (offset : Nat)
      (data : List UInt8) : FileRun ino s (some fh) →
      (opWrite ord fh offset data).run s = .ok n s' → FileRun ino s' (some fh)
  | read {s s' : VenomFuse σ} {fh : Nat} {r : List UInt8} (ord : IterOrder Nat)
      (offset size : Nat) : FileRun ino s (some fh) →
      (opRead ord fh offset size).run s = .ok r s' → FileRun ino s' (some fh)
  | resize {s s' : VenomFuse σ} {fh : Option Nat} (ord : IterOrder Nat) (hint : Option Nat)
      (newSize : Nat) : FileRun ino s fh → findHandle ord ino hint s.openFiles = fh →
      (opSetattrSize ord ino hint newSize).run s = .ok () s' → FileRun ino s' fh
  | flush {s s' : VenomFuse σ} {fh : Nat} (ord : IterOrder Nat) : FileRun ino s (some fh) →
      (opFlush ord fh).run s = .ok () s' → FileRun ino s' (some fh)
  | release {s s' : VenomFuse σ} {fh : Nat} (ord : IterOrder Nat) : FileRun ino s (some fh) →
      (opRelease ord fh).run s = .ok () s' → FileRun ino s' none
  | reopen {s s' : VenomFuse σ} {fh : Nat} : FileRun ino s none →
      (opOpen ino).run s = .ok fh s' → FileRun ino s' (some fh)

/-- The file is sound: its handle fits the disk, or the disk can be opened. -/
def FileOk (A : Content) (ino : Nat) (s : VenomFuse σ) : Option Nat → Prop
  | some fh => ∃ f fb ids chain, Open A s fh f fb ids chain ∧ f.ino = ino
  | none => ∃ head fb ids chain, Closed A s ino head fb ids chain

variable [LawfulNodeStore σ]

theorem anything_truncates (newSize : Nat) (cut : Bool) :
    Truncates Anything Anything newSize cut := ⟨fun _ _ _ _ _ => trivial, fun _ _ _ => trivial,
  fun _ _ _ => trivial⟩

theorem fileRun_ok {ino : Nat} {s : VenomFuse σ} {fh : Option Nat} (h : FileRun ino s fh) :
    FileOk Anything ino s fh := by
  induction h with
  | create hs hrun =>
    obtain ⟨head, ho⟩ := opCreate_ok (A := Anything) hs (fun _ => trivial) hrun
    exact ⟨_, _, _, _, ho, rfl⟩
  | write ord offset data _ hrun ih =>
    obtain ⟨f, fb, ids, chain, ho, rfl⟩ := ih
    obtain ⟨f', ho', -, hino, -⟩ := opWrite_ok (A := fun _ => Anything) ho
      (fun _ _ _ _ => ⟨fun _ _ => trivial, fun _ _ _ _ => trivial, fun _ _ _ => trivial⟩) hrun
    exact ⟨f', fb, ids, chain, ho', hino⟩
  | read ord offset size _ hrun ih =>
    obtain ⟨f, fb, ids, chain, ho, rfl⟩ := ih
    obtain ⟨f', ho', -, hr, -⟩ := opRead_ok ho hrun
    exact ⟨f', fb, ids, chain, ho', hr.ino⟩
  | @resize s s' fh ord hint newSize _ hfind hrun ih =>
    cases fh with
    | some fh =>
      obtain ⟨f, fb, ids, chain, ho, rfl⟩ := ih
      rw [opSetattrSize_found hfind] at hrun
      obtain ⟨ho', -⟩ := opSetattrSize_ok ho (fun _ _ _ h => h) (fun _ _ _ h => h)
        (fun _ => anything_truncates _ _) hrun
      exact ⟨_, fb, ids, chain, ho', (resizeFile_resized newSize f).ino⟩
    | none =>
      obtain ⟨head, fb, ids, chain, hc⟩ := ih
      obtain ⟨fb', ids', chain', hc', -⟩ := opSetattrSize_closed hc hfind
        (fun _ => ⟨fun _ _ _ _ _ => trivial, fun _ => trivial⟩) (fun _ _ _ h => h) hrun
      exact ⟨head, fb', ids', chain', hc'⟩
  | flush ord _ hrun ih =>
    obtain ⟨f, fb, ids, chain, ho, rfl⟩ := ih
    obtain ⟨f', fb', ids', chain', ho', -, hkeeps, -⟩ := opFlush_ok ho (fun _ _ => trivial) hrun
    exact ⟨f', fb', ids', chain', ho', hkeeps.ino⟩
  | release ord _ hrun ih =>
    obtain ⟨f, fb, ids, chain, ho, rfl⟩ := ih
    obtain ⟨s₁, hflush, rfl⟩ := opRelease_ok hrun
    obtain ⟨f', fb', ids', chain', ho', hclean, hkeeps, -⟩ :=
      opFlush_ok ho (fun _ _ => trivial) hflush
    have hc := ho'.closed hclean fun _ _ => .inr fun _ _ _ => trivial
    rw [hkeeps.ino] at hc
    exact ⟨_, fb', ids', chain', hc.withHandles _⟩
  | reopen _ hrun ih =>
    obtain ⟨head, fb, ids, chain, hc⟩ := ih
    obtain ⟨ho, -⟩ := opOpen_ok hc hrun
    exact ⟨_, fb, ids, chain, ho, rfl⟩

/-! ## A new file on a small volume -/

/-- A new file `notes`, inode 2, open at handle 1. -/
def created : VenomFuse Volume := after (opCreate 1 "notes") mounted

theorem created_run : FileRun 2 created (some 1) :=
  .create mounted_ok (run_of_valueOf (x := opCreate 1 "notes") (a := (2, 1)) (by decide +kernel))

/-- What is checked of the open file of a concrete state. -/
theorem of_openFile {s : VenomFuse Volume} {fh : Nat} (P : OpenFile → Prop) [DecidablePred P]
    (h : (s.openFiles.get fh).all (fun f => decide (P f)) = true) (f : OpenFile)
    (hf : s.openFiles.get fh = some f) : P f := by
  rw [hf] at h
  exact of_decide_eq_true h

end Venom.Fuse

import Venom.Fuse.Flush

/-! # What a handle shows

The bytes of a chunk can stand in the cache, in the chunk's slot or, for chunk 0, in the
head.  `Backed` says of a statement about positions and bytes that every place from which
the handle may take a chunk agrees with it, and each operation on a handle has a rule for
how the statement may change.  The content of a file, the zeros behind a truncation and
the bytes one handle wrote are all such statements.
-/

namespace Venom.Fuse

open Venom.Storage
open Venom.Library
open Venom.Library.Chunks
open Venom.Library.StateError
open Venom.Library.OptionLists

variable {σ : Type} [NodeStore σ] [NodeView σ]

/-! ## Chunks and positions -/

theorem chunkSize_pos : 0 < chunkSize := by decide

/-- The chunk and the offset of a position. -/
theorem chunk_split (p : Nat) : p / chunkSize * chunkSize + p % chunkSize = p :=
  Nat.div_add_mod' p chunkSize

theorem lt_chunkCount {i n : Nat} : i < chunkCount n ↔ i * chunkSize < n := by
  unfold chunkCount chunkSize
  split <;> omega

theorem div_lt_chunkCount {p n : Nat} (h : p < n) : p / chunkSize < chunkCount n := by
  have := chunk_split p
  exact lt_chunkCount.mpr (by omega)

theorem div_chunk {i off : Nat} (h : off < chunkSize) : (i * chunkSize + off) / chunkSize = i := by
  rw [Nat.add_comm, Nat.add_mul_div_right _ _ chunkSize_pos, Nat.div_eq_of_lt h, Nat.zero_add]

theorem mod_chunk {i off : Nat} (h : off < chunkSize) : (i * chunkSize + off) % chunkSize = off := by
  rw [Nat.add_comm, Nat.add_mul_mod_self_right, Nat.mod_eq_of_lt h]

theorem chunkCount_mono {m n : Nat} (h : m ≤ n) : chunkCount m ≤ chunkCount n := by
  unfold chunkCount chunkSize
  split <;> split <;> omega

/-! ## Statements about content -/

/-- What is known about the byte at each position; `none` is a missing byte. -/
abbrev Content := Nat → Option UInt8 → Prop

/-- Nothing is known of the bytes. -/
def Anything : Content := fun _ _ => True

/-- The bytes `d` of chunk `i` agree with what is known. -/
def Shows (A : Content) (i : Nat) (d : List UInt8) : Prop :=
  d.length ≤ chunkSize ∧ ∀ off, off < chunkSize → A (i * chunkSize + off) d[off]?

theorem Shows.mono {A A' : Content} {i : Nat} {d : List UInt8} (h : Shows A i d)
    (hA : ∀ off b, off < chunkSize → A (i * chunkSize + off) b → A' (i * chunkSize + off) b) :
    Shows A' i d := ⟨h.1, fun off hoff => hA off _ hoff (h.2 off hoff)⟩

/-- Every place from which the handle may take a chunk agrees with what is known, and
    only chunks below `lim` are cached. -/
structure Backed (A : Content) (lim : Nat) (c : σ) (f : OpenFile) (fb : FileBlock) :
    Prop where
  cached : ∀ {i d}, f.cache.get i = some d → Shows A i d
  cachedLt : ∀ {i d}, f.cache.get i = some d → i < f.slotMap.length ∧ i < lim
  inline : ¬ Pending f 0 → Shows A 0 fb.data
  slot : ∀ {i s : Nat} {d}, f.slotMap[i]? = some (some s) → nodes c s = some (.fileData d) →
    ¬ Pending f i → Shows A i d.data
  gap : ∀ {i : Nat}, 1 ≤ i → f.slotMap[i]?.join = none → ¬ Pending f i → Shows A i []
  slotLen : ∀ {i s : Nat} {d}, f.slotMap[i]? = some (some s) → nodes c s = some (.fileData d) →
    d.data.length ≤ chunkSize

omit [NodeStore σ] in
theorem Backed.mono {A A' : Content} {lim lim' : Nat} {c : σ} {f : OpenFile} {fb : FileBlock}
    (h : Backed A lim c f fb) (hA : ∀ p b, A p b → A' p b) (hlim : lim ≤ lim') :
    Backed A' lim' c f fb where
  cached hd := (h.cached hd).mono fun _ _ _ => hA _ _
  cachedLt hd := ⟨(h.cachedLt hd).1, lt_of_lt_of_le (h.cachedLt hd).2 hlim⟩
  inline hp := (h.inline hp).mono fun _ _ _ => hA _ _
  slot hs hn hp := (h.slot hs hn hp).mono fun _ _ _ => hA _ _
  gap h1 hs hp := (h.gap h1 hs hp).mono fun _ _ _ => hA _ _
  slotLen := h.slotLen

/-- A consistent handle that backs what is known of its file. -/
structure OpenOk (A : Content) (lim : Nat) (h : Handle σ) (fb : FileBlock)
    (ids chain : List Nat) : Prop where
  handle : HandleOk h.container h.file fb ids chain
  backed : Backed A lim h.container h.file fb

theorem div_lt_chunkLimit {p n : Nat} (h : p < n) : p / chunkSize < chunkLimit n :=
  lt_of_lt_of_le (div_lt_chunkCount h) (le_max_left _ _)

theorem chunkLimit_mono {m n : Nat} (h : m ≤ n) : chunkLimit m ≤ chunkLimit n :=
  max_le_max_right 1 (chunkCount_mono h)

/-- Only clean chunks left the cache. -/
structure Recached (f f' : OpenFile) : Prop where
  file : ∃ m, f' = { f with cache := m }
  keeps : ∀ {i d}, i ∈ f.dirty → f.cache.get i = some d → f'.cache.get i = some d

namespace Recached

theorem refl (f : OpenFile) : Recached f f := ⟨⟨f.cache, rfl⟩, fun _ h => h⟩

theorem trans {f f' f'' : OpenFile} (h : Recached f f') (h' : Recached f' f'') :
    Recached f f'' := by
  obtain ⟨⟨m, rfl⟩, hk⟩ := h
  obtain ⟨⟨m', rfl⟩, hk'⟩ := h'
  exact ⟨⟨m', rfl⟩, fun hd hc => hk' hd (hk hd hc)⟩

theorem ino {f f' : OpenFile} (h : Recached f f') : f'.ino = f.ino := by
  obtain ⟨⟨m, rfl⟩, -⟩ := h; rfl

theorem headSlot {f f' : OpenFile} (h : Recached f f') : f'.headSlot = f.headSlot := by
  obtain ⟨⟨m, rfl⟩, -⟩ := h; rfl

theorem totalSize {f f' : OpenFile} (h : Recached f f') : f'.totalSize = f.totalSize := by
  obtain ⟨⟨m, rfl⟩, -⟩ := h; rfl

theorem slotMap {f f' : OpenFile} (h : Recached f f') : f'.slotMap = f.slotMap := by
  obtain ⟨⟨m, rfl⟩, -⟩ := h; rfl

theorem ownedSlots {f f' : OpenFile} (h : Recached f f') (chain : List Nat) :
    ownedSlots f' chain = Venom.Fuse.ownedSlots f chain := by
  unfold Venom.Fuse.ownedSlots
  rw [h.slotMap, h.headSlot]

theorem pending {f f' : OpenFile} (h : Recached f f') {i : Nat} (hp : Pending f i) :
    Pending f' i := by
  obtain ⟨⟨m, rfl⟩, hk⟩ := h
  obtain ⟨hd, hc⟩ := hp
  obtain ⟨d, hd'⟩ := Option.ne_none_iff_exists'.mp hc
  exact ⟨hd, by rw [hk hd hd']; simp⟩

end Recached

omit [NodeStore σ] in
theorem HandleOk.recached {c : σ} {f f' : OpenFile} {fb : FileBlock} {ids chain : List Nat}
    (h : HandleOk c f fb ids chain) (hr : Recached f f') : HandleOk c f' fb ids chain := by
  obtain ⟨⟨m, rfl⟩, -⟩ := hr
  exact ⟨h.head, h.chainEq, h.index, h.mapHead, h.accounts, h.data, h.clean, h.trimmed⟩

omit [NodeStore σ] in
/-- A cache whose entries all agree can replace the cache. -/
theorem Backed.recached {A : Content} {lim : Nat} {c : σ} {f f' : OpenFile} {fb : FileBlock}
    (h : Backed A lim c f fb) (hr : Recached f f')
    (hcached : ∀ {i d}, f'.cache.get i = some d → Shows A i d ∧ i < f.slotMap.length ∧ i < lim) :
    Backed A lim c f' fb := by
  have hp : ∀ {i}, ¬ Pending f' i → ¬ Pending f i := fun hn hp => hn (hr.pending hp)
  obtain ⟨⟨m, rfl⟩, -⟩ := hr
  exact ⟨fun hd => (hcached hd).1, fun hd => (hcached hd).2, fun hn => h.inline (hp hn),
    fun hs hnode hn => h.slot hs hnode (hp hn), fun h1 hs hn => h.gap h1 hs (hp hn), h.slotLen⟩

/-! ## Loading a chunk -/

variable [LawfulNodeStore σ]

theorem loadChunk_ok {A : Content} {lim : Nat} {h h' : Handle σ} {fb : FileBlock} {ids chain : List Nat}
    {ci : Nat} {d : List UInt8} (hok : OpenOk A lim h fb ids chain)
    (hnone : h.file.cache.get ci = none) (hrun : (loadChunk ci).run h = .ok d h') :
    h' = h ∧ ci < h.file.slotMap.length ∧ Shows A ci d := by
  have hp : ¬ Pending h.file ci := fun hp => hp.2 hnone
  obtain ⟨_, _, hget, hcont⟩ := run_bind_ok.mp hrun
  cases hget
  split at hcont
  next s hs =>
    have hmem := mem_of_getElem? hs
    have hlt := (List.getElem?_eq_some_iff.mp hs).1
    obtain ⟨n, h₁, hon, hret⟩ := run_bind_ok.mp hcont
    obtain ⟨c', hread, rfl⟩ := onContainer_ok.mp hon
    obtain ⟨rfl, hn⟩ := readNode_inv hread
    obtain ⟨b, hb⟩ := hok.handle.data s hmem
    obtain rfl : n = _ := Option.some.inj
      ((hn (hok.handle.accounts.isDataSlot (List.mem_append_left _ hmem))).symm.trans hb)
    cases hret
    exact ⟨rfl, hlt, hok.backed.slot hs hb hp⟩
  next hs =>
    have hlt := (List.getElem?_eq_some_iff.mp hs).1
    split at hcont
    next hci =>
      subst hci
      obtain ⟨n, h₁, hon, hret⟩ := run_bind_ok.mp hcont
      obtain ⟨c', hread, rfl⟩ := onContainer_ok.mp hon
      obtain ⟨rfl, hn⟩ := readNode_inv hread
      obtain rfl : n = _ := Option.some.inj
        ((hn (hok.handle.accounts.isDataSlot (by simp [ownedSlots]))).symm.trans hok.handle.head)
      cases hret
      exact ⟨rfl, hlt, hok.backed.inline hp⟩
    next hci =>
      cases hcont
      exact ⟨rfl, hlt, hok.backed.gap (by omega) (by rw [hs]; rfl) hp⟩
  next => cases hcont

theorem evict_recached (ord : IterOrder Nat) (f : OpenFile) : Recached f (evict ord f) ∧
    ∀ {i d}, (evict ord f).cache.get i = some d → f.cache.get i = some d := by
  unfold evict
  split
  next =>
    split
    next k hk =>
      have hclean : k ∉ f.dirty := by simpa using List.find?_some hk
      refine ⟨⟨⟨_, rfl⟩, fun {i d} hd hc => ?_⟩, fun {i d} hc => ?_⟩
      · have hne : i ≠ k := fun e => hclean (e ▸ hd)
        simpa [hne] using hc
      · dsimp only at hc
        rw [HashMap.get_remove] at hc
        split at hc
        · cases hc
        · exact hc
    next => exact ⟨.refl f, fun h => h⟩
  next => exact ⟨.refl f, fun h => h⟩

theorem ensureCached_ok {A : Content} {lim : Nat} {h h' : Handle σ} {fb : FileBlock} {ids chain : List Nat}
    {ord : IterOrder Nat} {ci : Nat} (hok : OpenOk A lim h fb ids chain)
    (hci : ci < lim)
    (hrun : (ensureCached ord ci).run h = .ok () h') :
    h'.container = h.container ∧ Recached h.file h'.file ∧
      (∀ {i d}, h'.file.cache.get i = some d → i = ci ∨ h.file.cache.get i = some d) ∧
      (∃ d, h'.file.cache.get ci = some d) ∧ OpenOk A lim h' fb ids chain := by
  obtain ⟨_, _, hget, hcont⟩ := run_bind_ok.mp hrun
  cases hget
  split at hcont
  next hin =>
    cases hcont
    exact ⟨rfl, .refl _, .inr, (HashMap.containsKey_eq_true _ _).mp hin, hok⟩
  next hout =>
    have hnone : h.file.cache.get ci = none :=
      (HashMap.containsKey_eq_false _ _).mp (Bool.eq_false_iff.mpr hout)
    obtain ⟨d, h₁, hload, hmod⟩ := run_bind_ok.mp hcont
    obtain ⟨rfl, hlt, hshows⟩ := loadChunk_ok hok hnone hload
    rw [modifyFile_ok] at hmod
    subst hmod
    obtain ⟨hr, hsub⟩ := evict_recached ord h₁.file
    have hr' : Recached h₁.file (cacheInsert ci d (evict ord h₁.file)) := by
      obtain ⟨⟨m, hm⟩, hk⟩ := hr
      refine ⟨⟨_, by rw [hm]; rfl⟩, fun {i d'} hd hc => ?_⟩
      have hne : i ≠ ci := fun e => by rw [e, hnone] at hc; cases hc
      simpa [cacheInsert, hne] using hk hd hc
    have hsub' : ∀ {i d'}, (cacheInsert ci d (evict ord h₁.file)).cache.get i = some d' →
        (i = ci ∧ d' = d) ∨ h₁.file.cache.get i = some d' := by
      intro i d' hc
      simp only [cacheInsert, HashMap.get_insert] at hc
      split at hc
      next e => exact .inl ⟨e, (Option.some.inj hc).symm⟩
      next => exact .inr (hsub hc)
    refine ⟨rfl, hr', fun hc => (hsub' hc).imp_left And.left, ⟨d, by simp [cacheInsert]⟩,
      hok.handle.recached hr', hok.backed.recached hr' fun {i d'} hc => ?_⟩
    rcases hsub' hc with ⟨rfl, rfl⟩ | hc₀
    · exact ⟨hshows, hlt, hci⟩
    · exact ⟨hok.backed.cached hc₀, hok.backed.cachedLt hc₀⟩

/-! ## Reading -/

/-- What a read from `pos` to `stop` that got `r` shows; it ends early at a missing byte. -/
structure ReadShows (A : Content) (stop pos : Nat) (r : List UInt8) : Prop where
  length : pos + r.length ≤ max pos stop
  bytes : ∀ k, k < r.length → A (pos + k) r[k]?
  short : pos + r.length < stop → A (pos + r.length) none

theorem ReadShows.append {A : Content} {stop pos : Nat} {l r : List UInt8}
    (hl : ∀ k, k < l.length → A (pos + k) l[k]?) (hpos : pos + l.length ≤ stop)
    (hr : ReadShows A stop (pos + l.length) r) : ReadShows A stop pos (l ++ r) where
  length := by
    have := hr.length
    rw [List.length_append]; omega
  bytes k hk := by
    rw [List.length_append] at hk
    by_cases hkl : k < l.length
    · rw [List.getElem?_append_left hkl]; exact hl k hkl
    · have := hr.bytes (k - l.length) (by omega)
      rw [List.getElem?_append_right (by omega)]
      rwa [show pos + l.length + (k - l.length) = pos + k by omega] at this
  short h := by
    rw [List.length_append] at h ⊢
    have := hr.short (by omega)
    rwa [Nat.add_assoc] at this

theorem readLoop_ok {A : Content} {lim : Nat} {fb : FileBlock} {ids chain : List Nat}
    {ord : IterOrder Nat} {stop pos : Nat} {acc r : List UInt8} {h h' : Handle σ}
    (hok : OpenOk A lim h fb ids chain) (hstop : ∀ p, p < stop → p / chunkSize < lim)
    (hrun : (readLoop ord stop pos acc).run h = .ok r h') :
    h'.container = h.container ∧ Recached h.file h'.file ∧ OpenOk A lim h' fb ids chain ∧
      ∃ got, r = acc ++ got ∧ ReadShows A stop pos got := by
  induction hn : stop - pos using Nat.strongRecOn generalizing pos acc h with
  | _ n ih =>
    rw [readLoop] at hrun
    split at hrun
    next hlt =>
      obtain ⟨_, h₁, hens, hcont⟩ := run_bind_ok.mp hrun
      obtain ⟨_, _, hget, hbody⟩ := run_bind_ok.mp hcont
      cases hget
      obtain ⟨hc, hr, -, ⟨d, hd⟩, hok₁⟩ := ensureCached_ok hok (hstop pos hlt) hens
      rw [hd] at hbody
      dsimp only at hbody
      obtain ⟨hdlen, hshows⟩ := hok₁.backed.cached hd
      have hsplit := chunk_split pos
      split at hbody
      next hzero =>
        cases hbody
        refine ⟨hc, hr, hok₁, [], by simp, by simp, by simp, fun _ => ?_⟩
        have := hshows (pos % chunkSize) (Nat.mod_lt _ chunkSize_pos)
        rw [hsplit, List.getElem?_eq_none (by omega)] at this
        simpa using this
      next hpos =>
        let take := min (d.length - pos % chunkSize) (stop - pos)
        obtain ⟨hc₂, hr₂, hok₂, got, rfl, hgot⟩ :=
          ih (stop - (pos + take)) (by omega) hok₁ hbody rfl
        have hlen : ((d.drop (pos % chunkSize)).take take).length = take := by
          rw [List.length_take, List.length_drop]; omega
        refine ⟨hc₂.trans hc, hr.trans hr₂, hok₂, (d.drop (pos % chunkSize)).take take ++ got,
          by rw [List.append_assoc], ReadShows.append ?_ (by omega) (by rw [hlen]; exact hgot)⟩
        intro k hk
        rw [hlen] at hk
        have := hshows (pos % chunkSize + k) (by omega)
        rw [← Nat.add_assoc, hsplit] at this
        rwa [List.getElem?_take_of_lt hk, List.getElem?_drop]
    next hge =>
      cases hrun
      exact ⟨rfl, .refl _, hok, [], by simp, by simp, by simp, fun h => absurd h (by simpa using hge)⟩

theorem readHandle_ok {A : Content} {lim : Nat} {fb : FileBlock} {ids chain : List Nat}
    {ord : IterOrder Nat} {offset size : Nat} {r : List UInt8} {h h' : Handle σ}
    (hok : OpenOk A lim h fb ids chain) (hlim : chunkLimit h.file.totalSize ≤ lim)
    (hrun : (readHandle ord offset size).run h = .ok r h') :
    h'.container = h.container ∧ Recached h.file h'.file ∧ OpenOk A lim h' fb ids chain ∧
      ReadShows A (min (offset + size) h.file.totalSize) offset r := by
  obtain ⟨_, _, hget, hcont⟩ := run_bind_ok.mp hrun
  cases hget
  dsimp only at hcont
  split at hcont
  next hge =>
    cases hcont
    exact ⟨rfl, .refl _, hok, by simp, by simp, fun h => by simp at h; omega⟩
  next =>
    obtain ⟨hc, hr, hok', got, hgot, hshows⟩ := readLoop_ok hok
      (fun p hp => lt_of_lt_of_le (div_lt_chunkLimit (by omega)) hlim) hcont
    exact ⟨hc, hr, hok', by simpa [hgot] using hshows⟩

/-! ## Writing -/

/-- How a write of `piece` at `pos` changes what is known: its bytes are known, the other
    positions keep what they had, and a missing byte may have become a zero. -/
structure Overwrites (A A' : Content) (pos : Nat) (piece : List UInt8) : Prop where
  inside : ∀ k, k < piece.length → A' (pos + k) piece[k]?
  outside : ∀ p b, p < pos ∨ pos + piece.length ≤ p → A p b → A' p b
  filled : ∀ p, p < pos ∨ pos + piece.length ≤ p → A p none → A' p (some 0)

/-- What is known when nothing is known of chunk `ci`. -/
def Content.except (A : Content) (ci : Nat) : Content := fun p b => p / chunkSize = ci ∨ A p b

/-- A chunk ready to be patched: bytes that are known, or zeros for missing ones. -/
def Fillable (A : Content) (ci : Nat) (chunk : List UInt8) : Prop :=
  chunk.length ≤ chunkSize ∧ ∀ off, off < chunkSize → A (ci * chunkSize + off) chunk[off]? ∨
    (A (ci * chunkSize + off) none ∧ chunk[off]? = some 0)

theorem Shows.patch {A A' : Content} {ci coff : Nat} {chunk piece : List UInt8}
    (h : Fillable A ci chunk) (hover : Overwrites A A' (ci * chunkSize + coff) piece)
    (hlen : coff + piece.length ≤ chunkSize) : Shows A' ci (patch 0 chunk coff piece) := by
  refine ⟨by rw [length_patch]; have := h.1; omega, fun off hoff => ?_⟩
  by_cases hin : coff ≤ off ∧ off < coff + piece.length
  · rw [getElem?_patch_inside _ _ _ _ hin.1 hin.2]
    have := hover.inside (off - coff) (by omega)
    rwa [show ci * chunkSize + coff + (off - coff) = ci * chunkSize + off by omega] at this
  · have hout : ci * chunkSize + off < ci * chunkSize + coff ∨
        ci * chunkSize + coff + piece.length ≤ ci * chunkSize + off := by omega
    rw [getElem?_patch_outside _ _ _ _ (by omega)]
    split
    next =>
      rcases h.2 off hoff with ha | ⟨ha, hz⟩
      · exact hover.outside _ _ hout ha
      · rw [hz]; exact hover.filled _ hout ha
    next hge =>
      have ha : A (ci * chunkSize + off) none := by
        rcases h.2 off hoff with ha | ⟨ha, -⟩
        · rwa [List.getElem?_eq_none (by omega)] at ha
        · exact ha
      split
      · exact hover.filled _ hout ha
      · exact hover.outside _ _ hout ha

/-- What a write changes in a handle besides bytes: `touched` chunks are pending now. -/
structure Written (touched : Nat → Prop) (f f' : OpenFile) : Prop where
  ino : f'.ino = f.ino
  headSlot : f'.headSlot = f.headSlot
  indexChain : f'.indexChain = f.indexChain
  metaDirty : f.metaDirty = true → f'.metaDirty = true
  slotMap : ∃ k, f'.slotMap = f.slotMap ++ List.replicate k none
  pending : ∀ i, Pending f' i ↔ Pending f i ∨ touched i

theorem reduceOption_replicate_none (k : Nat) :
    (List.replicate k (none : Option Nat)).reduceOption = [] := by
  simp [List.reduceOption]

namespace Written

variable {touched touched' : Nat → Prop} {f f' f'' : OpenFile}

theorem refl (f : OpenFile) : Written (fun _ => False) f f :=
  ⟨rfl, rfl, rfl, id, ⟨0, by simp⟩, by simp⟩

theorem trans (h : Written touched f f') (h' : Written touched' f' f'') :
    Written (fun i => touched i ∨ touched' i) f f'' where
  ino := h'.ino.trans h.ino
  headSlot := h'.headSlot.trans h.headSlot
  indexChain := h'.indexChain.trans h.indexChain
  metaDirty := h'.metaDirty ∘ h.metaDirty
  slotMap := by
    obtain ⟨k, hk⟩ := h.slotMap
    obtain ⟨k', hk'⟩ := h'.slotMap
    exact ⟨k + k', by rw [hk', hk, List.append_assoc, List.replicate_append_replicate]⟩
  pending i := by rw [h'.pending, h.pending, or_assoc]

theorem reduceOption (h : Written touched f f') :
    f'.slotMap.reduceOption = f.slotMap.reduceOption := by
  obtain ⟨k, hk⟩ := h.slotMap
  rw [hk, List.reduceOption_append, reduceOption_replicate_none, List.append_nil]

theorem ownedSlots (h : Written touched f f') (chain : List Nat) :
    ownedSlots f' chain = Venom.Fuse.ownedSlots f chain := by
  rw [Venom.Fuse.ownedSlots, Venom.Fuse.ownedSlots, h.reduceOption, h.headSlot]

end Written

theorem extendSlotMap_slotMap (ci : Nat) (f : OpenFile) :
    (∃ k, (extendSlotMap ci f).slotMap = f.slotMap ++ List.replicate k none) ∧
      ci < (extendSlotMap ci f).slotMap.length := by
  unfold extendSlotMap
  split
  next h =>
    refine ⟨⟨_, rfl⟩, ?_⟩
    simp only [List.length_append, List.length_replicate]
    omega
  next h => exact ⟨⟨0, by simp⟩, by omega⟩

theorem getElem?_append_replicate_none {m : List (Option Nat)} {k i s : Nat} :
    (m ++ List.replicate k none)[i]? = some (some s) ↔ m[i]? = some (some s) := by
  rw [List.getElem?_append]
  split
  · rfl
  next h =>
    rw [List.getElem?_eq_none (l := m) (by omega), List.getElem?_replicate]
    split <;> simp

theorem join_append_replicate_none {m : List (Option Nat)} {k i : Nat} :
    (m ++ List.replicate k none)[i]?.join = m[i]?.join := by
  rw [List.getElem?_append]
  split
  · rfl
  next h =>
    rw [List.getElem?_eq_none (l := m) (by omega), List.getElem?_replicate]
    split <;> rfl

omit [NodeStore σ] [LawfulNodeStore σ] in
theorem extendSlotMap_ok {A : Content} {lim ci : Nat} {c : σ} {f : OpenFile} {fb : FileBlock}
    {ids chain : List Nat} (hok : OpenOk A lim ⟨c, f⟩ fb ids chain) :
    OpenOk A lim ⟨c, extendSlotMap ci f⟩ fb ids chain := by
  unfold extendSlotMap
  split
  next hle =>
    obtain ⟨hh, hb⟩ := hok
    have hred : (f.slotMap ++ List.replicate (ci + 1 - f.slotMap.length) none).reduceOption =
        f.slotMap.reduceOption := by
      rw [List.reduceOption_append, reduceOption_replicate_none, List.append_nil]
    have hzero : 0 < f.slotMap.length := (List.getElem?_eq_some_iff.mp hh.mapHead).1
    refine ⟨⟨hh.head, hh.chainEq, hh.index, ?_, ?_, ?_, nofun, nofun⟩,
      ⟨hb.cached, fun hd => ?_, hb.inline, fun hs hn hp => ?_, fun h1 hs hp => ?_,
        fun hs => hb.slotLen (getElem?_append_replicate_none.mp hs)⟩⟩
    · exact (List.getElem?_append_left hzero).trans hh.mapHead
    · have := hh.accounts
      unfold ownedSlots at this ⊢
      rwa [hred]
    · intro s hs
      exact hh.data s (by rwa [← hred])
    · have h1 : _ < f.slotMap.length := (hb.cachedLt hd).1
      exact ⟨by simp only [List.length_append]; omega, (hb.cachedLt hd).2⟩
    · exact hb.slot (getElem?_append_replicate_none.mp hs) hn hp
    · exact hb.gap h1 (join_append_replicate_none.symm.trans hs) hp
  next => exact hok

theorem loadForWrite_ok {A : Content} {lim : Nat} {h h' : Handle σ} {fb : FileBlock}
    {ids chain : List Nat} {ord : IterOrder Nat} {ci : Nat} (hok : OpenOk A lim h fb ids chain)
    (hci : ci < lim) (hmap : ci < h.file.slotMap.length)
    (hrun : (loadForWrite ord ci).run h = .ok () h') :
    h'.container = h.container ∧ Recached h.file h'.file ∧
      (∀ {i d}, h'.file.cache.get i = some d → i = ci ∨ h.file.cache.get i = some d) ∧
      OpenOk (A.except ci) lim h' fb ids chain ∧
      ∀ chunk, h'.file.cache.get ci = some chunk → Fillable A ci chunk := by
  have hshown : ∀ {d}, Shows A ci d → Fillable A ci d := fun hd =>
    ⟨hd.1, fun off hoff => .inl (hd.2 off hoff)⟩
  obtain ⟨_, _, hget, hcont⟩ := run_bind_ok.mp hrun
  cases hget
  split at hcont
  next hin =>
    cases hcont
    exact ⟨rfl, .refl _, .inr, ⟨hok.handle, hok.backed.mono (fun _ _ => .inr) le_rfl⟩,
      fun chunk hc => hshown (hok.backed.cached hc)⟩
  next hout =>
    have hnone : h.file.cache.get ci = none :=
      (HashMap.containsKey_eq_false _ _).mp (Bool.eq_false_iff.mpr hout)
    split at hcont
    next =>
      obtain ⟨hc, hr, hsub, -, hok'⟩ := ensureCached_ok hok hci hcont
      exact ⟨hc, hr, hsub, ⟨hok'.handle, hok'.backed.mono (fun _ _ => .inr) le_rfl⟩,
        fun chunk hc => hshown (hok'.backed.cached hc)⟩
    next hnew =>
      -- a brand-new chunk: nothing of it was stored anywhere
      obtain ⟨hslot, hci0⟩ := not_or.mp hnew
      have hgap := hok.backed.gap (by omega) (by simpa using hslot) fun hp => hp.2 hnone
      rw [modifyFile_ok] at hcont
      subst hcont
      have hr : Recached h.file (cacheInsert ci (List.replicate chunkSize 0) h.file) := by
        refine ⟨⟨_, rfl⟩, fun {i d} _ hc => ?_⟩
        have hne : i ≠ ci := fun e => by rw [e, hnone] at hc; cases hc
        simpa [cacheInsert, hne] using hc
      refine ⟨rfl, hr, fun {i d} hc => ?_, ⟨hok.handle.recached hr,
        (hok.backed.mono (fun _ _ => .inr) le_rfl).recached hr fun {i d} hc => ?_⟩, ?_⟩
      · by_cases e : i = ci
        · exact .inl e
        · exact .inr (by simpa [cacheInsert, e] using hc)
      · simp only [cacheInsert, HashMap.get_insert] at hc
        split at hc
        next e =>
          subst e
          cases hc
          exact ⟨⟨by simp, fun off hoff => .inl (div_chunk hoff)⟩, hmap, hci⟩
        next =>
          exact ⟨(hok.backed.cached hc).mono fun _ _ _ => .inr, hok.backed.cachedLt hc⟩
      · intro chunk hc
        obtain rfl : List.replicate chunkSize 0 = chunk := by simpa [cacheInsert] using hc
        refine ⟨by simp, fun off hoff => .inr ⟨?_, by simp [hoff]⟩⟩
        simpa using hgap.2 off hoff

omit [NodeStore σ] [LawfulNodeStore σ] in
theorem patchChunk_ok {A A' : Content} {lim ci coff stop : Nat} {c : σ} {f : OpenFile}
    {fb : FileBlock} {ids chain : List Nat} {chunk piece : List UInt8}
    (hok : OpenOk (A.except ci) lim ⟨c, f⟩ fb ids chain) (hchunk : f.cache.get ci = some chunk)
    (hfill : Fillable A ci chunk) (hlen : coff + piece.length ≤ chunkSize)
    (hover : Overwrites A A' (ci * chunkSize + coff) piece) :
    OpenOk A' lim ⟨c, patchChunk ci coff stop chunk piece f⟩ fb ids chain := by
  obtain ⟨hh, hb⟩ := hok
  -- the other chunks lie outside the piece
  have hother : ∀ {i d}, i ≠ ci → Shows (A.except ci) i d → Shows A' i d := by
    intro i d hne hd
    refine hd.mono fun off b hoff ha => ?_
    have hdiv : (i * chunkSize + off) / chunkSize = i := div_chunk hoff
    rcases ha with e | ha
    · exact absurd (hdiv.symm.trans e) hne
    · refine hover.outside _ _ ?_ ha
      rcases Nat.lt_or_gt_of_ne hne with hlt | hgt
      · have := Nat.mul_le_mul_right chunkSize hlt
        rw [Nat.succ_mul] at this; omega
      · have := Nat.mul_le_mul_right chunkSize hgt
        rw [Nat.succ_mul] at this; omega
  have hpend : ∀ {i}, ¬ Pending (patchChunk ci coff stop chunk piece f) i →
      i ≠ ci ∧ ¬ Pending f i := by
    intro i hn
    have hne : i ≠ ci := fun e => hn ⟨by simp [patchChunk, e], by simp [patchChunk, e]⟩
    exact ⟨hne, fun hp => hn ⟨by simp [patchChunk, hp.1], by simpa [patchChunk, hne] using hp.2⟩⟩
  refine ⟨⟨hh.head, hh.chainEq, hh.index, hh.mapHead, hh.accounts, hh.data, fun hm => ?_,
    fun hm => ?_⟩, ⟨fun {i d} hd => ?_, fun {i d} hd => ?_, fun hn => ?_, fun hs hnode hn => ?_,
      fun h1 hs hn => ?_, hb.slotLen⟩⟩
  · simp only [patchChunk, Bool.or_eq_false_iff, decide_eq_false_iff_not, not_not] at hm ⊢
    rw [hm.2]
    exact hh.clean hm.1
  · simp only [patchChunk, Bool.or_eq_false_iff, decide_eq_false_iff_not, not_not] at hm ⊢
    rw [hm.2]
    exact hh.trimmed hm.1
  · simp only [patchChunk, HashMap.get_insert] at hd
    split at hd
    next e =>
      subst e
      cases hd
      exact .patch hfill hover hlen
    next hne => exact hother hne (hb.cached hd)
  · simp only [patchChunk, HashMap.get_insert] at hd
    split at hd
    next e => subst e; exact hb.cachedLt hchunk
    next => exact hb.cachedLt hd
  · exact hother (hpend hn).1 (hb.inline (hpend hn).2)
  · exact hother (hpend hn).1 (hb.slot hs hnode (hpend hn).2)
  · exact hother (hpend hn).1 (hb.gap h1 hs (hpend hn).2)

theorem extendSlotMap_written (ci : Nat) (f : OpenFile) :
    Written (fun _ => False) f (extendSlotMap ci f) ∧
      (extendSlotMap ci f).totalSize = f.totalSize ∧ (extendSlotMap ci f).dirty = f.dirty ∧
      (extendSlotMap ci f).cache = f.cache := by
  obtain ⟨hk, -⟩ := extendSlotMap_slotMap ci f
  refine ⟨⟨?_, ?_, ?_, ?_, hk, fun i => ?_⟩, ?_, ?_, ?_⟩ <;> unfold extendSlotMap <;> split <;>
    simp [Pending]

theorem writePiece_ok {A A' : Content} {lim : Nat} {h h' : Handle σ} {fb : FileBlock}
    {ids chain : List Nat} {ord : IterOrder Nat} {stop pos : Nat} {piece : List UInt8}
    (hok : OpenOk A lim h fb ids chain) (hlim : pos / chunkSize < lim)
    (hlen : pos % chunkSize + piece.length ≤ chunkSize) (hover : Overwrites A A' pos piece)
    (hrun : (writePiece ord stop pos piece).run h = .ok () h') :
    h'.container = h.container ∧ OpenOk A' lim h' fb ids chain ∧
      Written (· = pos / chunkSize) h.file h'.file ∧
      h'.file.totalSize = max stop h.file.totalSize := by
  obtain ⟨_, h₁, hext, hcont⟩ := run_bind_ok.mp hrun
  rw [modifyFile_ok] at hext
  subst hext
  obtain ⟨_, h₂, hload, hcont₂⟩ := run_bind_ok.mp hcont
  obtain ⟨hw, htotal, hdirty, hcache⟩ := extendSlotMap_written (pos / chunkSize) h.file
  obtain ⟨hc, hr, hsub, hok₂, hfill⟩ := loadForWrite_ok (extendSlotMap_ok hok) hlim
    (extendSlotMap_slotMap (pos / chunkSize) h.file).2 hload
  obtain ⟨_, _, hget, hbody⟩ := run_bind_ok.mp hcont₂
  cases hget
  split at hbody
  next => cases hbody
  next chunk hchunk =>
    rw [modifyFile_ok] at hbody
    subst hbody
    refine ⟨hc, patchChunk_ok hok₂ hchunk (hfill chunk hchunk) hlen (by rwa [chunk_split]), ?_, ?_⟩
    · have hp : ∀ i, Pending (patchChunk (pos / chunkSize) (pos % chunkSize) stop chunk piece
          h₂.file) i ↔ Pending h₂.file i ∨ i = pos / chunkSize := fun i => by
        by_cases e : i = pos / chunkSize <;> simp [Pending, patchChunk, e]
      have hp₂ : ∀ i, i ≠ pos / chunkSize → (Pending h₂.file i ↔
          Pending (extendSlotMap (pos / chunkSize) h.file) i) := fun i hne => by
        refine ⟨fun hpend => ?_, hr.pending⟩
        obtain ⟨hd, hn⟩ := hpend
        obtain ⟨d, hd'⟩ := Option.ne_none_iff_exists'.mp hn
        obtain ⟨⟨m, hm⟩, -⟩ := hr
        rw [hm] at hd
        exact ⟨hd, by rw [(hsub hd').resolve_left hne]; simp⟩
      obtain ⟨⟨m, hm⟩, -⟩ := id hr
      refine ⟨?_, ?_, ?_, fun hd => ?_, ?_, fun i => ?_⟩
      · simp only [patchChunk, hm, hw.ino]
      · simp only [patchChunk, hm, hw.headSlot]
      · simp only [patchChunk, hm, hw.indexChain]
      · simp only [patchChunk, hm, hw.metaDirty hd, Bool.true_or]
      · simpa only [patchChunk, hm] using hw.slotMap
      · rw [hp i]
        by_cases e : i = pos / chunkSize
        · simp [e]
        · rw [hp₂ i e, hw.pending, or_false]
    · obtain ⟨⟨m, hm⟩, -⟩ := hr
      simp only [patchChunk, hm, htotal]

theorem pieceLen_pos {stop pos : Nat} (h : pos < stop) : 0 < pieceLen stop pos := by
  have := Nat.mod_lt pos chunkSize_pos
  unfold pieceLen
  omega

/-- The loop of a write.  What is known may change from piece to piece. -/
theorem writeLoop_ok {A : Nat → Content} {lim : Nat} {h h' : Handle σ} {fb : FileBlock}
    {ids chain : List Nat} {ord : IterOrder Nat} {offset pos : Nat} {data : List UInt8}
    (hok : OpenOk (A pos) lim h fb ids chain) (hpos : offset ≤ pos)
    (hend : pos ≤ offset + data.length)
    (hlim : ∀ p, pos ≤ p → p < offset + data.length → p / chunkSize < lim)
    (hover : ∀ q k, offset ≤ q → q + k ≤ offset + data.length →
      Overwrites (A q) (A (q + k)) q ((data.drop (q - offset)).take k))
    (hrun : (writeLoop ord offset data pos).run h = .ok () h') :
    h'.container = h.container ∧ OpenOk (A (offset + data.length)) lim h' fb ids chain ∧
      Written (fun i => ∃ p, pos ≤ p ∧ p < offset + data.length ∧ i = p / chunkSize)
        h.file h'.file ∧
      h'.file.totalSize =
        if pos < offset + data.length then max (offset + data.length) h.file.totalSize
        else h.file.totalSize := by
  induction hn : offset + data.length - pos using Nat.strongRecOn generalizing pos h with
  | _ n ih =>
    rw [writeLoop] at hrun
    split at hrun
    next hlt =>
      obtain ⟨_, h₁, hpiece, hrest⟩ := run_bind_ok.mp hrun
      have hmod := Nat.mod_lt pos chunkSize_pos
      let take := pieceLen (offset + data.length) pos
      have htake : take = min (chunkSize - pos % chunkSize) (offset + data.length - pos) := rfl
      have hlen : ((data.drop (pos - offset)).take take).length = take := by
        rw [List.length_take, List.length_drop]; omega
      obtain ⟨hc, hok₁, hw, htotal⟩ := writePiece_ok hok (hlim pos le_rfl hlt) (by rw [hlen]; omega)
        (hover pos take hpos (by omega)) hpiece
      obtain ⟨hc₂, hok₂, hw₂, htotal₂⟩ :=
        ih (offset + data.length - (pos + take)) (by omega) hok₁ (by omega) (by omega)
          (fun p hp => hlim p (by omega)) hrest rfl
      refine ⟨hc₂.trans hc, hok₂, ?_, ?_⟩
      · have hboth := hw.trans hw₂
        refine { hboth with pending := fun i => (hboth.pending i).trans (or_congr_right ?_) }
        have hsplit := chunk_split pos
        constructor
        · rintro (rfl | ⟨p, h1, h2, rfl⟩)
          · exact ⟨pos, le_rfl, hlt, rfl⟩
          · exact ⟨p, by omega, h2, rfl⟩
        · rintro ⟨p, h1, h2, rfl⟩
          by_cases hp : p < pos + take
          · -- inside the piece, which does not leave its chunk
            refine .inl ?_
            have hoff : p = pos / chunkSize * chunkSize + (pos % chunkSize + (p - pos)) := by omega
            rw [hoff, div_chunk (by omega)]
          · exact .inr ⟨p, by omega, h2, rfl⟩
      · rw [if_pos hlt, htotal₂, htotal]
        split <;> omega
    next hge =>
      cases hrun
      obtain rfl : pos = offset + data.length := by omega
      have hnone : ∀ i, (∃ p, offset + data.length ≤ p ∧ p < offset + data.length ∧
          i = p / chunkSize) ↔ False := fun i => by
        constructor
        · rintro ⟨p, h1, h2, -⟩; omega
        · exact False.elim
      refine ⟨rfl, hok, { Written.refl _ with pending := fun i => ?_ }, by simp⟩
      rw [hnone i, or_false]

end Venom.Fuse

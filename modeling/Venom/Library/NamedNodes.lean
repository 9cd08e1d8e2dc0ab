import Venom.Library.NameTree

/-! # Nodes under their paths

Keys stand for nodes of a tree: numbers given out for them, handles on them.  Seen from
outside, a key stands for a path.  As long as the tree is one, either view determines the
other, and a change of the tree is a change of the paths.
-/

namespace Venom.Library.NameTree

/-! ## Paths of a node that moves -/

section Paths

variable {ν α : Type*} [DecidableEq ν] {src dst q rest : List ν} {T : List ν → Option α}

/-- A path when what was at `src` is at `dst`. -/
def rebase (src dst q : List ν) : List ν := if src <+: q then dst ++ q.drop src.length else q

/-- What the paths lead to when what was at `src` is at `dst`, with all that is below it. -/
def relocate (src dst : List ν) (T : List ν → Option α) : List ν → Option α := fun q =>
  if dst <+: q then T (src ++ q.drop dst.length) else if src <+: q then none else T q

@[simp] theorem rebase_below : rebase src dst (src ++ rest) = dst ++ rest := by
  simp [rebase]

theorem rebase_beside (h : ¬ src <+: q) : rebase src dst q = q := if_neg h

@[simp] theorem relocate_below : relocate src dst T (dst ++ rest) = T (src ++ rest) := by
  simp [relocate]

@[simp] theorem relocate_self : relocate src src T = T := by
  funext q
  unfold relocate
  split
  next h =>
    obtain ⟨rest, rfl⟩ := h
    rw [List.drop_left]
  next => rfl

/-- What is looked up behind the paths moves with them. -/
theorem relocate_bind {β : Type*} (f : α → Option β) :
    (relocate src dst T q).bind f = relocate src dst (fun q => (T q).bind f) q := by
  simp only [relocate]
  split_ifs <;> rfl

theorem relocate_beside (h : ¬ src <+: q) (h' : ¬ dst <+: q) : relocate src dst T q = T q := by
  rw [relocate, if_neg h', if_neg h]

end Paths

/-! ## Keys -/

variable {ι ν κ : Type*} {child child' : ι → ν → Option ι} {root t : ι} {node node' : κ → Option ι}
  {path : κ → Option (List ν)} {q : List ν} {k : κ}

/-- A key stands for the path of the node it stands for. -/
def Named (child : ι → ν → Option ι) (root : ι) (node : κ → Option ι) (path : κ → Option (List ν)) :
    Prop :=
  ∀ k q, path k = some q ↔ ∃ t, node k = some t ∧ walk child root q = some t

namespace Named

theorem walk_eq (h : Named child root node path) (hk : path k = some q) :
    walk child root q = node k := by
  obtain ⟨t, ht, hq⟩ := (h k q).mp hk
  rw [ht, hq]

theorem path_eq (h : Named child root node path) (hk : node k = some t)
    (hq : walk child root q = some t) : path k = some q := (h k q).mpr ⟨t, hk, hq⟩

/-- A key of a node in the tree stands for a path. -/
theorem exists_path (h : Named child root node path) (hk : node k = some t)
    (ht : Reachable child root t) : ∃ q, path k = some q ∧ walk child root q = some t := by
  obtain ⟨q, hq⟩ := ht
  exact ⟨q, h.path_eq hk hq, hq⟩

/-- A path that no key stands for is that of a node without one. -/
theorem node_ne (h : Named child root node path) (hq : walk child root q = some t) :
    (∀ k, path k ≠ some q) ↔ ∀ k, node k ≠ some t := by
  constructor
  · exact fun hnone k hk => hnone k (h.path_eq hk hq)
  · intro hnone k hk
    obtain ⟨u, hu, hq'⟩ := (h k q).mp hk
    cases hq.symm.trans hq'
    exact hnone k hu

/-- No key stands for anything. -/
theorem empty : Named child root (fun _ : κ => none) fun _ => none := fun k q => by simp

theorem congr (h : Named child root node path) (hwalk : ∀ q, walk child' root q = walk child root q)
    (hnode : ∀ k, node' k = node k) : Named child' root node' path := fun k q => by
  rw [h k q, hnode k, hwalk q]

theorem insert [DecidableEq κ] (h : Named child root node path) (htree : IsTree child root)
    (hq : walk child root q = some t) (k : κ) :
    Named child root (Function.update node k (some t)) (Function.update path k (some q)) := by
  intro j p
  by_cases hjk : j = k
  · rw [hjk, Function.update_self, Function.update_self]
    constructor
    · intro hp
      cases hp
      exact ⟨t, rfl, hq⟩
    · rintro ⟨u, hu, hp⟩
      cases hu
      rw [htree hq hp]
  · rw [Function.update_of_ne hjk, Function.update_of_ne hjk]
    exact h j p

theorem erase [DecidableEq κ] (h : Named child root node path) (k : κ) :
    Named child root (Function.update node k none) (Function.update path k none) := by
  intro j p
  by_cases hjk : j = k
  · simp [hjk]
  · rw [Function.update_of_ne hjk, Function.update_of_ne hjk]
    exact h j p

variable [DecidableEq ν]

/-- A node comes that no key stands for. -/
theorem linked (h : Named child root node path)
    (hwalk : ∀ p, walk child' root p = if p = q then some t else walk child root p)
    (hnew : walk child root q = none) (hno : ∀ k, node k ≠ some t) :
    Named child' root node path := by
  intro k p
  rw [h k p, hwalk p]
  by_cases hpq : p = q
  · rw [hpq, hnew, if_pos rfl]
    constructor
    · rintro ⟨_, _, hu⟩
      cases hu
    · rintro ⟨u, hu, ht⟩
      cases ht
      exact absurd hu (hno k)
  · rw [if_neg hpq]

/-- A node goes, with the keys that stand for it. -/
theorem unlinked (h : Named child root node path) (htree : IsTree child root)
    (hwalk : ∀ p, walk child' root p = if p = q then none else walk child root p)
    (hq : walk child root q = some t)
    (hnode : ∀ k u, node' k = some u ↔ node k = some u ∧ u ≠ t) :
    Named child' root node' fun k => (path k).filter (· ≠ q) := by
  intro k p
  have hfilter : (path k).filter (fun p => decide (p ≠ q)) = some p ↔ path k = some p ∧ p ≠ q := by
    simp [Option.filter_eq_some_iff]
  rw [hfilter, h k p, hwalk p]
  constructor
  · rintro ⟨⟨u, hu, hp⟩, hpq⟩
    have hut : u ≠ t := fun heq => hpq (htree (heq ▸ hp) hq)
    exact ⟨u, (hnode k u).mpr ⟨hu, hut⟩, by rw [if_neg hpq, hp]⟩
  · rintro ⟨u, hu, hp⟩
    split at hp
    next => cases hp
    next hpq => exact ⟨⟨u, ((hnode k u).mp hu).1, hp⟩, hpq⟩

end Named

/-! ## Keys of nodes that move -/

section Relocated

variable [DecidableEq ν] {dir dir' moved : ι} {name name' : ν} {p p' : List ν}

/-- What every path leads to after a move. -/
theorem Relocation.walk_eq (h : Relocation child child' root dir name dir' name' moved)
    (htree : IsTree child root) (hdir : walk child root p = some dir)
    (hdir' : walk child root p' = some dir') (hoff : ¬ p ++ [name] <+: p') :
    walk child' root q = relocate (p ++ [name]) (p' ++ [name']) (walk child root) q := by
  by_cases hnew : p' ++ [name'] <+: q
  · obtain ⟨rest, rfl⟩ := hnew
    rw [h.walk_moved htree hdir hdir' hoff, relocate_below]
  · by_cases hold : p ++ [name] <+: q
    · rw [h.walk_vacated htree hdir hdir' hold hnew, relocate, if_neg hnew, if_pos hold]
    · rw [h.walk_beside htree hdir hdir' hold hnew, relocate_beside hold hnew]

/-- Where the path of a node that is not replaced leads after the move. -/
theorem Relocation.walk_rebase (h : Relocation child child' root dir name dir' name' moved)
    (htree : IsTree child root) (hdir : walk child root p = some dir)
    (hdir' : walk child root p' = some dir') (hoff : ¬ p ++ [name] <+: p')
    (hne : p ++ [name] ≠ p' ++ [name']) (hq : walk child root q = some t) (hqd : q ≠ p' ++ [name']) :
    walk child' root (rebase (p ++ [name]) (p' ++ [name']) q) = some t := by
  by_cases hold : p ++ [name] <+: q
  · obtain ⟨rest, rfl⟩ := hold
    rw [rebase_below, h.walk_moved htree hdir hdir' hoff, hq]
  · have hnew : ¬ p' ++ [name'] <+: q := by
      rintro ⟨rest, rfl⟩
      obtain ⟨o, ho, hrest⟩ := walk_append_eq_some.mp hq
      obtain ⟨u, hu, hc⟩ := walk_concat_eq_some.mp ho
      cases hdir'.symm.trans hu
      have hmoved : o ≠ moved := fun heq =>
        hne (htree (walk_concat_eq_some.mpr ⟨dir, hdir, h.source⟩) (heq ▸ ho))
      -- there is nothing below what is replaced
      obtain ⟨rfl, -⟩ := walk_leaf (h.leaf o hc hmoved) hrest
      exact hqd (List.append_nil _)
    rw [rebase_beside hold, h.walk_beside htree hdir hdir' hold hnew, hq]

/-- The keys follow the nodes they stand for. -/
theorem Named.relocated (hk : Named child root node path)
    (h : Relocation child child' root dir name dir' name' moved) (htree : IsTree child root)
    (hdir : walk child root p = some dir) (hdir' : walk child root p' = some dir')
    (hoff : ¬ p ++ [name] <+: p') (hne : p ++ [name] ≠ p' ++ [name'])
    (hnode : ∀ k u, node' k = some u ↔ node k = some u ∧ child dir' name' ≠ some u) :
    Named child' root node' fun k =>
      ((path k).filter (· ≠ p' ++ [name'])).map (rebase (p ++ [name]) (p' ++ [name'])) := by
  have htree' : IsTree child' root := h.isTree htree hdir hdir' hoff
  intro k q'
  have hfilter : ∀ q, (path k).filter (fun q => decide (q ≠ p' ++ [name'])) = some q ↔
      path k = some q ∧ q ≠ p' ++ [name'] := fun q => by simp [Option.filter_eq_some_iff]
  simp only [Option.map_eq_some_iff, hfilter]
  constructor
  · rintro ⟨q, ⟨hq, hqd⟩, rfl⟩
    obtain ⟨u, hu, hwalk⟩ := (hk k q).mp hq
    refine ⟨u, (hnode k u).mpr ⟨hu, fun hc => hqd ?_⟩,
      h.walk_rebase htree hdir hdir' hoff hne hwalk hqd⟩
    exact htree hwalk (walk_concat_eq_some.mpr ⟨dir', hdir', hc⟩)
  · rintro ⟨u, hu, hwalk'⟩
    obtain ⟨hu₀, hc⟩ := (hnode k u).mp hu
    obtain ⟨⟨q, hq⟩, -⟩ := (h.reachable htree hdir hdir' hoff).mp ⟨q', hwalk'⟩
    have hqd : q ≠ p' ++ [name'] := fun heq => by
      obtain ⟨w, hw, hc'⟩ := walk_concat_eq_some.mp (heq ▸ hq)
      cases hdir'.symm.trans hw
      exact hc hc'
    exact ⟨q, ⟨hk.path_eq hu₀ hq, hqd⟩,
      htree' (h.walk_rebase htree hdir hdir' hoff hne hq hqd) hwalk'⟩

end Relocated

end Venom.Library.NameTree

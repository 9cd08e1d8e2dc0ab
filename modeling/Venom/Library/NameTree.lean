import Mathlib.Data.List.Induction
import Mathlib.Data.List.Infix

/-! # Trees of names

A directory store is a function `child`: the node behind a name in a node.  `walk` follows
a path from the root, and the store is a tree when a node has one path only.  Two changes
of a tree are described by what they do to every path: `EdgeChange`, where one name gains
or loses a leaf, and `Relocation`, where a node moves with everything below it.
-/

namespace Venom.Library.NameTree

variable {ι ν : Type*}

def walk (child : ι → ν → Option ι) : ι → List ν → Option ι
  | s, [] => some s
  | s, n :: path => (child s n).bind fun t => walk child t path

def Reachable (child : ι → ν → Option ι) (root t : ι) : Prop := ∃ path, walk child root path = some t

/-- A node has one path at most. -/
def IsTree (child : ι → ν → Option ι) (root : ι) : Prop :=
  ∀ {t p q}, walk child root p = some t → walk child root q = some t → p = q

variable {child child' : ι → ν → Option ι} {root s t : ι} {n name : ν} {p q : List ν}

@[simp] theorem walk_nil : walk child s ([] : List ν) = some s := rfl

@[simp] theorem walk_cons : walk child s (n :: q) = (child s n).bind fun t => walk child t q := rfl

theorem walk_append : walk child s (p ++ q) = (walk child s p).bind fun t => walk child t q := by
  induction p generalizing s with
  | nil => simp
  | cons n p ih => cases h : child s n <;> simp [h, ih]

theorem walk_append_eq_some :
    walk child s (p ++ q) = some t ↔ ∃ u, walk child s p = some u ∧ walk child u q = some t := by
  rw [walk_append, Option.bind_eq_some_iff]

/-- The last step of a path. -/
theorem walk_concat_eq_some :
    walk child s (p ++ [n]) = some t ↔ ∃ u, walk child s p = some u ∧ child u n = some t := by
  simp [walk_append_eq_some]

/-- Below a leaf there is nothing. -/
theorem walk_leaf (hleaf : ∀ n, child s n = none) (h : walk child s q = some t) : q = [] ∧ t = s := by
  cases q with
  | nil => exact ⟨rfl, by simpa using h.symm⟩
  | cons n q => simp [hleaf n] at h

/-- A path whose steps are all kept. -/
theorem walk_congr (h : ∀ p n s, p ++ [n] <+: q → walk child root p = some s → child' s n = child s n) :
    walk child' root q = walk child root q := by
  induction q using List.reverseRecOn with
  | nil => rfl
  | append_singleton q n ih =>
    have hq := ih fun p m s hp => h p m s (hp.trans (List.prefix_append q [n]))
    rw [walk_append, walk_append, hq]
    cases hs : walk child root q with
    | none => rfl
    | some s => simp [h q n s List.prefix_rfl hs]

namespace Reachable

theorem self : Reachable child root root := ⟨[], rfl⟩

theorem step (h : Reachable child root s) (hc : child s n = some t) : Reachable child root t := by
  obtain ⟨path, hpath⟩ := h
  exact ⟨path ++ [n], walk_concat_eq_some.mpr ⟨s, hpath, hc⟩⟩

end Reachable

namespace IsTree

theorem parent_unique (h : IsTree child root) {s' : ι} {n' : ν} (hs : Reachable child root s)
    (hs' : Reachable child root s') (hc : child s n = some t) (hc' : child s' n' = some t) :
    s = s' ∧ n = n' := by
  obtain ⟨p, hp⟩ := hs
  obtain ⟨q, hq⟩ := hs'
  have heq := h (walk_concat_eq_some.mpr ⟨s, hp, hc⟩) (walk_concat_eq_some.mpr ⟨s', hq, hc'⟩)
  obtain ⟨hpq, hn⟩ := List.append_inj' heq rfl
  rw [hpq, hq] at hp
  exact ⟨(Option.some.inj hp).symm, by simpa using hn⟩

theorem root_top (h : IsTree child root) (hs : Reachable child root s) : child s n ≠ some root := by
  obtain ⟨p, hp⟩ := hs
  intro hc
  have hloop : walk child root (p ++ [n]) = some root := walk_concat_eq_some.mpr ⟨s, hp, hc⟩
  have hnil := h hloop walk_nil
  simp at hnil

/-- A root without children. -/
theorem of_leaf (hleaf : ∀ n, child root n = none) : IsTree child root := by
  intro t p q hp hq
  rw [(walk_leaf hleaf hp).1, (walk_leaf hleaf hq).1]

end IsTree

/-! ## A name gains or loses a leaf -/

/-- Only what `name` denotes in `dir` changes, from a leaf or nothing to a leaf or
    nothing.  A leaf that goes may hold anything afterwards. -/
structure EdgeChange (child child' : ι → ν → Option ι) (root dir : ι) (name : ν) : Prop where
  others : ∀ s n, Reachable child root s → child dir name ≠ some s → (s = dir → n ≠ name) →
    child' s n = child s n
  leaf : ∀ t, child dir name = some t → ∀ n, child t n = none
  leaf' : ∀ t, child' dir name = some t → ∀ n, child' t n = none

namespace EdgeChange

variable {dir : ι} {path : List ν}

/-- A path that does not start with the changed one leads where it led. -/
theorem walk_beside (h : EdgeChange child child' root dir name) (htree : IsTree child root)
    (hdir : walk child root path = some dir) (hq : ¬ path ++ [name] <+: q) :
    walk child' root q = walk child root q := by
  refine walk_congr fun p n s hp hs => h.others s n ⟨p, hs⟩ (fun hc => hq ?_) fun heq hn => hq ?_
  · -- the step leaves the changed leaf
    rw [htree (walk_concat_eq_some.mpr ⟨dir, hdir, hc⟩) hs]
    exact (List.prefix_append p [n]).trans hp
  · rw [htree hdir (heq ▸ hs), ← hn]
    exact hp

theorem walk_dir (h : EdgeChange child child' root dir name) (htree : IsTree child root)
    (hdir : walk child root path = some dir) : walk child' root path = some dir := by
  rw [h.walk_beside htree hdir fun hp => ?_, hdir]
  have hlen := hp.length_le
  rw [List.length_append, List.length_singleton] at hlen
  omega

/-- What every path leads to after the change. -/
theorem walk_eq (h : EdgeChange child child' root dir name) (htree : IsTree child root)
    (hdir : walk child root path = some dir) [DecidableEq ν] :
    walk child' root q = if q = path ++ [name] then child' dir name else walk child root q := by
  by_cases hp : path ++ [name] <+: q
  · obtain ⟨rest, rfl⟩ := hp
    rw [List.append_assoc, walk_append, walk_append, hdir, h.walk_dir htree hdir]
    cases rest with
    | nil => simp
    | cons n rest =>
      have hbelow : child' dir name = none ∨ ∃ t, child' dir name = some t ∧ child' t n = none := by
        cases hc : child' dir name with
        | none => exact .inl rfl
        | some t => exact .inr ⟨t, rfl, h.leaf' t hc n⟩
      have hbelow' : child dir name = none ∨ ∃ t, child dir name = some t ∧ child t n = none := by
        cases hc : child dir name with
        | none => exact .inl rfl
        | some t => exact .inr ⟨t, rfl, h.leaf t hc n⟩
      obtain hnew | ⟨t, hnew, hleaf⟩ := hbelow <;> obtain hold | ⟨t', hold, hleaf'⟩ := hbelow' <;>
        simp [*]
  · have hne : q ≠ path ++ [name] := fun heq => hp (heq ▸ List.prefix_rfl)
    rw [if_neg hne, h.walk_beside htree hdir hp]

/-- The nodes of the tree: the old leaf is gone, the new one is there. -/
theorem reachable (h : EdgeChange child child' root dir name) (htree : IsTree child root)
    (hdir : walk child root path = some dir) :
    Reachable child' root t ↔
      Reachable child root t ∧ child dir name ≠ some t ∨ child' dir name = some t := by
  classical
  constructor
  · rintro ⟨q, hq⟩
    rw [h.walk_eq htree hdir] at hq
    split at hq
    next => exact .inr hq
    next hne =>
      exact .inl ⟨⟨q, hq⟩, fun hc => hne (htree hq (walk_concat_eq_some.mpr ⟨dir, hdir, hc⟩))⟩
  · rintro (⟨⟨q, hq⟩, hne⟩ | hc)
    · refine ⟨q, ?_⟩
      rw [h.walk_eq htree hdir, if_neg, hq]
      rintro rfl
      obtain ⟨u, hu, hc⟩ := walk_concat_eq_some.mp hq
      rw [hdir] at hu
      exact hne (Option.some.inj hu ▸ hc)
    · exact ⟨path ++ [name], by rw [h.walk_eq htree hdir, if_pos rfl, hc]⟩

/-- The store stays a tree when the new leaf is new. -/
theorem isTree (h : EdgeChange child child' root dir name) (htree : IsTree child root)
    (hdir : Reachable child root dir)
    (hnew : ∀ t, child' dir name = some t → child dir name ≠ some t → ¬ Reachable child root t) :
    IsTree child' root := by
  classical
  obtain ⟨path, hdir⟩ := hdir
  -- a path that is not the changed one cannot lead to the new leaf
  have hone : ∀ {t q}, walk child root q = some t → child' dir name = some t → q = path ++ [name] := by
    intro t q hq hc
    by_cases hold : child dir name = some t
    · exact htree hq (walk_concat_eq_some.mpr ⟨dir, hdir, hold⟩)
    · exact absurd ⟨q, hq⟩ (hnew t hc hold)
  intro t p q hp hq
  rw [h.walk_eq htree hdir] at hp hq
  split at hp
  next hpeq =>
    split at hq
    next hqeq => rw [hpeq, hqeq]
    next hqne => exact absurd (hone hq hp) hqne
  next hpne =>
    split at hq
    next hqeq => exact absurd (hone hp hq) hpne
    next hqne => exact htree hp hq

end EdgeChange

/-! ## A node moves -/

/-- `moved` goes from `name` in `dir` to `name'` in `dir'`, with everything below it, and
    takes the place of a leaf or of nothing.  The leaf may hold anything afterwards. -/
structure Relocation (child child' : ι → ν → Option ι) (root dir : ι) (name : ν) (dir' : ι) (name' : ν)
    (moved : ι) : Prop where
  others : ∀ s n, Reachable child root s → (child dir' name' = some s → s = moved) →
    (s = dir → n ≠ name) → (s = dir' → n ≠ name') → child' s n = child s n
  source : child dir name = some moved
  target : child' dir' name' = some moved
  vacated : (dir = dir' → name ≠ name') → child' dir name = none
  leaf : ∀ t, child dir' name' = some t → t ≠ moved → ∀ n, child t n = none

namespace Relocation

variable {dir dir' moved : ι} {name' : ν} {path path' : List ν}

/-- A path that starts neither with the old place nor with the new one. -/
theorem walk_beside (h : Relocation child child' root dir name dir' name' moved)
    (htree : IsTree child root) (hdir : walk child root path = some dir)
    (hdir' : walk child root path' = some dir') (hq : ¬ path ++ [name] <+: q)
    (hq' : ¬ path' ++ [name'] <+: q) : walk child' root q = walk child root q := by
  refine walk_congr fun p n s hp hs => h.others s n ⟨p, hs⟩ (fun hc => absurd ?_ hq')
    (fun heq hn => hq ?_) fun heq hn => hq' ?_
  · rw [htree (walk_concat_eq_some.mpr ⟨dir', hdir', hc⟩) hs]
    exact (List.prefix_append p [n]).trans hp
  · rw [htree hdir (heq ▸ hs), ← hn]
    exact hp
  · rw [htree hdir' (heq ▸ hs), ← hn]
    exact hp

/-- No path starts with a longer one. -/
theorem not_prefix_self {path : List ν} : ¬ path ++ [name] <+: path := fun hp => by
  have hlen := hp.length_le
  rw [List.length_append, List.length_singleton] at hlen
  omega

/-- The old directory is not below the node that is replaced. -/
theorem not_prefix_dir (h : Relocation child child' root dir name dir' name' moved)
    (htree : IsTree child root) (hdir : walk child root path = some dir)
    (hdir' : walk child root path' = some dir') : ¬ path' ++ [name'] <+: path := by
  rintro ⟨rest, rfl⟩
  obtain ⟨o, ho, hrest⟩ := walk_append_eq_some.mp hdir
  obtain ⟨u, hu, hc⟩ := walk_concat_eq_some.mp ho
  cases hdir'.symm.trans hu
  by_cases hsame : o = moved
  · -- the node would be its own ancestor
    have hloop := htree ho (walk_concat_eq_some.mpr ⟨dir, hdir, hsame ▸ h.source⟩)
    have hlen := congrArg List.length hloop
    simp at hlen
  · obtain ⟨-, rfl⟩ := walk_leaf (h.leaf o hc hsame) hrest
    exact Option.some_ne_none _ (h.source.symm.trans (h.leaf _ hc hsame name))

theorem walk_dir' (h : Relocation child child' root dir name dir' name' moved)
    (htree : IsTree child root) (hdir : walk child root path = some dir)
    (hdir' : walk child root path' = some dir') (hoff : ¬ path ++ [name] <+: path') :
    walk child' root path' = some dir' :=
  (h.walk_beside htree hdir hdir' hoff not_prefix_self).trans hdir'

/-- Below the moved node every path leads where it led. -/
theorem walk_below (h : Relocation child child' root dir name dir' name' moved)
    (htree : IsTree child root) (hdir : walk child root path = some dir)
    (hdir' : walk child root path' = some dir') (hoff : ¬ path ++ [name] <+: path') :
    walk child' moved q = walk child moved q := by
  have hmoved : walk child root (path ++ [name]) = some moved :=
    walk_concat_eq_some.mpr ⟨dir, hdir, h.source⟩
  refine walk_congr fun p n s _ hs => ?_
  have hpath : walk child root (path ++ [name] ++ p) = some s :=
    walk_append_eq_some.mpr ⟨moved, hmoved, hs⟩
  refine h.others s n ⟨_, hpath⟩ (fun hc => ?_) (fun heq _ => ?_) fun heq _ => ?_
  · -- what is replaced is not below the moved node, but it may be that node
    have heq := htree (walk_concat_eq_some.mpr ⟨dir', hdir', hc⟩) hpath
    cases p using List.reverseRecOn with
    | nil => exact (Option.some.inj hs).symm
    | append_singleton p m =>
      rw [← List.append_assoc] at heq
      exact absurd ⟨p, (List.append_inj' heq rfl).1.symm⟩ hoff
  · have hself := htree hdir (heq ▸ hpath)
    exact not_prefix_self ⟨p, hself.symm⟩
  · exact hoff ⟨p, (htree hdir' (heq ▸ hpath)).symm⟩

/-- Every path below the old place is one below the new place. -/
theorem walk_moved (h : Relocation child child' root dir name dir' name' moved)
    (htree : IsTree child root) (hdir : walk child root path = some dir)
    (hdir' : walk child root path' = some dir') (hoff : ¬ path ++ [name] <+: path') :
    walk child' root (path' ++ [name'] ++ q) = walk child root (path ++ [name] ++ q) := by
  have hmoved : walk child root (path ++ [name]) = some moved :=
    walk_concat_eq_some.mpr ⟨dir, hdir, h.source⟩
  have hmoved' : walk child' root (path' ++ [name']) = some moved :=
    walk_concat_eq_some.mpr ⟨dir', h.walk_dir' htree hdir hdir' hoff, h.target⟩
  rw [walk_append (p := path' ++ [name']), walk_append (p := path ++ [name]), hmoved, hmoved']
  exact h.walk_below htree hdir hdir' hoff

/-- The old place denotes nothing, unless it is the new one. -/
theorem walk_vacated (h : Relocation child child' root dir name dir' name' moved)
    (htree : IsTree child root) (hdir : walk child root path = some dir)
    (hdir' : walk child root path' = some dir') (hq : path ++ [name] <+: q)
    (hq' : ¬ path' ++ [name'] <+: q) : walk child' root q = none := by
  have hsource : walk child' root path = some dir :=
    (h.walk_beside htree hdir hdir' not_prefix_self (h.not_prefix_dir htree hdir hdir')).trans hdir
  have hgone : child' dir name = none := h.vacated fun heq hn => hq' (by
    rw [htree hdir' (heq ▸ hdir), ← hn]
    exact hq)
  obtain ⟨rest, rfl⟩ := hq
  simp [walk_append, hsource, hgone]

/-- Only the replaced leaf leaves the tree. -/
theorem reachable (h : Relocation child child' root dir name dir' name' moved)
    (htree : IsTree child root) (hdir : walk child root path = some dir)
    (hdir' : walk child root path' = some dir') (hoff : ¬ path ++ [name] <+: path') :
    Reachable child' root t ↔ Reachable child root t ∧ (child dir' name' = some t → t = moved) := by
  constructor
  · rintro ⟨q, hq⟩
    by_cases hnew : path' ++ [name'] <+: q
    · obtain ⟨rest, rfl⟩ := hnew
      rw [h.walk_moved htree hdir hdir' hoff] at hq
      refine ⟨⟨_, hq⟩, fun hc => ?_⟩
      have heq := htree (walk_concat_eq_some.mpr ⟨dir', hdir', hc⟩) hq
      cases rest using List.reverseRecOn with
      | nil =>
        rw [List.append_nil, walk_concat_eq_some] at hq
        obtain ⟨u, hu, ht⟩ := hq
        cases hdir.symm.trans hu
        exact Option.some.inj (ht.symm.trans h.source)
      | append_singleton rest m =>
        rw [← List.append_assoc] at heq
        exact absurd ⟨rest, (List.append_inj' heq rfl).1.symm⟩ hoff
    · by_cases hold : path ++ [name] <+: q
      · rw [h.walk_vacated htree hdir hdir' hold hnew] at hq
        cases hq
      · rw [h.walk_beside htree hdir hdir' hold hnew] at hq
        refine ⟨⟨q, hq⟩, fun hc => absurd ?_ hnew⟩
        rw [htree (walk_concat_eq_some.mpr ⟨dir', hdir', hc⟩) hq]
  · rintro ⟨⟨q, hq⟩, hkept⟩
    by_cases hold : path ++ [name] <+: q
    · obtain ⟨rest, rfl⟩ := hold
      exact ⟨path' ++ [name'] ++ rest, by rw [h.walk_moved htree hdir hdir' hoff, hq]⟩
    · refine ⟨q, ?_⟩
      rw [h.walk_beside htree hdir hdir' hold, hq]
      rintro ⟨rest, rfl⟩
      obtain ⟨o, ho, hrest⟩ := walk_append_eq_some.mp hq
      obtain ⟨u, hu, hc⟩ := walk_concat_eq_some.mp ho
      cases hdir'.symm.trans hu
      by_cases hsame : o = moved
      · have heq := htree ho (walk_concat_eq_some.mpr ⟨dir, hdir, hsame ▸ h.source⟩)
        exact hold ⟨rest, by rw [heq]⟩
      · obtain ⟨-, rfl⟩ := walk_leaf (h.leaf o hc hsame) hrest
        exact hsame (hkept hc)

theorem isTree (h : Relocation child child' root dir name dir' name' moved)
    (htree : IsTree child root) (hdir : walk child root path = some dir)
    (hdir' : walk child root path' = some dir') (hoff : ¬ path ++ [name] <+: path') :
    IsTree child' root := by
  -- a path of the new tree is a path of the old one, at the new place below the old place
  have hold : ∀ {t q}, walk child' root q = some t → ¬ path' ++ [name'] <+: q →
      walk child root q = some t ∧ ¬ path ++ [name] <+: q := by
    intro t q hq hnew
    by_cases hold : path ++ [name] <+: q
    · rw [h.walk_vacated htree hdir hdir' hold hnew] at hq
      cases hq
    · exact ⟨(h.walk_beside htree hdir hdir' hold hnew).symm.trans hq, hold⟩
  intro t p q hp hq
  by_cases hpnew : path' ++ [name'] <+: p <;> by_cases hqnew : path' ++ [name'] <+: q
  · obtain ⟨r, rfl⟩ := hpnew
    obtain ⟨r', rfl⟩ := hqnew
    rw [h.walk_moved htree hdir hdir' hoff] at hp hq
    rw [List.append_cancel_left (htree hp hq)]
  · obtain ⟨r, rfl⟩ := hpnew
    rw [h.walk_moved htree hdir hdir' hoff] at hp
    obtain ⟨hq, hne⟩ := hold hq hqnew
    exact absurd ⟨r, htree hp hq⟩ hne
  · obtain ⟨r, rfl⟩ := hqnew
    rw [h.walk_moved htree hdir hdir' hoff] at hq
    obtain ⟨hp, hne⟩ := hold hp hpnew
    exact absurd ⟨r, htree hq hp⟩ hne
  · exact htree (hold hp hpnew).1 (hold hq hqnew).1

end Relocation

/-! ## One name each

Where nodes come and go, what hangs below the root need not be a tree for long: a node moved
into itself is cut off, and a node may lose the directory it is in.  What stays is that a node
in use has one name at most in the nodes in use.
-/

/-- Names of nodes in use lead to nodes in use, each node has one, and the root has none. -/
structure Entered (child : ι → ν → Option ι) (used : ι → Prop) (root : ι) : Prop where
  target : ∀ {s n t}, used s → child s n = some t → used t ∧ t ≠ root
  single : ∀ {s s' n n' t}, used s → used s' → child s n = some t → child s' n' = some t →
    s = s' ∧ n = n'

namespace Entered

variable {used used' : ι → Prop} {moved : ι}

theorem congr (h : Entered child used root) (hused : ∀ s, used' s ↔ used s)
    (hchild : ∀ s n, used s → child' s n = child s n) : Entered child' used' root where
  target hs ht := by
    have hs := (hused _).mp hs
    rw [hchild _ _ hs] at ht
    exact ⟨(hused _).mpr (h.target hs ht).1, (h.target hs ht).2⟩
  single hs hs' ht ht' := by
    have hs := (hused _).mp hs
    have hs' := (hused _).mp hs'
    rw [hchild _ _ hs] at ht
    rw [hchild _ _ hs'] at ht'
    exact h.single hs hs' ht ht'

/-- The node `moved` gets the name `name` in `dir`, or none, and all other names are old ones of
    other nodes. -/
theorem relinked (h : Entered child used root) (dir : ι) (name : ν) (hmoved : moved ≠ root)
    (hold : ∀ s n t, used' s → child' s n = some t →
      (used s ∧ child s n = some t ∧ t ≠ moved) ∨ (s = dir ∧ n = name ∧ t = moved))
    (hused : ∀ s n t, used' s → child' s n = some t → used' t) : Entered child' used' root where
  target {s n t} hs ht := by
    refine ⟨hused s n t hs ht, ?_⟩
    rcases hold s n t hs ht with ⟨hs, ht, -⟩ | ⟨-, -, rfl⟩
    · exact (h.target hs ht).2
    · exact hmoved
  single {s s' n n' t} hs hs' ht ht' := by
    rcases hold s n t hs ht with ⟨hs, ht, hne⟩ | ⟨rfl, rfl, rfl⟩
    · rcases hold s' n' t hs' ht' with ⟨hs', ht', -⟩ | ⟨-, -, heq⟩
      · exact h.single hs hs' ht ht'
      · exact absurd heq hne
    · rcases hold s' n' _ hs' ht' with ⟨-, -, hne⟩ | ⟨rfl, rfl, -⟩
      · exact absurd rfl hne
      · exact ⟨rfl, rfl⟩

end Entered

end Venom.Library.NameTree

import Mathlib.Data.List.Basic

/-! # Merkle roots

The root of a list of leaves: adjacent nodes are combined level by level, and an odd
node at the end of a level is carried up unchanged.  `tree` is the same computation on
symbolic trees; it shows that the root is a function of a tree whose leaves are the
list, so that two lists with one root are equal or the hash has a collision among the
inputs it was given.
-/

namespace Venom.Library.MerkleTree

variable {α β : Type}

/-- One level up. -/
def pairUp (node : α → α → α) : List α → List α
  | a :: b :: rest => node a b :: pairUp node rest
  | [a] => [a]
  | [] => []

theorem length_pairUp (node : α → α → α) (l : List α) :
    (pairUp node l).length = (l.length + 1) / 2 := by
  fun_induction pairUp node l with
  | case1 a b rest ih => simp only [List.length_cons, ih]; omega
  | case2 a => simp
  | case3 => simp

/-- Go up until at most one node is left. -/
def climb (node : α → α → α) (l : List α) : List α :=
  if 1 < l.length then climb node (pairUp node l) else l
termination_by l.length
decreasing_by rw [length_pairUp]; omega

/-- The last node standing. -/
def root? (node : α → α → α) (l : List α) : Option α := (climb node l).head?

theorem climb_of_le {node : α → α → α} {l : List α} (h : l.length ≤ 1) : climb node l = l := by
  rw [climb, if_neg (by omega)]

theorem climb_of_lt {node : α → α → α} {l : List α} (h : 1 < l.length) :
    climb node l = climb node (pairUp node l) := by
  rw [climb, if_pos h]

/-- A level of at least one node leads to exactly one. -/
theorem climb_length (node : α → α → α) (l : List α) (h : l ≠ []) :
    (climb node l).length = 1 := by
  fun_induction climb node l with
  | case1 l hlt ih =>
    apply ih
    have := length_pairUp node l
    intro hnil
    rw [hnil, List.length_nil] at this
    omega
  | case2 l hle =>
    have := List.length_pos_of_ne_nil h
    omega

theorem root?_isSome {node : α → α → α} {l : List α} (h : l ≠ []) :
    ∃ r, root? node l = some r ∧ climb node l = [r] := by
  have := climb_length node l h
  obtain ⟨r, hr⟩ := List.length_eq_one_iff.mp this
  exact ⟨r, by rw [root?, hr]; rfl, hr⟩

/-! ## Symbolic trees -/

inductive Tree (β : Type)
  | leaf (b : β)
  | node (left right : Tree β)

namespace Tree

def leaves : Tree β → List β
  | leaf b => [b]
  | node left right => left.leaves ++ right.leaves

end Tree

/-- What is hashed: a leaf, or two hashes. -/
inductive Input (α β : Type)
  | leaf (b : β)
  | node (left right : α)

variable (hash : Input α β → α)

namespace Tree

def eval : Tree β → α
  | leaf b => hash (.leaf b)
  | node left right => hash (.node (left.eval) (right.eval))

/-- Everything that is hashed to evaluate a tree. -/
def inputs : Tree β → List (Input α β)
  | leaf b => [.leaf b]
  | node left right => .node (left.eval hash) (right.eval hash) :: (left.inputs ++ right.inputs)

/-- No two different inputs of the two trees have one hash. -/
def CollisionFree (t t' : Tree β) : Prop :=
  ∀ x ∈ t.inputs hash, ∀ y ∈ t'.inputs hash, hash x = hash y → x = y

/-- Where the hash has no collision, the value of a tree determines the tree. -/
theorem eval_injective {t t' : Tree β} (hfree : CollisionFree hash t t')
    (heval : t.eval hash = t'.eval hash) : t = t' := by
  induction t generalizing t' with
  | leaf b =>
    cases t' with
    | leaf b' =>
      have := hfree (.leaf b) (.head _) (.leaf b') (.head _) heval
      cases this
      rfl
    | node left' right' =>
      have := hfree (.leaf b) (.head _) _ (.head _) heval
      cases this
  | node left right ihl ihr =>
    cases t' with
    | leaf b' =>
      have := hfree _ (.head _) (.leaf b') (.head _) heval
      cases this
    | node left' right' =>
      have htop := hfree _ (.head _) _ (.head _) heval
      injection htop with hl hr
      have hfreel : CollisionFree hash left left' := fun x hx y hy =>
        hfree x (.tail _ (List.mem_append_left _ hx)) y (.tail _ (List.mem_append_left _ hy))
      have hfreer : CollisionFree hash right right' := fun x hx y hy =>
        hfree x (.tail _ (List.mem_append_right _ hx)) y (.tail _ (List.mem_append_right _ hy))
      rw [ihl hfreel hl, ihr hfreer hr]

end Tree

/-! ## The tree behind a root -/

theorem pairUp_map {γ : Type} {node : α → α → α} {node' : γ → γ → γ} {f : γ → α}
    (hf : ∀ a b, f (node' a b) = node (f a) (f b)) (l : List γ) :
    pairUp node (l.map f) = (pairUp node' l).map f := by
  fun_induction pairUp node' l with
  | case1 a b rest ih => simp [pairUp, ih, hf]
  | case2 a => rfl
  | case3 => rfl

theorem climb_map {γ : Type} {node : α → α → α} {node' : γ → γ → γ} {f : γ → α}
    (hf : ∀ a b, f (node' a b) = node (f a) (f b)) (l : List γ) :
    climb node (l.map f) = (climb node' l).map f := by
  fun_induction climb node' l with
  | case1 l hlt ih => rw [climb_of_lt (by simpa using hlt), pairUp_map hf, ih]
  | case2 l hle => rw [climb_of_le (by simpa using hle)]

theorem leaves_pairUp (l : List (Tree β)) :
    (pairUp Tree.node l).flatMap Tree.leaves = l.flatMap Tree.leaves := by
  fun_induction pairUp Tree.node l with
  | case1 a b rest ih => simp [ih, Tree.leaves]
  | case2 a => rfl
  | case3 => rfl

theorem leaves_climb (l : List (Tree β)) :
    (climb Tree.node l).flatMap Tree.leaves = l.flatMap Tree.leaves := by
  fun_induction climb Tree.node l with
  | case1 l hlt ih => rw [ih, leaves_pairUp]
  | case2 l hle => rfl

/-- The tree of a list of leaves. -/
def tree? (l : List β) : Option (Tree β) := root? Tree.node (l.map Tree.leaf)

theorem tree?_isSome {l : List β} (h : l ≠ []) : ∃ t, tree? l = some t ∧ t.leaves = l := by
  obtain ⟨t, ht, hclimb⟩ := @root?_isSome _ Tree.node (l.map Tree.leaf) (by simpa using h)
  refine ⟨t, ht, ?_⟩
  have hleaves := leaves_climb (l.map Tree.leaf)
  rw [hclimb] at hleaves
  simpa [Tree.leaves, List.flatMap_map] using hleaves

/-- The root of hashed leaves is the value of their tree. -/
theorem root?_eq_eval (l : List β) :
    root? (fun a b => hash (.node a b)) (l.map fun b => hash (.leaf b)) =
      (tree? l).map (Tree.eval hash) := by
  have hmap : (l.map fun b => hash (.leaf b)) = (l.map Tree.leaf).map (Tree.eval hash) := by
    simp [Tree.eval]
  rw [root?, hmap, @climb_map _ _ _ Tree.node (Tree.eval hash) (fun _ _ => rfl),
    List.head?_map]
  rfl

/-- Two lists with one root are equal, if the hash has no collision among what is
    hashed for the two roots. -/
theorem eq_of_root?_eq {l l' : List β} {t t' : Tree β} (ht : tree? l = some t)
    (ht' : tree? l' = some t') (hfree : Tree.CollisionFree hash t t')
    (hroot : root? (fun a b => hash (.node a b)) (l.map fun b => hash (.leaf b)) =
      root? (fun a b => hash (.node a b)) (l'.map fun b => hash (.leaf b))) : l = l' := by
  have hne : ∀ {l : List β} {t : Tree β}, tree? l = some t → l ≠ [] := by
    rintro l t h rfl
    rw [tree?, root?, List.map_nil, climb_of_le (by simp)] at h
    cases h
  rw [root?_eq_eval, root?_eq_eval, ht, ht', Option.map_some, Option.map_some,
    Option.some.injEq] at hroot
  obtain ⟨t₁, h₁, hl⟩ := tree?_isSome (hne ht)
  obtain ⟨t₂, h₂, hl'⟩ := tree?_isSome (hne ht')
  cases ht.symm.trans h₁
  cases ht'.symm.trans h₂
  rw [← hl, ← hl', Tree.eval_injective hash hfree hroot]

/-! ## What is hashed on the way up -/

/-- The pairs combined on one level. -/
def pairs : List α → List (Input α β)
  | a :: b :: rest => .node a b :: pairs rest
  | _ => []

/-- The pairs combined on all levels. -/
def climbInputs (l : List α) : List (Input α β) :=
  if 1 < l.length then pairs l ++ climbInputs (pairUp (fun a b => hash (.node a b)) l) else []
termination_by l.length
decreasing_by rw [length_pairUp]; omega

/-- Everything that is hashed for the root of a list of leaves. -/
def hashed (l : List β) : List (Input α β) :=
  l.map .leaf ++ climbInputs hash (l.map fun b => hash (.leaf b))

/-- A tree of the next level is one of this level, or its top pair is combined here. -/
theorem inputs_pairUp {ts : List (Tree β)} {t : Tree β} (ht : t ∈ pairUp Tree.node ts)
    {x : Input α β} (hx : x ∈ t.inputs hash) :
    (∃ u ∈ ts, x ∈ u.inputs hash) ∨ x ∈ pairs (ts.map (Tree.eval hash)) := by
  fun_induction pairUp Tree.node ts with
  | case1 a b rest ih =>
    rcases List.mem_cons.mp ht with rfl | ht
    · rcases List.mem_cons.mp hx with rfl | hx
      · exact .inr (.head _)
      · rcases List.mem_append.mp hx with hx | hx
        · exact .inl ⟨a, .head _, hx⟩
        · exact .inl ⟨b, .tail _ (.head _), hx⟩
    · rcases ih ht with ⟨u, hu, hx⟩ | hx
      · exact .inl ⟨u, .tail _ (.tail _ hu), hx⟩
      · exact .inr (.tail _ hx)
  | case2 a => exact .inl ⟨t, ht, hx⟩
  | case3 => cases ht

theorem inputs_climb {ts : List (Tree β)} {t : Tree β} (ht : t ∈ climb Tree.node ts)
    {x : Input α β} (hx : x ∈ t.inputs hash) :
    (∃ u ∈ ts, x ∈ u.inputs hash) ∨ x ∈ climbInputs hash (ts.map (Tree.eval hash)) := by
  fun_induction climb Tree.node ts with
  | case1 ts hlt ih =>
    have hup : (pairUp Tree.node ts).map (Tree.eval hash) =
        pairUp (fun a b => hash (.node a b)) (ts.map (Tree.eval hash)) :=
      (pairUp_map (fun _ _ => rfl) ts).symm
    rw [climbInputs, if_pos (by simpa using hlt), List.mem_append, ← hup]
    rcases ih ht with ⟨u, hu, hx⟩ | hx
    · rcases inputs_pairUp hash hu hx with hold | hx
      · exact .inl hold
      · exact .inr (.inl hx)
    · exact .inr (.inr hx)
  | case2 ts hle => exact .inl ⟨t, ht, hx⟩

/-- The inputs of the tree behind a root are hashed for the root. -/
theorem mem_hashed {l : List β} {t : Tree β} (ht : tree? l = some t) {x : Input α β}
    (hx : x ∈ t.inputs hash) : x ∈ hashed hash l := by
  have hmem : t ∈ climb Tree.node (l.map Tree.leaf) := List.mem_of_mem_head? ht
  have hmap : (l.map Tree.leaf).map (Tree.eval hash) = l.map fun b => hash (.leaf b) := by
    simp [Tree.eval]
  rcases inputs_climb hash hmem hx with ⟨u, hu, hx⟩ | hx
  · obtain ⟨b, hb, rfl⟩ := List.mem_map.mp hu
    obtain rfl : x = .leaf b := by simpa [Tree.inputs] using hx
    exact List.mem_append_left _ (List.mem_map_of_mem hb)
  · rw [hmap] at hx
    exact List.mem_append_right _ hx

/-- The hashed leaves are the leaves of the list. -/
theorem leaf_mem_hashed {b : β} {l : List β} (h : Input.leaf b ∈ hashed hash l) : b ∈ l := by
  have hpairs : ∀ l : List α, Input.leaf b ∉ (pairs l : List (Input α β)) := by
    intro l
    fun_induction pairs l with
    | case1 a b rest ih => simpa using ih
    | case2 l hne => simp
  have hclimb : ∀ l : List α, Input.leaf b ∉ climbInputs hash l := by
    intro l
    fun_induction climbInputs hash l with
    | case1 l hlt ih => simpa using ⟨hpairs l, ih⟩
    | case2 l hle => simp
  rcases List.mem_append.mp h with h | h
  · simpa using h
  · exact absurd h (hclimb _)

/-- A root is the hash of one of the inputs. -/
theorem root_hashed {l : List β} {r : α}
    (h : root? (fun a b => hash (.node a b)) (l.map fun b => hash (.leaf b)) = some r) :
    ∃ x ∈ hashed hash l, hash x = r := by
  rw [root?_eq_eval, Option.map_eq_some_iff] at h
  obtain ⟨t, ht, rfl⟩ := h
  cases t with
  | leaf b => exact ⟨_, mem_hashed hash ht (.head _), rfl⟩
  | node left right => exact ⟨_, mem_hashed hash ht (.head _), rfl⟩

/-- Two lists with one root are equal, or two different inputs have one hash. -/
theorem eq_or_collision {l l' : List β} {r : α}
    (h : root? (fun a b => hash (.node a b)) (l.map fun b => hash (.leaf b)) = some r)
    (h' : root? (fun a b => hash (.node a b)) (l'.map fun b => hash (.leaf b)) = some r) :
    l = l' ∨ ∃ x ∈ hashed hash l, ∃ y ∈ hashed hash l', x ≠ y ∧ hash x = hash y := by
  have htree : ∀ {l : List β}, root? (fun a b => hash (.node a b))
      (l.map fun b => hash (.leaf b)) = some r → ∃ t, tree? l = some t := fun h => by
    rw [root?_eq_eval, Option.map_eq_some_iff] at h
    exact h.imp fun _ ht => ht.1
  obtain ⟨t, ht⟩ := htree h
  obtain ⟨t', ht'⟩ := htree h'
  by_cases hfree : Tree.CollisionFree hash t t'
  · exact .inl (eq_of_root?_eq hash ht ht' hfree (h.trans h'.symm))
  · unfold Tree.CollisionFree at hfree
    push Not at hfree
    obtain ⟨x, hx, y, hy, heq, hne⟩ := hfree
    exact .inr ⟨x, mem_hashed hash ht hx, y, mem_hashed hash ht' hy, hne, heq⟩

end Venom.Library.MerkleTree

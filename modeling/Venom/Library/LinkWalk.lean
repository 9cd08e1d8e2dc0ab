import Mathlib.Data.List.Nodup
import Mathlib.Logic.Function.Basic

/-! # Following links

A chain is given by a link function: `link a` is `none` where `a` is no block, else the
block's own link, which may be the last one.  A walk follows the links and visits every
block it comes to, and at most one more place, which is no block.

A walk ends exactly when no block is reached again from its own link.  A walk that erases
the blocks behind it always ends; it visits a place twice exactly when the other walk
does not end.
-/

namespace Venom.Library.LinkWalk

variable {α : Type}

/-- The places a walk visits, in order. -/
inductive Walk (link : α → Option (Option α)) : Option α → List α → Prop
  | done : Walk link none []
  | stop {a : α} : link a = none → Walk link (some a) [a]
  | step {a : α} {next : Option α} {rest : List α} :
      link a = some next → Walk link next rest → Walk link (some a) (a :: rest)

/-- The places on a chain. -/
inductive OnChain (link : α → Option (Option α)) : Option α → α → Prop
  | here {a : α} : OnChain link (some a) a
  | there {a b : α} {next : Option α} :
      link a = some next → OnChain link next b → OnChain link (some a) b

/-- No block on the chain is reached again from its own link. -/
def NoReturn (link : α → Option (Option α)) (first : Option α) : Prop :=
  ∀ a next, OnChain link first a → link a = some next → ¬ OnChain link next a

variable {link : α → Option (Option α)} {first next : Option α} {a : α} {l l' : List α}

/-! ## Walks -/

namespace Walk

theorem det (h : Walk link first l) (h' : Walk link first l') : l = l' := by
  induction h generalizing l' with
  | done => cases h'; rfl
  | stop hnone =>
    cases h' with
    | stop _ => rfl
    | step hlink _ => cases hnone.symm.trans hlink
  | step hlink _ ih =>
    cases h' with
    | stop hnone => cases hnone.symm.trans hlink
    | step hlink' hrest =>
      cases hlink.symm.trans hlink'
      rw [ih hrest]

theorem mem_iff (h : Walk link first l) : a ∈ l ↔ OnChain link first a := by
  induction h with
  | done => exact ⟨nofun, nofun⟩
  | @stop b hnone =>
    rw [List.mem_singleton]
    refine ⟨fun h => h ▸ .here, fun h => ?_⟩
    cases h with
    | here => rfl
    | there hlink _ => cases hnone.symm.trans hlink
  | @step b next rest hlink hrest ih =>
    rw [List.mem_cons, ih]
    refine ⟨fun h => ?_, fun h => ?_⟩
    · rcases h with rfl | h
      · exact .here
      · exact .there hlink h
    · cases h with
      | here => exact .inl rfl
      | there hlink' h =>
        cases hlink.symm.trans hlink'
        exact .inr h

/-- The walk from a place on the way is not longer. -/
theorem tail (h : Walk link first l) (hon : OnChain link first a) :
    ∃ l', Walk link (some a) l' ∧ l'.length ≤ l.length := by
  induction h with
  | done => cases hon
  | @stop b hnone =>
    cases hon with
    | here => exact ⟨_, .stop hnone, Nat.le_refl _⟩
    | there hlink _ => cases hnone.symm.trans hlink
  | @step b next rest hlink hrest ih =>
    cases hon with
    | here => exact ⟨_, .step hlink hrest, Nat.le_refl _⟩
    | there hlink' hon =>
      cases hlink.symm.trans hlink'
      obtain ⟨l', hl', hle⟩ := ih hon
      exact ⟨l', hl', Nat.le_succ_of_le hle⟩

/-- Coming back, a walk would be longer than itself. -/
theorem noReturn (h : Walk link first l) : NoReturn link first := by
  intro a next hon hlink hback
  obtain ⟨la, hla, -⟩ := h.tail hon
  cases hla with
  | stop hnone => cases hnone.symm.trans hlink
  | @step _ next' rest hlink' hrest =>
    cases hlink.symm.trans hlink'
    obtain ⟨lb, hlb, hle⟩ := hrest.tail hback
    have hlen : lb = a :: rest := hlb.det (.step hlink hrest)
    rw [hlen, List.length_cons] at hle
    omega

theorem nodup (h : Walk link first l) : l.Nodup := by
  induction h with
  | done => exact List.nodup_nil
  | stop _ => exact List.nodup_singleton _
  | @step b next rest hlink hrest ih =>
    refine List.nodup_cons.mpr ⟨fun hb => ?_, ih⟩
    exact (Walk.step hlink hrest).noReturn b next .here hlink (hrest.mem_iff.mp hb)

/-- All places but the last are blocks. -/
theorem split (h : Walk link first l) :
    ∃ blocks tail, l = blocks ++ tail ∧ tail.length ≤ 1 ∧ ∀ a ∈ blocks, (link a).isSome := by
  induction h with
  | done => exact ⟨[], [], rfl, Nat.zero_le _, nofun⟩
  | @stop b _ => exact ⟨[], [b], rfl, Nat.le_refl _, nofun⟩
  | @step b next rest hlink hrest ih =>
    obtain ⟨blocks, tail, rfl, htail, hblocks⟩ := ih
    refine ⟨b :: blocks, tail, rfl, htail, fun x hx => ?_⟩
    rcases List.mem_cons.mp hx with rfl | hx
    · rw [hlink]
      rfl
    · exact hblocks x hx

end Walk

/-- Where there are finitely many blocks, a walk that does not come back ends. -/
theorem exists_walk {n : Nat} (hfinite : ∀ l : List α, l.Nodup → (∀ a ∈ l, (link a).isSome) → l.length ≤ n)
    (h : NoReturn link first) : ∃ l, Walk link first l := by
  -- `passed` are the blocks behind the walk: it cannot meet them again
  have hall : ∀ (fuel : Nat) (first : Option α) (passed : List α), passed.Nodup →
      (∀ a ∈ passed, (link a).isSome ∧ ¬ OnChain link first a) → NoReturn link first →
      n < passed.length + fuel → ∃ l, Walk link first l := by
    intro fuel
    induction fuel with
    | zero =>
      intro first passed hnodup hpassed _ hlt
      have hle := hfinite passed hnodup fun a ha => (hpassed a ha).1
      omega
    | succ fuel ih =>
      intro first passed hnodup hpassed hback hlt
      cases first with
      | none => exact ⟨[], .done⟩
      | some a =>
        cases hlink : link a with
        | none => exact ⟨[a], .stop hlink⟩
        | some next =>
          have hnew : a ∉ passed := fun ha => (hpassed a ha).2 .here
          have hpassed' : ∀ b ∈ a :: passed, (link b).isSome ∧ ¬ OnChain link next b := by
            intro b hb
            rcases List.mem_cons.mp hb with rfl | hb
            · exact ⟨by rw [hlink]; rfl, hback b next .here hlink⟩
            · exact ⟨(hpassed b hb).1, fun hon => (hpassed b hb).2 (.there hlink hon)⟩
          obtain ⟨rest, hrest⟩ := ih next (a :: passed) (List.nodup_cons.mpr ⟨hnew, hnodup⟩) hpassed'
            (fun b next' hon => hback b next' (.there hlink hon))
            (by rw [List.length_cons]; omega)
          exact ⟨a :: rest, .step hlink hrest⟩
  exact hall (n + 1) first [] List.nodup_nil nofun h (by rw [List.length_nil]; omega)

/-! ## Walks that erase -/

variable [DecidableEq α]

/-- The links without the block at `a`. -/
def erase (link : α → Option (Option α)) (a : α) : α → Option (Option α) :=
  Function.update link a none

theorem erase_self (link : α → Option (Option α)) (a : α) : erase link a a = none :=
  Function.update_self _ _ _

theorem erase_of_ne {b : α} (h : b ≠ a) : erase link a b = link b := Function.update_of_ne h _ _

/-- A walk elsewhere does not notice. -/
theorem walk_erase (ha : a ∉ l) : Walk (erase link a) first l ↔ Walk link first l := by
  induction l generalizing first with
  | nil =>
    constructor <;> intro h <;> cases h <;> exact .done
  | cons b rest ih =>
    have hne : b ≠ a := fun h => ha (h ▸ List.mem_cons_self)
    have hrest : a ∉ rest := fun h => ha (List.mem_cons_of_mem _ h)
    constructor
    · intro h
      cases h with
      | stop hnone => exact .stop ((erase_of_ne hne).symm.trans hnone)
      | step hlink h => exact .step ((erase_of_ne hne).symm.trans hlink) ((ih hrest).mp h)
    · intro h
      cases h with
      | stop hnone => exact .stop ((erase_of_ne hne).trans hnone)
      | step hlink h => exact .step ((erase_of_ne hne).trans hlink) ((ih hrest).mpr h)

/-- The places a walk visits that erases every block behind it. -/
inductive EraseWalk : (α → Option (Option α)) → Option α → List α → Prop
  | done {link : α → Option (Option α)} : EraseWalk link none []
  | stop {link : α → Option (Option α)} {a : α} : link a = none → EraseWalk link (some a) [a]
  | step {link : α → Option (Option α)} {a : α} {next : Option α} {rest : List α} :
      link a = some next → EraseWalk (erase link a) next rest → EraseWalk link (some a) (a :: rest)

theorem EraseWalk.det (h : EraseWalk link first l) (h' : EraseWalk link first l') : l = l' := by
  induction h generalizing l' with
  | done => cases h'; rfl
  | stop hnone =>
    cases h' with
    | stop _ => rfl
    | step hlink _ => cases hnone.symm.trans hlink
  | step hlink _ ih =>
    cases h' with
    | stop hnone => cases hnone.symm.trans hlink
    | step hlink' hrest =>
      cases hlink.symm.trans hlink'
      rw [ih hrest]

/-- Every step takes a block away, so the walk ends after one place more than there are blocks. -/
theorem exists_eraseWalk {n : Nat}
    (hfinite : ∀ l : List α, l.Nodup → (∀ a ∈ l, (link a).isSome) → l.length ≤ n) :
    ∃ l, EraseWalk link first l ∧ l.length ≤ n + 1 := by
  induction n generalizing link first with
  | zero =>
    cases first with
    | none => exact ⟨[], .done, Nat.zero_le _⟩
    | some a =>
      cases hlink : link a with
      | none => exact ⟨[a], .stop hlink, Nat.le_refl _⟩
      | some next =>
        have hle := hfinite [a] (List.nodup_singleton a) fun b hb => by
          rw [List.mem_singleton.mp hb, hlink]
          rfl
        cases hle
  | succ n ih =>
    cases first with
    | none => exact ⟨[], .done, Nat.zero_le _⟩
    | some a =>
      cases hlink : link a with
      | none => exact ⟨[a], .stop hlink, Nat.succ_le_succ (Nat.zero_le _)⟩
      | some next =>
        have hfinite' : ∀ l : List α, l.Nodup → (∀ b ∈ l, (erase link a b).isSome) → l.length ≤ n := by
          intro l hnodup hl
          have hne : ∀ b ∈ l, b ≠ a := by
            rintro b hb rfl
            have := hl b hb
            rw [erase_self] at this
            cases this
          have hle := hfinite (a :: l) (List.nodup_cons.mpr ⟨fun ha => hne a ha rfl, hnodup⟩) fun b hb => by
            rcases List.mem_cons.mp hb with rfl | hb
            · rw [hlink]
              rfl
            · rw [← @erase_of_ne _ link _ _ _ (hne b hb)]
              exact hl b hb
          rw [List.length_cons] at hle
          omega
        obtain ⟨rest, hrest, hle⟩ := @ih (erase link a) next hfinite'
        exact ⟨a :: rest, .step hlink hrest, Nat.succ_le_succ hle⟩

/-- A walk that ends is not disturbed by erasing what lies behind it. -/
theorem Walk.eraseWalk (h : Walk link first l) : EraseWalk link first l := by
  induction l generalizing first link with
  | nil =>
    cases h
    exact .done
  | cons b rest ih =>
    have hb : b ∉ rest := (List.nodup_cons.mp h.nodup).1
    cases h with
    | stop hnone => exact .stop hnone
    | step hlink hrest => exact .step hlink (ih ((walk_erase hb).mpr hrest))

theorem EraseWalk.walk (h : EraseWalk link first l) (hnodup : l.Nodup) : Walk link first l := by
  induction h with
  | done => exact .done
  | stop hnone => exact .stop hnone
  | @step link b next rest hlink _ ih =>
    obtain ⟨hb, hrest⟩ := List.nodup_cons.mp hnodup
    exact .step hlink ((walk_erase hb).mp (ih hrest))

/-- An erasing walk visits no place twice exactly when the chain does not come back. -/
theorem EraseWalk.nodup_iff {n : Nat}
    (hfinite : ∀ l : List α, l.Nodup → (∀ a ∈ l, (link a).isSome) → l.length ≤ n)
    (h : EraseWalk link first l) : l.Nodup ↔ NoReturn link first := by
  refine ⟨fun hnodup => (h.walk hnodup).noReturn, fun hback => ?_⟩
  obtain ⟨l', hwalk⟩ := exists_walk hfinite hback
  rw [h.det hwalk.eraseWalk]
  exact hwalk.nodup

/-- Only the links of the places it visits matter to a walk. -/
theorem EraseWalk.congr {link' : α → Option (Option α)} (h : EraseWalk link first l)
    (hlink : ∀ a ∈ l, link' a = link a) : EraseWalk link' first l := by
  induction h generalizing link' with
  | done => exact .done
  | @stop link b hnone => exact .stop ((hlink b List.mem_cons_self).trans hnone)
  | @step link b next rest hb _ ih =>
    refine .step ((hlink b List.mem_cons_self).trans hb) (ih fun a ha => ?_)
    by_cases hab : a = b
    · rw [hab, erase_self, erase_self]
    · rw [erase_of_ne hab, erase_of_ne hab]
      exact hlink a (List.mem_cons_of_mem _ ha)

/-- What holds of the first place and is passed on by the links holds of all places. -/
theorem EraseWalk.all {p : α → Prop} (h : EraseWalk link first l) (hfirst : ∀ a ∈ first, p a)
    (hlink : ∀ a b, p a → link a = some (some b) → p b) : ∀ a ∈ l, p a := by
  induction h with
  | done => exact fun a ha => absurd ha List.not_mem_nil
  | @stop link b _ =>
    intro a ha
    rw [List.mem_singleton.mp ha]
    exact hfirst b rfl
  | @step link b next rest hb _ ih =>
    have hpb := hfirst b rfl
    intro a ha
    rcases List.mem_cons.mp ha with rfl | ha
    · exact hpb
    · refine ih (fun c hc => ?_) (fun c d hc hd => ?_) a ha
      · cases hc
        exact hlink b c hpb hb
      · have hne : c ≠ b := fun e => by
          rw [e, erase_self] at hd
          cases hd
        rw [erase_of_ne hne] at hd
        exact hlink c d hc hd

/-- All places but the last are different blocks. -/
theorem EraseWalk.split (h : EraseWalk link first l) : ∃ blocks tail, l = blocks ++ tail ∧
    tail.length ≤ 1 ∧ blocks.Nodup ∧ ∀ a ∈ blocks, (link a).isSome := by
  induction h with
  | done => exact ⟨[], [], rfl, Nat.zero_le _, List.nodup_nil, fun a ha => absurd ha List.not_mem_nil⟩
  | @stop link b _ =>
    exact ⟨[], [b], rfl, Nat.le_refl _, List.nodup_nil, fun a ha => absurd ha List.not_mem_nil⟩
  | @step link b next rest hb _ ih =>
    obtain ⟨blocks, tail, rfl, htail, hnodup, hblocks⟩ := ih
    have hne : ∀ a ∈ blocks, a ≠ b := fun a ha e => by
      have hsome := hblocks a ha
      rw [e, erase_self] at hsome
      cases hsome
    refine ⟨b :: blocks, tail, rfl, htail, List.nodup_cons.mpr ⟨fun hmem => hne b hmem rfl, hnodup⟩, ?_⟩
    intro a ha
    rcases List.mem_cons.mp ha with rfl | ha
    · rw [hb]
      rfl
    · rw [← @erase_of_ne _ link _ _ _ (hne a ha)]
      exact hblocks a ha

end Venom.Library.LinkWalk

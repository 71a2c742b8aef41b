import Mathlib.Logic.Relation

/-!
# Reachability from a root

A graph is spanned when a path from the root leads to every node of a set and to the
source of every edge. This says how the edges may change so that it stays so: an edge may
be added, a node that nothing leads on from may lose edges to it as long as one is left,
and an edge may be moved to a place that is not below its own end.
-/
namespace Paths
open Relation

variable {α : Type*} {E E' : α → α → Prop} {r i p q : α} {live live' : α → Prop}

structure Spanned (E : α → α → Prop) (r : α) (live : α → Prop) : Prop where
  live : ∀ a, live a → ReflTransGen E r a
  source : ∀ a b, E a b → ReflTransGen E r a

/-- Fewer nodes have to be reached. -/
theorem Spanned.mono (h : Spanned E r live) (hlive : ∀ a, live' a → live a) :
    Spanned E r live' :=
  ⟨fun a ha => h.live a (hlive a ha), h.source⟩

/-- A node and an edge to it are added. -/
theorem Spanned.grow (h : Spanned E r live) (hp : ReflTransGen E r p)
    (hkeep : ∀ a b, E a b → E' a b) (hnew : E' p i) (hedge : ∀ a b, E' a b → E a b ∨ a = p)
    (hlive : ∀ a, live' a → live a ∨ a = i) : Spanned E' r live' := by
  have hmono : ∀ a, ReflTransGen E r a → ReflTransGen E' r a :=
    fun a ha => ReflTransGen.mono hkeep r a ha
  constructor
  · intro a ha
    rcases hlive a ha with hold | rfl
    · exact hmono a (h.live a hold)
    · exact (hmono p hp).tail hnew
  · intro a b hab
    rcases hedge a b hab with hold | rfl
    · exact hmono a (h.source a b hold)
    · exact hmono a hp

/-- Paths that do not end in a leaf do without the edges to it. -/
theorem reach_of_leaf (hleaf : ∀ b, ¬ E i b) (hkeep : ∀ a b, E a b → b ≠ i → E' a b) {a : α}
    (ha : ReflTransGen E r a) (hne : a ≠ i) : ReflTransGen E' r a := by
  induction ha with
  | refl => exact .refl
  | @tail b c _ hbc ih =>
      have hb : b ≠ i := fun hb => hleaf c (hb ▸ hbc)
      exact (ih hb).tail (hkeep b c hbc hne)

/-- A leaf loses edges, but not the last one unless it goes itself. -/
theorem Spanned.prune (h : Spanned E r live) (hleaf : ∀ b, ¬ E i b)
    (hkeep : ∀ a b, E a b → b ≠ i → E' a b) (hsub : ∀ a b, E' a b → E a b)
    (hlive : ∀ a, live' a → live a) (hlast : live' i → ∃ a, E' a i) : Spanned E' r live' := by
  have hsource : ∀ a b, E' a b → ReflTransGen E' r a := by
    intro a b hab
    have hold := hsub a b hab
    exact reach_of_leaf hleaf hkeep (h.source a b hold) fun ha => hleaf b (ha ▸ hold)
  refine ⟨fun a ha => ?_, hsource⟩
  by_cases hai : a = i
  · rw [hai] at ha ⊢
    obtain ⟨b, hb⟩ := hlast ha
    exact (hsource b i hb).tail hb
  · exact reach_of_leaf hleaf hkeep (h.live a (hlive a ha)) hai

/-- What is not below a node is reached without the edges to it. -/
theorem reach_of_not_below (hkeep : ∀ a b, E a b → b ≠ i → E' a b) {a : α}
    (ha : ReflTransGen E r a) (hbelow : ¬ ReflTransGen E i a) : ReflTransGen E' r a := by
  induction ha with
  | refl => exact .refl
  | @tail b c _ hbc ih =>
      have hb : ¬ ReflTransGen E i b := fun hb => hbelow (hb.tail hbc)
      have hc : c ≠ i := fun hc => hbelow (hc ▸ .refl)
      exact (ih hb).tail (hkeep b c hbc hc)

/-- The edges to a node are replaced by one from a place that is not below it. -/
theorem Spanned.move (h : Spanned E r live) (hq : ReflTransGen E r q)
    (hbelow : ¬ ReflTransGen E i q) (hkeep : ∀ a b, E a b → b ≠ i → E' a b) (hnew : E' q i)
    (hedge : ∀ a b, E' a b → E a b ∨ a = q) : Spanned E' r live := by
  -- the new place first: then the node itself, and then all that is below it
  have hq' : ReflTransGen E' r q := reach_of_not_below hkeep hq hbelow
  have hall : ∀ a, ReflTransGen E r a → ReflTransGen E' r a := by
    intro a ha
    induction ha with
    | refl => exact .refl
    | @tail b c _ hbc ih =>
        by_cases hc : c = i
        · exact hc ▸ hq'.tail hnew
        · exact ih.tail (hkeep b c hbc hc)
  constructor
  · exact fun a ha => hall a (h.live a ha)
  · intro a b hab
    rcases hedge a b hab with hold | rfl
    · exact hall a (h.source a b hold)
    · exact hq'

/-- A path does not leave a set that no edge leaves. -/
theorem mem_of_closed {S : α → Prop} (hS : ∀ a b, S a → E a b → S b) {a : α} (hr : S r)
    (ha : ReflTransGen E r a) : S a := by
  induction ha with
  | refl => exact hr
  | tail _ hbc ih => exact hS _ _ ih hbc

end Paths

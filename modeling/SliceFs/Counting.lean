import Mathlib.Data.Set.Card

/-!
# Saturating counts and their claimants

A count is kept for every key and stays where it is once it has reached a cap. The
claimants of a key are what its count is meant to count. A count that covers its
claimants never says too little, one that they back never says too much.
-/
namespace Counting

section
variable {δ : Type} [DecidableEq δ] (cap : ℕ) (count : δ → ℕ) (d : δ)

/-- One more for a key, unless its count is saturated. -/
def bump : δ → ℕ := fun e => if e = d ∧ count d ≠ cap then count d + 1 else count e

/-- One less for a key, unless its count is saturated or zero. -/
def drop : δ → ℕ := fun e => if e = d ∧ count d ≠ cap ∧ count d ≠ 0 then count d - 1 else count e

theorem bump_self (h : count d ≠ cap) : bump cap count d d = count d + 1 := if_pos ⟨rfl, h⟩

theorem bump_of_cap (h : count d = cap) : bump cap count d d = cap := by
  rw [bump, if_neg fun hd => hd.2 h, h]

theorem bump_of_ne {e : δ} (h : e ≠ d) : bump cap count d e = count e := if_neg fun he => h he.1

theorem drop_self (h : count d ≠ cap) : drop cap count d d = count d - 1 := by
  unfold drop
  split_ifs with hd
  · rfl
  · have hz : count d = 0 := not_not.mp fun hz => hd ⟨rfl, h, hz⟩
    rw [hz]

theorem drop_of_cap (h : count d = cap) : drop cap count d d = cap := by
  rw [drop, if_neg fun hd => hd.2.1 h, h]

theorem drop_of_ne {e : δ} (h : e ≠ d) : drop cap count d e = count e := if_neg fun he => h he.1

end

section
variable {δ X : Type} {cap : ℕ} {count : δ → ℕ} {claims claims' : δ → Set X} {d : δ} {x : X}

/-- No count below the cap is less than the number of its claimants. -/
def Covers (cap : ℕ) (count : δ → ℕ) (claims : δ → Set X) : Prop :=
  ∀ d, count d = cap ∨ (claims d).ncard ≤ count d

/-- No count below the cap is more than the number of its claimants. -/
def Backed (cap : ℕ) (count : δ → ℕ) (claims : δ → Set X) : Prop :=
  ∀ d, count d = cap ∨ count d ≤ (claims d).ncard

theorem ncard_add_one_le [Finite X] {s t : Set X} (h : s ⊆ t) (hx : x ∈ t) (hx' : x ∉ s) :
    s.ncard + 1 ≤ t.ncard := by
  rw [← Set.ncard_insert_of_notMem hx' (Set.toFinite s)]
  exact Set.ncard_le_ncard (Set.insert_subset hx h) (Set.toFinite t)

theorem ncard_le_add_one [Finite X] {s t : Set X} (h : s ⊆ insert x t) : s.ncard ≤ t.ncard + 1 :=
  (Set.ncard_le_ncard h (Set.toFinite _)).trans (Set.ncard_insert_le x t)

theorem Covers.mono [Finite X] (h : Covers cap count claims) (hsub : ∀ e, claims' e ⊆ claims e) :
    Covers cap count claims' :=
  fun e => (h e).imp_right fun hle => (Set.ncard_le_ncard (hsub e) (Set.toFinite _)).trans hle

theorem Backed.mono [Finite X] (h : Backed cap count claims) (hsub : ∀ e, claims e ⊆ claims' e) :
    Backed cap count claims' :=
  fun e => (h e).imp_right fun hle => hle.trans (Set.ncard_le_ncard (hsub e) (Set.toFinite _))

variable [DecidableEq δ] [Finite X]

/-- A claim may pass from one claimant to another. -/
theorem Covers.move {y : X} (h : Covers cap count claims) (hsub : ∀ e, e ≠ d → claims' e ⊆ claims e)
    (hx : x ∈ claims d) (hd : claims' d ⊆ insert y (claims d \ {x})) :
    Covers cap count claims' := by
  intro e
  by_cases he : e = d
  · subst he
    refine (h e).imp_right fun hle => ?_
    have hmore := ncard_le_add_one hd
    have hless := ncard_add_one_le (s := claims e \ {x}) Set.sdiff_subset hx (by simp)
    omega
  · exact (h e).imp_right fun hle => (Set.ncard_le_ncard (hsub e he) (Set.toFinite _)).trans hle

/-- A claimant may give up its count when it goes. -/
theorem Covers.drop (h : Covers cap count claims) (hsub : ∀ e, claims' e ⊆ claims e)
    (hx : x ∈ claims d) (hx' : x ∉ claims' d) : Covers cap (drop cap count d) claims' := by
  intro e
  by_cases he : e = d
  · subst he
    by_cases hcap : count e = cap
    · exact .inl (drop_of_cap cap count e hcap)
    · refine .inr ?_
      have hold := (h e).resolve_left hcap
      have hless := ncard_add_one_le (hsub e) hx hx'
      rw [drop_self cap count e hcap]
      omega
  · rw [drop_of_ne cap count d he]
    exact h.mono hsub e

theorem Covers.bump (h : Covers cap count claims) (hsub : ∀ e, e ≠ d → claims' e ⊆ claims e)
    (hd : claims' d ⊆ insert x (claims d)) : Covers cap (bump cap count d) claims' := by
  intro e
  by_cases he : e = d
  · subst he
    by_cases hcap : count e = cap
    · exact .inl (bump_of_cap cap count e hcap)
    · refine .inr ?_
      have hold := (h e).resolve_left hcap
      have hmore := ncard_le_add_one hd
      rw [bump_self cap count e hcap]
      omega
  · rw [bump_of_ne cap count d he]
    exact (h e).imp_right fun hle => (Set.ncard_le_ncard (hsub e he) (Set.toFinite _)).trans hle

theorem Backed.drop (h : Backed cap count claims) (hsub : ∀ e, e ≠ d → claims e ⊆ claims' e)
    (hd : claims d ⊆ insert x (claims' d)) : Backed cap (drop cap count d) claims' := by
  intro e
  by_cases he : e = d
  · subst he
    by_cases hcap : count e = cap
    · exact .inl (drop_of_cap cap count e hcap)
    · refine .inr ?_
      have hold := (h e).resolve_left hcap
      have hmore := ncard_le_add_one hd
      rw [drop_self cap count e hcap]
      omega
  · rw [drop_of_ne cap count d he]
    exact (h e).imp_right fun hle => hle.trans (Set.ncard_le_ncard (hsub e he) (Set.toFinite _))

/-- A count may go up with a new claimant. -/
theorem Backed.bump (h : Backed cap count claims) (hsub : ∀ e, claims e ⊆ claims' e)
    (hx : x ∈ claims' d) (hx' : x ∉ claims d) : Backed cap (bump cap count d) claims' := by
  intro e
  by_cases he : e = d
  · subst he
    by_cases hcap : count e = cap
    · exact .inl (bump_of_cap cap count e hcap)
    · refine .inr ?_
      have hold := (h e).resolve_left hcap
      have hless := ncard_add_one_le (hsub e) hx hx'
      rw [bump_self cap count e hcap]
      omega
  · rw [bump_of_ne cap count d he]
    exact h.mono hsub e

end

end Counting

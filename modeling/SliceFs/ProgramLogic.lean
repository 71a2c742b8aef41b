import Mathlib

/-!
# State-passing programs and their weakest preconditions

A program reads and replaces a state and ends with a value, with an error of its
interface, or with a panic. The state reached is kept in all three cases, as it
is in a language with in-place mutation.

Many facts about a program hold only along executions that stay good, where
goodness is known of the last state and passes back to every earlier one (the
memory never shrinks and is consistent at the end, say). A `Growth` packages such
a notion. Every program built from growing parts is growing, and `wp` is the
weakest precondition for executions that end in a good state.
-/
namespace ProgramLogic

/-- How a program can stop without a value. -/
inductive Fault (ε : Type) where
  | err (e : ε)
  | panic
deriving DecidableEq, Repr

def Fault.map {ε ε' : Type} (g : ε → ε') : Fault ε → Fault ε'
  | .err e => .err (g e)
  | .panic => .panic

def Prog (σ ε α : Type) : Type := σ → Except (Fault ε) α × σ

namespace Prog
variable {σ τ ε ε' α β : Type}

def pure (a : α) : Prog σ ε α := fun s => (.ok a, s)

def bind (m : Prog σ ε α) (f : α → Prog σ ε β) : Prog σ ε β := fun s =>
  match m s with
  | (.ok a, s') => f a s'
  | (.error e, s') => (.error e, s')

instance : Monad (Prog σ ε) where
  pure := pure
  bind := bind

def fail (e : ε) : Prog σ ε α := fun s => (.error (.err e), s)

def panic : Prog σ ε α := fun s => (.error .panic, s)

def read (f : σ → α) : Prog σ ε α := fun s => (.ok (f s), s)

def modify (f : σ → σ) : Prog σ ε Unit := fun s => (.ok (), f s)

/-- The error `e` unless `p` holds. -/
def ensure (p : Prop) [Decidable p] (e : ε) : Prog σ ε Unit :=
  if p then pure () else fail e

/-- A panic unless `p` holds. -/
def assert (p : Prop) [Decidable p] : Prog σ ε Unit :=
  if p then pure () else panic

def ofOption (o : Option α) (e : ε) : Prog σ ε α :=
  match o with
  | some a => pure a
  | none => fail e

def ofExcept (r : Except ε α) : Prog σ ε α :=
  match r with
  | .ok a => pure a
  | .error e => fail e

def ofResult (r : Except (Fault ε) α) : Prog σ ε α := fun s => (r, s)

def mapErr (g : ε → ε') (m : Prog σ ε α) : Prog σ ε' α := fun s =>
  match m s with
  | (.ok a, s') => (.ok a, s')
  | (.error e, s') => (.error (e.map g), s')

/-- The outcome of `m` as a value; a panic is not caught. -/
def attempt (m : Prog σ ε α) : Prog σ ε' (Except ε α) := fun s =>
  match m s with
  | (.ok a, s') => (.ok (.ok a), s')
  | (.error (.err e), s') => (.ok (.error e), s')
  | (.error .panic, s') => (.error .panic, s')

/-- A program on a part of the state. -/
def zoom (get : σ → τ) (set : τ → σ → σ) (m : Prog τ ε α) : Prog σ ε α := fun s =>
  ((m (get s)).1, set (m (get s)).2 s)

/-- The state after a call that returned, with a value or with an error. -/
def exec (m : Prog σ ε α) (s : σ) : Option σ :=
  match m s with
  | (.error .panic, _) => none
  | (_, s') => some s'

theorem snd_of_exec {m : Prog σ ε α} {s s' : σ} (h : exec m s = some s') : (m s).2 = s' := by
  unfold exec at h
  split at h
  · simp at h
  · next r s₁ hm => simpa [hm] using h

theorem exec_of_panic {m : Prog σ ε α} {s s' : σ} (h : m s = (.error .panic, s')) :
    exec m s = none := by
  rw [exec, h]

theorem panic_of_exec {m : Prog σ ε α} {s : σ} (h : exec m s = none) : (m s).1 = .error .panic := by
  unfold exec at h
  split at h
  · next hm => rw [hm]
  · cases h

theorem eq_ok_of_toOption {m : Prog σ ε α} {s : σ} {a : α} (h : (m s).1.toOption = some a) :
    m s = (.ok a, (m s).2) := by
  refine Prod.ext ?_ rfl
  cases hr : (m s).1 with
  | ok b =>
      rw [hr] at h
      exact congrArg Except.ok (Option.some.inj h)
  | error e =>
      rw [hr] at h
      cases h

theorem eq_ok_of_isSome {m : Prog σ ε α} {s : σ} (h : (m s).1.toOption.isSome = true) :
    m s = (.ok ((m s).1.toOption.get h), (m s).2) :=
  eq_ok_of_toOption (Option.some_get h).symm

theorem attempt_snd (m : Prog σ ε α) (s : σ) :
    (attempt m s : Except (Fault ε') (Except ε α) × σ).2 = (m s).2 := by
  unfold attempt
  split <;> simp_all

theorem mapErr_snd (g : ε → ε') (m : Prog σ ε α) (s : σ) : (mapErr g m s).2 = (m s).2 := by
  unfold mapErr
  split
  · next h => rw [h]
  · next h => rw [h]

theorem mapErr_ok (g : ε → ε') {m : Prog σ ε α} {s s' : σ} {a : α} (h : m s = (.ok a, s')) :
    mapErr g m s = (.ok a, s') := by
  rw [mapErr, h]

theorem mapErr_eq_ok {g : ε → ε'} {m : Prog σ ε α} {s s' : σ} {a : α}
    (h : mapErr g m s = (.ok a, s')) : m s = (.ok a, s') := by
  unfold mapErr at h
  split at h
  · next b s₁ hm =>
      obtain ⟨hb, rfl⟩ := Prod.mk.inj h
      rw [hm, Except.ok.inj hb]
  · simp at h

@[simp] theorem pure_apply (a : α) (s : σ) : (Pure.pure a : Prog σ ε α) s = (.ok a, s) := rfl

theorem bind_apply (m : Prog σ ε α) (f : α → Prog σ ε β) (s : σ) :
    (m >>= f) s = match m s with
      | (.ok a, s') => f a s'
      | (.error e, s') => (.error e, s') := rfl

theorem bind_ok {m : Prog σ ε α} {f : α → Prog σ ε β} {s s' : σ} {a : α}
    (h : m s = (.ok a, s')) : (m >>= f) s = f a s' := by
  rw [bind_apply, h]

theorem bind_error {m : Prog σ ε α} {f : α → Prog σ ε β} {s s' : σ} {e : Fault ε}
    (h : m s = (.error e, s')) : (m >>= f) s = (.error e, s') := by
  rw [bind_apply, h]

/-- A value of a sequence is a value of its second part, run where the first one ended. -/
theorem bind_eq_ok {m : Prog σ ε α} {f : α → Prog σ ε β} {s s' : σ} {b : β}
    (h : (m >>= f) s = (.ok b, s')) : ∃ a s₁, m s = (.ok a, s₁) ∧ f a s₁ = (.ok b, s') := by
  rw [bind_apply] at h
  split at h
  · next a s₁ hm => exact ⟨a, s₁, hm, h⟩
  · simp at h

@[simp] theorem fail_apply (e : ε) (s : σ) :
    (fail e : Prog σ ε α) s = (.error (.err e), s) := rfl

@[simp] theorem panic_apply (s : σ) : (panic : Prog σ ε α) s = (.error .panic, s) := rfl

@[simp] theorem read_apply (f : σ → α) (s : σ) : (read f : Prog σ ε α) s = (.ok (f s), s) := rfl

@[simp] theorem modify_apply (f : σ → σ) (s : σ) :
    (modify f : Prog σ ε Unit) s = (.ok (), f s) := rfl

theorem ensure_apply (p : Prop) [Decidable p] (e : ε) (s : σ) :
    (ensure p e : Prog σ ε Unit) s = (if p then .ok () else .error (.err e), s) := by
  unfold ensure
  split_ifs <;> rfl

theorem assert_apply (p : Prop) [Decidable p] (s : σ) :
    (assert p : Prog σ ε Unit) s = (if p then .ok () else .error .panic, s) := by
  unfold assert
  split_ifs <;> rfl

theorem assert_bind_of {p : Prop} [Decidable p] (h : p) (m : Prog σ ε α) (s : σ) :
    (assert p >>= fun _ => m) s = m s := by
  rw [bind_apply, assert_apply, if_pos h]

theorem assert_bind_of_not {p : Prop} [Decidable p] (h : ¬ p) (m : Prog σ ε α) (s : σ) :
    (assert p >>= fun _ => m) s = (.error .panic, s) := by
  rw [bind_apply, assert_apply, if_neg h]

theorem assert_bind_eq_ok {p : Prop} [Decidable p] {m : Prog σ ε α} {s s' : σ} {a : α}
    (h : (assert p >>= fun _ => m) s = (.ok a, s')) : p ∧ m s = (.ok a, s') := by
  rw [bind_apply, assert_apply] at h
  by_cases hp : p
  · rw [if_pos hp] at h
    exact ⟨hp, h⟩
  · rw [if_neg hp] at h
    simp at h

theorem ensure_bind_of {p : Prop} [Decidable p] (h : p) (e : ε) (m : Prog σ ε α) (s : σ) :
    (ensure p e >>= fun _ => m) s = m s := by
  rw [bind_apply, ensure_apply, if_pos h]

theorem ensure_bind_of_not {p : Prop} [Decidable p] (h : ¬ p) (e : ε) (m : Prog σ ε α) (s : σ) :
    (ensure p e >>= fun _ => m) s = (.error (.err e), s) := by
  rw [bind_apply, ensure_apply, if_neg h]

theorem ensure_bind_eq_ok {p : Prop} [Decidable p] {e : ε} {m : Prog σ ε α} {s s' : σ} {a : α}
    (h : (ensure p e >>= fun _ => m) s = (.ok a, s')) : p ∧ m s = (.ok a, s') := by
  rw [bind_apply, ensure_apply] at h
  by_cases hp : p
  · rw [if_pos hp] at h
    exact ⟨hp, h⟩
  · rw [if_neg hp] at h
    simp at h

@[simp] theorem ofOption_some (a : α) (e : ε) : (ofOption (some a) e : Prog σ ε α) = Pure.pure a :=
  rfl

@[simp] theorem ofOption_none (e : ε) : (ofOption none e : Prog σ ε α) = fail e := rfl

@[simp] theorem ofExcept_ok (a : α) : (ofExcept (.ok a) : Prog σ ε α) = Pure.pure a := rfl

@[simp] theorem ofExcept_error (e : ε) : (ofExcept (.error e) : Prog σ ε α) = fail e := rfl

@[simp] theorem ofResult_apply (r : Except (Fault ε) α) (s : σ) :
    (ofResult r : Prog σ ε α) s = (r, s) := rfl

theorem ofOption_eq_ok {o : Option α} {e : ε} {s s' : σ} {a : α}
    (h : ofOption o e s = (.ok a, s')) : o = some a ∧ s' = s := by
  cases o with
  | none => simp at h
  | some b =>
      obtain ⟨hb, rfl⟩ := Prod.mk.inj h
      exact ⟨congrArg some (Except.ok.inj hb), rfl⟩

theorem ofExcept_eq_ok {r : Except ε α} {s s' : σ} {a : α}
    (h : (ofExcept r : Prog σ ε α) s = (.ok a, s')) : r = .ok a ∧ s' = s := by
  cases r with
  | error e => simp at h
  | ok b =>
      obtain ⟨hb, rfl⟩ := Prod.mk.inj h
      exact ⟨congrArg Except.ok (Except.ok.inj hb), rfl⟩

end Prog

/-- A preorder of states along which programs move, with a property of states that
is inherited by everything below. -/
structure Growth (σ : Type) where
  le : σ → σ → Prop
  good : σ → Prop
  le_refl : ∀ s, le s s
  le_trans : ∀ {s₁ s₂ s₃}, le s₁ s₂ → le s₂ s₃ → le s₁ s₃
  good_of_le : ∀ {s₁ s₂}, le s₁ s₂ → good s₂ → good s₁

/-- The growth of a state seen through one of its parts. -/
def Growth.comap {σ τ : Type} (f : σ → τ) (g : Growth τ) : Growth σ where
  le s s' := g.le (f s) (f s')
  good s := g.good (f s)
  le_refl s := g.le_refl (f s)
  le_trans := g.le_trans
  good_of_le := g.good_of_le

/-- The growth in which a part of the state never changes. -/
def Growth.fixed {σ τ : Type} (f : σ → τ) : Growth σ where
  le s s' := f s' = f s
  good _ := True
  le_refl _ := rfl
  le_trans h₁ h₂ := h₂.trans h₁
  good_of_le _ _ := trivial

/-- The growth along which an invariant is kept. -/
def Growth.keeps {σ : Type} (P : σ → Prop) : Growth σ where
  le s s' := P s → P s'
  good _ := True
  le_refl _ := id
  le_trans h₁ h₂ := h₂ ∘ h₁
  good_of_le _ _ := trivial

/-- Two growths at once. -/
def Growth.both {σ : Type} (g h : Growth σ) : Growth σ where
  le s s' := g.le s s' ∧ h.le s s'
  good s := g.good s ∧ h.good s
  le_refl s := ⟨g.le_refl s, h.le_refl s⟩
  le_trans h₁ h₂ := ⟨g.le_trans h₁.1 h₂.1, h.le_trans h₁.2 h₂.2⟩
  good_of_le hle hgood := ⟨g.good_of_le hle.1 hgood.1, h.good_of_le hle.2 hgood.2⟩

/-- What makes a program on a part of the state grow the whole. -/
structure Growth.Part {σ τ : Type} (g : Growth σ) (p : Growth τ) (get : σ → τ)
    (set : τ → σ → σ) : Prop where
  le_set : ∀ {s t}, p.le (get s) t → g.le s (set t s)
  good_set : ∀ {s t}, g.good (set t s) → p.good t

section Growing
variable {σ τ ε ε' α β : Type} {g : Growth σ} {p : Growth τ}

/-- `m` moves up in the preorder from every state, however it ends. The instances
follow the way a program is put together. -/
class Growing (g : Growth σ) (m : Prog σ ε α) : Prop where
  le_run : ∀ s, g.le s (m s).2

open Prog

instance growing_pure (a : α) : Growing g (Pure.pure a : Prog σ ε α) := ⟨g.le_refl⟩

instance growing_fail (e : ε) : Growing g (fail e : Prog σ ε α) := ⟨g.le_refl⟩

instance growing_panic : Growing g (panic : Prog σ ε α) := ⟨g.le_refl⟩

instance growing_read (f : σ → α) : Growing g (read f : Prog σ ε α) := ⟨g.le_refl⟩

instance growing_ofResult (r : Except (Fault ε) α) : Growing g (ofResult r : Prog σ ε α) :=
  ⟨g.le_refl⟩

theorem growing_modify {f : σ → σ} (h : ∀ s, g.le s (f s)) :
    Growing g (modify f : Prog σ ε Unit) := ⟨h⟩

instance growing_ite {c : Prop} [Decidable c] {m₁ m₂ : Prog σ ε α} [h₁ : Growing g m₁]
    [h₂ : Growing g m₂] : Growing g (if c then m₁ else m₂) := by
  split_ifs
  · exact h₁
  · exact h₂

instance growing_ensure (c : Prop) [Decidable c] (e : ε) :
    Growing g (ensure c e : Prog σ ε Unit) :=
  inferInstanceAs (Growing g (if c then Pure.pure () else fail e))

instance growing_assert (c : Prop) [Decidable c] : Growing g (assert c : Prog σ ε Unit) :=
  inferInstanceAs (Growing g (if c then Pure.pure () else panic))

instance growing_ofOption (o : Option α) (e : ε) : Growing g (ofOption o e : Prog σ ε α) := by
  cases o with
  | none => exact growing_fail e
  | some a => exact growing_pure a

instance growing_ofExcept (r : Except ε α) : Growing g (ofExcept r : Prog σ ε α) := by
  cases r with
  | error e => exact growing_fail e
  | ok a => exact growing_pure a

instance growing_bind {m : Prog σ ε α} {f : α → Prog σ ε β} [hm : Growing g m]
    [hf : ∀ a, Growing g (f a)] : Growing g (m >>= f) := by
  constructor
  intro s
  have hs := hm.le_run s
  rw [bind_apply]
  split
  · next a s₁ h =>
      rw [h] at hs
      exact g.le_trans hs ((hf a).le_run s₁)
  · next e s₁ h =>
      rw [h] at hs
      exact hs

/-- A sequence moves up when its first part does and its second one does from there. -/
theorem Growth.le_bind {m : Prog σ ε α} {f : α → Prog σ ε β} {s : σ} (hm : g.le s (m s).2)
    (hf : ∀ a s', m s = (.ok a, s') → g.le s' (f a s').2) : g.le s ((m >>= f) s).2 := by
  rw [bind_apply]
  split
  · next a s₁ h =>
      rw [h] at hm
      exact g.le_trans hm (hf a s₁ h)
  · next e s₁ h =>
      rw [h] at hm
      exact hm

/-- A sequence ends above the end of its first part. -/
theorem le_run_bind {m : Prog σ ε α} {f : α → Prog σ ε β} [hf : ∀ a, Growing g (f a)] (s : σ) :
    g.le (m s).2 ((m >>= f) s).2 := by
  rw [bind_apply]
  split
  · next a s₁ h =>
      rw [h]
      exact (hf a).le_run s₁
  · next e s₁ h =>
      rw [h]
      exact g.le_refl s₁

/-- A sequence goes on from where its first part ended. -/
theorem Growing.le_bind (m : Prog σ ε α) (f : α → Prog σ ε β) [hf : ∀ a, Growing g (f a)] (s : σ) :
    g.le (m s).2 ((m >>= f) s).2 := by
  cases hm : m s with
  | mk r s₁ =>
      cases r with
      | error e =>
          rw [bind_error hm]
          exact g.le_refl _
      | ok a =>
          rw [bind_ok hm]
          exact (hf a).le_run s₁

instance growing_mapErr {m : Prog σ ε α} {f : ε → ε'} [h : Growing g m] :
    Growing g (mapErr f m) := by
  constructor
  intro s
  have hs := h.le_run s
  unfold mapErr
  split
  · next a s₁ hm => rw [hm] at hs; exact hs
  · next e s₁ hm => rw [hm] at hs; exact hs

instance growing_attempt {m : Prog σ ε α} [h : Growing g m] :
    Growing g (attempt m : Prog σ ε' (Except ε α)) := by
  constructor
  intro s
  have hs := h.le_run s
  unfold attempt
  split
  · next a s₁ hm => rw [hm] at hs; exact hs
  · next e s₁ hm => rw [hm] at hs; exact hs
  · next s₁ hm => rw [hm] at hs; exact hs

/-- The second part of a sequence keeps an invariant also when that takes what is known
of the value of the first part. -/
theorem growing_keeps_bind {P : σ → Prop} {R : α → Prop} {m : Prog σ ε α} {f : α → Prog σ ε β}
    (hm : ∀ s, P s → P (m s).2 ∧ ∀ a, (m s).1 = .ok a → R a)
    (hf : ∀ a, R a → Growing (.keeps P) (f a)) : Growing (.keeps P) (m >>= f) := by
  constructor
  intro s hs
  obtain ⟨hP, hR⟩ := hm s hs
  rw [bind_apply]
  split
  · next a s₁ h =>
      rw [h] at hP hR
      exact (hf a (hR a rfl)).le_run s₁ hP
  · next e s₁ h =>
      rw [h] at hP
      exact hP

theorem growing_zoom {get : σ → τ} {set : τ → σ → σ} (hp : g.Part p get set)
    {m : Prog τ ε α} (h : Growing p m) : Growing g (zoom get set m) :=
  ⟨fun s => hp.le_set (h.le_run (get s))⟩

end Growing

section Wp
variable {σ τ ε ε' α β : Type} {g : Growth σ} {p : Growth τ}

/-- If `m` run from `s` ends in a good state, then `Q` holds of its outcome. -/
def wp (g : Growth σ) (m : Prog σ ε α) (Q : Except (Fault ε) α → σ → Prop) (s : σ) : Prop :=
  g.good (m s).2 → Q (m s).1 (m s).2

open Prog

theorem wp_of_eq {m : Prog σ ε α} {Q : Except (Fault ε) α → σ → Prop} {s s' : σ}
    {r : Except (Fault ε) α} (h : m s = (r, s')) (hQ : g.good s' → Q r s') : wp g m Q s := by
  unfold wp
  rw [h]
  exact hQ

theorem wp.mono {m : Prog σ ε α} {Q Q' : Except (Fault ε) α → σ → Prop} {s : σ}
    (h : wp g m Q s) (hQ : ∀ r s', g.good s' → Q r s' → Q' r s') : wp g m Q' s :=
  fun hg => hQ _ _ hg (h hg)

/-- A call that returned did what is known of it. -/
theorem wp.exec {m : Prog σ ε α} {Q : Except (Fault ε) α → σ → Prop} {s s' : σ} (h : wp g m Q s)
    (hm : Prog.exec m s = some s') (hg : g.good s') : ∃ r, r ≠ .error .panic ∧ Q r s' := by
  have hs := snd_of_exec hm
  unfold wp at h
  rw [hs] at h
  refine ⟨(m s).1, fun hp => ?_, h hg⟩
  rw [exec_of_panic (Prod.ext hp rfl)] at hm
  cases hm

/-- A program may be replaced by what it runs as. -/
theorem wp_congr {m m' : Prog σ ε α} {Q : Except (Fault ε) α → σ → Prop} {s s' : σ}
    (h : m s = m' s') (hm : wp g m' Q s') : wp g m Q s := by
  unfold wp
  rw [h]
  exact hm

/-- A growing program may be assumed to start in a good state. -/
theorem wp_of_good {m : Prog σ ε α} {Q : Except (Fault ε) α → σ → Prop} {s : σ}
    [hm : Growing g m] (h : g.good s → wp g m Q s) : wp g m Q s :=
  fun hg => h (g.good_of_le (hm.le_run s) hg) hg

/-- The first part of a sequence is executed. -/
theorem wp_bind_of_eq {m : Prog σ ε α} {f : α → Prog σ ε β} {Q : Except (Fault ε) β → σ → Prop}
    {s s' : σ} {a : α} (h : m s = (.ok a, s')) (hf : wp g (f a) Q s') : wp g (m >>= f) Q s :=
  wp_congr (bind_ok h) hf

theorem wp_pure {a : α} {Q : Except (Fault ε) α → σ → Prop} {s : σ}
    (h : g.good s → Q (.ok a) s) : wp g (Pure.pure a) Q s := h

theorem wp_modify {f : σ → σ} {Q : Except (Fault ε) Unit → σ → Prop} {s : σ}
    (h : g.good (f s) → Q (.ok ()) (f s)) : wp g (modify f) Q s := h

/-- The second part of a sequence runs where the first one ended, which is good
because the second part only grows. -/
theorem wp_bind {m : Prog σ ε α} {f : α → Prog σ ε β} {Q : Except (Fault ε) β → σ → Prop} {s : σ}
    [hf : ∀ a, Growing g (f a)]
    (h : wp g m (fun r s' => match r with
      | .ok a => wp g (f a) Q s'
      | .error e => Q (.error e) s') s) : wp g (m >>= f) Q s := by
  unfold wp at h ⊢
  rw [bind_apply]
  split
  · next a s₁ hm =>
      rw [hm] at h
      intro hg
      exact h (g.good_of_le ((hf a).le_run s₁) hg) hg
  · next e s₁ hm =>
      rw [hm] at h
      exact h

theorem wp_mapErr {m : Prog σ ε α} {f : ε → ε'} {Q : Except (Fault ε') α → σ → Prop} {s : σ}
    (h : wp g m (fun r s' => Q (r.mapError (Fault.map f)) s') s) : wp g (mapErr f m) Q s := by
  unfold wp at h ⊢
  unfold mapErr
  split
  · next a s₁ hm => rw [hm] at h; exact h
  · next e s₁ hm => rw [hm] at h; exact h

theorem wp_attempt {m : Prog σ ε α} {Q : Except (Fault ε') (Except ε α) → σ → Prop} {s : σ}
    (h : wp g m (fun r s' => match r with
      | .ok a => Q (.ok (.ok a)) s'
      | .error (.err e) => Q (.ok (.error e)) s'
      | .error .panic => Q (.error .panic) s') s) : wp g (attempt m) Q s := by
  unfold wp at h ⊢
  unfold attempt
  split
  · next a s₁ hm => rw [hm] at h; exact h
  · next e s₁ hm => rw [hm] at h; exact h
  · next s₁ hm => rw [hm] at h; exact h

theorem wp_zoom {get : σ → τ} {set : τ → σ → σ} (hp : g.Part p get set) {m : Prog τ ε α}
    {Q : Except (Fault ε) α → σ → Prop} {s : σ}
    (h : wp p m (fun r t => Q r (set t s)) (get s)) : wp g (zoom get set m) Q s :=
  fun hg => h (hp.good_set hg)

end Wp

section Failing
variable {σ ε α β : Type}

/-- A program that returns no error; it may panic. -/
class NeverFails (m : Prog σ ε α) : Prop where
  ne_error : ∀ (s : σ) (e : ε), (m s).1 ≠ .error (.err e)

instance neverFails_pure (a : α) : NeverFails (Pure.pure a : Prog σ ε α) := ⟨fun _ _ => nofun⟩

instance neverFails_read (f : σ → α) : NeverFails (Prog.read f : Prog σ ε α) := ⟨fun _ _ => nofun⟩

instance neverFails_modify (f : σ → σ) : NeverFails (Prog.modify f : Prog σ ε Unit) :=
  ⟨fun _ _ => nofun⟩

instance neverFails_assert (c : Prop) [Decidable c] :
    NeverFails (Prog.assert c : Prog σ ε Unit) := by
  constructor
  intro s e
  unfold Prog.assert
  split_ifs <;> exact nofun

instance neverFails_bind {m : Prog σ ε α} {f : α → Prog σ ε β} [hm : NeverFails m]
    [hf : ∀ a, NeverFails (f a)] : NeverFails (m >>= f) := by
  constructor
  intro s e
  cases hrun : m s with
  | mk r s₁ =>
      cases r with
      | ok a =>
          rw [Prog.bind_ok hrun]
          exact (hf a).ne_error s₁ e
      | error err =>
          rw [Prog.bind_error hrun]
          have hne := hm.ne_error s e
          rw [hrun] at hne
          exact fun h => hne (congrArg Except.error (Except.error.inj h))

instance neverFails_ite {c : Prop} [Decidable c] {m n : Prog σ ε α} [hm : NeverFails m]
    [hn : NeverFails n] : NeverFails (if c then m else n) := by
  split_ifs
  · exact hm
  · exact hn

instance neverFails_attempt {ε' : Type} (m : Prog σ ε' α) :
    NeverFails (Prog.attempt m : Prog σ ε (Except ε' α)) := by
  constructor
  intro s e
  unfold Prog.attempt
  split <;> exact nofun

end Failing

end ProgramLogic

import SliceFs.ProgramLogic

/-!
# Checked arithmetic and indexing

Sizes are 64-bit words: a sum, a difference or a product that does not fit is a panic, and
so is a range that is not within the slice it indexes. Code whose indices stay below the length
of a slice meets neither.
-/
namespace Checked
open ProgramLogic

variable {ε α β : Type}

def add (a b : ℕ) : Except (Fault ε) ℕ :=
  if a + b < 2 ^ 64 then .ok (a + b) else .error .panic

def mul (a b : ℕ) : Except (Fault ε) ℕ :=
  if a * b < 2 ^ 64 then .ok (a * b) else .error .panic

def sub (a b : ℕ) : Except (Fault ε) ℕ :=
  if b ≤ a then .ok (a - b) else .error .panic

/-- The result of a signed operation. -/
def int64 (x : ℤ) : Except (Fault ε) ℤ :=
  if -2 ^ 63 ≤ x ∧ x < 2 ^ 63 then .ok x else .error .panic

/-- The items from `start` up to `stop`. -/
def range (xs : List α) (start stop : ℕ) : Except (Fault ε) (List α) :=
  if start ≤ stop ∧ stop ≤ xs.length then .ok ((xs.take stop).drop start) else .error .panic

/-- The error `e` unless `p` holds. -/
def ensure (p : Prop) [Decidable p] (e : ε) : Except (Fault ε) Unit :=
  if p then .ok () else .error (.err e)

@[simp] theorem ok_bind (a : α) (f : α → Except (Fault ε) β) : (Except.ok a >>= f) = f a := rfl

@[simp] theorem error_bind (e : Fault ε) (f : α → Except (Fault ε) β) :
    ((Except.error e : Except (Fault ε) α) >>= f) = .error e := rfl

theorem bind_eq_ok {x : Except (Fault ε) α} {f : α → Except (Fault ε) β} {b : β}
    (h : (x >>= f) = .ok b) : ∃ a, x = .ok a ∧ f a = .ok b := by
  cases x with
  | error e => cases h
  | ok a => exact ⟨a, rfl, h⟩

theorem add_of_lt {a b : ℕ} (h : a + b < 2 ^ 64) : (add a b : Except (Fault ε) ℕ) = .ok (a + b) :=
  if_pos h

theorem add_of_le {a b : ℕ} (h : 2 ^ 64 ≤ a + b) : (add a b : Except (Fault ε) ℕ) = .error .panic :=
  if_neg (by omega)

theorem mul_of_lt {a b : ℕ} (h : a * b < 2 ^ 64) : (mul a b : Except (Fault ε) ℕ) = .ok (a * b) :=
  if_pos h

theorem mul_of_le {a b : ℕ} (h : 2 ^ 64 ≤ a * b) : (mul a b : Except (Fault ε) ℕ) = .error .panic :=
  if_neg (by omega)

theorem sub_of_le {a b : ℕ} (h : b ≤ a) : (sub a b : Except (Fault ε) ℕ) = .ok (a - b) := if_pos h

theorem int64_of_lt {x : ℤ} (h₁ : -2 ^ 63 ≤ x) (h₂ : x < 2 ^ 63) :
    (int64 x : Except (Fault ε) ℤ) = .ok x := if_pos ⟨h₁, h₂⟩

theorem range_of_le {xs : List α} {i n : ℕ} (h : i + n ≤ xs.length) :
    (range xs i (i + n) : Except (Fault ε) (List α)) = .ok ((xs.drop i).take n) := by
  rw [range, if_pos ⟨by omega, h⟩, List.drop_take, Nat.add_sub_cancel_left]

theorem ensure_of {p : Prop} [Decidable p] (h : p) (e : ε) : ensure p e = .ok () := if_pos h

theorem ensure_of_not {p : Prop} [Decidable p] (h : ¬ p) (e : ε) :
    ensure p e = .error (.err e) := if_neg h

end Checked

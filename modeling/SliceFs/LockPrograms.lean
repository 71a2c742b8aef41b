import SliceFs.ProgramLogic

/-!
# Programs that take locks

A program takes locks, gives them back and acts on a shared state in between; what it does
next may depend on what an action saw. Run alone it is a state-passing program. Threads run
such programs side by side, one step at a time and in any order, and a lock is held by one
thread at a time.

Threads that take locks only in the order of their ranks never all wait for one another.
-/
namespace ProgramLogic

instance Prog.lawfulMonad {σ ε : Type} : LawfulMonad (Prog σ ε) := by
  refine LawfulMonad.mk' _ (fun m => ?_) (fun a f => rfl) (fun m f g => ?_)
  · funext s
    show Prog.bind m (fun a => Prog.pure (id a)) s = m s
    unfold Prog.bind
    cases hm : m s with
    | mk r s' => cases r <;> rfl
  · funext s
    show Prog.bind (Prog.bind m f) g s = Prog.bind m (fun a => Prog.bind (f a) g) s
    unfold Prog.bind
    cases hm : m s with
    | mk r s' => cases r <;> rfl

/-- A program with locks from `Λ` on a shared state. An action is one step: it replaces the
state, and the rest of the program is given the state it found. -/
inductive Locked (Λ σ ε α : Type) : Type where
  | ret (r : Except (Fault ε) α)
  | lock (l : Λ) (rest : Locked Λ σ ε α)
  | unlock (l : Λ) (rest : Locked Λ σ ε α)
  | act (update : σ → σ) (rest : σ → Locked Λ σ ε α)

namespace Locked
variable {Λ σ τ ε ε' α β : Type}

/-- The program run by itself, where every lock is free. -/
def alone : Locked Λ σ ε α → Prog σ ε α
  | ret r => fun s => (r, s)
  | lock _ rest => rest.alone
  | unlock _ rest => rest.alone
  | act update rest => fun s => (rest s).alone (update s)

/-- A program without locks, as one action. -/
def ofProg (m : Prog σ ε α) : Locked Λ σ ε α := act (fun s => (m s).2) fun s => ret (m s).1

/-- What follows a program, whatever it ended with. -/
def andThen : Locked Λ σ ε α → (Except (Fault ε) α → Locked Λ σ ε' β) → Locked Λ σ ε' β
  | ret r, next => next r
  | lock l rest, next => lock l (rest.andThen next)
  | unlock l rest, next => unlock l (rest.andThen next)
  | act update rest, next => act update fun s => (rest s).andThen next

def bind (x : Locked Λ σ ε α) (f : α → Locked Λ σ ε β) : Locked Λ σ ε β :=
  x.andThen fun
    | .ok a => f a
    | .error e => ret (.error e)

instance : Monad (Locked Λ σ ε) where
  pure a := ret (.ok a)
  bind := bind

/-- A lock that is held for the time of a program and given back however it ends. -/
def holding (l : Λ) (x : Locked Λ σ ε α) : Locked Λ σ ε α :=
  lock l (x.andThen fun r => unlock l (ret r))

/-- An action under a lock. -/
def guarded (l : Λ) (m : Prog σ ε α) : Locked Λ σ ε α := holding l (ofProg m)

def acquire (l : Λ) : Locked Λ σ ε Unit := lock l (ret (.ok ()))

def release (l : Λ) : Locked Λ σ ε Unit := unlock l (ret (.ok ()))

/-- The outcome as a value; a panic is not caught. -/
def attempt (x : Locked Λ σ ε α) : Locked Λ σ ε' (Except ε α) :=
  x.andThen fun
    | .ok a => ret (.ok (.ok a))
    | .error (.err e) => ret (.ok (.error e))
    | .error .panic => ret (.error .panic)

section Alone

theorem alone_andThen (x : Locked Λ σ ε α) (next : Except (Fault ε) α → Locked Λ σ ε' β) (s : σ) :
    (x.andThen next).alone s = (next (x.alone s).1).alone (x.alone s).2 := by
  induction x generalizing s with
  | ret r => rfl
  | lock l rest ih => exact ih s
  | unlock l rest ih => exact ih s
  | act update rest ih => exact ih s (update s)

@[simp] theorem alone_ofProg (m : Prog σ ε α) : (ofProg m : Locked Λ σ ε α).alone = m := rfl

@[simp] theorem alone_pure (a : α) : (pure a : Locked Λ σ ε α).alone = pure a := rfl

@[simp] theorem alone_bind (x : Locked Λ σ ε α) (f : α → Locked Λ σ ε β) :
    (x >>= f).alone = x.alone >>= fun a => (f a).alone := by
  funext s
  refine (alone_andThen x _ s).trans ?_
  rw [Prog.bind_apply]
  cases hx : x.alone s with
  | mk r s' => cases r <;> rfl

@[simp] theorem alone_holding (l : Λ) (x : Locked Λ σ ε α) : (holding l x).alone = x.alone := by
  funext s
  exact alone_andThen x _ s

@[simp] theorem alone_guarded (l : Λ) (m : Prog σ ε α) : (guarded l m).alone = m := by
  rw [guarded, alone_holding, alone_ofProg]

@[simp] theorem alone_optionElim (o : Option τ) (x : Locked Λ σ ε α) (f : τ → Locked Λ σ ε α) :
    (o.elim x f).alone = o.elim x.alone fun a => (f a).alone := by
  cases o <;> rfl

@[simp] theorem alone_acquire (l : Λ) : (acquire l : Locked Λ σ ε Unit).alone = pure () := rfl

@[simp] theorem alone_release (l : Λ) : (release l : Locked Λ σ ε Unit).alone = pure () := rfl

@[simp] theorem alone_attempt (x : Locked Λ σ ε α) :
    (x.attempt : Locked Λ σ ε' (Except ε α)).alone = Prog.attempt x.alone := by
  funext s
  refine (alone_andThen x _ s).trans ?_
  unfold Prog.attempt
  cases hx : x.alone s with
  | mk r s' =>
      cases r with
      | ok a => rfl
      | error e => cases e <;> rfl

end Alone

section Order
variable (rank : Λ → ℕ) [DecidableEq Λ]

/-- Begun with the locks `held`, a program takes a lock only when it ranks above all that it
has, gives back only what it has, and has the locks `last` at the end. -/
def Ordered (last : Finset Λ) : Locked Λ σ ε α → Finset Λ → Prop
  | ret _, held => held = last
  | lock l rest, held => (∀ m ∈ held, rank m < rank l) ∧ rest.Ordered last (insert l held)
  | unlock l rest, held => l ∈ held ∧ rest.Ordered last (held.erase l)
  | act _ rest, held => ∀ s, (rest s).Ordered last held

/-- A program that keeps to the order of the locks and gives back what it takes. The instances
follow the way a program is put together. -/
class Orderly (held : Finset Λ) (x : Locked Λ σ ε α) : Prop where
  ordered : x.Ordered rank held held

variable {rank} {held last mid : Finset Λ}

theorem Ordered.andThen {x : Locked Λ σ ε α} {next : Except (Fault ε) α → Locked Λ σ ε' β}
    (hx : x.Ordered rank mid held) (hnext : ∀ r, (next r).Ordered rank last mid) :
    (x.andThen next).Ordered rank last held := by
  induction x generalizing held with
  | ret r =>
      obtain rfl : held = mid := hx
      exact hnext r
  | lock l rest ih => exact ⟨hx.1, ih hx.2⟩
  | unlock l rest ih => exact ⟨hx.1, ih hx.2⟩
  | act update rest ih => exact fun s => ih s (hx s)

instance orderly_ret (r : Except (Fault ε) α) : Orderly rank held (ret r : Locked Λ σ ε α) := ⟨rfl⟩

instance orderly_pure (a : α) : Orderly rank held (pure a : Locked Λ σ ε α) := ⟨rfl⟩

instance orderly_ofProg (m : Prog σ ε α) : Orderly rank held (ofProg m : Locked Λ σ ε α) :=
  ⟨fun _ => rfl⟩

instance orderly_bind {x : Locked Λ σ ε α} {f : α → Locked Λ σ ε β} [hx : Orderly rank held x]
    [hf : ∀ a, Orderly rank held (f a)] : Orderly rank held (x >>= f) := by
  refine ⟨hx.ordered.andThen fun r => ?_⟩
  cases r with
  | ok a => exact (hf a).ordered
  | error e => rfl

instance orderly_optionElim (o : Option τ) {x : Locked Λ σ ε α} {f : τ → Locked Λ σ ε α}
    [hx : Orderly rank held x] [hf : ∀ a, Orderly rank held (f a)] :
    Orderly rank held (o.elim x f) := by
  cases o with
  | none => exact hx
  | some a => exact hf a

instance orderly_attempt {x : Locked Λ σ ε α} [hx : Orderly rank held x] :
    Orderly rank held (x.attempt : Locked Λ σ ε' (Except ε α)) := by
  refine ⟨hx.ordered.andThen fun r => ?_⟩
  cases r with
  | ok a => rfl
  | error e => cases e <;> rfl

theorem orderly_holding {l : Λ} {x : Locked Λ σ ε α} (habove : ∀ m ∈ held, rank m < rank l)
    (hx : Orderly rank (insert l held) x) : Orderly rank held (holding l x) := by
  have hnot : l ∉ held := fun h => Nat.lt_irrefl _ (habove l h)
  refine ⟨habove, hx.ordered.andThen fun r => ⟨Finset.mem_insert_self l held, ?_⟩⟩
  exact Finset.erase_insert hnot

instance orderly_holding_empty (l : Λ) {x : Locked Λ σ ε α} [hx : Orderly rank {l} x] :
    Orderly rank ∅ (holding l x) :=
  orderly_holding (fun m hm => absurd hm (Finset.notMem_empty m)) hx

theorem orderly_guarded {l : Λ} (habove : ∀ m ∈ held, rank m < rank l) (m : Prog σ ε α) :
    Orderly rank held (guarded l m) :=
  orderly_holding habove inferInstance

instance orderly_guarded_empty (l : Λ) (m : Prog σ ε α) :
    Orderly rank ∅ (guarded l m) :=
  orderly_guarded (fun m hm => absurd hm (Finset.notMem_empty m)) m

end Order

end Locked

/-- Threads, the locks that each of them holds, and the state they share. -/
structure Pool (ι Λ σ ε α : Type) where
  threads : ι → Locked Λ σ ε α
  held : ι → Finset Λ
  shared : σ

namespace Pool
variable {ι Λ σ ε α : Type} [DecidableEq ι] [DecidableEq Λ]

/-- The threads before their first step. -/
def start (threads : ι → Locked Λ σ ε α) (s : σ) : Pool ι Λ σ ε α := ⟨threads, fun _ => ∅, s⟩

/-- One step of one thread. A lock must be free, also of the thread that asks for it. -/
inductive Step (p : Pool ι Λ σ ε α) : Pool ι Λ σ ε α → Prop where
  | lock {i : ι} {l : Λ} {rest : Locked Λ σ ε α} : p.threads i = .lock l rest →
      (∀ j, l ∉ p.held j) →
      Step p ⟨Function.update p.threads i rest,
        Function.update p.held i (insert l (p.held i)), p.shared⟩
  | unlock {i : ι} {l : Λ} {rest : Locked Λ σ ε α} : p.threads i = .unlock l rest →
      Step p ⟨Function.update p.threads i rest,
        Function.update p.held i ((p.held i).erase l), p.shared⟩
  | act {i : ι} {update : σ → σ} {rest : σ → Locked Λ σ ε α} : p.threads i = .act update rest →
      Step p ⟨Function.update p.threads i (rest p.shared), p.held, update p.shared⟩

def Finished (p : Pool ι Λ σ ε α) (i : ι) : Prop := ∃ r, p.threads i = .ret r

variable {rank : Λ → ℕ} {p p' : Pool ι Λ σ ε α}

/-- Every thread keeps to the order with the locks it has, and gives them all back. -/
def Orderly (rank : Λ → ℕ) (p : Pool ι Λ σ ε α) : Prop :=
  ∀ i, (p.threads i).Ordered rank ∅ (p.held i)

omit [DecidableEq ι] in
theorem orderly_start {threads : ι → Locked Λ σ ε α} (h : ∀ i, Locked.Orderly rank ∅ (threads i))
    (s : σ) : (start threads s).Orderly rank := fun i => (h i).ordered

theorem Step.orderly (hstep : p.Step p') (h : p.Orderly rank) : p'.Orderly rank := by
  intro j
  cases hstep with
  | @lock i l rest hi hfree =>
      have hi' := h i
      rw [hi] at hi'
      by_cases hj : j = i
      · subst hj
        simpa using hi'.2
      · simpa [hj] using h j
  | @unlock i l rest hi =>
      have hi' := h i
      rw [hi] at hi'
      by_cases hj : j = i
      · subst hj
        simpa using hi'.2
      · simpa [hj] using h j
  | @act i update rest hi =>
      have hi' := h i
      rw [hi] at hi'
      by_cases hj : j = i
      · subst hj
        simpa using hi' p.shared
      · simpa [hj] using h j

/-- A thread that cannot go on waits for a lock that some thread holds. -/
theorem waits (hstuck : ∀ p', ¬ p.Step p') {i : ι} (hi : ¬ p.Finished i) :
    ∃ l rest, p.threads i = .lock l rest ∧ ∃ j, l ∈ p.held j := by
  cases ht : p.threads i with
  | ret r => exact absurd ⟨r, ht⟩ hi
  | unlock l rest => exact absurd (.unlock ht) (hstuck _)
  | act update rest => exact absurd (.act ht) (hstuck _)
  | lock l rest =>
      refine ⟨l, rest, rfl, ?_⟩
      by_contra hfree
      push Not at hfree
      exact hstuck _ (.lock ht hfree)

/-- As long as a thread is not finished, some thread can go on. -/
theorem exists_step [Finite Λ] (h : p.Orderly rank) {i : ι} (hi : ¬ p.Finished i) :
    ∃ p', p.Step p' := by
  by_contra hnone
  push Not at hnone
  -- the lock of the highest rank that a thread waits for
  let wanted : Set Λ := { l | ∃ i rest, p.threads i = .lock l rest }
  have hne : wanted.Nonempty := by
    obtain ⟨l, rest, hl, -⟩ := waits hnone hi
    exact ⟨l, i, rest, hl⟩
  obtain ⟨l, ⟨j, rest, hj⟩, hmax⟩ := Set.exists_max_image wanted rank (Set.toFinite _) hne
  have hunfinished : ¬ p.Finished j := by
    rintro ⟨r, hr⟩
    rw [hj] at hr
    cases hr
  obtain ⟨l', rest', hl', k, hk⟩ := waits hnone hunfinished
  obtain ⟨rfl, -⟩ : l = l' ∧ rest = rest' := by
    rw [hj] at hl'
    exact Locked.lock.inj hl'
  -- its holder is not finished, so it waits too, for a lock of a higher rank
  have hholder : ¬ p.Finished k := by
    rintro ⟨r, hr⟩
    have hlast := h k
    rw [hr] at hlast
    have hempty : p.held k = ∅ := hlast
    rw [hempty] at hk
    exact Finset.notMem_empty l hk
  obtain ⟨m, rest'', hm, -⟩ := waits hnone hholder
  have hordered := h k
  rw [hm] at hordered
  exact Nat.not_lt.mpr (hmax m ⟨k, rest'', hm⟩) (hordered.1 l hk)

section Termination

/-- What is left of a program after a step. -/
inductive Child : Locked Λ σ ε α → Locked Λ σ ε α → Prop where
  | lock (l : Λ) (rest : Locked Λ σ ε α) : Child rest (.lock l rest)
  | unlock (l : Λ) (rest : Locked Λ σ ε α) : Child rest (.unlock l rest)
  | act (update : σ → σ) (rest : σ → Locked Λ σ ε α) (s : σ) : Child (rest s) (.act update rest)

omit [DecidableEq Λ] in
theorem wellFounded_child : WellFounded (Child : Locked Λ σ ε α → Locked Λ σ ε α → Prop) := by
  constructor
  intro x
  induction x with
  | ret r => exact ⟨_, fun y hy => by cases hy⟩
  | lock l rest ih =>
      refine ⟨_, fun y hy => ?_⟩
      cases hy
      exact ih
  | unlock l rest ih =>
      refine ⟨_, fun y hy => ?_⟩
      cases hy
      exact ih
  | act update rest ih =>
      refine ⟨_, fun y hy => ?_⟩
      cases hy with
      | act _ _ s => exact ih s

theorem Step.child (hstep : p.Step p') :
    ∃ i x, Child x (p.threads i) ∧ p'.threads = Function.update p.threads i x := by
  cases hstep with
  | @lock i l rest hi _ => exact ⟨i, rest, by rw [hi]; exact .lock l rest, rfl⟩
  | @unlock i l rest hi => exact ⟨i, rest, by rw [hi]; exact .unlock l rest, rfl⟩
  | @act i update rest hi =>
      exact ⟨i, rest p.shared, by rw [hi]; exact .act update rest p.shared, rfl⟩

theorem map_update_add [Fintype ι] {γ : Type} (f : ι → γ) (i : ι) (x : γ) :
    Finset.univ.val.map (Function.update f i x) + {f i} = Finset.univ.val.map f + {x} := by
  have hsplit : (Finset.univ : Finset ι).val = i ::ₘ (Finset.univ.erase i).val := by
    rw [Finset.erase_val, Multiset.cons_erase (Finset.mem_univ_val i)]
  have hrest : (Finset.univ.erase i).val.map (Function.update f i x) =
      (Finset.univ.erase i).val.map f := by
    refine Multiset.map_congr rfl fun j hj => ?_
    exact Function.update_of_ne (Finset.ne_of_mem_erase hj) x f
  rw [hsplit, Multiset.map_cons, Multiset.map_cons, hrest, Function.update_self,
    Multiset.cons_add, Multiset.cons_add, ← Multiset.singleton_add, ← Multiset.singleton_add,
    add_comm _ ({f i} : Multiset γ), add_comm _ ({x} : Multiset γ), ← add_assoc, ← add_assoc,
    add_comm ({x} : Multiset γ) {f i}]

/-- Threads cannot take steps for ever. -/
theorem wellFounded_step [Finite ι] :
    WellFounded fun p' p : Pool ι Λ σ ε α => p.Step p' := by
  have := Fintype.ofFinite ι
  refine Subrelation.wf ?_ (InvImage.wf
    (fun p : Pool ι Λ σ ε α => Finset.univ.val.map p.threads) wellFounded_child.cutExpand)
  intro p' p hstep
  obtain ⟨i, x, hchild, hthreads⟩ := hstep.child
  refine ⟨{x}, p.threads i, fun y hy => ?_, ?_⟩
  · rwa [Multiset.mem_singleton.mp hy]
  · show Finset.univ.val.map p'.threads + {p.threads i} = Finset.univ.val.map p.threads + {x}
    rw [hthreads]
    exact map_update_add p.threads i x

end Termination

/-- A thread that keeps to the order may run a part of its program before the others go on, if
they hold no lock. It does then what the part does alone. -/
theorem runs_alone {ε' α' : Type} {i : ι} {last : Finset Λ} {x : Locked Λ σ ε' α'}
    {next : Except (Fault ε') α' → Locked Λ σ ε α} (hthread : p.threads i = x.andThen next)
    (hx : x.Ordered rank last (p.held i)) (hothers : ∀ j, j ≠ i → p.held j = ∅) :
    Relation.ReflTransGen Step p ⟨Function.update p.threads i (next (x.alone p.shared).1),
      Function.update p.held i last, (x.alone p.shared).2⟩ := by
  induction x generalizing p with
  | ret r =>
      have hheld : p.held i = last := hx
      have hnext : p.threads i = next r := hthread
      show Relation.ReflTransGen Step p
        ⟨Function.update p.threads i (next r), Function.update p.held i last, p.shared⟩
      rw [← hnext, ← hheld, Function.update_eq_self, Function.update_eq_self]
  | lock l rest ih =>
      have hfree : ∀ j, l ∉ p.held j := by
        intro j hj
        by_cases hji : j = i
        · subst hji
          exact Nat.lt_irrefl _ (hx.1 l hj)
        · rw [hothers j hji] at hj
          exact Finset.notMem_empty l hj
      have hrest := ih (p := ⟨Function.update p.threads i (rest.andThen next),
        Function.update p.held i (insert l (p.held i)), p.shared⟩) (Function.update_self ..)
        (by simpa using hx.2) fun j hj => by simp [hj, hothers j hj]
      rw [Function.update_idem, Function.update_idem] at hrest
      exact .head (.lock hthread hfree) hrest
  | unlock l rest ih =>
      have hrest := ih (p := ⟨Function.update p.threads i (rest.andThen next),
        Function.update p.held i ((p.held i).erase l), p.shared⟩) (Function.update_self ..)
        (by simpa using hx.2) fun j hj => by simp [hj, hothers j hj]
      rw [Function.update_idem, Function.update_idem] at hrest
      exact .head (.unlock hthread) hrest
  | act update rest ih =>
      have hrest := ih p.shared (p := ⟨Function.update p.threads i ((rest p.shared).andThen next),
        p.held, update p.shared⟩) (Function.update_self ..) (hx p.shared) hothers
      rw [Function.update_idem] at hrest
      exact .head (.act hthread) hrest

/-- From every state that orderly threads come to, all of them can finish. -/
theorem finishes [Finite Λ] [Finite ι] (h : p.Orderly rank) :
    ∃ p', Relation.ReflTransGen Step p p' ∧ ∀ i, p'.Finished i := by
  refine WellFounded.induction (C := fun p : Pool ι Λ σ ε α => p.Orderly rank → ∃ p',
    Relation.ReflTransGen Step p p' ∧ ∀ i, p'.Finished i) wellFounded_step p (fun p ih h => ?_) h
  by_cases hall : ∀ i, p.Finished i
  · exact ⟨p, .refl, hall⟩
  · push Not at hall
    obtain ⟨i, hi⟩ := hall
    obtain ⟨q, hq⟩ := exists_step h hi
    obtain ⟨p', hrun, hfin⟩ := ih q hq (hq.orderly h)
    exact ⟨p', hrun.head hq, hfin⟩

end Pool

end ProgramLogic

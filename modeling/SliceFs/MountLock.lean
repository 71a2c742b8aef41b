import SliceFs.Commands

/-!
# The lock file of a mount

A mount checks for `mount.lock`, removes the file if it is there, checks again, and creates
it; its guard removes the file at the end. The checks and the changes are separate steps on
the file system, and the file does not say whose it is: a second mount takes a live
session's file for a stale one. Mounts exclude each other exactly when whatever starts them
starts none while another session is under way.
-/
namespace SliceFs
open ProgramLogic

/-- Where a session is. `found` and `absent` are what the check for the lock file gave,
`removed` comes before the second check, and from `loading` on the session has the guard. -/
inductive MountPhase where
  | idle
  | found
  | removed
  | absent
  | loading
  | live
deriving DecidableEq

/-- The lock file of a store and the sessions on it. -/
structure MountState (ι : Type) where
  lock : Bool
  phase : ι → MountPhase

inductive MountStep (ι : Type) where
  | check (i : ι)
  | remove (i : ι)
  | recheck (i : ι)
  | create (i : ι)
  | loaded (i : ι)
  | failed (i : ι)
  | unmount (i : ι)
  | crash (i : ι)

variable {ι : Type} {B : Blockset}

section
variable [DecidableEq ι]

def MountState.set (s : MountState ι) (i : ι) (phase : MountPhase) (lock : Bool) : MountState ι :=
  ⟨lock, Function.update s.phase i phase⟩

@[simp] theorem MountState.set_lock (s : MountState ι) (i : ι) (phase : MountPhase) (lock : Bool) :
    (s.set i phase lock).lock = lock := rfl

@[simp] theorem MountState.set_phase_self (s : MountState ι) (i : ι) (phase : MountPhase)
    (lock : Bool) : (s.set i phase lock).phase i = phase := Function.update_self ..

theorem MountState.set_phase_of_ne (s : MountState ι) {i j : ι} (h : j ≠ i) (phase : MountPhase)
    (lock : Bool) : (s.set i phase lock).phase j = s.phase j := Function.update_of_ne h ..

/-- The state after a step that can be taken. -/
def MountStep.run (s : MountState ι) : MountStep ι → Option (MountState ι)
  | .check i =>
    if s.phase i = .idle then some (s.set i (if s.lock then .found else .absent) s.lock) else none
  | .remove i => if s.phase i = .found then some (s.set i .removed false) else none
  | .recheck i =>
    -- `load_store` fails if the file is there again
    if s.phase i = .removed then some (s.set i (if s.lock then .idle else .absent) s.lock) else none
  | .create i => if s.phase i = .absent then some (s.set i .loading true) else none
  | .loaded i => if s.phase i = .loading then some (s.set i .live s.lock) else none
  | .failed i => if s.phase i = .loading then some (s.set i .idle false) else none
  | .unmount i => if s.phase i = .live then some (s.set i .idle false) else none
  | .crash i => some (s.set i .idle s.lock)

/-- The states that any interleaving leads to, from a store with or without a stale lock
file, if a mount is started only where `P` allows it. -/
inductive MountState.Reaches (P : MountState ι → ι → Prop) : MountState ι → Prop where
  | start (locked : Bool) : Reaches P ⟨locked, fun _ => .idle⟩
  | step {s s' : MountState ι} {step : MountStep ι} : Reaches P s →
      (∀ i, step = .check i → P s i) → step.run s = some s' → Reaches P s'

end

/-- The commands that want the store for themselves fail and change nothing. -/
structure Disk.Refuses (d : Disk B) : Prop where
  gc : ∀ order, runGc order d = (.error (.err .mounted), d)
  create : ∀ overflowChecks name now,
    runSnapshotCreate overflowChecks name now d = (.error (.err .mounted), d)
  switch : ∀ overflowChecks reference now,
    runSnapshotSwitch overflowChecks reference now d = (.error (.err .mounted), d)

/-- A live session is the only one, and its lock file keeps the commands away. -/
structure MountState.Excludes (B : Blockset) (s : MountState ι) : Prop where
  unique : ∀ i j, s.phase i = .live → s.phase j = .live → i = j
  locked : ∀ i, s.phase i = .live → s.lock = true
  refuses : ∀ i, s.phase i = .live → ∀ d : Disk B, d.mountLock = s.lock → d.Refuses

theorem Disk.refuses_of_mountLock {d : Disk B} (h : d.mountLock = true) : d.Refuses := by
  have hrefuse : refuseMounted d = (.error (.err .mounted), d) := by
    simp [refuseMounted, Prog.bind_apply, Prog.read, Prog.ensure, h]
  exact ⟨fun _ => Prog.bind_error hrefuse, fun _ _ _ => Prog.bind_error hrefuse,
    fun _ _ _ => Prog.bind_error hrefuse⟩

/-- What the phase of a session alone in the store says of the lock file. -/
def MountPhase.lock? : MountPhase → Option Bool
  | .idle => none
  | .removed | .absent => some false
  | .found | .loading | .live => some true

/-- At most one session is under way, and the lock file is as it left it. -/
structure MountState.Alone (s : MountState ι) : Prop where
  unique : ∀ i j, s.phase i ≠ .idle → s.phase j ≠ .idle → i = j
  lock : ∀ i, ∀ b ∈ (s.phase i).lock?, s.lock = b

variable {s s' : MountState ι}

theorem MountState.Alone.excludes (h : s.Alone) : s.Excludes B := by
  have hlock : ∀ i, s.phase i = .live → s.lock = true := fun i hi =>
    h.lock i true (by rw [hi]; rfl)
  refine ⟨fun i j hi hj => h.unique i j (by simp [hi]) (by simp [hj]), hlock, ?_⟩
  intro i hi d hd
  exact Disk.refuses_of_mountLock (hd.trans (hlock i hi))

/-- A session that is under way is alone. -/
theorem MountState.Alone.others (h : s.Alone) {i : ι} (hi : s.phase i ≠ .idle) :
    ∀ j, j ≠ i → s.phase j = .idle := by
  intro j hj
  by_contra hne
  exact hj (h.unique j i hne hi)

/-- What happens if `i` starts while `j` is under way: `i` removes the file of the live `j`,
or both find no file and both become live. -/
def overlapSteps (i j : ι) : MountPhase → List (MountStep ι)
  | .idle => []
  | .found => [.remove j, .recheck j, .create j, .loaded j, .remove i]
  | .removed => [.recheck j, .create j, .loaded j, .create i, .loaded i]
  | .absent => [.create j, .loaded j, .create i, .loaded i]
  | .loading => [.loaded j, .remove i]
  | .live => [.remove i]

theorem overlapSteps_ne_check (i j : ι) (phase : MountPhase) :
    ∀ step ∈ overlapSteps i j phase, ∀ k, step ≠ .check k := by
  cases phase <;> simp [overlapSteps]

variable [DecidableEq ι] {P : MountState ι → ι → Prop}

theorem MountState.alone_set {i : ι} {phase : MountPhase} {lock : Bool}
    (hothers : ∀ j, j ≠ i → s.phase j = .idle) (hlock : ∀ b ∈ phase.lock?, lock = b) :
    (s.set i phase lock).Alone := by
  have hidle : ∀ j, (s.set i phase lock).phase j ≠ .idle → j = i := by
    intro j hj
    by_contra hne
    exact hj (by rw [s.set_phase_of_ne hne, hothers j hne])
  refine ⟨fun j k hj hk => (hidle j hj).trans (hidle k hk).symm, fun j b hb => ?_⟩
  have hj : j = i := hidle j fun hj => by simp [hj, MountPhase.lock?] at hb
  subst hj
  exact hlock b (by rwa [s.set_phase_self] at hb)

theorem MountState.Alone.step (h : s.Alone) {step : MountStep ι}
    (hcheck : ∀ i, step = .check i → ∀ j, j ≠ i → s.phase j = .idle)
    (hrun : step.run s = some s') : s'.Alone := by
  cases step with
  | check i =>
      obtain ⟨-, hs'⟩ := Option.ite_none_right_eq_some.mp hrun
      obtain rfl := Option.some.inj hs'
      refine alone_set (hcheck i rfl) ?_
      cases s.lock <;> simp [MountPhase.lock?]
  | recheck i =>
      obtain ⟨hi, hs'⟩ := Option.ite_none_right_eq_some.mp hrun
      obtain rfl := Option.some.inj hs'
      refine alone_set (h.others (by simp [hi])) ?_
      cases s.lock <;> simp [MountPhase.lock?]
  | loaded i =>
      obtain ⟨hi, hs'⟩ := Option.ite_none_right_eq_some.mp hrun
      obtain rfl := Option.some.inj hs'
      refine alone_set (h.others (by simp [hi])) ?_
      have hlock := h.lock i true (by rw [hi]; rfl)
      simp [MountPhase.lock?, hlock]
  | crash i =>
      obtain rfl := Option.some.inj hrun
      by_cases hi : s.phase i = .idle
      · rwa [MountState.set, ← hi, Function.update_eq_self]
      · exact alone_set (h.others hi) nofun
  | remove i | create i | failed i | unmount i =>
      obtain ⟨hi, hs'⟩ := Option.ite_none_right_eq_some.mp hrun
      obtain rfl := Option.some.inj hs'
      exact alone_set (h.others (by simp [hi])) (by simp [MountPhase.lock?])

theorem MountState.Reaches.run (h : s.Reaches P) {steps : List (MountStep ι)}
    (hsteps : ∀ step ∈ steps, ∀ i, step = .check i → ∀ s, P s i)
    (hrun : steps.foldlM (fun s step => step.run s) s = some s') : s'.Reaches P := by
  induction steps generalizing s with
  | nil =>
      obtain rfl : s = s' := Option.some.inj hrun
      exact h
  | cons step steps ih =>
      obtain ⟨s₁, hstep, hrest⟩ := Option.bind_eq_some_iff.mp hrun
      exact ih (h.step (fun i hi => hsteps step List.mem_cons_self i hi s) hstep)
        (fun step' hstep' => hsteps step' (List.mem_cons_of_mem _ hstep')) hrest

theorem MountState.Alone.overlap (h : s.Alone) {i j : ι} (hi : s.phase i = .idle)
    (hj : s.phase j ≠ .idle) : ∃ s', (overlapSteps i j (s.phase j)).foldlM
      (fun s step => step.run s) (s.set i (if s.lock then .found else .absent) s.lock) = some s' ∧
      ¬ s'.Excludes B := by
  have hij : i ≠ j := by
    rintro rfl
    exact hj hi
  have hlock := h.lock j
  cases hphase : s.phase j with
  | idle => exact absurd hphase hj
  | live | loading =>
      have hl : s.lock = true := hlock true (by rw [hphase]; rfl)
      refine ⟨_, by simp [overlapSteps, MountStep.run, hl, MountState.set_phase_of_ne, hij,
        hij.symm, hphase]; rfl, fun hex => ?_⟩
      simpa [MountState.set_phase_of_ne, hij.symm, hphase] using hex.locked j
  | found =>
      have hl : s.lock = true := hlock true (by rw [hphase]; rfl)
      refine ⟨_, by simp [overlapSteps, MountStep.run, hl, MountState.set_phase_of_ne, hij,
        hij.symm, hphase]; rfl, fun hex => ?_⟩
      simpa [MountState.set_phase_of_ne, hij.symm] using hex.locked j
  | removed | absent =>
      have hl : s.lock = false := hlock false (by rw [hphase]; rfl)
      refine ⟨_, by simp [overlapSteps, MountStep.run, hl, MountState.set_phase_of_ne, hij,
        hij.symm, hphase]; rfl, fun hex => ?_⟩
      exact hij (hex.unique i j (by simp) (by simp [MountState.set_phase_of_ne, hij.symm]))

theorem phase_of_check {i : ι} (h : (MountStep.check i).run s = some s') : s.phase i = .idle :=
  (Option.ite_none_right_eq_some.mp h).1

/-- Where sessions exclude each other, a start that is allowed is the only one. -/
theorem MountState.Alone.others_of_start (h : s.Alone) (hs : s.Reaches P)
    (hall : ∀ s, MountState.Reaches P s → s.Excludes B) {i : ι} (hi : s.phase i = .idle)
    (hP : P s i) : ∀ j, j ≠ i → s.phase j = .idle := by
  intro j hji
  by_contra hj
  obtain ⟨s', hrun, hbad⟩ := h.overlap (B := B) hi hj
  have hcheck : (MountStep.check i).run s =
      some (s.set i (if s.lock then .found else .absent) s.lock) := if_pos hi
  have hchecked := hs.step (by rintro _ ⟨⟩; exact hP) hcheck
  refine hbad (hall s' (hchecked.run (fun step hstep k hk => ?_) hrun))
  exact absurd hk (overlapSteps_ne_check i j (s.phase j) step hstep k)

/-- If allowed starts keep a lone session alone, all that is reached does. -/
theorem MountState.Reaches.alone (h : s.Reaches P)
    (hstart : ∀ s, MountState.Reaches P s → s.Alone → ∀ i, s.phase i = .idle → P s i →
      ∀ j, j ≠ i → s.phase j = .idle) : s.Alone := by
  induction h with
  | start locked => exact ⟨fun _ _ hi => absurd rfl hi, nofun⟩
  | step hs hP hrun ih =>
      refine ih.step (fun i hi => ?_) hrun
      subst hi
      exact hstart _ hs ih i (phase_of_check hrun) (hP i rfl)

/-- Whatever starts the mounts, sessions exclude each other exactly when none is started
while another is starting or live. -/
theorem mountLock_excludes_iff (P : MountState ι → ι → Prop) :
    (∀ s, MountState.Reaches P s → s.Excludes B) ↔
      ∀ s i, MountState.Reaches P s → s.phase i = .idle → P s i →
        ∀ j, j ≠ i → s.phase j = .idle := by
  constructor
  · intro hall s i hs hi hP
    have halone := hs.alone fun s hs h i hi hP => h.others_of_start hs hall hi hP
    exact halone.others_of_start hs hall hi hP
  · intro hstart s hs
    exact (hs.alone fun s hs _ i hi hP => hstart s i hs hi hP).excludes

def takeoverSteps : List (MountStep Bool) :=
  [.check false, .create false, .loaded false,
    .check true, .remove true, .recheck true, .create true, .loaded true]

/-- The second of two sessions takes the first one's lock file; when it ends, the first one
is live without a lock file. -/
theorem mountLock_taken :
    (∃ s : MountState Bool, s.Reaches (fun _ _ => True) ∧
      s.phase false = .live ∧ s.phase true = .live) ∧
    ∃ s : MountState Bool, s.Reaches (fun _ _ => True) ∧
      s.phase false = .live ∧ s.lock = false := by
  have hrun : ∀ (steps : List (MountStep Bool)) (s : MountState Bool),
      steps.foldlM (fun s step => step.run s) ⟨false, fun _ => .idle⟩ = some s →
        s.Reaches fun _ _ => True := fun _ _ hsteps =>
    (MountState.Reaches.start false).run (fun _ _ _ _ _ => trivial) hsteps
  constructor
  · exact ⟨_, hrun takeoverSteps _ rfl, rfl, rfl⟩
  · exact ⟨_, hrun (takeoverSteps ++ [.unmount true]) _ rfl, rfl, rfl⟩

end SliceFs

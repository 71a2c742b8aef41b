import Mathlib

/-!
# Journalled state

A state is edited in memory and recorded in a journal: a record makes the state it carries
the committed one, or keeps it under a label. The first records are durable. A restart
keeps these, may lose others, and goes on from the last state committed in what is left.
-/
namespace Journal

inductive Record (ι α : Type) where
  | commit (a : α)
  | label (i : ι) (a : α)

variable {ι α : Type}

namespace Record

def state : Record ι α → α
  | commit a => a
  | label _ a => a

def commit? : Record ι α → Option α
  | commit a => some a
  | label _ _ => none

def label? : Record ι α → Option (ι × α)
  | commit _ => none
  | label i a => some (i, a)

end Record

/-- The state a restart goes on from. -/
def committed (rs : List (Record ι α)) : Option α := (rs.filterMap Record.commit?).getLast?

/-- The labelled states, oldest first. -/
def archive (rs : List (Record ι α)) : List (ι × α) := rs.filterMap Record.label?

@[simp] theorem archive_append (p q : List (Record ι α)) :
    archive (p ++ q) = archive p ++ archive q :=
  List.filterMap_append

theorem archive_concat_commit (rs : List (Record ι α)) (a : α) :
    archive (rs ++ [.commit a]) = archive rs := by
  rw [archive_append]
  exact List.append_nil _

theorem archive_concat_label (rs : List (Record ι α)) (i : ι) (a : α) :
    archive (rs ++ [.label i a]) = archive rs ++ [(i, a)] := by
  rw [archive_append]
  rfl

theorem archive_mono {p q : List (Record ι α)} (h : p <+: q) : archive p <+: archive q := by
  obtain ⟨r, rfl⟩ := h
  rw [archive_append]
  exact List.prefix_append _ _

theorem committed_append (p q : List (Record ι α)) :
    committed (p ++ q) = (committed q).or (committed p) := by
  rw [committed, List.filterMap_append, List.getLast?_append]
  rfl

/-- Records of one state, a commit first. -/
theorem committed_commit_cons {rs : List (Record ι α)} {a : α} (h : ∀ r ∈ rs, r.state = a) :
    committed (.commit a :: rs) = some a := by
  induction rs using List.reverseRecOn with
  | nil => rfl
  | append_singleton rs r ih =>
      have hr := h r (by simp)
      rw [← List.cons_append, committed_append, ih fun r' hr' => h r' (by simp [hr'])]
      cases r with
      | commit b => exact congrArg some hr
      | label i b => rfl

/-- What is committed was recorded. -/
theorem mem_of_committed {rs : List (Record ι α)} {a : α} (h : committed rs = some a) :
    .commit a ∈ rs := by
  obtain ⟨r, hr, heq⟩ := List.mem_filterMap.mp (List.mem_of_getLast? h)
  cases r with
  | commit b =>
      obtain rfl := Option.some.inj heq
      exact hr
  | label i b => cases heq

theorem mem_of_archive {rs : List (Record ι α)} {e : ι × α} (h : e ∈ archive rs) :
    .label e.1 e.2 ∈ rs := by
  obtain ⟨r, hr, heq⟩ := List.mem_filterMap.mp h
  cases r with
  | commit b => cases heq
  | label i b =>
      obtain rfl := Option.some.inj heq
      exact hr

structure State (ι α : Type) where
  current : α
  records : List (Record ι α)
  durable : ℕ

/-- Edits, records of the current state or of a labelled one, syncs, and restarts. -/
inductive Step : State ι α → State ι α → Prop where
  | edit (j : State ι α) (a : α) : Step j { j with current := a }
  | commit (j : State ι α) : Step j { j with records := j.records ++ [.commit j.current] }
  | label (j : State ι α) (i : ι) : Step j { j with records := j.records ++ [.label i j.current] }
  | revert {j : State ι α} {e : ι × α} : e ∈ archive j.records →
      Step j { j with records := j.records ++ [.commit e.2] }
  | sync {j : State ι α} {n : ℕ} : j.durable ≤ n → n ≤ j.records.length →
      Step j { j with durable := n }
  | restart {j : State ι α} {p : List (Record ι α)} {a : α} : p <+: j.records →
      j.durable ≤ p.length → committed p = some a → Step j ⟨a, p, p.length⟩

abbrev Run : State ι α → State ι α → Prop := Relation.ReflTransGen Step

/-- The records that stay whatever happens. -/
def State.kept (j : State ι α) : List (Record ι α) := j.records.take j.durable

theorem take_prefix_append (rs new : List (Record ι α)) (n : ℕ) :
    rs.take n <+: (rs ++ new).take n := by
  rw [List.take_append]
  exact List.prefix_append _ _

theorem Step.kept_mono {j j' : State ι α} (h : Step j j') : j.kept <+: j'.kept := by
  cases h with
  | edit a => exact List.prefix_rfl
  | commit => exact take_prefix_append _ _ _
  | label i => exact take_prefix_append _ _ _
  | revert _ => exact take_prefix_append _ _ _
  | sync hn _ => exact List.take_prefix_take_left hn
  | restart hp hn _ =>
      obtain ⟨q, hq⟩ := hp
      simp only [State.kept, ← hq, List.take_length]
      rw [List.take_append_of_le_length hn]
      exact List.take_prefix _ _

theorem Run.kept_mono {j j' : State ι α} (h : Run j j') : j.kept <+: j'.kept := by
  induction h with
  | refl => exact List.prefix_rfl
  | tail _ hstep ih => exact ih.trans hstep.kept_mono

/-- A state with a durable label is in the archive from then on. -/
theorem Run.archive_kept {j j' : State ι α} (h : Run j j') {e : ι × α} (he : e ∈ archive j.kept) :
    e ∈ archive j'.records :=
  (archive_mono (h.kept_mono.trans (List.take_prefix _ _))).subset he

end Journal

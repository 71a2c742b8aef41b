import Mathlib.Data.List.Nodup

/-!
# Scans by position

A reader asks for a list in pages and names the place to go on from by its position. The list
may change between two pages. An element that is there all the time is read once for every
time that it is found behind the position and was not passed there by a change.
-/
namespace SliceFs.PagedScan

variable {α : Type*} [DecidableEq α] {e : α}

/-- A request for a page: the list as it is then, and how many elements the page takes. -/
structure Call (α : Type*) where
  list : List α
  capacity : ℕ

/-- The page from a position on. -/
def Call.page (c : Call α) (offset : ℕ) : List α := (c.list.drop offset).take c.capacity

/-- The position after the page. -/
def Call.next (c : Call α) (offset : ℕ) : ℕ := offset + (c.page offset).length

/-- The pages of a scan: every call goes on where the one before has stopped. -/
def pages : ℕ → List (Call α) → List (List α)
  | _, [] => []
  | offset, c :: cs => c.page offset :: pages (c.next offset) cs

/-- Whether an element of the list stands before a position. -/
def Behind (l : List α) (offset : ℕ) (e : α) : Prop := l.idxOf e < offset

instance (l : List α) (offset : ℕ) (e : α) : Decidable (Behind l offset e) :=
  inferInstanceAs (Decidable (_ < _))

/-- How often a change between two pages takes an element from one side of the position to
the other: from ahead to behind, and back. -/
def skips (e : α) : ℕ → List (Call α) → ℕ
  | offset, c :: d :: cs =>
      (if ¬ Behind c.list (c.next offset) e ∧ Behind d.list (c.next offset) e then 1 else 0) +
        skips e (c.next offset) (d :: cs)
  | _, _ => 0

@[inherit_doc skips]
def repeats (e : α) : ℕ → List (Call α) → ℕ
  | offset, c :: d :: cs =>
      (if Behind c.list (c.next offset) e ∧ ¬ Behind d.list (c.next offset) e then 1 else 0) +
        repeats e (c.next offset) (d :: cs)
  | _, _ => 0

theorem mem_page {c : Call α} (hnodup : c.list.Nodup) (he : e ∈ c.list) (offset : ℕ) :
    e ∈ c.page offset ↔ ¬ Behind c.list offset e ∧ Behind c.list (c.next offset) e := by
  have hlt : c.list.idxOf e < c.list.length := List.idxOf_lt_length_of_mem he
  have hget : c.list[c.list.idxOf e] = e := List.getElem_idxOf hlt
  simp only [Behind, Call.next, Call.page, List.length_take, List.length_drop, Nat.not_lt]
  rw [List.mem_take_iff_getElem]
  constructor
  · rintro ⟨i, hi, heq⟩
    rw [List.length_drop] at hi
    rw [List.getElem_drop] at heq
    have hidx : c.list.idxOf e = offset + i := by
      rw [← heq]
      exact hnodup.idxOf_getElem _ _
    omega
  · rintro ⟨hge, hbound⟩
    refine ⟨c.list.idxOf e - offset, ?_, ?_⟩
    · rw [List.length_drop]
      omega
    · rw [List.getElem_drop]
      simp only [Nat.add_sub_cancel' hge]
      exact hget

theorem count_page {c : Call α} (hnodup : c.list.Nodup) (he : e ∈ c.list) (offset : ℕ) :
    (c.page offset).count e =
      if ¬ Behind c.list offset e ∧ Behind c.list (c.next offset) e then 1 else 0 := by
  have hpage : (c.page offset).Nodup :=
    (hnodup.sublist (List.drop_sublist _ _)).sublist (List.take_sublist _ _)
  rw [hpage.count]
  exact if_congr (mem_page hnodup he offset) rfl rfl

theorem Behind.next {c : Call α} {offset : ℕ} (h : Behind c.list offset e) :
    Behind c.list (c.next offset) e := Nat.lt_of_lt_of_le h (Nat.le_add_right _ _)

/-- Nothing is ahead of a position whose page is empty. -/
theorem behind_of_page_eq_nil {c : Call α} {offset : ℕ} (he : e ∈ c.list) (hcap : 0 < c.capacity)
    (hpage : c.page offset = []) : Behind c.list offset e := by
  have hlen : c.list.length ≤ offset := by
    have hz := congrArg List.length hpage
    simp only [Call.page, List.length_take, List.length_drop, List.length_nil] at hz
    omega
  exact Nat.lt_of_lt_of_le (List.idxOf_lt_length_of_mem he) hlen

/-- In a scan that ends with an empty page, an element that is in the list at every call is
read once, less the times it is skipped and with the times it is repeated. -/
theorem count_pages {calls : List (Call α)} (hnodup : ∀ c ∈ calls, c.list.Nodup)
    (he : ∀ c ∈ calls, e ∈ c.list) (hcap : ∀ c ∈ calls, 0 < c.capacity) {offset : ℕ}
    (hlast : (pages offset calls).getLast? = some []) :
    (pages offset calls).flatten.count e +
        (calls.head?.elim 0 fun c => if Behind c.list offset e then 1 else 0) +
        skips e offset calls = 1 + repeats e offset calls := by
  induction calls generalizing offset with
  | nil => simp [pages] at hlast
  | cons c cs ih =>
      have hcount := count_page (hnodup c List.mem_cons_self) (he c List.mem_cons_self) offset
      cases cs with
      | nil =>
          have hpage : c.page offset = [] := by simpa [pages] using hlast
          have hbehind := behind_of_page_eq_nil (he c List.mem_cons_self)
            (hcap c List.mem_cons_self) hpage
          simp [pages, hpage, hbehind, skips, repeats]
      | cons d cs =>
          have htail : (pages (c.next offset) (d :: cs)).getLast? = some [] := by
            rw [← hlast]
            simp [pages]
          have hrest := ih (fun x hx => hnodup x (List.mem_cons_of_mem _ hx))
            (fun x hx => he x (List.mem_cons_of_mem _ hx))
            (fun x hx => hcap x (List.mem_cons_of_mem _ hx)) htail
          -- what the page reads and what the change moves add up to the side of the element
          have hnext : Behind c.list offset e → Behind c.list (c.next offset) e := Behind.next
          simp only [List.head?_cons, Option.elim_some] at hrest ⊢
          rw [pages, List.flatten_cons, List.count_append, hcount, skips, repeats]
          clear ih hnodup he hcap hlast htail hcount
          split_ifs at hrest ⊢ <;> grind

end SliceFs.PagedScan

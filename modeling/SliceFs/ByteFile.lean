import Mathlib

/-!
# File contents as lists

A file is a list of cells with a fill value `z` for the cells no one has
written. Positional writes and resizing are defined as a buffer performs them
(grow with fill, then copy over a range), and characterized by the length and by
the cell read at each position, where reading past the end gives the fill value.
Two contents of one length that read alike are equal.

A sequence of positional writes has an end and a set of covered positions; what
it leaves of the original content is exactly the uncovered positions.
-/
namespace ByteFile
variable {α : Type*}

/-- The growing and shrinking of a buffer to `n` cells. -/
def resize (z : α) (n : ℕ) (c : List α) : List α :=
  c.take n ++ List.replicate (n - c.length) z

/-- Copying `data` over the cells from `offset` on, inside the buffer. -/
def splice (c : List α) (offset : ℕ) (data : List α) : List α :=
  c.take offset ++ data ++ c.drop (offset + data.length)

/-- A positional write: the buffer is grown to the end of the write if needed. -/
def pwrite (z : α) (c : List α) (offset : ℕ) (data : List α) : List α :=
  splice (if c.length < offset + data.length then resize z (offset + data.length) c else c)
    offset data

/-- The cells of `c` from position `start` up to, not including, `stop`. -/
def slice (c : List α) (start stop : ℕ) : List α := (c.take stop).drop start

theorem ext_getD (z : α) {a b : List α} (hl : a.length = b.length)
    (hg : ∀ i, a.getD i z = b.getD i z) : a = b := by
  apply List.ext_getElem hl
  intro i ha hb
  have h := hg i
  rwa [List.getD_eq_getElem _ _ ha, List.getD_eq_getElem _ _ hb] at h

@[simp] theorem length_resize (z : α) (n : ℕ) (c : List α) : (resize z n c).length = n := by
  simp only [resize, List.length_append, List.length_take, List.length_replicate]
  omega

theorem getD_resize (z : α) (n : ℕ) (c : List α) (i : ℕ) :
    (resize z n c).getD i z = if i < n then c.getD i z else z := by
  simp only [resize, List.getD_eq_getElem?_getD, List.getElem?_append, List.length_take,
    List.getElem?_take, List.getElem?_replicate]
  by_cases hn : i < n <;> by_cases hc : i < c.length
  · rw [if_pos (lt_min hn hc), if_pos hn, if_pos hn]
  · rw [if_neg (by omega), if_pos hn, List.getElem?_eq_none (by omega)]
    split_ifs <;> rfl
  · rw [if_neg (by omega), if_neg hn]
    split_ifs <;> rfl
  · rw [if_neg (by omega), if_neg hn]
    split_ifs <;> rfl

@[simp] theorem resize_zero (z : α) (c : List α) : resize z 0 c = [] := by
  simp [resize]

theorem length_splice {c : List α} {offset : ℕ} {data : List α}
    (h : offset + data.length ≤ c.length) : (splice c offset data).length = c.length := by
  simp only [splice, List.length_append, List.length_take, List.length_drop]
  omega

theorem getD_splice (z : α) {c : List α} {offset : ℕ} {data : List α}
    (h : offset + data.length ≤ c.length) (i : ℕ) :
    (splice c offset data).getD i z =
      if offset ≤ i ∧ i < offset + data.length then data.getD (i - offset) z
      else c.getD i z := by
  have ht : (c.take offset).length = offset := by simp; omega
  simp only [splice, List.append_assoc, List.getD_eq_getElem?_getD, List.getElem?_append, ht,
    List.getElem?_take, List.getElem?_drop]
  by_cases h₁ : i < offset
  · rw [if_pos h₁, if_pos h₁, if_neg (by omega)]
  · rw [if_neg h₁]
    by_cases h₂ : i < offset + data.length
    · rw [if_pos (by omega), if_pos ⟨by omega, h₂⟩]
    · rw [if_neg (by omega), if_neg (by omega)]
      congr 2
      omega

/-- The buffer a positional write copies into is long enough. -/
private theorem le_grown (z : α) (c : List α) (offset : ℕ) (data : List α) :
    offset + data.length ≤
      (if c.length < offset + data.length then resize z (offset + data.length) c
        else c).length := by
  split_ifs with h
  · simp
  · omega

@[simp] theorem length_pwrite (z : α) (c : List α) (offset : ℕ) (data : List α) :
    (pwrite z c offset data).length = max c.length (offset + data.length) := by
  rw [pwrite, length_splice (le_grown z c offset data)]
  split_ifs with h
  · rw [length_resize]; omega
  · omega

theorem getD_pwrite (z : α) (c : List α) (offset : ℕ) (data : List α) (i : ℕ) :
    (pwrite z c offset data).getD i z =
      if offset ≤ i ∧ i < offset + data.length then data.getD (i - offset) z
      else c.getD i z := by
  rw [pwrite, getD_splice z (le_grown z c offset data)]
  by_cases hi : offset ≤ i ∧ i < offset + data.length
  · rw [if_pos hi, if_pos hi]
  · rw [if_neg hi, if_neg hi]
    split_ifs with h
    · rw [getD_resize]
      split_ifs with hn
      · rfl
      · rw [List.getD_eq_default _ _ (by omega)]
    · rfl

/-- A write that starts at the end of the file appends. -/
theorem pwrite_length (z : α) (c data : List α) : pwrite z c c.length data = c ++ data := by
  apply ext_getD z
  · simp only [length_pwrite, List.length_append]; omega
  · intro i
    rw [getD_pwrite]
    split_ifs with h
    · rw [List.getD_append_right _ _ _ _ h.1]
    · by_cases hc : i < c.length
      · rw [List.getD_append _ _ _ _ hc]
      · rw [List.getD_eq_default _ _ (by omega),
          List.getD_eq_default _ _ (by rw [List.length_append]; omega)]

theorem slice_append (a b : List α) (start stop : ℕ) :
    slice (a ++ b) start stop =
      slice a start stop ++ slice b (start - a.length) (stop - a.length) := by
  simp only [slice, List.take_append, List.drop_append, List.length_take]
  by_cases h : stop ≤ a.length
  · simp [Nat.sub_eq_zero_of_le h]
  · rw [min_eq_right (by omega)]

theorem slice_eq_nil {a : List α} {start stop : ℕ} (h : a.length ≤ start) :
    slice a start stop = [] := by
  simp only [slice, List.drop_eq_nil_iff, List.length_take]
  omega

theorem slice_eq_nil_of_stop {a : List α} {start stop : ℕ} (h : stop = 0) :
    slice a start stop = [] := by
  simp [slice, h]

/-- The range of a read, cut to the file, holds the bytes in range. -/
theorem slice_clamp (b : List α) (offset size : ℕ) :
    slice b (min offset b.length) (min (min offset b.length + size) b.length) =
      (b.drop offset).take size := by
  apply List.ext_getElem?
  intro i
  simp only [slice, List.getElem?_drop, List.getElem?_take]
  by_cases h : offset ≤ b.length
  · grind
  · have hnone : b[offset + i]? = none := List.getElem?_eq_none (by omega)
    rw [hnone, List.getElem?_eq_none (by omega)]
    split_ifs <;> rfl

theorem slice_eq_self {a : List α} {start stop : ℕ} (h₁ : start = 0) (h₂ : a.length ≤ stop) :
    slice a start stop = a := by
  rw [slice, h₁, List.drop_zero, List.take_of_length_le h₂]

/-- One positional write of a sequence. -/
structure Write (α : Type*) where
  offset : ℕ
  data : List α
deriving DecidableEq

def Write.stop (w : Write α) : ℕ := w.offset + w.data.length

def Write.Covers (w : Write α) (i : ℕ) : Prop := w.offset ≤ i ∧ i < w.stop

def applyWrites (z : α) (c : List α) (ws : List (Write α)) : List α :=
  ws.foldl (fun c w => pwrite z c w.offset w.data) c

/-- The length the writes alone give a file. -/
def writesEnd (ws : List (Write α)) : ℕ := ws.foldl (fun n w => max n w.stop) 0

theorem foldl_max_stop (ws : List (Write α)) (n : ℕ) :
    ws.foldl (fun n w => max n w.stop) n = max n (writesEnd ws) := by
  induction ws generalizing n with
  | nil => simp [writesEnd]
  | cons w ws ih =>
      simp only [writesEnd, List.foldl_cons]
      rw [ih, ih (max 0 w.stop)]
      omega

theorem writesEnd_le {ws : List (Write α)} {n : ℕ} (h : ∀ w ∈ ws, w.stop ≤ n) :
    writesEnd ws ≤ n := by
  induction ws with
  | nil => exact Nat.zero_le n
  | cons w ws ih =>
      have hw := h w List.mem_cons_self
      have hrest := ih fun v hv => h v (List.mem_cons_of_mem _ hv)
      rw [writesEnd, List.foldl_cons, foldl_max_stop]
      omega

@[simp] theorem length_applyWrites (z : α) (c : List α) (ws : List (Write α)) :
    (applyWrites z c ws).length = max c.length (writesEnd ws) := by
  induction ws generalizing c with
  | nil => simp [applyWrites, writesEnd]
  | cons w ws ih =>
      have hw : writesEnd (w :: ws) = max w.stop (writesEnd ws) := by
        rw [writesEnd, List.foldl_cons, foldl_max_stop]; omega
      have h := ih (pwrite z c w.offset w.data)
      rw [applyWrites, List.foldl_cons]
      rw [applyWrites] at h
      rw [h, hw, length_pwrite]
      simp only [Write.stop]
      omega

theorem getD_applyWrites (z : α) (c : List α) (ws : List (Write α)) (i : ℕ) :
    ((∃ w ∈ ws, w.Covers i) →
      (applyWrites z c ws).getD i z = (applyWrites z [] ws).getD i z) ∧
    ((¬ ∃ w ∈ ws, w.Covers i) → (applyWrites z c ws).getD i z = c.getD i z) := by
  induction ws generalizing c with
  | nil => simp [applyWrites]
  | cons w ws ih =>
      have hc := ih (pwrite z c w.offset w.data)
      have he := ih (pwrite z [] w.offset w.data)
      simp only [applyWrites, List.foldl_cons] at hc he ⊢
      by_cases hi : ∃ v ∈ ws, v.Covers i
      · refine ⟨fun _ => (hc.1 hi).trans (he.1 hi).symm, fun hn => (hn ?_).elim⟩
        obtain ⟨v, hv, hvi⟩ := hi
        exact ⟨v, List.mem_cons_of_mem _ hv, hvi⟩
      · rw [hc.2 hi, he.2 hi, getD_pwrite, getD_pwrite]
        by_cases hw : w.Covers i
        · have hw' : w.offset ≤ i ∧ i < w.offset + w.data.length := hw
          rw [if_pos hw', if_pos hw']
          exact ⟨fun _ => rfl, fun hn => (hn ⟨w, List.mem_cons_self, hw⟩).elim⟩
        · have hw' : ¬ (w.offset ≤ i ∧ i < w.offset + w.data.length) := hw
          rw [if_neg hw', if_neg hw']
          refine ⟨?_, fun _ => rfl⟩
          rintro ⟨v, hv, hvi⟩
          rcases List.mem_cons.mp hv with rfl | hv
          · exact (hw hvi).elim
          · exact (hi ⟨v, hv, hvi⟩).elim

/-- Starting from the empty file instead of `c` loses nothing exactly when every
position of `c` that no write covers lies before the end of the writes and holds
the fill value. -/
theorem applyWrites_nil_eq_iff (z : α) (c : List α) (ws : List (Write α)) :
    applyWrites z [] ws = applyWrites z c ws ↔
      c.length ≤ writesEnd ws ∧
        ∀ i < c.length, (¬ ∃ w ∈ ws, w.Covers i) → c.getD i z = z := by
  constructor
  · intro h
    have hl := congrArg List.length h
    simp only [length_applyWrites, List.length_nil] at hl
    refine ⟨by omega, fun i _ hn => ?_⟩
    have h₁ := (getD_applyWrites z c ws i).2 hn
    have h₂ := (getD_applyWrites z [] ws i).2 hn
    rw [← h₁, ← h, h₂, List.getD_nil]
  · rintro ⟨hl, hz⟩
    apply ext_getD z
    · simp only [length_applyWrites, List.length_nil]; omega
    · intro i
      by_cases hn : ∃ w ∈ ws, w.Covers i
      · exact ((getD_applyWrites z c ws i).1 hn).symm
      · rw [(getD_applyWrites z c ws i).2 hn, (getD_applyWrites z [] ws i).2 hn, List.getD_nil]
        by_cases hi : i < c.length
        · exact (hz i hi hn).symm
        · exact (List.getD_eq_default _ _ (by omega)).symm

end ByteFile

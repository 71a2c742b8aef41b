import Mathlib

/-!
# Finite maps in key order

The ordered maps of the models are extensional tree maps: two maps with the same
bindings are equal, so a decoder that rebuilds a map binding by binding returns
the map itself, whatever the order of the insertions was.
-/
namespace TreeMaps
open Std

abbrev Map (α β : Type) [Ord α] := ExtTreeMap α β compare

variable {α β : Type} [Ord α] [TransOrd α] [LawfulEqOrd α]

/-- Rebuilding a map from its bindings. -/
theorem ofList_toList (m : Map α β) : ExtTreeMap.ofList m.toList compare = m := by
  classical
  apply ExtTreeMap.ext_getElem?
  intro k
  cases h : m[k]? with
  | none =>
      apply ExtTreeMap.getElem?_ofList_of_contains_eq_false
      rw [List.contains_eq_mem, decide_eq_false_iff_not, ExtTreeMap.map_fst_toList_eq_keys,
        ExtTreeMap.mem_keys, ExtTreeMap.mem_iff_isSome_getElem?, h]
      simp
  | some v =>
      exact ExtTreeMap.getElem?_ofList_of_mem ReflCmp.compare_self
        ExtTreeMap.distinct_keys_toList (ExtTreeMap.mem_toList_iff_getElem?_eq_some.mpr h)

omit [LawfulEqOrd α] in
theorem nodup_toList (m : Map α β) : m.toList.Nodup := by
  have hkeys := m.nodup_keys
  rw [← ExtTreeMap.map_fst_toList_eq_keys] at hkeys
  exact hkeys.of_map _

omit [LawfulEqOrd α] in
theorem pairwise_toList (m : Map α β) : m.toList.Pairwise fun a b => compare a.1 b.1 = .lt :=
  ExtTreeMap.ordered_keys_toList

/-- A list of bindings in key order is determined by what is in it. -/
theorem eq_of_pairwise_lt {l l' : List (α × β)} (h : l.Pairwise fun a b => compare a.1 b.1 = .lt)
    (h' : l'.Pairwise fun a b => compare a.1 b.1 = .lt) (hmem : ∀ e, e ∈ l ↔ e ∈ l') : l = l' := by
  have hasymm : ∀ a b : α × β, compare a.1 b.1 = .lt → compare b.1 a.1 = .lt → a = b := by
    intro a b hab hba
    have hswap : compare a.1 b.1 = (compare b.1 a.1).swap := OrientedCmp.eq_swap
    rw [hswap, hba] at hab
    cases hab
  have hnodup : ∀ {l : List (α × β)}, l.Pairwise (fun a b => compare a.1 b.1 = .lt) → l.Nodup := by
    intro l hl
    refine hl.imp fun {a b} hlt heq => ?_
    subst heq
    have hself : compare a.1 a.1 = .eq := ReflCmp.compare_self
    rw [hself] at hlt
    cases hlt
  exact List.Perm.eq_of_pairwise (fun a b _ _ => hasymm a b) h h'
    ((List.perm_ext_iff_of_nodup (hnodup h) (hnodup h')).mpr hmem)

/-- A map whose bindings are those of another one under a map of keys that keeps the order
lists them in the same order. -/
theorem toList_eq_map {γ δ : Type} [Ord γ] [TransOrd γ] [LawfulEqOrd γ] {m : Map α β}
    {m' : Map γ δ} (φ : α → γ) (ψ : α → β → δ)
    (hmono : ∀ a b, a ∈ m → b ∈ m → compare a b = .lt → compare (φ a) (φ b) = .lt)
    (hmem : ∀ c d, m'[c]? = some d ↔ ∃ a b, m[a]? = some b ∧ c = φ a ∧ d = ψ a b) :
    m'.toList = m.toList.map fun e => (φ e.1, ψ e.1 e.2) := by
  have hsorted : (m.toList.map fun e => (φ e.1, ψ e.1 e.2)).Pairwise
      fun a b => compare a.1 b.1 = .lt := by
    rw [List.pairwise_map]
    refine (pairwise_toList m).imp_of_mem fun {a b} ha hb hlt => ?_
    have hkey : ∀ e ∈ m.toList, e.1 ∈ m := by
      intro e he
      rw [ExtTreeMap.mem_iff_isSome_getElem?, ExtTreeMap.mem_toList_iff_getElem?_eq_some.mp he]
      rfl
    exact hmono _ _ (hkey a ha) (hkey b hb) hlt
  refine eq_of_pairwise_lt (pairwise_toList m') hsorted fun e => ?_
  rw [ExtTreeMap.mem_toList_iff_getElem?_eq_some, hmem, List.mem_map]
  constructor
  · rintro ⟨a, b, hab, hc, hd⟩
    exact ⟨(a, b), ExtTreeMap.mem_toList_iff_getElem?_eq_some.mpr hab, Prod.ext hc.symm hd.symm⟩
  · rintro ⟨⟨a, b⟩, hab, rfl⟩
    exact ⟨a, b, ExtTreeMap.mem_toList_iff_getElem?_eq_some.mp hab, rfl, rfl⟩

/-- A map made of bindings in key order lists them. -/
theorem toList_ofList {l : List (α × β)} (h : l.Pairwise fun a b => compare a.1 b.1 = .lt) :
    (ExtTreeMap.ofList l compare).toList = l := by
  classical
  have hdistinct : l.Pairwise fun a b => ¬ compare a.1 b.1 = .eq := by
    refine h.imp fun hlt heq => ?_
    rw [hlt] at heq
    cases heq
  refine eq_of_pairwise_lt (pairwise_toList _) h fun e => ?_
  rw [ExtTreeMap.mem_toList_iff_getElem?_eq_some]
  constructor
  · intro he
    have hmem : e.1 ∈ ExtTreeMap.ofList l compare := by
      rw [ExtTreeMap.mem_iff_isSome_getElem?, he]
      rfl
    rw [ExtTreeMap.mem_ofList, List.contains_eq_mem, decide_eq_true_iff, List.mem_map] at hmem
    obtain ⟨e', he', hfst⟩ := hmem
    have hget := ExtTreeMap.getElem?_ofList_of_mem (ReflCmp.compare_self : compare e'.1 e'.1 = .eq)
      hdistinct he'
    rw [hfst, he] at hget
    rwa [Prod.ext hfst.symm (Option.some.inj hget)]
  · intro he
    exact ExtTreeMap.getElem?_ofList_of_mem ReflCmp.compare_self hdistinct he

/-- The sum of a weight over the bindings of a map. -/
def total (f : α → β → ℕ) (m : Map α β) : ℕ := (m.toList.map fun e => f e.1 e.2).sum

theorem total_eq_zero_iff (f : α → β → ℕ) (m : Map α β) :
    total f m = 0 ↔ ∀ k v, m[k]? = some v → f k v = 0 := by
  unfold total
  rw [List.sum_eq_zero_iff]
  constructor
  · intro h k v hk
    exact h _ (List.mem_map.mpr ⟨(k, v), ExtTreeMap.mem_toList_iff_getElem?_eq_some.mpr hk, rfl⟩)
  · intro h n hn
    obtain ⟨e, he, rfl⟩ := List.mem_map.mp hn
    exact h e.1 e.2 (ExtTreeMap.mem_toList_iff_getElem?_eq_some.mp he)

/-- Weights that agree on the bindings have one sum. -/
theorem total_congr {f g : α → β → ℕ} {m : Map α β}
    (h : ∀ k v, m[k]? = some v → f k v = g k v) : total f m = total g m := by
  unfold total
  refine congrArg List.sum (List.map_congr_left fun e he => ?_)
  exact h e.1 e.2 (ExtTreeMap.mem_toList_iff_getElem?_eq_some.mp he)

/-- A sum over the keys of a map is one over those of a map with the same keys. -/
theorem sum_keys {γ : Type} (f : α → ℕ) {m : Map α β} {m₁ : Map α γ} (g : γ → β)
    (h : ∀ k : α, m[k]? = (m₁[k]?).map g) : (m.keys.map f).sum = total (fun k _ => f k) m₁ := by
  have hperm : m.keys.Perm m₁.keys := by
    refine (List.perm_ext_iff_of_nodup m.nodup_keys m₁.nodup_keys).mpr fun k => ?_
    rw [ExtTreeMap.mem_keys, ExtTreeMap.mem_keys, ExtTreeMap.mem_iff_isSome_getElem?,
      ExtTreeMap.mem_iff_isSome_getElem?, h k, Option.isSome_map]
  rw [(hperm.map f).sum_eq, ← ExtTreeMap.map_fst_toList_eq_keys, List.map_map]
  rfl

theorem mem_insert_iff {m : Map α β} {k j : α} {v : β} : j ∈ m.insert k v ↔ j = k ∨ j ∈ m := by
  rw [ExtTreeMap.mem_insert, LawfulEqCmp.compare_eq_iff_eq, eq_comm]

omit [LawfulEqOrd α] in
theorem mem_of_getElem?_eq_some {m : Map α β} {k : α} {v : β} (h : m[k]? = some v) : k ∈ m := by
  rw [ExtTreeMap.mem_iff_isSome_getElem?, h]
  rfl

section
variable [DecidableEq α]

theorem getElem?_insert_ite (m : Map α β) (k j : α) (v : β) :
    (m.insert k v)[j]? = if j = k then some v else m[j]? := by
  rw [ExtTreeMap.getElem?_insert]
  by_cases h : j = k
  · rw [if_pos h, if_pos (LawfulEqCmp.compare_eq_iff_eq.mpr h.symm)]
  · rw [if_neg h, if_neg (fun hk => h (LawfulEqCmp.compare_eq_iff_eq.mp hk).symm)]

theorem getElem?_erase_ite (m : Map α β) (k j : α) :
    (m.erase k)[j]? = if j = k then none else m[j]? := by
  rw [ExtTreeMap.getElem?_erase]
  by_cases h : j = k
  · rw [if_pos h, if_pos (LawfulEqCmp.compare_eq_iff_eq.mpr h.symm)]
  · rw [if_neg h, if_neg (fun hk => h (LawfulEqCmp.compare_eq_iff_eq.mp hk).symm)]

theorem insert_insert (m : Map α β) (k : α) (a b : β) :
    (m.insert k a).insert k b = m.insert k b := by
  apply ExtTreeMap.ext_getElem?
  intro j
  rw [getElem?_insert_ite, getElem?_insert_ite, getElem?_insert_ite]
  split_ifs <;> rfl

theorem erase_insert_self (m : Map α β) (k : α) (v : β) : (m.insert k v).erase k = m.erase k := by
  apply ExtTreeMap.ext_getElem?
  intro j
  rw [getElem?_erase_ite, getElem?_insert_ite, getElem?_erase_ite]
  split_ifs <;> rfl

theorem erase_of_getElem?_eq_none (m : Map α β) {k : α} (h : m[k]? = none) : m.erase k = m := by
  apply ExtTreeMap.ext_getElem?
  intro j
  rw [getElem?_erase_ite]
  split_ifs with hj
  · rw [hj, h]
  · rfl

omit [DecidableEq α] in
theorem lt_or_lt_of_ne {a k : α} (h : a ≠ k) : compare a k = .lt ∨ compare k a = .lt := by
  have hswap : compare k a = (compare a k).swap := OrientedCmp.eq_swap
  cases hc : compare a k with
  | lt => exact .inl rfl
  | eq => exact absurd (LawfulEqCmp.compare_eq_iff_eq.mp hc) h
  | gt =>
      rw [hswap, hc]
      exact .inr rfl

omit [DecidableEq α] in
/-- The bindings in key order, cut at a key. -/
theorem toList_split (m : Map α β) (k : α) : m.toList =
    m.toList.filter (fun e => decide (compare e.1 k = .lt)) ++
      ((m[k]?).toList.map (fun v => (k, v)) ++
        m.toList.filter (fun e => decide (compare k e.1 = .lt))) := by
  have hkey : ∀ e ∈ (m[k]?).toList.map (fun v => (k, v)), e.1 = k := by
    intro e he
    obtain ⟨v, -, rfl⟩ := List.mem_map.mp he
    rfl
  have hbelow : ∀ e ∈ m.toList.filter (fun e => decide (compare e.1 k = .lt)),
      compare e.1 k = .lt :=
    fun e he => of_decide_eq_true (List.mem_filter.mp he).2
  have habove : ∀ e ∈ m.toList.filter (fun e => decide (compare k e.1 = .lt)),
      compare k e.1 = .lt :=
    fun e he => of_decide_eq_true (List.mem_filter.mp he).2
  refine eq_of_pairwise_lt (pairwise_toList m) ?_ fun e => ?_
  · rw [List.pairwise_append, List.pairwise_append]
    refine ⟨(pairwise_toList m).filter _, ⟨?_, (pairwise_toList m).filter _, ?_⟩, ?_⟩
    · cases m[k]? <;> simp
    · intro a ha b hb
      rw [hkey a ha]
      exact habove b hb
    · intro a ha b hb
      rcases List.mem_append.mp hb with hb | hb
      · rw [hkey b hb]
        exact hbelow a ha
      · exact TransCmp.lt_trans (hbelow a ha) (habove b hb)
  · rw [List.mem_append, List.mem_append, List.mem_filter, List.mem_filter]
    constructor
    · intro he
      by_cases hk : e.1 = k
      · have hget := ExtTreeMap.mem_toList_iff_getElem?_eq_some.mp he
        refine .inr (.inl (List.mem_map.mpr ⟨e.2, ?_, Prod.ext hk.symm rfl⟩))
        rw [← hk, hget]
        simp
      · rcases lt_or_lt_of_ne hk with hlt | hlt
        · exact .inl ⟨he, decide_eq_true hlt⟩
        · exact .inr (.inr ⟨he, decide_eq_true hlt⟩)
    · rintro (⟨he, -⟩ | he | ⟨he, -⟩)
      · exact he
      · obtain ⟨v, hv, rfl⟩ := List.mem_map.mp he
        exact ExtTreeMap.mem_toList_iff_getElem?_eq_some.mpr (by simpa using hv)
      · exact he

/-- A new binding stands between the smaller and the larger keys. -/
theorem toList_insert_eq (m : Map α β) (k : α) (v : β) : (m.insert k v).toList =
    m.toList.filter (fun e => decide (compare e.1 k = .lt)) ++
      (k, v) :: m.toList.filter (fun e => decide (compare k e.1 = .lt)) := by
  refine eq_of_pairwise_lt (pairwise_toList _) ?_ fun e => ?_
  · rw [List.pairwise_append]
    refine ⟨(pairwise_toList m).filter _, List.pairwise_cons.mpr ⟨?_, (pairwise_toList m).filter _⟩,
      ?_⟩
    · intro e he
      exact of_decide_eq_true (List.mem_filter.mp he).2
    · intro a ha b hb
      have hak : compare a.1 k = .lt := of_decide_eq_true (List.mem_filter.mp ha).2
      rcases List.mem_cons.mp hb with rfl | hb
      · exact hak
      · have hkb : compare k b.1 = .lt := of_decide_eq_true (List.mem_filter.mp hb).2
        exact TransCmp.lt_trans hak hkb
  · rw [ExtTreeMap.mem_toList_iff_getElem?_eq_some, getElem?_insert_ite, List.mem_append,
      List.mem_cons, List.mem_filter, List.mem_filter, ExtTreeMap.mem_toList_iff_getElem?_eq_some,
      decide_eq_true_iff, decide_eq_true_iff]
    split_ifs with hk
    · have hself : compare k k = .eq := ReflCmp.compare_self
      rw [hk, hself]
      simp [Prod.ext_iff, hk, eq_comm]
    · have hne : e ≠ (k, v) := fun he => hk (congrArg Prod.fst he)
      have hlt := lt_or_lt_of_ne hk
      tauto

theorem toList_insert_perm {m : Map α β} {k : α} (h : m[k]? = none) (v : β) :
    (m.insert k v).toList.Perm ((k, v) :: m.toList) := by
  have hk : (k, v) ∉ m.toList := by
    rw [ExtTreeMap.mem_toList_iff_getElem?_eq_some, h]
    simp
  refine (List.perm_ext_iff_of_nodup (nodup_toList _)
    (List.nodup_cons.mpr ⟨hk, nodup_toList m⟩)).mpr ?_
  rintro ⟨j, w⟩
  rw [ExtTreeMap.mem_toList_iff_getElem?_eq_some, getElem?_insert_ite, List.mem_cons,
    ExtTreeMap.mem_toList_iff_getElem?_eq_some, Prod.mk.injEq]
  split_ifs with hj
  · simp [hj, h, eq_comm]
  · simp [hj]

theorem size_insert_of_none {m : Map α β} {k : α} (h : m[k]? = none) (v : β) :
    (m.insert k v).size = m.size + 1 := by
  have hperm := (toList_insert_perm h v).length_eq
  rwa [List.length_cons, ExtTreeMap.length_toList, ExtTreeMap.length_toList] at hperm

theorem total_insert_new (f : α → β → ℕ) {m : Map α β} {k : α} (h : m[k]? = none) (v : β) :
    total f (m.insert k v) = f k v + total f m := by
  unfold total
  rw [((toList_insert_perm h v).map _).sum_eq, List.map_cons, List.sum_cons]

theorem getElem?_erase_self_eq_none (m : Map α β) (k : α) : (m.erase k)[k]? = none := by
  rw [getElem?_erase_ite, if_pos rfl]

theorem insert_erase_of_some {m : Map α β} {k : α} {v : β} (h : m[k]? = some v) :
    (m.erase k).insert k v = m := by
  apply ExtTreeMap.ext_getElem?
  intro j
  rw [getElem?_insert_ite, getElem?_erase_ite]
  split_ifs with hj
  · rw [hj, h]
  · rfl

theorem insert_erase_self (m : Map α β) (k : α) (v : β) :
    (m.erase k).insert k v = m.insert k v := by
  apply ExtTreeMap.ext_getElem?
  intro j
  rw [getElem?_insert_ite, getElem?_insert_ite, getElem?_erase_ite]
  split_ifs <;> rfl

theorem size_erase_of_some {m : Map α β} {k : α} {v : β} (h : m[k]? = some v) :
    (m.erase k).size = m.size - 1 := by
  have hinsert := size_insert_of_none (getElem?_erase_self_eq_none m k) v
  rw [insert_erase_of_some h] at hinsert
  omega

theorem total_erase (f : α → β → ℕ) {m : Map α β} {k : α} {v : β} (h : m[k]? = some v) :
    f k v + total f (m.erase k) = total f m := by
  rw [← total_insert_new f (getElem?_erase_self_eq_none m k), insert_erase_of_some h]

theorem total_insert_of_some (f : α → β → ℕ) {m : Map α β} {k : α} {u : β} (h : m[k]? = some u)
    (v : β) : total f (m.insert k v) + f k u = total f m + f k v := by
  have hinsert := total_insert_new f (getElem?_erase_self_eq_none m k) v
  rw [insert_erase_self] at hinsert
  have herase := total_erase f h
  omega

theorem le_total (f : α → β → ℕ) {m : Map α β} {k : α} {v : β} (h : m[k]? = some v) :
    f k v ≤ total f m := by
  have herase := total_erase f h
  omega

omit [DecidableEq α] in
theorem total_le_of_subset (f : α → β → ℕ) {m m' : Map α β}
    (h : ∀ (k : α) (v : β), m[k]? = some v → m'[k]? = some v) : total f m ≤ total f m' := by
  have hsub : m.toList.Subperm m'.toList := by
    refine List.subperm_of_subset (nodup_toList m) fun e he => ?_
    rw [ExtTreeMap.mem_toList_iff_getElem?_eq_some] at he ⊢
    exact h e.1 e.2 he
  obtain ⟨l, hperm, hsublist⟩ := hsub
  calc total f m = (l.map fun e => f e.1 e.2).sum := (hperm.map _).sum_eq.symm
    _ ≤ total f m' := (hsublist.map _).sum_le_sum fun _ _ => Nat.zero_le _

theorem total_lt_of_subset (f : α → β → ℕ) {m m' : Map α β}
    (h : ∀ (k : α) (v : β), m[k]? = some v → m'[k]? = some v) {k : α} {v : β} (hk : m[k]? = none)
    (hv : m'[k]? = some v) (hpos : 0 < f k v) : total f m < total f m' := by
  have hle : total f (m.insert k v) ≤ total f m' := by
    refine total_le_of_subset f fun j u hj => ?_
    rw [getElem?_insert_ite] at hj
    split_ifs at hj with hjk
    · rw [hjk, hv, hj]
    · exact h j u hj
  rw [total_insert_new f hk] at hle
  omega

end

end TreeMaps

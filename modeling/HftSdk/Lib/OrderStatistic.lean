import Mathlib.Algebra.BigOperators.Group.Finset.Basic
import Mathlib.Algebra.BigOperators.Group.Finset.Piecewise
import Mathlib.Algebra.GroupWithZero.Nat
import Mathlib.Data.List.Sort

/-!
# Order statistics from counts

The `k`-th smallest element of a list, and how it is found from counts alone. The elements are sorted
into ordered classes, and the counts of the classes are added up in order: the class at which the sum
reaches `k` is that of the `k`-th smallest element.
-/

namespace OrderStatistic

variable {α ι : Type*}

/-! ## The `k`-th smallest element -/

section Kth

variable [LinearOrder α]

/-- The `k`-th smallest element, counted from 1. -/
def kth (l : List α) (k : ℕ) : Option α := (l.mergeSort (· ≤ ·))[k - 1]?

variable {l : List α} {k : ℕ}

theorem kth_isSome (hk : 1 ≤ k) (hle : k ≤ l.length) : ∃ a, kth l k = some a := by
  have hlt : k - 1 < (l.mergeSort (· ≤ ·)).length := by
    rw [List.length_mergeSort]
    omega
  exact ⟨_, List.getElem?_eq_getElem hlt⟩

theorem kth_split {a : α} (h : kth l k = some a) :
    ∃ pre post, l.mergeSort (· ≤ ·) = pre ++ a :: post ∧ pre.length = k - 1 ∧
      (∀ b ∈ pre, b ≤ a) ∧ ∀ b ∈ post, a ≤ b := by
  obtain ⟨hlt, rfl⟩ := List.getElem?_eq_some_iff.mp h
  have hsorted := List.pairwise_mergeSort' (· ≤ ·) l
  generalize l.mergeSort (· ≤ ·) = s at hlt hsorted
  have hsplit : s = s.take (k - 1) ++ s[k - 1] :: s.drop (k - 1 + 1) := by
    rw [← List.drop_eq_getElem_cons hlt, List.take_append_drop]
  rw [hsplit, List.pairwise_append, List.pairwise_cons] at hsorted
  obtain ⟨-, ⟨hpost, -⟩, hpre⟩ := hsorted
  refine ⟨_, _, hsplit, ?_, fun b hb => hpre b hb _ List.mem_cons_self, hpost⟩
  rw [List.length_take]
  omega

theorem countP_of_kth (hk : 1 ≤ k) {a : α} (h : kth l k = some a) :
    l.countP (· < a) < k ∧ k ≤ l.countP (· ≤ a) := by
  obtain ⟨pre, post, hsplit, hlen, hpre, hpost⟩ := kth_split h
  have hperm := List.mergeSort_perm l (· ≤ ·)
  rw [← hperm.countP_eq, ← hperm.countP_eq, hsplit, List.countP_append, List.countP_append,
    List.countP_cons, List.countP_cons]
  constructor
  · have hle : pre.countP (· < a) ≤ pre.length := List.countP_le_length
    have hzero : post.countP (· < a) = 0 :=
      List.countP_eq_zero.mpr fun b hb => by simpa using hpost b hb
    rw [hzero, if_neg (by simp)]
    omega
  · have hall : pre.countP (· ≤ a) = pre.length :=
      List.countP_eq_length.mpr fun b hb => by simpa using hpre b hb
    rw [hall, if_pos (by simp)]
    omega

theorem kth_mem {a : α} (h : kth l k = some a) : a ∈ l := by
  obtain ⟨pre, post, hsplit, -⟩ := kth_split h
  have hperm : (l.mergeSort (· ≤ ·)).Perm l := List.mergeSort_perm l _
  rw [← hperm.mem_iff, hsplit]
  exact List.mem_append_right _ List.mem_cons_self

theorem le_countP_iff (hk : 1 ≤ k) {a b : α} (h : kth l k = some a) :
    k ≤ l.countP (· ≤ b) ↔ a ≤ b := by
  obtain ⟨hlt, hle⟩ := countP_of_kth hk h
  constructor
  · intro hcount
    by_contra hba
    have hbelow : l.countP (· ≤ b) ≤ l.countP (· < a) :=
      List.countP_mono_left fun c _ hc => by simpa using lt_of_le_of_lt (by simpa using hc) (not_le.mp hba)
    omega
  · intro hab
    exact hle.trans (List.countP_mono_left fun c _ hc => by simpa using le_trans (by simpa using hc) hab)

theorem kth_mono {k' : ℕ} (hle : k ≤ k') {a a' : α} (h : kth l k = some a)
    (h' : kth l k' = some a') : a ≤ a' := by
  obtain ⟨hlt, rfl⟩ := List.getElem?_eq_some_iff.mp h
  obtain ⟨hlt', rfl⟩ := List.getElem?_eq_some_iff.mp h'
  obtain heq | hne := Nat.eq_or_lt_of_le (Nat.sub_le_sub_right hle 1)
  · simp only [heq, le_refl]
  · exact List.pairwise_iff_getElem.mp (List.pairwise_mergeSort' (· ≤ ·) l) _ _ hlt hlt' hne

theorem kth_map {β : Type*} [LinearOrder β] {f : α → β} (hf : Monotone f) (l : List α) (k : ℕ) :
    kth (l.map f) k = (kth l k).map f := by
  have hsorted : ((l.mergeSort (· ≤ ·)).map f).Pairwise (· ≤ ·) :=
    (List.pairwise_mergeSort' (· ≤ ·) l).map f fun _ _ h => hf h
  have hperm : ((l.map f).mergeSort (· ≤ ·)).Perm ((l.mergeSort (· ≤ ·)).map f) :=
    (List.mergeSort_perm _ _).trans ((List.mergeSort_perm l _).map f).symm
  unfold kth
  rw [hperm.eq_of_pairwise' (List.pairwise_mergeSort' (· ≤ ·) _) hsorted, List.getElem?_map]

end Kth

/-! ## Counts of classes -/

section Counts

variable [DecidableEq ι]

/-- How many elements are in each class. -/
def counts (l : List ι) (i : ι) : ℕ := l.countP (· = i)

theorem counts_concat (l : List ι) (i : ι) :
    counts (l ++ [i]) = Function.update (counts l) i (counts l i + 1) := by
  funext j
  unfold counts
  by_cases h : j = i
  · subst h
    rw [List.countP_append, Function.update_self, List.countP_singleton, if_pos (by simp)]
  · rw [List.countP_append, Function.update_of_ne h, List.countP_singleton,
      if_neg (by simpa using Ne.symm h), Nat.add_zero]

theorem sum_counts (l : List ι) (s : Finset ι) : ∑ i ∈ s, counts l i = l.countP (· ∈ s) := by
  unfold counts
  induction l with
  | nil => exact Finset.sum_const_zero
  | cons a l ih =>
    rw [List.countP_cons, ← ih, Finset.sum_congr rfl fun i _ => List.countP_cons,
      Finset.sum_add_distrib]
    simp only [decide_eq_true_eq, Finset.sum_ite_eq]

theorem sum_counts_univ [Fintype ι] (l : List ι) : ∑ i, counts l i = l.length := by
  rw [sum_counts]
  exact List.countP_eq_length.mpr fun i _ => by simp

end Counts

/-! ## Adding the counts up -/

/-- The first class at which the counts add up to the target, from a sum so far. -/
def firstReaching (c : ι → ℕ) (target : ℕ) : List ι → ℕ → Option ι
  | [], _ => none
  | i :: is, cumulative =>
    let cumulative := cumulative + c i
    if target ≤ cumulative then some i else firstReaching c target is cumulative

theorem firstReaching_split {c : ι → ℕ} {target : ℕ} {pre post : List ι} {i : ι} {cumulative : ℕ}
    (hlt : cumulative + (pre.map c).sum < target)
    (hle : target ≤ cumulative + (pre.map c).sum + c i) :
    firstReaching c target (pre ++ i :: post) cumulative = some i := by
  induction pre generalizing cumulative with
  | nil =>
    exact if_pos hle
  | cons j pre ih =>
    rw [List.map_cons, List.sum_cons] at hlt hle
    rw [List.cons_append, firstReaching, if_neg (by omega)]
    exact ih (by omega) (by omega)

/-- **The `k`-th smallest class is the first at which the counts add up to `k`.** -/
theorem firstReaching_counts [LinearOrder ι] {is : List ι} (hsorted : is.Pairwise (· < ·))
    (hall : ∀ i, i ∈ is) {l : List ι} {k : ℕ} (hk : 1 ≤ k) {i : ι} (h : kth l k = some i) :
    firstReaching (counts l) k is 0 = some i := by
  obtain ⟨pre, post, rfl⟩ := List.append_of_mem (hall i)
  have hnodup : (pre ++ i :: post).Nodup := hsorted.imp ne_of_lt
  rw [List.pairwise_append, List.pairwise_cons] at hsorted
  obtain ⟨-, ⟨hpost, -⟩, hpre⟩ := hsorted
  have hmem (j : ι) : j ∈ pre ↔ j < i := by
    constructor
    · exact fun hj => hpre j hj i List.mem_cons_self
    · intro hj
      obtain hj' | hj' := List.mem_append.mp (hall j)
      · exact hj'
      · obtain rfl | hj' := List.mem_cons.mp hj'
        · exact absurd hj (lt_irrefl _)
        · exact absurd hj (hpost j hj').asymm
  have hsum : (pre.map (counts l)).sum = l.countP (· < i) := by
    rw [← List.sum_toFinset _ (List.nodup_append.mp hnodup).1, sum_counts]
    exact List.countP_congr fun j _ => by simp [hmem]
  have hsplit : l.countP (· ≤ i) = l.countP (· < i) + counts l i := by
    have hupto := sum_counts l (insert i pre.toFinset)
    rw [Finset.sum_insert (by simp [hmem]), sum_counts, Nat.add_comm] at hupto
    have hlt : l.countP (· ∈ pre.toFinset) = l.countP (· < i) :=
      List.countP_congr fun j _ => by simp [hmem]
    rw [← hlt, hupto]
    exact List.countP_congr fun j _ => by simp [hmem, le_iff_eq_or_lt]
  obtain ⟨hlt, hle⟩ := countP_of_kth hk h
  apply firstReaching_split
  · rw [hsum]
    omega
  · rw [hsum]
    omega

end OrderStatistic

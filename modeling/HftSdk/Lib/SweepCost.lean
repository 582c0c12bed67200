import HftSdk.Lib.Sweep
import Mathlib.Algebra.Order.Ring.Int
import Mathlib.Tactic.Ring

/-!
# What a sweep costs

Fills are weighed by a price on the elements (`weighted`). Two demands in sequence come to their sum,
in what they leave (`residue_add`) and in what they cost (`weighted_fills_add`), when using an element
twice is using it for the sum. On a list sorted by price a sweep is the cheapest way to take what it
takes (`weighted_fills_le`): the price at which it ends weighs the elements before it and behind it
against each other.
-/

namespace Sweep

variable {α : Type*} {qty : α → ℤ} {use : α → ℤ → α}

/-- The amounts of the fills, each at the price of its element. -/
def weighted (price : α → ℤ) (fs : List (α × ℤ)) : ℤ := (fs.map fun x => price x.1 * x.2).sum

@[simp] theorem weighted_nil (price : α → ℤ) : weighted price [] = 0 := rfl

@[simp] theorem weighted_cons (price : α → ℤ) (x : α × ℤ) (fs : List (α × ℤ)) :
    weighted price (x :: fs) = price x.1 * x.2 + weighted price fs := by
  simp [weighted]

@[simp] theorem weighted_append (price : α → ℤ) (fs fs' : List (α × ℤ)) :
    weighted price (fs ++ fs') = weighted price fs + weighted price fs' := by
  simp [weighted]

theorem fill_pos {l : List α} (hpos : ∀ a ∈ l, 0 < qty a) {rem : ℤ} {x : α × ℤ}
    (hx : x ∈ fills qty rem l) : 0 < x.2 := by
  induction l generalizing rem with
  | nil => cases hx
  | cons a l ih =>
    rw [List.forall_mem_cons] at hpos
    have ha := hpos.1
    rw [fills] at hx
    split_ifs at hx with hrem
    · rcases List.mem_cons.mp hx with rfl | hx
      · dsimp only
        omega
      · exact ih hpos.2 hx
    · cases hx

theorem weighted_map {β : Type*} (price : β → ℤ) (f : α → β) (fs : List (α × ℤ)) :
    weighted price (fs.map (Prod.map f id)) = weighted (fun a => price (f a)) fs := by
  unfold weighted
  rw [List.map_map]
  rfl

theorem fills_taken_append {l : List α} (hpos : ∀ a ∈ l, 0 < qty a) (rem : ℤ) (tail : List α) :
    fills qty (taken (fills qty rem l)) (l ++ tail) = fills qty rem l := by
  induction l generalizing rem with
  | nil => exact fills_of_nonpos qty le_rfl _
  | cons a l ih =>
    rw [List.forall_mem_cons] at hpos
    have ha := hpos.1
    rw [fills]
    by_cases hrem : 0 < rem
    · have htaken : 0 ≤ taken (fills qty (rem - min rem (qty a)) l) :=
        List.sum_nonneg fun m hm => by
          obtain ⟨x, hx, rfl⟩ := List.mem_map.mp hm
          exact (fill_pos hpos.2 hx).le
      rw [if_pos hrem, taken_cons, List.cons_append, fills, if_pos (by omega)]
      by_cases hfull : qty a ≤ rem
      · have hmin : min (min rem (qty a) + taken (fills qty (rem - min rem (qty a)) l)) (qty a) =
            min rem (qty a) := by omega
        rw [hmin, add_sub_cancel_left, ih hpos.2]
      · -- the demand ends at `a`
        have hnone : fills qty (rem - min rem (qty a)) l = [] := fills_of_nonpos qty (by omega) l
        rw [hnone, taken_nil, Int.add_zero, min_assoc, min_self,
          fills_of_nonpos qty (by omega) (l ++ tail)]
    · rw [if_neg hrem, taken_nil, fills_of_nonpos qty le_rfl]

/-! ## Demands in sequence -/

section Sequence
variable (huse : ∀ a m, qty (use a m) = qty a - m) (hadd : ∀ a m n, use (use a m) n = use a (m + n))

theorem fills_cons_full {rem : ℤ} {a : α} (ha : 0 < qty a) (hrem : qty a ≤ rem) (l : List α) :
    fills qty rem (a :: l) = (a, qty a) :: fills qty (rem - qty a) l := by
  rw [fills, if_pos (by omega), min_eq_right hrem]

theorem fills_cons_part {rem : ℤ} {a : α} (h : 0 < rem) (hrem : rem ≤ qty a) (l : List α) :
    fills qty rem (a :: l) = [(a, rem)] := by
  rw [fills, if_pos h, min_eq_left hrem, Int.sub_self, fills_of_nonpos qty le_rfl]

include huse hadd

theorem residue_add {l : List α} (hpos : ∀ a ∈ l, 0 < qty a) {d e : ℤ} (hd : 0 ≤ d) (he : 0 ≤ e) :
    residue qty use (d + e) l = residue qty use e (residue qty use d l) := by
  induction l generalizing d with
  | nil => rfl
  | cons a l ih =>
    rw [List.forall_mem_cons] at hpos
    have ha := hpos.1
    rcases hd.eq_or_lt with rfl | hd'
    · rw [Int.zero_add, residue_of_nonpos qty use le_rfl]
    by_cases hfull : qty a ≤ d
    · -- the first demand takes all of `a`
      have hrest : 0 ≤ d - qty a := by omega
      rw [residue_cons_full qty use huse ha (by omega), residue_cons_full qty use huse ha hfull,
        ← ih hpos.2 hrest]
      congr 1
      omega
    · have hpart : d < qty a := not_le.mp hfull
      have hleft : qty (use a d) = qty a - d := huse a d
      rw [residue_cons_part qty use huse hd' hpart]
      rcases he.eq_or_lt with rfl | he'
      · rw [Int.add_zero, residue_of_nonpos qty use le_rfl, residue_cons_part qty use huse hd' hpart]
      by_cases hsum : qty a ≤ d + e
      · -- the second one takes the rest of it
        rw [residue_cons_full qty use huse ha hsum,
          residue_cons_full qty use huse (by omega) (by omega), hleft]
        congr 1
        omega
      · rw [residue_cons_part qty use huse (by omega) (by omega),
          residue_cons_part qty use huse he' (by omega), hadd]

omit hadd in
theorem weighted_fills_add {price : α → ℤ} (hprice : ∀ a m, price (use a m) = price a) {l : List α}
    (hpos : ∀ a ∈ l, 0 < qty a) {d e : ℤ} (hd : 0 ≤ d) (he : 0 ≤ e) :
    weighted price (fills qty (d + e) l) =
      weighted price (fills qty d l) + weighted price (fills qty e (residue qty use d l)) := by
  induction l generalizing d with
  | nil => rfl
  | cons a l ih =>
    rw [List.forall_mem_cons] at hpos
    have ha := hpos.1
    rcases hd.eq_or_lt with rfl | hd'
    · rw [Int.zero_add, residue_of_nonpos qty use le_rfl, fills_of_nonpos qty le_rfl, weighted_nil,
        Int.zero_add]
    by_cases hfull : qty a ≤ d
    · have hrest : 0 ≤ d - qty a := by omega
      have hsum : d + e - qty a = d - qty a + e := by omega
      rw [residue_cons_full qty use huse ha hfull, fills_cons_full ha (by omega),
        fills_cons_full ha hfull, weighted_cons, weighted_cons, hsum, ih hpos.2 hrest]
      exact (Int.add_assoc _ _ _).symm
    · have hpart : d < qty a := not_le.mp hfull
      have hleft : qty (use a d) = qty a - d := huse a d
      rw [residue_cons_part qty use huse hd' hpart, fills_cons_part hd' hpart.le]
      rcases he.eq_or_lt with rfl | he'
      · rw [Int.add_zero, fills_cons_part hd' hpart.le, fills_of_nonpos qty le_rfl, weighted_nil,
          Int.add_zero]
      by_cases hsum : qty a ≤ d + e
      · have hrest : e - qty (use a d) = d + e - qty a := by omega
        rw [fills_cons_full ha hsum, fills_cons_full (by omega) (by omega), hrest]
        simp only [weighted_cons, weighted_nil, hprice, hleft]
        ring
      · rw [fills_cons_part (by omega) (by omega), fills_cons_part he' (by omega)]
        simp only [weighted_cons, weighted_nil, hprice]
        ring

end Sequence

/-! ## The cheapest way -/

theorem exists_price_between {price : α → ℤ} {front rest : List α}
    (hsorted : (front ++ rest).Pairwise fun a b => price a ≤ price b) :
    ∃ p, (∀ a ∈ front, price a ≤ p) ∧ ∀ b ∈ rest, p ≤ price b := by
  obtain ⟨-, -, hcross⟩ := List.pairwise_append.mp hsorted
  cases rest with
  | cons b rest =>
    refine ⟨price b, fun a ha => hcross a ha b List.mem_cons_self, ?_⟩
    have hrest := (List.pairwise_append.mp hsorted).2.1
    rw [List.pairwise_cons] at hrest
    rw [List.forall_mem_cons]
    exact ⟨le_rfl, hrest.1⟩
  | nil =>
    -- nothing is behind: any bound will do
    clear hcross hsorted
    induction front with
    | nil => exact ⟨0, by simp⟩
    | cons a front ih =>
      obtain ⟨p, hp, -⟩ := ih
      refine ⟨max (price a) p, ?_, by simp⟩
      rw [List.forall_mem_cons]
      exact ⟨le_max_left _ _, fun b hb => (hp b hb).trans (le_max_right _ _)⟩

theorem sum_price_le {price alloc give : α → ℤ} {p : ℤ} {l : List α}
    (h : ∀ a ∈ l, 0 ≤ (price a - p) * (alloc a - give a)) :
    (l.map fun a => price a * give a).sum - p * (l.map give).sum ≤
      (l.map fun a => price a * alloc a).sum - p * (l.map alloc).sum := by
  induction l with
  | nil => exact le_rfl
  | cons a l ih =>
    rw [List.forall_mem_cons] at h
    have hrest := ih h.2
    have hfirst : price a * give a - p * give a ≤ price a * alloc a - p * alloc a := by
      have := h.1
      linarith
    simp only [List.map_cons, List.sum_cons, Int.mul_add]
    linarith

section Cheapest
variable {price alloc : α → ℤ} {p : ℤ} {l : List α}

theorem sum_price_full_le (hp : ∀ a ∈ l, price a ≤ p) (halloc : ∀ a ∈ l, alloc a ≤ qty a) :
    (l.map fun a => price a * qty a).sum - p * total qty l ≤
      (l.map fun a => price a * alloc a).sum - p * (l.map alloc).sum := by
  apply sum_price_le
  intro a ha
  exact mul_nonneg_of_nonpos_of_nonpos (sub_nonpos.mpr (hp a ha)) (sub_nonpos.mpr (halloc a ha))

theorem sum_price_none_le (hp : ∀ a ∈ l, p ≤ price a) (halloc : ∀ a ∈ l, 0 ≤ alloc a) :
    0 ≤ (l.map fun a => price a * alloc a).sum - p * (l.map alloc).sum := by
  have hnone : ∀ a ∈ l, 0 ≤ (price a - p) * (alloc a - (fun _ => 0) a) := fun a ha =>
    mul_nonneg (sub_nonneg.mpr (hp a ha)) (sub_nonneg.mpr (halloc a ha))
  simpa using sum_price_le hnone

theorem weighted_full (price : α → ℤ) (l : List α) :
    weighted price (l.map fun a => (a, qty a)) = (l.map fun a => price a * qty a).sum := by
  simp [weighted, Function.comp_def]

/-- **A sweep of a sorted list is the cheapest way** to take what it takes, among all ways to take no
more from an element than it has. -/
theorem weighted_fills_le (huse : ∀ a m, qty (use a m) = qty a - m) (hpos : ∀ a ∈ l, 0 < qty a)
    (hsorted : l.Pairwise fun a b => price a ≤ price b) {rem : ℤ} (hrem : 0 ≤ rem)
    (halloc : ∀ a ∈ l, 0 ≤ alloc a ∧ alloc a ≤ qty a)
    (htotal : (l.map alloc).sum = taken (fills qty rem l)) :
    weighted price (fills qty rem l) ≤ (l.map fun a => price a * alloc a).sum := by
  cases sweep huse hpos hrem with
  | clean done hl hfs hle hstop =>
    generalize residue qty use rem l = rest at hl
    rw [hl] at hsorted halloc
    obtain ⟨p, hfront, hbehind⟩ := exists_price_between hsorted
    have hdone := sum_price_full_le hfront fun a ha => (halloc a (List.mem_append_left rest ha)).2
    have hrest := sum_price_none_le hbehind fun a ha => (halloc a (List.mem_append_right done ha)).1
    rw [hfs, taken_full, hl, List.map_append, List.sum_append] at htotal
    rw [hfs, weighted_full, hl, List.map_append, List.sum_append]
    have hp : p * (done.map alloc).sum + p * (rest.map alloc).sum = p * total qty done := by
      rw [← Int.mul_add, htotal]
    linarith
  | part done a tail hl hlo hhi hfs hrs =>
    rw [hl] at hsorted halloc
    obtain ⟨hfront, hbehind, hcross⟩ := List.pairwise_append.mp hsorted
    rw [List.pairwise_cons] at hbehind
    have hdone := sum_price_full_le (fun b hb => hcross b hb a List.mem_cons_self) fun b hb =>
      (halloc b (List.mem_append_left _ hb)).2
    have htail := sum_price_none_le hbehind.1 fun b hb =>
      (halloc b (List.mem_append_right done (List.mem_cons_of_mem a hb))).1
    rw [hfs, taken_append, taken_full, taken_cons, taken_nil, Int.add_zero, hl, List.map_append,
      List.sum_append, List.map_cons, List.sum_cons] at htotal
    rw [hfs, weighted_append, weighted_full, weighted_cons, weighted_nil, Int.add_zero, hl,
      List.map_append, List.sum_append, List.map_cons, List.sum_cons]
    dsimp only at htotal ⊢
    have hp : price a * (done.map alloc).sum + price a * alloc a + price a * (tail.map alloc).sum =
        price a * total qty done + price a * (rem - total qty done) := by
      rw [← Int.mul_add, ← Int.mul_add, ← Int.mul_add, ← htotal, Int.add_assoc]
    linarith

end Cheapest

end Sweep

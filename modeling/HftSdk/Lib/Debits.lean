import HftSdk.Lib.Sweep
import HftSdk.Lib.Run

/-!
# Following a sweep from its fills

Someone who holds a copy of a list, with one element for each key, and hears of every fill its key
and amount only, takes the amount away from the element of that key and drops what has nothing left
(`debit`). After the fills of a sweep the copy is what the sweep has left of the list
(`foldl_debit_fills`). What a sweep leaves depends on the quantities alone (`residue_map`), so that
the copy may show less of an element than the list does. Elements that give nothing may be missing
from it (`fills_filter`, `residue_filter`).
-/

namespace Sweep

variable {α β κ : Type*} [DecidableEq κ] {qty : α → ℤ} {use : α → ℤ → α}

/-- Take an amount away from the element of a key. -/
def debit (qty : α → ℤ) (use : α → ℤ → α) (key : α → κ) (k : κ) (m : ℤ) (l : List α) : List α :=
  l.filterMap fun a =>
    if key a = k then if qty a = m then none else some (use a m) else some a

theorem debit_of_not_mem {key : α → κ} {k : κ} {l : List α} (h : k ∉ l.map key) (m : ℤ) :
    debit qty use key k m l = l := by
  have hkeep : ∀ a ∈ l, (if key a = k then if qty a = m then none else some (use a m) else some a) =
      some a := by
    intro a ha
    apply if_neg
    rintro rfl
    exact h (List.mem_map_of_mem ha)
  rw [debit, List.filterMap_congr hkeep]
  exact List.filterMap_some

theorem debit_cons {key : α → κ} {a : α} {l : List α} (h : key a ∉ l.map key) (m : ℤ) :
    debit qty use key (key a) m (a :: l) = if qty a = m then l else use a m :: l := by
  have hrest : debit qty use key (key a) m l = l := debit_of_not_mem h m
  unfold debit at hrest ⊢
  rw [List.filterMap_cons, hrest, if_pos rfl]
  split_ifs <;> rfl

theorem foldl_debit_fills {key : α → κ} (huse : ∀ a m, qty (use a m) = qty a - m) {l tail : List α}
    (hpos : ∀ a ∈ l, 0 < qty a) (hnodup : ((l ++ tail).map key).Nodup) (rem : ℤ) :
    (fills qty rem l).foldl (fun l x => debit qty use key (key x.1) x.2 l) (l ++ tail) =
      residue qty use rem l ++ tail := by
  induction l generalizing rem with
  | nil => rfl
  | cons a l ih =>
    rw [List.forall_mem_cons] at hpos
    rw [List.cons_append, List.map_cons, List.nodup_cons] at hnodup
    obtain ⟨hnot, hnodup⟩ := hnodup
    rw [fills]
    by_cases hrem : 0 < rem
    · rw [if_pos hrem, List.foldl_cons, List.cons_append, debit_cons hnot]
      by_cases hfull : qty a ≤ rem
      · rw [min_eq_right hfull, if_pos rfl, ih hpos.2 hnodup,
          residue_cons_full qty use huse hpos.1 hfull]
      · -- the demand ends at `a`
        have hpart : rem < qty a := not_le.mp hfull
        rw [min_eq_left hpart.le, if_neg hpart.ne', Int.sub_self, fills_of_nonpos qty le_rfl,
          residue_cons_part qty use huse hrem hpart]
        rfl
    · rw [if_neg hrem, residue_of_nonpos qty use (not_lt.mp hrem)]
      rfl

theorem along_debit_fills {key : α → κ} {l tail : List α} (hpos : ∀ a ∈ l, 0 < qty a)
    (hnodup : ((l ++ tail).map key).Nodup) (rem : ℤ) :
    Run.Along (fun l x => debit qty use key (key x.1) x.2 l)
      (fun l x => l.head? = some x.1 ∧ 0 < x.2 ∧ x.2 ≤ qty x.1) (l ++ tail) (fills qty rem l) := by
  induction l generalizing rem with
  | nil => trivial
  | cons a l ih =>
    rw [List.forall_mem_cons] at hpos
    rw [List.cons_append, List.map_cons, List.nodup_cons] at hnodup
    obtain ⟨hnot, hnodup⟩ := hnodup
    have ha := hpos.1
    rw [fills]
    by_cases hrem : 0 < rem
    · rw [if_pos hrem]
      refine ⟨⟨rfl, by dsimp only; omega, min_le_right _ _⟩, ?_⟩
      dsimp only
      rw [List.cons_append, debit_cons hnot]
      by_cases hfull : qty a ≤ rem
      · rw [min_eq_right hfull, if_pos rfl]
        exact ih hpos.2 hnodup _
      · rw [min_eq_left (by omega), Int.sub_self, fills_of_nonpos qty le_rfl]
        trivial
    · rw [if_neg hrem]
      trivial

theorem residue_map {qtyβ : β → ℤ} {useβ : β → ℤ → β} {f : α → β} (hq : ∀ a, qtyβ (f a) = qty a)
    (hf : ∀ a m, f (use a m) = useβ (f a) m) (rem : ℤ) (l : List α) :
    residue qtyβ useβ rem (l.map f) = (residue qty use rem l).map f := by
  induction l generalizing rem with
  | nil => rfl
  | cons a l ih =>
    rw [List.map_cons, residue, residue, hq, ← hf, hq, ih]
    split_ifs <;> rfl

/-! ## Elements that give nothing -/

theorem residue_of_fills_eq_nil {rem : ℤ} {l : List α} (h : fills qty rem l = []) :
    residue qty use rem l = l := by
  cases l with
  | nil => rfl
  | cons a l =>
    rw [fills] at h
    split_ifs at h with hrem
    exact if_neg hrem

section Filter
variable {p : α → Bool} {rem : ℤ} {l : List α}

theorem fills_filter (hgive : ∀ x ∈ fills qty rem l, p x.1 = true) :
    fills qty rem (l.filter p) = fills qty rem l := by
  induction l generalizing rem with
  | nil => rfl
  | cons a l ih =>
    rw [fills] at hgive
    by_cases hrem : 0 < rem
    · rw [if_pos hrem, List.forall_mem_cons] at hgive
      rw [List.filter_cons_of_pos hgive.1, fills, fills, if_pos hrem, if_pos hrem, ih hgive.2]
    · rw [fills_of_nonpos qty (not_lt.mp hrem), fills_of_nonpos qty (not_lt.mp hrem)]

theorem residue_filter (hp : ∀ a m, p (use a m) = p a)
    (hgive : ∀ x ∈ fills qty rem l, p x.1 = true) :
    residue qty use rem (l.filter p) = (residue qty use rem l).filter p := by
  induction l generalizing rem with
  | nil => rfl
  | cons a l ih =>
    rw [fills] at hgive
    by_cases hrem : 0 < rem
    · rw [if_pos hrem, List.forall_mem_cons] at hgive
      have hused : p (use a (min rem (qty a))) = true := (hp a _).trans hgive.1
      rw [List.filter_cons_of_pos hgive.1, residue, residue, if_pos hrem, if_pos hrem, ih hgive.2]
      split_ifs
      · rfl
      · exact (List.filter_cons_of_pos hused).symm
    · rw [residue_of_nonpos qty use (not_lt.mp hrem), residue_of_nonpos qty use (not_lt.mp hrem)]

theorem le_total_filter (huse : ∀ a m, qty (use a m) = qty a - m) (hpos : ∀ a ∈ l, 0 < qty a)
    (hgive : ∀ x ∈ fills qty rem l, p x.1 = true) (hmet : rem ≤ total qty l) :
    rem ≤ total qty (l.filter p) := by
  have hpos' : ∀ a ∈ l.filter p, 0 < qty a := fun a ha => hpos a (List.mem_of_mem_filter ha)
  rcases le_or_gt rem 0 with hrem | hrem
  · exact hrem.trans (total_nonneg qty hpos')
  · have htaken := taken_fills huse hpos hrem.le
    have htaken' := taken_fills huse hpos' hrem.le
    rw [fills_filter hgive] at htaken'
    omega

theorem total_filter_le (hpos : ∀ a ∈ l, 0 < qty a) : total qty (l.filter p) ≤ total qty l :=
  (List.filter_sublist.map qty).sum_le_sum fun m hm => by
    obtain ⟨a, ha, rfl⟩ := List.mem_map.mp hm
    exact (hpos a ha).le

end Filter

end Sweep

import Mathlib.Algebra.BigOperators.Group.List.Basic
import Mathlib.Algebra.Order.Group.Int
import Mathlib.Algebra.Order.BigOperators.Group.List
import Mathlib.Tactic.SplitIfs
import Mathlib.Tactic.Linarith

/-!
# Greedy consumption of a priority list

A demand `rem` is served from the front of a list: each element gives the smaller of what is still
wanted and what it has (`qty`), until the demand or the list is exhausted. `fills` is who gave how
much, `reached` who gave anything, `residue` what is left of the list: an element that gave `m`
stands there as `use a m`, and one with nothing left is dropped.

When every element has something to give, the list splits (`sweep`): a front part that is used up,
at most one element that gives a part of what it has, and a tail that is not touched.

A loop that fills from the front of a list carries a state along and yields something for each fill
(`IsSweep`). Loops are put together from their turns (`FillByFill.sweep_cons`) and from loops over the
parts of the list (`FillByFill.sweep_append`).
-/

namespace Sweep

variable {α : Type*} (qty : α → ℤ) (use : α → ℤ → α)

/-- Who gives how much. -/
def fills (rem : ℤ) : List α → List (α × ℤ)
  | [] => []
  | a :: l => if 0 < rem then (a, min rem (qty a)) :: fills (rem - min rem (qty a)) l else []

/-- What is left of the list. -/
def residue (rem : ℤ) : List α → List α
  | [] => []
  | a :: l =>
    if 0 < rem then
      if qty (use a (min rem (qty a))) = 0 then residue (rem - min rem (qty a)) l
      else use a (min rem (qty a)) :: residue (rem - min rem (qty a)) l
    else a :: l

/-- The front of the list that a demand reaches: the elements with less than `rem` before them. -/
def reached (rem : ℤ) : List α → List α
  | [] => []
  | a :: l => if 0 < rem then a :: reached (rem - qty a) l else []

/-- The front of the list that a demand covers whole. -/
def covered (rem : ℤ) : List α → List α
  | [] => []
  | a :: l => if qty a ≤ rem then a :: covered (rem - qty a) l else []

/-- The amount a list of fills hands over. -/
def taken (fs : List (α × ℤ)) : ℤ := (fs.map Prod.snd).sum

/-- The amount handed over under one key. -/
def given {κ : Type*} [DecidableEq κ] (key : α → κ) (k : κ) (fs : List (α × ℤ)) : ℤ :=
  taken (fs.filter fun x => key x.1 = k)

/-- The amount a list holds. -/
def total (l : List α) : ℤ := (l.map qty).sum

@[simp] theorem taken_nil : taken ([] : List (α × ℤ)) = 0 := rfl
@[simp] theorem taken_cons (x : α × ℤ) (fs : List (α × ℤ)) : taken (x :: fs) = x.2 + taken fs := by
  simp [taken]
@[simp] theorem taken_append (fs fs' : List (α × ℤ)) : taken (fs ++ fs') = taken fs + taken fs' := by
  simp [taken]

theorem given_append {κ : Type*} [DecidableEq κ] (key : α → κ) (k : κ) (fs fs' : List (α × ℤ)) :
    given key k (fs ++ fs') = given key k fs + given key k fs' := by
  rw [given, List.filter_append, taken_append, given, given]

@[simp] theorem given_nil {κ : Type*} [DecidableEq κ] (key : α → κ) (k : κ) :
    given key k ([] : List (α × ℤ)) = 0 := rfl

theorem given_cons {κ : Type*} [DecidableEq κ] (key : α → κ) (k : κ) (x : α × ℤ)
    (fs : List (α × ℤ)) :
    given key k (x :: fs) = (if key x.1 = k then x.2 else 0) + given key k fs := by
  rw [given, given, List.filter_cons]
  by_cases h : key x.1 = k <;> simp [h]

@[simp] theorem total_nil : total qty [] = 0 := rfl
@[simp] theorem total_cons (a : α) (l : List α) : total qty (a :: l) = qty a + total qty l := by
  simp [total]
@[simp] theorem total_append (l l' : List α) : total qty (l ++ l') = total qty l + total qty l' := by
  simp [total]

@[simp] theorem taken_full (l : List α) : taken (l.map fun a => (a, qty a)) = total qty l := by
  simp [taken, total, Function.comp_def]

theorem total_nonneg {l : List α} (h : ∀ a ∈ l, 0 < qty a) : 0 ≤ total qty l :=
  List.sum_nonneg fun x hx => by
    obtain ⟨a, ha, rfl⟩ := List.mem_map.mp hx
    exact (h a ha).le

theorem total_pos {l : List α} (h : ∀ a ∈ l, 0 < qty a) (hne : l ≠ []) : 0 < total qty l := by
  obtain ⟨a, l, rfl⟩ := List.exists_cons_of_ne_nil hne
  rw [total_cons]
  have h₁ := h a (by simp)
  have h₂ := total_nonneg qty fun b hb => h b (List.mem_cons_of_mem a hb)
  omega

/-! ## No demand, and lists in sequence -/

theorem fills_of_nonpos {rem : ℤ} (h : rem ≤ 0) (l : List α) : fills qty rem l = [] := by
  cases l with
  | nil => rfl
  | cons a l => exact if_neg (by omega)

theorem residue_of_nonpos {rem : ℤ} (h : rem ≤ 0) (l : List α) : residue qty use rem l = l := by
  cases l with
  | nil => rfl
  | cons a l => exact if_neg (by omega)

theorem fills_append (rem : ℤ) (l l' : List α) :
    fills qty rem (l ++ l') =
      fills qty rem l ++ fills qty (rem - taken (fills qty rem l)) l' := by
  induction l generalizing rem with
  | nil => simp [fills]
  | cons a l ih =>
    rw [List.cons_append, fills, fills]
    split_ifs with h
    · rw [ih, List.cons_append, taken_cons]
      congr 3
      omega
    · rw [List.nil_append, taken_nil, fills_of_nonpos qty (by omega)]

theorem residue_append (rem : ℤ) (l l' : List α) :
    residue qty use rem (l ++ l') =
      residue qty use rem l ++ residue qty use (rem - taken (fills qty rem l)) l' := by
  induction l generalizing rem with
  | nil => simp [fills, residue]
  | cons a l ih =>
    rw [List.cons_append, residue, residue, fills]
    split_ifs with h h'
    · rw [ih, taken_cons, Int.sub_sub]
    · rw [ih, taken_cons, Int.sub_sub, List.cons_append]
    · rw [taken_nil, Int.sub_zero, residue_of_nonpos qty use (by omega) l', List.cons_append]

/-! ## Loops -/

section Loops
variable {σ τ : Type*} {settle : σ → List (α × ℤ) → σ} {emit : σ → List (α × ℤ) → List τ}

variable (settle emit) in
/-- The state after a list of fills, and what they yield, come about fill by fill. -/
structure FillByFill : Prop where
  settle_nil : ∀ s, settle s [] = s
  settle_append : ∀ s fs fs', settle s (fs ++ fs') = settle (settle s fs) fs'
  emit_nil : ∀ s, emit s [] = []
  emit_append : ∀ s fs fs', emit s (fs ++ fs') = emit s fs ++ emit (settle s fs) fs'

variable (settle emit) in
/-- What a loop over `l` comes to, with `rest` behind it: from the state `s` and a demand it leads to
`s'` and what remains of the demand, yields `out`, and leaves the list `left`. -/
structure IsSweep (l rest : List α) (s : σ) (demand : ℤ) (left : List α) (s' : σ) (rem : ℤ)
    (out : List τ) : Prop where
  state : s' = settle s (fills qty demand l)
  remaining : rem = demand - taken (fills qty demand l)
  output : out = emit s (fills qty demand l)
  left : left = residue qty use demand l ++ rest

namespace FillByFill
variable (h : FillByFill settle emit)
include h

theorem sweep_nil (rest : List α) (s : σ) (demand : ℤ) :
    IsSweep qty use settle emit [] rest s demand rest s demand [] :=
  ⟨(h.settle_nil s).symm, (Int.sub_zero _).symm, (h.emit_nil s).symm, rfl⟩

/-- A loop without a demand does nothing. -/
theorem sweep_of_nonpos (l rest : List α) (s : σ) {demand : ℤ} (hd : demand ≤ 0) :
    IsSweep qty use settle emit l rest s demand (l ++ rest) s demand [] := by
  have hfills := fills_of_nonpos qty hd l
  constructor
  · rw [hfills, h.settle_nil]
  · rw [hfills, taken_nil, Int.sub_zero]
  · rw [hfills, h.emit_nil]
  · rw [residue_of_nonpos qty use hd]

/-- One turn of a loop, and the turns after it. -/
theorem sweep_cons {a : α} {l rest left : List α} {s s' : σ} {demand rem : ℤ} {out : List τ}
    (hd : 0 < demand)
    (htail : IsSweep qty use settle emit l rest (settle s [(a, min demand (qty a))])
      (demand - min demand (qty a)) left s' rem out) :
    IsSweep qty use settle emit (a :: l) rest s demand
      (if qty (use a (min demand (qty a))) = 0 then left else use a (min demand (qty a)) :: left) s'
      rem (emit s [(a, min demand (qty a))] ++ out) := by
  have hfills : fills qty demand (a :: l) = [(a, min demand (qty a))] ++
      fills qty (demand - min demand (qty a)) l := if_pos hd
  constructor
  · rw [hfills, h.settle_append]
    exact htail.state
  · rw [hfills, List.singleton_append, taken_cons, htail.remaining, Int.sub_sub]
  · rw [hfills, h.emit_append, htail.output]
  · rw [residue, if_pos hd, htail.left]
    split_ifs <;> rfl

/-- A loop over one list, and then over another. -/
theorem sweep_append {l l' rest left left' : List α} {s s' s'' : σ} {demand rem rem' : ℤ}
    {out out' : List τ} (hl : IsSweep qty use settle emit l [] s demand left s' rem out)
    (hl' : IsSweep qty use settle emit l' rest s' rem left' s'' rem' out') :
    IsSweep qty use settle emit (l ++ l') rest s demand (left ++ left') s'' rem' (out ++ out') := by
  obtain ⟨rfl, rfl, rfl, rfl⟩ := hl
  constructor
  · rw [fills_append, h.settle_append]
    exact hl'.state
  · rw [fills_append, taken_append, hl'.remaining, Int.sub_sub]
  · rw [fills_append, h.emit_append, hl'.output]
  · rw [residue_append, hl'.left, List.append_nil, List.append_assoc]

end FillByFill

end Loops

theorem reached_of_nonpos {rem : ℤ} (h : rem ≤ 0) (l : List α) : reached qty rem l = [] := by
  cases l with
  | nil => rfl
  | cons a l => exact if_neg (by omega)

theorem map_fst_fills (rem : ℤ) (l : List α) : (fills qty rem l).map Prod.fst = reached qty rem l := by
  induction l generalizing rem with
  | nil => rfl
  | cons a l ih =>
    rw [fills, reached]
    split_ifs with h
    · rw [List.map_cons, ih]
      by_cases ha : qty a ≤ rem
      · rw [min_eq_right ha]
      · rw [reached_of_nonpos qty (by omega), reached_of_nonpos qty (by omega)]
    · rfl

theorem map_fst_full_fills {l : List α} (hpos : ∀ a ∈ l, 0 < qty a) (rem : ℤ) :
    ((fills qty rem l).filter fun x => x.2 = qty x.1).map Prod.fst = covered qty rem l := by
  induction l generalizing rem with
  | nil => rfl
  | cons a l ih =>
    rw [List.forall_mem_cons] at hpos
    have ha := hpos.1
    rw [fills, covered]
    by_cases hcovers : qty a ≤ rem
    · rw [if_pos (by omega), if_pos hcovers, min_eq_right hcovers,
        List.filter_cons_of_pos (by simp), List.map_cons, ih hpos.2]
    · rw [if_neg hcovers]
      split_ifs with hrem
      · have hnone : fills qty (rem - min rem (qty a)) l = [] := fills_of_nonpos qty (by omega) l
        rw [List.filter_cons_of_neg (by simp only [decide_eq_true_eq]; omega), hnone]
        rfl
      · rfl

section Map
variable {β : Type*} {qtyβ : β → ℤ} {f : α → β}

theorem reached_map (hq : ∀ a, qtyβ (f a) = qty a) (rem : ℤ) (l : List α) :
    reached qtyβ rem (l.map f) = (reached qty rem l).map f := by
  induction l generalizing rem with
  | nil => rfl
  | cons a l ih =>
    rw [List.map_cons, reached, reached, hq]
    split_ifs
    · rw [ih, List.map_cons]
    · rfl

theorem fills_map (hq : ∀ a, qtyβ (f a) = qty a) (rem : ℤ) (l : List α) :
    fills qtyβ rem (l.map f) = (fills qty rem l).map (Prod.map f id) := by
  induction l generalizing rem with
  | nil => rfl
  | cons a l ih =>
    rw [List.map_cons, fills, fills, hq]
    split_ifs
    · rw [ih, List.map_cons]
      rfl
    · rfl

theorem taken_map (fs : List (α × ℤ)) : taken (fs.map (Prod.map f id)) = taken fs := by
  unfold taken
  rw [List.map_map]
  rfl

theorem residue_map_sublist (hf : ∀ a m, f (use a m) = f a) (rem : ℤ) (l : List α) :
    ((residue qty use rem l).map f).Sublist (l.map f) := by
  induction l generalizing rem with
  | nil => exact List.Sublist.refl _
  | cons a l ih =>
    rw [residue]
    split_ifs
    · exact (ih _).cons _
    · rw [List.map_cons, List.map_cons, hf]
      exact (ih _).cons_cons _
    · exact List.Sublist.refl _

end Map

section Cons
variable (huse : ∀ a m, qty (use a m) = qty a - m)
include huse

theorem residue_cons_full {rem : ℤ} {a : α} (ha : 0 < qty a) (hrem : qty a ≤ rem) (l : List α) :
    residue qty use rem (a :: l) = residue qty use (rem - qty a) l := by
  rw [residue, if_pos (by omega), min_eq_right hrem, if_pos (by rw [huse]; omega)]

theorem residue_cons_part {rem : ℤ} {a : α} (h : 0 < rem) (hrem : rem < qty a) (l : List α) :
    residue qty use rem (a :: l) = use a rem :: l := by
  rw [residue, if_pos h, min_eq_left hrem.le, if_neg (by rw [huse]; omega), Int.sub_self,
    residue_of_nonpos qty use le_rfl]

end Cons

/-! ## The split -/

/-- How a sweep of `l` for `rem` ends: `clean` at an element boundary, with the demand met or the
list used up, or `part`-way through an element. -/
inductive Outcome (rem : ℤ) (l : List α) (fs : List (α × ℤ)) (rs : List α) : Prop
  | clean (done : List α) (hl : l = done ++ rs) (hfs : fs = done.map fun a => (a, qty a))
      (hle : total qty done ≤ rem) (hstop : rs = [] ∨ total qty done = rem)
  | part (done : List α) (a : α) (tail : List α) (hl : l = done ++ a :: tail)
      (hlo : total qty done < rem) (hhi : rem < total qty done + qty a)
      (hfs : fs = (done.map fun a => (a, qty a)) ++ [(a, rem - total qty done)])
      (hrs : rs = use a (rem - total qty done) :: tail)

variable {qty use}

/-- **Every sweep splits the list.** -/
theorem sweep (huse : ∀ a m, qty (use a m) = qty a - m) {l : List α} (hpos : ∀ a ∈ l, 0 < qty a)
    {rem : ℤ} (hrem : 0 ≤ rem) :
    Outcome qty use rem l (fills qty rem l) (residue qty use rem l) := by
  induction l generalizing rem with
  | nil => exact .clean [] rfl rfl hrem (Or.inl rfl)
  | cons a l ih =>
    have ha := hpos a (by simp)
    have hl := fun b hb => hpos b (List.mem_cons_of_mem a hb)
    rw [fills, residue]
    split_ifs with h h'
    · -- `a` is used up
      have hm : min rem (qty a) = qty a := by rw [huse] at h'; omega
      rw [hm]
      cases ih hl (show 0 ≤ rem - qty a by omega) with
      | clean done hl hfs hle hstop =>
        refine .clean (a :: done) (by rw [List.cons_append, ← hl]) (by rw [hfs]; rfl) ?_ ?_
        · rw [total_cons]
          omega
        · exact hstop.imp_right fun h => by rw [total_cons]; omega
      | part done b tail hl hlo hhi hfs hrs =>
        refine .part (a :: done) b tail (by rw [List.cons_append, ← hl]) ?_ ?_ ?_ ?_
        · rw [total_cons]
          omega
        · rw [total_cons]
          omega
        · rw [hfs, total_cons, Int.sub_sub]
          rfl
        · rw [hrs, total_cons, Int.sub_sub]
    · -- `a` meets what is left of the demand and keeps something
      have hm : min rem (qty a) = rem := by rw [huse] at h'; omega
      rw [hm, Int.sub_self, fills_of_nonpos qty le_rfl, residue_of_nonpos qty use le_rfl]
      rw [huse, hm] at h'
      exact .part [] a l rfl h (by rw [total_nil]; omega) (by simp) (by simp)
    · exact .clean [] rfl rfl hrem (Or.inr (by rw [total_nil]; omega))

section Corollaries
variable (huse : ∀ a m, qty (use a m) = qty a - m) {l : List α} (hpos : ∀ a ∈ l, 0 < qty a)
  {rem : ℤ}
include huse hpos

theorem taken_fills (hrem : 0 ≤ rem) : taken (fills qty rem l) = min rem (total qty l) := by
  cases sweep huse hpos hrem with
  | clean done hl hfs hle hstop =>
    rw [hfs, taken_full]
    rcases hstop with h | h
    · rw [h, List.append_nil] at hl
      rw [hl]
      omega
    · have := total_nonneg qty fun a ha => hpos a (hl ▸ List.mem_append_right done ha)
      rw [hl, total_append]
      omega
  | part done a tail hl hlo hhi hfs hrs =>
    rw [hfs, taken_append, taken_full, taken_cons, taken_nil, hl, total_append, total_cons]
    have htail : 0 ≤ total qty tail := total_nonneg qty fun b hb => hpos b (by rw [hl]; simp [hb])
    simp only
    omega

theorem fill_bounds {x : α × ℤ} (hx : x ∈ fills qty rem l) : x.1 ∈ l ∧ 0 < x.2 ∧ x.2 ≤ qty x.1 := by
  by_cases hrem : 0 ≤ rem
  · cases sweep huse hpos hrem with
    | clean done hl hfs hle hstop =>
      rw [hfs] at hx
      obtain ⟨a, ha, rfl⟩ := List.mem_map.mp hx
      have hal : a ∈ l := hl ▸ List.mem_append_left _ ha
      exact ⟨hal, hpos a hal, le_rfl⟩
    | part done a tail hl hlo hhi hfs hrs =>
      rw [hfs, List.mem_append, List.mem_singleton] at hx
      rcases hx with hx | rfl
      · obtain ⟨b, hb, rfl⟩ := List.mem_map.mp hx
        have hbl : b ∈ l := hl ▸ List.mem_append_left _ hb
        exact ⟨hbl, hpos b hbl, le_rfl⟩
      · exact ⟨hl ▸ by simp, by simp only; omega, by simp only; omega⟩
  · rw [fills_of_nonpos qty (by omega)] at hx
    exact absurd hx List.not_mem_nil

theorem mem_residue {x : α} (hx : x ∈ residue qty use rem l) :
    x ∈ l ∨ ∃ a ∈ l, ∃ m, 0 < m ∧ m < qty a ∧ x = use a m := by
  by_cases hrem : 0 ≤ rem
  · cases sweep huse hpos hrem with
    | clean done hl hfs hle hstop => exact Or.inl (hl ▸ List.mem_append_right _ hx)
    | part done a tail hl hlo hhi hfs hrs =>
      rw [hrs] at hx
      have hal : a ∈ l := hl ▸ by simp
      rcases List.mem_cons.mp hx with rfl | hx
      · exact Or.inr ⟨a, hal, _, by omega, by omega, rfl⟩
      · exact Or.inl (hl ▸ by simp [hx])
  · rw [residue_of_nonpos qty use (by omega)] at hx
    exact Or.inl hx

omit huse hpos in
theorem given_of_not_mem {κ : Type*} [DecidableEq κ] {key : α → κ} {k : κ} {fs : List (α × ℤ)}
    (hk : ∀ x ∈ fs, key x.1 ≠ k) : given key k fs = 0 := by
  rw [given, List.filter_eq_nil_iff.mpr fun x hx => by simp [hk x hx], taken_nil]

omit huse hpos in
theorem given_eq_zero {κ : Type*} [DecidableEq κ] {key : α → κ} {k : κ} {fs : List (α × ℤ)}
    (hfs : ∀ x ∈ fs, 0 < x.2) : given key k fs = 0 ↔ ∀ x ∈ fs, key x.1 ≠ k := by
  refine ⟨fun h x hx hk => ?_, given_of_not_mem⟩
  have hmem : x ∈ fs.filter fun x => key x.1 = k := List.mem_filter.mpr ⟨hx, decide_eq_true hk⟩
  have hpos := total_pos Prod.snd (fun y hy => hfs y (List.mem_of_mem_filter hy))
    (List.ne_nil_of_mem hmem)
  exact absurd h hpos.ne'

omit huse hpos in
theorem given_eq_taken {κ : Type*} [DecidableEq κ] {key : α → κ} {k : κ} {fs : List (α × ℤ)}
    (hfs : ∀ x ∈ fs, 0 < x.2) :
    (∀ k', given key k' fs = if k' = k then taken fs else 0) ↔ ∀ x ∈ fs, key x.1 = k := by
  constructor
  · intro h x hx
    by_contra hne
    exact (given_eq_zero hfs).mp ((h (key x.1)).trans (if_neg hne)) x hx rfl
  · intro h k'
    split_ifs with hk
    · rw [given, List.filter_eq_self.mpr fun x hx => decide_eq_true (hk ▸ h x hx)]
    · exact given_of_not_mem fun x hx hx' => hk (hx'.symm.trans (h x hx))

theorem mem_residue_given {κ : Type*} [DecidableEq κ] {key : α → κ}
    (hnodup : (l.map key).Nodup) {x : α} (hx : x ∈ residue qty use rem l) :
    ∃ a ∈ l, (x = a ∧ given key (key a) (fills qty rem l) = 0) ∨
      x = use a (given key (key a) (fills qty rem l)) := by
  by_cases hrem : 0 ≤ rem
  · -- an element behind the used-up ones shares no key with them
    have hother : ∀ {done tail : List α}, l = done ++ tail → ∀ a ∈ tail,
        given key (key a) (done.map fun a => (a, qty a)) = 0 := fun hl a ha => by
      apply given_of_not_mem
      intro y hy hk
      obtain ⟨b, hb, rfl⟩ := List.mem_map.mp hy
      rw [hl, List.map_append, List.nodup_append] at hnodup
      exact hnodup.2.2 _ (List.mem_map_of_mem hb) _ (List.mem_map_of_mem ha) hk
    cases sweep huse hpos hrem with
    | clean done hl hfs hle hstop =>
      exact ⟨x, hl ▸ List.mem_append_right _ hx, Or.inl ⟨rfl, by rw [hfs, hother hl x hx]⟩⟩
    | part done a tail hl hlo hhi hfs hrs =>
      rw [hrs] at hx
      rcases List.mem_cons.mp hx with rfl | hx
      · refine ⟨a, hl ▸ by simp, Or.inr ?_⟩
        rw [hfs, given_append, hother hl a List.mem_cons_self]
        simp [given]
      · refine ⟨x, hl ▸ by simp [hx], Or.inl ⟨rfl, ?_⟩⟩
        rw [hfs, given_append, hother hl x (List.mem_cons_of_mem a hx)]
        have hne : key a ≠ key x := by
          intro hk
          rw [hl, List.map_append, List.map_cons, List.nodup_append, List.nodup_cons] at hnodup
          exact hnodup.2.1.1 (hk ▸ List.mem_map_of_mem hx)
        simp [given, hne]
  · rw [residue_of_nonpos qty use (by omega)] at hx
    exact ⟨x, hx, Or.inl ⟨rfl, by rw [fills_of_nonpos qty (by omega)]; rfl⟩⟩

omit huse hpos in
theorem filter_residue {p : α → Bool} (hp : ∀ a m, p (use a m) = p a)
    (hfills : ∀ x ∈ fills qty rem l, p x.1 = false) :
    (residue qty use rem l).filter p = l.filter p := by
  induction l generalizing rem with
  | nil => rfl
  | cons a l ih =>
    rw [fills] at hfills
    rw [residue]
    by_cases hrem : 0 < rem
    · rw [if_pos hrem] at hfills ⊢
      rw [List.forall_mem_cons] at hfills
      have hused : p (use a (min rem (qty a))) = false := (hp a _).trans hfills.1
      rw [List.filter_cons_of_neg (by simp [hfills.1])]
      split_ifs
      · exact ih hfills.2
      · rw [List.filter_cons_of_neg (by simp [hused])]
        exact ih hfills.2
    · rw [if_neg hrem]

omit hpos in
theorem length_residue (rem : ℤ) : (residue qty use rem l).length +
    ((fills qty rem l).filter fun x => x.2 = qty x.1).length = l.length := by
  induction l generalizing rem with
  | nil => rfl
  | cons a l ih =>
    have hfull : qty (use a (min rem (qty a))) = 0 ↔ min rem (qty a) = qty a := by
      rw [huse]
      omega
    have hrest := ih (rem - min rem (qty a))
    rw [residue, fills]
    by_cases hrem : 0 < rem
    · simp only [if_pos hrem, hfull, List.filter_cons, decide_eq_true_eq]
      split_ifs <;> simp only [List.length_cons] <;> omega
    · rw [if_neg hrem, if_neg hrem]
      rfl

omit hpos in
theorem map_residue {β : Type*} {f : α → β} (hf : ∀ a m, f (use a m) = f a) (rem : ℤ) :
    l.map f = (((fills qty rem l).filter fun x => x.2 = qty x.1).map fun x => f x.1) ++
      (residue qty use rem l).map f := by
  induction l generalizing rem with
  | nil => rfl
  | cons a l ih =>
    rw [fills, residue]
    by_cases hrem : 0 < rem
    · rw [if_pos hrem, if_pos hrem, huse]
      by_cases hfull : qty a - min rem (qty a) = 0
      · rw [if_pos hfull, List.filter_cons_of_pos (by simp only [decide_eq_true_eq]; omega),
          List.map_cons, List.map_cons, List.cons_append, ← ih]
      · -- the demand ends here
        have hmet : rem - min rem (qty a) ≤ 0 := by omega
        rw [if_neg hfull, List.filter_cons_of_neg (by simp only [decide_eq_true_eq]; omega),
          fills_of_nonpos qty hmet, residue_of_nonpos qty use hmet, List.map_cons, List.map_cons, hf]
        rfl
    · rw [if_neg hrem, if_neg hrem]
      rfl

theorem given_of_mem {κ : Type*} [DecidableEq κ] {key : α → κ} (hnodup : (l.map key).Nodup)
    {x : α × ℤ} (hx : x ∈ fills qty rem l) : given key (key x.1) (fills qty rem l) = x.2 := by
  induction l generalizing rem with
  | nil => cases hx
  | cons a l ih =>
    rw [List.map_cons, List.nodup_cons] at hnodup
    rw [List.forall_mem_cons] at hpos
    have hne : ∀ y ∈ fills qty (rem - min rem (qty a)) l, key a ≠ key y.1 := fun y hy h =>
      hnodup.1 (h ▸ List.mem_map_of_mem (fill_bounds huse hpos.2 hy).1)
    rw [fills] at hx ⊢
    by_cases hrem : 0 < rem
    · rw [if_pos hrem] at hx ⊢
      rw [given_cons]
      rcases List.mem_cons.mp hx with rfl | hx
      · rw [if_pos rfl, given_of_not_mem fun y hy => (hne y hy).symm, Int.add_zero]
      · rw [if_neg (hne x hx), Int.zero_add, ih hpos.2 hnodup.2 hx]
    · rw [if_neg hrem] at hx
      cases hx

/-- **What is left, element by element**: an element that gave nothing stays as it is, one that gave
all it had is dropped, and one that gave a part has it taken away. -/
theorem residue_eq_filterMap {κ : Type*} [DecidableEq κ] {key : α → κ}
    (hnodup : (l.map key).Nodup) : residue qty use rem l = l.filterMap fun a =>
      if given key (key a) (fills qty rem l) = 0 then some a
      else if given key (key a) (fills qty rem l) = qty a then none
      else some (use a (given key (key a) (fills qty rem l))) := by
  induction l generalizing rem with
  | nil => rfl
  | cons a l ih =>
    rw [List.map_cons, List.nodup_cons] at hnodup
    rw [List.forall_mem_cons] at hpos
    have hne : ∀ b ∈ l, key a ≠ key b := fun b hb h => hnodup.1 (h ▸ List.mem_map_of_mem hb)
    rw [residue, fills]
    by_cases hrem : 0 < rem
    · -- the first element, and what the others give besides it
      have hfirst : given key (key a) ((a, min rem (qty a)) :: fills qty (rem - min rem (qty a)) l) =
          min rem (qty a) := by
        rw [given_cons, if_pos rfl, given_of_not_mem, Int.add_zero]
        intro x hx hk
        exact hne x.1 (fill_bounds huse hpos.2 hx).1 hk.symm
      have hothers : ∀ b ∈ l,
          given key (key b) ((a, min rem (qty a)) :: fills qty (rem - min rem (qty a)) l) =
            given key (key b) (fills qty (rem - min rem (qty a)) l) := by
        intro b hb
        rw [given_cons, if_neg (hne b hb), Int.zero_add]
      have hposmin : min rem (qty a) ≠ 0 := by
        have := hpos.1
        omega
      have hfull : qty (use a (min rem (qty a))) = 0 ↔ min rem (qty a) = qty a := by
        rw [huse]
        omega
      rw [if_pos hrem, if_pos hrem, List.filterMap_cons, hfirst, if_neg hposmin,
        List.filterMap_congr fun b hb => by rw [hothers b hb], ← ih hpos.2 hnodup.2]
      simp only [hfull]
      split_ifs <;> rfl
    · rw [if_neg hrem, if_neg hrem]
      simp only [given_nil, if_true]
      exact (List.filterMap_some).symm

theorem residue_eq_nil_iff (hrem : 0 ≤ rem) :
    residue qty use rem l = [] ↔ total qty l ≤ rem := by
  cases sweep huse hpos hrem with
  | clean done hl hfs hle hstop =>
    constructor
    · intro h
      rwa [hl, h, List.append_nil]
    · intro h
      by_contra hne
      have hrest := total_pos qty (fun a ha => hpos a (hl ▸ List.mem_append_right done ha)) hne
      rw [hl, total_append] at h
      have := hstop.resolve_left hne
      omega
  | part done a tail hl hlo hhi hfs hrs =>
    refine iff_of_false (by rw [hrs]; exact List.cons_ne_nil _ _) ?_
    have htail : 0 ≤ total qty tail := total_nonneg qty fun b hb => hpos b (by rw [hl]; simp [hb])
    rw [hl, total_append, total_cons]
    omega

theorem residue_eq_nil (h : taken (fills qty rem l) < rem) : residue qty use rem l = [] := by
  by_cases hrem : 0 ≤ rem
  · cases sweep huse hpos hrem with
    | clean done hl hfs hle hstop =>
      rw [hfs, taken_full] at h
      exact hstop.resolve_right (by omega)
    | part done a tail hl hlo hhi hfs hrs =>
      rw [hfs, taken_append, taken_full, taken_cons, taken_nil] at h
      simp only at h
      omega
  · rw [fills_of_nonpos qty (by omega), taken_nil] at h
    omega

end Corollaries

end Sweep

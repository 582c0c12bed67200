import Mathlib.Data.List.Perm.Basic
import Mathlib.Data.List.Pairwise
import Mathlib.Order.Defs.Unbundled

/-!
# Priority lists

A list kept in priority order takes a new element behind everything that is at least as good
(`place`), and a test that holds of everything better than an element it holds of cuts the list in
two (`filter_append_filter_not`).
-/

namespace PriorityList

variable {α β : Type*} {R : α → α → Prop}

/-- Put `a` behind the elements that are not worse than it and before those that are. -/
def place (worse : α → Bool) (a : α) (l : List α) : List α :=
  l.filter (fun x => !worse x) ++ a :: l.filter worse

theorem place_perm (worse : α → Bool) (a : α) (l : List α) : (place worse a l).Perm (a :: l) := by
  refine List.perm_middle.trans (List.Perm.cons a ?_)
  apply List.perm_append_comm.trans
  exact List.filter_append_perm worse l

theorem mem_place {worse : α → Bool} {a x : α} {l : List α} :
    x ∈ place worse a l ↔ x = a ∨ x ∈ l := by
  rw [(place_perm worse a l).mem_iff, List.mem_cons]

theorem place_pairwise [IsTrans α R] {worse : α → Bool} {a : α} {l : List α} (hl : l.Pairwise R)
    (hbefore : ∀ x ∈ l, ¬ worse x → R x a) (hafter : ∀ x ∈ l, worse x → R a x) :
    (place worse a l).Pairwise R := by
  have hb : ∀ x ∈ l.filter (fun x => !worse x), R x a := by
    intro x hx
    rw [List.mem_filter] at hx
    exact hbefore x hx.1 (by simpa using hx.2)
  have ha : ∀ x ∈ l.filter worse, R a x := by
    intro x hx
    rw [List.mem_filter] at hx
    exact hafter x hx.1 hx.2
  rw [place, List.pairwise_append, List.pairwise_cons]
  refine ⟨hl.filter _, ⟨ha, hl.filter _⟩, ?_⟩
  rintro x hx y (_ | ⟨_, hy⟩)
  · exact hb x hx
  · exact IsTrans.trans _ _ _ (hb x hx) (ha y hy)

theorem filter_append_filter_not {p : α → Bool} {l : List α}
    (h : l.Pairwise fun x y => p y → p x) : l.filter p ++ l.filter (fun x => !p x) = l := by
  induction l with
  | nil => rfl
  | cons a l ih =>
    rw [List.pairwise_cons] at h
    by_cases ha : p a
    · simp [ha, ih h.2]
    · have hnone : ∀ x ∈ l, p x = false := by
        intro x hx
        by_contra hc
        exact ha (h.1 x hx (by simpa using hc))
      have hnil : l.filter p = [] := List.filter_eq_nil_iff.mpr fun x hx => by simp [hnone x hx]
      have hall : l.filter (fun x => !p x) = l :=
        List.filter_eq_self.mpr fun x hx => by simp [hnone x hx]
      simp [ha, hnil, hall]

theorem map_place {f : α → β} {worse : α → Bool} {v : β → Bool}
    (hworse : ∀ x, v (f x) = worse x) (a : α) (l : List α) :
    (place worse a l).map f = place v (f a) (l.map f) := by
  have hsame : v ∘ f = worse := funext hworse
  have hnot : (fun y => !v y) ∘ f = fun x => !worse x := funext fun x => by simp [hworse]
  rw [place, place, List.map_append, List.map_cons, List.filter_map, List.filter_map, hsame, hnot]

theorem filter_place_of_pos {worse p : α → Bool} {a : α} (ha : p a = true) (l : List α) :
    (place worse a l).filter p = place worse a (l.filter p) := by
  rw [place, place, List.filter_append, List.filter_cons_of_pos ha, List.filter_comm,
    List.filter_comm _ worse]

theorem filter_place {worse p : α → Bool} {a : α} {l : List α} (ha : p a = false)
    (h : l.Pairwise fun x y => !worse y → !worse x) : (place worse a l).filter p = l.filter p := by
  have hcut := filter_append_filter_not (p := fun x => !worse x) h
  simp only [Bool.not_not] at hcut
  rw [place, List.filter_append, List.filter_cons_of_neg (by simp [ha]), ← List.filter_append, hcut]

end PriorityList

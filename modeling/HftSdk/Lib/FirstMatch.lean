import Mathlib.Data.List.Basic

/-!
# The first entry that matches

A table is searched from the front and changed at the first entry that matches. What another search
finds afterwards depends on which of the two comes first.
-/

namespace FirstMatch

variable {α : Type*} {p q r : α → Bool} {f : α → α} {l pre : List α} {a : α}

/-- Change the first entry that satisfies `p`, if there is one. -/
def modifyFirst (p : α → Bool) (f : α → α) : List α → List α
  | [] => []
  | a :: l => if p a then f a :: l else a :: modifyFirst p f l

@[simp] theorem length_modifyFirst : (modifyFirst p f l).length = l.length := by
  induction l with
  | nil => rfl
  | cons b l ih =>
    rw [modifyFirst]
    split <;> simp [ih]

/-! ## Around the first match -/

theorem modifyFirst_append (h : ∀ b ∈ pre, p b = false) (l : List α) :
    modifyFirst p f (pre ++ l) = pre ++ modifyFirst p f l := by
  induction pre with
  | nil => rfl
  | cons b pre ih =>
    rw [List.forall_mem_cons] at h
    rw [List.cons_append, modifyFirst, if_neg (by simp [h.1]), ih h.2, List.cons_append]

theorem find?_append_of_forall (h : ∀ b ∈ pre, q b = false) (l : List α) :
    (pre ++ l).find? q = l.find? q := by
  rw [List.find?_append, List.find?_eq_none.mpr fun b hb => by simp [h b hb], Option.none_or]

theorem split_of_find? (h : l.find? p = some a) :
    ∃ pre post, l = pre ++ a :: post ∧ p a = true ∧ ∀ b ∈ pre, p b = false := by
  obtain ⟨ha, pre, post, hl, hpre⟩ := List.find?_eq_some_iff_append.mp h
  exact ⟨pre, post, hl, ha, fun b hb => by simpa using hpre b hb⟩

theorem modifyFirst_of_find? (h : l.find? p = some a) :
    ∃ pre post, l = pre ++ a :: post ∧ modifyFirst p f l = pre ++ f a :: post := by
  obtain ⟨pre, post, rfl, ha, hpre⟩ := split_of_find? h
  exact ⟨pre, post, rfl, by rw [modifyFirst_append hpre, modifyFirst, if_pos ha]⟩

theorem modifyFirst_of_find?_eq_none (h : l.find? p = none) : modifyFirst p f l = l := by
  have hall : ∀ b ∈ l, p b = false := by simpa using h
  have happend := modifyFirst_append (f := f) hall []
  rwa [List.append_nil, modifyFirst, List.append_nil] at happend

/-! ## Another search -/

theorem find?_and (h : l.find? q = some a) (hr : r a = true) :
    l.find? (fun b => r b && q b) = some a := by
  obtain ⟨pre, post, rfl, ha, hpre⟩ := split_of_find? h
  rw [find?_append_of_forall fun b hb => by simp [hpre b hb], List.find?_cons_of_pos]
  simp [ha, hr]

theorem find?_modifyFirst_of_ne (h : l.find? q = some a) (ha : p a = false)
    (hf : ∀ b, p b = true → q (f b) = false) : (modifyFirst p f l).find? q = some a := by
  obtain ⟨pre, post, rfl, hqa, hpre⟩ := split_of_find? h
  by_cases hfirst : ∀ b ∈ pre, p b = false
  · rw [modifyFirst_append hfirst, modifyFirst, if_neg (by simp [ha]), find?_append_of_forall hpre,
      List.find?_cons_of_pos hqa]
  · obtain ⟨c, hc⟩ : ∃ c, pre.find? p = some c := by
      rw [← Option.isSome_iff_exists, List.find?_isSome]
      simpa using hfirst
    obtain ⟨front, back, rfl, hpc, hfront⟩ := split_of_find? hc
    rw [List.append_assoc, modifyFirst_append hfront, List.cons_append, modifyFirst, if_pos hpc,
      ← List.cons_append, ← List.append_assoc, find?_append_of_forall, List.find?_cons_of_pos hqa]
    intro b hb
    rw [List.mem_append, List.mem_cons] at hb
    rcases hb with hb | rfl | hb
    · exact hpre b (List.mem_append_left _ hb)
    · exact hf c hpc
    · exact hpre b (List.mem_append_right _ (List.mem_cons_of_mem _ hb))

section Either

variable (h : l.find? (fun b => p b || q b) = some a)
include h

theorem find?_modifyFirst_of_changed (ha : p a = true) (hq : q (f a) = true) :
    (modifyFirst p f l).find? q = some (f a) := by
  obtain ⟨pre, post, rfl, -, hpre⟩ := split_of_find? h
  simp only [Bool.or_eq_false_iff] at hpre
  rw [modifyFirst_append fun b hb => (hpre b hb).1, modifyFirst, if_pos ha,
    find?_append_of_forall fun b hb => (hpre b hb).2, List.find?_cons_of_pos hq]

theorem find?_modifyFirst_of_before (ha : p a = false) :
    (modifyFirst p f l).find? q = some a := by
  obtain ⟨pre, post, rfl, hpqa, hpre⟩ := split_of_find? h
  simp only [Bool.or_eq_false_iff] at hpre
  rw [modifyFirst_append fun b hb => (hpre b hb).1, modifyFirst, if_neg (by simp [ha]),
    find?_append_of_forall fun b hb => (hpre b hb).2, List.find?_cons_of_pos]
  simpa [ha] using hpqa

end Either

end FirstMatch

import Mathlib.Data.List.Basic
import Mathlib.Logic.Function.Basic
import Mathlib.Data.List.Nodup

/-!
# Stacks linked through an array

A stack is kept in an array of nodes: `next i` is the address stored in node `i`, and `deref` reads an
address as a node or as the end of the list. `Chain deref next a l` says that the nodes met from the
address `a` are `l`, in this order. Writing a node that is not on the list leaves the list alone;
pushing and popping are a change of the address one starts from.

`Place` says of every node where it is: on the list, in use, or in the hands of one thread. Since it
is a function, a node is in one place only.
-/

namespace LinkedStack

/-! ## Chains -/

section Chain

variable {ι κ : Type*} (deref : κ → Option ι) (next : ι → κ)

/-- The nodes met from an address. -/
def Chain : κ → List ι → Prop
  | a, [] => deref a = none
  | a, i :: l => deref a = some i ∧ Chain (next i) l

variable {deref next} {a : κ} {l : List ι}

theorem Chain.congr {next' : ι → κ} (h : Chain deref next a l) (heq : ∀ i ∈ l, next' i = next i) :
    Chain deref next' a l := by
  induction l generalizing a with
  | nil => exact h
  | cons i l ih =>
    refine ⟨h.1, ?_⟩
    rw [heq i List.mem_cons_self]
    exact ih h.2 fun j hj => heq j (List.mem_cons_of_mem i hj)

theorem Chain.pop {i : ι} (h : Chain deref next a l) (hi : deref a = some i) :
    ∃ l', l = i :: l' ∧ Chain deref next (next i) l' := by
  cases l with
  | nil => exact absurd (h.symm.trans hi) (by simp)
  | cons j l =>
    obtain rfl : j = i := Option.some_inj.mp (h.1.symm.trans hi)
    exact ⟨l, rfl, h.2⟩

theorem Chain.push {i : ι} (h : Chain deref next a l) (hnext : next i = a) {a' : κ}
    (hi : deref a' = some i) : Chain deref next a' (i :: l) := by
  refine ⟨hi, ?_⟩
  rw [hnext]
  exact h

variable (next) in
/-- The address after the last node of a list that starts at an address. -/
def endOf : κ → List ι → κ
  | a, [] => a
  | _, i :: l => endOf (next i) l

theorem endOf_concat (a : κ) (l : List ι) (i : ι) : endOf next a (l ++ [i]) = next i := by
  induction l generalizing a with
  | nil => rfl
  | cons j l ih => exact ih (next j)

theorem endOf_congr {next' : ι → κ} (heq : ∀ i ∈ l, next' i = next i) (a : κ) :
    endOf next' a l = endOf next a l := by
  induction l generalizing a with
  | nil => rfl
  | cons i l ih =>
    rw [endOf, endOf, heq i List.mem_cons_self]
    exact ih (fun j hj => heq j (List.mem_cons_of_mem i hj)) (next i)

theorem Chain.exists_end (h : Chain deref next a l) : ∃ a', deref a' = none := by
  induction l generalizing a with
  | nil => exact ⟨a, h⟩
  | cons i l ih => exact ih h.2

end Chain

/-! ## Places -/

/-- Where a node is: on the free list, in use, or in the hands of a thread. -/
inductive Place (τ : Type*)
  | free
  | live
  | held (t : τ)
deriving DecidableEq

section Places

variable {ι τ : Type*} [DecidableEq ι] [DecidableEq τ] {place : ι → Place τ} {holds : τ → Option ι}
  {i : ι} {t : τ}

theorem held_take (h : ∀ t i, holds t = some i ↔ place i = .held t) (hnone : holds t = none)
    (hfree : ∀ t', place i ≠ .held t') (t' : τ) (j : ι) :
    Function.update holds t (some i) t' = some j ↔
      Function.update place i (.held t) j = .held t' := by
  by_cases hj : j = i
  · rw [hj, Function.update_self]
    by_cases ht : t' = t
    · rw [ht, Function.update_self]
      simp
    · rw [Function.update_of_ne ht, h]
      exact iff_of_false (hfree t') fun heq => ht (Place.held.inj heq).symm
  · rw [Function.update_of_ne hj, ← h]
    by_cases ht : t' = t
    · rw [ht, Function.update_self, hnone]
      exact iff_of_false (fun heq => hj (Option.some_inj.mp heq).symm) (by simp)
    · rw [Function.update_of_ne ht]

theorem held_give (h : ∀ t i, holds t = some i ↔ place i = .held t) (hi : holds t = some i)
    {p : Place τ} (hp : ∀ t', p ≠ .held t') (t' : τ) (j : ι) :
    Function.update holds t none t' = some j ↔ Function.update place i p j = .held t' := by
  have hplace := (h t i).mp hi
  by_cases hj : j = i
  · rw [hj, Function.update_self]
    refine iff_of_false ?_ (hp t')
    by_cases ht : t' = t
    · rw [ht, Function.update_self]
      simp
    · rw [Function.update_of_ne ht, h, hplace]
      exact fun heq => ht (Place.held.inj heq).symm
  · rw [Function.update_of_ne hj, ← h]
    by_cases ht : t' = t
    · rw [ht, Function.update_self, hi]
      exact iff_of_false (by simp) fun heq => hj (Option.some_inj.mp heq).symm
    · rw [Function.update_of_ne ht]

omit [DecidableEq τ] in
theorem mem_cons_place {l : List ι} {q : Place τ} (h : ∀ j, j ∈ l ↔ place j = q) (j : ι) :
    j ∈ i :: l ↔ Function.update place i q j = q := by
  by_cases hj : j = i
  · rw [hj, Function.update_self]
    exact iff_of_true List.mem_cons_self rfl
  · rw [Function.update_of_ne hj, List.mem_cons, h]
    exact ⟨fun h' => h'.resolve_left hj, Or.inr⟩

omit [DecidableEq τ] in
theorem mem_erase_place {l : List ι} {p q : Place τ} (h : ∀ j, j ∈ l ↔ place j = q)
    (hnodup : l.Nodup) (hpq : p ≠ q) (j : ι) :
    j ∈ l.erase i ↔ Function.update place i p j = q := by
  rw [hnodup.mem_erase_iff]
  by_cases hj : j = i
  · rw [hj, Function.update_self]
    exact iff_of_false (fun h' => h'.1 rfl) hpq
  · rw [Function.update_of_ne hj, h]
    exact and_iff_right hj

omit [DecidableEq τ] in
theorem mem_place {l : List ι} {p q : Place τ} (h : ∀ j, j ∈ l ↔ place j = q) (hi : place i ≠ q)
    (hpq : p ≠ q) (j : ι) : j ∈ l ↔ Function.update place i p j = q := by
  rw [h]
  by_cases hj : j = i
  · rw [hj, Function.update_self]
    exact iff_of_false hi hpq
  · rw [Function.update_of_ne hj]

end Places

end LinkedStack

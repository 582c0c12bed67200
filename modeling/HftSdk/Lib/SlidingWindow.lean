import Mathlib.Data.List.TakeWhile
import Mathlib.Data.List.TakeDrop

/-!
# Sliding windows

A queue that is trimmed from the front and fed at the back holds an end part of what was ever put in.
`gone` is the front part that a queue `kept` no longer holds. Counting in the queue counts everything
that satisfies a condition when nothing that satisfies it is gone.
-/

namespace SlidingWindow

variable {α : Type*}

/-- What was put in and is no longer held. -/
def gone (all kept : List α) : List α := all.take (all.length - kept.length)

theorem gone_eq {all kept front : List α} (h : all = front ++ kept) : gone all kept = front := by
  unfold gone
  rw [h, List.length_append, Nat.add_sub_cancel, List.take_left]

theorem gone_append {all kept : List α} (h : kept <:+ all) : gone all kept ++ kept = all := by
  obtain ⟨front, rfl⟩ := h
  rw [gone_eq rfl]

theorem gone_dropWhile {all kept : List α} (h : kept <:+ all) (p : α → Bool) :
    gone all (kept.dropWhile p) = gone all kept ++ kept.takeWhile p := by
  apply gone_eq
  rw [List.append_assoc, List.takeWhile_append_dropWhile, gone_append h]

theorem gone_concat {all kept : List α} (h : kept <:+ all) (x : α) :
    gone (all ++ [x]) (kept ++ [x]) = gone all kept := by
  apply gone_eq
  rw [← List.append_assoc, gone_append h]

theorem not_of_mem_dropWhile {p : α → Bool} {l : List α}
    (h : l.Pairwise fun x y => p y = true → p x = true) {x : α} (hx : x ∈ l.dropWhile p) :
    p x = false := by
  induction l with
  | nil => cases hx
  | cons a l ih =>
    rw [List.pairwise_cons] at h
    by_cases ha : p a = true
    · rw [List.dropWhile_cons_of_pos ha] at hx
      exact ih h.2 hx
    · rw [List.dropWhile_cons_of_neg ha] at hx
      rcases List.mem_cons.mp hx with rfl | hx
      · exact Bool.not_eq_true _ ▸ ha
      · exact Bool.eq_false_iff.mpr fun hp => ha (h.1 x hx hp)

theorem count_le {all kept : List α} (h : kept <:+ all) {p : α → Bool}
    (hgone : ∀ x ∈ gone all kept, p x = false) : (all.filter p).length ≤ kept.length := by
  rw [← gone_append h, List.filter_append, List.filter_eq_nil_iff.mpr, List.nil_append]
  · exact List.length_filter_le p kept
  · intro x hx
    rw [hgone x hx]
    exact Bool.false_ne_true

end SlidingWindow

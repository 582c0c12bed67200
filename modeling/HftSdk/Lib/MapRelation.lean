import HftSdk.Lib.SortedMap
import Mathlib.Data.List.Forall2

/-!
# Related maps

Two ordered maps are related when their entries are, one by one and in order: the keys by a renaming
`g` and the values by a relation `R`. Operations with related arguments keep maps related, when the
renaming is injective and, where an operation compares keys, carries one comparator to the other.
-/

namespace SortedMap

open List (Forall₂)

variable {κ κ' ν ν' : Type*} {lt : κ → κ → Prop} {lt' : κ' → κ' → Prop}

/-- Entries with renamed keys and related values, one by one. -/
def Related (g : κ → κ') (R : ν → ν' → Prop) : List (κ × ν) → List (κ' × ν') → Prop :=
  Forall₂ fun e e' => e'.1 = g e.1 ∧ R e.2 e'.2

namespace Related

variable {g : κ → κ'} {R : ν → ν' → Prop} {es : List (κ × ν)} {es' : List (κ' × ν')}

section Lookup
variable [DecidableEq κ] [DecidableEq κ'] (hg : Function.Injective g)
  {m : SortedMap lt ν} {m' : SortedMap lt' ν'}
include hg

theorem lookup (h : Related g R m.entries m'.entries) (k : κ) :
    Option.Rel R (m.lookup k) (m'.lookup (g k)) := by
  unfold SortedMap.lookup
  unfold Related at h
  revert h
  generalize m.entries = es, m'.entries = es'
  intro h
  induction h with
  | nil => exact .none
  | @cons e e' es es' he _ ih =>
    by_cases hk : e.1 = k
    · have hk' : e'.1 = g k := by rw [he.1, hk]
      rw [List.find?_cons_of_pos (by simpa using hk), List.find?_cons_of_pos (by simpa using hk')]
      exact .some he.2
    · have hk' : e'.1 ≠ g k := fun heq => hk (hg (he.1.symm.trans heq))
      rw [List.find?_cons_of_neg (by simpa using hk), List.find?_cons_of_neg (by simpa using hk')]
      exact ih

theorem erase (h : Related g R m.entries m'.entries) (k : κ) :
    Related g R (m.erase k).entries (m'.erase (g k)).entries := by
  refine List.rel_filter (fun e e' he => ?_) h
  simp only [decide_eq_true_iff, he.1]
  exact (not_congr hg.eq_iff).symm

theorem assign (h : Related g R m.entries m'.entries) (k : κ) {v : ν} {v' : ν'} (hv : R v v') :
    Related g R (m.assign k v).entries (m'.assign (g k) v').entries := by
  refine List.rel_map (fun e e' he => ?_) h
  by_cases hk : e.1 = k
  · rw [if_pos hk, if_pos (by rw [he.1, hk])]
    exact ⟨he.1, hv⟩
  · rw [if_neg hk, if_neg fun heq => hk (hg (he.1.symm.trans heq))]
    exact he

end Lookup

section Upsert
variable [DecidableRel lt] [DecidableRel lt'] (hlt : ∀ a b, lt' (g a) (g b) ↔ lt a b)
include hlt

theorem upsertList (h : Related g R es es') (k : κ) {f : Option ν → ν} {f' : Option ν' → ν'}
    (hf : ∀ v v', Option.Rel R v v' → R (f v) (f' v')) :
    Related g R (upsertList lt k f es) (SortedMap.upsertList lt' (g k) f' es') := by
  unfold Related at h
  induction h with
  | nil => exact .cons ⟨rfl, hf _ _ .none⟩ .nil
  | @cons e e' es es' he hes ih =>
    unfold SortedMap.upsertList
    rw [he.1]
    simp only [hlt]
    split_ifs
    · exact .cons ⟨rfl, hf _ _ .none⟩ (.cons he hes)
    · exact .cons he ih
    · exact .cons ⟨rfl, hf _ _ (.some he.2)⟩ hes

theorem push [IsTrans κ lt] [IsTrans κ' lt'] {α α' : Type*} {S : α → α' → Prop}
    {m : SortedMap lt (List α)} {m' : SortedMap lt' (List α')}
    (h : Related g (Forall₂ S) m.entries m'.entries) (k : κ) {new : ℕ → α} {new' : ℕ → α'}
    (hnew : ∀ i, S (new i) (new' i)) :
    Related g (Forall₂ S) (m.push k new).entries (m'.push (g k) new').entries := by
  refine upsertList hlt h k fun q q' hq => ?_
  have hqueue : Forall₂ S (q.getD []) (q'.getD []) := by
    cases hq with
    | none => exact .nil
    | some hq => exact hq
  rw [hqueue.length_eq]
  exact List.rel_append hqueue (.cons (hnew _) .nil)

end Upsert

end Related

theorem forall₂_unlink {α α' : Type*} {S : ListNode α → ListNode α' → Prop}
    (hS : ∀ n n', S n n' → n'.addr = n.addr) {l : NodeList α} {l' : NodeList α'}
    (h : Forall₂ S l l') (it : ℕ) : Forall₂ S (ListNode.unlink it l) (ListNode.unlink it l') := by
  refine List.rel_filter (fun n n' hn => ?_) h
  simp only [hS n n' hn]

/-! ## Maps with renamed keys and mapped values

The relation is a function on the values.
-/

section Mapped

variable {g : κ → κ'} {f : ν → ν'}

theorem related_iff_map {es : List (κ × ν)} {es' : List (κ' × ν')} :
    Related g (fun v v' => v' = f v) es es' ↔ es' = es.map (Prod.map g f) := by
  unfold Related
  constructor
  · intro h
    induction h with
    | nil => rfl
    | @cons e e' es es' he _ ih =>
      rw [List.map_cons, ← ih]
      exact congrArg (· :: es') (Prod.ext he.1 he.2)
  · rintro rfl
    rw [List.forall₂_map_right_iff, List.forall₂_same]
    exact fun e _ => ⟨rfl, rfl⟩

section Lookup
variable [DecidableEq κ] [DecidableEq κ'] (hg : Function.Injective g)
  {m : SortedMap lt ν} {m' : SortedMap lt' ν'}
  (h : m'.entries = m.entries.map (Prod.map g f))
include hg h

theorem lookup_mapped (k : κ) : m'.lookup (g k) = (m.lookup k).map f := by
  have hrel := Related.lookup hg (related_iff_map.mpr h) k
  revert hrel
  generalize m.lookup k = v, m'.lookup (g k) = v'
  intro hrel
  cases hrel with
  | none => rfl
  | some hv => rw [hv, Option.map_some]

theorem erase_mapped (k : κ) :
    (m'.erase (g k)).entries = (m.erase k).entries.map (Prod.map g f) :=
  related_iff_map.mp (Related.erase hg (related_iff_map.mpr h) k)

theorem assign_mapped (k : κ) (v : ν) :
    (m'.assign (g k) (f v)).entries = (m.assign k v).entries.map (Prod.map g f) :=
  related_iff_map.mp (Related.assign hg (related_iff_map.mpr h) k rfl)

end Lookup

theorem push_mapped [DecidableRel lt] [DecidableRel lt'] [IsTrans κ lt] [IsTrans κ' lt']
    (hlt : ∀ a b, lt' (g a) (g b) ↔ lt a b) {α α' : Type*} {φ : α → α'}
    {m : SortedMap lt (List α)} {m' : SortedMap lt' (List α')}
    (h : m'.entries = m.entries.map (Prod.map g (List.map φ))) (k : κ) (new : ℕ → α) :
    (m'.push (g k) fun i => φ (new i)).entries =
      (m.push k new).entries.map (Prod.map g (List.map φ)) := by
  refine related_iff_map.mp (Related.upsertList hlt (related_iff_map.mpr h) k fun q q' hq => ?_)
  cases hq with
  | none => rfl
  | some hq => simp [hq]

end Mapped

end SortedMap

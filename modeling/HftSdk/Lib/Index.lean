import Mathlib.Data.Finmap
import Mathlib.Data.List.Nodup

/-!
# Indexes

A finite map indexes a list of entries when its bindings are exactly the entries. The edits of the
map follow the edits of the list, up to the order of the entries.
-/

/-- The bindings of `m` are the entries `es`, one for each key. -/
structure Indexes {κ ν : Type*} [DecidableEq κ] (m : Finmap fun _ : κ => ν) (es : List (κ × ν)) :
    Prop where
  nodup : (es.map Prod.fst).Nodup
  lookup : ∀ k v, m.lookup k = some v ↔ (k, v) ∈ es

namespace Indexes

variable {κ ν : Type*} [DecidableEq κ] {m : Finmap fun _ : κ => ν} {es es' : List (κ × ν)} {k : κ}
  {v : ν}

theorem empty : Indexes (∅ : Finmap fun _ : κ => ν) [] :=
  ⟨List.nodup_nil, fun k v => by simp [Finmap.lookup_empty]⟩

theorem perm (h : Indexes m es) (hp : es.Perm es') : Indexes m es' :=
  ⟨((hp.map Prod.fst).nodup_iff).mp h.nodup, fun k v => (h.lookup k v).trans hp.mem_iff⟩

theorem mem_iff (h : Indexes m es) : k ∈ m ↔ k ∈ es.map Prod.fst := by
  rw [Finmap.mem_iff, List.mem_map]
  constructor
  · rintro ⟨v, hv⟩
    exact ⟨(k, v), (h.lookup k v).mp hv, rfl⟩
  · rintro ⟨⟨_, v⟩, hv, rfl⟩
    exact ⟨v, (h.lookup _ v).mpr hv⟩

theorem erase (h : Indexes m ((k, v) :: es)) : Indexes (m.erase k) es := by
  have hn := h.nodup
  rw [List.map_cons, List.nodup_cons] at hn
  refine ⟨hn.2, ?_⟩
  intro k' v'
  by_cases hk : k' = k
  · subst hk
    rw [Finmap.lookup_erase]
    exact iff_of_false (Option.some_ne_none v').symm fun hv => hn.1 (List.mem_map.mpr ⟨_, hv, rfl⟩)
  · rw [Finmap.lookup_erase_ne hk, h.lookup, List.mem_cons, Prod.mk.injEq]
    exact or_iff_right fun hkv => hk hkv.1

theorem erase_filter (h : Indexes m es) (k : κ) :
    Indexes (m.erase k) (es.filter fun e => e.1 ≠ k) := by
  refine ⟨h.nodup.sublist (List.filter_sublist.map _), ?_⟩
  intro k' v'
  rw [List.mem_filter]
  by_cases hk : k' = k
  · subst hk
    rw [Finmap.lookup_erase]
    exact iff_of_false (Option.some_ne_none v').symm fun hv => of_decide_eq_true hv.2 rfl
  · rw [Finmap.lookup_erase_ne hk, h.lookup]
    exact (and_iff_left (decide_eq_true hk)).symm

theorem erase_append {gone : List (κ × ν)} (h : Indexes m (gone ++ es)) :
    Indexes (gone.foldl (fun m e => m.erase e.1) m) es := by
  induction gone generalizing m with
  | nil => exact h
  | cons e gone ih => exact ih h.erase

theorem insert (h : Indexes m es) (hk : k ∉ m) (v : ν) :
    Indexes (m.insert k v) ((k, v) :: es) := by
  rw [h.mem_iff] at hk
  refine ⟨List.nodup_cons.mpr ⟨hk, h.nodup⟩, ?_⟩
  intro k' v'
  by_cases hk' : k' = k
  · subst hk'
    rw [Finmap.lookup_insert, List.mem_cons, Option.some_inj, Prod.mk.injEq]
    refine ⟨fun hv => Or.inl ⟨rfl, hv.symm⟩, fun hv => ?_⟩
    rcases hv with ⟨-, hv⟩ | hv
    · exact hv.symm
    · exact absurd (List.mem_map.mpr ⟨_, hv, rfl⟩) hk
  · rw [Finmap.lookup_insert_of_ne _ hk', h.lookup, List.mem_cons, Prod.mk.injEq]
    exact (or_iff_right fun hkv => hk' hkv.1).symm

end Indexes

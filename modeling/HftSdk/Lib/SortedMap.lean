import Mathlib.Order.Defs.Unbundled
import Mathlib.Data.List.Nodup
import Mathlib.Data.List.Pairwise
import Mathlib.Tactic.SplitIfs
import Mathlib.Tactic.Tauto

/-!
# Ordered maps and linked lists

`SortedMap lt ν` is an ordered associative container: its entries stand in strictly increasing key
order for the comparator `lt`, and the order is a field, so a map out of order cannot be built.
`NodeList α` is a linked list whose nodes keep their address for as long as they live; an iterator
is such an address.

A map whose values are lists is a family of queues, and `flat` reads it as one list: best key first,
and within a key in queue order. Every operation on the queues is described by what it does to
`flat`.
-/

/-! ## Nodes with stable addresses -/

/-- A list node: where it lives and the element it holds. -/
structure ListNode (α : Type*) where
  addr : Nat
  val : α
deriving DecidableEq

/-- A linked list, front first. -/
abbrev NodeList (α : Type*) := List (ListNode α)

namespace ListNode

variable {α : Type*}

/-- Unlink the node at `it`. -/
def unlink (it : Nat) (l : NodeList α) : NodeList α := l.filter fun n => n.addr ≠ it

/-- The element at `it`, if a node of the list lives there. -/
def deref (it : Nat) (l : NodeList α) : Option α := (l.find? fun n => n.addr = it).map val

theorem deref_of_mem {l : NodeList α} {n : ListNode α} (hn : n ∈ l)
    (huniq : (l.map addr).Nodup) : deref n.addr l = some n.val := by
  unfold deref
  cases hf : l.find? fun m => m.addr = n.addr with
  | none => exact absurd (List.find?_eq_none.mp hf n hn) (by simp)
  | some m =>
    have hm : m.addr = n.addr := by simpa using List.find?_some hf
    have : m = n := List.inj_on_of_nodup_map huniq (List.mem_of_find?_eq_some hf) hn hm
    rw [this]
    rfl

end ListNode

/-! ## The map -/

/-- An ordered map: entries in strictly increasing key order. -/
@[ext] structure SortedMap {κ : Type*} (lt : κ → κ → Prop) (ν : Type*) where
  entries : List (κ × ν)
  sorted : (entries.map Prod.fst).Pairwise lt

namespace SortedMap

variable {κ : Type*} {lt : κ → κ → Prop} {ν : Type*}

instance : EmptyCollection (SortedMap lt ν) := ⟨⟨[], List.Pairwise.nil⟩⟩

/-- Other values under some of the keys, in the same order. -/
def restrict (m : SortedMap lt ν) (es : List (κ × ν))
    (h : (es.map Prod.fst).Sublist (m.entries.map Prod.fst)) : SortedMap lt ν :=
  ⟨es, m.sorted.sublist h⟩

@[simp] theorem entries_restrict (m : SortedMap lt ν) (es : List (κ × ν))
    (h : (es.map Prod.fst).Sublist (m.entries.map Prod.fst)) : (m.restrict es h).entries = es := rfl

section Lookup
variable [DecidableEq κ]

/-- The value at a key. -/
def lookup (k : κ) (m : SortedMap lt ν) : Option ν :=
  (m.entries.find? fun e => e.1 = k).map Prod.snd

/-- Remove a key. -/
def erase (k : κ) (m : SortedMap lt ν) : SortedMap lt ν :=
  m.restrict (m.entries.filter fun e => e.1 ≠ k) (List.filter_sublist.map _)

/-- Overwrite the value at a key that is present; no change when it is absent. -/
def assign (k : κ) (v : ν) (m : SortedMap lt ν) : SortedMap lt ν :=
  m.restrict (m.entries.map fun e => if e.1 = k then (e.1, v) else e) <| by
    rw [List.map_map]
    refine (List.map_congr_left fun e _ => ?_) ▸ List.Sublist.refl _
    simp only [Function.comp]
    split_ifs <;> rfl

theorem mem_of_lookup {m : SortedMap lt ν} {k : κ} {v : ν} (h : m.lookup k = some v) :
    (k, v) ∈ m.entries := by
  obtain ⟨e, he, rfl⟩ := Option.map_eq_some_iff.mp h
  have hk : e.1 = k := by simpa using List.find?_some he
  exact hk ▸ List.mem_of_find?_eq_some he

theorem lookup_eq_none {m : SortedMap lt ν} {k : κ} :
    m.lookup k = none ↔ ∀ e ∈ m.entries, e.1 ≠ k := by
  simp [lookup]

variable [Std.Irrefl lt]

omit [DecidableEq κ] in
theorem keys_nodup (m : SortedMap lt ν) : (m.entries.map Prod.fst).Nodup := by
  apply m.sorted.imp
  rintro a b h rfl
  exact irrefl a h

theorem lookup_eq_some {m : SortedMap lt ν} {k : κ} {v : ν} :
    m.lookup k = some v ↔ (k, v) ∈ m.entries := by
  refine ⟨mem_of_lookup, ?_⟩
  intro h
  cases hl : m.lookup k with
  | none => exact absurd rfl (lookup_eq_none.mp hl _ h)
  | some w =>
    have := List.inj_on_of_nodup_map m.keys_nodup h (mem_of_lookup hl) rfl
    rw [(Prod.mk.inj this).2]

theorem lookup_assign {m : SortedMap lt ν} {k : κ} {v : ν} (h : m.lookup k = some v) (w : ν) :
    (m.assign k w).lookup k = some w := by
  refine lookup_eq_some.mpr (List.mem_map.mpr ⟨(k, v), mem_of_lookup h, ?_⟩)
  exact if_pos rfl

omit [Std.Irrefl lt] in
theorem assign_assign (m : SortedMap lt ν) (k : κ) (v w : ν) :
    (m.assign k v).assign k w = m.assign k w := by
  ext1
  change (m.entries.map _).map _ = m.entries.map _
  rw [List.map_map]
  apply List.map_congr_left
  intro e _
  by_cases hk : e.1 = k <;> simp [hk]

omit [Std.Irrefl lt] in
theorem mem_assign {m : SortedMap lt ν} {k : κ} {v : ν} {e : κ × ν} (he : e ∈ (m.assign k v).entries) :
    e ∈ m.entries ∧ e.1 ≠ k ∨ e = (k, v) := by
  obtain ⟨e', he', rfl⟩ := List.mem_map.mp he
  split_ifs with hk
  · exact Or.inr (by rw [hk])
  · exact Or.inl ⟨he', hk⟩

end Lookup

section Upsert
variable [DecidableRel lt]

variable (lt) in
/-- Walk to the place of `k`; rewrite its value, or insert one made from nothing. -/
def upsertList (k : κ) (f : Option ν → ν) : List (κ × ν) → List (κ × ν)
  | [] => [(k, f none)]
  | e :: es =>
    if lt k e.1 then (k, f none) :: e :: es
    else if lt e.1 k then e :: upsertList k f es
    else (e.1, f (some e.2)) :: es

theorem mem_upsertList {k : κ} {f : Option ν → ν} {es : List (κ × ν)} {x : κ}
    (hx : x ∈ (upsertList lt k f es).map Prod.fst) : x = k ∨ x ∈ es.map Prod.fst := by
  induction es with
  | nil => simpa [upsertList] using hx
  | cons e es ih =>
    unfold upsertList at hx
    split_ifs at hx <;> simp only [List.map_cons, List.mem_cons] at hx ⊢
    · tauto
    · rcases hx with hx | hx
      · exact Or.inr (Or.inl hx)
      · rcases ih hx with h | h
        · exact Or.inl h
        · exact Or.inr (Or.inr h)
    · tauto

theorem mem_upsertList_entry {k : κ} {f : Option ν → ν} {es : List (κ × ν)} {x : κ × ν}
    (hx : x ∈ upsertList lt k f es) : x ∈ es ∨ ∃ v, x.2 = f v := by
  induction es with
  | nil => exact Or.inr ⟨none, by rw [List.mem_singleton.mp hx]⟩
  | cons e es ih =>
    unfold upsertList at hx
    split_ifs at hx <;> rcases List.mem_cons.mp hx with rfl | hx
    · exact Or.inr ⟨none, rfl⟩
    · exact Or.inl hx
    · exact Or.inl List.mem_cons_self
    · exact (ih hx).imp_left (List.mem_cons_of_mem e)
    · exact Or.inr ⟨some e.2, rfl⟩
    · exact Or.inl (List.mem_cons_of_mem e hx)

theorem upsertList_sorted [IsTrans κ lt] {k : κ} {f : Option ν → ν} {es : List (κ × ν)}
    (h : (es.map Prod.fst).Pairwise lt) : ((upsertList lt k f es).map Prod.fst).Pairwise lt := by
  induction es with
  | nil => simp [upsertList]
  | cons e es ih =>
    rw [List.map_cons, List.pairwise_cons] at h
    unfold upsertList
    split_ifs with h₁ h₂
    · simp only [List.map_cons, List.pairwise_cons]
      refine ⟨?_, h⟩
      rintro x (_ | ⟨_, hx⟩)
      · exact h₁
      · exact IsTrans.trans _ _ _ h₁ (h.1 x hx)
    · rw [List.map_cons, List.pairwise_cons]
      refine ⟨fun x hx => ?_, ih h.2⟩
      rcases mem_upsertList hx with rfl | hx
      · exact h₂
      · exact h.1 x hx
    · rw [List.map_cons, List.pairwise_cons]
      exact h

/-- `m[k]`, created when absent, rewritten by `f`. -/
def upsert [IsTrans κ lt] (k : κ) (f : Option ν → ν) (m : SortedMap lt ν) : SortedMap lt ν :=
  ⟨upsertList lt k f m.entries, upsertList_sorted m.sorted⟩

theorem mem_upsertList_iff [DecidableEq κ] [IsStrictTotalOrder κ lt] {k : κ} {f : Option ν → ν}
    {es : List (κ × ν)} (h : (es.map Prod.fst).Pairwise lt) {x : κ × ν} :
    x ∈ upsertList lt k f es ↔
      x ∈ es ∧ x.1 ≠ k ∨ x = (k, f ((es.find? fun e => e.1 = k).map Prod.snd)) := by
  induction es with
  | nil => simp [upsertList]
  | cons e es ih =>
    rw [List.map_cons, List.pairwise_cons] at h
    -- the keys behind `e` are other keys
    have hbehind : ∀ y ∈ es, lt e.1 y.1 := fun y hy => h.1 _ (List.mem_map_of_mem hy)
    have hnone : (∀ y ∈ es, lt k y.1) → es.find? (fun e => e.1 = k) = none := fun hk =>
      List.find?_eq_none.mpr fun y hy hyk => irrefl k (by
        have := hk y hy
        rwa [of_decide_eq_true hyk] at this)
    unfold upsertList
    split_ifs with h₁ h₂
    · have hne : e.1 ≠ k := fun hk => irrefl k (hk ▸ h₁)
      have hes := hnone fun y hy => IsTrans.trans _ _ _ h₁ (hbehind y hy)
      rw [List.find?_cons_of_neg (by simpa using hne), hes, List.mem_cons, List.mem_cons]
      refine ⟨fun hx => hx.symm.imp_left fun hx => ⟨hx, fun hxk => ?_⟩,
        fun hx => hx.symm.imp_right And.left⟩
      rcases hx with rfl | hx
      · exact hne hxk
      · exact irrefl k (hxk ▸ IsTrans.trans _ _ _ h₁ (hbehind x hx))
    · have hne : e.1 ≠ k := fun hk => irrefl k (hk ▸ h₂)
      rw [List.find?_cons_of_neg (by simpa using hne), List.mem_cons, List.mem_cons, ih h.2]
      constructor
      · rintro (rfl | hx | hx)
        · exact Or.inl ⟨Or.inl rfl, hne⟩
        · exact Or.inl ⟨Or.inr hx.1, hx.2⟩
        · exact Or.inr hx
      · rintro (⟨rfl | hx, hk⟩ | hx)
        · exact Or.inl rfl
        · exact Or.inr (Or.inl ⟨hx, hk⟩)
        · exact Or.inr (Or.inr hx)
    · obtain rfl : e.1 = k := Std.Trichotomous.trichotomous _ _ h₂ h₁
      rw [List.find?_cons_of_pos (by simp), List.mem_cons, List.mem_cons]
      refine ⟨fun hx => hx.symm.imp_left fun hx => ⟨Or.inr hx, ?_⟩, ?_⟩
      · intro hk
        have := hbehind x hx
        rw [hk] at this
        exact irrefl _ this
      · rintro (⟨rfl | hx, hk⟩ | hx)
        · exact absurd rfl hk
        · exact Or.inr hx
        · exact Or.inl hx

theorem mem_upsert [DecidableEq κ] [IsStrictTotalOrder κ lt] {k : κ} {f : Option ν → ν}
    {m : SortedMap lt ν} {x : κ × ν} :
    x ∈ (m.upsert k f).entries ↔ x ∈ m.entries ∧ x.1 ≠ k ∨ x = (k, f (m.lookup k)) :=
  mem_upsertList_iff m.sorted

end Upsert

/-! ## Maps of queues, read as one list -/

section Flat
variable {α β : Type*}

/-- All the elements of a list of queues, each under its key. -/
def flatList (es : List (κ × List α)) : List (κ × α) := es.flatMap fun e => e.2.map (Prod.mk e.1)

@[simp] theorem flatList_nil : flatList ([] : List (κ × List α)) = [] := rfl

@[simp] theorem flatList_cons (e : κ × List α) (es : List (κ × List α)) :
    flatList (e :: es) = e.2.map (Prod.mk e.1) ++ flatList es := rfl

@[simp] theorem flatList_append (es es' : List (κ × List α)) :
    flatList (es ++ es') = flatList es ++ flatList es' := List.flatMap_append

theorem flatList_map (f : α → β) (es : List (κ × List α)) :
    flatList (es.map fun e => (e.1, e.2.map f)) = (flatList es).map (Prod.map id f) := by
  induction es with
  | nil => rfl
  | cons e es ih => simp [ih]

theorem flatList_filterMap (f : α → Option β) (es : List (κ × List α)) :
    flatList (es.map fun e => (e.1, e.2.filterMap f)) =
      (flatList es).filterMap fun x => (f x.2).map (Prod.mk x.1) := by
  induction es with
  | nil => rfl
  | cons e es ih =>
    rw [List.map_cons, flatList_cons, ih, flatList_cons, List.filterMap_append, List.filterMap_map,
      List.map_filterMap]
    rfl

theorem flatList_filter_nonempty (es : List (κ × List α)) :
    flatList (es.filter fun e => !e.2.isEmpty) = flatList es := by
  induction es with
  | nil => rfl
  | cons e es ih =>
    obtain ⟨k, q⟩ := e
    cases q with
    | nil => simpa using ih
    | cons a q => simp [ih]

theorem mem_flatList {es : List (κ × List α)} {x : κ × α} :
    x ∈ flatList es ↔ ∃ q, (x.1, q) ∈ es ∧ x.2 ∈ q := by
  obtain ⟨k, a⟩ := x
  simp only [flatList, List.mem_flatMap, List.mem_map, Prod.mk.injEq, Prod.exists]
  constructor
  · rintro ⟨k', q, hq, a', ha, rfl, rfl⟩
    exact ⟨q, hq, ha⟩
  · rintro ⟨q, hq, ha⟩
    exact ⟨k, q, hq, a, ha, rfl, rfl⟩

theorem fst_mem_of_mem_flatList {es : List (κ × List α)} {x : κ × α} (hx : x ∈ flatList es) :
    x.1 ∈ es.map Prod.fst := by
  obtain ⟨q, hq, -⟩ := mem_flatList.mp hx
  exact List.mem_map_of_mem hq

theorem map_snd_flatList (es : List (κ × List α)) :
    (flatList es).map Prod.snd = es.flatMap Prod.snd := by
  simp [flatList, List.map_flatMap, Function.comp_def]

theorem filter_block (p : κ → Bool) (k : κ) (q : List α) :
    (q.map (Prod.mk k)).filter (fun x => p x.1) = if p k then q.map (Prod.mk k) else [] := by
  split_ifs with h <;> simp [List.filter_map, Function.comp_def, h]

/-- The queues of the map as one list: best key first, each queue in its own order. -/
def flat (m : SortedMap lt (List α)) : List (κ × α) := flatList m.entries

theorem mem_flat {m : SortedMap lt (List α)} {x : κ × α} :
    x ∈ m.flat ↔ ∃ q, (x.1, q) ∈ m.entries ∧ x.2 ∈ q := mem_flatList

theorem flat_takeWhile (m : SortedMap lt (List α)) (p : κ → Bool)
    (hp : ∀ a b, lt a b → p b → p a) :
    flatList (m.entries.takeWhile fun e => p e.1) = m.flat.filter (fun x => p x.1) ∧
      flatList (m.entries.dropWhile fun e => p e.1) = m.flat.filter (fun x => !p x.1) := by
  obtain ⟨es, hs⟩ := m
  simp only [flat]
  induction es with
  | nil => exact ⟨rfl, rfl⟩
  | cons e es ih =>
    rw [List.map_cons, List.pairwise_cons] at hs
    obtain ⟨iht, ihd⟩ := ih hs.2
    simp only [flatList_cons, List.filter_append, filter_block p, filter_block fun k => !p k]
    by_cases he : p e.1
    · simp [he, iht, ihd]
    · have hnone : ∀ x ∈ flatList es, p x.1 = false := by
        intro x hx
        by_contra hc
        exact he (hp _ _ (hs.1 _ (fst_mem_of_mem_flatList hx)) (by simpa using hc))
      have hnil : (flatList es).filter (fun x => p x.1) = [] :=
        List.filter_eq_nil_iff.mpr fun x hx => by simp [hnone x hx]
      have hall : (flatList es).filter (fun x => !p x.1) = flatList es :=
        List.filter_eq_self.mpr fun x hx => by simp [hnone x hx]
      simp [he, hnil, hall]

section Edit
variable [DecidableEq κ]

theorem flatList_inj {es es' : List (κ × List α)} (hn : (es.map Prod.fst).Nodup)
    (hn' : (es'.map Prod.fst).Nodup) (hne : ∀ e ∈ es, e.2 ≠ []) (hne' : ∀ e ∈ es', e.2 ≠ [])
    (h : flatList es = flatList es') : es = es' := by
  induction es generalizing es' with
  | nil =>
    cases es' with
    | nil => rfl
    | cons e' es' => exact absurd h.symm (by simp [hne' e' List.mem_cons_self])
  | cons e es ih =>
    cases es' with
    | nil => exact absurd h (by simp [hne e List.mem_cons_self])
    | cons e' es' =>
      obtain ⟨k, q⟩ := e
      obtain ⟨k', q'⟩ := e'
      rw [List.map_cons, List.nodup_cons] at hn hn'
      rw [List.forall_mem_cons] at hne hne'
      rw [flatList_cons, flatList_cons] at h
      obtain ⟨a, q, rfl⟩ := List.exists_cons_of_ne_nil hne.1
      obtain ⟨a', q', rfl⟩ := List.exists_cons_of_ne_nil hne'.1
      obtain rfl : k = k' := congrArg Prod.fst (List.cons.inj h).1
      -- the elements under `k` are the first queue
      have hfirst : ∀ {q : List α} {es : List (κ × List α)}, k ∉ es.map Prod.fst →
          (q.map (Prod.mk k) ++ flatList es).filter (fun x => x.1 = k) = q.map (Prod.mk k) := by
        intro q es hk
        have hnone : (flatList es).filter (fun x => x.1 = k) = [] :=
          List.filter_eq_nil_iff.mpr fun x hx hxk =>
            hk (of_decide_eq_true hxk ▸ fst_mem_of_mem_flatList hx)
        rw [List.filter_append, filter_block (fun x => decide (x = k)), if_pos (by simp), hnone,
          List.append_nil]
      have hqueue : (a :: q).map (Prod.mk k) = (a' :: q').map (Prod.mk k) :=
        (hfirst hn.1).symm.trans
          ((congrArg (List.filter fun x : κ × α => x.1 = k) h).trans (hfirst hn'.1))
      have hrest : flatList es = flatList es' := by
        dsimp only at h
        rwa [hqueue, List.append_cancel_left_eq] at h
      rw [List.map_injective_iff.mpr (fun _ _ h => (Prod.mk.inj h).2) hqueue,
        ih hn.2 hn'.2 hne.2 hne'.2 hrest]

theorem flat_erase (k : κ) (m : SortedMap lt (List α)) :
    (m.erase k).flat = m.flat.filter fun x => x.1 ≠ k := by
  simp only [flat, erase, entries_restrict]
  induction m.entries with
  | nil => rfl
  | cons e es ih =>
    rw [flatList_cons, List.filter_append, ← ih, filter_block (fun x => decide (x ≠ k))]
    by_cases h : e.1 = k <;> simp [h]

theorem flat_filter_key [Std.Irrefl lt] (k : κ) (m : SortedMap lt (List α)) :
    m.flat.filter (fun x => x.1 = k) = ((m.lookup k).getD []).map (Prod.mk k) := by
  have hn := m.keys_nodup
  unfold flat lookup
  revert hn
  induction m.entries with
  | nil => exact fun _ => rfl
  | cons e es ih =>
    intro hn
    rw [List.map_cons, List.nodup_cons] at hn
    rw [flatList_cons, List.filter_append, filter_block (fun x => decide (x = k))]
    by_cases he : e.1 = k
    · have hnone : (flatList es).filter (fun x => x.1 = k) = [] :=
        List.filter_eq_nil_iff.mpr fun x hx hk =>
          hn.1 (he ▸ of_decide_eq_true hk ▸ fst_mem_of_mem_flatList hx)
      rw [hnone, List.find?_cons_of_pos (by simpa using he), he]
      simp
    · rw [ih hn.2, List.find?_cons_of_neg (by simpa using he)]
      simp [he]

theorem assign_entries_ne {k : κ} {v : ν} {es : List (κ × ν)} (h : k ∉ es.map Prod.fst) :
    (es.map fun e => if e.1 = k then (e.1, v) else e) = es := by
  refine (List.map_congr_left fun e he => ?_).trans (List.map_id es)
  exact if_neg fun hk : e.1 = k => h (hk ▸ List.mem_map_of_mem he)

theorem flat_assign [Std.Irrefl lt] {m : SortedMap lt (List α)} {k : κ} {q : List α}
    (h : m.lookup k = some q) : ∃ pre post : List (κ × α),
      m.flat = pre ++ q.map (Prod.mk k) ++ post ∧ (∀ x ∈ pre, x.1 ≠ k) ∧ (∀ x ∈ post, x.1 ≠ k) ∧
      ∀ q', (m.assign k q').flat = pre ++ q'.map (Prod.mk k) ++ post := by
  obtain ⟨es, es', he⟩ := List.append_of_mem (mem_of_lookup h)
  have hn := m.keys_nodup
  rw [he, List.map_append, List.map_cons, List.nodup_middle, List.nodup_cons, List.mem_append,
    not_or] at hn
  refine ⟨flatList es, flatList es', by simp [flat, he], ?_, ?_, fun q' => ?_⟩
  · intro x hx hk
    exact hn.1.1 (hk ▸ fst_mem_of_mem_flatList hx)
  · intro x hx hk
    exact hn.1.2 (hk ▸ fst_mem_of_mem_flatList hx)
  · simp only [flat, assign, entries_restrict, he, List.map_append, List.map_cons, if_true]
    rw [assign_entries_ne hn.1.1, assign_entries_ne hn.1.2]
    simp

theorem flat_assign_filter [Std.Irrefl lt] {m : SortedMap lt (List α)} {k : κ} {q : List α}
    (h : m.lookup k = some q) (p : α → Bool) :
    (m.assign k (q.filter p)).flat = m.flat.filter fun x => decide (x.1 ≠ k) || p x.2 := by
  obtain ⟨pre, post, hm, hpre, hpost, hass⟩ := flat_assign h
  have hkeep : ∀ l : List (κ × α), (∀ x ∈ l, x.1 ≠ k) →
      l.filter (fun x => decide (x.1 ≠ k) || p x.2) = l :=
    fun l hl => List.filter_eq_self.mpr fun x hx => by simp [hl x hx]
  rw [hass, hm, List.filter_append, List.filter_append, hkeep pre hpre, hkeep post hpost,
    List.filter_map]
  simp [Function.comp_def]

/-- **Unlinking a node** from the queue at its key, which goes when its last node does. -/
theorem flat_filter_unlink [Std.Irrefl lt] (m : SortedMap lt (NodeList α)) (k : κ) (it : ℕ) :
    (m.flat.filter fun x => ¬ (x.1 = k ∧ x.2.addr = it)) =
      match m.lookup k with
      | none => m.flat
      | some queue =>
        if (ListNode.unlink it queue).isEmpty then (m.erase k).flat
        else (m.assign k (ListNode.unlink it queue)).flat := by
  have hfilter : m.flat.filter (fun x => ¬ (x.1 = k ∧ x.2.addr = it)) =
      m.flat.filter fun x => decide (x.1 ≠ k) || decide (x.2.addr ≠ it) := by
    apply List.filter_congr
    intro x _
    by_cases hk : x.1 = k <;> simp [hk]
  rw [hfilter]
  cases hl : m.lookup k with
  | none =>
    have hnone := lookup_eq_none.mp hl
    apply List.filter_eq_self.mpr
    intro x hx
    obtain ⟨queue, hq, -⟩ := mem_flat.mp hx
    simp [show x.1 ≠ k from hnone _ hq]
  | some queue =>
    dsimp only
    split_ifs with hempty
    · -- the node was the last of its queue
      have hall : ∀ n ∈ queue, n.addr = it := by
        simpa [ListNode.unlink] using hempty
      rw [flat_erase]
      apply List.filter_congr
      intro x hx
      by_cases hk : x.1 = k
      · obtain ⟨queue', hq', hx'⟩ := mem_flat.mp hx
        rw [hk, ← lookup_eq_some, hl, Option.some_inj] at hq'
        simp [hk, hall x.2 (hq' ▸ hx')]
      · simp [hk]
    · exact (flat_assign_filter hl fun n => n.addr ≠ it).symm

theorem flat_assign_map [Std.Irrefl lt] {m : SortedMap lt (List α)} {k : κ} {q q' : List α}
    (h : m.lookup k = some q) (f : α → β) (hf : q'.map f = q.map f) :
    (m.assign k q').flat.map (Prod.map id f) = m.flat.map (Prod.map id f) := by
  obtain ⟨pre, post, hm, -, -, hass⟩ := flat_assign h
  have hblock : ∀ l : List α, (l.map (Prod.mk k)).map (Prod.map id f) = (l.map f).map (Prod.mk k) :=
    fun l => by simp
  rw [hass, hm, List.map_append, List.map_append, List.map_append, List.map_append, hblock, hblock, hf]

end Edit

/-! ### Appending to a queue -/

section Push
variable [DecidableRel lt]

/-- Append to the queue at `k`, creating it when absent. The new element may depend on the number
of elements already in the queue. -/
def push [IsTrans κ lt] (k : κ) (new : ℕ → α) (m : SortedMap lt (List α)) : SortedMap lt (List α) :=
  m.upsert k fun q => q.getD [] ++ [new (q.getD []).length]

theorem push_nonempty [IsTrans κ lt] {k : κ} {new : ℕ → α} {m : SortedMap lt (List α)}
    (h : ∀ e ∈ m.entries, e.2 ≠ []) : ∀ e ∈ (m.push k new).entries, e.2 ≠ [] := by
  intro e he
  rcases mem_upsertList_entry he with he | ⟨v, hv⟩
  · exact h e he
  · rw [hv]
    exact List.append_ne_nil_of_right_ne_nil _ (List.cons_ne_nil _ _)

/-- **Appending places the new element after everything at its key or better, and before
everything worse.** -/
theorem flat_push [IsStrictTotalOrder κ lt] (k : κ) (new : ℕ → α) (m : SortedMap lt (List α)) :
    ∃ i, (m.push k new).flat =
      m.flat.filter (fun x => ¬ lt k x.1) ++ (k, new i) :: m.flat.filter (fun x => lt k x.1) := by
  obtain ⟨es, hs⟩ := m
  simp only [push, upsert, flat]
  induction es with
  | nil => exact ⟨0, rfl⟩
  | cons e es ih =>
    rw [List.map_cons, List.pairwise_cons] at hs
    -- every key after the queue at `e.1` is worse than `e.1`
    have hafter : ∀ x ∈ flatList es, lt e.1 x.1 := fun x hx => hs.1 _ (fst_mem_of_mem_flatList hx)
    have hworse : (∀ x ∈ flatList es, lt k x.1) →
        (flatList es).filter (fun x => lt k x.1) = flatList es ∧
          (flatList es).filter (fun x => !decide (lt k x.1)) = [] := fun h =>
      ⟨List.filter_eq_self.mpr fun x hx => by simpa using h x hx,
        List.filter_eq_nil_iff.mpr fun x hx => by simpa using h x hx⟩
    simp only [decide_not] at ih ⊢
    simp only [flatList_cons, List.filter_append, filter_block (fun x => decide (lt k x)),
      filter_block (fun x => !decide (lt k x))]
    by_cases h₁ : lt k e.1
    · obtain ⟨hw, hw'⟩ := hworse fun x hx => IsTrans.trans _ _ _ h₁ (hafter x hx)
      exact ⟨0, by simp [upsertList, h₁, hw, hw']⟩
    · by_cases h₂ : lt e.1 k
      · obtain ⟨i, hi⟩ := ih hs.2
        exact ⟨i, by simp [upsertList, h₁, h₂, hi]⟩
      · obtain rfl : e.1 = k := Std.Trichotomous.trichotomous _ _ h₂ h₁
        obtain ⟨hw, hw'⟩ := hworse hafter
        exact ⟨e.2.length, by simp [upsertList, h₁, hw, hw']⟩

end Push

end Flat

end SortedMap

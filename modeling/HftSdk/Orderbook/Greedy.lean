import HftSdk.Orderbook.Invariants

/-!
# Matching as greedy consumption

`match_against` on any side of a book that is well formed, reachable or not: any split between
displayed and hidden quantity, on icebergs and on other orders. The side is one list of orders, best
price first and each queue in order; the incoming order consumes its front, down to the first level
beyond its limit. `matchAgainst_greedy` says what every order of the side comes to, what becomes of
the index and of the count, and what trades are made.
-/

namespace HftSdk

open Sweep SortedMap

/-! ## The side as one list -/

/-- An order on a side, under the price of its level. -/
abbrev Resting := Int × ListNode L3Order

def Resting.openQty (x : Resting) : Int := x.2.val.openQty

/-- The order after a match. -/
def Resting.fill (x : Resting) (m : Int) : Resting := (x.1, ⟨x.2.addr, x.2.val.fill m⟩)

theorem Resting.fill_openQty (x : Resting) (m : Int) : (x.fill m).openQty = x.openQty - m :=
  L3Order.fill_openQty x.2.val m

/-- The orders that an incoming order may consume, cut at the first level beyond its limit. -/
def consumable (incoming : Order) (levels : List (Int × OrderQueue)) : List Resting :=
  flatList (levels.takeWhile fun e => !beyondLimit incoming e.1)

/-- Who gives how much: consecutive orders give what is still wanted or all they have. -/
def greedyFills (incoming : Order) (demand : Int) (levels : List (Int × OrderQueue)) :
    List (Resting × Int) :=
  fills Resting.openQty demand (consumable incoming levels)

/-- What an order gives in all. -/
def takenFrom (fs : List (Resting × Int)) (id : OrderId) : Int := given (fun x => x.2.val.id) id fs

/-- What becomes of an order: untouched when it gives nothing, dropped when it gives all it has. -/
def nodeAfter (fs : List (Resting × Int)) (n : ListNode L3Order) : Option (ListNode L3Order) :=
  if takenFrom fs n.val.id = 0 then some n
  else if takenFrom fs n.val.id = n.val.openQty then none
  else some ⟨n.addr, n.val.fill (takenFrom fs n.val.id)⟩

/-- What becomes of the levels: emptied ones are erased. -/
def levelsAfter (fs : List (Resting × Int)) (levels : List (Int × OrderQueue)) :
    List (Int × OrderQueue) :=
  (levels.map fun e => (e.1, e.2.filterMap (nodeAfter fs))).filter fun e => !e.2.isEmpty

/-- A side that is fit for matching, and what the book keeps of it. -/
structure WellFormedSide {s : Side} (m : PriceLevels s) (c : BookCore) : Prop where
  nonempty : ∀ e ∈ m.entries, e.2 ≠ []
  side : ∀ x ∈ m.flat, x.2.val.side = s
  visible : ∀ x ∈ m.flat, 0 ≤ x.2.val.visibleQty
  hidden : ∀ x ∈ m.flat, 0 ≤ x.2.val.hiddenQty
  pos : ∀ x ∈ m.flat, 0 < x.2.val.visibleQty + x.2.val.hiddenQty
  /-- The sum is one of `int64_t`s. -/
  fits : ∀ x ∈ m.flat, x.2.val.visibleQty + x.2.val.hiddenQty < 2 ^ 63
  /-- The nodes are different ones. -/
  nodup : (m.flat.map fun x => x.2.addr).Nodup
  /-- Each node is indexed under the id of its order. -/
  indexed : ∀ x ∈ m.flat, c.orderIndex.lookup x.2.val.id = some ⟨s, x.1, x.2.addr⟩
  /-- All orders are counted. -/
  counted : c.orderCount s = m.flat.length

theorem WellFormedSide.nodup_ids {s : Side} {m : PriceLevels s} {c : BookCore}
    (h : WellFormedSide m c) : (m.flat.map fun x => x.2.val.id).Nodup := by
  have haddr : m.flat.map (fun x => x.2.addr) =
      (m.flat.map fun x => x.2.val.id).map fun id =>
        ((c.orderIndex.lookup id).map OrderLocation.it).getD 0 := by
    rw [List.map_map]
    refine List.map_congr_left fun x hx => ?_
    rw [Function.comp_apply, h.indexed x hx]
    rfl
  have hnodup := h.nodup
  rw [haddr] at hnodup
  exact List.Nodup.of_map _ hnodup

/-! ## The loops on orders -/

theorem matchQueue_left (incoming : Order) (ts : Timestamp) (p : Int) (queue : OrderQueue)
    (c : BookCore) (demand : Int) :
    (matchQueue incoming ts p queue c demand).left.map (Prod.mk p) =
      residue Resting.openQty Resting.fill demand (queue.map (Prod.mk p)) := by
  induction queue generalizing c demand with
  | nil => rfl
  | cons n queue ih =>
    rw [List.map_cons, residue]
    by_cases h : 0 < demand
    · rw [matchQueue_cons incoming ts p n queue c h, if_pos h]
      dsimp only
      change _ = if (n.val.fill (min demand n.val.openQty)).openQty = 0 then _ else _
      split_ifs
      · exact ih _ _
      · rw [List.map_cons, ih]
        rfl
    · rw [matchQueue, if_neg h, if_neg h]
      rfl

theorem fills_quotes (demand : Int) (l : List Resting) :
    fills Quote.openQty demand (l.map Quote.of) =
      (fills Resting.openQty demand l).map (Prod.map Quote.of id) :=
  fills_map (f := Quote.of) Resting.openQty (fun _ => rfl) demand l

theorem matchLevels_left (incoming : Order) (ts : Timestamp) (levels : List (Int × OrderQueue))
    (c : BookCore) (demand : Int) :
    flatList (matchLevels incoming ts levels c demand).left =
      residue Resting.openQty Resting.fill demand (consumable incoming levels) ++
        flatList (levels.dropWhile fun e => !beyondLimit incoming e.1) := by
  induction levels generalizing c demand with
  | nil => rfl
  | cons e levels ih =>
    obtain ⟨p, queue⟩ := e
    by_cases h : 0 < demand
    · by_cases hp : beyondLimit incoming p = true
      · rw [matchLevels, if_pos h, if_pos hp]
        simp [consumable, hp, residue]
      · have hcons : consumable incoming ((p, queue) :: levels) =
            queue.map (Prod.mk p) ++ consumable incoming levels := by
          simp [consumable, hp]
        have hleft := matchQueue_left incoming ts p queue c demand
        have hremaining := (matchQueue_isSweep incoming ts p queue c demand).remaining
        have hquotes : (queue.map fun n => Quote.of (p, n)) =
            (queue.map (Prod.mk p)).map Quote.of := by
          rw [List.map_map]
          rfl
        rw [hquotes, fills_quotes, taken_map] at hremaining
        rw [matchLevels, if_pos h, if_neg hp, hcons, residue_append, ← hremaining, ← hleft]
        generalize matchQueue incoming ts p queue c demand = q
        have hdrop : ((p, queue) :: levels).dropWhile (fun e => !beyondLimit incoming e.1) =
            levels.dropWhile fun e => !beyondLimit incoming e.1 := by simp [hp]
        rw [hdrop, List.append_assoc, ← ih q.core q.remaining]
        dsimp only
        split_ifs with hempty
        · rw [List.isEmpty_iff.mp hempty, List.map_nil, List.nil_append]
        · exact flatList_cons ..
    · rw [matchLevels, if_neg h, residue_of_nonpos _ _ (by omega), consumable, ← flatList_append,
        List.takeWhile_append_dropWhile]

/-! ## The rest of the book -/

namespace BookCore

theorem settleOne_eq (c : BookCore) (q : Quote) (m : Int) : c.settleOne q m =
    if m = q.openQty then (c.recordTrade q.price m).dropFilled q.order
    else c.recordTrade q.price m := by
  have hfull : (q.fill m).openQty = 0 ↔ m = q.openQty := by
    rw [Quote.fill_openQty]
    omega
  unfold settleOne
  simp only [hfull]

theorem settle_lookup (c : BookCore) (fs : List (Quote × Int)) (id : OrderId) :
    (c.settle fs).orderIndex.lookup id =
      if id ∈ (usedUp fs).map fun q => q.order.id then none else c.orderIndex.lookup id := by
  induction fs generalizing c with
  | nil => rfl
  | cons x fs ih =>
    obtain ⟨q, m⟩ := x
    rw [settle_cons, ih, settleOne_eq, usedUp_cons]
    by_cases hm : m = q.openQty
    · rw [if_pos hm, if_pos hm, List.map_cons, dropFilled_orderIndex]
      by_cases hid : id = q.order.id
      · subst hid
        rw [if_pos List.mem_cons_self, Finmap.lookup_erase]
        exact ite_self _
      · rw [Finmap.lookup_erase_ne hid]
        simp only [List.mem_cons, hid, false_or]
        rfl
    · rw [if_neg hm, if_neg hm]
      rfl

theorem settle_orderCount (c : BookCore) (fs : List (Quote × Int)) (s : Side) :
    (c.settle fs).orderCount s =
      c.orderCount s - (usedUp fs).countP fun q => q.order.side = s := by
  induction fs generalizing c with
  | nil => rfl
  | cons x fs ih =>
    obtain ⟨q, m⟩ := x
    rw [settle_cons, ih, settleOne_eq, usedUp_cons]
    by_cases hm : m = q.openQty
    · rw [if_pos hm, if_pos hm, List.countP_cons, dropFilled_orderCount, recordTrade_orderCount]
      by_cases hs : q.order.side = s
      · simp only [hs, if_true, decide_true]
        omega
      · simp only [hs, if_false, decide_false, Bool.false_eq_true]
        omega
    · rw [if_neg hm, if_neg hm, recordTrade_orderCount]

end BookCore

/-! ## Partly consumed orders -/

theorem L3Order.fill_partly {o : L3Order} (hh : 0 ≤ o.hiddenQty) {m : Int} (hm : m < o.openQty) :
    (o.fill m).visibleQty + (o.fill m).hiddenQty = o.visibleQty + o.hiddenQty - m ∧
      0 ≤ (o.fill m).visibleQty ∧ 0 ≤ (o.fill m).hiddenQty ∧
      (o.isIceberg = true → (o.fill m).visibleQty = 0 → (o.fill m).hiddenQty = 0) ∧
      o.fill m = { o with
        visibleQty := (o.fill m).visibleQty
        hiddenQty := (o.fill m).hiddenQty
        filledQty := o.filledQty + m } := by
  obtain ⟨hv', hh'⟩ := L3Order.fill_nonneg hh hm.le
  refine ⟨o.fill_openQty m, hv', hh', fun hice hzero => ?_, o.fill_frame m⟩
  unfold fill replenish at hzero hh' ⊢
  have hicebergs : (o.reduce m).isIceberg = true := by
    unfold reduce
    split_ifs <;> exact hice
  split_ifs at hzero hh' ⊢ with hshow
  · -- something hidden is displayed
    dsimp only at hzero hh' ⊢
    have := hshow.2.1
    omega
  · by_contra hne
    exact hshow ⟨hzero, lt_of_le_of_ne hh' (Ne.symm hne), hicebergs⟩

/-! ## One side -/

section Side

variable {s : Side} {m : PriceLevels s} {c : BookCore} {incoming : Order} {demand : Int}

theorem flat_eq (m : PriceLevels s) (incoming : Order) : m.flat =
    consumable incoming m.entries ++
      flatList (m.entries.dropWhile fun e => !beyondLimit incoming e.1) := by
  rw [consumable, ← flatList_append, List.takeWhile_append_dropWhile]
  rfl

theorem consumable_subset (m : PriceLevels s) (incoming : Order) :
    consumable incoming m.entries ⊆ m.flat := by
  rw [flat_eq m incoming]
  exact List.subset_append_left _ _

namespace WellFormedSide

theorem consumable_pos (h : WellFormedSide m c) (incoming : Order) :
    ∀ x ∈ consumable incoming m.entries, 0 < x.openQty := fun x hx =>
  h.pos x (consumable_subset m incoming hx)

theorem consumable_nodup (h : WellFormedSide m c) (incoming : Order) :
    ((consumable incoming m.entries).map fun x => x.2.val.id).Nodup := by
  have hnodup := h.nodup_ids
  rw [flat_eq m incoming, List.map_append] at hnodup
  exact (List.nodup_append.mp hnodup).1

theorem eq_of_id (h : WellFormedSide m c) {x y : Resting} (hx : x ∈ m.flat) (hy : y ∈ m.flat)
    (hid : x.2.val.id = y.2.val.id) : x = y :=
  List.inj_on_of_nodup_map h.nodup_ids hx hy hid

theorem takenFrom_of_fill (h : WellFormedSide m c) {x : Resting × Int}
    (hx : x ∈ greedyFills incoming demand m.entries) :
    x.1 ∈ m.flat ∧ 0 < x.2 ∧ x.2 ≤ x.1.openQty ∧
      takenFrom (greedyFills incoming demand m.entries) x.1.2.val.id = x.2 := by
  have hpos := h.consumable_pos incoming
  obtain ⟨hmem, hgives, hle⟩ := fill_bounds Resting.fill_openQty hpos hx
  exact ⟨consumable_subset m incoming hmem, hgives, hle,
    given_of_mem Resting.fill_openQty hpos (h.consumable_nodup incoming) hx⟩

theorem fill_of_takenFrom (h : WellFormedSide m c) {x : Resting} (hx : x ∈ m.flat)
    (hgives : takenFrom (greedyFills incoming demand m.entries) x.2.val.id ≠ 0) :
    (x, takenFrom (greedyFills incoming demand m.entries) x.2.val.id) ∈
      greedyFills incoming demand m.entries := by
  by_contra hnone
  refine hgives (given_of_not_mem fun y hy hid => hnone ?_)
  obtain ⟨hmem, -, -, htaken⟩ := h.takenFrom_of_fill hy
  obtain rfl := h.eq_of_id hmem hx hid
  rwa [htaken]

theorem takenFrom_le (h : WellFormedSide m c) {x : Resting} (hx : x ∈ m.flat) :
    takenFrom (greedyFills incoming demand m.entries) x.2.val.id ≤ x.2.val.openQty := by
  have hpos : 0 < x.2.val.openQty := h.pos x hx
  by_cases hgives : takenFrom (greedyFills incoming demand m.entries) x.2.val.id = 0
  · omega
  · exact (h.takenFrom_of_fill (h.fill_of_takenFrom hx hgives)).2.2.1

theorem mem_usedUp_iff (h : WellFormedSide m c) (k : OrderId) :
    k ∈ (usedUp ((greedyFills incoming demand m.entries).map (Prod.map Quote.of id))).map
        (fun q => q.order.id) ↔
      ∃ x ∈ m.flat, x.2.val.id = k ∧
        takenFrom (greedyFills incoming demand m.entries) k = x.2.val.openQty := by
  set fs := greedyFills incoming demand m.entries
  have husedUp : k ∈ (usedUp (fs.map (Prod.map Quote.of id))).map (fun q => q.order.id) ↔
      ∃ y ∈ fs, y.2 = y.1.openQty ∧ y.1.2.val.id = k := by
    simp only [usedUp, List.mem_map, List.mem_filter, decide_eq_true_eq, Quote.fill_openQty]
    constructor
    · rintro ⟨_, ⟨_, ⟨⟨y, hy, rfl⟩, hfull⟩, rfl⟩, hid⟩
      exact ⟨y, hy, (Int.sub_eq_zero.mp hfull).symm, hid⟩
    · rintro ⟨y, hy, hfull, hid⟩
      exact ⟨_, ⟨_, ⟨⟨y, hy, rfl⟩, Int.sub_eq_zero.mpr hfull.symm⟩, rfl⟩, hid⟩
  rw [husedUp]
  constructor
  · rintro ⟨y, hy, hfull, rfl⟩
    obtain ⟨hmem, -, -, htaken⟩ := h.takenFrom_of_fill hy
    exact ⟨y.1, hmem, rfl, htaken.trans hfull⟩
  · rintro ⟨x, hx, rfl, hall⟩
    have hpos : 0 < x.2.val.openQty := h.pos x hx
    exact ⟨_, h.fill_of_takenFrom hx (hall.trans_ne hpos.ne'), hall, rfl⟩

end WellFormedSide

theorem flatList_levelsAfter (fs : List (Resting × Int)) (levels : List (Int × OrderQueue)) :
    flatList (levelsAfter fs levels) = (flatList levels).filterMap fun x : Resting =>
      if takenFrom fs x.2.val.id = 0 then some x
      else if takenFrom fs x.2.val.id = x.openQty then none
      else some (x.fill (takenFrom fs x.2.val.id)) := by
  rw [levelsAfter, flatList_filter_nonempty, flatList_filterMap]
  refine List.filterMap_congr fun x _ => ?_
  unfold nodeAfter
  change _ = if _ then _ else if _ = x.2.val.openQty then _ else _
  split_ifs <;> rfl

namespace WellFormedSide

theorem levels_eq (h : WellFormedSide m c) (ts : Timestamp) :
    (matchAgainst m incoming c demand ts).left.entries =
      levelsAfter (greedyFills incoming demand m.entries) m.entries := by
  set fs := greedyFills incoming demand m.entries
  have hkeys : ((levelsAfter fs m.entries).map Prod.fst).Sublist (m.entries.map Prod.fst) := by
    have hmap : (m.entries.map fun e => (e.1, e.2.filterMap (nodeAfter fs))).map Prod.fst =
        m.entries.map Prod.fst := by
      rw [List.map_map]
      rfl
    rw [← hmap]
    exact List.filter_sublist.map Prod.fst
  apply flatList_inj (matchAgainst m incoming c demand ts).left.keys_nodup (m.keys_nodup.sublist hkeys)
  · exact matchLevels_nonempty incoming ts h.nonempty c demand
  · intro e he
    have := (List.mem_filter.mp he).2
    simpa using this
  · rw [flatList_levelsAfter]
    change flatList (matchLevels incoming ts m.entries c demand).left = m.flat.filterMap _
    rw [matchLevels_left, flat_eq m incoming, List.filterMap_append]
    congr 1
    · -- the orders within the limit, as the sweep leaves them
      exact residue_eq_filterMap Resting.fill_openQty (h.consumable_pos incoming)
        (h.consumable_nodup incoming)
    · -- the orders beyond it
      have hnodup := h.nodup_ids
      rw [flat_eq m incoming, List.map_append] at hnodup
      refine Eq.symm (Eq.trans (List.filterMap_congr fun x hx => if_pos ?_) List.filterMap_some)
      apply given_of_not_mem
      intro y hy hid
      have hfill := fill_bounds Resting.fill_openQty (h.consumable_pos incoming) hy
      exact (List.nodup_append.mp hnodup).2.2 _ (List.mem_map_of_mem hfill.1) _
        (List.mem_map_of_mem hx) hid

theorem count_left (h : WellFormedSide m c) (ts : Timestamp) (t : Side) :
    (c.settle ((greedyFills incoming demand m.entries).map (Prod.map Quote.of id))).orderCount t =
      if t = s then (matchAgainst m incoming c demand ts).left.flat.length else c.orderCount t := by
  set fs := greedyFills incoming demand m.entries
  have hside : ∀ q ∈ usedUp (fs.map (Prod.map Quote.of id)), q.order.side = s := by
    intro q hq
    obtain ⟨x, hx, rfl⟩ := List.mem_map.mp hq
    obtain ⟨y, hy, rfl⟩ := List.mem_map.mp (List.mem_filter.mp hx).1
    exact h.side y.1 (consumable_subset m incoming
      (fill_bounds Resting.fill_openQty (h.consumable_pos incoming) hy).1)
  rw [BookCore.settle_orderCount]
  split_ifs with ht
  · subst ht
    have hall : (usedUp (fs.map (Prod.map Quote.of id))).countP (fun q => q.order.side = t) =
        (fs.filter fun x => x.2 = x.1.openQty).length := by
      rw [List.countP_eq_length.mpr fun q hq => decide_eq_true (hside q hq), usedUp,
        List.length_map, List.filter_map, List.length_map]
      congr 1
      refine List.filter_congr fun x _ => ?_
      rw [Function.comp_apply, Quote.fill_openQty, decide_eq_decide, Int.sub_eq_zero]
      exact eq_comm
    have hlength := length_residue (l := consumable incoming m.entries) Resting.fill_openQty demand
    have hleft := congrArg List.length (matchLevels_left incoming ts m.entries c demand)
    have hflat := congrArg List.length (flat_eq m incoming)
    rw [List.length_append] at hleft hflat
    rw [h.counted, hall]
    change _ = (flatList (matchLevels incoming ts m.entries c demand).left).length
    change _ + (fs.filter fun x => x.2 = x.1.openQty).length = _ at hlength
    omega
  · have hnone : (usedUp (fs.map (Prod.map Quote.of id))).countP (fun q => q.order.side = t) = 0 :=
      List.countP_eq_zero.mpr fun q hq hqt =>
        ht ((of_decide_eq_true hqt).symm.trans (hside q hq))
    rw [hnone, Nat.sub_zero]

end WellFormedSide

end Side

/-! ## The match -/

/-- What `match_against` comes to on a side. -/
structure GreedyMatch {s : Side} (m : PriceLevels s) (incoming : Order) (c : BookCore)
    (demand : Int) (r : Matched (PriceLevels s)) : Prop where
  /-- The trades are with consecutive orders, each at the price of its level. -/
  trades : r.trades.map (fun t => (t.restingId, t.price, t.qty)) =
    (greedyFills incoming demand m.entries).map fun x => (x.1.2.val.id, x.1.1, x.2)
  /-- The trades go on until the quantity wanted or the orders run out. -/
  remaining : r.remaining =
    max 0 (demand - total Resting.openQty (consumable incoming m.entries))
  /-- What the trades take is gone from the levels, and nothing else. -/
  levels : r.left.entries = levelsAfter (greedyFills incoming demand m.entries) m.entries
  /-- An order that gave a part of what it had keeps the rest. -/
  part : ∀ x ∈ m.flat, takenFrom (greedyFills incoming demand m.entries) x.2.val.id < x.2.val.openQty →
    let o := x.2.val
    let given := takenFrom (greedyFills incoming demand m.entries) o.id
    let o' := o.fill given
    o'.openQty = o.openQty - given ∧ 0 ≤ o'.visibleQty ∧ 0 ≤ o'.hiddenQty ∧
      o' = { o with
        visibleQty := o'.visibleQty
        hiddenQty := o'.hiddenQty
        filledQty := o.filledQty + given }
  /-- An iceberg that gave a part of what it had does not hide all of the rest. -/
  iceberg : ∀ x ∈ r.left.flat,
    takenFrom (greedyFills incoming demand m.entries) x.2.val.id ≠ 0 → x.2.val.isIceberg = true →
      ¬ (x.2.val.visibleQty = 0 ∧ 0 < x.2.val.hiddenQty)
  /-- The index loses the orders that gave all they had. -/
  unindexed : ∀ x ∈ m.flat,
    takenFrom (greedyFills incoming demand m.entries) x.2.val.id = x.2.val.openQty →
      r.core.orderIndex.lookup x.2.val.id = none
  /-- The index keeps all other entries. -/
  indexed : ∀ id, (∀ x ∈ m.flat, x.2.val.id = id →
      takenFrom (greedyFills incoming demand m.entries) id ≠ x.2.val.openQty) →
    r.core.orderIndex.lookup id = c.orderIndex.lookup id
  /-- The count of the side is that of the orders left on it. -/
  counted : ∀ t, r.core.orderCount t = if t = s then r.left.flat.length else c.orderCount t

/-- **`match_against` is greedy consumption** of the priority list. -/
theorem matchAgainst_greedy {s : Side} {m : PriceLevels s} {c : BookCore} (h : WellFormedSide m c)
    (incoming : Order) {demand : Int} (hdemand : 0 < demand) (ts : Timestamp) :
    GreedyMatch m incoming c demand (matchAgainst m incoming c demand ts) := by
  set fs := greedyFills incoming demand m.entries with hfs
  have hsweep := matchLevels_isSweep incoming ts m.entries c demand
  have hquotes : fills Quote.openQty demand (within incoming m.entries) =
      fs.map (Prod.map Quote.of id) := fills_quotes demand _
  have hcore : (matchAgainst m incoming c demand ts).core =
      c.settle (fs.map (Prod.map Quote.of id)) := by
    rw [← hquotes]
    exact hsweep.state
  constructor
  case trades =>
    have htrades := hsweep.output
    rw [hquotes] at htrades
    change (matchLevels incoming ts m.entries c demand).trades.map _ = _
    rw [htrades, BookCore.map_fillTrades (k := fun x => (x.1.order.id, x.1.price, x.2))
      fun _ _ => rfl, List.map_map]
    rfl
  case remaining =>
    have hremaining := hsweep.remaining
    rw [hquotes, taken_map, hfs, greedyFills,
      taken_fills Resting.fill_openQty (h.consumable_pos incoming) hdemand.le] at hremaining
    change (matchLevels incoming ts m.entries c demand).remaining = _
    omega
  case levels => exact h.levels_eq ts
  case part =>
    intro x hx hpart
    obtain ⟨hqty, hv, hh, -, hframe⟩ := L3Order.fill_partly (h.hidden x hx) hpart
    exact ⟨hqty, hv, hh, hframe⟩
  case iceberg =>
    intro x hx hgives hice
    change x ∈ flatList (matchAgainst m incoming c demand ts).left.entries at hx
    rw [h.levels_eq ts, flatList_levelsAfter] at hx
    obtain ⟨y, hy, hxy⟩ := List.mem_filterMap.mp hx
    split_ifs at hxy with hzero hall
    · obtain rfl := Option.some.inj hxy
      exact absurd hzero hgives
    · obtain rfl := Option.some.inj hxy
      have hpart := lt_of_le_of_ne (h.takenFrom_le hy) hall
      have hbefore := (congrArg L3Order.isIceberg (y.2.val.fill_frame _)).symm.trans hice
      rintro ⟨hvisible, hhidden⟩
      exact hhidden.ne' ((L3Order.fill_partly (h.hidden y hy) hpart).2.2.2.1 hbefore hvisible)
  case unindexed =>
    intro x hx hall
    rw [hcore, BookCore.settle_lookup, if_pos ((h.mem_usedUp_iff _).mpr ⟨x, hx, rfl, hall⟩)]
  case indexed =>
    intro k hk
    rw [hcore, BookCore.settle_lookup, if_neg]
    intro hmem
    obtain ⟨x, hx, hid, hall⟩ := (h.mem_usedUp_iff k).mp hmem
    exact hk x hx hid hall
  case counted =>
    intro t
    rw [hcore]
    exact h.count_left ts t

theorem L3OrderBook.RepInv.wellFormedSide {b : L3OrderBook} (h : b.RepInv) (s : Side)
    (hfits : ∀ x ∈ (b.levels s).flat, x.2.val.visibleQty + x.2.val.hiddenQty < 2 ^ 63) :
    WellFormedSide (b.levels s) b.toBookCore := by
  have hmem : ∀ x ∈ (b.levels s).flat, ∃ e ∈ (b.levels s).entries, ∃ n ∈ e.2, (e.1, n) = x := by
    intro x hx
    obtain ⟨e, he, hx⟩ := List.mem_flatMap.mp hx
    obtain ⟨n, hn, rfl⟩ := List.mem_map.mp hx
    exact ⟨e, he, n, hn, rfl⟩
  have hsound : ∀ x ∈ (b.levels s).flat, SoundOrder s x.1 x.2.val := by
    intro x hx
    obtain ⟨e, he, n, hn, rfl⟩ := hmem x hx
    exact h.soundOrder he hn
  constructor
  case nonempty => exact h.nonempty s
  case side => exact fun x hx => (hsound x hx).side
  case visible => exact fun x hx => (hsound x hx).visible
  case hidden => exact fun x hx => (hsound x hx).hidden
  case pos => exact fun x hx => (hsound x hx).pos
  case fits => exact hfits
  case nodup =>
    have hall := (Ladder.all_perm b.ladder s).map Quote.addr
    rw [List.map_append] at hall
    have hside := (List.nodup_append.mp (hall.nodup_iff.mp h.inv.stamps)).1
    rwa [show b.ladder.side s = (b.levels s).flat.map Quote.of from rfl, List.map_map] at hside
  case indexed =>
    intro x hx
    obtain ⟨e, he, n, hn, rfl⟩ := hmem x hx
    exact (h.lookup_iff _ _).mpr ⟨e, he, rfl, n, hn, rfl, rfl⟩
  case counted =>
    rw [h.orderCount_eq, ← length_quotes]
    exact List.length_map ..

/-- Two asks: an iceberg with some of it displayed, and behind it an order whose displayed part is
traded already. -/
def mixedAsks : PriceLevels .sell where
  entries := [(100, [⟨0, { id := 1, side := .sell, price := 100, visibleQty := 10, hiddenQty := 290
                           isIceberg := true }⟩]),
    (101, [⟨1, { id := 2, side := .sell, price := 101, hiddenQty := 5 }⟩])]
  sorted := by decide

/-- The rest of its book. -/
def mixedCore : BookCore where
  symbol := {}
  orderIndex := .singleton 1 ⟨.sell, 100, 0⟩ ∪ .singleton 2 ⟨.sell, 101, 1⟩
  askOrderCount := 2

theorem mixedAsks_wellFormed : WellFormedSide mixedAsks mixedCore where
  nonempty := by decide
  side := by decide
  visible := by decide
  hidden := by decide
  pos := by decide
  fits := by decide
  nodup := by decide
  indexed := by decide
  counted := by decide

theorem matchAgainst_greedy_mixed :
    GreedyMatch mixedAsks { id := 3, quantity := 50, price := 100 } mixedCore 50
      (matchAgainst mixedAsks { id := 3, quantity := 50, price := 100 } mixedCore 50 7) :=
  matchAgainst_greedy mixedAsks_wellFormed _ (by decide) 7

end HftSdk

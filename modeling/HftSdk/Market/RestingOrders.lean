import HftSdk.Market.OrderBook
import HftSdk.Lib.Sweep
import HftSdk.Lib.Index

/-!
# The lightweight book as lists

Each side of the lightweight book, read as one list of its resting orders in priority order, and what
the operations do to these lists. The quantities and ids of the orders are arbitrary.
-/

namespace HftSdk

open SortedMap Sweep

namespace OrderBook

/-! ## The two sides -/

def levels (ob : OrderBook) : (s : Side) → PriceLevel s
  | .buy => ob.bids_
  | .sell => ob.asks_

/-- The resting orders of a side, best first, each with its level's price and its list node. -/
def flat (ob : OrderBook) (s : Side) : List (Int × ListNode BookOrder) := (ob.levels s).flat

/-- Replace the levels of a side. -/
def setLevels (ob : OrderBook) (s : Side) (m : PriceLevel s) : OrderBook :=
  match s, m with
  | .buy, m => { ob with bids_ := m }
  | .sell, m => { ob with asks_ := m }

theorem flat_setLevels_self (ob : OrderBook) (s : Side) (m : PriceLevel s) :
    (ob.setLevels s m).flat s = m.flat := by
  cases s <;> rfl

theorem flat_setLevels_opp (ob : OrderBook) (s : Side) (m : PriceLevel s) :
    (ob.setLevels s m).flat s.opp = ob.flat s.opp := by
  cases s <;> rfl

/-- What the index should have for a resting order. -/
def entryAt (s : Side) (x : Int × ListNode BookOrder) : OrderId × OrderLocation :=
  (x.2.val.id, ⟨s, x.1, x.2.addr⟩)

def sideEntries (ob : OrderBook) (s : Side) : List (OrderId × OrderLocation) :=
  (ob.flat s).map (entryAt s)

def entries (ob : OrderBook) : List (OrderId × OrderLocation) :=
  ob.sideEntries .buy ++ ob.sideEntries .sell

theorem entries_perm (ob : OrderBook) (s : Side) :
    ob.entries.Perm (ob.sideEntries s ++ ob.sideEntries s.opp) := by
  cases s
  · exact List.Perm.refl _
  · exact List.perm_append_comm

theorem mem_entries {ob : OrderBook} {e : OrderId × OrderLocation} :
    e ∈ ob.entries ↔ ∃ s, ∃ x ∈ ob.flat s, entryAt s x = e := by
  simp only [entries, sideEntries, List.mem_append, List.mem_map]
  constructor
  · rintro (h | h)
    · exact ⟨.buy, h⟩
    · exact ⟨.sell, h⟩
  · rintro ⟨s, h⟩
    cases s
    · exact .inl h
    · exact .inr h

/-- An order with this id is resting. -/
def Rests (ob : OrderBook) (id : OrderId) : Prop := ∃ s, ∃ x ∈ ob.flat s, x.2.val.id = id

theorem rests_iff {ob : OrderBook} {id : OrderId} :
    ob.Rests id ↔ id ∈ ob.entries.map Prod.fst := by
  constructor
  · rintro ⟨s, x, hx, rfl⟩
    exact List.mem_map_of_mem (mem_entries.mpr ⟨s, x, hx, rfl⟩)
  · intro h
    obtain ⟨e, he, rfl⟩ := List.mem_map.mp h
    obtain ⟨s, x, hx, rfl⟩ := mem_entries.mp he
    exact ⟨s, x, hx, rfl⟩

/-! ## Adding -/

/-- The list node of an added order. -/
def placed (ob : OrderBook) (ord : BookOrder) : Int × ListNode BookOrder :=
  (ord.price, ⟨ob.nextAddr, ord⟩)

theorem addOrder_eq (ob : OrderBook) (ord : BookOrder) :
    ob.addOrder ord =
      { ob.setLevels ord.side ((ob.levels ord.side).push ord.price fun _ => ⟨ob.nextAddr, ord⟩) with
        order_index_ := ob.order_index_.insert ord.id ⟨ord.side, ord.price, ob.nextAddr⟩
        nextAddr := ob.nextAddr + 1 } := by
  unfold addOrder
  cases ord.side <;> rfl

theorem flat_addOrder (ob : OrderBook) (ord : BookOrder) :
    (ob.addOrder ord).flat ord.side =
      (ob.flat ord.side).filter (fun x => ¬ ord.side.better ord.price x.1) ++
        ob.placed ord :: (ob.flat ord.side).filter fun x => ord.side.better ord.price x.1 := by
  obtain ⟨_, hflat⟩ := flat_push ord.price (fun _ => (⟨ob.nextAddr, ord⟩ : ListNode BookOrder))
    (ob.levels ord.side)
  rw [addOrder_eq]
  exact (flat_setLevels_self ob ord.side _).trans hflat

theorem flat_addOrder_opp (ob : OrderBook) (ord : BookOrder) :
    (ob.addOrder ord).flat ord.side.opp = ob.flat ord.side.opp := by
  rw [addOrder_eq]
  exact flat_setLevels_opp ob ord.side _

theorem flat_addOrder_perm (ob : OrderBook) (ord : BookOrder) :
    ((ob.addOrder ord).flat ord.side).Perm (ob.placed ord :: ob.flat ord.side) := by
  rw [flat_addOrder]
  refine List.perm_middle.trans (List.Perm.cons _ ?_)
  simp only [decide_not]
  exact List.perm_append_comm.trans (List.filter_append_perm _ _)

/-! ## Canceling -/

theorem flat_eraseFrom {lt : Int → Int → Prop} [Std.Irrefl lt] (m : SortedMap lt Queue) (p : Int)
    (it : Nat) :
    (eraseFrom m p it).flat = m.flat.filter fun x => ¬ (x.1 = p ∧ x.2.addr = it) := by
  rw [flat_filter_unlink]
  unfold eraseFrom
  cases m.lookup p with
  | none => rfl
  | some queue =>
    dsimp only
    split_ifs <;> rfl

theorem cancelOrder_of_none {ob : OrderBook} {id : OrderId}
    (hl : ob.order_index_.lookup id = none) : (ob.cancelOrder id).2 = ob := by
  unfold cancelOrder
  rw [hl]

theorem flat_cancelOrder {ob : OrderBook} {id : OrderId} {loc : OrderLocation}
    (hl : ob.order_index_.lookup id = some loc) (t : Side) :
    (ob.cancelOrder id).2.flat t = (ob.flat t).filter fun x => (entryAt t x).2 ≠ loc := by
  obtain ⟨s, p, it⟩ := loc
  have hself : (ob.flat s).filter (fun x => (entryAt s x).2 ≠ ⟨s, p, it⟩) =
      (ob.flat s).filter fun x => ¬ (x.1 = p ∧ x.2.addr = it) := by
    apply List.filter_congr
    intro x _
    simp [entryAt]
  have hother : ∀ t ≠ s, (ob.flat t).filter (fun x => (entryAt t x).2 ≠ ⟨s, p, it⟩) = ob.flat t := by
    intro t ht
    apply List.filter_eq_self.mpr
    intro x _
    simp [entryAt, ht]
  unfold cancelOrder
  rw [hl]
  cases s <;> cases t
  · exact (flat_eraseFrom ob.bids_ p it).trans hself.symm
  · exact (hother .sell (by decide)).symm
  · exact (hother .buy (by decide)).symm
  · exact (flat_eraseFrom ob.asks_ p it).trans hself.symm

theorem cancelOrder_frame (ob : OrderBook) (id : OrderId) :
    (ob.cancelOrder id).2.order_index_ = ob.order_index_.erase id ∧
      (ob.cancelOrder id).2.nextAddr = ob.nextAddr ∧ (ob.cancelOrder id).2.symbol_ = ob.symbol_ := by
  cases hl : ob.order_index_.lookup id with
  | none =>
    rw [cancelOrder_of_none hl]
    refine ⟨(Finmap.ext_lookup fun k => ?_).symm, rfl, rfl⟩
    by_cases hk : k = id
    · rw [hk, Finmap.lookup_erase, hl]
    · rw [Finmap.lookup_erase_ne hk]
  | some loc =>
    unfold cancelOrder
    rw [hl]
    obtain ⟨s, p, it⟩ := loc
    cases s <;> exact ⟨rfl, rfl, rfl⟩

/-! ## Matching -/

/-- The quantity of a resting order. -/
def qtyAt (x : Int × ListNode BookOrder) : Int := x.2.val.qty

/-- A resting order after a fill. -/
def reduceAt (x : Int × ListNode BookOrder) (m : Int) : Int × ListNode BookOrder :=
  (x.1, ⟨x.2.addr, { x.2.val with qty := x.2.val.qty - m }⟩)

theorem qtyAt_reduceAt (x : Int × ListNode BookOrder) (m : Int) :
    qtyAt (reduceAt x m) = qtyAt x - m := rfl

/-- The trade of a fill. -/
def fillTrade (symbol : Symbol) (incoming : BookOrder) (tsNs : Timestamp)
    (f : (Int × ListNode BookOrder) × Int) : Trade :=
  tradeWith symbol incoming f.1.1 f.1.2.val f.2 tsNs

/-- The index without the orders that the fills used up. -/
def dropUsed (index : Finmap fun _ : OrderId => OrderLocation)
    (fs : List ((Int × ListNode BookOrder) × Int)) : Finmap fun _ : OrderId => OrderLocation :=
  (fs.filter fun f => f.2 = qtyAt f.1).foldl (fun index f => index.erase f.1.2.val.id) index

theorem dropUsed_append (index : Finmap fun _ : OrderId => OrderLocation)
    (fs fs' : List ((Int × ListNode BookOrder) × Int)) :
    dropUsed index (fs ++ fs') = dropUsed (dropUsed index fs) fs' := by
  unfold dropUsed
  rw [List.filter_append, List.foldl_append]

theorem dropUsed_singleton (index : Finmap fun _ : OrderId => OrderLocation)
    (f : (Int × ListNode BookOrder) × Int) :
    dropUsed index [f] = if f.2 = qtyAt f.1 then index.erase f.1.2.val.id else index := by
  unfold dropUsed
  by_cases h : f.2 = qtyAt f.1 <;> simp [h]

/-- A loop over resting orders: the fills change the index and are reported as trades. -/
abbrev IsOrderSweep (symbol : Symbol) (incoming : BookOrder) (tsNs : Timestamp) :=
  IsSweep qtyAt reduceAt dropUsed fun _ fs => fs.map (fillTrade symbol incoming tsNs)

theorem fillByFill (symbol : Symbol) (incoming : BookOrder) (tsNs : Timestamp) :
    FillByFill dropUsed fun _ fs => fs.map (fillTrade symbol incoming tsNs) where
  settle_nil _ := rfl
  settle_append := dropUsed_append
  emit_nil _ := rfl
  emit_append _ _ _ := List.map_append

variable (symbol : Symbol) (incoming : BookOrder) (tsNs : Timestamp)

theorem matchQueue_of_nonpos (p : Int) (queue : Queue)
    (index : Finmap fun _ : OrderId => OrderLocation) {demand : Int} (h : demand ≤ 0) :
    matchQueue symbol incoming tsNs p queue index demand = ⟨queue, index, demand, []⟩ := by
  cases queue with
  | nil => rfl
  | cons n queue => rw [matchQueue, if_neg (by omega)]

theorem matchLevels_of_nonpos (levels : List (Int × Queue))
    (index : Finmap fun _ : OrderId => OrderLocation) {demand : Int} (h : demand ≤ 0) :
    matchLevels symbol incoming tsNs levels index demand = ⟨levels, index, demand, []⟩ := by
  cases levels with
  | nil => rfl
  | cons e levels => rw [matchLevels, if_neg (by omega)]

theorem matchQueue_cons (p : Int) (n : ListNode BookOrder) (queue : Queue)
    (index : Finmap fun _ : OrderId => OrderLocation) {demand : Int} (h : 0 < demand) :
    let m := min demand n.val.qty
    let r := matchQueue symbol incoming tsNs p queue (dropUsed index [((p, n), m)]) (demand - m)
    matchQueue symbol incoming tsNs p (n :: queue) index demand =
      { left := if n.val.qty - m = 0 then r.left else (reduceAt (p, n) m).2 :: r.left
        index := r.index
        remaining := r.remaining
        trades := tradeWith symbol incoming p n.val m tsNs :: r.trades } := by
  intro m r
  have hr : r = matchQueue symbol incoming tsNs p queue
      (if m = n.val.qty then index.erase n.val.id else index) (demand - m) := by
    dsimp only [r]
    rw [dropUsed_singleton]
    rfl
  rw [matchQueue, if_pos h]
  change (if n.val.qty - m = 0 then _ else _) = _
  by_cases hfull : n.val.qty - m = 0
  · rw [if_pos hfull, if_pos hfull, hr, if_pos (by omega)]
  · -- the demand ends here
    rw [if_neg hfull, if_neg hfull, hr, if_neg (by omega),
      matchQueue_of_nonpos _ _ _ _ _ _ (by omega)]
    rfl

theorem matchQueue_exhausted {p : Int} {queue : Queue}
    {index : Finmap fun _ : OrderId => OrderLocation} {demand : Int}
    (h : 0 < (matchQueue symbol incoming tsNs p queue index demand).remaining) :
    (matchQueue symbol incoming tsNs p queue index demand).left = [] := by
  induction queue generalizing index demand with
  | nil => rfl
  | cons n queue ih =>
    by_cases hd : 0 < demand
    · rw [matchQueue_cons symbol incoming tsNs p n queue index hd] at h ⊢
      dsimp only at h ⊢
      by_cases hfull : n.val.qty - min demand n.val.qty = 0
      · rw [if_pos hfull]
        exact ih h
      · rw [matchQueue_of_nonpos _ _ _ _ _ _ (by omega)] at h
        dsimp only at h
        omega
    · rw [matchQueue_of_nonpos _ _ _ _ _ _ (by omega)] at h
      exact absurd h hd

theorem matchLevels_cons (p : Int) (queue : Queue) (levels : List (Int × Queue))
    (index : Finmap fun _ : OrderId => OrderLocation) {demand : Int} (h : 0 < demand)
    (hp : ¬ stopsAt incoming p = true) :
    let q := matchQueue symbol incoming tsNs p queue index demand
    let r := matchLevels symbol incoming tsNs levels q.index q.remaining
    matchLevels symbol incoming tsNs ((p, queue) :: levels) index demand =
      { left := if q.left.isEmpty then r.left else (p, q.left) :: r.left
        index := r.index
        remaining := r.remaining
        trades := q.trades ++ r.trades } := by
  intro q r
  rw [matchLevels, if_pos h, if_neg hp]
  change (if q.left.isEmpty then _ else _) = _
  by_cases hempty : q.left.isEmpty
  · rw [if_pos hempty, if_pos hempty]
  · have hmet : q.remaining ≤ 0 := not_lt.mp fun hrem =>
      hempty (List.isEmpty_iff.mpr (matchQueue_exhausted symbol incoming tsNs hrem))
    rw [if_neg hempty, if_neg hempty, show r = _ from matchLevels_of_nonpos _ _ _ _ _ hmet,
      List.append_nil]

theorem matchQueue_sweeps (p : Int) (queue : Queue)
    (index : Finmap fun _ : OrderId => OrderLocation) (demand : Int) :
    let r := matchQueue symbol incoming tsNs p queue index demand
    IsOrderSweep symbol incoming tsNs (queue.map (Prod.mk p)) [] index demand (r.left.map (Prod.mk p))
      r.index r.remaining r.trades := by
  have hfills := fillByFill symbol incoming tsNs
  dsimp only
  induction queue generalizing index demand with
  | nil => exact hfills.sweep_nil _ _ [] index demand
  | cons n queue ih =>
    by_cases h : 0 < demand
    · have hturn := hfills.sweep_cons _ _ h (a := (p, n))
        (ih (dropUsed index [((p, n), min demand n.val.qty)]) (demand - min demand n.val.qty))
      rw [matchQueue_cons symbol incoming tsNs p n queue index h]
      dsimp only
      rw [apply_ite (List.map (Prod.mk p))]
      exact hturn
    · have hnone := hfills.sweep_of_nonpos qtyAt reduceAt ((n :: queue).map (Prod.mk p)) [] index
        (not_lt.mp h)
      rw [List.append_nil] at hnone
      rw [matchQueue_of_nonpos _ _ _ _ _ _ (not_lt.mp h)]
      exact hnone

/-- The orders at the levels up to the first that stops the walk, and those from there on. -/
def within (levels : List (Int × Queue)) : List (Int × ListNode BookOrder) :=
  flatList (levels.takeWhile fun e => !stopsAt incoming e.1)

def beyond (levels : List (Int × Queue)) : List (Int × ListNode BookOrder) :=
  flatList (levels.dropWhile fun e => !stopsAt incoming e.1)

theorem within_append_beyond (levels : List (Int × Queue)) :
    within incoming levels ++ beyond incoming levels = flatList levels := by
  unfold within beyond
  rw [← flatList_append, List.takeWhile_append_dropWhile]

theorem matchLevels_sweeps (levels : List (Int × Queue))
    (index : Finmap fun _ : OrderId => OrderLocation) (demand : Int) :
    let r := matchLevels symbol incoming tsNs levels index demand
    IsOrderSweep symbol incoming tsNs (within incoming levels) (beyond incoming levels) index demand
      (flatList r.left) r.index r.remaining r.trades := by
  have hfills := fillByFill symbol incoming tsNs
  dsimp only
  induction levels generalizing index demand with
  | nil => exact hfills.sweep_nil _ _ [] index demand
  | cons e levels ih =>
    obtain ⟨p, queue⟩ := e
    by_cases h : 0 < demand
    · by_cases hp : stopsAt incoming p = true
      · have hw : within incoming ((p, queue) :: levels) = [] := by simp [within, hp]
        have hb : beyond incoming ((p, queue) :: levels) = flatList ((p, queue) :: levels) := by
          simp [beyond, hp]
        rw [matchLevels, if_pos h, if_pos hp, hw, hb]
        exact hfills.sweep_nil _ _ _ index demand
      · have hw : within incoming ((p, queue) :: levels) =
            queue.map (Prod.mk p) ++ within incoming levels := by
          simp [within, hp]
        have hb : beyond incoming ((p, queue) :: levels) = beyond incoming levels := by
          simp [beyond, hp]
        have hboth := hfills.sweep_append _ _
          (matchQueue_sweeps symbol incoming tsNs p queue index demand) (ih _ _)
        rw [matchLevels_cons symbol incoming tsNs p queue levels index h hp, hw, hb]
        dsimp only
        generalize matchQueue symbol incoming tsNs p queue index demand = q at hboth
        split_ifs with hempty
        · rw [List.isEmpty_iff.mp hempty, List.map_nil, List.nil_append] at hboth
          exact hboth
        · rw [flatList_cons]
          exact hboth
    · have hnone := hfills.sweep_of_nonpos qtyAt reduceAt (within incoming ((p, queue) :: levels))
        (beyond incoming ((p, queue) :: levels)) index (not_lt.mp h)
      rw [within_append_beyond] at hnone
      rw [matchLevels_of_nonpos _ _ _ _ _ (not_lt.mp h)]
      exact hnone

/-- The orders of a side that an incoming order may trade with, in priority order. -/
def tradable (ob : OrderBook) (incoming : BookOrder) : List (Int × ListNode BookOrder) :=
  within incoming (ob.levels incoming.side.opp).entries

theorem flat_opp_eq (ob : OrderBook) : ob.flat incoming.side.opp =
    ob.tradable incoming ++ beyond incoming (ob.levels incoming.side.opp).entries :=
  (within_append_beyond incoming _).symm

theorem matchIncoming_eq (ob : OrderBook) :
    let fs := fills qtyAt incoming.qty (ob.tradable incoming)
    let r := ob.matchIncoming incoming tsNs
    r.1 = (fs.map (fillTrade ob.symbol_ incoming tsNs), incoming.qty - taken fs) ∧
      r.2.flat incoming.side.opp = residue qtyAt reduceAt incoming.qty (ob.tradable incoming) ++
        beyond incoming (ob.levels incoming.side.opp).entries ∧
      r.2.flat incoming.side = ob.flat incoming.side ∧
      r.2.order_index_ = dropUsed ob.order_index_ fs ∧ r.2.nextAddr = ob.nextAddr ∧
      r.2.symbol_ = ob.symbol_ := by
  unfold tradable matchIncoming
  cases hs : incoming.side with
  | buy =>
    obtain ⟨hi, hr, ht, hl⟩ := matchLevels_sweeps ob.symbol_ incoming tsNs ob.asks_.entries
      ob.order_index_ incoming.qty
    exact ⟨Prod.ext ht hr, hl, rfl, hi, rfl, rfl⟩
  | sell =>
    obtain ⟨hi, hr, ht, hl⟩ := matchLevels_sweeps ob.symbol_ incoming tsNs ob.bids_.entries
      ob.order_index_ incoming.qty
    exact ⟨Prod.ext ht hr, hl, rfl, hi, rfl, rfl⟩

end OrderBook

end HftSdk

import HftSdk.Orderbook.Invariants
import HftSdk.Lib.SweepCost
import HftSdk.Lib.Debits

/-!
# Open orders

What matters of a resting order to anyone but the book: its id and owner, its price and its open
quantity, however that is split into displayed and hidden. A sweep of the quotes of a side is a sweep
of the open orders (`openOrders_afterMatch`), and there using an order twice is using it for the sum.
-/

namespace HftSdk

open Sweep PriorityList

/-- A resting order as others see it. -/
structure OpenOrder where
  id : OrderId
  traderId : TraderId
  price : Int
  openQty : Int
  clOrdId : CharBuf 20
deriving DecidableEq

namespace OpenOrder

/-- The order after a trade. -/
def reduce (o : OpenOrder) (qty : Int) : OpenOrder := { o with openQty := o.openQty - qty }

def of (q : Quote) : OpenOrder :=
  ⟨q.order.id, q.order.traderId, q.price, q.openQty, q.order.clOrdId⟩

theorem of_openQty (q : Quote) : (of q).openQty = q.openQty := rfl

theorem reduce_openQty (o : OpenOrder) (qty : Int) : (o.reduce qty).openQty = o.openQty - qty := rfl

theorem reduce_reduce (o : OpenOrder) (m n : Int) : (o.reduce m).reduce n = o.reduce (m + n) := by
  unfold reduce
  rw [Int.sub_sub]

theorem of_fill (q : Quote) (m : Int) : of (q.fill m) = (of q).reduce m := by
  unfold of reduce
  rw [Quote.fill_openQty]
  unfold Quote.fill
  rw [L3Order.fill_frame]

end OpenOrder

/-- The orders of one symbol, best first on each side. -/
abbrev OpenOrders := Side → List OpenOrder

/-! ## The orders of a book -/

/-- The resting orders, read off the book. -/
def L3OrderBook.openOrders (b : L3OrderBook) : OpenOrders := fun s =>
  (b.levels s).entries.flatMap fun e => e.2.map fun n =>
    ⟨n.val.id, n.val.traderId, e.1, n.val.openQty, n.val.clOrdId⟩

/-- The same of a ladder. -/
def Ladder.openOrders (L : Ladder) : OpenOrders := fun s => (L.side s).map OpenOrder.of

theorem openOrders_quotes (es : List (Int × OrderQueue)) :
    (es.flatMap fun e => e.2.map fun n =>
      (⟨n.val.id, n.val.traderId, e.1, n.val.openQty, n.val.clOrdId⟩ : OpenOrder)) =
      (quotes es).map OpenOrder.of := by
  induction es with
  | nil => rfl
  | cons e es ih =>
    rw [quotes_cons, List.flatMap_cons, List.map_append, ih, List.map_map]
    rfl

theorem L3OrderBook.openOrders_eq (b : L3OrderBook) : b.openOrders = b.ladder.openOrders :=
  funext fun s => openOrders_quotes (b.levels s).entries

/-- The open orders that an order may trade with. -/
def goodFor (o : Order) (l : List OpenOrder) : List OpenOrder :=
  l.filter fun x => !beyondLimit o x.price

def badFor (o : Order) (l : List OpenOrder) : List OpenOrder := l.filter fun x => beyondLimit o x.price

/-- What is left of a side when an order takes `qty` from it. -/
def sweepSide (o : Order) (qty : Int) (l : List OpenOrder) : List OpenOrder :=
  residue OpenOrder.openQty OpenOrder.reduce qty (goodFor o l) ++ badFor o l

/-! ## What the lists of a book are like -/

namespace OpenOrders

/-- Two sides of a market: every order has something open and an id of its own, the better ones come
first, and no buyer meets a seller. -/
structure Sound (c : OpenOrders) : Prop where
  pos : ∀ s, ∀ x ∈ c s, 0 < x.openQty
  sorted : ∀ s, (c s).Pairwise fun x y => ¬ s.better y.price x.price
  nodup : ∀ s, ((c s).map OpenOrder.id).Nodup
  disjoint : ∀ x ∈ c .buy, ∀ y ∈ c .sell, x.id ≠ y.id
  uncrossed : ∀ x ∈ c .buy, ∀ y ∈ c .sell, x.price < y.price

variable {c : OpenOrders}

theorem Sound.goodFor_pos (h : c.Sound) (o : Order) :
    ∀ x ∈ goodFor o (c o.side.opp), 0 < x.openQty := fun x hx =>
  h.pos _ x (List.mem_of_mem_filter hx)

theorem Sound.good_append_bad (h : c.Sound) (o : Order) :
    goodFor o (c o.side.opp) ++ badFor o (c o.side.opp) = c o.side.opp := by
  have hcut : (c o.side.opp).Pairwise fun x y =>
      (!beyondLimit o y.price) = true → (!beyondLimit o x.price) = true := by
    refine (h.sorted o.side.opp).imp fun {x y} hxy hy => ?_
    rcases trichotomous_of o.side.opp.better x.price y.price with hb | hb | hb
    · exact beyondLimit_mono hb hy
    · rwa [hb]
    · exact absurd hb hxy
  simpa only [goodFor, badFor, Bool.not_not] using filter_append_filter_not hcut

end OpenOrders

namespace Ladder

variable {L : Ladder}

theorem Inv.sound_openOrders (h : L.Inv) : L.openOrders.Sound where
  pos s x hx := by
    obtain ⟨q, hq, rfl⟩ := List.mem_map.mp hx
    exact (h.sound s q hq).pos
  sorted s := by
    unfold openOrders
    rw [List.pairwise_map]
    refine (h.ordered s).imp fun {q r} hqr => ?_
    rcases hqr with hbetter | ⟨hsame, -⟩
    · exact asymm_of s.better hbetter
    · unfold OpenOrder.of
      rw [hsame]
      exact irrefl_of s.better r.price
  nodup s := by
    have hsub : (L.side s).Sublist L.all := by
      cases s
      · exact List.sublist_append_left _ _
      · exact List.sublist_append_right _ _
    rw [openOrders, List.map_map]
    exact h.ids.sublist (hsub.map _)
  disjoint x hx y hy hid := by
    obtain ⟨q, hq, rfl⟩ := List.mem_map.mp hx
    obtain ⟨r, hr, rfl⟩ := List.mem_map.mp hy
    obtain rfl := h.eq_of_id (mem_all.mpr ⟨_, hq⟩) (mem_all.mpr ⟨_, hr⟩) hid
    exact Side.noConfusion ((h.sound _ q hq).side.symm.trans (h.sound _ q hr).side)
  uncrossed x hx y hy := by
    obtain ⟨q, hq, rfl⟩ := List.mem_map.mp hx
    obtain ⟨r, hr, rfl⟩ := List.mem_map.mp hy
    exact h.uncrossed q hq r hr

theorem map_tradable (o : Order) (l : List Quote) :
    (tradable o l).map OpenOrder.of = goodFor o (l.map OpenOrder.of) := by
  unfold tradable goodFor
  rw [List.filter_map]
  rfl

theorem map_untradable (o : Order) (l : List Quote) :
    (untradable o l).map OpenOrder.of = badFor o (l.map OpenOrder.of) := by
  unfold untradable badFor
  rw [List.filter_map]
  rfl

theorem map_fillsOf (L : Ladder) (o : Order) :
    (L.fillsOf o).map (Prod.map OpenOrder.of id) =
      fills OpenOrder.openQty (L.demand o) (goodFor o (L.openOrders o.side.opp)) := by
  unfold fillsOf openOrders
  rw [← fills_map Quote.openQty OpenOrder.of_openQty, map_tradable]

theorem openOrders_afterMatch (L : Ladder) (o : Order) :
    (L.afterMatch o).openOrders = Function.update L.openOrders o.side.opp
      (sweepSide o (L.demand o) (L.openOrders o.side.opp)) := by
  funext s
  rcases (o.side.eq_or_eq_opp s).symm with rfl | rfl
  · rw [Function.update_self, sweepSide]
    unfold openOrders
    rw [afterMatch, set_side, List.map_append, ← map_tradable, ← map_untradable,
      residue_map OpenOrder.of_openQty OpenOrder.of_fill]
  · rw [Function.update_of_ne o.side.opp_ne.symm, openOrders, openOrders, afterMatch, set_opp_side]

end Ladder

theorem L3OrderBook.RepInv.sound_openOrders {b : L3OrderBook} (h : b.RepInv) : b.openOrders.Sound := by
  rw [b.openOrders_eq]
  exact h.inv.sound_openOrders

end HftSdk

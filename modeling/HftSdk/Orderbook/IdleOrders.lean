import HftSdk.Orderbook.OpenBook
import HftSdk.Lib.Noninterference

/-!
# Orders that never trade

An order that never trades leaves no trace in what happens to the others, whatever is done with it: it
may be submitted, canceled, replaced and submitted again, of any type and size, and rest in front of
others that trade. `answers_without`: leave out all calls that name its id, and every other call is
answered as before, with the same deals; only the order itself is missing among the open ones. Its
open quantity may have counted for a fill-or-kill order, but what such an order takes it finds in
front of it.
-/

namespace HftSdk

open Sweep PriorityList

/-- The order that a call is about. -/
def BookOp.orderId : BookOp → OrderId
  | .add o _ => o.id
  | .cancel id _ => id
  | .replace req _ => req.orderId

/-- This order has no part in a deal. -/
def Deal.Spares (d : Deal) (id : OrderId) : Prop := d.restingId ≠ id ∧ d.incomingId ≠ id

instance (d : Deal) (id : OrderId) : Decidable (d.Spares id) := inferInstanceAs (Decidable (_ ∧ _))

namespace OpenOrders

variable {c : OpenOrders} {o : Order} {g : OrderId}

/-! ## Lists without the order -/

theorem sideOf_erase_of_ne {id : OrderId} (h : id ≠ g) : (c.erase g).sideOf id = c.sideOf id := by
  have hsame : ∀ s, (∃ x ∈ c.erase g s, x.id = id) ↔ ∃ x ∈ c s, x.id = id := by
    intro s
    constructor
    · rintro ⟨x, hx, hid⟩
      exact ⟨x, List.mem_of_mem_filter hx, hid⟩
    · rintro ⟨x, hx, rfl⟩
      exact ⟨x, List.mem_filter.mpr ⟨hx, decide_eq_true h⟩, rfl⟩
  unfold sideOf
  simp only [hsame]

theorem erase_comm (c : OpenOrders) (id : OrderId) : (c.erase g).erase id = (c.erase id).erase g := by
  funext s
  exact List.filter_comm _ _ _

theorem goodFor_erase (o : Order) (l : List OpenOrder) :
    goodFor o (l.filter fun x => x.id ≠ g) = (goodFor o l).filter fun x => x.id ≠ g :=
  List.filter_comm _ _ _

theorem badFor_erase (o : Order) (l : List OpenOrder) :
    badFor o (l.filter fun x => x.id ≠ g) = (badFor o l).filter fun x => x.id ≠ g :=
  List.filter_comm _ _ _

theorem insert_erase {s : Side} {x : OpenOrder} (hx : x.id ≠ g) :
    (c.insert s x).erase g = (c.erase g).insert s x := by
  funext s'
  unfold OpenOrders.insert OpenOrders.erase
  rcases s.eq_or_eq_opp s' with rfl | rfl
  · rw [Function.update_self, Function.update_self]
    exact filter_place_of_pos (p := fun y : OpenOrder => y.id ≠ g) (decide_eq_true hx) _
  · rw [Function.update_of_ne s.opp_ne, Function.update_of_ne s.opp_ne]

/-! ## A sweep that does not reach the order -/

section Spared
variable (hspared : ∀ x ∈ c.fillsOf o, x.1.id ≠ g)
include hspared

theorem spared_give : ∀ x ∈ fills OpenOrder.openQty (c.demand o) (goodFor o (c o.side.opp)),
    decide (x.1.id ≠ g) = true := fun x hx => decide_eq_true (hspared x hx)

theorem Sound.demand_erase (h : c.Sound) : (c.erase g).demand o = c.demand o := by
  have hpos : ∀ x ∈ goodFor o (c o.side.opp), 0 < x.openQty := fun x hx =>
    h.pos _ x (List.mem_of_mem_filter hx)
  have hle : (c.erase g).liquidity o ≤ c.liquidity o := by
    unfold liquidity OpenOrders.erase
    rw [goodFor_erase]
    exact total_filter_le hpos
  have hgive := spared_give hspared
  unfold demand at hgive ⊢
  by_cases hkill : o.tif = .fok ∧ c.liquidity o < o.quantity
  · rw [if_pos hkill, if_pos ⟨hkill.1, hle.trans_lt hkill.2⟩]
  · rw [if_neg hkill] at hgive ⊢
    apply if_neg
    rintro ⟨hfok, hlt⟩
    have hmet : o.quantity ≤ c.liquidity o := not_lt.mp fun hlt => hkill ⟨hfok, hlt⟩
    have hmet' := le_total_filter (p := fun x => x.id ≠ g) OpenOrder.reduce_openQty hpos hgive hmet
    rw [← goodFor_erase] at hmet'
    exact absurd hlt (not_lt.mpr hmet')

theorem Sound.fillsOf_erase (h : c.Sound) : (c.erase g).fillsOf o = c.fillsOf o := by
  unfold fillsOf
  rw [h.demand_erase hspared, OpenOrders.erase, goodFor_erase]
  exact fills_filter (spared_give hspared)

theorem Sound.sweep_erase (h : c.Sound) : (c.erase g).sweep o = (c.sweep o).erase g := by
  have hside : sweepSide o (c.demand o) (c.erase g o.side.opp) =
      (sweepSide o (c.demand o) (c o.side.opp)).filter fun x => x.id ≠ g := by
    unfold sweepSide OpenOrders.erase
    rw [goodFor_erase, badFor_erase, List.filter_append]
    exact congrArg (· ++ _) (residue_filter (fun _ _ => rfl) (spared_give hspared))
  unfold sweep
  rw [h.demand_erase hspared, hside]
  funext s
  unfold OpenOrders.erase
  rcases (o.side.eq_or_eq_opp s).symm with rfl | rfl
  · rw [Function.update_self, Function.update_self]
  · rw [Function.update_of_ne o.side.opp_ne.symm, Function.update_of_ne o.side.opp_ne.symm]

theorem Sound.remainder_erase (h : c.Sound) : (c.erase g).remainder o = c.remainder o := by
  unfold remainder
  rw [h.fillsOf_erase hspared]

end Spared

theorem Sound.submit_erase (h : c.Sound) (hid : o.id ≠ g)
    (hspared : ∀ d ∈ (c.submit o).1.deals, d.Spares g) :
    (c.erase g).submit o = ((c.submit o).1, (c.submit o).2.erase g) := by
  unfold submit at hspared ⊢
  rw [sideOf_erase_of_ne hid]
  by_cases hdup : (c.sideOf o.id).isSome
  · rw [if_pos hdup, if_pos hdup]
  · rw [if_neg hdup] at hspared ⊢
    have hfills : ∀ x ∈ c.fillsOf o, x.1.id ≠ g := fun x hx =>
      (hspared (dealOf o x) (List.mem_map_of_mem hx)).1
    have hrests : (c.erase g).Rests o ↔ c.Rests o := by
      unfold Rests
      rw [h.remainder_erase hfills]
    rw [if_neg hdup, h.remainder_erase hfills, h.fillsOf_erase hfills, h.sweep_erase hfills]
    simp only [hrests]
    split_ifs
    · rw [insert_erase hid]
    · rfl

/-! ## The order itself -/

theorem Sound.erase_insert (h : c.Sound) (s : Side) (x : OpenOrder) :
    (c.insert s x).erase x.id = c.erase x.id := by
  have hworse : (c s).Pairwise fun y z =>
      !decide (s.better x.price z.price) → !decide (s.better x.price y.price) := by
    refine (h.sorted s).imp fun {y z} hyz hz => ?_
    have hz : ¬ s.better x.price z.price := by simpa using hz
    have hy : ¬ s.better x.price y.price := by
      cases s <;> simp only [Side.better] at hyz hz ⊢ <;> omega
    simpa using hy
  funext s'
  unfold OpenOrders.insert OpenOrders.erase
  rcases s.eq_or_eq_opp s' with rfl | rfl
  · rw [Function.update_self]
    exact filter_place (by simp) hworse
  · rw [Function.update_of_ne s.opp_ne]

theorem Sound.erase_submit (h : c.Sound) (hnone : (c.submit o).1.deals = []) :
    (c.submit o).2.erase o.id = c.erase o.id := by
  unfold submit at hnone ⊢
  by_cases hdup : (c.sideOf o.id).isSome
  · rw [if_pos hdup]
  · rw [if_neg hdup] at hnone ⊢
    have hfills : c.fillsOf o = [] := List.map_eq_nil_iff.mp hnone
    have hsweep : c.sweep o = c := by
      rw [sweep, sweepSide, residue_of_fills_eq_nil hfills, h.good_append_bad,
        Function.update_eq_self]
    rw [hsweep]
    dsimp only
    split_ifs
    · exact h.erase_insert o.side (ofOrder o (c.remainder o))
    · rfl

theorem incomingId_submit (c : OpenOrders) (o : Order) :
    ∀ d ∈ (c.submit o).1.deals, d.incomingId = o.id := by
  intro d hd
  unfold submit at hd
  by_cases hdup : (c.sideOf o.id).isSome
  · rw [if_pos hdup] at hd
    cases hd
  · rw [if_neg hdup] at hd
    obtain ⟨x, -, rfl⟩ := List.mem_map.mp hd
    rfl

/-! ## One call -/

theorem Sound.step_erase (h : c.Sound) {op : BookOp} (hop : op.orderId ≠ g)
    (hspared : ∀ d ∈ (c.step op).1.deals, d.Spares g) :
    (c.erase g).step op = ((c.step op).1, (c.step op).2.erase g) := by
  cases op with
  | add o ts => exact h.submit_erase hop hspared
  | cancel id ts =>
    have hid : id ≠ g := hop
    unfold step cancel
    dsimp only
    rw [sideOf_erase_of_ne hid, erase_comm]
    split_ifs <;> rfl
  | replace req ts =>
    have hreq : req.orderId ≠ g := hop
    unfold step replace at hspared ⊢
    dsimp only at hspared ⊢
    rw [sideOf_erase_of_ne hreq]
    cases hside : c.sideOf req.orderId with
    | none => rfl
    | some s =>
      rw [hside] at hspared
      dsimp only at hspared ⊢
      rw [erase_comm]
      exact (h.erase req.orderId).submit_erase hreq hspared

theorem Sound.erase_step (h : c.Sound) {op : BookOp} (hop : op.orderId = g)
    (hspared : ∀ d ∈ (c.step op).1.deals, d.Spares g) : (c.step op).2.erase g = c.erase g := by
  have hnone : ∀ (c : OpenOrders) (o : Order), o.id = g →
      (∀ d ∈ (c.submit o).1.deals, d.Spares g) → (c.submit o).1.deals = [] := by
    intro c o hid hspared
    apply List.eq_nil_iff_forall_not_mem.mpr
    intro d hd
    exact (hspared d hd).2 ((c.incomingId_submit o d hd).trans hid)
  subst hop
  cases op with
  | add o ts => exact h.erase_submit (hnone c o rfl hspared)
  | cancel id ts =>
    unfold step cancel BookOp.orderId
    dsimp only
    split_ifs
    · exact c.erase_erase id
    · rfl
  | replace req ts =>
    unfold step replace BookOp.orderId at hspared ⊢
    dsimp only at hspared ⊢
    cases hside : c.sideOf req.orderId with
    | none => rfl
    | some s =>
      rw [hside] at hspared
      dsimp only at hspared ⊢
      have hsubmit := (h.erase req.orderId).erase_submit
        (o := L3OrderBook.replacement req s ts) (hnone _ _ rfl hspared)
      exact hsubmit.trans (c.erase_erase req.orderId)

end OpenOrders

/-! ## Runs -/

namespace L3OrderBook

/-- A book and one that never heard of the order. -/
structure Without (g : OrderId) (b b' : L3OrderBook) : Prop where
  repInv : b.RepInv
  repInv' : b'.RepInv
  openOrders : b'.openOrders = b.openOrders.erase g

/-- **An order that never trades may be left out**: without the calls about it, the others are
answered as they were, and the open orders are those of the others. -/
theorem answers_without (symbol : Symbol) (ops : List BookOp) (g : OrderId)
    (hspared : ∀ a ∈ Run.outputs answerStep (create symbol) ops, ∀ d ∈ a.deals, d.Spares g) :
    Run.observed answerStep (fun op => op.orderId ≠ g) (create symbol) ops =
        Run.outputs answerStep (create symbol) (ops.filter fun op => op.orderId ≠ g) ∧
      ((create symbol).run (ops.filter fun op => op.orderId ≠ g)).openOrders =
        ((create symbol).run ops).openOrders.erase g := by
  have hstep : ∀ (b b' : L3OrderBook) (op : BookOp), Without g b b' →
      (∀ d ∈ (b.answerStep op).1.deals, d.Spares g) → op.orderId ≠ g →
      (b.answerStep op).1 = (b'.answerStep op).1 ∧
        Without g (b.answerStep op).2 (b'.answerStep op).2 := by
    intro b b' op h hspared hop
    have hcall := h.repInv.step_openOrders op
    have hcall' := h.repInv'.step_openOrders op
    have herase := h.repInv.sound_openOrders.step_erase hop (by rwa [hcall])
    rw [← h.openOrders, hcall', hcall] at herase
    obtain ⟨hanswer, hopen⟩ := Prod.mk.inj herase
    exact ⟨hanswer.symm, (h.repInv.step op).2, (h.repInv'.step op).2, hopen⟩
  have hskip : ∀ (b b' : L3OrderBook) (op : BookOp), Without g b b' →
      (∀ d ∈ (b.answerStep op).1.deals, d.Spares g) → ¬ op.orderId ≠ g →
      Without g (b.answerStep op).2 b' := by
    intro b b' op h hspared hop
    have hcall := h.repInv.step_openOrders op
    have herase := h.repInv.sound_openOrders.erase_step (not_not.mp hop) (by rwa [hcall])
    rw [hcall, ← h.openOrders] at herase
    exact ⟨(h.repInv.step op).2, h.repInv', herase.symm⟩
  have hcreate : Without g (create symbol) (create symbol) := by
    refine ⟨repInv_create symbol, repInv_create symbol, ?_⟩
    funext s
    cases s <;> rfl
  have halong := Run.along_of_outputs hspared
  obtain ⟨hanswers, hwithout⟩ := Run.observed_of_along hskip hstep halong hcreate
  exact ⟨hanswers, hwithout.openOrders⟩

/-- A bid for much, behind a better one, that only a fill-or-kill order looks at. -/
def idleBid : List BookOp :=
  [.add { id := 1, price := 12, quantity := 5 } 0, .add { id := 2, price := 10, quantity := 50 } 1,
    .add { id := 3, side := .sell, tif := .fok, price := 10, quantity := 5 } 2]

theorem answers_without_idleBid :
    Run.observed answerStep (fun op => op.orderId ≠ 2) (create {}) idleBid =
        Run.outputs answerStep (create {}) (idleBid.filter fun op => op.orderId ≠ 2) ∧
      ((create {}).run (idleBid.filter fun op => op.orderId ≠ 2)).openOrders =
        ((create {}).run idleBid).openOrders.erase 2 :=
  answers_without {} idleBid 2 (by decide)

end L3OrderBook

end HftSdk

import HftSdk.Orderbook.OpenBook

/-!
# Snapshots

The open orders of a book, submitted to an empty one from the best to the worst, each for what is
open of it, come to rest as they stood and trade with nobody (`Sound.restore`). As open orders are all
there is to a book, the new one then goes on as the old one would have (`restored_goes_on`).
-/

namespace HftSdk

open Sweep PriorityList

/-- The limit order that comes to rest as `x`. -/
def OpenOrder.reenter (x : OpenOrder) (s : Side) : Order where
  id := x.id
  traderId := x.traderId
  side := s
  type := .limit
  tif := .gtc
  price := x.price
  quantity := x.openQty
  clOrdId := x.clOrdId

namespace OpenOrders

variable {c d : OpenOrders}

/-- The submission of the orders of one side. -/
def reenterSide (s : Side) (l : List OpenOrder) (ts : Timestamp) : List BookOp :=
  l.map fun x => .add (x.reenter s) ts

/-- The submission of all orders, bids first. -/
def reentries (c : OpenOrders) (ts : Timestamp) : List BookOp :=
  reenterSide .buy (c .buy) ts ++ reenterSide .sell (c .sell) ts

theorem Sound.sublist (h : c.Sound) (hsub : ∀ s, (d s).Sublist (c s)) : d.Sound where
  pos s x hx := h.pos s x ((hsub s).subset hx)
  sorted s := (h.sorted s).sublist (hsub s)
  nodup s := (h.nodup s).sublist ((hsub s).map _)
  disjoint x hx y hy := h.disjoint x ((hsub _).subset hx) y ((hsub _).subset hy)
  uncrossed x hx y hy := h.uncrossed x ((hsub _).subset hx) y ((hsub _).subset hy)

theorem Sound.better_opp (h : c.Sound) {s : Side} {x y : OpenOrder} (hx : x ∈ c s)
    (hy : y ∈ c s.opp) : s.opp.better x.price y.price := by
  cases s with
  | buy => exact h.uncrossed x hx y hy
  | sell => exact h.uncrossed y hy x hx

theorem submit_reenter {s : Side} {x : OpenOrder} (hpos : 0 < x.openQty)
    (hnew : c.sideOf x.id = none) (hopp : ∀ y ∈ c s.opp, s.opp.better x.price y.price)
    (hlast : ∀ y ∈ c s, ¬ s.better x.price y.price) : c.submit (x.reenter s) =
      ({ status := .new, leavesQty := x.openQty }, Function.update c s (c s ++ [x])) := by
  have hbeyond : ∀ y ∈ c s.opp, beyondLimit (x.reenter s) y.price = true := fun y hy =>
    (Ladder.beyondLimit_iff rfl y.price).mpr (hopp y hy)
  have hgood : goodFor (x.reenter s) (c s.opp) = [] :=
    List.filter_eq_nil_iff.mpr fun y hy => by simp [hbeyond y hy]
  have hbad : badFor (x.reenter s) (c s.opp) = c s.opp := List.filter_eq_self.mpr hbeyond
  have hfills : c.fillsOf (x.reenter s) = [] := by
    rw [fillsOf, show (x.reenter s).side = s from rfl, hgood, fills]
  have hrem : c.remainder (x.reenter s) = x.openQty := by
    rw [remainder, hfills, taken_nil]
    exact Int.sub_zero _
  have hsweep : c.sweep (x.reenter s) = c := by
    rw [sweep, sweepSide, show (x.reenter s).side = s from rfl, hgood, hbad, residue, List.nil_append,
      Function.update_eq_self]
  have hrests : c.Rests (x.reenter s) := ⟨by rwa [hrem], rfl, Or.inr rfl⟩
  have hplace : place (fun y : OpenOrder => s.better x.price y.price) x (c s) = c s ++ [x] := by
    have hbefore : (c s).filter (fun y => !decide (s.better x.price y.price)) = c s :=
      List.filter_eq_self.mpr fun y hy => by simp [hlast y hy]
    have hbehind : (c s).filter (fun y => s.better x.price y.price) = [] :=
      List.filter_eq_nil_iff.mpr fun y hy => by simp [hlast y hy]
    rw [place, hbefore, hbehind]
  have hnone : (c.sideOf (x.reenter s).id).isSome = false := by
    rw [show (x.reenter s).id = x.id from rfl, hnew]
    rfl
  have hreport : L3OrderBook.reported (x.reenter s) x.openQty = (.new, 0, x.openQty, .none) := by
    unfold L3OrderBook.reported OpenOrder.reenter
    simp [hpos.ne']
  rw [submit, if_neg (by simp [hnone]), if_pos hrests, hrem, hreport, hfills, hsweep, insert]
  exact congrArg (fun l => (_, Function.update c s l)) hplace

theorem Sound.reenterSide {s : Side} {l : List OpenOrder}
    (h : Sound (Function.update c s (c s ++ l))) (ts : Timestamp) :
    Run.final step c (OpenOrders.reenterSide s l ts) = Function.update c s (c s ++ l) ∧
      ∀ a ∈ Run.outputs step c (OpenOrders.reenterSide s l ts), a.deals = [] := by
  induction l generalizing c with
  | nil =>
    rw [List.append_nil, Function.update_eq_self]
    exact ⟨rfl, fun a ha => absurd ha List.not_mem_nil⟩
  | cons x l ih =>
    set d := Function.update c s (c s ++ x :: l) with hd
    have hself : d s = c s ++ x :: l := Function.update_self ..
    have hopp : d s.opp = c s.opp := Function.update_of_ne s.opp_ne ..
    have hx : x ∈ d s := by
      rw [hself]
      exact List.mem_append_right _ List.mem_cons_self
    have hsorted := h.sorted s
    have hnodup := h.nodup s
    rw [hself] at hsorted hnodup
    rw [List.map_append, List.map_cons] at hnodup
    have hnew : c.sideOf x.id = none := by
      rw [sideOf_eq_none_iff]
      intro s' y hy hid
      rcases s.eq_or_eq_opp s' with rfl | rfl
      · have hdisj := List.disjoint_of_nodup_append hnodup
        exact hdisj (List.mem_map_of_mem hy) (hid ▸ List.mem_cons_self)
      · have hsame := (h.sideOf_eq hx).symm.trans (hid ▸ h.sideOf_eq (hopp ▸ hy))
        exact s.opp_ne (Option.some_inj.mp hsame).symm
    have hstep : c.step (.add (x.reenter s) ts) =
        ({ status := .new, leavesQty := x.openQty }, Function.update c s (c s ++ [x])) := by
      refine submit_reenter (h.pos s x hx) hnew (fun y hy => h.better_opp hx (hopp ▸ hy)) ?_
      intro y hy
      exact (List.pairwise_append.mp hsorted).2.2 y hy x List.mem_cons_self
    have htarget : Function.update (Function.update c s (c s ++ [x])) s
        (Function.update c s (c s ++ [x]) s ++ l) = d := by
      rw [Function.update_self, Function.update_idem, List.append_assoc, hd]
      rfl
    obtain ⟨hfinal, hdeals⟩ := ih (c := Function.update c s (c s ++ [x])) (by rwa [htarget])
    rw [htarget] at hfinal
    have hcons : OpenOrders.reenterSide s (x :: l) ts =
        .add (x.reenter s) ts :: OpenOrders.reenterSide s l ts := rfl
    rw [hcons, Run.final_cons, Run.outputs, hstep]
    exact ⟨hfinal, List.forall_mem_cons.mpr ⟨rfl, hdeals⟩⟩

/-- **Restoring a snapshot** on empty lists. -/
theorem Sound.restore (h : c.Sound) (ts : Timestamp) :
    Run.final step .empty (c.reentries ts) = c ∧
      ∀ a ∈ Run.outputs step .empty (c.reentries ts), a.deals = [] := by
  have hbids : Sound (Function.update empty .buy (c .buy)) := h.sublist fun s => by
    cases s with
    | buy => exact List.Sublist.refl _
    | sell => exact List.nil_sublist _
  have hboth : Function.update (Function.update empty .buy (c .buy)) .sell (c .sell) = c := by
    funext s
    cases s <;> rfl
  obtain ⟨hfinal, hdeals⟩ := Sound.reenterSide (c := .empty) hbids ts
  obtain ⟨hfinal', hdeals'⟩ := Sound.reenterSide (c := Function.update empty .buy (c .buy))
    (s := .sell) (l := c .sell) (hboth.symm ▸ h) ts
  have hrun : Run.final step .empty (OpenOrders.reenterSide .buy (c .buy) ts) =
      Function.update empty .buy (c .buy) := hfinal
  rw [reentries, Run.final_append, Run.outputs_append, hrun]
  refine ⟨hfinal'.trans hboth, fun a ha => ?_⟩
  rcases List.mem_append.mp ha with ha | ha
  · exact hdeals a ha
  · exact hdeals' a ha

end OpenOrders

namespace L3OrderBook

/-- **A restored book goes on as the old one**: the open orders of a book, submitted to an empty one,
trade with nobody, stand there as they did, and from then on the two books answer alike. -/
theorem restored_goes_on (symbol : Symbol) (ops : List BookOp) (ts : Timestamp)
    (later : List BookOp) :
    (∀ a ∈ Run.outputs answerStep (create symbol) (((create symbol).run ops).openOrders.reentries ts),
      a.deals = []) ∧
    ((create symbol).run (((create symbol).run ops).openOrders.reentries ts)).openOrders =
      ((create symbol).run ops).openOrders ∧
    Run.outputs answerStep
        ((create symbol).run (((create symbol).run ops).openOrders.reentries ts)) later =
      Run.outputs answerStep ((create symbol).run ops) later := by
  have h := ((repInv_create symbol).run ops).2
  obtain ⟨hfinal, hdeals⟩ := h.sound_openOrders.restore ts
  obtain ⟨hanswers, hopen⟩ :=
    outputs_answerStep symbol (((create symbol).run ops).openOrders.reentries ts)
  rw [hfinal] at hopen
  rw [hanswers]
  refine ⟨hdeals, hopen, ?_⟩
  exact (h.answers_of_openOrders ((repInv_create symbol).run _).2 hopen later).1

end L3OrderBook

end HftSdk

import HftSdk.Orderbook.Levels

/-!
# Immediate-or-cancel

An IOC order drops its remainder where a Day order rests it. Resting it and canceling it at once
comes to the same book (`ioc_eq_day_cancel`): the two paths share the matching, and the cancel
removes exactly the quote, the index entry and the count that resting added.
-/

namespace HftSdk

open Sweep SortedMap PriorityList

theorem BookCore.fillTrades_tif (c : BookCore) (o : Order) (tif : TimeInForce) (ts : Timestamp)
    (fs : List (Quote × Int)) : c.fillTrades { o with tif } ts fs = c.fillTrades o ts fs := by
  induction fs generalizing c with
  | nil => rfl
  | cons x fs ih =>
    obtain ⟨q, m⟩ := x
    rw [fillTrades, fillTrades, ih]
    rfl

theorem BookCore.dropFilled_recordRest {c : BookCore} {o : Order} {r : L3Order} (hid : r.id = o.id)
    (hside : r.side = o.side) (hnew : o.id ∉ c.orderIndex) :
    (c.recordRest o).dropFilled r = { c with nextAddr := c.nextAddr + 1 } := by
  have hindex : ∀ loc, (c.orderIndex.insert o.id loc).erase o.id = c.orderIndex := by
    intro loc
    apply Finmap.ext_lookup
    intro id
    by_cases hne : id = o.id
    · rw [hne, Finmap.lookup_erase, Finmap.lookup_eq_none.mpr hnew]
    · rw [Finmap.lookup_erase_ne hne, Finmap.lookup_insert_of_ne _ hne]
  unfold dropFilled recordRest
  rw [hside, hid]
  cases o.side <;> simp [hindex]

namespace Ladder

variable {L : Ladder} {o : Order}

theorem demand_tif {tif : TimeInForce} (ho : o.tif ≠ .fok) (htif : tif ≠ .fok) :
    L.demand { o with tif } = L.demand o := by
  rw [demand, demand, if_neg fun h => htif h.1, if_neg fun h => ho h.1]

theorem fillsOf_tif {tif : TimeInForce} (ho : o.tif ≠ .fok) (htif : tif ≠ .fok) :
    L.fillsOf { o with tif } = L.fillsOf o := by
  rw [fillsOf, demand_tif ho htif]
  rfl

theorem afterMatch_tif {tif : TimeInForce} (ho : o.tif ≠ .fok) (htif : tif ≠ .fok) :
    L.afterMatch { o with tif } = L.afterMatch o := by
  rw [afterMatch, demand_tif ho htif]
  rfl

theorem Inv.cut (h : L.Inv) (s : Side) (p : Int) :
    ((L.side s).filter fun q => !decide (s.better p q.price)) ++
      (L.side s).filter (fun q => decide (s.better p q.price)) = L.side s := by
  have hcut : (L.side s).Pairwise fun q r =>
      (!decide (s.better p r.price)) = true → (!decide (s.better p q.price)) = true := by
    refine (h.ordered s).imp fun {q r} hqr hr => ?_
    simp only [Bool.not_eq_true', decide_eq_false_iff_not] at hr ⊢
    intro hq
    rcases hqr with hqr | ⟨hp, -⟩
    · exact hr (IsTrans.trans _ _ _ hq hqr)
    · exact hr (hp ▸ hq)
  simpa only [Bool.not_not] using filter_append_filter_not hcut

theorem Inv.cancel_rest (h : L.Inv) (hid : ¬ L.Has o.id) (remaining : Int) (ts : Timestamp)
    (s : Side) : ((L.rest o remaining ts).cancel o.id).side s = L.side s := by
  have hkeep : ∀ l : List Quote, l ⊆ L.side s → (l.filter fun q => q.order.id ≠ o.id) = l :=
    fun l hl => List.filter_eq_self.mpr fun q hq => decide_eq_true fun hqid =>
      hid ⟨q, mem_all.mpr ⟨s, hl hq⟩, hqid⟩
  unfold Ladder.cancel Ladder.rest
  dsimp only
  obtain rfl | rfl := o.side.eq_or_eq_opp s
  · rw [set_side, place, List.filter_append, List.filter_cons, if_neg (by simp [newQuote]),
      hkeep _ List.filter_sublist.subset, hkeep _ List.filter_sublist.subset]
    exact h.cut o.side o.price
  · rw [set_side_opp]
    exact hkeep _ (List.Subset.refl _)

end Ladder

namespace L3OrderBook

variable {b b' : L3OrderBook}

/-- The books have the same levels, up to the cached positions, and the same index, counts and trade
statistics. -/
structure SameBook (b b' : L3OrderBook) : Prop where
  levels : ∀ s, unposedLevels (b'.levels s).entries = unposedLevels (b.levels s).entries
  core : { b'.toBookCore with nextAddr := 0 } = { b.toBookCore with nextAddr := 0 }

theorem RepInv.ladder_addOrder_cancelOrder (h : b.RepInv) {o : Order} (hid : ¬ b.ladder.Has o.id)
    (ts ts' : Timestamp) (s : Side) :
    ((b.addOrder o ts).book.cancelOrder o.id ts').book.ladder.side s =
      (b.ladder.afterMatch o).side s := by
  have hday := h.addOrder o ts
  have hnot := h.inv.not_has_afterMatch (o := o) hid
  rw [(hday.repInv.cancelOrder {} o.id ts').ladder, hday.ladder, Ladder.add, if_neg hid]
  split_ifs with hr
  · exact (h.inv.afterMatch o).cancel_rest hnot _ ts s
  · rw [Ladder.cancel_of_not_has hnot]

theorem RepInv.core_addOrder_cancelOrder (h : b.RepInv) {o : Order} (hid : ¬ b.ladder.Has o.id)
    (ts ts' : Timestamp) :
    { ((b.addOrder o ts).book.cancelOrder o.id ts').book.toBookCore with nextAddr := 0 } =
      { b.toBookCore.settle (b.ladder.fillsOf o) with nextAddr := 0 } := by
  have hday := h.addOrder o ts
  have hcore := h.addOrder_core hid ts
  have hnot := h.inv.not_has_afterMatch (o := o) hid
  by_cases hr : b.ladder.Rests o
  · have hm := h.matchIncoming o ts
    have hnew : o.id ∉ (b.toBookCore.settle (b.ladder.fillsOf o)).orderIndex := by
      rw [← hm.core, (hm.repInv h).mem_index, hm.ladder]
      exact hnot
    have hmem : Ladder.newQuote o (b.ladder.remainder o) ts b.nextAddr ∈
        (b.addOrder o ts).book.ladder.all := by
      rw [hday.ladder, Ladder.add, if_neg hid, if_pos hr]
      exact (Ladder.rest_perm _ _ _ _).mem_iff.mpr List.mem_cons_self
    have hcancel : ((b.addOrder o ts).book.cancelOrder o.id ts').book.toBookCore = _ :=
      hday.repInv.cancelOrder_core hmem ts'
    rw [if_pos hr] at hcore
    rw [hcancel, hcore, BookCore.dropFilled_recordRest rfl rfl hnew]
  · have hnotday : ¬ (b.addOrder o ts).book.ladder.Has o.id := by
      rw [hday.ladder, Ladder.add, if_neg hid, if_neg hr]
      exact hnot
    rw [if_neg hr] at hcore
    rw [hday.repInv.cancelOrder_of_not_has hnotday, hcore]

theorem RepInv.ioc_day (h : b.RepInv) {o : Order} (hid : ¬ b.ladder.Has o.id)
    (htif : o.tif = .day ∨ o.tif = .gtc) (ts ts' : Timestamp) :
    let ioc := b.addOrder { o with tif := .ioc } ts
    let day := b.addOrder o ts
    let cancel := day.book.cancelOrder o.id ts'
    ioc.trades = day.trades ∧ ioc.book.SameBook cancel.book := by
  intro ioc day cancel
  have hfok : o.tif ≠ .fok := by
    rcases htif with htif | htif <;> simp [htif]
  have hioc := h.addOrder { o with tif := .ioc } ts
  have hday := h.addOrder o ts
  have hcancel := hday.repInv.cancelOrder {} o.id ts'
  have hfills : b.ladder.fillsOf { o with tif := .ioc } = b.ladder.fillsOf o :=
    Ladder.fillsOf_tif hfok (by simp)
  have hnorest : ¬ b.ladder.Rests { o with tif := .ioc } := by
    rintro ⟨-, -, hr | hr⟩ <;> cases hr
  have hladder : ioc.book.ladder = b.ladder.afterMatch o := by
    rw [hioc.ladder, Ladder.add, if_neg hid, if_neg hnorest]
    exact Ladder.afterMatch_tif hfok (by simp)
  have hcore : ioc.book.toBookCore = b.toBookCore.settle (b.ladder.fillsOf o) := by
    rw [h.addOrder_core (o := { o with tif := .ioc }) hid, if_neg hnorest, hfills]
  refine ⟨?_, fun s => ?_, ?_⟩
  · rw [hioc.trades, hday.trades, Ladder.addFills, Ladder.addFills, if_neg hid, if_neg hid, hfills]
    exact BookCore.fillTrades_tif _ _ _ _ _
  · refine unposedLevels_eq (hcancel.repInv.nonempty s) (hioc.repInv.nonempty s) ?_
    change cancel.book.ladder.side s = ioc.book.ladder.side s
    rw [hladder]
    exact h.ladder_addOrder_cancelOrder hid ts ts' s
  · rw [hcore]
    exact h.core_addOrder_cancelOrder hid ts ts'

theorem RepInv.not_has_of_filled (h : b.RepInv) {o : Order} (hid : ¬ b.ladder.Has o.id)
    {ts : Timestamp} (hfilled : (b.addOrder o ts).rpt.status = .filled) :
    ¬ (b.addOrder o ts).book.ladder.Has o.id := by
  have hstatus := (congrArg Prod.fst (h.outcome hid ts).rpt).symm.trans hfilled
  have hnot : ¬ b.ladder.Rests o := fun hr => hr.1.ne' ((reported_filled_iff _ _).mp hstatus)
  rw [(h.addOrder o ts).ladder, Ladder.add, if_neg hid, if_neg hnot]
  exact h.inv.not_has_afterMatch hid

/-- **IOC is Day and a cancel at once**: the trades and the book are the same, and when the Day order
is filled there is nothing to cancel. This holds of market orders too, which never rest. -/
theorem ioc_eq_day_cancel {b : L3OrderBook} (h : b.Reachable) (o : Order) (hid : o.id ∉ b.orderIndex)
    (htif : o.tif = .day ∨ o.tif = .gtc) (ts ts' : Timestamp) :
    let ioc := b.addOrder { o with tif := .ioc } ts
    let day := b.addOrder o ts
    let cancel := day.book.cancelOrder o.id ts'
    ioc.trades = day.trades ++ cancel.trades ∧ ioc.book.SameBook cancel.book ∧
      (day.rpt.status = .filled → cancel.rpt.status = .rejected ∧ cancel.book = day.book) := by
  intro ioc day cancel
  have hrep := h.repInv
  have hnot := mt (hrep.mem_index o.id).mpr hid
  have hday := hrep.addOrder o ts
  obtain ⟨htrades, hsame⟩ := hrep.ioc_day hnot htif ts ts'
  refine ⟨?_, hsame, fun hfilled => ?_⟩
  · rw [(hday.repInv.cancelOrder {} o.id ts').trades]
    exact htrades.trans (List.append_nil _).symm
  · have hcancel := hday.repInv.cancelOrder_of_not_has (hrep.not_has_of_filled hnot hfilled) ts'
    exact ⟨congrArg (·.rpt.status) hcancel, congrArg (·.book) hcancel⟩

/-- A bid that takes the only ask within its limit rests 3, which the cancel takes off. -/
theorem ioc_eq_day_cancel_partly :
    let b := (create {}).run [.add { id := 1, side := .sell, price := 10, quantity := 5 } 0,
      .add { id := 2, side := .sell, price := 12, quantity := 5 } 0]
    let o : Order := { id := 3, price := 11, quantity := 8 }
    let day := b.addOrder o 1
    let cancel := day.book.cancelOrder 3 2
    (b.addOrder { o with tif := .ioc } 1).trades = day.trades ++ cancel.trades ∧
      (b.addOrder { o with tif := .ioc } 1).book.SameBook cancel.book ∧
      (day.rpt.status = .filled → cancel.rpt.status = .rejected ∧ cancel.book = day.book) :=
  ioc_eq_day_cancel ⟨{}, _, rfl⟩ _ (by decide) (Or.inl rfl) 1 2

end L3OrderBook

end HftSdk

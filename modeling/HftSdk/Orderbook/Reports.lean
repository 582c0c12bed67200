import HftSdk.Orderbook.Invariants

/-!
# What `add_order` reports

The report is put together by a status cascade and patched by type and time-in-force, apart from
what the book really did. `RepInv.truthful_iff` and `fillOrKill_iff` say exactly when the two agree: a
market order that is not filled is never rested, and the branches that clear the report of such an
order are there for limit orders only.
-/

namespace HftSdk

open Sweep

namespace L3OrderBook

/-- What an order may trade against: the open quantity of the other side at the levels not beyond
its limit, which for a market order are all of them. -/
def tradableQty (b : L3OrderBook) (o : Order) : Int :=
  (((b.levels o.side.opp).entries.filter fun e => !beyondLimit o e.1).map fun e =>
    (e.2.map fun n => n.val.visibleQty + n.val.hiddenQty).sum).sum

/-- A call with this result puts the order on the book. -/
def Places (b : L3OrderBook) (o : Order) (r : BookResult) : Prop :=
  o.id ∉ b.orderIndex ∧ o.id ∈ r.book.orderIndex

/-! ## The sweep of an order in numbers -/

theorem tradableQty_eq (b : L3OrderBook) (o : Order) : b.tradableQty o = b.ladder.liquidity o := by
  have hlist : ∀ es : List (Int × OrderQueue), total Quote.openQty (quotes es) =
      (es.map fun e => (e.2.map fun n => n.val.visibleQty + n.val.hiddenQty).sum).sum := by
    intro es
    induction es with
    | nil => rfl
    | cons e es ih =>
      rw [quotes_cons, total_append, ih, List.map_cons, List.sum_cons]
      simp [Quote.of, Quote.openQty, L3Order.openQty, L3Order.unposed, total, Function.comp_def]
  rw [tradableQty, ← hlist, ← tradable_quotes]
  rfl

end L3OrderBook

namespace Ladder

variable {L : Ladder}

theorem Inv.liquidity_nonneg (h : L.Inv) (o : Order) : 0 ≤ L.liquidity o :=
  total_nonneg _ (h.tradable_pos o)

theorem Inv.liquidity_cancel (h : L.Inv) {q : Quote} (hq : q ∈ L.all) {o : Order}
    (hside : o.side = q.order.side) : (L.cancel q.order.id).liquidity o = L.liquidity o := by
  rw [liquidity, liquidity, hside, h.cancel_side_opp hq]

theorem Inv.taken_nonneg (h : L.Inv) (o : Order) : 0 ≤ taken (L.fillsOf o) :=
  List.sum_nonneg fun m hm => by
    obtain ⟨x, hx, rfl⟩ := List.mem_map.mp hm
    exact (h.fillsOf_bounds hx).2.1.le

theorem Inv.fillsOf_eq_nil (h : L.Inv) (o : Order) : L.fillsOf o = [] ↔ taken (L.fillsOf o) = 0 := by
  refine ⟨fun hf => by rw [hf, taken_nil], fun ht => ?_⟩
  by_contra hne
  have hpos : ∀ x ∈ L.fillsOf o, 0 < x.2 := fun x hx => (h.fillsOf_bounds hx).2.1
  exact (total_pos Prod.snd hpos hne).ne' ht

theorem Inv.remainder_of_nonpos (h : L.Inv) {o : Order} (hq : o.quantity ≤ 0) :
    L.fillsOf o = [] ∧ L.remainder o = o.quantity := by
  have hd : L.demand o = o.quantity :=
    if_neg fun hfok => absurd (h.liquidity_nonneg o) (by omega)
  have hf : L.fillsOf o = [] := by rw [fillsOf, hd, fills_of_nonpos _ hq]
  exact ⟨hf, by rw [remainder, hf, taken_nil, Int.sub_zero]⟩

theorem Inv.taken_eq (h : L.Inv) {o : Order} (hq : 0 ≤ o.quantity) :
    taken (L.fillsOf o) =
      if o.tif = .fok ∧ L.liquidity o < o.quantity then 0 else min o.quantity (L.liquidity o) := by
  have hl := h.liquidity_nonneg o
  unfold fillsOf
  have hd : 0 ≤ L.demand o := by
    unfold demand
    split_ifs <;> omega
  rw [taken_fills Quote.fill_openQty (h.tradable_pos o) hd]
  change min _ (L.liquidity o) = _
  unfold demand
  split_ifs <;> omega

theorem Inv.remainder_eq_zero_iff (h : L.Inv) (o : Order) :
    L.remainder o = 0 ↔ o.quantity = 0 ∨ 0 < o.quantity ∧ o.quantity ≤ L.liquidity o := by
  rcases le_or_gt o.quantity 0 with hle | hpos
  · rw [(h.remainder_of_nonpos hle).2]
    omega
  · have htaken := h.taken_eq hpos.le
    rw [remainder]
    split_ifs at htaken <;> omega

theorem Inv.remainder_pos_iff (h : L.Inv) (o : Order) :
    0 < L.remainder o ↔ L.liquidity o < o.quantity := by
  have hliq := h.liquidity_nonneg o
  rcases le_or_gt o.quantity 0 with hle | hpos
  · rw [(h.remainder_of_nonpos hle).2]
    omega
  · have htaken := h.taken_eq hpos.le
    rw [remainder]
    split_ifs at htaken <;> omega

theorem Inv.remainder_of_fok (h : L.Inv) {o : Order} (hq : 0 ≤ o.quantity) (htif : o.tif = .fok)
    (hrem : 0 < L.remainder o) : L.remainder o = o.quantity := by
  have htaken := h.taken_eq hq
  have hliq := h.liquidity_nonneg o
  rw [remainder] at hrem ⊢
  split_ifs at htaken with hk
  · omega
  · have : ¬ L.liquidity o < o.quantity := fun hlt => hk ⟨htif, hlt⟩
    omega

end Ladder

namespace L3OrderBook

/-! ## The report -/

theorem matchedReport_eq (rpt : ExecutionReport) (o : Order) (res : MatchResult) :
    (matchedReport rpt o res).filledQty = o.quantity - res.remainingQty ∧
      (matchedReport rpt o res).leavesQty = res.remainingQty ∧
      (matchedReport rpt o res).rejectReason = rpt.rejectReason ∧
      (matchedReport rpt o res).status =
        if res.remainingQty = 0 then .filled
        else if 0 < o.quantity - res.remainingQty then .partiallyFilled else .new := by
  unfold matchedReport
  dsimp only
  split_ifs
  · exact ⟨rfl, rfl, rfl, rfl⟩
  · cases res.trades.getLast? <;> exact ⟨rfl, rfl, rfl, rfl⟩
  · exact ⟨rfl, rfl, rfl, rfl⟩

/-- The status, filled quantity, leaves quantity and reject reason reported for an order that does
not rest yet and of which `rem` is left after matching. -/
def reported (o : Order) (rem : Int) : OrderStatus × Int × Int × RejectReason :=
  if rem = 0 then (.filled, o.quantity, 0, .none)
  else if 0 < rem ∧ o.type = .limit ∧ o.tif = .ioc then
    (if 0 < o.quantity - rem then .partiallyFilled else .canceled, o.quantity - rem, 0, .none)
  else if 0 < rem ∧ o.type = .limit ∧ o.tif = .fok then (.rejected, 0, 0, .insufficientLiquidity)
  else (if 0 < o.quantity - rem then .partiallyFilled else .new, o.quantity - rem, rem, .none)

theorem reported_filled_iff (o : Order) (rem : Int) : (reported o rem).1 = .filled ↔ rem = 0 := by
  unfold reported
  split_ifs with h <;> simp [h]

theorem reported_rejected_iff (o : Order) (rem : Int) :
    (reported o rem).1 = .rejected ↔ 0 < rem ∧ o.type = .limit ∧ o.tif = .fok := by
  unfold reported
  split_ifs with hzero hioc _ hfok
  · simp [hzero]
  · simp [hioc.2.2]
  · simp [hioc.2.2]
  · exact iff_of_true rfl hfok
  · exact iff_of_false nofun hfok
  · exact iff_of_false nofun hfok

theorem reported_of_rests {L : Ladder} {o : Order} (h : L.Rests o) :
    (reported o (L.remainder o)).1 =
      if 0 < o.quantity - L.remainder o then .partiallyFilled else .new := by
  obtain ⟨hrem, -, htif⟩ := h
  rw [reported, if_neg hrem.ne', if_neg, if_neg]
  · rintro ⟨-, -, hfok⟩
    simp [hfok] at htif
  · rintro ⟨-, -, hioc⟩
    simp [hioc] at htif

theorem handleRemainder_reported (b : L3OrderBook) (o : Order) (res : MatchResult) (ts : Timestamp) :
    let rpt := (b.handleRemainder (matchedReport (addReport o ts) o res) o res ts).1
    (rpt.status, rpt.filledQty, rpt.leavesQty, rpt.rejectReason) = reported o res.remainingQty := by
  obtain ⟨hf, hl, hr, hs⟩ := matchedReport_eq (addReport o ts) o res
  generalize matchedReport (addReport o ts) o res = rpt at hf hl hr hs
  have hr : rpt.rejectReason = .none := hr
  unfold handleRemainder reported
  by_cases hzero : res.remainingQty = 0
  · simp [hzero, hf, hl, hr, hs]
  · by_cases hlim : 0 < res.remainingQty ∧ o.type = .limit
    · cases htif : o.tif <;> simp [hzero, hlim, hf, hl, hr, hs]
    · have hnot : ∀ p : Prop, ¬ (0 < res.remainingQty ∧ o.type = .limit ∧ p) := fun p h =>
        hlim ⟨h.1, h.2.1⟩
      simp [hzero, hlim, hnot, hf, hl, hr, hs]

/-- What `add_order` does for an id that does not rest, in terms of the ladder. -/
structure Outcome (b : L3OrderBook) (o : Order) (ts : Timestamp) : Prop where
  trades : (b.addOrder o ts).trades = b.fillTrades o ts (b.ladder.fillsOf o)
  traded : ((b.addOrder o ts).trades.map Trade.qty).sum = o.quantity - b.ladder.remainder o
  rpt : ((b.addOrder o ts).rpt.status, (b.addOrder o ts).rpt.filledQty,
    (b.addOrder o ts).rpt.leavesQty, (b.addOrder o ts).rpt.rejectReason) =
      reported o (b.ladder.remainder o)
  places : b.Places o (b.addOrder o ts) ↔ b.ladder.Rests o

theorem RepInv.outcome {b : L3OrderBook} (h : b.RepInv) {o : Order} (hid : ¬ b.ladder.Has o.id)
    (ts : Timestamp) : b.Outcome o ts := by
  have hm := h.matchIncoming o ts
  have hnot : o.id ∉ b.orderIndex := mt (h.mem_index o.id).mp hid
  obtain ⟨hrpt, -, htrades⟩ := addOrder_of_not_mem hnot ts
  rw [hm.trades] at htrades
  refine ⟨htrades, ?_, ?_, ?_⟩
  · rw [htrades, BookCore.fillTrades_qty, Ladder.remainder]
    omega
  · rw [hrpt, ← hm.remaining]
    exact handleRemainder_reported _ _ _ _
  · have hadd := h.addOrder o ts
    rw [Places, hadd.repInv.mem_index, hadd.ladder, Ladder.add, if_neg hid]
    split_ifs with hrests
    · refine iff_of_true ⟨hnot, ?_⟩ hrests
      exact ⟨_, (Ladder.rest_perm _ _ _ _).mem_iff.mpr List.mem_cons_self, rfl⟩
    · exact iff_of_false (fun hp => h.inv.not_has_afterMatch hid hp.2) hrests

theorem RepInv.placed_node {b : L3OrderBook} (h : b.RepInv) {o : Order} (hid : ¬ b.ladder.Has o.id)
    (hr : b.ladder.Rests o) (ts : Timestamp) : ∃ n ∈ (b.addOrder o ts).book.nodes,
      n.val.id = o.id ∧ n.val.visibleQty + n.val.hiddenQty = b.ladder.remainder o := by
  have hmem : Ladder.newQuote o (b.ladder.remainder o) ts b.nextAddr ∈
      (b.addOrder o ts).book.ladder.all := by
    rw [(h.addOrder o ts).ladder, Ladder.add, if_neg hid, if_pos hr]
    exact (Ladder.rest_perm _ _ _ _).mem_iff.mpr List.mem_cons_self
  obtain ⟨n, hn, -, horder⟩ := node_of_quote hmem
  refine ⟨n, hn, congrArg L3Order.id horder, (congrArg L3Order.openQty horder).trans ?_⟩
  exact Int.add_zero _

theorem RepInv.filledQty_eq {b : L3OrderBook} (h : b.RepInv) {o : Order} (hid : ¬ b.ladder.Has o.id)
    (hq : 0 ≤ o.quantity) (ts : Timestamp) :
    (b.addOrder o ts).rpt.filledQty = ((b.addOrder o ts).trades.map Trade.qty).sum := by
  obtain ⟨-, htraded, hrpt, -⟩ := h.outcome hid ts
  have hfilled : (b.addOrder o ts).rpt.filledQty = (reported o (b.ladder.remainder o)).2.1 :=
    congrArg (·.2.1) hrpt
  rw [hfilled, htraded, reported]
  by_cases hzero : b.ladder.remainder o = 0
  · rw [if_pos hzero, hzero, Int.sub_zero]
  · rw [if_neg hzero]
    by_cases hioc : 0 < b.ladder.remainder o ∧ o.type = .limit ∧ o.tif = .ioc
    · rw [if_pos hioc]
    · rw [if_neg hioc]
      by_cases hfok : 0 < b.ladder.remainder o ∧ o.type = .limit ∧ o.tif = .fok
      · rw [if_pos hfok, h.inv.remainder_of_fok hq hfok.2.2 hfok.1, Int.sub_self]
      · rw [if_neg hfok]

/-! ## When the report is true -/

/-- The report of `add_order` tells the truth about the book: the filled quantity was traded, the
leaves quantity is what the call put on the book, and the status goes with it. -/
structure Truthful (b : L3OrderBook) (o : Order) (r : BookResult) : Prop where
  filled : r.rpt.filledQty = (r.trades.map Trade.qty).sum
  leaves : r.rpt.leavesQty ≠ 0 ↔ b.Places o r
  placed : b.Places o r →
    (∃ n ∈ r.book.nodes, n.val.id = o.id ∧
      n.val.visibleQty + n.val.hiddenQty = r.rpt.leavesQty) ∧
    (r.trades = [] ∧ r.rpt.status = .new ∨ r.trades ≠ [] ∧ r.rpt.status = .partiallyFilled)
  notPlaced : ¬ b.Places o r →
    r.rpt.status = .filled ∨ r.rpt.status = .canceled ∨ r.rpt.status = .rejected ∨
    r.rpt.status = .partiallyFilled ∧ r.rpt.leavesQty = 0

theorem RepInv.truthful_of_has {b : L3OrderBook} (h : b.RepInv) {o : Order}
    (hid : b.ladder.Has o.id) (ts : Timestamp) : b.Truthful o (b.addOrder o ts) := by
  have hp : ¬ b.Places o (b.addOrder o ts) := fun hp => hp.1 ((h.mem_index o.id).mpr hid)
  have heq := h.addOrder_of_has hid ts
  refine ⟨by rw [heq]; rfl, iff_of_false (by rw [heq]; simp) hp, fun h => absurd h hp, fun _ => ?_⟩
  rw [heq]
  exact Or.inr (Or.inr (Or.inl rfl))

theorem fillTrades_eq_nil {c : BookCore} {o : Order} {ts : Timestamp} {fs : List (Quote × Int)} :
    c.fillTrades o ts fs = [] ↔ fs = [] := by
  cases fs <;> simp [BookCore.fillTrades]

theorem RepInv.truthful {b : L3OrderBook} (h : b.RepInv) {o : Order} (hid : ¬ b.ladder.Has o.id)
    (hq : 0 ≤ o.quantity) (hrem : b.ladder.remainder o = 0 ∨ o.type = .limit) (ts : Timestamp) :
    b.Truthful o (b.addOrder o ts) := by
  have hfilled := h.filledQty_eq hid hq ts
  obtain ⟨htrades, -, hrpt, hplaces⟩ := h.outcome hid ts
  have htaken := h.inv.taken_nonneg o
  have heq : taken (b.ladder.fillsOf o) = o.quantity - b.ladder.remainder o := by
    rw [Ladder.remainder]
    omega
  have hnil : (b.addOrder o ts).trades = [] ↔ o.quantity - b.ladder.remainder o = 0 := by
    rw [htrades, fillTrades_eq_nil, h.inv.fillsOf_eq_nil, heq]
  have hle : b.ladder.remainder o = 0 ∨ 0 < b.ladder.remainder o := by
    have := h.inv.taken_eq hq
    rw [heq] at this
    split_ifs at this <;> omega
  rcases hle with hzero | hpos
  · -- nothing is left
    rw [reported, if_pos hzero] at hrpt
    simp only [Prod.mk.injEq] at hrpt
    obtain ⟨hs, -, hl, -⟩ := hrpt
    have hp : ¬ b.Places o (b.addOrder o ts) := fun hp => absurd (hplaces.mp hp).1 (by omega)
    exact ⟨hfilled, iff_of_false (by simp [hl]) hp,
      fun h => absurd h hp, fun _ => Or.inl hs⟩
  · have hlim := hrem.resolve_left hpos.ne'
    have hrests : b.ladder.Rests o ↔ o.tif = .day ∨ o.tif = .gtc :=
      ⟨fun hr => hr.2.2, fun ht => ⟨hpos, hlim, ht⟩⟩
    rw [reported, if_neg hpos.ne'] at hrpt
    rw [hrests] at hplaces
    have hrest : o.tif = .day ∨ o.tif = .gtc → b.Truthful o (b.addOrder o ts) := by
      intro ht
      rw [if_neg (by rintro ⟨-, -, h⟩; simp [h] at ht), if_neg (by rintro ⟨-, -, h⟩; simp [h] at ht)]
        at hrpt
      simp only [Prod.mk.injEq] at hrpt
      obtain ⟨hs, -, hl, -⟩ := hrpt
      refine ⟨hfilled, iff_of_true (by omega) (hplaces.mpr ht), fun _ => ⟨?_, ?_⟩,
        fun hp => absurd (hplaces.mpr ht) hp⟩
      · rw [hl]
        exact h.placed_node hid (hrests.mpr ht) ts
      · rw [hs, ne_eq, hnil]
        split_ifs <;> simp <;> omega
    cases htif : o.tif with
    | day => exact hrest (Or.inl htif)
    | gtc => exact hrest (Or.inr htif)
    | ioc =>
      rw [if_pos ⟨hpos, hlim, htif⟩] at hrpt
      simp only [Prod.mk.injEq] at hrpt
      obtain ⟨hs, -, hl, -⟩ := hrpt
      have hp : ¬ b.Places o (b.addOrder o ts) := by simp [hplaces, htif]
      refine ⟨hfilled, iff_of_false (by simp [hl]) hp, fun h => absurd h hp, fun _ => ?_⟩
      rw [hs, hl]
      split_ifs <;> simp
    | fok =>
      rw [if_neg (by rintro ⟨-, -, h⟩; simp [htif] at h), if_pos ⟨hpos, hlim, htif⟩] at hrpt
      simp only [Prod.mk.injEq] at hrpt
      obtain ⟨hs, -, hl, -⟩ := hrpt
      have hp : ¬ b.Places o (b.addOrder o ts) := by simp [hplaces, htif]
      exact ⟨hfilled, iff_of_false (by simp [hl]) hp, fun h => absurd h hp,
        fun _ => Or.inr (Or.inr (Or.inl hs))⟩

theorem RepInv.not_truthful {b : L3OrderBook} (h : b.RepInv) {o : Order} (hid : ¬ b.ladder.Has o.id)
    (hrem : b.ladder.remainder o ≠ 0) (hcase : b.ladder.remainder o < 0 ∨ o.type ≠ .limit)
    (ts : Timestamp) : ¬ b.Truthful o (b.addOrder o ts) := by
  obtain ⟨-, -, hrpt, hplaces⟩ := h.outcome hid ts
  have hnot : ∀ p : Prop, ¬ (0 < b.ladder.remainder o ∧ o.type = .limit ∧ p) := fun p hp =>
    hcase.elim (fun h => by omega) fun h => h hp.2.1
  rw [reported, if_neg hrem, if_neg (hnot _), if_neg (hnot _)] at hrpt
  simp only [Prod.mk.injEq] at hrpt
  intro ht
  exact hnot _ (hplaces.mp (ht.leaves.mp (by rw [hrpt.2.2.1]; exact hrem)))

/-- **When the report tells the truth**: always for a duplicate, for quantity zero and for a limit
order of positive quantity, and for a market order exactly when the other side can fill it. -/
theorem RepInv.truthful_iff {b : L3OrderBook} (h : b.RepInv) (o : Order) (ts : Timestamp) :
    b.Truthful o (b.addOrder o ts) ↔ o.id ∈ b.orderIndex ∨ o.quantity = 0 ∨
      0 < o.quantity ∧ (o.type = .limit ∨ o.quantity ≤ b.tradableQty o) := by
  rw [h.mem_index, tradableQty_eq]
  by_cases hid : b.ladder.Has o.id
  · exact iff_of_true (h.truthful_of_has hid ts) (Or.inl hid)
  have hliq := h.inv.liquidity_nonneg o
  rcases lt_trichotomy o.quantity 0 with hneg | hzero | hpos
  · obtain ⟨-, hr⟩ := h.inv.remainder_of_nonpos hneg.le
    apply iff_of_false (h.not_truthful hid (by omega) (Or.inl (by omega)) ts)
    rintro (h' | h' | h')
    · exact hid h'
    · omega
    · omega
  · obtain ⟨-, hr⟩ := h.inv.remainder_of_nonpos hzero.le
    exact iff_of_true (h.truthful hid hzero.ge (Or.inl (by omega)) ts) (Or.inr (Or.inl hzero))
  · have htaken := h.inv.taken_eq hpos.le
    have hrem : b.ladder.remainder o = o.quantity - taken (b.ladder.fillsOf o) := rfl
    by_cases hcond : o.type = .limit ∨ o.quantity ≤ b.ladder.liquidity o
    · refine iff_of_true (h.truthful hid hpos.le ?_ ts) (Or.inr (Or.inr ⟨hpos, hcond⟩))
      rcases hcond with hlim | hle
      · exact Or.inr hlim
      · rw [if_neg (by omega)] at htaken
        omega
    · rw [not_or] at hcond
      refine iff_of_false (h.not_truthful hid ?_ (Or.inr hcond.1) ts) ?_
      · split_ifs at htaken <;> omega
      · rintro (h' | h' | h')
        · exact hid h'
        · omega
        · exact h'.2.elim hcond.1 hcond.2

/-! ## Fill or kill -/

/-- All or nothing: what the book can fill is filled, and otherwise the order is rejected and the
book left as it was. It does not rest either way. -/
structure FillOrKill (b : L3OrderBook) (o : Order) (ts : Timestamp) : Prop where
  filled : o.quantity ≤ b.tradableQty o →
    ((b.addOrder o ts).trades.map Trade.qty).sum = o.quantity ∧
    (b.addOrder o ts).rpt.status = .filled ∧ (b.addOrder o ts).rpt.filledQty = o.quantity
  killed : b.tradableQty o < o.quantity →
    (b.addOrder o ts).trades = [] ∧ (b.addOrder o ts).book = b ∧
    (b.addOrder o ts).rpt.status = .rejected ∧
    (b.addOrder o ts).rpt.rejectReason = .insufficientLiquidity ∧
    (b.addOrder o ts).rpt.filledQty = 0 ∧ (b.addOrder o ts).rpt.leavesQty = 0
  notResting : o.id ∉ (b.addOrder o ts).book.orderIndex

theorem RepInv.addOrder_killed {b : L3OrderBook} (h : b.RepInv) {o : Order} (htif : o.tif = .fok)
    (hid : o.id ∉ b.orderIndex) (hlt : b.ladder.liquidity o < o.quantity) (ts : Timestamp) :
    (b.addOrder o ts).trades = [] ∧ (b.addOrder o ts).book = b := by
  obtain ⟨-, hbook, htrades⟩ := addOrder_of_not_mem hid ts
  rw [handleRemainder_book, if_neg fun hr => by simp [htif] at hr] at hbook
  rw [matchIncoming_eq, if_pos ⟨htif, (h.fok_iff o).mpr hlt⟩] at hbook htrades
  exact ⟨htrades, hbook⟩

/-- **Fill-or-kill is all or nothing** exactly for limit orders and for what can be filled. -/
theorem fillOrKill_iff (symbol : Symbol) (ops : List BookOp) {o : Order} (ts : Timestamp)
    (htif : o.tif = .fok) (hq : 0 < o.quantity)
    (hid : o.id ∉ ((create symbol).run ops).orderIndex) :
    ((create symbol).run ops).FillOrKill o ts ↔
      o.type = .limit ∨ o.quantity ≤ ((create symbol).run ops).tradableQty o := by
  have h := ((repInv_create symbol).run ops).2
  generalize (create symbol).run ops = b at h hid
  have hhas : ¬ b.ladder.Has o.id := mt (h.mem_index o.id).mpr hid
  obtain ⟨-, htraded, hrpt, hplaces⟩ := h.outcome hhas ts
  have htaken := h.inv.taken_eq hq.le
  have hrem : b.ladder.remainder o = o.quantity - taken (b.ladder.fillsOf o) := rfl
  have hrest : o.id ∉ (b.addOrder o ts).book.orderIndex := by
    intro hmem
    have := (hplaces.mp ⟨hid, hmem⟩).2.2
    simp [htif] at this
  by_cases hle : o.quantity ≤ b.ladder.liquidity o
  · have hzero : b.ladder.remainder o = 0 := by
      rw [if_neg (by omega)] at htaken
      omega
    rw [reported, if_pos hzero] at hrpt
    simp only [Prod.mk.injEq] at hrpt
    refine iff_of_true ⟨fun _ => ⟨by rw [htraded, hzero, Int.sub_zero], hrpt.1, hrpt.2.1⟩,
      fun hlt => ?_, hrest⟩ (Or.inr (by rwa [tradableQty_eq]))
    rw [tradableQty_eq] at hlt
    omega
  · have hlt : b.ladder.liquidity o < o.quantity := by omega
    obtain ⟨hnil, hbook⟩ := h.addOrder_killed htif hid hlt ts
    have hall : b.ladder.remainder o = o.quantity := by
      rw [if_pos ⟨htif, hlt⟩] at htaken
      omega
    rw [reported, if_neg (by omega), if_neg (by simp [htif])] at hrpt
    cases htype : o.type with
    | limit =>
      rw [if_pos ⟨by omega, htype, htif⟩] at hrpt
      simp only [Prod.mk.injEq] at hrpt
      obtain ⟨hs, hf, hl, hr⟩ := hrpt
      refine iff_of_true ⟨fun hle' => ?_, fun _ => ⟨hnil, hbook, hs, hr, hf, hl⟩, hrest⟩ (Or.inl rfl)
      rw [tradableQty_eq] at hle'
      exact absurd hle' hle
    | market =>
      -- the branch that rejects is there for limit orders only
      rw [if_neg (by simp [htype])] at hrpt
      simp only [Prod.mk.injEq] at hrpt
      rw [tradableQty_eq]
      refine iff_of_false (fun hf => ?_) (by simp [hle])
      have := (hf.killed (by rwa [tradableQty_eq])).2.2.2.2.2
      omega

theorem fillOrKill_of_liquid_market :
    ((create {}).run
      [.add { id := 1, traderId := 1, side := .sell, price := 100, quantity := 4 } 0]).FillOrKill
      { id := 2, traderId := 2, type := .market, tif := .fok, quantity := 3 } 1 :=
  (fillOrKill_iff {} _ 1 rfl (by decide) (by decide)).mpr (Or.inr (by decide))

/-- A fill-or-kill market order on an empty book is not rejected. -/
theorem market_fok_not_rejected :
    ¬ ((create {}).run []).FillOrKill { id := 1, type := .market, tif := .fok, quantity := 10 } 0 := by
  intro h
  have := (h.killed (by decide)).2.2.1
  revert this
  decide

end L3OrderBook

end HftSdk

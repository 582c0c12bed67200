import HftSdk.Orderbook.Matching
import HftSdk.Lib.PriorityList
import Mathlib.Logic.Function.Basic

/-!
# The abstract book

What an order book is for, without levels, list nodes, index or counters: two lists of quotes, best
first, and a stamp for the next order to rest. An order sweeps the quotes of the other side that it
may trade with; an unfilled Day or GTC limit order then takes its place behind everything on its own
side that is at least as good.

`Ladder.Inv` holds of the empty ladder and is kept by matching, resting and canceling, of which every
operation is made up: the quotes are sound and distinct, each side stands in price-time order
(`Quote.Before`), and the sides do not cross.
-/

namespace HftSdk

open Sweep PriorityList

/-! ## Quotes -/

namespace Quote

/-- Price-time priority on a side: a better price, or the same price and an earlier stamp. -/
def Before (s : Side) (q r : Quote) : Prop :=
  s.better q.price r.price ∨ q.price = r.price ∧ q.addr < r.addr

instance (s : Side) : IsTrans Quote (Before s) where
  trans q r t h h' := by
    rcases h with h | ⟨h, ha⟩ <;> rcases h' with h' | ⟨h', ha'⟩
    · exact Or.inl (IsTrans.trans _ _ _ h h')
    · exact Or.inl (h' ▸ h)
    · exact Or.inl (h ▸ h')
    · exact Or.inr ⟨h.trans h', ha.trans ha'⟩

/-- The part of a quote that fills do not change. -/
def frame (q : Quote) : Quote :=
  { q with order := { q.order with visibleQty := 0, hiddenQty := 0, filledQty := 0 } }

theorem fill_frame (q : Quote) (m : Int) : (q.fill m).frame = q.frame := by
  unfold frame fill
  rw [q.order.fill_frame m]

theorem price_of_frame {q r : Quote} (h : q.frame = r.frame) : q.price = r.price := by
  have := congrArg price h
  exact this

theorem addr_of_frame {q r : Quote} (h : q.frame = r.frame) : q.addr = r.addr := by
  have := congrArg addr h
  exact this

/-- A quote that may stand on side `s`. -/
structure Sound (s : Side) (q : Quote) : Prop where
  side : q.order.side = s
  price : q.order.price = q.price
  visible : 0 ≤ q.order.visibleQty
  hidden : 0 ≤ q.order.hiddenQty
  pos : 0 < q.openQty

theorem Sound.fill {s : Side} {q : Quote} (h : q.Sound s) {m : Int} (hm : m < q.openQty) :
    (q.fill m).Sound s := by
  obtain ⟨hv, hh⟩ := L3Order.fill_nonneg h.hidden hm.le
  exact ⟨by simp [Quote.fill, h.side], by simp [Quote.fill, h.price], hv, hh, by
    rw [Quote.fill_openQty]; omega⟩

end Quote

/-! ## The ladder and its operations -/

structure Ladder where
  side : Side → List Quote
  stamp : Nat

namespace Ladder

/-- All quotes, bids first. -/
def all (L : Ladder) : List Quote := L.side .buy ++ L.side .sell

theorem mem_all {L : Ladder} {q : Quote} : q ∈ L.all ↔ ∃ s, q ∈ L.side s := by
  rw [all, List.mem_append]
  exact ⟨fun h => h.elim (fun h => ⟨_, h⟩) fun h => ⟨_, h⟩, fun ⟨s, h⟩ => by cases s <;> simp [h]⟩

/-- An order with this id rests. -/
def Has (L : Ladder) (id : OrderId) : Prop := ∃ q ∈ L.all, q.order.id = id

instance (L : Ladder) (id : OrderId) : Decidable (L.Has id) :=
  inferInstanceAs (Decidable (∃ q ∈ L.all, q.order.id = id))

/-- The quantity an order may trade against. -/
def liquidity (L : Ladder) (o : Order) : Int :=
  total Quote.openQty (tradable o (L.side o.side.opp))

/-- What an order asks for: nothing when it is fill-or-kill and cannot be filled. -/
def demand (L : Ladder) (o : Order) : Int :=
  if o.tif = .fok ∧ L.liquidity o < o.quantity then 0 else o.quantity

/-- The fills an order gets. -/
def fillsOf (L : Ladder) (o : Order) : List (Quote × Int) :=
  fills Quote.openQty (L.demand o) (tradable o (L.side o.side.opp))

/-- The fills it gets when submitted: none under an id that rests. -/
def addFills (L : Ladder) (o : Order) : List (Quote × Int) := if L.Has o.id then [] else L.fillsOf o

/-- What is left of it. -/
def remainder (L : Ladder) (o : Order) : Int := o.quantity - taken (L.fillsOf o)

def set (L : Ladder) (s : Side) (l : List Quote) : Ladder :=
  { L with side := Function.update L.side s l }

@[simp] theorem set_side (L : Ladder) (s : Side) (l : List Quote) : (L.set s l).side s = l :=
  Function.update_self ..
@[simp] theorem set_side_opp (L : Ladder) (s : Side) (l : List Quote) :
    (L.set s l).side s.opp = L.side s.opp := Function.update_of_ne s.opp_ne ..
@[simp] theorem set_opp_side (L : Ladder) (s : Side) (l : List Quote) :
    (L.set s.opp l).side s = L.side s := Function.update_of_ne s.opp_ne.symm ..

@[simp] theorem set_self (L : Ladder) (s : Side) : L.set s (L.side s) = L := by
  rw [set, Function.update_eq_self]

/-- The other side after the sweep. -/
def afterMatch (L : Ladder) (o : Order) : Ladder :=
  L.set o.side.opp
    (residue Quote.openQty Quote.fill (L.demand o) (tradable o (L.side o.side.opp)) ++
      untradable o (L.side o.side.opp))

def newQuote (o : Order) (remaining : Int) (ts : Timestamp) (stamp : Nat) : Quote where
  price := o.price
  addr := stamp
  order :=
    { id := o.id, traderId := o.traderId, side := o.side, price := o.price
      visibleQty := remaining, hiddenQty := 0, filledQty := o.quantity - remaining
      entryTime := ts, isIceberg := false, clOrdId := o.clOrdId }

/-- Rest a remainder behind everything that is at least as good. -/
def rest (L : Ladder) (o : Order) (remaining : Int) (ts : Timestamp) : Ladder where
  side := (L.set o.side (place (fun q => o.side.better o.price q.price)
    (newQuote o remaining ts L.stamp) (L.side o.side))).side
  stamp := L.stamp + 1

theorem all_perm (L : Ladder) (s : Side) : L.all.Perm (L.side s ++ L.side s.opp) := by
  cases s
  · exact List.Perm.refl _
  · exact List.perm_append_comm

theorem rest_perm (L : Ladder) (o : Order) (remaining : Int) (ts : Timestamp) :
    (L.rest o remaining ts).all.Perm (newQuote o remaining ts L.stamp :: L.all) := by
  apply (all_perm _ o.side).trans
  unfold rest
  rw [set_side, set_side_opp]
  exact ((place_perm _ _ _).append_right _).trans ((all_perm L o.side).symm.cons _)

/-- The unfilled remainder of this order goes on the book. -/
def Rests (L : Ladder) (o : Order) : Prop :=
  0 < L.remainder o ∧ o.type = .limit ∧ (o.tif = .day ∨ o.tif = .gtc)

instance (L : Ladder) (o : Order) : Decidable (L.Rests o) :=
  inferInstanceAs (Decidable (_ ∧ _ ∧ (_ ∨ _)))

def add (L : Ladder) (o : Order) (ts : Timestamp) : Ladder :=
  if L.Has o.id then L
  else if L.Rests o then (L.afterMatch o).rest o (L.remainder o) ts
  else L.afterMatch o

def cancel (L : Ladder) (id : OrderId) : Ladder :=
  { L with side := fun s => (L.side s).filter fun q => q.order.id ≠ id }

theorem cancel_of_not_has {L : Ladder} {id : OrderId} (hid : ¬ L.Has id) : L.cancel id = L := by
  unfold cancel
  congr 1
  funext s
  exact List.filter_eq_self.mpr fun q hq => decide_eq_true fun h =>
    hid ⟨q, mem_all.mpr ⟨s, hq⟩, h⟩

theorem not_has_cancel (L : Ladder) (id : OrderId) : ¬ (L.cancel id).Has id := by
  rintro ⟨q, hq, hid⟩
  obtain ⟨s, hq⟩ := mem_all.mp hq
  simpa [hid] using (List.mem_filter.mp hq).2

/-- Cancel the order and submit its replacement on the same side. -/
def replace (L : Ladder) (req : ReplaceRequest) (ts : Timestamp) : Ladder :=
  match L.all.find? fun q => q.order.id = req.orderId with
  | none => L
  | some q => (L.cancel req.orderId).add (L3OrderBook.replacement req q.order.side ts) ts

def step (L : Ladder) : BookOp → Ladder
  | .add o ts => L.add o ts
  | .cancel id _ => L.cancel id
  | .replace req ts => L.replace req ts

def empty : Ladder := ⟨fun _ => [], 0⟩

/-! ## The invariant -/

structure Inv (L : Ladder) : Prop where
  sound : ∀ s, ∀ q ∈ L.side s, q.Sound s
  ids : (L.all.map fun q => q.order.id).Nodup
  stamps : (L.all.map Quote.addr).Nodup
  fresh : ∀ q ∈ L.all, q.addr < L.stamp
  ordered : ∀ s, (L.side s).Pairwise (Quote.Before s)
  uncrossed : ∀ b ∈ L.side .buy, ∀ a ∈ L.side .sell, b.price < a.price

theorem inv_empty : empty.Inv where
  sound _ _ h := absurd h List.not_mem_nil
  ids := List.Pairwise.nil
  stamps := List.Pairwise.nil
  fresh _ h := absurd h List.not_mem_nil
  ordered _ := List.Pairwise.nil
  uncrossed _ h := absurd h List.not_mem_nil

theorem Inv.eq_of_id {L : Ladder} (h : L.Inv) {q r : Quote} (hq : q ∈ L.all) (hr : r ∈ L.all)
    (hid : q.order.id = r.order.id) : q = r := List.inj_on_of_nodup_map h.ids hq hr hid

theorem Inv.eq_of_addr {L : Ladder} (h : L.Inv) {q r : Quote} (hq : q ∈ L.all) (hr : r ∈ L.all)
    (haddr : q.addr = r.addr) : q = r := List.inj_on_of_nodup_map h.stamps hq hr haddr

theorem Inv.side_eq {L : Ladder} (h : L.Inv) {q : Quote} (hq : q ∈ L.all) :
    q ∈ L.side q.order.side := by
  obtain ⟨s, hq⟩ := mem_all.mp hq
  rwa [(h.sound s q hq).side]

theorem Inv.shrink {L L' : Ladder} (h : L.Inv)
    (hsub : ∀ s, ((L'.side s).map Quote.frame).Sublist ((L.side s).map Quote.frame))
    (hstamp : L'.stamp = L.stamp) (hsound : ∀ s, ∀ q ∈ L'.side s, q.Sound s) : L'.Inv := by
  have hmem : ∀ s, ∀ q ∈ L'.side s, ∃ r ∈ L.side s, r.frame = q.frame := by
    intro s q hq
    simpa using (hsub s).subset (List.mem_map_of_mem hq)
  have hall : (L'.all.map Quote.frame).Sublist (L.all.map Quote.frame) := by
    simpa only [all, List.map_append] using (hsub .buy).append (hsub .sell)
  have hids := hall.map fun q => q.order.id
  have hstamps := hall.map Quote.addr
  simp only [List.map_map, Function.comp_def, Quote.frame] at hids hstamps
  refine ⟨hsound, h.ids.sublist hids, h.stamps.sublist hstamps, ?_, ?_, ?_⟩
  · intro q hq
    obtain ⟨s, hq⟩ := mem_all.mp hq
    obtain ⟨r, hr, hrq⟩ := hmem s q hq
    rw [hstamp, ← Quote.addr_of_frame hrq]
    exact h.fresh r (mem_all.mpr ⟨s, hr⟩)
  · intro s
    have hmap : ((L.side s).map Quote.frame).Pairwise (Quote.Before s) :=
      List.pairwise_map.mpr (h.ordered s)
    have hmap' := hmap.sublist (hsub s)
    rw [List.pairwise_map] at hmap'
    exact hmap'
  · intro b hb a ha
    obtain ⟨b', hb', hbb⟩ := hmem _ b hb
    obtain ⟨a', ha', haa⟩ := hmem _ a ha
    rw [← Quote.price_of_frame hbb, ← Quote.price_of_frame haa]
    exact h.uncrossed b' hb' a' ha'

theorem Inv.tradable_append {L : Ladder} (h : L.Inv) (o : Order) :
    tradable o (L.side o.side.opp) ++ untradable o (L.side o.side.opp) = L.side o.side.opp := by
  have hcut : (L.side o.side.opp).Pairwise fun q r =>
      (!beyondLimit o r.price) = true → (!beyondLimit o q.price) = true :=
    (h.ordered o.side.opp).imp fun {q r} hqr hr => by
      rcases hqr with hqr | ⟨hp, -⟩
      · exact beyondLimit_mono hqr hr
      · rwa [hp]
  simpa only [tradable, untradable, Bool.not_not] using filter_append_filter_not hcut

theorem Inv.tradable_pos {L : Ladder} (h : L.Inv) (o : Order) :
    ∀ q ∈ tradable o (L.side o.side.opp), 0 < q.openQty := fun q hq =>
  (h.sound _ q (List.mem_of_mem_filter hq)).pos

theorem Inv.mem_afterMatch {L : Ladder} (h : L.Inv) {o : Order} {s : Side} {q : Quote}
    (hq : q ∈ (L.afterMatch o).side s) :
    q ∈ L.side s ∨ s = o.side.opp ∧ ∃ r ∈ L.side s, ∃ m, 0 < m ∧ m < r.openQty ∧ q = r.fill m := by
  rcases (o.side.eq_or_eq_opp s).symm with rfl | rfl
  · rw [afterMatch, set_side, List.mem_append] at hq
    rcases hq with hq | hq
    · rcases mem_residue Quote.fill_openQty (h.tradable_pos o) hq with hq | ⟨r, hr, hm⟩
      · exact Or.inl (List.mem_of_mem_filter hq)
      · exact Or.inr ⟨rfl, r, List.mem_of_mem_filter hr, hm⟩
    · exact Or.inl (List.mem_of_mem_filter hq)
  · rw [afterMatch, set_opp_side] at hq
    exact Or.inl hq

theorem Inv.fillsOf_bounds {L : Ladder} (h : L.Inv) {o : Order} {x : Quote × Int}
    (hx : x ∈ L.fillsOf o) :
    x.1 ∈ tradable o (L.side o.side.opp) ∧ 0 < x.2 ∧ x.2 ≤ x.1.openQty :=
  fill_bounds Quote.fill_openQty (h.tradable_pos o) hx

theorem Inv.addFills_pos {L : Ladder} (h : L.Inv) (o : Order) : ∀ x ∈ L.addFills o, 0 < x.2 := by
  intro x hx
  unfold addFills at hx
  split_ifs at hx
  · exact absurd hx List.not_mem_nil
  · exact (h.fillsOf_bounds hx).2.1

/-- The quantity an order takes from the quote with this id. -/
def takenFrom (L : Ladder) (o : Order) (id : OrderId) : Int :=
  given (fun q => q.order.id) id (L.fillsOf o)

theorem Inv.takenFrom_nonneg {L : Ladder} (h : L.Inv) (o : Order) (id : OrderId) :
    0 ≤ L.takenFrom o id :=
  List.sum_nonneg fun m hm => by
    obtain ⟨x, hx, rfl⟩ := List.mem_map.mp hm
    exact (h.fillsOf_bounds (List.mem_of_mem_filter hx)).2.1.le

theorem Inv.mem_afterMatch_takenFrom {L : Ladder} (h : L.Inv) {o : Order} {q : Quote}
    (hq : q ∈ (L.afterMatch o).all) :
    ∃ r ∈ L.all, q.frame = r.frame ∧ q.openQty = r.openQty - L.takenFrom o r.order.id ∧
      q.order.filledQty = r.order.filledQty + L.takenFrom o r.order.id := by
  -- a quote that is not tradable is not touched
  have hout : ∀ r ∈ L.all, r ∉ tradable o (L.side o.side.opp) → L.takenFrom o r.order.id = 0 := by
    intro r hr hnot
    refine given_of_not_mem fun x hx hid => hnot ?_
    have hx := (h.fillsOf_bounds hx).1
    have hxall := mem_all.mpr ⟨_, List.mem_of_mem_filter hx⟩
    exact h.eq_of_id hxall hr hid ▸ hx
  have hsame : ∀ r ∈ L.all, r ∉ tradable o (L.side o.side.opp) → q = r →
      ∃ r ∈ L.all, q.frame = r.frame ∧ q.openQty = r.openQty - L.takenFrom o r.order.id ∧
        q.order.filledQty = r.order.filledQty + L.takenFrom o r.order.id := by
    rintro r hr hnot rfl
    exact ⟨q, hr, rfl, by rw [hout q hr hnot, Int.sub_zero], by rw [hout q hr hnot, Int.add_zero]⟩
  obtain ⟨s, hq⟩ := mem_all.mp hq
  rcases (o.side.eq_or_eq_opp s).symm with rfl | rfl
  · rw [Ladder.afterMatch, set_side, List.mem_append] at hq
    rcases hq with hq | hq
    · have hnodup : ((tradable o (L.side o.side.opp)).map fun q => q.order.id).Nodup := by
        refine h.ids.sublist (List.Sublist.map _ (List.filter_sublist.trans ?_))
        cases o.side
        · exact List.sublist_append_right _ _
        · exact List.sublist_append_left _ _
      obtain ⟨r, hr, hqr⟩ :=
        mem_residue_given Quote.fill_openQty (h.tradable_pos o) hnodup hq
      refine ⟨r, mem_all.mpr ⟨_, List.mem_of_mem_filter hr⟩, ?_⟩
      unfold takenFrom fillsOf
      rcases hqr with ⟨rfl, hg⟩ | hg
      · rw [hg, Int.sub_zero, Int.add_zero]
        exact ⟨rfl, rfl, rfl⟩
      · rw [hg, Quote.fill_openQty, Quote.fill_frame]
        exact ⟨rfl, rfl, r.order.fill_filledQty _⟩
    · have hq := List.mem_filter.mp hq
      refine hsame q (mem_all.mpr ⟨_, hq.1⟩) (fun ht => ?_) rfl
      simpa [hq.2] using (List.mem_filter.mp ht).2
  · rw [Ladder.afterMatch, set_opp_side] at hq
    refine hsame q (mem_all.mpr ⟨_, hq⟩) (fun ht => ?_) rfl
    have hopp := (h.sound _ q (List.mem_of_mem_filter ht)).side
    rw [(h.sound _ q hq).side] at hopp
    exact o.side.opp_ne hopp.symm

theorem Inv.afterMatch {L : Ladder} (h : L.Inv) (o : Order) : (L.afterMatch o).Inv := by
  refine h.shrink (fun s => ?_) rfl (fun s q hq => ?_)
  · rcases (o.side.eq_or_eq_opp s).symm with rfl | rfl
    · rw [Ladder.afterMatch, set_side]
      conv_rhs => rw [← h.tradable_append o]
      rw [List.map_append, List.map_append]
      exact (residue_map_sublist _ _ Quote.fill_frame _ _).append (List.Sublist.refl _)
    · rw [Ladder.afterMatch, set_opp_side]
  · rcases h.mem_afterMatch hq with hq | ⟨-, r, hr, m, -, hm, rfl⟩
    · exact h.sound s q hq
    · exact (h.sound s r hr).fill hm

theorem Inv.cancel {L : Ladder} (h : L.Inv) (id : OrderId) : (L.cancel id).Inv :=
  h.shrink (fun _ => List.filter_sublist.map _) rfl fun s q hq =>
    h.sound s q (List.mem_of_mem_filter hq)

theorem Inv.untradable_of_rests {L : Ladder} (h : L.Inv) {o : Order} (hr : L.Rests o) :
    (L.afterMatch o).side o.side.opp = untradable o (L.side o.side.opp) := by
  obtain ⟨hrem, -, htif⟩ := hr
  have hd : L.demand o = o.quantity := by
    rw [demand, if_neg]
    rintro ⟨hfok, -⟩
    rw [hfok] at htif
    exact absurd htif (by decide)
  rw [remainder, fillsOf, ← hd] at hrem
  rw [Ladder.afterMatch, set_side, residue_eq_nil Quote.fill_openQty (h.tradable_pos o) (by omega),
    List.nil_append]

theorem beyondLimit_iff {o : Order} (ho : o.type = .limit) (p : Int) :
    beyondLimit o p = true ↔ o.side.opp.better o.price p := by
  cases hs : o.side <;> simp [beyondLimit, ho, hs, Side.opp, Side.better]

theorem Inv.rest {L : Ladder} (h : L.Inv) {o : Order} (hnew : ¬ L.Has o.id) {remaining : Int}
    (hrem : 0 < remaining) (hcross : ∀ q ∈ L.side o.side.opp, o.side.opp.better o.price q.price)
    (ts : Timestamp) : (L.rest o remaining ts).Inv := by
  set new := newQuote o remaining ts L.stamp
  have hside : (L.rest o remaining ts).side o.side =
      place (fun q => o.side.better o.price q.price) new (L.side o.side) := set_side _ _ _
  have hopp : (L.rest o remaining ts).side o.side.opp = L.side o.side.opp := set_side_opp _ _ _
  have hperm : (L.rest o remaining ts).all.Perm (new :: L.all) := L.rest_perm o remaining ts
  refine ⟨?_, ?_, ?_, ?_, ?_, ?_⟩
  · intro s q hq
    rcases o.side.eq_or_eq_opp s with rfl | rfl
    · rw [hside, mem_place] at hq
      rcases hq with rfl | hq
      · exact ⟨rfl, rfl, hrem.le, le_rfl, by simp [Quote.openQty, L3Order.openQty, new, newQuote, hrem]⟩
      · exact h.sound _ q hq
    · exact h.sound _ q (hopp ▸ hq)
  · rw [(hperm.map _).nodup_iff, List.map_cons, List.nodup_cons]
    refine ⟨fun hmem => hnew ?_, h.ids⟩
    obtain ⟨q, hq, hid⟩ := List.mem_map.mp hmem
    exact ⟨q, hq, hid⟩
  · rw [(hperm.map _).nodup_iff, List.map_cons, List.nodup_cons]
    refine ⟨fun hmem => ?_, h.stamps⟩
    obtain ⟨q, hq, haddr⟩ := List.mem_map.mp hmem
    exact absurd haddr (h.fresh q hq).ne
  · intro q hq
    rcases List.mem_cons.mp (hperm.mem_iff.mp hq) with rfl | hq
    · exact Nat.lt_succ_self L.stamp
    · exact (h.fresh q hq).trans (Nat.lt_succ_self L.stamp)
  · intro s
    rcases o.side.eq_or_eq_opp s with rfl | rfl
    · rw [hside]
      refine place_pairwise (h.ordered _) (fun q hq hw => ?_) fun q hq hw =>
        Or.inl (by simpa [new, newQuote] using hw)
      -- not worse than the new price: better, or the same price and an older stamp
      have hlt : q.addr < L.stamp := h.fresh q (mem_all.mpr ⟨_, hq⟩)
      rcases trichotomous_of o.side.better q.price o.price with hb | hb | hb
      · exact Or.inl hb
      · exact Or.inr ⟨hb, hlt⟩
      · exact absurd hb (by simpa using hw)
    · rw [hopp]
      exact h.ordered _
  · intro b hb a ha
    revert hside hopp hcross
    cases o.side <;> intro hcross hside hopp
    · rw [hside, mem_place] at hb
      rw [show (L.rest o remaining ts).side .sell = _ from hopp] at ha
      rcases hb with rfl | hb
      · exact hcross a ha
      · exact h.uncrossed b hb a ha
    · rw [hside, mem_place] at ha
      rw [show (L.rest o remaining ts).side .buy = _ from hopp] at hb
      rcases ha with rfl | ha
      · exact hcross b hb
      · exact h.uncrossed b hb a ha

theorem Inv.not_has_afterMatch {L : Ladder} (h : L.Inv) {o : Order} {id : OrderId}
    (hid : ¬ L.Has id) : ¬ (L.afterMatch o).Has id := by
  rintro ⟨q, hq, rfl⟩
  obtain ⟨s, hq⟩ := mem_all.mp hq
  rcases h.mem_afterMatch hq with hq | ⟨-, r, hr, m, -, -, rfl⟩
  · exact hid ⟨q, mem_all.mpr ⟨s, hq⟩, rfl⟩
  · exact hid ⟨r, mem_all.mpr ⟨s, hr⟩, (r.order.fill_id m).symm⟩

theorem Inv.rest_afterMatch {L : Ladder} (h : L.Inv) {o : Order} (hid : ¬ L.Has o.id)
    (hr : L.Rests o) (ts : Timestamp) : ((L.afterMatch o).rest o (L.remainder o) ts).Inv := by
  refine (h.afterMatch o).rest (h.not_has_afterMatch hid) hr.1 (fun q hq => ?_) ts
  rw [h.untradable_of_rests hr, untradable, List.mem_filter] at hq
  exact (beyondLimit_iff hr.2.1 q.price).mp hq.2

theorem Inv.mem_add {L : Ladder} (h : L.Inv) {o : Order} (hid : ¬ L.Has o.id) {ts : Timestamp}
    {q : Quote} (hq : q ∈ (L.add o ts).all) :
    L.Rests o ∧ q = newQuote o (L.remainder o) ts L.stamp ∨
      q.order.id ≠ o.id ∧ ∃ r ∈ L.all, q.frame = r.frame ∧
        q.openQty = r.openQty - L.takenFrom o r.order.id ∧
        q.order.filledQty = r.order.filledQty + L.takenFrom o r.order.id := by
  have hold : ∀ q ∈ (L.afterMatch o).all, q.order.id ≠ o.id := fun q hq hqid =>
    h.not_has_afterMatch hid ⟨q, hq, hqid⟩
  rw [Ladder.add, if_neg hid] at hq
  split_ifs at hq with hr
  · rcases List.mem_cons.mp ((rest_perm _ _ _ _).mem_iff.mp hq) with rfl | hq
    · exact Or.inl ⟨hr, rfl⟩
    · exact Or.inr ⟨hold q hq, h.mem_afterMatch_takenFrom hq⟩
  · exact Or.inr ⟨hold q hq, h.mem_afterMatch_takenFrom hq⟩

end Ladder

end HftSdk

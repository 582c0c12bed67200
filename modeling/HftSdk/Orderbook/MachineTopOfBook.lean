import HftSdk.Orderbook.MachineBook
import Mathlib.Tactic.Linarith
import Mathlib.Tactic.Ring

/-!
# The top of book on 64-bit integers

`top_of_book` adds the best prices, subtracts them, adds the sizes of the best levels and multiplies
prices by sizes, all in `int64_t`. The guard against an empty total also catches a total that wraps
to a negative number, but nothing looks at the other results. `PairFits` says what has to fit for the
mid and the microprice to lie inside the market; the two conditions on the prices are necessary, and
so is the one on the products unless the spread times the size is itself out of the range
(`top_inside`).
-/

namespace HftSdk

namespace MachineBook

open Machine

structure TopOfBook where
  symbol : Symbol := {}
  bestBid : BookLevel := {}
  bestAsk : BookLevel := {}
  midPrice : Int64 := 0
  microPrice : Int64 := 0
  spread : Int64 := 0
  timestamp : Timestamp := 0
  valid : Bool := false
deriving DecidableEq

/-- `a / b`; there is no quotient by zero. -/
def divide (a b : Int64) : Option Int64 := if b = 0 then none else some (a / b)

/-- `top_of_book`; there is no result when it divides by zero. -/
def topOfBook (b : L3OrderBook) (ts : Timestamp) : Option TopOfBook :=
  match bestBid b, bestAsk b with
  | some bb, some ba => do
    let midPrice ← divide (bb.price + ba.price) 2
    let totalQty := bb.qty + ba.qty
    let microPrice ←
      if 0 < totalQty then divide (bb.price * ba.qty + ba.price * bb.qty) totalQty
      else some midPrice
    return {
      symbol := b.symbol, timestamp := ts, valid := true, bestBid := bb, bestAsk := ba
      midPrice, spread := ba.price - bb.price, microPrice }
  | some bb, none => return {
      symbol := b.symbol, timestamp := ts, valid := true, bestBid := bb, midPrice := bb.price }
  | none, some ba => return {
      symbol := b.symbol, timestamp := ts, valid := true, bestAsk := ba, midPrice := ba.price }
  | none, none => return { symbol := b.symbol, timestamp := ts }

/-! ## What has to hold -/

/-- The prices of a top of book lie inside the market. -/
structure InMarket (tob : TopOfBook) : Prop where
  spread : 0 < tob.spread
  mid : tob.bestBid.price ≤ tob.midPrice ∧ tob.midPrice ≤ tob.bestAsk.price
  micro : tob.bestBid.price ≤ tob.microPrice ∧ tob.microPrice ≤ tob.bestAsk.price

/-- With orders on both sides there is a top of book, and its prices lie inside the market. -/
def Inside (b : L3OrderBook) : Prop :=
  b.bids.entries ≠ [] → b.asks.entries ≠ [] → ∀ ts, ∃ tob, topOfBook b ts = some tob ∧ InMarket tob

/-- What has to fit, of the exact best levels. A total size between `2 ^ 63` and `2 ^ 64` is
harmless, for it wraps to a negative number and is not divided by. -/
structure PairFits (bb ba : HftSdk.BookLevel) : Prop where
  sum : Fits (bb.price + ba.price)
  spread : Fits (ba.price - bb.price)
  size : bb.qty + ba.qty ≤ 2 ^ 64
  weighted : bb.qty + ba.qty < 2 ^ 63 → Fits (bb.price * ba.qty + ba.price * bb.qty)

instance (bb ba : HftSdk.BookLevel) : Decidable (PairFits bb ba) :=
  decidable_of_iff (_ ∧ _ ∧ _ ∧ _)
    ⟨fun ⟨hsum, hspread, hsize, hweighted⟩ => ⟨hsum, hspread, hsize, hweighted⟩,
      fun ⟨hsum, hspread, hsize, hweighted⟩ => ⟨hsum, hspread, hsize, hweighted⟩⟩

def TopFits (b : L3OrderBook) : Prop := ∀ bb ∈ b.bestBid, ∀ ba ∈ b.bestAsk, PairFits bb ba

instance (b : L3OrderBook) : Decidable (TopFits b) := by
  unfold TopFits
  infer_instance

/-- The part of it that is about prices. -/
def PricesFit (b : L3OrderBook) : Prop :=
  ∀ bb ∈ b.bestBid, ∀ ba ∈ b.bestAsk, Fits (bb.price + ba.price) ∧ Fits (ba.price - bb.price)

/-- The spread of the book times the size of its best levels is in the range. -/
def Narrow (b : L3OrderBook) : Prop :=
  ∀ bb ∈ b.bestBid, ∀ ba ∈ b.bestAsk, (ba.price - bb.price) * (bb.qty + ba.qty) ≤ 2 ^ 63

/-! ## Prices -/

section Pair

variable {bid ask : Int}

theorem spread_pos_iff (hbid : Fits bid) (hask : Fits ask) (hlt : bid < ask) :
    0 < Int64.ofInt ask - .ofInt bid ↔ Fits (ask - bid) := by
  obtain ⟨hblo, hbhi⟩ := hbid
  obtain ⟨halo, hahi⟩ := hask
  rw [← Int64.ofInt_sub, pos_iff, toInt_ofInt_cases (by omega) (by omega), Fits]
  split_ifs <;> omega

theorem mid_inside_iff (hbid : Fits bid) (hask : Fits ask) (hlt : bid < ask) :
    let mid := (Int64.ofInt bid + .ofInt ask) / 2
    (.ofInt bid ≤ mid ∧ mid ≤ .ofInt ask) ↔ Fits (bid + ask) := by
  intro mid
  have hmid : mid.toInt = (Int64.ofInt (bid + ask)).toInt.tdiv 2 := by
    rw [Int64.ofInt_add]
    exact toInt_div_of_pos _ (by decide)
  rw [ofInt_le_iff hbid, le_ofInt_iff hask, hmid]
  have htwo : (0 : Int) < 2 := by omega
  obtain ⟨hblo, hbhi⟩ := hbid
  obtain ⟨halo, hahi⟩ := hask
  rw [toInt_ofInt_cases (by omega) (by omega)]
  constructor
  · rintro ⟨hlo, hhi⟩
    have hlo := lt_of_le_tdiv htwo hlo
    have hhi := lt_of_tdiv_le htwo hhi
    unfold Fits
    split_ifs at hlo hhi <;> omega
  · rintro ⟨hlo, hhi⟩
    rw [if_neg (not_lt.mpr hlo), if_pos hhi]
    exact ⟨Int.le_tdiv_of_mul_le htwo (by omega), tdiv_le htwo (by omega)⟩

/-! ## The microprice -/

variable {bq aq : Int}

theorem weighted_bounds (hlt : bid < ask) (hbq : 0 ≤ bq) (haq : 0 ≤ aq) :
    bid * (bq + aq) ≤ bid * aq + ask * bq ∧ bid * aq + ask * bq ≤ ask * (bq + aq) := by
  constructor <;> nlinarith

theorem size_of_pos (hbq : 0 ≤ bq) (haq : 0 ≤ aq) (hsize : bq + aq ≤ 2 ^ 64)
    (hpos : 0 < Int64.ofInt (bq + aq)) : bq + aq < 2 ^ 63 := by
  rw [pos_iff] at hpos
  rcases eq_or_lt_of_le hsize with hturn | hlt
  · rw [hturn] at hpos
    exact absurd hpos (by decide)
  · rw [toInt_ofInt_cases (by omega) hlt] at hpos
    split_ifs at hpos <;> omega

theorem micro_inside (hbid : Fits bid) (hask : Fits ask) (hlt : bid < ask) (hbq : 0 ≤ bq)
    (haq : 0 ≤ aq) (hsize : bq + aq ≤ 2 ^ 64)
    (hfits : bq + aq < 2 ^ 63 → Fits (bid * aq + ask * bq)) (hpos : 0 < Int64.ofInt (bq + aq)) :
    let micro := Int64.ofInt (bid * aq + ask * bq) / .ofInt (bq + aq)
    .ofInt bid ≤ micro ∧ micro ≤ .ofInt ask := by
  intro micro
  have hexact := size_of_pos hbq haq hsize hpos
  have htotal : (Int64.ofInt (bq + aq)).toInt = bq + aq :=
    (toInt_ofInt_eq_iff_lt (by omega)).mpr hexact
  have hsum : 0 < bq + aq := by
    rw [← htotal]
    exact pos_iff.mp hpos
  have hmicro : micro.toInt = (bid * aq + ask * bq).tdiv (bq + aq) := by
    rw [toInt_div_of_pos _ (by omega), htotal, toInt_ofInt_iff.mpr (hfits hexact)]
  obtain ⟨hlo, hhi⟩ := weighted_bounds hlt hbq haq
  rw [ofInt_le_iff hbid, le_ofInt_iff hask, hmicro]
  exact ⟨Int.le_tdiv_of_mul_le hsum hlo, tdiv_le hsum hhi⟩

theorem weighted_fits (hbid : Fits bid) (hask : Fits ask) (hlt : bid < ask) (hbq : 0 ≤ bq)
    (haq : 0 ≤ aq) (hexact : bq + aq < 2 ^ 63) (hnarrow : (ask - bid) * (bq + aq) ≤ 2 ^ 63)
    (hin : 0 < Int64.ofInt (bq + aq) →
      let micro := Int64.ofInt (bid * aq + ask * bq) / .ofInt (bq + aq)
      .ofInt bid ≤ micro ∧ micro ≤ .ofInt ask) : Fits (bid * aq + ask * bq) := by
  have htotal : (Int64.ofInt (bq + aq)).toInt = bq + aq :=
    (toInt_ofInt_eq_iff_lt (by omega)).mpr hexact
  rcases eq_or_lt_of_le (show 0 ≤ bq + aq by omega) with hzero | hsum
  · obtain ⟨rfl, rfl⟩ : bq = 0 ∧ aq = 0 := by omega
    rw [Int.mul_zero, Int.mul_zero]
    decide
  · have hpos : 0 < Int64.ofInt (bq + aq) := by
      rw [pos_iff, htotal]
      exact hsum
    obtain ⟨hlo, hhi⟩ := hin hpos
    rw [ofInt_le_iff hbid, toInt_div_of_pos _ (by omega), htotal] at hlo
    rw [le_ofInt_iff hask, toInt_div_of_pos _ (by omega), htotal] at hhi
    have hlo := lt_of_le_tdiv hsum hlo
    have hhi := lt_of_tdiv_le hsum hhi
    rw [← toInt_ofInt_iff]
    obtain ⟨k, hk⟩ := toInt_ofInt_turns (bid * aq + ask * bq)
    rw [hk] at hlo hhi ⊢
    -- how far the exact sum is from either end of the market
    have hup : (ask - bid) * bq ≤ (ask - bid) * (bq + aq) :=
      Int.mul_le_mul_of_nonneg_left (by omega) (by omega)
    have hdown : (ask - bid) * aq ≤ (ask - bid) * (bq + aq) :=
      Int.mul_le_mul_of_nonneg_left (by omega) (by omega)
    have hbelow : bid * aq + ask * bq = (bid - 1) * (bq + aq) + (bq + aq) + (ask - bid) * bq := by
      ring
    have habove : (ask + 1) * (bq + aq) = bid * aq + ask * bq + (bq + aq) + (ask - bid) * aq := by
      ring
    omega

end Pair

/-! ## The top of a book -/

section Book

variable {b : L3OrderBook} {bb ba : HftSdk.BookLevel}

theorem topOfBook_eq (hbb : b.bestBid = some bb) (hba : b.bestAsk = some ba) (ts : Timestamp) :
    topOfBook b ts = some
      { symbol := b.symbol, timestamp := ts, valid := true
        bestBid := machineLevel bb, bestAsk := machineLevel ba
        midPrice := (.ofInt bb.price + .ofInt ba.price) / 2
        spread := .ofInt ba.price - .ofInt bb.price
        microPrice :=
          if 0 < Int64.ofInt (bb.qty + ba.qty) then
            .ofInt (bb.price * ba.qty + ba.price * bb.qty) / .ofInt (bb.qty + ba.qty)
          else (.ofInt bb.price + .ofInt ba.price) / 2 } := by
  have hdivide : ∀ n d : Int64, 0 < d → divide n d = some (n / d) := by
    intro n d hd
    apply if_neg
    rintro rfl
    exact absurd hd (by decide)
  unfold topOfBook
  rw [bestBid_eq, bestAsk_eq, hbb, hba]
  simp only [Option.map_some, machineLevel, Int64.ofInt_add, Int64.ofInt_mul]
  rw [hdivide _ 2 (by decide)]
  by_cases hpos : 0 < Int64.ofInt bb.qty + .ofInt ba.qty
  · rw [if_pos hpos, hdivide _ _ hpos]
    simp only [Option.bind_eq_bind, Option.bind_some, if_pos hpos]
    rfl
  · simp only [Option.bind_eq_bind, Option.bind_some, if_neg hpos]
    rfl

theorem bestBid_mem (hbb : b.bestBid = some bb) :
    ∃ e ∈ (b.levels .buy).entries, HftSdk.bookLevel e = bb := by
  obtain ⟨e, he, heq⟩ := Option.map_eq_some_iff.mp hbb
  exact ⟨e, List.mem_of_mem_head? he, heq⟩

theorem bestAsk_mem (hba : b.bestAsk = some ba) :
    ∃ e ∈ (b.levels .sell).entries, HftSdk.bookLevel e = ba := by
  obtain ⟨e, he, heq⟩ := Option.map_eq_some_iff.mp hba
  exact ⟨e, List.mem_of_mem_head? he, heq⟩

theorem Inv.best (h : Inv b) (hbb : b.bestBid = some bb) (hba : b.bestAsk = some ba) :
    Fits bb.price ∧ Fits ba.price ∧ bb.price < ba.price ∧ 0 ≤ bb.qty ∧ 0 ≤ ba.qty := by
  obtain ⟨e, he, rfl⟩ := bestBid_mem hbb
  obtain ⟨e', he', rfl⟩ := bestAsk_mem hba
  obtain ⟨⟨q, hq, hprice⟩, hbid, hbq⟩ := h.level he
  obtain ⟨⟨r, hr, hprice'⟩, hask, haq⟩ := h.level he'
  have hlt := h.repInv.inv.uncrossed q hq r hr
  rw [hprice, hprice'] at hlt
  exact ⟨hbid, hask, hlt, hbq, haq⟩

theorem inside_iff (b : L3OrderBook) :
    Inside b ↔ ∀ bb ∈ b.bestBid, ∀ ba ∈ b.bestAsk, ∀ ts, ∃ tob, topOfBook b ts = some tob ∧
      InMarket tob := by
  have hside : ∀ l : List (Int × OrderQueue), (∃ lvl, lvl ∈ l.head?.map HftSdk.bookLevel) ↔ l ≠ [] := by
    intro l
    cases l <;> simp
  unfold Inside
  rw [← hside b.bids.entries, ← hside b.asks.entries]
  constructor
  · intro h bb hbb ba hba
    exact h ⟨bb, hbb⟩ ⟨ba, hba⟩
  · rintro h ⟨bb, hbb⟩ ⟨ba, hba⟩
    exact h bb hbb ba hba

theorem Inv.inside_of_fits (h : Inv b) (hfits : TopFits b) : Inside b := by
  rw [inside_iff]
  intro bb hbb ba hba ts
  obtain ⟨hbid, hask, hlt, hbq, haq⟩ := h.best hbb hba
  obtain ⟨hsum, hspread, hsize, hweighted⟩ := hfits bb hbb ba hba
  have hmid := (mid_inside_iff hbid hask hlt).mpr hsum
  refine ⟨_, topOfBook_eq hbb hba ts, (spread_pos_iff hbid hask hlt).mpr hspread, hmid, ?_⟩
  dsimp only [machineLevel]
  split_ifs with hpos
  · exact micro_inside hbid hask hlt hbq haq hsize hweighted hpos
  · exact hmid

theorem Inv.fits_of_inside (h : Inv b) (hin : Inside b) :
    PricesFit b ∧ (Narrow b → TopFits b) := by
  have hpair : ∀ bb ∈ b.bestBid, ∀ ba ∈ b.bestAsk,
      (Fits (bb.price + ba.price) ∧ Fits (ba.price - bb.price)) ∧ (Narrow b → PairFits bb ba) := by
    intro bb hbb ba hba
    obtain ⟨hbid, hask, hlt, hbq, haq⟩ := h.best hbb hba
    obtain ⟨tob, htob, hspread, hmid, hmicro⟩ := (inside_iff b).mp hin bb hbb ba hba 0
    rw [topOfBook_eq hbb hba, Option.some_inj] at htob
    subst htob
    have hsum := (mid_inside_iff hbid hask hlt).mp hmid
    have hdiff := (spread_pos_iff hbid hask hlt).mp hspread
    refine ⟨⟨hsum, hdiff⟩, fun hnarrow => ?_⟩
    have hn := hnarrow bb hbb ba hba
    have hsize : 1 * (bb.qty + ba.qty) ≤ (ba.price - bb.price) * (bb.qty + ba.qty) :=
      Int.mul_le_mul_of_nonneg_right (by omega) (by omega)
    refine ⟨hsum, hdiff, by omega, fun hexact => ?_⟩
    apply weighted_fits hbid hask hlt hbq haq hexact hn
    intro hpos
    dsimp only at hmicro
    rwa [if_pos hpos] at hmicro
  constructor
  · intro bb hbb ba hba
    exact (hpair bb hbb ba hba).1
  · intro hnarrow bb hbb ba hba
    exact (hpair bb hbb ba hba).2 hnarrow

end Book

/-! ## Runs -/

/-- **The top of book lies inside the market** after every call of a run in which, after every call,
what it is computed from fits. Where it lies inside, the sum and the difference of the best prices
do fit, and unless the spread times the size is out of the range, so does the rest. -/
theorem top_inside (symbol : Symbol) (ops : List Op) :
    (Run.Along next (fun b op => TopFits (next b op)) (.create symbol) ops →
        Run.Along next (fun b op => Inside (next b op)) (.create symbol) ops) ∧
      (Run.Along next (fun b op => Inside (next b op)) (.create symbol) ops →
        Run.Along next (fun b op => PricesFit (next b op) ∧ (Narrow (next b op) → TopFits (next b op)))
          (.create symbol) ops) := by
  constructor
  · intro h
    refine h.imp (I := Inv) (fun b op hinv hfits => ?_) (inv_create symbol)
    exact ⟨hinv.next op, (hinv.next op).inside_of_fits hfits⟩
  · intro h
    refine h.imp (I := Inv) (fun b op hinv hin => ?_) (inv_create symbol)
    exact ⟨hinv.next op, (hinv.next op).fits_of_inside hin⟩

/-- Calls that put a bid and an ask on the book. -/
def twoSided (bid bq ask aq : Int) (h : Fits bid ∧ Fits bq) (h' : Fits ask ∧ Fits aq) : List Op :=
  [⟨.add { id := 1, traderId := 1, side := .buy, price := bid, quantity := bq } 0, h⟩,
    ⟨.add { id := 2, traderId := 2, side := .sell, price := ask, quantity := aq } 1, h'⟩]

/-- A market of 5 at 99 and 5 at 101. -/
theorem top_inside_two_sided :
    Run.Along next (fun b op => Inside (next b op)) (.create {})
      (twoSided 99 5 101 5 (by decide) (by decide)) :=
  (top_inside {} (twoSided 99 5 101 5 (by decide) (by decide))).1 (by decide)

/-- A thousand million a side, at prices of ten thousand million. -/
def outsized : List Op :=
  twoSided 10000000000 1000000000 10000000001 1000000000 (by decide) (by decide)

/-- Its weighted sum, twice ten to the nineteenth, wraps around, and the microprice is less than a
tenth of the bid. -/
theorem micro_price_outside :
    ¬ ∀ (symbol : Symbol) (ops : List Op),
      Run.Along next (fun b op => Inside (next b op)) (.create symbol) ops := by
  intro h
  obtain ⟨-, hin, -⟩ := h {} outsized
  obtain ⟨tob, htob, -, -, hbid, -⟩ := hin (by decide) (by decide) 2
  have hmicro : (topOfBook (run (.create {}) outsized) 2).map
      (fun tob => decide (tob.bestBid.price ≤ tob.microPrice)) = some false := by decide
  have hsome := hmicro.symm.trans (congrArg (Option.map _) htob)
  simp [hbid] at hsome

end MachineBook

end HftSdk

import HftSdk.Orderbook.MachineBook

/-!
# What `add_order` reports on 64-bit integers

An order that the scan kills is reported like one that finds nothing: a limit order as rejected, and
a market order as new, with all of its quantity as leaves. What the scan finds for a market order is
told by the totals of the front parts of the levels (`FrontCovers`), each wrapped around on its own.
`report_iff` says exactly when the report is true of the book.
-/

namespace HftSdk

namespace MachineBook

open L3OrderBook (Truthful)
open Machine (Fits ofInt_le_iff)

/-- An order as the code can receive it. -/
abbrev MachineOrder := { o : Order // Fits o.price ∧ Fits o.quantity }

variable {b : L3OrderBook} {o : Order} {ts : Timestamp}

/-! ## The scan for a market order -/

/-- The open quantity of the first `k` levels. -/
def frontQty (levels : List (Int × OrderQueue)) (k : ℕ) : Int :=
  ((levels.take k).map fun e => (e.2.map fun n => n.val.openQty).sum).sum

/-- Some front part of the levels on the other side has, as an `int64_t`, the quantity of the order. -/
def FrontCovers (b : L3OrderBook) (o : Order) : Prop :=
  ∃ k ≤ (b.levels o.side.opp).entries.length,
    o.quantity ≤ (Int64.ofInt (frontQty (b.levels o.side.opp).entries k)).toInt

@[simp] theorem frontQty_zero (levels : List (Int × OrderQueue)) : frontQty levels 0 = 0 := rfl

@[simp] theorem frontQty_succ (e : Int × OrderQueue) (levels : List (Int × OrderQueue)) (k : ℕ) :
    frontQty (e :: levels) (k + 1) = (e.2.map fun n => n.val.openQty).sum + frontQty levels k := rfl

/-- The scan stops at the first front part that covers the order. -/
theorem le_fokAvailable_iff (hmarket : o.type = .market) (hq : Fits o.quantity)
    {levels : List (Int × OrderQueue)} {x : Int} (hx : ¬ o.quantity ≤ (Int64.ofInt x).toInt) :
    o.quantity ≤ (fokAvailable o levels (.ofInt x)).toInt ↔
      ∃ k ≤ levels.length, o.quantity ≤ (Int64.ofInt (x + frontQty levels k)).toInt := by
  induction levels generalizing x with
  | nil =>
    refine iff_of_false hx ?_
    rintro ⟨k, hk, hcovers⟩
    obtain rfl := Nat.le_zero.mp hk
    rw [frontQty_zero, Int.add_zero] at hcovers
    exact hx hcovers
  | cons e levels ih =>
    obtain ⟨p, queue⟩ := e
    have hbeyond : beyondLimit o p = false := by simp [beyondLimit, hmarket]
    rw [fokAvailable]
    simp only [hbeyond, Bool.false_eq_true, if_false, scan_level, ofInt_le_iff hq]
    have hshift : ∀ k, x + frontQty ((p, queue) :: levels) (k + 1) =
        x + (queue.map fun n => n.val.openQty).sum + frontQty levels k := by
      intro k
      rw [frontQty_succ, Int.add_assoc]
    split_ifs with hbreak
    · refine iff_of_true hbreak ⟨1, Nat.succ_pos _, ?_⟩
      rw [hshift, frontQty_zero, Int.add_zero]
      exact hbreak
    · rw [ih hbreak]
      constructor
      · rintro ⟨k, hk, hcovers⟩
        exact ⟨k + 1, Nat.succ_le_succ hk, by rwa [hshift]⟩
      · rintro ⟨k, hk, hcovers⟩
        cases k with
        | zero =>
          rw [frontQty_zero, Int.add_zero] at hcovers
          exact absurd hcovers hx
        | succ k => exact ⟨k, Nat.le_of_succ_le_succ hk, by rwa [hshift] at hcovers⟩

theorem not_kills_iff (hmarket : o.type = .market) (hq : Fits o.quantity) (hpos : 0 < o.quantity) :
    ¬ Kills b o ↔ (o.tif = .fok → FrontCovers b o) := by
  have hzero : ¬ o.quantity ≤ (Int64.ofInt 0).toInt := not_le.mpr hpos
  have hscan : o.quantity ≤ (fokAvailable o (b.levels o.side.opp).entries 0).toInt ↔
      FrontCovers b o := by
    refine (le_fokAvailable_iff hmarket hq hzero).trans ?_
    simp only [Int.zero_add]
    rfl
  rw [Kills, not_and, Machine.lt_ofInt_iff hq, not_lt]
  exact imp_congr_right fun _ => hscan

/-! ## The report -/

theorem truthful_of_quiet {r : BookResult} (hid : o.id ∉ b.orderIndex) (htrades : r.trades = [])
    (hbook : r.book = b) (hfilled : r.rpt.filledQty = 0) (hleaves : r.rpt.leavesQty = 0)
    (hstatus : r.rpt.status = .filled ∨ r.rpt.status = .rejected) : Truthful b o r := by
  have hplaces : ¬ b.Places o r := fun hp => hid (hbook ▸ hp.2)
  refine ⟨by rw [hfilled, htrades]; rfl, iff_of_false (not_not.mpr hleaves) hplaces,
    fun hp => absurd hp hplaces, fun _ => ?_⟩
  rcases hstatus with hs | hs
  · exact Or.inl hs
  · exact Or.inr (Or.inr (Or.inl hs))

theorem truthful_iff_of_kills (hid : o.id ∉ b.orderIndex) (hkills : Kills b o) :
    Truthful b o (submit b o ts) ↔ o.quantity = 0 ∨ 0 < o.quantity ∧ o.type = .limit := by
  obtain ⟨htrades, hbook, hrpt⟩ := submit_of_kills hid hkills ts
  generalize submit b o ts = r at htrades hbook hrpt
  have hplaces : ¬ b.Places o r := fun hp => hid (hbook ▸ hp.2)
  have hioc : ¬ (0 < o.quantity ∧ o.type = .limit ∧ o.tif = .ioc) := by
    rintro ⟨-, -, htif⟩
    rw [hkills.1] at htif
    cases htif
  rw [L3OrderBook.reported, if_neg hioc] at hrpt
  by_cases hzero : o.quantity = 0
  · rw [if_pos hzero] at hrpt
    simp only [Prod.mk.injEq] at hrpt
    obtain ⟨hs, hf, hl, -⟩ := hrpt
    exact iff_of_true (truthful_of_quiet hid htrades hbook (hf.trans hzero) hl (Or.inl hs))
      (Or.inl hzero)
  · rw [if_neg hzero] at hrpt
    by_cases hlimit : 0 < o.quantity ∧ o.type = .limit
    · rw [if_pos ⟨hlimit.1, hlimit.2, hkills.1⟩] at hrpt
      simp only [Prod.mk.injEq] at hrpt
      obtain ⟨hs, hf, hl, -⟩ := hrpt
      exact iff_of_true (truthful_of_quiet hid htrades hbook hf hl (Or.inr hs)) (Or.inr hlimit)
    · -- all of it is reported as leaves, and nothing rests
      rw [if_neg fun hc => hlimit ⟨hc.1, hc.2.1⟩] at hrpt
      simp only [Prod.mk.injEq] at hrpt
      refine iff_of_false (fun ht => ?_) (not_or.mpr ⟨hzero, hlimit⟩)
      exact hplaces (ht.leaves.mp (hrpt.2.2.1.trans_ne hzero))

theorem truthful_submit_iff (h : b.RepInv) (hq : Fits o.quantity) :
    Truthful b o (submit b o ts) ↔ o.id ∈ b.orderIndex ∨ o.quantity = 0 ∨
      0 < o.quantity ∧ (o.type = .limit ∨ o.quantity ≤ b.tradableQty o ∧ ¬ Kills b o) := by
  by_cases hkills : Kills b o
  · by_cases hid : o.id ∈ b.orderIndex
    · have hdup : submit b o ts = b.addOrder o ts := by
        unfold submit L3OrderBook.addOrder
        rw [if_pos hid, if_pos hid]
      rw [hdup]
      exact iff_of_true ((h.truthful_iff o ts).mpr (Or.inl hid)) (Or.inl hid)
    · rw [truthful_iff_of_kills hid hkills, or_iff_right hid]
      simp only [hkills, not_true_eq_false, and_false, or_false]
  · rw [submit_of_not_kills h hq hkills, h.truthful_iff]
    simp only [hkills, not_false_eq_true, and_true]

/-- **When the report tells the truth**: always for a duplicate, for quantity zero and for a limit
order of positive quantity, and for a market order exactly when the other side can fill it and, if it
is fill-or-kill, some front part of that side covers it in 64 bits. -/
theorem report_iff (symbol : Symbol) (ops : List Op) (order : MachineOrder) (ts : Timestamp) :
    let b := run (.create symbol) ops
    let o := order.1
    Truthful b o (submit b o ts) ↔ o.id ∈ b.orderIndex ∨ o.quantity = 0 ∨
      0 < o.quantity ∧
        (o.type = .limit ∨ o.quantity ≤ b.tradableQty o ∧ (o.tif = .fok → FrontCovers b o)) := by
  have h := inv_run symbol ops
  obtain ⟨o, -, hq⟩ := order
  dsimp only
  generalize run (.create symbol) ops = b at h
  rw [truthful_submit_iff h.repInv hq]
  refine or_congr_right (or_congr_right (and_congr_right fun hpos => ?_))
  cases ht : o.type with
  | limit => exact iff_of_true (Or.inl rfl) (Or.inl rfl)
  | market => rw [not_kills_iff ht hq hpos]

/-- A market order for 10 against 4 on the book: 6 are reported as leaves, and nothing rests. -/
theorem market_remainder_not_placed :
    ¬ ∀ (symbol : Symbol) (ops : List Op) (order : MachineOrder) (ts : Timestamp),
      Truthful (run (.create symbol) ops) order.1 (submit (run (.create symbol) ops) order.1 ts) := by
  intro h
  have hfalse := h {} [⟨.add { id := 1, traderId := 1, side := .sell, price := 100, quantity := 4 } 0,
    by decide⟩] ⟨{ id := 2, traderId := 2, type := .market, quantity := 10 }, by decide⟩ 1
  obtain ⟨-, hplaced⟩ := hfalse.leaves.mp (by decide)
  revert hplaced
  decide

end MachineBook

end HftSdk

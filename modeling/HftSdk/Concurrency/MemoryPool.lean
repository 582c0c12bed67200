import HftSdk.Lib.LinkedStack
import HftSdk.Lib.Run
import Mathlib.Data.List.FinRange
import Mathlib.Algebra.Ring.Nat

/-!
# The lock-free memory pool

`common/memory_pool.hpp`. Threads `allocate` and `deallocate` slots; a step is one load of
`free_head_`, one access to a `next_free` or one compare-exchange, and the steps interleave in any way.
Objects are not modelled, assertions are compiled out. A slot may be deallocated by whoever owns it,
and ownership may have been passed on: any thread may deallocate a live slot.

The compare-exchange of `allocate` looks at the head only. It goes wrong when the head is the one that
was read but its successor is not any more; otherwise the free list is a stack.
-/

namespace HftSdk

open LinkedStack

namespace MemoryPool

/-- A slot's bookkeeping, without its storage. -/
structure Slot where
  next_free : UInt32
  in_use : Bool := false
deriving DecidableEq

/-- Where a thread is: outside; in `allocate` before the load of `free_head_`, before the read of the
head's successor, before the compare-exchange, before the return; in `deallocate` before the load of
`free_head_`, before the write of the slot's successor, before the compare-exchange, before the
return. -/
inductive Thread (capacity : Nat)
  | idle
  | allocLoad
  | allocRead (head : Fin capacity)
  | allocExchange (head : Fin capacity) (next : UInt32)
  | allocDone (slot : Fin capacity)
  | freeLoad (slot : Fin capacity)
  | freeWrite (slot : Fin capacity) (head : UInt32)
  | freeExchange (slot : Fin capacity) (head : UInt32)
  | freeDone
deriving DecidableEq

end MemoryPool

open MemoryPool in
/-- The pool, its threads, and the slots that were returned and not deallocated since. -/
structure MemoryPool (capacity : Nat) (τ : Type) where
  slots_ : Fin capacity → Slot
  free_head_ : UInt32 := 0
  allocated_ : UInt64 := 0
  threads : τ → Thread capacity := fun _ => .idle
  live : List (Fin capacity) := []

namespace MemoryPool

variable {capacity : Nat} {τ : Type}

/-- `MemoryPool()`: every slot is followed by the next one. -/
def create (capacity : Nat) (τ : Type) : MemoryPool capacity τ where
  slots_ i := { next_free := .ofNat (i + 1) }

/-- The slot an index stands for; an index that is not below the capacity is the end of the list. -/
def slotOf (capacity : Nat) (head : UInt32) : Option (Fin capacity) :=
  if h : head.toNat < capacity then some ⟨head.toNat, h⟩ else none

/-- The index of a slot. -/
def indexOf (slot : Fin capacity) : UInt32 := .ofNat slot

/-- `allocate` looks at the head it has: it returns null when the pool is exhausted. -/
def tested (head : UInt32) : Thread capacity :=
  match slotOf capacity head with
  | none => .idle
  | some slot => .allocRead slot

/-- A call, or the next step of the call a thread is in; a weak compare-exchange may fail for no
reason. -/
inductive Action (capacity : Nat) (τ : Type)
  | allocate (t : τ)
  | deallocate (t : τ) (slot : Fin capacity)
  | advance (t : τ) (spurious : Bool)

variable [DecidableEq τ]

def setThread (s : MemoryPool capacity τ) (t : τ) (th : Thread capacity) : MemoryPool capacity τ :=
  { s with threads := Function.update s.threads t th }

def setSlot (s : MemoryPool capacity τ) (slot : Fin capacity) (v : Slot) : MemoryPool capacity τ :=
  { s with slots_ := Function.update s.slots_ slot v }

/-- A thread's next step. -/
def advance (s : MemoryPool capacity τ) (t : τ) (spurious : Bool) : MemoryPool capacity τ :=
  match s.threads t with
  | .idle => s
  | .allocLoad => s.setThread t (tested s.free_head_)
  | .allocRead head => s.setThread t (.allocExchange head (s.slots_ head).next_free)
  | .allocExchange head next =>
    if s.free_head_ = indexOf head ∧ spurious = false then
      { s.setThread t (.allocDone head) with free_head_ := next }
    else s.setThread t (tested s.free_head_)
  | .allocDone slot =>
    { (s.setThread t .idle).setSlot slot { s.slots_ slot with in_use := true } with
      allocated_ := s.allocated_ + 1
      live := slot :: s.live }
  | .freeLoad slot => s.setThread t (.freeWrite slot s.free_head_)
  | .freeWrite slot head =>
    (s.setThread t (.freeExchange slot head)).setSlot slot { s.slots_ slot with next_free := head }
  | .freeExchange slot head =>
    if s.free_head_ = head ∧ spurious = false then
      { s.setThread t .freeDone with free_head_ := indexOf slot }
    else s.setThread t (.freeWrite slot s.free_head_)
  | .freeDone => { s.setThread t .idle with allocated_ := s.allocated_ - 1 }

/-- One step; a thread that is in a call makes no other, and only a live slot is deallocated. -/
def step (s : MemoryPool capacity τ) : Action capacity τ → MemoryPool capacity τ
  | .allocate t => if s.threads t = .idle then s.setThread t .allocLoad else s
  | .deallocate t slot =>
    if s.threads t = .idle ∧ slot ∈ s.live then
      { (s.setThread t (.freeLoad slot)).setSlot slot { s.slots_ slot with in_use := false } with
        live := s.live.erase slot }
    else s
  | .advance t spurious => s.advance t spurious

/-! ## What the pool promises -/

/-- The slot that a step returns from `allocate`. -/
def returned (s : MemoryPool capacity τ) : Action capacity τ → Option (Fin capacity)
  | .advance t _ =>
    match s.threads t with
    | .allocDone slot => some slot
    | _ => none
  | _ => none

/-- No live slot is returned. -/
def ReturnsDead (s : MemoryPool capacity τ) (a : Action capacity τ) : Prop :=
  ∀ slot ∈ s.returned a, slot ∉ s.live

instance (s : MemoryPool capacity τ) (a : Action capacity τ) : Decidable (s.ReturnsDead a) :=
  inferInstanceAs (Decidable (∀ slot ∈ s.returned a, slot ∉ s.live))

/-- No call is in progress. -/
def Quiescent (s : MemoryPool capacity τ) : Prop := ∀ t, s.threads t = .idle

/-- Every slot is live, or reachable from `free_head_`, and only once. -/
def Partitioned (s : MemoryPool capacity τ) : Prop :=
  ∃ l, Chain (slotOf capacity) (fun slot => (s.slots_ slot).next_free) s.free_head_ l ∧
    ∀ slot, l.count slot + s.live.count slot = 1

/-- **The promise** for a run: no live slot is returned again, and whenever no call is in progress no
slot is lost. -/
structure Safe (s : MemoryPool capacity τ) (acts : List (Action capacity τ)) : Prop where
  returns : Run.Along step ReturnsDead s acts
  partitioned : (acts.foldl step s).Quiescent → (acts.foldl step s).Partitioned

/-- A thread whose compare-exchange in `allocate` would succeed has read what still is the head's
successor. -/
def FreshExchange (s : MemoryPool capacity τ) : Thread capacity → Prop
  | .allocExchange head next => s.free_head_ = indexOf head → (s.slots_ head).next_free = next
  | _ => True

instance (s : MemoryPool capacity τ) (th : Thread capacity) : Decidable (s.FreshExchange th) := by
  cases th <;> unfold FreshExchange <;> infer_instance

/-- No compare-exchange of an `allocate` succeeds with a successor that was read too early. -/
def Fresh (s : MemoryPool capacity τ) : Action capacity τ → Prop
  | .advance t false => s.FreshExchange (s.threads t)
  | _ => True

instance (s : MemoryPool capacity τ) : ∀ a, Decidable (s.Fresh a)
  | .advance t false => inferInstanceAs (Decidable (s.FreshExchange (s.threads t)))
  | .advance _ true => isTrue trivial
  | .allocate _ => isTrue trivial
  | .deallocate _ _ => isTrue trivial

/-! ## The invariant -/

/-- The slot in a thread's hands: taken off the list and not returned yet, or given back and not on
the list yet. -/
def Thread.slot? : Thread capacity → Option (Fin capacity)
  | .allocDone slot | .freeLoad slot | .freeWrite slot _ | .freeExchange slot _ => some slot
  | _ => none

/-- **The invariant**: every slot is in one place, and the free list is the chain of the free ones. -/
structure Inv (s : MemoryPool capacity τ) (place : Fin capacity → Place τ) (l : List (Fin capacity)) :
    Prop where
  chain : Chain (slotOf capacity) (fun slot => (s.slots_ slot).next_free) s.free_head_ l
  nodup : l.Nodup
  free : ∀ slot, slot ∈ l ↔ place slot = .free
  liveNodup : s.live.Nodup
  live : ∀ slot, slot ∈ s.live ↔ place slot = .live
  held : ∀ t slot, (s.threads t).slot? = some slot ↔ place slot = .held t
  linked : ∀ t slot head, s.threads t = .freeExchange slot head → (s.slots_ slot).next_free = head

/-- A state with every slot in its place. -/
def Sound (s : MemoryPool capacity τ) : Prop := ∃ place l, Inv s place l

/-! ### Indices -/

theorem slotOf_indexOf (hcap : capacity < 2 ^ 32) (slot : Fin capacity) :
    slotOf capacity (indexOf slot) = some slot := by
  have hval : (indexOf slot).toNat = slot := by
    rw [indexOf, UInt32.toNat_ofNat', Nat.mod_eq_of_lt (slot.isLt.trans hcap)]
  unfold slotOf
  rw [dif_pos (by rw [hval]; exact slot.isLt)]
  exact congrArg some (Fin.ext hval)

theorem slot?_tested (head : UInt32) : (tested head : Thread capacity).slot? = none := by
  unfold tested
  cases slotOf capacity head <;> rfl

theorem tested_ne_freeExchange (head : UInt32) (slot : Fin capacity) (head' : UInt32) :
    ¬ tested head = .freeExchange slot head' := by
  unfold tested
  cases slotOf capacity head <;> simp

/-! ### The steps -/

theorem setThread_slot? (s : MemoryPool capacity τ) (t : τ) (th : Thread capacity) (t' : τ) :
    ((s.setThread t th).threads t').slot? =
      Function.update (fun t => (s.threads t).slot?) t th.slot? t' := by
  unfold setThread
  by_cases ht : t' = t
  · rw [ht]
    dsimp only
    rw [Function.update_self, Function.update_self]
  · dsimp only
    rw [Function.update_of_ne ht, Function.update_of_ne ht]

omit [DecidableEq τ] in
theorem setSlot_self (s : MemoryPool capacity τ) (slot : Fin capacity) (v : Slot) :
    (s.setSlot slot v).slots_ slot = v := Function.update_self ..

omit [DecidableEq τ] in
theorem setSlot_of_ne (s : MemoryPool capacity τ) {slot i : Fin capacity} (v : Slot) (h : i ≠ slot) :
    (s.setSlot slot v).slots_ i = s.slots_ i := Function.update_of_ne h ..

omit [DecidableEq τ] in
theorem setSlot_in_use (s : MemoryPool capacity τ) (slot : Fin capacity) (v : Bool)
    (slot' : Fin capacity) :
    ((s.setSlot slot { s.slots_ slot with in_use := v }).slots_ slot').next_free =
      (s.slots_ slot').next_free := by
  by_cases hslot : slot' = slot
  · rw [hslot, setSlot_self]
  · rw [setSlot_of_ne _ _ hslot]

namespace Inv

variable {s : MemoryPool capacity τ} {place : Fin capacity → Place τ} {l : List (Fin capacity)}
  {t : τ}

theorem linked_setThread (h : Inv s place l) {th : Thread capacity}
    (hth : ∀ slot head, th = .freeExchange slot head → (s.slots_ slot).next_free = head) (t' : τ)
    (slot : Fin capacity) (head : UInt32)
    (ht' : (s.setThread t th).threads t' = .freeExchange slot head) :
    (s.slots_ slot).next_free = head := by
  unfold setThread at ht'
  dsimp only at ht'
  by_cases ht : t' = t
  · rw [ht, Function.update_self] at ht'
    exact hth slot head ht'
  · rw [Function.update_of_ne ht] at ht'
    exact h.linked t' slot head ht'

theorem setThread (h : Inv s place l) {th : Thread capacity}
    (hslot : th.slot? = (s.threads t).slot?)
    (hth : ∀ slot head, th = .freeExchange slot head → (s.slots_ slot).next_free = head) :
    Inv (s.setThread t th) place l where
  chain := h.chain
  nodup := h.nodup
  free := h.free
  liveNodup := h.liveNodup
  live := h.live
  held t' slot := by
    rw [setThread_slot?, hslot, Function.update_eq_self]
    exact h.held t' slot
  linked := h.linked_setThread hth

omit [DecidableEq τ] in
theorem place_of_slot? (h : Inv s place l) {slot : Fin capacity}
    (hslot : (s.threads t).slot? = some slot) : place slot = .held t := (h.held t slot).mp hslot

theorem pop (h : Inv s place l) (hcap : capacity < 2 ^ 32) {head : Fin capacity} {next : UInt32}
    (hth : s.threads t = .allocExchange head next) (hhead : s.free_head_ = indexOf head)
    (hfresh : (s.slots_ head).next_free = next) :
    Inv { s.setThread t (.allocDone head) with free_head_ := next }
      (Function.update place head (.held t)) (l.erase head) := by
  obtain ⟨l', rfl, hchain⟩ := h.chain.pop (hhead ▸ slotOf_indexOf hcap head)
  have hfree : place head = .free := (h.free head).mp List.mem_cons_self
  refine ⟨?_, h.nodup.erase head, mem_erase_place h.free h.nodup (by simp), h.liveNodup,
    mem_place h.live (by simp [hfree]) (by simp), ?_,
    h.linked_setThread fun slot head' heq => absurd heq (by simp)⟩
  · rw [List.erase_cons_head]
    exact hfresh ▸ hchain
  · intro t' slot
    change ((s.setThread t (.allocDone head)).threads t').slot? = _ ↔ _
    rw [setThread_slot?]
    exact held_take h.held (by rw [hth]; rfl) (by simp [hfree]) t' slot

theorem finish (h : Inv s place l) {slot : Fin capacity} (hth : s.threads t = .allocDone slot) :
    Inv { (s.setThread t .idle).setSlot slot { s.slots_ slot with in_use := true } with
        allocated_ := s.allocated_ + 1
        live := slot :: s.live }
      (Function.update place slot .live) l := by
  have hslot : (s.threads t).slot? = some slot := by
    rw [hth]
    rfl
  have hplace := h.place_of_slot? hslot
  refine ⟨h.chain.congr fun i _ => setSlot_in_use s slot true i, h.nodup,
    mem_place h.free (by simp [hplace]) (by simp), List.nodup_cons.mpr ⟨?_, h.liveNodup⟩,
    mem_cons_place h.live, ?_, ?_⟩
  · rw [h.live, hplace]
    simp
  · intro t' slot'
    change ((s.setThread t .idle).threads t').slot? = _ ↔ _
    rw [setThread_slot?]
    exact held_give h.held hslot (by simp) t' slot'
  · intro t' slot' head ht'
    exact (setSlot_in_use s slot true slot').trans
      (h.linked_setThread (fun slot head heq => absurd heq (by simp)) t' slot' head ht')

theorem take (h : Inv s place l) {slot : Fin capacity} (hth : s.threads t = .idle)
    (hlive : slot ∈ s.live) :
    Inv { (s.setThread t (.freeLoad slot)).setSlot slot { s.slots_ slot with in_use := false } with
        live := s.live.erase slot }
      (Function.update place slot (.held t)) l := by
  have hplace := (h.live slot).mp hlive
  refine ⟨h.chain.congr fun i _ => setSlot_in_use s slot false i, h.nodup,
    mem_place h.free (by simp [hplace]) (by simp), h.liveNodup.erase slot,
    mem_erase_place h.live h.liveNodup (by simp), ?_, ?_⟩
  · intro t' slot'
    change ((s.setThread t (.freeLoad slot)).threads t').slot? = _ ↔ _
    rw [setThread_slot?]
    exact held_take h.held (by rw [hth]; rfl) (by simp [hplace]) t' slot'
  · intro t' slot' head ht'
    exact (setSlot_in_use s slot false slot').trans
      (h.linked_setThread (fun slot head heq => absurd heq (by simp)) t' slot' head ht')

theorem write (h : Inv s place l) {slot : Fin capacity} {head : UInt32}
    (hth : s.threads t = .freeWrite slot head) :
    Inv ((s.setThread t (.freeExchange slot head)).setSlot slot
      { s.slots_ slot with next_free := head }) place l := by
  have hslot : (s.threads t).slot? = some slot := by
    rw [hth]
    rfl
  have hplace := h.place_of_slot? hslot
  have hother : ∀ slot' ≠ slot, (Function.update s.slots_ slot
      { s.slots_ slot with next_free := head } slot').next_free = (s.slots_ slot').next_free := by
    intro slot' hne
    rw [Function.update_of_ne hne]
  refine ⟨h.chain.congr ?_, h.nodup, h.free, h.liveNodup, h.live, ?_, ?_⟩
  · intro i hi
    apply hother
    rintro rfl
    rw [h.free, hplace] at hi
    exact absurd hi (by simp)
  · intro t' slot'
    change ((s.setThread t (.freeExchange slot head)).threads t').slot? = _ ↔ _
    rw [setThread_slot?, show (Thread.freeExchange slot head).slot? = (s.threads t).slot? from
      hslot.symm, Function.update_eq_self]
    exact h.held t' slot'
  · intro t' slot' head' ht'
    change (Function.update s.threads t _ t') = _ at ht'
    change (Function.update s.slots_ slot _ slot').next_free = head'
    by_cases ht : t' = t
    · rw [ht, Function.update_self] at ht'
      obtain ⟨rfl, rfl⟩ := Thread.freeExchange.inj ht'
      rw [Function.update_self]
    · rw [Function.update_of_ne ht] at ht'
      rw [hother]
      · exact h.linked t' slot' head' ht'
      · -- the other thread has another slot
        rintro rfl
        have hplace' := h.place_of_slot? (t := t') (by rw [ht']; rfl)
        exact ht (Place.held.inj (hplace'.symm.trans hplace))

theorem push (h : Inv s place l) (hcap : capacity < 2 ^ 32) {slot : Fin capacity} {head : UInt32}
    (hth : s.threads t = .freeExchange slot head) (hhead : s.free_head_ = head) :
    Inv { s.setThread t .freeDone with free_head_ := indexOf slot }
      (Function.update place slot .free) (slot :: l) := by
  have hslot : (s.threads t).slot? = some slot := by
    rw [hth]
    rfl
  have hplace := h.place_of_slot? hslot
  have hnext : (s.slots_ slot).next_free = s.free_head_ := (h.linked t slot head hth).trans hhead.symm
  refine ⟨h.chain.push hnext (slotOf_indexOf hcap slot), List.nodup_cons.mpr ⟨?_, h.nodup⟩,
    mem_cons_place h.free, h.liveNodup, mem_place h.live (by simp [hplace]) (by simp), ?_,
    h.linked_setThread fun slot head' heq => absurd heq (by simp)⟩
  · rw [h.free, hplace]
    simp
  · intro t' slot'
    change ((s.setThread t .freeDone).threads t').slot? = _ ↔ _
    rw [setThread_slot?]
    exact held_give h.held hslot (by simp) t' slot'

theorem advance (h : Inv s place l) (hcap : capacity < 2 ^ 32) (t : τ) (spurious : Bool)
    (hfresh : s.Fresh (.advance t spurious)) : (s.advance t spurious).Sound := by
  have htested : ∀ {th : Thread capacity}, s.threads t = th → th.slot? = none →
      (s.setThread t (tested s.free_head_)).Sound := by
    intro th hth hnone
    refine ⟨place, l, h.setThread ?_ fun _ _ heq => absurd heq (tested_ne_freeExchange _ _ _)⟩
    rw [slot?_tested, hth, hnone]
  unfold MemoryPool.advance
  cases hth : s.threads t with
  | idle => exact ⟨place, l, h⟩
  | allocLoad => exact htested hth rfl
  | allocRead head =>
    exact ⟨place, l, h.setThread (by rw [hth]; rfl) fun slot head heq => absurd heq (by simp)⟩
  | allocExchange head next =>
    dsimp only
    by_cases hcas : s.free_head_ = indexOf head ∧ spurious = false
    · rw [if_pos hcas]
      obtain ⟨hhead, rfl⟩ := hcas
      change s.FreshExchange (s.threads t) at hfresh
      rw [hth] at hfresh
      exact ⟨_, _, h.pop hcap hth hhead (hfresh hhead)⟩
    · rw [if_neg hcas]
      exact htested hth rfl
  | allocDone slot => exact ⟨_, _, h.finish hth⟩
  | freeLoad slot =>
    exact ⟨place, l, h.setThread (by rw [hth]; rfl) fun slot head heq => absurd heq (by simp)⟩
  | freeWrite slot head => exact ⟨place, l, h.write hth⟩
  | freeExchange slot head =>
    dsimp only
    by_cases hcas : s.free_head_ = head ∧ spurious = false
    · rw [if_pos hcas]
      exact ⟨_, _, h.push hcap hth hcas.1⟩
    · rw [if_neg hcas]
      exact ⟨place, l, h.setThread (by rw [hth]; rfl) fun slot head heq => absurd heq (by simp)⟩
  | freeDone =>
    have hidle : Inv (s.setThread t .idle) place l :=
      h.setThread (by rw [hth]; rfl) fun slot head heq => absurd heq (by simp)
    exact ⟨place, l, hidle.chain, hidle.nodup, hidle.free, hidle.liveNodup, hidle.live, hidle.held,
      hidle.linked⟩

theorem step (h : Inv s place l) (hcap : capacity < 2 ^ 32) (a : Action capacity τ)
    (hfresh : s.Fresh a) : (s.step a).Sound := by
  cases a with
  | allocate t =>
    unfold MemoryPool.step
    dsimp only
    split_ifs with hidle
    · exact ⟨place, l, h.setThread (by rw [hidle]; rfl) fun slot head heq => absurd heq (by simp)⟩
    · exact ⟨place, l, h⟩
  | deallocate t slot =>
    unfold MemoryPool.step
    dsimp only
    split_ifs with hown
    · exact ⟨_, _, h.take hown.1 hown.2⟩
    · exact ⟨place, l, h⟩
  | advance t spurious => exact h.advance hcap t spurious hfresh

/-! ### What it gives -/

omit [DecidableEq τ] in
theorem returnsDead (h : Inv s place l) (a : Action capacity τ) : s.ReturnsDead a := by
  intro slot hslot
  cases a with
  | allocate t => exact absurd hslot (by simp [returned])
  | deallocate t slot' => exact absurd hslot (by simp [returned])
  | advance t spurious =>
    have hheld : (s.threads t).slot? = some slot := by
      change (match s.threads t with | .allocDone slot => some slot | _ => none) = some slot at hslot
      revert hslot
      cases s.threads t with
      | allocDone slot' => exact id
      | _ => exact fun hslot => absurd hslot (by simp)
    rw [h.live, h.place_of_slot? hheld]
    simp

omit [DecidableEq τ] in
theorem partitioned (h : Inv s place l) (hidle : s.Quiescent) : s.Partitioned := by
  refine ⟨l, h.chain, fun slot => ?_⟩
  cases hplace : place slot with
  | free =>
    rw [List.count_eq_one_of_mem h.nodup ((h.free slot).mpr hplace),
      List.count_eq_zero_of_not_mem (by rw [h.live, hplace]; simp)]
  | live =>
    rw [List.count_eq_one_of_mem h.liveNodup ((h.live slot).mpr hplace),
      List.count_eq_zero_of_not_mem (by rw [h.free, hplace]; simp)]
  | held t =>
    have hslot := (h.held t slot).mpr hplace
    rw [hidle t] at hslot
    exact absurd hslot (by simp [Thread.slot?])

end Inv

/-! ## Runs -/

omit [DecidableEq τ] in
theorem inv_create (hcap : capacity < 2 ^ 32) :
    Inv (create capacity τ) (fun _ => .free) (List.finRange capacity) := by
  have hchain : ∀ n i, i + n = capacity →
      Chain (slotOf capacity) (fun slot => ((create capacity τ).slots_ slot).next_free) (.ofNat i)
        ((List.finRange capacity).drop i) := by
    intro n
    induction n with
    | zero =>
      intro i hi
      obtain rfl : i = capacity := hi
      rw [List.drop_of_length_le (by simp)]
      apply dif_neg
      rw [UInt32.toNat_ofNat', Nat.mod_eq_of_lt hcap]
      exact lt_irrefl i
    | succ n ih =>
      intro i hi
      have hlt : i < (List.finRange capacity).length := by
        rw [List.length_finRange]
        omega
      rw [List.drop_eq_getElem_cons hlt, List.getElem_finRange]
      exact ⟨slotOf_indexOf hcap ⟨i, by omega⟩, ih (i + 1) (by omega)⟩
  refine ⟨hchain capacity 0 (Nat.zero_add _), List.nodup_finRange _, fun slot => ?_, List.nodup_nil,
    fun slot => ?_, fun t slot => ?_, fun t slot head ht => absurd ht (by simp [create])⟩
  · exact iff_of_true (List.mem_finRange slot) rfl
  · exact iff_of_false List.not_mem_nil (by simp)
  · exact iff_of_false (by simp [create, Thread.slot?]) (by simp)

theorem run_safe (hcap : capacity < 2 ^ 32) {acts : List (Action capacity τ)}
    (h : Run.Along step Fresh (create capacity τ) acts) : (create capacity τ).Safe acts := by
  have hcreate : (create capacity τ).Sound := ⟨_, _, inv_create hcap⟩
  refine ⟨h.imp ?_ hcreate, ?_⟩
  · rintro s a (⟨place, l, hs⟩ : s.Sound) hfresh
    exact ⟨hs.step hcap a hfresh, hs.returnsDead a⟩
  · intro hidle
    obtain ⟨place, l, hs⟩ :=
      h.invariant (fun s a (hs : s.Sound) => let ⟨_, _, hs⟩ := hs; hs.step hcap a) hcreate
    exact hs.partitioned hidle

theorem not_safe_of_le (hcap : 2 ^ 32 ≤ capacity) : ¬ (create capacity τ).Safe [] := by
  intro h
  obtain ⟨l, hchain, -⟩ := h.partitioned fun _ => rfl
  obtain ⟨head, hend⟩ := hchain.exists_end
  unfold slotOf at hend
  rw [dif_pos (head.toNat_lt.trans_le hcap)] at hend
  exact absurd hend (by simp)

/-- **The pool keeps its promise** in all runs in which no compare-exchange of an `allocate` succeeds
with a successor that was read too early, exactly when its capacity fits an index. -/
theorem run_safe_iff (capacity : Nat) (τ : Type) [DecidableEq τ] :
    (∀ acts : List (Action capacity τ), Run.Along step Fresh (create capacity τ) acts →
      (create capacity τ).Safe acts) ↔ capacity < 2 ^ 32 := by
  constructor
  · intro h
    by_contra hcap
    exact not_safe_of_le (not_lt.mp hcap) (h [] trivial)
  · exact fun hcap _ => run_safe hcap

/-- **A compare-exchange that succeeds too late.** Thread 0 reads the head 0 and its successor 1.
Thread 1 allocates the slots 0 and 1 and deallocates 0, which is the head again. Now the
compare-exchange of thread 0 makes the live slot 1 the head, and it is returned again. -/
theorem run_unsafe :
    let acts : List (Action 3 Nat) :=
      [.allocate 0, .advance 0 false, .advance 0 false,
        .allocate 1, .advance 1 false, .advance 1 false, .advance 1 false, .advance 1 false,
        .allocate 1, .advance 1 false, .advance 1 false, .advance 1 false, .advance 1 false,
        .deallocate 1 0, .advance 1 false, .advance 1 false, .advance 1 false, .advance 1 false,
        .advance 0 false, .advance 0 false,
        .allocate 1, .advance 1 false, .advance 1 false, .advance 1 false, .advance 1 false]
    ¬ (create 3 Nat).Safe acts :=
  fun h => absurd h.returns (by decide)

end MemoryPool

end HftSdk

import HftSdk.Concurrency.MemoryPool
import HftSdk.Lib.SequenceCounter

/-!
# The memory pool in one thread

`allocate` and `deallocate` with no other call under way: each is its steps run to the end
(`allocate_steps`, `deallocate_steps`). Here `deallocate` takes a pointer and computes the index of
its slot, and the constructor of an object may throw, which it does after its slot was unlinked,
flagged and counted.

While no constructor throws, the pool is a correct slot allocator (`run_correct`). A constructor that
throws leaks its slot: `leakless_iff` says that these are the only runs in which one is lost.
-/

namespace HftSdk

open LinkedStack

namespace MemoryPool

variable {capacity : Nat} {τ : Type}

/-! ## Pointers -/

/-- Where a pool lies: the address of its first slot, and the size of an object. -/
structure Layout where
  base : Nat
  sizeofT : Nat

namespace Layout

/-- The next multiple of an alignment. -/
def alignUp (n align : Nat) : Nat := (n + (align - 1)) / align * align

/-- `sizeof(Slot)`: the storage, `next_free` and `in_use`, aligned to a cache line. -/
def sizeofSlot (ly : Layout) : Nat := alignUp (alignUp ly.sizeofT 4 + 4 + 1) 64

/-- The address of a slot's storage, which is its first member. -/
def storage (ly : Layout) (slot : Fin capacity) : Nat := ly.base + slot * ly.sizeofSlot

/-- The index that `deallocate` computes. -/
def index (ly : Layout) (ptr : Nat) : Nat := (ptr - ly.base) / ly.sizeofSlot

theorem sizeofSlot_pos (ly : Layout) : 0 < ly.sizeofSlot := by
  unfold sizeofSlot alignUp
  omega

theorem index_storage (ly : Layout) (slot : Fin capacity) : ly.index (ly.storage slot) = slot := by
  unfold index storage
  rw [Nat.add_sub_cancel_left, Nat.mul_div_cancel _ ly.sizeofSlot_pos]

end Layout

/-! ## The calls -/

/-- How `allocate` ends: with `nullptr`, with an object, or with the exception of its constructor. -/
inductive Allocation
  | null
  | object (ptr : Nat)
  | thrown
deriving DecidableEq

def allocate (ly : Layout) (s : MemoryPool capacity τ) (throws : Bool) :
    MemoryPool capacity τ × Allocation :=
  match slotOf capacity s.free_head_ with
  | none => (s, .null)
  | some head =>
    let s' := { s.setSlot head { s.slots_ head with in_use := true } with
      free_head_ := (s.slots_ head).next_free
      allocated_ := s.allocated_ + 1 }
    if throws then (s', .thrown)
    else ({ s' with live := head :: s.live }, .object (ly.storage head))

/-- The assertions are compiled out; a pointer that is not one of the pool's is not looked at
further. -/
def deallocate (ly : Layout) (s : MemoryPool capacity τ) : Option Nat → MemoryPool capacity τ
  | none => s
  | some ptr =>
    if h : ly.index ptr < capacity then
      let slot : Fin capacity := ⟨ly.index ptr, h⟩
      { s.setSlot slot { next_free := s.free_head_, in_use := false } with
        free_head_ := indexOf slot
        allocated_ := s.allocated_ - 1
        live := s.live.erase slot }
    else s

/-- `allocated()`. -/
def allocated (s : MemoryPool capacity τ) : Nat := s.allocated_.toNat

/-- `available()`. -/
def available (s : MemoryPool capacity τ) : Nat := (UInt64.ofNat capacity - s.allocated_).toNat

/-- The slots whose objects `~MemoryPool` destroys. -/
def destroyed (s : MemoryPool capacity τ) : List (Fin capacity) :=
  (List.finRange capacity).filter fun slot => (s.slots_ slot).in_use

inductive Call
  | allocate (throws : Bool)
  | deallocate (ptr : Option Nat)
deriving DecidableEq

def call (ly : Layout) (s : MemoryPool capacity τ) : Call → MemoryPool capacity τ
  | .allocate throws => (s.allocate ly throws).1
  | .deallocate ptr => s.deallocate ly ptr

/-- What is deallocated is null or a live object. -/
def Owned (ly : Layout) (s : MemoryPool capacity τ) : Call → Prop
  | .deallocate (some ptr) => ∃ slot ∈ s.live, ptr = ly.storage slot
  | _ => True

instance (ly : Layout) (s : MemoryPool capacity τ) : ∀ c, Decidable (s.Owned ly c)
  | .deallocate (some ptr) => inferInstanceAs (Decidable (∃ slot ∈ s.live, ptr = ly.storage slot))
  | .deallocate none => isTrue trivial
  | .allocate _ => isTrue trivial

/-! ### Calls and steps -/

section Steps

variable [DecidableEq τ]

omit [DecidableEq τ] in
theorem indexOf_of_slotOf {head : UInt32} {slot : Fin capacity}
    (h : slotOf capacity head = some slot) : indexOf slot = head := by
  unfold slotOf at h
  split_ifs at h with hlt
  rw [← Option.some_inj.mp h]
  exact UInt32.ofNat_toNat

theorem allocate_steps (ly : Layout) {s : MemoryPool capacity τ} {t : τ} (h : s.threads t = .idle) :
    [.allocate t, .advance t false, .advance t false, .advance t false, .advance t false].foldl
      step s = (s.allocate ly false).1 := by
  obtain ⟨slots, head, allocated, threads, live⟩ := s
  simp only at h
  cases hhead : slotOf capacity head with
  | none => simp [step, advance, tested, allocate, setThread, hhead, h]
  | some slot =>
    have hindex := indexOf_of_slotOf hhead
    simp [step, advance, tested, allocate, setThread, setSlot, hhead, hindex, h]

theorem deallocate_steps (ly : Layout) {s : MemoryPool capacity τ} {t : τ} (h : s.threads t = .idle)
    {slot : Fin capacity} (hlive : slot ∈ s.live) :
    [.deallocate t slot, .advance t false, .advance t false, .advance t false, .advance t false].foldl
      step s = s.deallocate ly (some (ly.storage slot)) := by
  obtain ⟨slots, head, allocated, threads, live⟩ := s
  simp only at h hlive
  simp [step, advance, deallocate, setThread, setSlot, h, hlive, ly.index_storage]

end Steps

/-! ## The invariant -/

/-- **The invariant** between calls, while no constructor has thrown: the free list is a chain of
the slots that are not in use, ends at the capacity, and the other slots are the live ones. -/
structure Tidy (s : MemoryPool capacity τ) (l : List (Fin capacity)) : Prop where
  chain : Chain (slotOf capacity) (fun slot => (s.slots_ slot).next_free) s.free_head_ l
  ends : endOf (fun slot => (s.slots_ slot).next_free) s.free_head_ l = .ofNat capacity
  nodup : l.Nodup
  free : ∀ slot, slot ∈ l ↔ (s.slots_ slot).in_use = false
  liveNodup : s.live.Nodup
  live : ∀ slot, slot ∈ s.live ↔ (s.slots_ slot).in_use = true
  counted : s.allocated_ = .ofNat s.live.length

theorem tidy_create (hcap : capacity < 2 ^ 32) :
    Tidy (create capacity τ) (List.finRange capacity) := by
  have hinv := inv_create (τ := τ) hcap
  refine ⟨hinv.chain, ?_, hinv.nodup, fun slot => ?_, List.nodup_nil, fun slot => ?_, rfl⟩
  · cases capacity with
    | zero => rfl
    | succ n =>
      rw [List.finRange_succ_last, endOf_concat]
      rfl
  · exact iff_of_true (List.mem_finRange slot) rfl
  · exact iff_of_false List.not_mem_nil (by simp [create])

namespace Tidy

variable {s : MemoryPool capacity τ} {l : List (Fin capacity)} {ly : Layout}

theorem length_add (h : Tidy s l) : l.length + s.live.length = capacity := by
  have hdisjoint : ∀ slot ∈ l, ∀ slot' ∈ s.live, slot ≠ slot' := by
    rintro slot hl _ hlive rfl
    rw [h.free] at hl
    rw [h.live, hl] at hlive
    cases hlive
  have hperm : (l ++ s.live).Perm (List.finRange capacity) := by
    rw [List.perm_ext_iff_of_nodup (List.nodup_append.mpr ⟨h.nodup, h.liveNodup, hdisjoint⟩)
      (List.nodup_finRange capacity)]
    intro slot
    rw [List.mem_append, h.free, h.live]
    refine iff_of_true ?_ (List.mem_finRange slot)
    cases (s.slots_ slot).in_use <;> simp
  have hlength := hperm.length_eq
  rwa [List.length_append, List.length_finRange] at hlength

theorem slotOf_head (h : Tidy s l) : slotOf capacity s.free_head_ = l.head? := by
  have hchain := h.chain
  cases l with
  | nil => exact hchain
  | cons slot l => exact hchain.1

theorem exhausted_iff (h : Tidy s l) : l.head? = none ↔ s.live.length = capacity := by
  have hlength := h.length_add
  rw [List.head?_eq_none_iff, ← List.length_eq_zero_iff]
  omega

/-! ### Allocating -/

theorem allocate_null (h : Tidy s []) (throws : Bool) : s.allocate ly throws = (s, .null) := by
  unfold MemoryPool.allocate
  rw [h.slotOf_head]
  rfl

theorem allocate_eq {slot : Fin capacity} (h : Tidy s (slot :: l)) :
    s.allocate ly false =
      ({ s.setSlot slot { s.slots_ slot with in_use := true } with
          free_head_ := (s.slots_ slot).next_free
          allocated_ := s.allocated_ + 1
          live := slot :: s.live }, .object (ly.storage slot)) := by
  unfold MemoryPool.allocate
  rw [h.slotOf_head]
  rfl

theorem allocate_thrown {slot : Fin capacity} (h : Tidy s (slot :: l)) :
    s.allocate ly true =
      ({ s.setSlot slot { s.slots_ slot with in_use := true } with
          free_head_ := (s.slots_ slot).next_free
          allocated_ := s.allocated_ + 1 }, .thrown) := by
  unfold MemoryPool.allocate
  rw [h.slotOf_head]
  rfl

theorem allocate {slot : Fin capacity} (h : Tidy s (slot :: l)) : Tidy (s.allocate ly false).1 l := by
  have hnodup := List.nodup_cons.mp h.nodup
  have hfree : (s.slots_ slot).in_use = false := (h.free slot).mp List.mem_cons_self
  have hnext : ∀ i, ((s.setSlot slot { s.slots_ slot with in_use := true }).slots_ i).next_free =
      (s.slots_ i).next_free := setSlot_in_use s slot true
  have hflag : ∀ i, ((s.setSlot slot { s.slots_ slot with in_use := true }).slots_ i).in_use =
      if i = slot then true else (s.slots_ i).in_use := by
    intro i
    by_cases hi : i = slot
    · rw [hi, setSlot_self, if_pos rfl]
    · rw [setSlot_of_ne _ _ hi, if_neg hi]
  have hnotLive : slot ∉ s.live := by
    rw [h.live, hfree]
    simp
  rw [h.allocate_eq]
  refine ⟨h.chain.2.congr fun i _ => hnext i, ?_, hnodup.2, fun i => ?_,
    List.nodup_cons.mpr ⟨hnotLive, h.liveNodup⟩, fun i => ?_, ?_⟩
  · exact (endOf_congr (fun i _ => hnext i) _).trans h.ends
  · refine Iff.trans ?_ (Eq.congr_left (hflag i)).symm
    by_cases hi : i = slot
    · simp [hi, hnodup.1]
    · simp [hi, ← h.free]
  · refine Iff.trans ?_ (Eq.congr_left (hflag i)).symm
    by_cases hi : i = slot
    · simp [hi]
    · simp [hi, h.live]
  · change s.allocated_ + 1 = _
    rw [h.counted]
    exact SequenceCounter.ofNat_succ _

/-! ### Deallocating -/

theorem deallocate_eq (s : MemoryPool capacity τ) (ly : Layout) (slot : Fin capacity) :
    s.deallocate ly (some (ly.storage slot)) =
      { s.setSlot slot { next_free := s.free_head_, in_use := false } with
        free_head_ := indexOf slot
        allocated_ := s.allocated_ - 1
        live := s.live.erase slot } := by
  unfold MemoryPool.deallocate
  simp only [ly.index_storage, Fin.eta, slot.isLt, dite_true]

theorem deallocate (h : Tidy s l) (hcap : capacity < 2 ^ 32) {slot : Fin capacity}
    (hlive : slot ∈ s.live) : Tidy (s.deallocate ly (some (ly.storage slot))) (slot :: l) := by
  have huse : (s.slots_ slot).in_use = true := (h.live slot).mp hlive
  have hnotFree : slot ∉ l := by
    rw [h.free, huse]
    simp
  have hself := s.setSlot_self slot { next_free := s.free_head_, in_use := false }
  have hother : ∀ i ≠ slot, (s.setSlot slot { next_free := s.free_head_, in_use := false }).slots_ i =
      s.slots_ i := fun i hi => s.setSlot_of_ne _ hi
  have hnext : ∀ i ∈ l, ((s.setSlot slot
      { next_free := s.free_head_, in_use := false }).slots_ i).next_free =
      (s.slots_ i).next_free := by
    intro i hi
    rw [hother]
    rintro rfl
    exact hnotFree hi
  rw [deallocate_eq]
  refine ⟨(h.chain.congr hnext).push (congrArg Slot.next_free hself) (slotOf_indexOf hcap slot), ?_,
    List.nodup_cons.mpr ⟨hnotFree, h.nodup⟩, fun i => ?_, h.liveNodup.erase slot, fun i => ?_, ?_⟩
  · refine Eq.trans ?_ h.ends
    rw [endOf]
    refine Eq.trans ?_ (endOf_congr hnext _)
    exact congrArg (endOf _ · l) (congrArg Slot.next_free hself)
  · rw [List.mem_cons, h.free]
    by_cases hi : i = slot
    · subst hi
      exact iff_of_true (Or.inl rfl) (congrArg Slot.in_use hself)
    · rw [or_iff_right hi]
      exact (Eq.congr_left (congrArg Slot.in_use (hother i hi))).symm
  · rw [h.liveNodup.mem_erase_iff, h.live]
    by_cases hi : i = slot
    · subst hi
      refine iff_of_false (fun h => h.1 rfl) ?_
      refine fun htrue => ?_
      exact Bool.false_ne_true ((congrArg Slot.in_use hself).symm.trans htrue)
    · rw [and_iff_right hi]
      exact (Eq.congr_left (congrArg Slot.in_use (hother i hi))).symm
  · change s.allocated_ - 1 = _
    have hpos := List.length_pos_of_mem hlive
    have hlength : s.live.length = (s.live.erase slot).length + 1 := by
      rw [List.length_erase_of_mem hlive]
      omega
    rw [h.counted, hlength, ← SequenceCounter.ofNat_succ, UInt64.add_sub_cancel]

theorem deallocate_allocate {slot : Fin capacity} (h : Tidy s (slot :: l)) :
    (s.allocate ly false).1.deallocate ly (some (ly.storage slot)) = s := by
  have hfree : (s.slots_ slot).in_use = false := (h.free slot).mp List.mem_cons_self
  have hhead : indexOf slot = s.free_head_ := indexOf_of_slotOf h.slotOf_head
  have hslot : ({ next_free := (s.slots_ slot).next_free, in_use := false } : Slot) =
      s.slots_ slot := by rw [← hfree]
  rw [h.allocate_eq, deallocate_eq]
  simp only [setSlot, Function.update_idem, hslot, Function.update_eq_self, hhead,
    UInt64.add_sub_cancel, List.erase_cons_head]

end Tidy

/-! ## Runs without exceptions -/

/-- The call constructs an object, and the constructor throws. -/
def Throws (s : MemoryPool capacity τ) : Call → Prop
  | .allocate true => slotOf capacity s.free_head_ ≠ none
  | _ => False

instance (s : MemoryPool capacity τ) : ∀ c, Decidable (s.Throws c)
  | .allocate true => inferInstanceAs (Decidable (_ ≠ none))
  | .allocate false => isFalse id
  | .deallocate _ => isFalse id

theorem Tidy.call {s : MemoryPool capacity τ} {l : List (Fin capacity)} (h : Tidy s l)
    (hcap : capacity < 2 ^ 32) {ly : Layout} {c : Call} (howned : s.Owned ly c)
    (hthrows : ¬ s.Throws c) : ∃ l', Tidy (s.call ly c) l' := by
  cases c with
  | allocate throws =>
    cases l with
    | nil => exact ⟨[], by rw [MemoryPool.call, h.allocate_null]; exact h⟩
    | cons slot l =>
      cases throws with
      | false => exact ⟨l, h.allocate⟩
      | true => exact absurd (show s.Throws _ by unfold Throws; simp [h.slotOf_head]) hthrows
  | deallocate ptr =>
    cases ptr with
    | none => exact ⟨l, h⟩
    | some ptr =>
      obtain ⟨slot, hlive, rfl⟩ := howned
      exact ⟨slot :: l, h.deallocate hcap hlive⟩

theorem exists_tidy (hcap : capacity < 2 ^ 32) {ly : Layout} {calls : List Call}
    (howned : Run.Along (call ly) (Owned ly) (create capacity τ) calls)
    (hthrows : Run.Along (call ly) (fun s c => ¬ s.Throws c) (create capacity τ) calls) :
    ∃ l, Tidy (calls.foldl (call ly) (create capacity τ)) l := by
  refine (Run.along_and.mpr ⟨howned, hthrows⟩).invariant (I := fun s => ∃ l, Tidy s l) ?_
    ⟨_, tidy_create hcap⟩
  rintro s c ⟨l, h⟩ ⟨hc, hnot⟩
  exact h.call hcap hc hnot

/-- **`allocate` fails** exactly when all slots are live. -/
theorem Tidy.null_iff {s : MemoryPool capacity τ} {l : List (Fin capacity)} (h : Tidy s l)
    (ly : Layout) (throws : Bool) :
    (s.allocate ly throws).2 = .null ↔ s.live.length = capacity := by
  rw [← h.exhausted_iff]
  cases l with
  | nil => exact iff_of_true (by rw [h.allocate_null]) rfl
  | cons slot l =>
    refine iff_of_false ?_ nofun
    cases throws with
    | false => rw [h.allocate_eq]; nofun
    | true => rw [h.allocate_thrown]; nofun

/-- **What a slot allocator promises** between calls: the free list runs through the slots that are
not in use, once each, and ends at the capacity; the counts are right; `allocate` fails only when all
slots are live, and otherwise gives one that is not; `deallocate` finds the slot of a pointer, and
undoes the `allocate` just before it. -/
structure Allocates (ly : Layout) (s : MemoryPool capacity τ) : Prop where
  free : ∃ l, Chain (slotOf capacity) (fun slot => (s.slots_ slot).next_free) s.free_head_ l ∧
    endOf (fun slot => (s.slots_ slot).next_free) s.free_head_ l = .ofNat capacity ∧
    l.Nodup ∧ (∀ slot, slot ∈ l ↔ (s.slots_ slot).in_use = false) ∧ s.available = l.length
  liveNodup : s.live.Nodup
  allocated : s.allocated = s.live.length
  null : (s.allocate ly false).2 = .null ↔ s.live.length = capacity
  dead : ∀ ptr, (s.allocate ly false).2 = .object ptr → ∃ slot, slot ∉ s.live ∧ ptr = ly.storage slot
  index : ∀ slot ∈ s.live, ly.index (ly.storage slot) = slot
  undo : ∀ ptr, (s.allocate ly false).2 = .object ptr →
    (s.allocate ly false).1.deallocate ly (some ptr) = s

theorem Tidy.allocates {s : MemoryPool capacity τ} {l : List (Fin capacity)} (h : Tidy s l)
    (hcap : capacity < 2 ^ 32) (ly : Layout) : Allocates ly s := by
  have hlength := h.length_add
  have hend : s.available = l.length := by
    unfold available
    rw [h.counted, SequenceCounter.toNat_sub (by omega) (by omega)]
    omega
  have hcount : s.allocated = s.live.length := by
    unfold allocated
    rw [h.counted, UInt64.toNat_ofNat', Nat.mod_eq_of_lt (by omega)]
  refine ⟨⟨l, h.chain, h.ends, h.nodup, h.free, hend⟩, h.liveNodup, hcount, h.null_iff ly false,
    ?_, fun slot _ => ly.index_storage slot, ?_⟩
  · intro ptr hptr
    cases l with
    | nil =>
      rw [h.allocate_null] at hptr
      cases hptr
    | cons slot l =>
      rw [h.allocate_eq] at hptr
      refine ⟨slot, ?_, (Allocation.object.inj hptr).symm⟩
      rw [h.live, (h.free slot).mp List.mem_cons_self]
      simp
  · intro ptr hptr
    cases l with
    | nil =>
      rw [h.allocate_null] at hptr
      cases hptr
    | cons slot l =>
      obtain rfl : ly.storage slot = ptr := by
        rw [h.allocate_eq] at hptr
        exact Allocation.object.inj hptr
      exact h.deallocate_allocate

/-- **The pool is a correct slot allocator** after any calls, in any order, in which what is
deallocated is null or live and no constructor throws. -/
theorem calls_allocate (hcap : capacity < 2 ^ 32) (ly : Layout) {calls : List Call}
    (howned : Run.Along (call ly) (Owned ly) (create capacity τ) calls)
    (hthrows : Run.Along (call ly) (fun s c => ¬ s.Throws c) (create capacity τ) calls) :
    Allocates ly (calls.foldl (call ly) (create capacity τ)) := by
  obtain ⟨l, h⟩ := exists_tidy hcap howned hthrows
  exact h.allocates hcap ly

/-- Two objects of 24 bytes; the first is deallocated and its slot used again. -/
theorem calls_allocate_reused :
    Allocates ⟨4096, 24⟩ ([.allocate false, .allocate false, .deallocate (some 4096),
      .allocate false].foldl (call ⟨4096, 24⟩) (create 2 Unit)) :=
  calls_allocate (by decide) _ (by decide) (by decide)

/-! ## Constructors that throw -/

/-- **No slot is lost** in a run: a constructor that throws leaves the pool as it was, and in the end
`allocate` fails exactly when all slots are live, and `~MemoryPool` destroys exactly the live
objects. -/
structure Leakless (ly : Layout) (s : MemoryPool capacity τ) (calls : List Call) : Prop where
  thrown : Run.Along (call ly) (fun s c => s.Throws c → s.call ly c = s) s calls
  null : ∀ throws, ((calls.foldl (call ly) s).allocate ly throws).2 = .null ↔
    (calls.foldl (call ly) s).live.length = capacity
  destroyed : ∀ slot, slot ∈ (calls.foldl (call ly) s).destroyed ↔
    slot ∈ (calls.foldl (call ly) s).live

theorem call_ne_of_throws {s : MemoryPool capacity τ} {c : Call} (h : s.Throws c) (ly : Layout) :
    s.call ly c ≠ s := by
  intro hsame
  match c with
  | .allocate true =>
    obtain ⟨slot, hslot⟩ := Option.ne_none_iff_exists'.mp (show slotOf capacity s.free_head_ ≠ none from h)
    have hcount := congrArg allocated_ hsame
    unfold call allocate at hcount
    rw [hslot] at hcount
    exact absurd (UInt64.left_eq_add.mp hcount.symm) (by decide)

theorem Tidy.destroyed {s : MemoryPool capacity τ} {l : List (Fin capacity)} (h : Tidy s l)
    (slot : Fin capacity) : slot ∈ s.destroyed ↔ slot ∈ s.live := by
  unfold MemoryPool.destroyed
  rw [List.mem_filter, h.live]
  exact and_iff_right (List.mem_finRange slot)

theorem not_exhausted (hcap : 2 ^ 32 ≤ capacity) (s : MemoryPool capacity τ) (ly : Layout) :
    (s.allocate ly false).2 ≠ .null ∧ (s.allocate ly false).1.live.length = s.live.length + 1 := by
  have hslot : slotOf capacity s.free_head_ = some ⟨s.free_head_.toNat, _⟩ :=
    dif_pos (s.free_head_.toNat_lt.trans_le hcap)
  unfold allocate
  rw [hslot]
  exact ⟨nofun, rfl⟩

theorem allocate_replicate (hcap : 2 ^ 32 ≤ capacity) (ly : Layout) (n : Nat)
    (s : MemoryPool capacity τ) :
    Run.Along (call ly) (fun s c => s.Owned ly c ∧ ¬ s.Throws c) s
        (List.replicate n (.allocate false)) ∧
      ((List.replicate n (.allocate false)).foldl (call ly) s).live.length = s.live.length + n := by
  induction n generalizing s with
  | zero => exact ⟨trivial, rfl⟩
  | succ n ih =>
    obtain ⟨halong, hlive⟩ := ih (s.call ly (.allocate false))
    refine ⟨⟨⟨trivial, id⟩, halong⟩, hlive.trans ?_⟩
    have hone := (not_exhausted hcap s ly).2
    change (s.allocate ly false).1.live.length + n = _
    omega

/-- **No slot is lost exactly in the runs in which no constructor throws**, for every capacity that
fits an index. -/
theorem leakless_iff (capacity : Nat) (τ : Type) (ly : Layout) :
    (∀ calls : List Call, Run.Along (call ly) (Owned ly) (create capacity τ) calls →
      (Leakless ly (create capacity τ) calls ↔
        Run.Along (call ly) (fun s c => ¬ s.Throws c) (create capacity τ) calls)) ↔
      capacity < 2 ^ 32 := by
  constructor
  · intro h
    by_contra hcap
    have hcap := not_lt.mp hcap
    -- as many objects as there are slots, and one more
    obtain ⟨halong, hlive⟩ := allocate_replicate hcap ly capacity (create capacity τ)
    obtain ⟨howned, hthrows⟩ := Run.along_and.mp halong
    have hleak := (h _ howned).mpr hthrows
    exact (not_exhausted hcap _ ly).1 ((hleak.null false).mpr (hlive.trans (Nat.zero_add _)))
  · intro hcap calls howned
    constructor
    · intro hleak
      refine hleak.thrown.mono ?_
      intro s c hsame hthrows
      exact call_ne_of_throws hthrows ly (hsame hthrows)
    · intro hthrows
      obtain ⟨l, h⟩ := exists_tidy hcap howned hthrows
      exact ⟨hthrows.mono fun s c hnot hthrows => absurd hthrows hnot, h.null_iff ly, h.destroyed⟩

/-- A pool for one object whose constructor throws: the next `allocate` fails with no object live,
and `~MemoryPool` destroys an object that was never constructed. -/
theorem thrown_leaks :
    ¬ Leakless ⟨4096, 24⟩ (create 1 Unit) [.allocate true] ∧
      (((create 1 Unit).call ⟨4096, 24⟩ (.allocate true)).allocate ⟨4096, 24⟩ false).2 = .null ∧
      ((create 1 Unit).call ⟨4096, 24⟩ (.allocate true)).live = [] ∧
      ((create 1 Unit).call ⟨4096, 24⟩ (.allocate true)).destroyed = [0] := by
  refine ⟨fun h => ?_, by decide, by decide, by decide⟩
  exact absurd ((h.destroyed 0).mp (by decide)) (by decide)

end MemoryPool

end HftSdk

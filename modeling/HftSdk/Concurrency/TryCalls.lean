import HftSdk.Concurrency.HPRingBuffer

/-!
# The ring buffer in one thread

`try_push`, `try_pop` and `size` with no other call under way: each is its steps run to the end, so
what holds of any interleaving holds of a sequence of them. Such a buffer is a list that is bounded by
the capacity (`Holds`).
-/

namespace HftSdk

namespace HPRingBuffer

variable {T : Type} {sz : RingSize}

/-- The buffer afterwards, and whether the item was pushed. -/
def tryPush (s : HPRingBuffer T sz) (item : T) : HPRingBuffer T sz × Bool :=
  let ws := s.write_sequence_
  if sz.mask ≤ ws - s.read_sequence_ then (s, false)
  else
    ({ s with
        buffer_ := Function.update s.buffer_ (sz.slot ws) item, write_sequence_ := ws + 1 },
      true)

/-- The buffer afterwards, and the item if there was one; `moved` is what `std::move` leaves
behind. -/
def tryPop (moved : T → T) (s : HPRingBuffer T sz) : HPRingBuffer T sz × Option T :=
  let rs := s.read_sequence_
  if rs = s.write_sequence_ then (s, none)
  else
    let value := s.buffer_ (sz.slot rs)
    ({ s with
        buffer_ := Function.update s.buffer_ (sz.slot rs) (moved value), read_sequence_ := rs + 1 },
      some value)

theorem tryPush_steps (moved : T → T) {s : HPRingBuffer T sz} (h : s.producer = .idle) (item : T) :
    [.push item false, .produce, .produce, .produce, .produce].foldl
      (fun s a => (s.step moved a).1) s = (s.tryPush item).1 := by
  obtain ⟨ws, rs, buffer, producer, consumer⟩ := s
  obtain rfl : producer = .idle := h
  by_cases hfull : sz.mask ≤ ws - rs
  · simp [step, produce, tryPush, hfull]
  · simp [step, produce, tryPush, hfull]

theorem tryPop_steps (moved : T → T) {s : HPRingBuffer T sz} (h : s.consumer = .idle) :
    [.pop false, .consume, .consume, .consume, .consume].foldl
      (fun s a => (s.step moved a).1) s = (s.tryPop moved).1 := by
  obtain ⟨ws, rs, buffer, producer, consumer⟩ := s
  obtain rfl : consumer = .idle := h
  by_cases hempty : rs = ws
  · simp [step, consume, tryPop, hempty]
  · simp [step, consume, tryPop, hempty]

/-- `size()`. -/
def size (s : HPRingBuffer T sz) : Nat := (s.write_sequence_ - s.read_sequence_).toNat

theorem size_tryPop_lt {moved : T → T} {s s' : HPRingBuffer T sz} {item : T}
    (h : s.tryPop moved = (s', some item)) : s'.size < s.size := by
  rw [tryPop] at h
  split_ifs at h with hempty
  · cases h
  · obtain ⟨rfl, -⟩ := Prod.mk.inj h
    have hne : s.read_sequence_.toNat ≠ s.write_sequence_.toNat := fun h =>
      hempty (UInt64.toNat_inj.mp h)
    have hr := s.read_sequence_.toNat_lt
    have hw := s.write_sequence_.toNat_lt
    have hone : (1 : UInt64).toNat = 1 := rfl
    unfold size
    dsimp only
    rw [UInt64.toNat_sub, UInt64.toNat_sub, UInt64.toNat_add, hone]
    omega

/-- The buffer holds these items, oldest first, and neither thread is in a call. -/
def Holds (s : HPRingBuffer T sz) (l : List T) : Prop :=
  ∃ popped, Inv ⟨s, popped ++ l, popped⟩ ∧ s.producer = .idle ∧ s.consumer = .idle

theorem holds_create (buffer : Fin sz.size → T) : (create buffer).state.Holds [] :=
  ⟨[], inv_create buffer, rfl, rfl⟩

namespace Holds

variable {s : HPRingBuffer T sz} {l : List T}

theorem length_le (h : s.Holds l) : l.length ≤ sz.size - 1 := by
  obtain ⟨popped, hinv, -, -⟩ := h
  have hbound := hinv.bound
  simp only [List.length_append] at hbound
  omega

theorem size_eq (h : s.Holds l) : s.size = l.length := by
  have hle := h.length_le
  have hfits := sz.fits
  obtain ⟨popped, hinv, -, -⟩ := h
  have hlength : (popped ++ l).length = popped.length + l.length := List.length_append
  have hwrite := hinv.write
  have hread := hinv.read
  dsimp only at hwrite hread
  rw [size, hwrite, hread, SequenceCounter.toNat_sub (by omega) (by omega)]
  omega

theorem tryPush (h : s.Holds l) (hroom : l.length < sz.size - 1) (item : T) :
    (s.tryPush item).1.Holds (l ++ [item]) ∧ (s.tryPush item).2 = true := by
  obtain ⟨popped, hinv, hp, hc⟩ := h
  have hlength : (popped ++ l).length = popped.length + l.length := List.length_append
  have hwrite : s.write_sequence_ = .ofNat (popped ++ l).length := hinv.write
  have hnotFull : ¬ sz.mask ≤ s.write_sequence_ - s.read_sequence_ := by
    rw [hwrite]
    refine mt hinv.mask_le_iff.mp ?_
    unfold Traced.stored
    dsimp only
    omega
  rw [HPRingBuffer.tryPush, if_neg hnotFull]
  refine ⟨⟨popped, ?_, hp, hc⟩, rfl⟩
  -- the steps of the producer, from the one that finds room
  have hfree := hinv.setProducer (p := .free item s.write_sequence_)
    ⟨hwrite, by dsimp only; omega⟩
  have hpushed := (hfree.writeSlot rfl).push rfl
  rw [← hp] at hpushed
  rw [← List.append_assoc]
  exact hpushed

theorem tryPush_full (h : s.Holds l) (hfull : l.length = sz.size - 1) (item : T) :
    s.tryPush item = (s, false) := by
  obtain ⟨popped, hinv, -, -⟩ := h
  have hlength : (popped ++ l).length = popped.length + l.length := List.length_append
  have hwrite : s.write_sequence_ = .ofNat (popped ++ l).length := hinv.write
  rw [HPRingBuffer.tryPush, if_pos]
  rw [hwrite]
  refine hinv.mask_le_iff.mpr ?_
  unfold Traced.stored
  dsimp only
  omega

theorem tryPop_nil (h : s.Holds []) (moved : T → T) : s.tryPop moved = (s, none) := by
  obtain ⟨popped, hinv, -, -⟩ := h
  have hread : s.read_sequence_ = .ofNat popped.length := hinv.read
  rw [HPRingBuffer.tryPop, if_pos]
  rw [hread]
  refine hinv.eq_write_iff.mpr ?_
  unfold Traced.stored
  simp

theorem tryPop_cons {item : T} (h : s.Holds (item :: l)) (moved : T → T) :
    (s.tryPop moved).1.Holds l ∧ (s.tryPop moved).2 = some item := by
  obtain ⟨popped, hinv, hp, hc⟩ := h
  have hlength : (popped ++ item :: l).length = popped.length + (l.length + 1) :=
    List.length_append
  have hread : s.read_sequence_ = .ofNat popped.length := hinv.read
  have hnotEmpty : ¬ s.read_sequence_ = s.write_sequence_ := by
    rw [hread]
    refine mt hinv.eq_write_iff.mp ?_
    unfold Traced.stored
    dsimp only
    omega
  have hvalue : s.buffer_ (sz.slot s.read_sequence_) = item := by
    rw [hread]
    refine hinv.held _ _ ⟨le_rfl, fun rs value hv => ?_⟩ ?_
    · rw [hc] at hv
      cases hv
    · rw [List.getElem?_append_right le_rfl, Nat.sub_self]
      rfl
  rw [HPRingBuffer.tryPop, if_neg hnotEmpty]
  refine ⟨⟨popped ++ [item], ?_, hp, hc⟩, congrArg some hvalue⟩
  -- the steps of the consumer, from the one that finds an item
  have hready := hinv.setConsumer (c := .ready s.read_sequence_)
    (fun rs value hv => by rw [hc] at hv; cases hv) ⟨hread, by dsimp only; omega⟩
  have hpopped := (hready.readSlot moved rfl).pop rfl
  rw [← hc] at hpopped
  dsimp only at hpopped
  rw [hvalue] at hpopped
  rw [List.append_assoc]
  rw [hvalue]
  exact hpopped

end Holds

end HPRingBuffer

end HftSdk

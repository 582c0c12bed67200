import HftSdk.Lib.SequenceCounter
import HftSdk.Lib.Run
import Mathlib.Data.List.Infix
import Mathlib.Logic.Function.Basic

/-!
# The single-producer single-consumer ring buffer

`HPRingBuffer.hpp`. One producer runs `try_push` and `push`, one consumer `try_pop` and `pop`; a step
of either is one load, one access to a slot or one store, and the steps interleave in any way. Loads
and stores are sequentially consistent. A load of the other side's counter goes together with the
test of what was loaded, which touches nothing shared. `WaitStrategy` touches nothing shared either,
so that a blocking call that has to wait is at its first load again.
-/

namespace HftSdk

/-- A `Size` that passes the static assertion. -/
structure RingSize where
  size : Nat
  fits : size < 2 ^ 64
  valid : 1 < size ∧ size &&& (size - 1) = 0

namespace RingSize

theorem isPowerOfTwo (sz : RingSize) : sz.size.isPowerOfTwo :=
  (Nat.and_sub_one_eq_zero_iff_isPowerOfTwo (by have := sz.valid.1; omega)).mp sz.valid.2

/-- `mask_`, and the usable capacity. -/
def mask (sz : RingSize) : UInt64 := .ofNat (sz.size - 1)

/-- The slot of a sequence number. -/
def slot (sz : RingSize) (seq : UInt64) : Fin sz.size :=
  ⟨(seq &&& sz.mask).toNat, by
    have hmask : sz.mask.toNat = sz.size - 1 := by
      rw [mask, UInt64.toNat_ofNat', Nat.mod_eq_of_lt (by have := sz.fits; omega)]
    rw [UInt64.toNat_and, hmask]
    have hle := Nat.and_le_right (n := seq.toNat) (m := sz.size - 1)
    have := sz.valid.1
    omega⟩

theorem slot_ne (sz : RingSize) {i j : Nat} (hlt : i < j) (hlap : j < i + sz.size) :
    sz.slot (.ofNat i) ≠ sz.slot (.ofNat j) := by
  intro h
  have hval := congrArg Fin.val h
  unfold slot mask at hval
  dsimp only at hval
  rw [SequenceCounter.toNat_and_mask sz.isPowerOfTwo sz.fits,
    SequenceCounter.toNat_and_mask sz.isPowerOfTwo sz.fits] at hval
  exact SequenceCounter.mod_ne hlt hlap hval

end RingSize

namespace HPRingBuffer

/-! ## The two threads -/

/-- Where the producer is: outside, before the load of `write_sequence_`, before that of
`read_sequence_`, before the write of the slot, before the store of `write_sequence_`. -/
inductive Producer (T : Type)
  | idle
  | start (item : T) (blocking : Bool)
  | loaded (item : T) (blocking : Bool) (ws : UInt64)
  | free (item : T) (ws : UInt64)
  | wrote (item : T) (ws : UInt64)

/-- Where the consumer is: outside, before the load of `read_sequence_`, before that of
`write_sequence_`, before it moves the slot out, before the store of `read_sequence_`. -/
inductive Consumer (T : Type)
  | idle
  | start (blocking : Bool)
  | loaded (blocking : Bool) (rs : UInt64)
  | ready (rs : UInt64)
  | took (rs : UInt64) (value : T)

end HPRingBuffer

open HPRingBuffer in
structure HPRingBuffer (T : Type) (sz : RingSize) where
  write_sequence_ : UInt64 := 0
  read_sequence_ : UInt64 := 0
  buffer_ : Fin sz.size → T
  producer : Producer T := .idle
  consumer : Consumer T := .idle

namespace HPRingBuffer

variable {T : Type} {sz : RingSize}

/-- What a call returns, with the item a successful push has pushed. -/
inductive Outcome (T : Type)
  | pushed (item : T)
  | full
  | popped (value : T)
  | empty
deriving DecidableEq

/-- A call, or the next step of the call a thread is in. -/
inductive Action (T : Type)
  | push (item : T) (blocking : Bool)
  | pop (blocking : Bool)
  | produce
  | consume

/-- The producer's next step. -/
def produce (s : HPRingBuffer T sz) : HPRingBuffer T sz × Option (Outcome T) :=
  match s.producer with
  | .idle => (s, none)
  | .start item blocking => ({ s with producer := .loaded item blocking s.write_sequence_ }, none)
  | .loaded item blocking ws =>
    if sz.mask ≤ ws - s.read_sequence_ then
      if blocking then ({ s with producer := .start item blocking }, none)
      else ({ s with producer := .idle }, some .full)
    else ({ s with producer := .free item ws }, none)
  | .free item ws =>
    ({ s with buffer_ := Function.update s.buffer_ (sz.slot ws) item, producer := .wrote item ws },
      none)
  | .wrote item ws => ({ s with write_sequence_ := ws + 1, producer := .idle }, some (.pushed item))

/-- The consumer's next step; `moved` is what `std::move` leaves behind. -/
def consume (moved : T → T) (s : HPRingBuffer T sz) : HPRingBuffer T sz × Option (Outcome T) :=
  match s.consumer with
  | .idle => (s, none)
  | .start blocking => ({ s with consumer := .loaded blocking s.read_sequence_ }, none)
  | .loaded blocking rs =>
    if rs = s.write_sequence_ then
      if blocking then ({ s with consumer := .start blocking }, none)
      else ({ s with consumer := .idle }, some .empty)
    else ({ s with consumer := .ready rs }, none)
  | .ready rs =>
    let value := s.buffer_ (sz.slot rs)
    ({ s with
        buffer_ := Function.update s.buffer_ (sz.slot rs) (moved value), consumer := .took rs value },
      none)
  | .took rs value => ({ s with read_sequence_ := rs + 1, consumer := .idle }, some (.popped value))

/-- One step; a thread that is in a call makes no other. -/
def step (moved : T → T) (s : HPRingBuffer T sz) : Action T → HPRingBuffer T sz × Option (Outcome T)
  | .push item blocking =>
    match s.producer with
    | .idle => ({ s with producer := .start item blocking }, none)
    | _ => (s, none)
  | .pop blocking =>
    match s.consumer with
    | .idle => ({ s with consumer := .start blocking }, none)
    | _ => (s, none)
  | .produce => s.produce
  | .consume => s.consume moved

/-! ## What was pushed and popped -/

/-- The buffer, and what was pushed and popped so far. -/
structure Traced (T : Type) (sz : RingSize) where
  state : HPRingBuffer T sz
  pushed : List T := []
  popped : List T := []

namespace Traced

/-- How many items are stored. -/
def stored (t : Traced T sz) : Nat := t.pushed.length - t.popped.length

def record (t : Traced T sz) : HPRingBuffer T sz × Option (Outcome T) → Traced T sz
  | (s, some (.pushed item)) => { t with state := s, pushed := t.pushed ++ [item] }
  | (s, some (.popped value)) => { t with state := s, popped := t.popped ++ [value] }
  | (s, _) => { t with state := s }

def step (moved : T → T) (t : Traced T sz) (a : Action T) : Traced T sz :=
  t.record (t.state.step moved a)

end Traced

/-- An empty buffer with both threads outside. -/
def create (buffer : Fin sz.size → T) : Traced T sz := { state := { buffer_ := buffer } }

/-! ## The invariant -/

/-- The slot a consumer may be reading, until it has stored its counter. -/
def Consumer.reading? : Consumer T → Option UInt64
  | .ready rs => some rs
  | .took rs _ => some rs
  | _ => none

/-- What the producer knows after `w` pushes and `r` pops. -/
def ProducerOk (sz : RingSize) (buffer : Fin sz.size → T) (w r : Nat) : Producer T → Prop
  | .idle | .start _ _ => True
  | .loaded _ _ ws => ws = .ofNat w
  | .free _ ws => ws = .ofNat w ∧ w < r + (sz.size - 1)
  | .wrote item ws => ws = .ofNat w ∧ w < r + (sz.size - 1) ∧ buffer (sz.slot ws) = item

/-- What the consumer knows after `r` pops. -/
def ConsumerOk (pushed : List T) (r : Nat) : Consumer T → Prop
  | .idle | .start _ => True
  | .loaded _ rs => rs = .ofNat r
  | .ready rs => rs = .ofNat r ∧ r < pushed.length
  | .took rs value => rs = .ofNat r ∧ pushed[r]? = some value

/-- The numbers of the items whose slots hold them: the stored ones, but for one that was taken. -/
def Held (t : Traced T sz) (i : Nat) : Prop :=
  t.popped.length ≤ i ∧ ∀ rs value, t.state.consumer = .took rs value → i ≠ t.popped.length

/-- **The invariant.** -/
structure Inv (t : Traced T sz) : Prop where
  write : t.state.write_sequence_ = .ofNat t.pushed.length
  read : t.state.read_sequence_ = .ofNat t.popped.length
  fifo : t.popped <+: t.pushed
  bound : t.pushed.length ≤ t.popped.length + (sz.size - 1)
  held : ∀ i value, Held t i → t.pushed[i]? = some value →
    t.state.buffer_ (sz.slot (.ofNat i)) = value
  producer : ProducerOk sz t.state.buffer_ t.pushed.length t.popped.length t.state.producer
  consumer : ConsumerOk t.pushed t.popped.length t.state.consumer

namespace Inv

variable {t : Traced T sz}

theorem length_le (h : Inv t) : t.popped.length ≤ t.pushed.length := h.fifo.length_le

theorem mask_le_iff (h : Inv t) :
    sz.mask ≤ UInt64.ofNat t.pushed.length - t.state.read_sequence_ ↔ t.stored = sz.size - 1 := by
  have hle := h.length_le
  have hbound := h.bound
  have hfits := sz.fits
  rw [h.read, UInt64.le_iff_toNat_le, SequenceCounter.toNat_sub hle (by omega), RingSize.mask,
    UInt64.toNat_ofNat', Nat.mod_eq_of_lt (by omega), Traced.stored]
  omega

theorem eq_write_iff (h : Inv t) :
    UInt64.ofNat t.popped.length = t.state.write_sequence_ ↔ t.stored = 0 := by
  have hle := h.length_le
  have hbound := h.bound
  have hfits := sz.fits
  rw [h.write, SequenceCounter.ofNat_inj hle (by omega), Traced.stored]
  omega

/-! ### A thread that only moves on -/

theorem setProducer (h : Inv t) {p : Producer T}
    (hp : ProducerOk sz t.state.buffer_ t.pushed.length t.popped.length p) :
    Inv { t with state := { t.state with producer := p } } :=
  ⟨h.write, h.read, h.fifo, h.bound, h.held, hp, h.consumer⟩

theorem setConsumer (h : Inv t) {c : Consumer T}
    (hold : ∀ rs value, t.state.consumer ≠ .took rs value)
    (hc : ConsumerOk t.pushed t.popped.length c) :
    Inv { t with state := { t.state with consumer := c } } :=
  ⟨h.write, h.read, h.fifo, h.bound,
    fun i value hi => h.held i value ⟨hi.1, fun rs v hv => absurd hv (hold rs v)⟩, h.producer, hc⟩

/-! ### The accesses to the slots -/

theorem writeSlot (h : Inv t) {item : T} {ws : UInt64} (hp : t.state.producer = .free item ws) :
    Inv { t with
      state := { t.state with
        buffer_ := Function.update t.state.buffer_ (sz.slot ws) item, producer := .wrote item ws } } := by
  have hprod := h.producer
  rw [hp] at hprod
  obtain ⟨rfl, hlt⟩ := hprod
  refine ⟨h.write, h.read, h.fifo, h.bound, ?_, ⟨rfl, hlt, Function.update_self ..⟩, h.consumer⟩
  intro i value hi hv
  have hiw : i < t.pushed.length := (List.getElem?_eq_some_iff.mp hv).1
  have hri : t.popped.length ≤ i := hi.1
  dsimp only
  rw [Function.update_of_ne (sz.slot_ne hiw (by omega))]
  exact h.held i value hi hv

theorem readSlot (h : Inv t) (moved : T → T) {rs : UInt64} (hc : t.state.consumer = .ready rs) :
    Inv { t with
      state := { t.state with
        buffer_ := Function.update t.state.buffer_ (sz.slot rs) (moved (t.state.buffer_ (sz.slot rs)))
        consumer := .took rs (t.state.buffer_ (sz.slot rs)) } } := by
  have hcons := h.consumer
  rw [hc] at hcons
  obtain ⟨rfl, hlt⟩ := hcons
  have hbound := h.bound
  have hheld : Held t t.popped.length :=
    ⟨le_rfl, fun rs v hv => by rw [hc] at hv; exact absurd hv (by simp)⟩
  have hvalue := h.held _ _ hheld (List.getElem?_eq_getElem hlt)
  refine ⟨h.write, h.read, h.fifo, h.bound, ?_, ?_, rfl, ?_⟩
  · intro i value hi hv
    have hne : i ≠ t.popped.length := hi.2 _ _ rfl
    have hiw : i < t.pushed.length := (List.getElem?_eq_some_iff.mp hv).1
    have hri : t.popped.length ≤ i := hi.1
    dsimp only
    rw [Function.update_of_ne (sz.slot_ne (i := t.popped.length) (by omega) (by omega)).symm]
    exact h.held i value ⟨hri, fun rs v hv => by rw [hc] at hv; exact absurd hv (by simp)⟩ hv
  · -- the producer's slot is another one
    have hprod := h.producer
    revert hprod
    dsimp only
    cases t.state.producer with
    | idle => exact id
    | start item blocking => exact id
    | loaded item blocking ws => exact id
    | free item ws => exact id
    | wrote item ws =>
      rintro ⟨rfl, hw, hitem⟩
      refine ⟨rfl, hw, ?_⟩
      rw [Function.update_of_ne (sz.slot_ne hlt (by omega)).symm]
      exact hitem
  · rw [hvalue]
    exact List.getElem?_eq_getElem hlt

/-! ### The stores of the counters -/

theorem push (h : Inv t) {item : T} {ws : UInt64} (hp : t.state.producer = .wrote item ws) :
    Inv { t with
      state := { t.state with write_sequence_ := ws + 1, producer := .idle }
      pushed := t.pushed ++ [item] } := by
  have hprod := h.producer
  rw [hp] at hprod
  obtain ⟨rfl, hlt, hitem⟩ := hprod
  have hlength : (t.pushed ++ [item]).length = t.pushed.length + 1 := List.length_append
  refine ⟨?_, h.read, h.fifo.trans (List.prefix_append _ _), ?_, ?_, trivial, ?_⟩
  · dsimp only
    rw [SequenceCounter.ofNat_succ, hlength]
  · dsimp only
    omega
  · intro i value hi hv
    dsimp only at hv ⊢
    by_cases hiw : i < t.pushed.length
    · rw [List.getElem?_append_left hiw] at hv
      exact h.held i value hi hv
    · have hi' := (List.getElem?_eq_some_iff.mp hv).1
      obtain rfl : i = t.pushed.length := by omega
      rw [List.getElem?_append_right le_rfl, Nat.sub_self] at hv
      rw [hitem]
      exact Option.some_inj.mp hv
  · have hcons := h.consumer
    revert hcons
    dsimp only
    cases t.state.consumer with
    | idle => exact id
    | start blocking => exact id
    | loaded blocking rs => exact id
    | ready rs => exact fun hcons => ⟨hcons.1, by have := hcons.2; omega⟩
    | took rs value =>
      rintro ⟨hrs, hv⟩
      refine ⟨hrs, ?_⟩
      rw [List.getElem?_append_left (List.getElem?_eq_some_iff.mp hv).1]
      exact hv

theorem pop (h : Inv t) {rs : UInt64} {value : T} (hc : t.state.consumer = .took rs value) :
    Inv { t with
      state := { t.state with read_sequence_ := rs + 1, consumer := .idle }
      popped := t.popped ++ [value] } := by
  have hcons := h.consumer
  rw [hc] at hcons
  obtain ⟨rfl, hv⟩ := hcons
  have hlength : (t.popped ++ [value]).length = t.popped.length + 1 := List.length_append
  have hbound := h.bound
  refine ⟨h.write, ?_, ?_, ?_, ?_, ?_, trivial⟩
  · dsimp only
    rw [SequenceCounter.ofNat_succ, hlength]
  · obtain ⟨rest, hrest⟩ := h.fifo
    rw [← hrest, List.getElem?_append_right le_rfl, Nat.sub_self] at hv
    cases rest with
    | nil => exact absurd hv (by simp)
    | cons v rest =>
      obtain rfl : v = value := Option.some_inj.mp hv
      refine ⟨rest, ?_⟩
      rw [← hrest, List.append_assoc]
      rfl
  · dsimp only
    omega
  · intro i v hi
    have hri : t.popped.length + 1 ≤ i := by rw [← hlength]; exact hi.1
    exact h.held i v ⟨by omega, fun rs v hv => by omega⟩
  · have hprod := h.producer
    revert hprod
    dsimp only
    cases t.state.producer with
    | idle => exact id
    | start item blocking => exact id
    | loaded item blocking ws => exact id
    | free item ws => exact fun hprod => ⟨hprod.1, by have := hprod.2; omega⟩
    | wrote item ws => exact fun hprod => ⟨hprod.1, by have := hprod.2.1; omega, hprod.2.2⟩

/-! ### The steps -/

theorem produce (h : Inv t) : Inv (t.record t.state.produce) := by
  unfold HPRingBuffer.produce
  have hprod := h.producer
  cases hp : t.state.producer with
  | idle => exact h
  | start item blocking => exact h.setProducer h.write
  | loaded item blocking ws =>
    rw [hp] at hprod
    obtain rfl : ws = _ := hprod
    dsimp only
    by_cases hfull : sz.mask ≤ UInt64.ofNat t.pushed.length - t.state.read_sequence_
    · rw [if_pos hfull]
      cases blocking with
      | true => exact h.setProducer trivial
      | false => exact h.setProducer trivial
    · rw [if_neg hfull]
      have hbound := h.bound
      have hstored := mt h.mask_le_iff.mpr hfull
      unfold Traced.stored at hstored
      exact h.setProducer ⟨rfl, by omega⟩
  | free item ws => exact h.writeSlot hp
  | wrote item ws => exact h.push hp

theorem consume (h : Inv t) (moved : T → T) : Inv (t.record (t.state.consume moved)) := by
  unfold HPRingBuffer.consume
  have hcons := h.consumer
  cases hc : t.state.consumer with
  | idle => exact h
  | start blocking => exact h.setConsumer (by simp [hc]) h.read
  | loaded blocking rs =>
    rw [hc] at hcons
    obtain rfl : rs = _ := hcons
    dsimp only
    by_cases hempty : UInt64.ofNat t.popped.length = t.state.write_sequence_
    · rw [if_pos hempty]
      cases blocking with
      | true => exact h.setConsumer (by simp [hc]) trivial
      | false => exact h.setConsumer (by simp [hc]) trivial
    · rw [if_neg hempty]
      have hstored := mt h.eq_write_iff.mpr hempty
      unfold Traced.stored at hstored
      exact h.setConsumer (by simp [hc]) ⟨rfl, by omega⟩
  | ready rs => exact h.readSlot moved hc
  | took rs value => exact h.pop hc

theorem step (h : Inv t) (moved : T → T) (a : Action T) : Inv (t.step moved a) := by
  cases a with
  | push item blocking =>
    unfold Traced.step HPRingBuffer.step
    cases hp : t.state.producer with
    | idle => exact h.setProducer trivial
    | _ => exact h
  | pop blocking =>
    unfold Traced.step HPRingBuffer.step
    cases hc : t.state.consumer with
    | idle => exact h.setConsumer (by simp [hc]) trivial
    | _ => exact h
  | produce => exact h.produce
  | consume => exact h.consume moved

end Inv

/-! ## The queue -/

/-- **What the buffer promises** at any moment: items come out in the order in which they went in,
each once; no more are stored than fit; the slot about to be written is not one being read; and a
call that does not wait fails only on a full, or an empty, buffer. -/
structure Correct (moved : T → T) (t : Traced T sz) : Prop where
  fifo : t.popped <+: t.pushed
  capacity : t.stored ≤ sz.size - 1
  exclusive : ∀ item ws rs, t.state.producer = .free item ws →
    t.state.consumer.reading? = some rs → sz.slot ws ≠ sz.slot rs
  full : (t.state.step moved .produce).2 = some .full → t.stored = sz.size - 1
  empty : (t.state.step moved .consume).2 = some .empty → t.stored = 0

theorem Inv.exclusive {t : Traced T sz} (h : Inv t) {item : T} {ws rs : UInt64}
    (hp : t.state.producer = .free item ws) (hc : t.state.consumer.reading? = some rs) :
    sz.slot ws ≠ sz.slot rs := by
  have hprod := h.producer
  rw [hp] at hprod
  obtain ⟨rfl, hw⟩ := hprod
  obtain ⟨rfl, hr⟩ : rs = .ofNat t.popped.length ∧ t.popped.length < t.pushed.length := by
    have hcons := h.consumer
    revert hcons hc
    cases t.state.consumer with
    | ready rs' =>
      rintro hrs ⟨rfl, hlt⟩
      exact ⟨(Option.some_inj.mp hrs).symm, hlt⟩
    | took rs' value =>
      rintro hrs ⟨rfl, hv⟩
      exact ⟨(Option.some_inj.mp hrs).symm, (List.getElem?_eq_some_iff.mp hv).1⟩
    | _ => exact fun hrs => absurd hrs (by simp [Consumer.reading?])
  exact (sz.slot_ne hr (by omega)).symm

theorem Inv.correct {t : Traced T sz} (h : Inv t) (moved : T → T) : Correct moved t := by
  refine ⟨h.fifo, ?_, fun _ _ _ => h.exclusive, ?_, ?_⟩
  · have hbound := h.bound
    unfold Traced.stored
    omega
  · intro hfull
    unfold HPRingBuffer.step HPRingBuffer.produce at hfull
    have hprod := h.producer
    revert hfull hprod
    cases t.state.producer with
    | loaded item blocking ws =>
      rintro hfull rfl
      apply h.mask_le_iff.mp
      by_contra hroom
      dsimp only at hfull
      rw [if_neg hroom] at hfull
      exact absurd hfull (by simp)
    | _ => exact fun hfull => absurd hfull (by simp)
  · intro hempty
    unfold HPRingBuffer.step HPRingBuffer.consume at hempty
    have hcons := h.consumer
    revert hempty hcons
    cases t.state.consumer with
    | loaded blocking rs =>
      rintro hempty rfl
      apply h.eq_write_iff.mp
      by_contra hroom
      dsimp only at hempty
      rw [if_neg hroom] at hempty
      exact absurd hempty (by simp)
    | _ => exact fun hempty => absurd hempty (by simp)

theorem inv_create (buffer : Fin sz.size → T) : Inv (create buffer) :=
  ⟨rfl, rfl, List.nil_prefix, Nat.zero_le _, fun i v _ hv => absurd hv (by simp [create]), trivial,
    trivial⟩

/-- **The ring buffer is a bounded first-in first-out queue** under every interleaving of the two
threads, in runs of any length. -/
theorem run_correct (moved : T → T) (buffer : Fin sz.size → T) (acts : List (Action T)) :
    Correct moved (acts.foldl (Traced.step moved) (create buffer)) :=
  (Run.invariant (fun _ a h => h.step moved a) acts (inv_create buffer)).correct moved

end HPRingBuffer

end HftSdk

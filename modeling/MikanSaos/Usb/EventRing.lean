import Mathlib.Data.Nat.ModEq
import MikanSaos.Error
import MikanSaos.Usb.RingRun

/-!
# EventRing — the events that the controller reports to the driver

The controller fills the slots of one segment and the driver takes them in `ProcessEvents`.  No count is
kept: the driver compares the cycle bit of the slot at `ERDP` with its own.
-/

open Reasoning

namespace MikanSaos

/-- `erdp` is the field `event_ring_dequeue_pointer` of the register; `buf` holds the slots of the segment
that the segment table describes. -/
structure EventRing where
  buf : Nat → TRB
  ringSegmentBaseAddress : Nat
  ringSegmentSize : Nat
  cycleBit : Bool
  erdp : Nat

namespace EventRing

def readDequeuePointer (r : EventRing) : Nat := r.erdp * 16

def writeDequeuePointer (r : EventRing) (p : Nat) : EventRing := { r with erdp := p / 16 % 2 ^ 60 }

/-- The segment and the segment table are allocated and cleared. -/
def initializeEventRing (pool : MemoryPool) (bufSize : Nat) : Option EventRing × MemoryPool :=
  let segment := pool.allocMem (16 * bufSize) 64 (64 * 1024)
  let erst := segment.2.allocMem 16 64 (64 * 1024)
  (segment.1.bind fun buf => erst.1.map fun _ =>
      (⟨fun _ _ => 0, buf, bufSize % 2 ^ 16, true, 0⟩ : EventRing).writeDequeuePointer buf,
    if segment.1.isSome then erst.2 else segment.2)

/-- The TRB at the dequeue pointer, where it points into the segment. -/
def front (r : EventRing) : Option TRB :=
  let offset := r.readDequeuePointer - r.ringSegmentBaseAddress
  if r.ringSegmentBaseAddress ≤ r.readDequeuePointer ∧ offset % 16 = 0 ∧ offset / 16 < r.ringSegmentSize then
    some (r.buf (offset / 16))
  else none

def hasFront (r : EventRing) : Bool :=
  match r.front with
  | some trb => trb.cycleBit == r.cycleBit
  | none => false

def pop (r : EventRing) : EventRing :=
  let p := r.readDequeuePointer + 16
  let segmentEnd := r.ringSegmentBaseAddress + 16 * r.ringSegmentSize
  if p = segmentEnd then
    { r with cycleBit := !r.cycleBit }.writeDequeuePointer r.ringSegmentBaseAddress
  else r.writeDequeuePointer p

/-- The controller stores word `i` of an event in a slot. -/
def storeWord (r : EventRing) (slot : Nat) (cycle : Bool) (event : TRB) (i : Fin 4) : EventRing :=
  { r with
    buf := Function.update r.buf slot
      (Function.update (r.buf slot) i (event.mark (if cycle then 1 else 0) i)) }

/-- A new segment is aligned and lies in the address space; `ERDP` points to its first slot. -/
theorem initializeEventRing_some {pool : MemoryPool} {bufSize : Nat} {r : EventRing}
    (h : (initializeEventRing pool bufSize).1 = some r) :
    ∃ base, r = ⟨fun _ _ => 0, base, bufSize % 2 ^ 16, true, base / 16 % 2 ^ 60⟩ ∧ 16 ∣ base ∧
      base + 16 * bufSize ≤ 2 ^ 64 := by
  obtain ⟨base, hsegment, herst⟩ := Option.bind_eq_some_iff.mp h
  obtain ⟨erst, -, hring⟩ := Option.map_eq_some_iff.mp herst
  have hfits := MemoryPool.allocMem_some hsegment (by decide) (by decide)
  exact ⟨base, hring.symm, Nat.dvd_trans (by decide) hfits.1, hfits.2⟩

end EventRing

inductive Handler where
  | onTransferEvent | onCommandCompletionEvent | onPortStatusChangeEvent
  deriving DecidableEq, Repr

/-- The handler that `ProcessEvent` calls; for other types it keeps `kNotImplemented`. -/
def handlerOf (trb : TRB) : Option Handler :=
  if trb.trbType = 32 then some .onTransferEvent
  else if trb.trbType = 33 then some .onCommandCompletionEvent
  else if trb.trbType = 34 then some .onPortStatusChangeEvent
  else none

/-- Where the driver is in `while HasFront: ProcessEvent`: before the condition, in `ProcessEvent`, or before
its `Pop`, with the error that the handler returned. -/
inductive EventLoop where
  | condition
  | processEvent
  | handled (err : Error)
  deriving DecidableEq

/-- The driver, and the controller at the slot `enqueue`.  `written` are the events whose last word has been
stored, `handed` the TRBs that `ProcessEvent` has seen with the handlers it called, and `popped` counts the
calls of `Pop`. -/
structure EventRun where
  ring : EventRing
  enqueue : Nat
  producerCycle : Bool
  writing : Option (TRB × Fin 4)
  loop : EventLoop
  written : List TRB
  handed : List (TRB × Option Handler)
  popped : Nat

inductive EventSide where
  | controller | driver

open EventLoop in
/-- One step of the controller, which overwrites no event that has not been consumed, or of the driver. -/
inductive EventStep (s : EventRun) : EventSide → EventRun → Prop
  | write (event : TRB) (hidle : s.writing = none)
      (hroom : s.written.length < s.popped + s.ring.ringSegmentSize) :
      EventStep s .controller { s with writing := some (event, 0) }
  | storeWord (event : TRB) (i : Fin 4) (hwriting : s.writing = some (event, i)) (hi : i ≠ 3) :
      EventStep s .controller { s with
        ring := s.ring.storeWord s.enqueue s.producerCycle event i
        writing := some (event, i + 1) }
  | publish (event : TRB) (hwriting : s.writing = some (event, 3)) :
      EventStep s .controller { s with
        ring := s.ring.storeWord s.enqueue s.producerCycle event 3
        enqueue := if s.enqueue + 1 = s.ring.ringSegmentSize then 0 else s.enqueue + 1
        producerCycle := if s.enqueue + 1 = s.ring.ringSegmentSize then !s.producerCycle else s.producerCycle
        writing := none
        written := s.written ++ [event] }
  | enter (hloop : s.loop = condition) (hfront : s.ring.hasFront = true) :
      EventStep s .driver { s with loop := processEvent }
  | leave (hloop : s.loop = processEvent) (hfront : s.ring.hasFront = false) :
      EventStep s .driver { s with loop := condition }
  | handle (trb : TRB) (err : Error) (hloop : s.loop = processEvent) (hfront : s.ring.front = some trb)
      (hcycle : trb.cycleBit = s.ring.cycleBit) (herr : handlerOf trb = none → err = .kNotImplemented) :
      EventStep s .driver { s with loop := handled err, handed := s.handed ++ [(trb, handlerOf trb)] }
  | pop (err : Error) (hloop : s.loop = handled err) :
      EventStep s .driver { s with ring := s.ring.pop, loop := condition, popped := s.popped + 1 }

namespace EventRun

open RingRun

/-- A segment of `n` slots that `Initialize` has just made. -/
def Fresh (n : Nat) (s : EventRun) : Prop :=
  ∃ pool bufSize ring, (EventRing.initializeEventRing pool bufSize).1 = some ring ∧
    ring.ringSegmentSize = n ∧ 0 < n ∧ s = ⟨ring, 0, true, none, .condition, [], [], 0⟩

/-- Any step of one of the two sides. -/
def Step (s t : EventRun) : Prop := ∃ side, EventStep s side t

def DriverStep (s t : EventRun) : Prop := EventStep s .driver t

variable {n : Nat} {s t : EventRun}

/-! ## Slots and laps -/

theorem mod_ne_of_lt {a b : Nat} (h : a < b) (h' : b < a + n) : a % n ≠ b % n := by
  intro heq
  have hdvd : n ∣ b - a := (Nat.modEq_iff_dvd' (Nat.le_of_lt h)).mp heq
  have hle := Nat.le_of_dvd (by omega) hdvd
  omega

/-- The slot after the last one is the first of the next lap. -/
theorem succ_mod_of_last {a : Nat} (hn : 0 < n) (h : a % n + 1 = n) :
    (a + 1) % n = 0 ∧ (a + 1) / n = a / n + 1 := by
  have hdiv := Nat.div_add_mod a n
  have hmul : a + 1 = n * (a / n + 1) := by
    rw [Nat.mul_succ]
    omega
  exact ⟨hmul ▸ Nat.mul_mod_right n _, by rw [hmul, Nat.mul_div_cancel_left _ hn]⟩

theorem succ_mod_of_lt {a : Nat} (h : a % n + 1 < n) :
    (a + 1) % n = a % n + 1 ∧ (a + 1) / n = a / n := by
  have hdiv := Nat.div_add_mod a n
  have hmul : a + 1 = (a % n + 1) + n * (a / n) := by omega
  refine ⟨?_, ?_⟩
  · rw [hmul, Nat.add_mul_mod_self_left, Nat.mod_eq_of_lt h]
  · rw [hmul, Nat.add_mul_div_left _ _ (by omega), Nat.div_eq_of_lt h, Nat.zero_add]

/-- The cycle bit that `Push` or the controller stores. -/
def cycleByte (cycle : Bool) : BitVec 8 := if cycle then 1 else 0

theorem cycleByte_cases (cycle : Bool) : cycleByte cycle = 0 ∨ cycleByte cycle = 1 := by
  cases cycle
  · exact .inl rfl
  · exact .inr rfl

/-! ## The invariant -/

/-- The controller is at event `written.length` and the driver at event `popped`, both counted over all
laps.  A slot has the cycle bit of the controller's lap once it has been filled in this lap. -/
structure Inv (n : Nat) (s : EventRun) : Prop where
  pos : 0 < n
  size : s.ring.ringSegmentSize = n
  aligned : 16 ∣ s.ring.ringSegmentBaseAddress
  inSpace : s.ring.ringSegmentBaseAddress + 16 * n ≤ 2 ^ 64
  enqueue : s.enqueue = s.written.length % n
  producerCycle : s.producerCycle = lapBit (s.written.length / n)
  cycleBit : s.ring.cycleBit = lapBit (s.popped / n)
  erdp : s.ring.erdp = s.ring.ringSegmentBaseAddress / 16 + s.popped % n
  popped_le : s.popped ≤ s.written.length
  room : s.written.length ≤ s.popped + n
  slots : ∀ k < n, (s.ring.buf k).cycleBit =
    if k < s.written.length % n then lapBit (s.written.length / n) else !lapBit (s.written.length / n)
  outstanding : ∀ j event, s.popped ≤ j → s.written[j]? = some event →
    (s.ring.buf (j % n)).payload = event.payload
  writing : ∀ event i, s.writing = some (event, i) → s.written.length < s.popped + n ∧
    ∀ k < i, s.ring.buf s.enqueue k = event.mark (cycleByte s.producerCycle) k
  handed : s.handed.map (fun h => (h.1.payload, h.2)) =
    (s.written.take s.handed.length).map fun event => (event.payload, handlerOf event)
  loop : match s.loop with
    | .condition => s.handed.length = s.popped
    | .processEvent => s.handed.length = s.popped
    | .handled _ => s.handed.length = s.popped + 1

/-- What the driver finds in the slot at the dequeue pointer. -/
theorem Inv.front (h : s.Inv n) : s.ring.front = some (s.ring.buf (s.popped % n)) := by
  have hlt := Nat.mod_lt s.popped h.pos
  have hbase := Nat.div_mul_cancel h.aligned
  have hpointer : s.ring.readDequeuePointer = s.ring.ringSegmentBaseAddress + 16 * (s.popped % n) := by
    rw [EventRing.readDequeuePointer, h.erdp]
    omega
  have hoffset : s.ring.readDequeuePointer - s.ring.ringSegmentBaseAddress = 16 * (s.popped % n) := by
    rw [hpointer, Nat.add_sub_cancel_left]
  simp only [EventRing.front]
  rw [hoffset, Nat.mul_mod_right, Nat.mul_div_cancel_left _ (by decide), h.size]
  exact if_pos ⟨by rw [hpointer]; exact Nat.le_add_right .., rfl, hlt⟩

/-- The cycle bit there is the driver's exactly while an event has not been consumed. -/
theorem Inv.cycle_iff (h : s.Inv n) :
    (s.ring.buf (s.popped % n)).cycleBit = s.ring.cycleBit ↔ s.popped < s.written.length := by
  rw [h.cycleBit, h.slots _ (Nat.mod_lt _ h.pos)]
  have hle := h.popped_le
  have hroom := h.room
  have hdiv := Nat.div_add_mod s.popped n
  have hdiv' := Nat.div_add_mod s.written.length n
  have hlap : s.written.length / n = s.popped / n ∨ s.written.length / n = s.popped / n + 1 := by
    have hlow := Nat.div_le_div_right (c := n) hle
    have hhigh := Nat.div_le_div_right (c := n) hroom
    rw [Nat.add_div_right _ h.pos] at hhigh
    omega
  rcases hlap with hsame | hnext
  · -- both are in the same lap
    rw [hsame] at hdiv' ⊢
    by_cases hlt : s.popped % n < s.written.length % n
    · rw [if_pos hlt]
      exact iff_of_true rfl (by omega)
    · rw [if_neg hlt]
      exact iff_of_false (Bool.not_ne_self _) (by omega)
  · rw [hnext, Nat.mul_succ] at hdiv'
    have hlt := Nat.mod_lt s.popped h.pos
    rw [if_neg (by omega), hnext, lapBit_succ, Bool.not_not]
    exact iff_of_true rfl (by omega)

theorem Inv.hasFront_iff (h : s.Inv n) : s.ring.hasFront = true ↔ s.popped < s.written.length := by
  rw [← h.cycle_iff, EventRing.hasFront, h.front]
  exact beq_iff_eq

/-! ## The stores of the controller -/

theorem storeWord_of_ne {r : EventRing} {slot k : Nat} {cycle : Bool} {event : TRB} {i : Fin 4}
    (hk : k ≠ slot) : (r.storeWord slot cycle event i).buf k = r.buf k := Function.update_of_ne hk ..

theorem storeWord_self (r : EventRing) (slot : Nat) (cycle : Bool) (event : TRB) (i : Fin 4) :
    (r.storeWord slot cycle event i).buf slot =
      Function.update (r.buf slot) i (event.mark (cycleByte cycle) i) := Function.update_self ..

/-- An event that has not been consumed is in another slot. -/
theorem Inv.slot_ne (h : s.Inv n) {j : Nat} (hj : s.popped ≤ j) (hlt : j < s.written.length)
    (hroom : s.written.length < s.popped + n) : j % n ≠ s.enqueue := by
  rw [h.enqueue]
  exact mod_ne_of_lt hlt (by omega)

theorem Inv.storeWord {event : TRB} {i : Fin 4} (h : s.Inv n) (hwriting : s.writing = some (event, i))
    (hi : i ≠ 3) :
    Inv n { s with
      ring := s.ring.storeWord s.enqueue s.producerCycle event i
      writing := some (event, i + 1) } := by
  obtain ⟨hroom, hwords⟩ := h.writing event i hwriting
  exact {
    h with
    slots := fun k hk => by
      rw [← h.slots k hk]
      by_cases heq : k = s.enqueue
      · -- the cycle bit is in the last word
        rw [heq, storeWord_self, TRB.cycleBit, Function.update_of_ne hi.symm]
        rfl
      · rw [storeWord_of_ne heq]
    outstanding := fun j old hj hold => by
      have hlt := (List.getElem?_eq_some_iff.mp hold).1
      rw [storeWord_of_ne (h.slot_ne hj hlt hroom)]
      exact h.outstanding j old hj hold
    writing := fun event' i' heq => by
      cases heq
      refine ⟨hroom, fun k hk => ?_⟩
      rw [storeWord_self]
      by_cases hki : k = i
      · rw [hki, Function.update_self]
      · rw [Function.update_of_ne hki]
        exact hwords k (by omega) }

theorem Inv.publish {event : TRB} (h : s.Inv n) (hwriting : s.writing = some (event, 3)) :
    Inv n { s with
      ring := s.ring.storeWord s.enqueue s.producerCycle event 3
      enqueue := if s.enqueue + 1 = s.ring.ringSegmentSize then 0 else s.enqueue + 1
      producerCycle := if s.enqueue + 1 = s.ring.ringSegmentSize then !s.producerCycle else s.producerCycle
      writing := none
      written := s.written ++ [event] } := by
  obtain ⟨hroom, hwords⟩ := h.writing event 3 hwriting
  have hlength : (s.written ++ [event]).length = s.written.length + 1 := List.length_append
  have hslot : (s.ring.storeWord s.enqueue s.producerCycle event 3).buf s.enqueue =
      event.mark (cycleByte s.producerCycle) := by
    funext k
    rw [storeWord_self]
    by_cases hk : k = 3
    · rw [hk, Function.update_self]
    · rw [Function.update_of_ne hk]
      exact hwords k (by omega)
  have hbit : ((s.ring.storeWord s.enqueue s.producerCycle event 3).buf s.enqueue).cycleBit =
      lapBit (s.written.length / n) := by
    rw [hslot, TRB.mark_cycleBit, h.producerCycle]
    cases lapBit (s.written.length / n) <;> decide
  have hlt := Nat.mod_lt s.written.length h.pos
  have hle := h.popped_le
  have hhanded : s.handed.length ≤ s.written.length := by
    have hcount := congrArg List.length h.handed
    rw [List.length_map, List.length_map, List.length_take] at hcount
    omega
  exact {
    h with
    enqueue := by
      show (if s.enqueue + 1 = s.ring.ringSegmentSize then 0 else s.enqueue + 1) =
        (s.written ++ [event]).length % n
      rw [hlength, h.size, h.enqueue]
      by_cases hlast : s.written.length % n + 1 = n
      · rw [if_pos hlast, (succ_mod_of_last h.pos hlast).1]
      · rw [if_neg hlast, (succ_mod_of_lt (by omega)).1]
    producerCycle := by
      show (if s.enqueue + 1 = s.ring.ringSegmentSize then !s.producerCycle else s.producerCycle) =
        lapBit ((s.written ++ [event]).length / n)
      rw [hlength, h.size, h.enqueue, h.producerCycle]
      by_cases hlast : s.written.length % n + 1 = n
      · rw [if_pos hlast, (succ_mod_of_last h.pos hlast).2, lapBit_succ]
      · rw [if_neg hlast, (succ_mod_of_lt (by omega)).2]
    popped_le := by
      show s.popped ≤ (s.written ++ [event]).length
      omega
    room := by
      show (s.written ++ [event]).length ≤ s.popped + n
      omega
    slots := fun k hk => by
      show ((s.ring.storeWord s.enqueue s.producerCycle event 3).buf k).cycleBit =
        if k < (s.written ++ [event]).length % n then lapBit ((s.written ++ [event]).length / n)
        else !lapBit ((s.written ++ [event]).length / n)
      rw [hlength]
      have hold : ((s.ring.storeWord s.enqueue s.producerCycle event 3).buf k).cycleBit =
          if k < s.written.length % n + 1 then lapBit (s.written.length / n)
          else !lapBit (s.written.length / n) := by
        by_cases heq : k = s.enqueue
        · rw [heq, hbit, h.enqueue, if_pos (Nat.lt_succ_self _)]
        · rw [storeWord_of_ne heq, h.slots k hk]
          rw [h.enqueue] at heq
          exact if_congr (by omega) rfl rfl
      by_cases hlast : s.written.length % n + 1 = n
      · rw [hold, hlast, if_pos hk, (succ_mod_of_last h.pos hlast).1, (succ_mod_of_last h.pos hlast).2,
          if_neg (Nat.not_lt_zero k), lapBit_succ, Bool.not_not]
      · rw [hold, (succ_mod_of_lt (by omega)).1, (succ_mod_of_lt (by omega)).2]
    outstanding := fun j old hj hold => by
      change (s.written ++ [event])[j]? = some old at hold
      show ((s.ring.storeWord s.enqueue s.producerCycle event 3).buf (j % n)).payload = old.payload
      have hjlt := (List.getElem?_eq_some_iff.mp hold).1
      by_cases hnew : j < s.written.length
      · rw [List.getElem?_append_left hnew] at hold
        rw [storeWord_of_ne (h.slot_ne hj hnew hroom)]
        exact h.outstanding j old hj hold
      · -- the event that was just completed
        obtain rfl : j = s.written.length := by omega
        rw [List.getElem?_concat_length] at hold
        rw [← h.enqueue, hslot, Option.some.inj hold]
        exact TRB.payload_mark (cycleByte_cases _)
    writing := nofun
    handed := by
      show _ = ((s.written ++ [event]).take s.handed.length).map _
      rw [List.take_append_of_le_length hhanded]
      exact h.handed }

/-! ## The steps of the driver -/

theorem payload_handlerOf (trb : TRB) : handlerOf trb.payload = handlerOf trb := by
  rw [handlerOf, handlerOf, TRB.payload_trbType]

theorem Inv.handle {trb : TRB} (err : Error) (h : s.Inv n) (hloop : s.loop = .processEvent)
    (hfront : s.ring.front = some trb) (hcycle : trb.cycleBit = s.ring.cycleBit) :
    Inv n { s with loop := .handled err, handed := s.handed ++ [(trb, handlerOf trb)] } := by
  have hcount := h.loop
  rw [hloop] at hcount
  dsimp only at hcount
  rw [h.front] at hfront
  obtain rfl : s.ring.buf (s.popped % n) = trb := Option.some.inj hfront
  have hlt := h.cycle_iff.mp hcycle
  have hfirst := h.outstanding s.popped _ le_rfl (List.getElem?_eq_getElem hlt)
  have hhandler : handlerOf (s.ring.buf (s.popped % n)) = handlerOf s.written[s.popped] := by
    rw [← payload_handlerOf, hfirst, payload_handlerOf]
  exact {
    h with
    handed := by
      show (s.handed ++ [(s.ring.buf (s.popped % n), _)]).map _ =
        (s.written.take (s.handed ++ [(s.ring.buf (s.popped % n), _)]).length).map _
      rw [List.map_append, h.handed, List.length_append, List.length_singleton, hcount,
        List.take_succ_eq_append_getElem hlt, List.map_append, List.map_singleton, List.map_singleton]
      dsimp only
      rw [hfirst, hhandler]
    loop := by
      show (s.handed ++ [(s.ring.buf (s.popped % n), _)]).length = s.popped + 1
      rw [List.length_append, hcount]
      rfl }

theorem Inv.pop {err : Error} (h : s.Inv n) (hloop : s.loop = .handled err) :
    Inv n { s with ring := s.ring.pop, loop := .condition, popped := s.popped + 1 } := by
  have hcount := h.loop
  rw [hloop] at hcount
  dsimp only at hcount
  have hbase := Nat.div_mul_cancel h.aligned
  have hspace := h.inSpace
  have hlt := Nat.mod_lt s.popped h.pos
  -- the event was handed over, so that it has been written
  have hwritten : s.popped + 1 ≤ s.written.length := by
    have hlength := congrArg List.length h.handed
    rw [List.length_map, List.length_map, List.length_take] at hlength
    omega
  have hpointer : s.ring.readDequeuePointer = s.ring.ringSegmentBaseAddress + 16 * (s.popped % n) := by
    rw [EventRing.readDequeuePointer, h.erdp]
    omega
  have hpop : s.ring.pop.buf = s.ring.buf ∧ s.ring.pop.ringSegmentBaseAddress = s.ring.ringSegmentBaseAddress ∧
      s.ring.pop.ringSegmentSize = s.ring.ringSegmentSize ∧ s.ring.pop.cycleBit = lapBit ((s.popped + 1) / n) ∧
      s.ring.pop.erdp = s.ring.ringSegmentBaseAddress / 16 + (s.popped + 1) % n := by
    simp only [EventRing.pop]
    rw [hpointer, h.size]
    by_cases hlast : s.popped % n + 1 = n
    · obtain ⟨hmod, hdiv⟩ := succ_mod_of_last h.pos hlast
      rw [if_pos (by omega), hmod, hdiv, lapBit_succ, ← h.cycleBit]
      refine ⟨rfl, rfl, rfl, rfl, ?_⟩
      show s.ring.ringSegmentBaseAddress / 16 % 2 ^ 60 = _
      omega
    · obtain ⟨hmod, hdiv⟩ := succ_mod_of_lt (n := n) (a := s.popped) (by omega)
      rw [if_neg (by omega), hmod, hdiv, ← h.cycleBit]
      refine ⟨rfl, rfl, h.size, rfl, ?_⟩
      show (s.ring.ringSegmentBaseAddress + 16 * (s.popped % n) + 16) / 16 % 2 ^ 60 = _
      omega
  obtain ⟨hbuf, hsegment, hsize, hcycle, herdp⟩ := hpop
  exact {
    h with
    size := hsize.trans h.size
    aligned := hsegment ▸ h.aligned
    inSpace := hsegment ▸ h.inSpace
    cycleBit := hcycle
    erdp := by
      show s.ring.pop.erdp = s.ring.pop.ringSegmentBaseAddress / 16 + (s.popped + 1) % n
      rw [herdp, hsegment]
    popped_le := hwritten
    room := by
      have hroom := h.room
      show s.written.length ≤ s.popped + 1 + n
      omega
    slots := fun k hk => by
      rw [hbuf]
      exact h.slots k hk
    outstanding := fun j event hj hevent => by
      rw [hbuf]
      exact h.outstanding j event (Nat.le_of_succ_le hj) hevent
    writing := fun event i hwriting => by
      have hold := h.writing event i hwriting
      rw [hbuf]
      refine ⟨?_, hold.2⟩
      show s.written.length < s.popped + 1 + n
      omega
    loop := hcount }

/-! ## Runs -/

theorem Inv.step (h : s.Inv n) (hstep : s.Step t) : t.Inv n := by
  obtain ⟨side, hstep⟩ := hstep
  cases hstep with
  | write event hidle hroom =>
    rw [h.size] at hroom
    exact {
      h with
      writing := fun event' i heq => by
        cases heq
        exact ⟨hroom, fun k hk => absurd hk (Fin.not_lt_zero k)⟩ }
  | storeWord event i hwriting hi => exact h.storeWord hwriting hi
  | publish event hwriting => exact h.publish hwriting
  | enter hloop hfront =>
    have hcount := h.loop
    rw [hloop] at hcount
    exact { h with loop := hcount }
  | leave hloop hfront =>
    have hcount := h.loop
    rw [hloop] at hcount
    exact { h with loop := hcount }
  | handle trb err hloop hfront hcycle herr => exact h.handle err hloop hfront hcycle
  | pop err hloop => exact h.pop hloop

theorem Fresh.inv (h : Fresh n s) : s.Inv n := by
  obtain ⟨pool, bufSize, ring, hring, hsize, hn, rfl⟩ := h
  obtain ⟨base, rfl, haligned, hspace⟩ := EventRing.initializeEventRing_some hring
  have hclear : (0 : BitVec 32).getLsbD 0 = !lapBit 0 := by decide
  have hzero : 0 / n = 0 := Nat.zero_div n
  have hle : n ≤ bufSize := hsize ▸ Nat.mod_le bufSize (2 ^ 16)
  exact {
    pos := hn
    size := hsize
    aligned := haligned
    inSpace := Nat.le_trans (Nat.add_le_add_left (Nat.mul_le_mul_left 16 hle) base) hspace
    enqueue := (Nat.zero_mod n).symm
    producerCycle := by
      rw [List.length_nil, hzero]
      rfl
    cycleBit := by
      rw [hzero]
      rfl
    erdp := by
      rw [Nat.zero_mod]
      exact Nat.mod_eq_of_lt (by omega)
    popped_le := le_rfl
    room := Nat.zero_le _
    slots := fun k _ => by
      rw [List.length_nil, Nat.zero_mod, if_neg (Nat.not_lt_zero k), hzero]
      exact hclear
    outstanding := nofun
    writing := nofun
    handed := rfl
    loop := rfl }

theorem inv_of_reachable (h : Reachable (Fresh n) Step s) : s.Inv n :=
  h.invariant (fun _ => Fresh.inv) fun _ _ => Inv.step

/-- While an event waits the driver gets through one more round. -/
theorem Inv.consumes (h : s.Inv n) (hlt : s.popped < s.written.length) :
    ∃ t, Relation.ReflTransGen DriverStep s t ∧ t.Inv n ∧ t.written = s.written ∧
      t.popped = s.popped + 1 ∧ t.loop = .condition := by
  have hpop {s : EventRun} {err : Error} (h : s.Inv n) (hloop : s.loop = .handled err) :
      ∃ t, Relation.ReflTransGen DriverStep s t ∧ t.Inv n ∧ t.written = s.written ∧
        t.popped = s.popped + 1 ∧ t.loop = .condition :=
    ⟨_, .single (.pop err hloop), h.pop hloop, rfl, rfl, rfl⟩
  have hhandle {s : EventRun} (h : s.Inv n) (hlt : s.popped < s.written.length)
      (hloop : s.loop = .processEvent) :
      ∃ t, Relation.ReflTransGen DriverStep s t ∧ t.Inv n ∧ t.written = s.written ∧
        t.popped = s.popped + 1 ∧ t.loop = .condition := by
    have hcycle := h.cycle_iff.mpr hlt
    obtain ⟨t, hrun, ht⟩ := hpop (h.handle .kNotImplemented hloop h.front hcycle) rfl
    exact ⟨t, .head (.handle _ .kNotImplemented hloop h.front hcycle fun _ => rfl) hrun, ht⟩
  cases hloop : s.loop with
  | condition =>
    have hfront := h.hasFront_iff.mpr hlt
    have henter : DriverStep s { s with loop := .processEvent } := .enter hloop hfront
    obtain ⟨t, hrun, ht⟩ := hhandle (h.step ⟨_, henter⟩) hlt rfl
    exact ⟨t, .head henter hrun, ht⟩
  | processEvent => exact hhandle h hlt hloop
  | handled err => exact hpop h hloop

/-- Left alone, the loop consumes all events that were written. -/
theorem Inv.catchesUp (h : s.Inv n) :
    ∃ t, Relation.ReflTransGen DriverStep s t ∧ t.Inv n ∧ t.written = s.written ∧
      t.popped = s.written.length := by
  induction hd : s.written.length - s.popped generalizing s with
  | zero =>
    have hle := h.popped_le
    exact ⟨s, .refl, h, rfl, by omega⟩
  | succ d ih =>
    obtain ⟨t, hrun, hinv, hwritten, hpopped, -⟩ := h.consumes (by omega)
    obtain ⟨u, hrun', hinv', hwritten', hall⟩ := ih hinv (by rw [hwritten]; omega)
    exact ⟨u, hrun.trans hrun', hinv', hwritten'.trans hwritten, hwritten ▸ hall⟩

end EventRun

open EventRun

/-- The controller may write one more event. -/
theorem Reachable.writes {n : Nat} {s : EventRun} (event : TRB) (h : Reachable (Fresh n) EventRun.Step s)
    (hidle : s.writing = none) (hroom : s.written.length < s.popped + s.ring.ringSegmentSize) :
    ∃ t, Reachable (Fresh n) EventRun.Step t ∧ t.written = s.written ++ [event] ∧ t.popped = s.popped := by
  have hwrite := h.next ⟨_, .write event hidle hroom⟩
  have hword0 := hwrite.next ⟨_, .storeWord event 0 rfl (by decide)⟩
  have hword1 := hword0.next ⟨_, .storeWord event 1 rfl (by decide)⟩
  have hword2 := hword1.next ⟨_, .storeWord event 2 rfl (by decide)⟩
  exact ⟨_, hword2.next ⟨_, .publish event rfl⟩, rfl, rfl⟩

/-- What the driver makes of an event: its TRB without the cycle bit, and the handler for its type. -/
def handing (event : TRB) : TRB × Option Handler := (event.payload, handlerOf event)

/-- The driver hands the events to their handlers in order and exactly once, whatever the handlers return,
and sees exactly when there is one to be consumed. -/
theorem events_delivered {n : Nat} {s : EventRun} (h : Reachable (Fresh n) EventRun.Step s) :
    s.handed.map (fun h => (h.1.payload, h.2)) = (s.written.take s.handed.length).map handing ∧
      (s.ring.hasFront = true ↔ s.popped < s.written.length) ∧
      s.handed.length = s.popped + (match s.loop with | .handled _ => 1 | _ => 0) ∧
      ∃ t, Relation.ReflTransGen DriverStep s t ∧ t.written = s.written ∧
        t.popped = s.written.length ∧
        t.handed.map (fun h => (h.1.payload, h.2)) = s.written.map handing := by
  have hinv := inv_of_reachable h
  refine ⟨hinv.handed, hinv.hasFront_iff, ?_, ?_⟩
  · have hloop := hinv.loop
    revert hloop
    cases s.loop <;> exact id
  · obtain ⟨t, hrun, ht, hwritten, hpopped⟩ := hinv.catchesUp
    refine ⟨t, hrun, hwritten, hpopped, ?_⟩
    rw [ht.handed, hwritten]
    congr 1
    apply List.take_of_length_le
    have hcount := ht.loop
    revert hcount
    cases t.loop <;> intro hcount <;> dsimp only at hcount <;> omega

/-- A segment of two slots at the start of a pool at address 64. -/
def segmentAt64 : EventRun := ⟨⟨fun _ _ => 0, 64, 2, true, 4⟩, 0, true, none, .condition, [], [], 0⟩

theorem segmentAt64_fresh : Fresh 2 segmentAt64 :=
  ⟨⟨64, 64, by decide⟩, 2, _, rfl, rfl, by decide, rfl⟩

/-- A Transfer Event is written into it. -/
theorem events_delivered_transfer : ∃ s : EventRun, s.written = [(![1, 2, 3, 32 <<< 10] : TRB)] ∧
    s.handed.map (fun h => (h.1.payload, h.2)) = (s.written.take s.handed.length).map handing ∧
      (s.ring.hasFront = true ↔ s.popped < s.written.length) ∧
      s.handed.length = s.popped + (match s.loop with | .handled _ => 1 | _ => 0) ∧
      ∃ t, Relation.ReflTransGen DriverStep s t ∧ t.written = s.written ∧
        t.popped = s.written.length ∧
        t.handed.map (fun h => (h.1.payload, h.2)) = s.written.map handing := by
  obtain ⟨s, hs, hwritten, -⟩ :=
    Reachable.writes ![1, 2, 3, 32 <<< 10] (.start segmentAt64_fresh) rfl (by decide)
  exact ⟨s, hwritten, events_delivered hs⟩

/-- A Host Controller Event is consumed without a handler. -/
theorem host_controller_event_unhandled :
    ∃ s, Reachable (Fresh 2) EventRun.Step s ∧ s.written = [(![0, 0, 0, 37 <<< 10] : TRB)] ∧
      s.popped = 1 ∧ s.handed.map Prod.snd = [none] := by
  obtain ⟨s, hs, hwritten, hpopped⟩ :=
    Reachable.writes ![0, 0, 0, 37 <<< 10] (.start segmentAt64_fresh) rfl (by decide)
  change s.written = [(![0, 0, 0, 37 <<< 10] : TRB)] at hwritten
  change s.popped = 0 at hpopped
  have hlt : s.popped < s.written.length := by
    rw [hpopped, hwritten]
    exact Nat.one_pos
  obtain ⟨t, hrun, hinv, hsame, hnext, hloop⟩ := (inv_of_reachable hs).consumes hlt
  have ht : Reachable (Fresh 2) EventRun.Step t := by
    clear hinv hsame hnext hloop
    induction hrun with
    | refl => exact hs
    | tail _ hstep ih => exact .next ih ⟨_, hstep⟩
  have hcount := hinv.loop
  rw [hloop] at hcount
  dsimp only at hcount
  have hhanded := congrArg (List.map Prod.snd) hinv.handed
  rw [List.map_map, hcount, hnext, hpopped, hsame, hwritten] at hhanded
  exact ⟨t, ht, hsame.trans hwritten, by rw [hnext, hpopped], hhanded⟩

end MikanSaos

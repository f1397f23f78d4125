import MikanSaos.Reasoning.Reach
import MikanSaos.Usb.Ring

/-!
# RingRun — a ring between the driver and the controller

The controller reads while the driver stores, so a step of the driver is the store of one word.  Nothing but
the cycle bits tells the controller which slots it may take.
-/

open Reasoning

namespace MikanSaos

/-- What `Push` has still to do: word `i` is the next one to be stored. -/
inductive Writer where
  | idle
  | trb (data : TRB) (i : Fin 4)
  | link (i : Fin 4)

/-- A ring and its two sides: `pushed` are the TRBs whose last word has been stored. -/
structure RingRun where
  ring : Ring
  writer : Writer
  dequeue : Nat
  consumerCycle : Bool
  pushed : List TRB
  received : List TRB

inductive RingEvent where
  | push (data : TRB)
  | store
  | take
  | follow

namespace RingRun

variable {n : Nat} {s t : RingRun} {event : RingEvent}

/-- The TRB at the consumer's dequeue pointer, where it points into the ring. -/
def fetch (s : RingRun) : Option TRB :=
  let offset := s.dequeue - s.ring.base
  if s.ring.base ≤ s.dequeue ∧ offset % 16 = 0 ∧ offset / 16 < s.ring.bufSize then
    some (s.ring.buf (offset / 16))
  else none

/-- A ring of `n` slots that `Initialize` has just made; the controller starts at its base. -/
def Fresh (n : Nat) (s : RingRun) : Prop :=
  ∃ pool ring, 2 ≤ n ∧ (Ring.initializeRing pool n).1 = some ring ∧
    s = ⟨ring, .idle, ring.base, true, [], []⟩

end RingRun

open RingRun in
/-- One step of the driver or of the controller. -/
inductive RingStep (s : RingRun) : RingEvent → RingRun → Prop
  | push (data : TRB) (hidle : s.writer = .idle) :
      RingStep s (.push data) { s with writer := .trb data 0 }
  | storeWord (data : TRB) (i : Fin 4) (hwriter : s.writer = .trb data i) (hi : i ≠ 3) :
      RingStep s .store { s with ring := s.ring.storeWord data i, writer := .trb data (i + 1) }
  | publish (data : TRB) (hwriter : s.writer = .trb data 3) :
      RingStep s .store { s with
        ring := (s.ring.storeWord data 3).advance
        writer := if s.ring.writeIndex + 1 = s.ring.bufSize - 1 then .link 0 else .idle
        pushed := s.pushed ++ [data] }
  | storeLink (i : Fin 4) (hwriter : s.writer = .link i) (hi : i ≠ 3) :
      RingStep s .store { s with
        ring := s.ring.storeWord (linkTRB s.ring.base) i
        writer := .link (i + 1) }
  | wrap (hwriter : s.writer = .link 3) :
      RingStep s .store { s with
        ring := (s.ring.storeWord (linkTRB s.ring.base) 3).wrap
        writer := .idle }
  | take (trb : TRB) (hfetch : s.fetch = some trb) (hcycle : trb.cycleBit = s.consumerCycle)
      (htype : trb.trbType ≠ 6) :
      RingStep s .take { s with dequeue := s.dequeue + 16, received := s.received ++ [trb] }
  | follow (trb : TRB) (hfetch : s.fetch = some trb) (hcycle : trb.cycleBit = s.consumerCycle)
      (htype : trb.trbType = 6) :
      RingStep s .follow { s with
        dequeue := trb.pointer
        consumerCycle := s.consumerCycle ^^ trb.toggleCycle }

namespace RingRun

variable {n : Nat} {s t : RingRun} {event : RingEvent}

/-- The controller's own steps. -/
def ConsumerStep (s t : RingRun) : Prop := RingStep s .take t ∨ RingStep s .follow t

/-- A push leaves at most `N - 2` TRBs outstanding. -/
def HasRoom (s : RingRun) : RingEvent → Prop
  | .push _ => s.pushed.length + 1 ≤ s.received.length + (s.ring.bufSize - 2)
  | _ => True

/-- And the driver makes the Link TRBs itself. -/
def PushesRequests (s : RingRun) : RingEvent → Prop
  | .push data => s.HasRoom (.push data) ∧ data.trbType ≠ 6
  | _ => True

/-! ## Push is its stores -/

theorem storeTRB_eq (r : Ring) (trb : TRB) :
    r.storeTRB trb = (((r.storeWord trb 0).storeWord trb 1).storeWord trb 2).storeWord trb 3 := rfl

theorem stores_trb (data : TRB) (hwriter : s.writer = .trb data 0) :
    Relation.ReflTransGen (RingStep · .store ·) s { s with
      ring := (s.ring.storeTRB data).advance
      writer := if s.ring.writeIndex + 1 = s.ring.bufSize - 1 then .link 0 else .idle
      pushed := s.pushed ++ [data] } := by
  rw [storeTRB_eq]
  refine .head (.storeWord data 0 hwriter (by decide)) ?_
  refine .head (.storeWord data 1 rfl (by decide)) ?_
  refine .head (.storeWord data 2 rfl (by decide)) ?_
  exact .single (.publish data rfl)

theorem stores_link (hwriter : s.writer = .link 0) :
    Relation.ReflTransGen (RingStep · .store ·) s { s with
      ring := (s.ring.storeTRB (linkTRB s.ring.base)).wrap
      writer := .idle } := by
  rw [storeTRB_eq]
  refine .head (.storeLink 0 hwriter (by decide)) ?_
  refine .head (.storeLink 1 rfl (by decide)) ?_
  refine .head (.storeLink 2 rfl (by decide)) ?_
  exact .single (.wrap rfl)

/-- A call of `Push` with the stores that follow it is the function of the source. -/
theorem push_runs (data : TRB) (hidle : s.writer = .idle) :
    ∃ t, RingStep s (.push data) t ∧ Relation.ReflTransGen (RingStep · .store ·) t
      { s with ring := (s.ring.push data).2, pushed := s.pushed ++ [data] } := by
  cases s with
  | mk ring writer dequeue consumerCycle pushed received =>
    change writer = .idle at hidle
    subst hidle
    refine ⟨_, .push data rfl, (stores_trb data rfl).trans ?_⟩
    by_cases hlast : ring.writeIndex + 1 = ring.bufSize - 1
    · rw [show (ring.push data).2 = _ from congrArg Prod.snd (if_pos hlast), if_pos hlast]
      exact stores_link rfl
    · rw [show (ring.push data).2 = _ from congrArg Prod.snd (if_neg hlast), if_neg hlast]

/-! ## The invariant -/

/-- The cycle bit of a lap. -/
def lapBit (lap : Nat) : Bool := lap % 2 = 0

theorem lapBit_succ (lap : Nat) : lapBit (lap + 1) = !lapBit lap := by
  unfold lapBit
  rw [← decide_not]
  apply decide_eq_decide.mpr
  omega

/-- The cycle bit as the ring keeps it. -/
def lapCycle (lap : Nat) : BitVec 8 := if lapBit lap then 1 else 0

theorem lapCycle_succ (lap : Nat) : lapCycle (lap + 1) = lapCycle lap ^^^ 1 := by
  rw [lapCycle, lapCycle, lapBit_succ]
  cases lapBit lap <;> decide

theorem lapCycle_cases (lap : Nat) : lapCycle lap = 0 ∨ lapCycle lap = 1 := by
  unfold lapCycle
  cases lapBit lap <;> decide

theorem getLsbD_lapCycle (lap : Nat) : (lapCycle lap).getLsbD 0 = lapBit lap := by
  unfold lapCycle
  cases lapBit lap <;> decide

/-- The slot of the `j`-th TRB from the slot `i` on, in a ring of `m` slots and a link. -/
def slotAfter (m i j : Nat) : Nat := if i + j < m then i + j else i + j - m

/-- How far the driver has got in the slot at its index. -/
def Stored (r : Ring) (m pushed received : Nat) : Writer → Prop
  | .idle => r.writeIndex < m
  | .trb data i => r.writeIndex < m ∧ data.trbType ≠ 6 ∧ pushed + 1 ≤ received + (m - 1) ∧
      ∀ k < i, r.buf r.writeIndex k = data.mark r.cycleBit k
  | .link i => r.writeIndex = m ∧ ∀ k < i, r.buf m k = (linkTRB r.base).mark r.cycleBit k

/-- The controller only makes room. -/
theorem Stored.mono {r : Ring} {m pushed received received' : Nat} {writer : Writer}
    (h : Stored r m pushed received writer) (hle : received ≤ received') :
    Stored r m pushed received' writer := by
  cases writer with
  | idle => exact h
  | trb data i =>
    have hroom := h.2.2.1
    exact ⟨h.1, h.2.1, by omega, h.2.2.2⟩
  | link i => exact h

/-- The driver is in lap `lap` and the controller, at slot `i`, in lap `clap`.  A slot has the cycle bit of
the driver's lap once it has been filled in this lap; before, it has the other one, for the slots were
cleared and the first lap has the bit set. -/
structure Inv (s : RingRun) (m lap clap i : Nat) : Prop where
  size : s.ring.bufSize = m + 1
  aligned : 16 ∣ s.ring.base
  inSpace : s.ring.base < 2 ^ 64
  cycle : s.ring.cycleBit = lapCycle lap
  consumerCycle : s.consumerCycle = lapBit clap
  dequeue : s.dequeue = s.ring.base + 16 * i
  index_le : i ≤ m
  room : s.pushed.length ≤ s.received.length + (m - 1)
  position : (lap = clap ∧ s.ring.writeIndex + s.received.length = i + s.pushed.length) ∨
    (lap = clap + 1 ∧ s.ring.writeIndex + m + s.received.length = i + s.pushed.length ∧
      s.ring.writeIndex < i)
  slots : ∀ k < m, (s.ring.buf k).cycleBit =
    if k < s.ring.writeIndex then lapBit lap else !lapBit lap
  link : (s.ring.buf m).cycleBit = !lapBit lap
  outstanding : ∀ j trb, s.pushed[s.received.length + j]? = some trb →
    (s.ring.buf (slotAfter m i j)).payload = trb.payload
  delivered : s.received.map TRB.payload = (s.pushed.map TRB.payload).take s.received.length
  requests : ∀ trb ∈ s.pushed, trb.trbType ≠ 6
  firstLap : lap = 0 → s.pushed.length = s.ring.writeIndex ∧ s.ring.buf m 3 = 0
  laterLap : 0 < lap → (s.ring.buf m).payload = (linkTRB s.ring.base).payload
  stored : Stored s.ring m s.pushed.length s.received.length s.writer

/-! ## The stores of the driver -/

theorem storeWord_of_ne {r : Ring} {trb : TRB} {i : Fin 4} {k : Nat} (h : k ≠ r.writeIndex) :
    (r.storeWord trb i).buf k = r.buf k := Function.update_of_ne h ..

theorem storeWord_self (r : Ring) (trb : TRB) (i : Fin 4) :
    (r.storeWord trb i).buf r.writeIndex =
      Function.update (r.buf r.writeIndex) i (trb.mark r.cycleBit i) := Function.update_self ..

/-- Only the last word has the cycle bit. -/
theorem storeWord_cycleBit {r : Ring} {trb : TRB} {i : Fin 4} (hi : i ≠ 3) (k : Nat) :
    ((r.storeWord trb i).buf k).cycleBit = (r.buf k).cycleBit := by
  by_cases hk : k = r.writeIndex
  · rw [hk, storeWord_self, TRB.cycleBit, Function.update_of_ne hi.symm]
    rfl
  · rw [storeWord_of_ne hk]

/-- One more word agrees. -/
theorem storeWord_agree {r : Ring} {trb : TRB} {i : Fin 4} (_ : i ≠ 3)
    (h : ∀ k < i, r.buf r.writeIndex k = trb.mark r.cycleBit k) :
    ∀ k < i + 1, (r.storeWord trb i).buf r.writeIndex k = trb.mark r.cycleBit k := by
  intro k hk
  rw [storeWord_self]
  by_cases heq : k = i
  · rw [heq, Function.update_self]
  · rw [Function.update_of_ne heq]
    exact h k (by omega)

/-- The store of the last word completes the TRB. -/
theorem storeWord_last {r : Ring} {trb : TRB}
    (h : ∀ k < (3 : Fin 4), r.buf r.writeIndex k = trb.mark r.cycleBit k) :
    (r.storeWord trb 3).buf r.writeIndex = trb.mark r.cycleBit := by
  funext k
  rw [storeWord_self]
  by_cases heq : k = 3
  · rw [heq, Function.update_self]
  · rw [Function.update_of_ne heq]
    exact h k (by omega)

/-! ## Slots -/

variable {m lap clap i : Nat}

theorem slotAfter_succ (m i j : Nat) : slotAfter m (i + 1) j = slotAfter m i (j + 1) := by
  unfold slotAfter
  rw [Nat.add_right_comm, Nat.add_assoc]

/-- The controller has not received more than was pushed. -/
theorem Inv.received_le (h : s.Inv m lap clap i) : s.received.length ≤ s.pushed.length := by
  have hlength := congrArg List.length h.delivered
  rw [List.length_map, List.length_take, List.length_map] at hlength
  omega

/-- The slot at the index holds none of the outstanding TRBs. -/
theorem Inv.slotAfter_ne (h : s.Inv m lap clap i) (hindex : s.ring.writeIndex < m) {j : Nat}
    (hj : s.received.length + j < s.pushed.length) : slotAfter m i j ≠ s.ring.writeIndex := by
  have hi := h.index_le
  have hroom := h.room
  unfold slotAfter
  rcases h.position with hsame | hnext
  · split <;> omega
  · split <;> omega

/-- The next TRB goes where the outstanding ones end. -/
theorem Inv.slotAfter_end (h : s.Inv m lap clap i) (hindex : s.ring.writeIndex < m) {j : Nat}
    (hj : s.received.length + j = s.pushed.length) : slotAfter m i j = s.ring.writeIndex := by
  have hi := h.index_le
  unfold slotAfter
  rcases h.position with hsame | hnext
  · rw [if_pos (by omega)]
    omega
  · rw [if_neg (by omega)]
    omega

/-! ## Each step keeps the invariant -/

theorem Inv.push {data : TRB} (h : s.Inv m lap clap i) (hidle : s.writer = .idle)
    (hroom : s.pushed.length + 1 ≤ s.received.length + (s.ring.bufSize - 2))
    (hdata : data.trbType ≠ 6) : Inv { s with writer := .trb data 0 } m lap clap i := by
  have hstored := h.stored
  rw [hidle] at hstored
  rw [h.size] at hroom
  exact { h with stored := ⟨hstored, hdata, hroom, fun k hk => absurd hk (Fin.not_lt_zero k)⟩ }

theorem Inv.storeWord {data : TRB} {w : Fin 4} (h : s.Inv m lap clap i)
    (hwriter : s.writer = .trb data w) (hw : w ≠ 3) :
    Inv { s with ring := s.ring.storeWord data w, writer := .trb data (w + 1) } m lap clap i := by
  have hstored := h.stored
  rw [hwriter] at hstored
  have hlast : (s.ring.storeWord data w).buf m = s.ring.buf m := storeWord_of_ne (by have := hstored.1; omega)
  exact {
    h with
    slots := fun k hk => (storeWord_cycleBit hw k).trans (h.slots k hk)
    link := (storeWord_cycleBit hw m).trans h.link
    outstanding := fun j trb hj => by
      -- the word goes to a slot that holds nothing outstanding
      have hlt := (List.getElem?_eq_some_iff.mp hj).1
      rw [← h.outstanding j trb hj]
      exact congrArg _ (storeWord_of_ne (h.slotAfter_ne hstored.1 hlt))
    firstLap := fun hlap => ⟨(h.firstLap hlap).1, hlast ▸ (h.firstLap hlap).2⟩
    laterLap := fun hlap => hlast ▸ h.laterLap hlap
    stored := ⟨hstored.1, hstored.2.1, hstored.2.2.1, storeWord_agree hw hstored.2.2.2⟩ }

theorem Inv.storeLink {w : Fin 4} (h : s.Inv m lap clap i) (hwriter : s.writer = .link w) (hw : w ≠ 3) :
    Inv { s with
      ring := s.ring.storeWord (linkTRB s.ring.base) w
      writer := .link (w + 1) } m lap clap i := by
  have hstored := h.stored
  rw [hwriter] at hstored
  obtain ⟨hindex, hwords⟩ := hstored
  rw [← hindex] at hwords
  have hi := h.index_le
  have hpos : lap = clap ∧ s.ring.writeIndex + s.received.length = i + s.pushed.length :=
    h.position.resolve_right fun hnext => by omega
  exact {
    h with
    slots := fun k hk => (storeWord_cycleBit hw k).trans (h.slots k hk)
    link := (storeWord_cycleBit hw m).trans h.link
    outstanding := fun j trb hj => by
      have hlt : s.received.length + j < s.pushed.length := (List.getElem?_eq_some_iff.mp hj).1
      rw [← h.outstanding j trb hj]
      refine congrArg _ (storeWord_of_ne ?_)
      unfold slotAfter
      split <;> omega
    firstLap := fun hlap => by
      refine ⟨(h.firstLap hlap).1, ?_⟩
      show (s.ring.storeWord (linkTRB s.ring.base) w).buf m 3 = 0
      rw [← hindex, storeWord_self, Function.update_of_ne hw.symm, hindex]
      exact (h.firstLap hlap).2
    laterLap := fun hlap => by
      -- these words are there already, from the lap before
      have hold := h.laterLap hlap
      show ((s.ring.storeWord (linkTRB s.ring.base) w).buf m).payload = (linkTRB s.ring.base).payload
      rw [← hindex] at hold ⊢
      rw [storeWord_self, TRB.payload_update hw, hold, TRB.mark_of_ne hw, Function.update_eq_self]
    stored := ⟨hindex, hindex ▸ storeWord_agree hw hwords⟩ }

theorem Inv.publish {data : TRB} (h : s.Inv m lap clap i) (hwriter : s.writer = .trb data 3) :
    Inv { s with
      ring := (s.ring.storeWord data 3).advance
      writer := if s.ring.writeIndex + 1 = s.ring.bufSize - 1 then .link 0 else .idle
      pushed := s.pushed ++ [data] } m lap clap i := by
  have hstored := h.stored
  rw [hwriter] at hstored
  obtain ⟨hindex, hdata, hroom, hwords⟩ := hstored
  have hslot := storeWord_last hwords
  have hother {k : Nat} (hk : k ≠ s.ring.writeIndex) : (s.ring.storeWord data 3).buf k = s.ring.buf k :=
    storeWord_of_ne hk
  have hlength : (s.pushed ++ [data]).length = s.pushed.length + 1 := List.length_append
  exact {
    h with
    room := by
      show (s.pushed ++ [data]).length ≤ _
      rw [hlength]
      exact hroom
    position := by
      show (lap = clap ∧ s.ring.writeIndex + 1 + s.received.length = i + (s.pushed ++ [data]).length) ∨
        (lap = clap + 1 ∧ s.ring.writeIndex + 1 + m + s.received.length =
          i + (s.pushed ++ [data]).length ∧ s.ring.writeIndex + 1 < i)
      rw [hlength]
      have hpos := h.position
      omega
    slots := fun k hk => by
      show ((s.ring.storeWord data 3).buf k).cycleBit = if k < s.ring.writeIndex + 1 then _ else _
      by_cases heq : k = s.ring.writeIndex
      · rw [heq, hslot, TRB.mark_cycleBit, h.cycle, getLsbD_lapCycle, if_pos (by omega)]
      · rw [hother heq, h.slots k hk]
        exact if_congr (by omega) rfl rfl
    link := by
      show ((s.ring.storeWord data 3).buf m).cycleBit = _
      rw [hother (by omega)]
      exact h.link
    outstanding := fun j trb hj => by
      show ((s.ring.storeWord data 3).buf (slotAfter m i j)).payload = trb.payload
      change (s.pushed ++ [data])[s.received.length + j]? = some trb at hj
      by_cases hold : s.received.length + j < s.pushed.length
      · rw [List.getElem?_append_left hold] at hj
        rw [hother (h.slotAfter_ne hindex hold)]
        exact h.outstanding j trb hj
      · -- the TRB that was just completed
        have hlt := (List.getElem?_eq_some_iff.mp hj).1
        rw [hlength] at hlt
        rw [List.getElem?_append_right (by omega), List.getElem?_singleton, if_pos (by omega)] at hj
        rw [h.slotAfter_end hindex (by omega), hslot, Option.some.inj hj]
        exact TRB.payload_mark (h.cycle ▸ lapCycle_cases lap)
    delivered := by
      show s.received.map TRB.payload = ((s.pushed ++ [data]).map TRB.payload).take s.received.length
      rw [List.map_append, List.take_append_of_le_length (by rw [List.length_map]; exact h.received_le)]
      exact h.delivered
    requests := fun trb htrb => by
      rcases List.mem_append.mp htrb with hold | hnew
      · exact h.requests trb hold
      · rw [List.mem_singleton.mp hnew]
        exact hdata
    firstLap := fun hlap => by
      have hfirst := h.firstLap hlap
      refine ⟨?_, ?_⟩
      · show (s.pushed ++ [data]).length = s.ring.writeIndex + 1
        rw [hlength, hfirst.1]
      · show (s.ring.storeWord data 3).buf m 3 = 0
        rw [hother (by omega)]
        exact hfirst.2
    laterLap := fun hlap => by
      show ((s.ring.storeWord data 3).buf m).payload = (linkTRB s.ring.base).payload
      rw [hother (by omega)]
      exact h.laterLap hlap
    stored := by
      show Stored (s.ring.storeWord data 3).advance m (s.pushed ++ [data]).length s.received.length
        (if s.ring.writeIndex + 1 = s.ring.bufSize - 1 then .link 0 else .idle)
      rw [h.size, Nat.add_sub_cancel]
      by_cases hlast : s.ring.writeIndex + 1 = m
      · rw [if_pos hlast]
        exact ⟨hlast, fun k hk => absurd hk (Fin.not_lt_zero k)⟩
      · rw [if_neg hlast]
        show s.ring.writeIndex + 1 < m
        omega }

theorem Inv.wrap (h : s.Inv m lap clap i) (hwriter : s.writer = .link 3) (hm : 0 < m) :
    Inv { s with
      ring := (s.ring.storeWord (linkTRB s.ring.base) 3).wrap
      writer := .idle } m (lap + 1) clap i := by
  have hstored := h.stored
  rw [hwriter] at hstored
  obtain ⟨hindex, hwords⟩ := hstored
  rw [← hindex] at hwords
  have hslot := storeWord_last hwords
  rw [hindex] at hslot
  have hother {k : Nat} (hk : k ≠ m) : (s.ring.storeWord (linkTRB s.ring.base) 3).buf k = s.ring.buf k :=
    storeWord_of_ne (hindex ▸ hk)
  have hi := h.index_le
  have hroom := h.room
  -- the driver is still in the controller's lap, and does not fill the ring
  have hpos : lap = clap ∧ s.ring.writeIndex + s.received.length = i + s.pushed.length :=
    h.position.resolve_right fun hnext => by omega
  exact {
    h with
    cycle := by
      show s.ring.cycleBit ^^^ 1 = lapCycle (lap + 1)
      rw [h.cycle, lapCycle_succ]
    position := by
      show (lap + 1 = clap ∧ 0 + s.received.length = i + s.pushed.length) ∨
        (lap + 1 = clap + 1 ∧ 0 + m + s.received.length = i + s.pushed.length ∧ 0 < i)
      omega
    slots := fun k hk => by
      show ((s.ring.storeWord (linkTRB s.ring.base) 3).buf k).cycleBit =
        if k < 0 then lapBit (lap + 1) else !lapBit (lap + 1)
      rw [hother (by omega), h.slots k hk, if_pos (by omega), if_neg (Nat.not_lt_zero k), lapBit_succ,
        Bool.not_not]
    link := by
      show ((s.ring.storeWord (linkTRB s.ring.base) 3).buf m).cycleBit = !lapBit (lap + 1)
      rw [hslot, TRB.mark_cycleBit, h.cycle, getLsbD_lapCycle, lapBit_succ, Bool.not_not]
    outstanding := fun j trb hj => by
      have hlt : s.received.length + j < s.pushed.length := (List.getElem?_eq_some_iff.mp hj).1
      rw [← h.outstanding j trb hj]
      refine congrArg _ (hother ?_)
      unfold slotAfter
      split <;> omega
    firstLap := nofun
    laterLap := fun _ => by
      show ((s.ring.storeWord (linkTRB s.ring.base) 3).buf m).payload = (linkTRB s.ring.base).payload
      rw [hslot]
      exact TRB.payload_mark (h.cycle ▸ lapCycle_cases lap)
    stored := hm }

/-! ## What the controller sees -/

theorem Inv.fetch (h : s.Inv m lap clap i) : s.fetch = some (s.ring.buf i) := by
  have hi := h.index_le
  have hoffset : s.dequeue - s.ring.base = 16 * i := by
    rw [h.dequeue, Nat.add_sub_cancel_left]
  have hbase : s.ring.base ≤ s.dequeue := by
    rw [h.dequeue]
    exact Nat.le_add_right ..
  simp only [RingRun.fetch]
  rw [hoffset, Nat.mul_mod_right, Nat.mul_div_cancel_left i (by decide), h.size]
  exact if_pos ⟨hbase, rfl, by omega⟩

/-- At a slot before the link the cycle bit is the controller's exactly while something is outstanding. -/
theorem Inv.cycle_iff (h : s.Inv m lap clap i) (hi : i < m) :
    (s.ring.buf i).cycleBit = s.consumerCycle ↔ s.received.length < s.pushed.length := by
  rw [h.consumerCycle, h.slots i hi]
  rcases h.position with hsame | hnext
  · rw [← hsame.1]
    by_cases hlt : i < s.ring.writeIndex
    · exact iff_of_true (if_pos hlt) (by omega)
    · rw [if_neg hlt]
      exact iff_of_false (Bool.not_ne_self _) (by omega)
  · rw [if_neg (by omega), hnext.1, lapBit_succ, Bool.not_not]
    exact iff_of_true rfl (by omega)

/-- At the link it is once the driver has gone on to the next lap. -/
theorem Inv.link_iff (h : s.Inv m lap clap i) :
    (s.ring.buf m).cycleBit = s.consumerCycle ↔ lap = clap + 1 := by
  rw [h.consumerCycle, h.link]
  rcases h.position with hsame | hnext
  · rw [← hsame.1]
    exact iff_of_false (Bool.not_ne_self _) (by omega)
  · rw [hnext.1, lapBit_succ, Bool.not_not]
    exact iff_of_true rfl rfl

/-- The slot the controller is at holds the first outstanding TRB. -/
theorem Inv.first (h : s.Inv m lap clap i) (hi : i < m) (hlt : s.received.length < s.pushed.length) :
    (s.ring.buf i).payload = s.pushed[s.received.length].payload := by
  have hfirst := h.outstanding 0 s.pushed[s.received.length] (List.getElem?_eq_getElem hlt)
  rwa [slotAfter, Nat.add_zero, if_pos hi] at hfirst

theorem Inv.first_trbType (h : s.Inv m lap clap i) (hi : i < m)
    (hlt : s.received.length < s.pushed.length) : (s.ring.buf i).trbType ≠ 6 := by
  rw [← TRB.payload_trbType, h.first hi hlt, TRB.payload_trbType]
  exact h.requests _ (List.getElem_mem hlt)

theorem Inv.take {trb : TRB} (h : s.Inv m lap clap i) (hfetch : s.fetch = some trb)
    (hcycle : trb.cycleBit = s.consumerCycle) (htype : trb.trbType ≠ 6) :
    Inv { s with dequeue := s.dequeue + 16, received := s.received ++ [trb] } m lap clap (i + 1) := by
  rw [h.fetch] at hfetch
  rw [← Option.some.inj hfetch] at hcycle htype ⊢
  have hle := h.index_le
  have hpos := h.position
  -- the slot is not the link: that would be a Link TRB
  have hi : i < m := by
    apply Nat.lt_of_le_of_ne hle
    intro heq
    rw [heq] at hcycle htype
    have hlap := h.link_iff.mp hcycle
    apply htype
    rw [← TRB.payload_trbType, h.laterLap (by omega), TRB.payload_trbType]
    exact linkTRB_trbType _
  have hlt := (h.cycle_iff hi).mp hcycle
  have hlength : (s.received ++ [s.ring.buf i]).length = s.received.length + 1 := List.length_append
  exact {
    h with
    dequeue := by
      show s.dequeue + 16 = s.ring.base + 16 * (i + 1)
      rw [h.dequeue, Nat.mul_succ, Nat.add_assoc]
    index_le := hi
    room := by
      have hroom := h.room
      show s.pushed.length ≤ (s.received ++ [s.ring.buf i]).length + (m - 1)
      omega
    position := by
      show (lap = clap ∧ s.ring.writeIndex + (s.received ++ [s.ring.buf i]).length =
          i + 1 + s.pushed.length) ∨
        (lap = clap + 1 ∧ s.ring.writeIndex + m + (s.received ++ [s.ring.buf i]).length =
          i + 1 + s.pushed.length ∧ s.ring.writeIndex < i + 1)
      omega
    outstanding := fun j trb hj => by
      change s.pushed[(s.received ++ [s.ring.buf i]).length + j]? = some trb at hj
      show (s.ring.buf (slotAfter m (i + 1) j)).payload = trb.payload
      rw [slotAfter_succ]
      rw [hlength, Nat.add_right_comm, Nat.add_assoc] at hj
      exact h.outstanding (j + 1) trb hj
    delivered := by
      show (s.received ++ [s.ring.buf i]).map TRB.payload =
        (s.pushed.map TRB.payload).take (s.received ++ [s.ring.buf i]).length
      have hlt' : s.received.length < (s.pushed.map TRB.payload).length := by
        rw [List.length_map]
        exact hlt
      rw [hlength, List.take_succ_eq_append_getElem hlt', ← h.delivered, List.map_append,
        List.map_singleton, h.first hi hlt, List.getElem_map]
    stored := by
      show Stored s.ring m s.pushed.length (s.received ++ [s.ring.buf i]).length s.writer
      rw [hlength]
      exact h.stored.mono (Nat.le_succ _) }

theorem Inv.follow {trb : TRB} (h : s.Inv m lap clap i) (hfetch : s.fetch = some trb)
    (hcycle : trb.cycleBit = s.consumerCycle) (htype : trb.trbType = 6) :
    Inv { s with
      dequeue := trb.pointer
      consumerCycle := s.consumerCycle ^^ trb.toggleCycle } m lap (clap + 1) 0 := by
  rw [h.fetch] at hfetch
  rw [← Option.some.inj hfetch] at hcycle htype ⊢
  have hle := h.index_le
  have hroom := h.room
  have hi : i = m := by
    apply Nat.le_antisymm hle
    apply Nat.le_of_not_lt
    intro hi
    exact h.first_trbType hi ((h.cycle_iff hi).mp hcycle) htype
  rw [hi] at hcycle htype ⊢
  have hlap := h.link_iff.mp hcycle
  have hlink := h.laterLap (by omega)
  have hpos := h.position
  exact {
    h with
    consumerCycle := by
      show (s.consumerCycle ^^ (s.ring.buf m).toggleCycle) = lapBit (clap + 1)
      rw [← TRB.payload_toggleCycle, hlink, TRB.payload_toggleCycle, linkTRB_toggleCycle, h.consumerCycle,
        lapBit_succ, Bool.xor_true]
    dequeue := by
      show (s.ring.buf m).pointer = s.ring.base + 16 * 0
      rw [← TRB.payload_pointer, hlink, TRB.payload_pointer, linkTRB_pointer h.aligned h.inSpace,
        Nat.mul_zero, Nat.add_zero]
    index_le := Nat.zero_le m
    position := by
      show (lap = clap + 1 ∧ s.ring.writeIndex + s.received.length = 0 + s.pushed.length) ∨
        (lap = clap + 1 + 1 ∧ s.ring.writeIndex + m + s.received.length = 0 + s.pushed.length ∧
          s.ring.writeIndex < 0)
      omega
    outstanding := fun j trb hj => by
      have hlt : s.received.length + j < s.pushed.length := (List.getElem?_eq_some_iff.mp hj).1
      rw [← h.outstanding j trb hj, slotAfter, slotAfter, hi]
      show (s.ring.buf (if 0 + j < m then 0 + j else 0 + j - m)).payload = _
      rw [if_pos (by omega), if_neg (by omega), Nat.zero_add, Nat.add_sub_cancel_left] }

/-! ## Runs -/

theorem Fresh.inv (h : Fresh n s) : s.Inv (n - 1) 0 0 0 := by
  obtain ⟨pool, ring, hn, hring, rfl⟩ := h
  obtain ⟨base, rfl, haligned, hspace⟩ := Ring.initializeRing_some hring
  have hclear : (0 : BitVec 32).getLsbD 0 = !lapBit 0 := by decide
  exact {
    size := by
      show n = n - 1 + 1
      omega
    aligned := haligned
    inSpace := by
      show base < 2 ^ 64
      omega
    cycle := rfl
    consumerCycle := rfl
    dequeue := rfl
    index_le := Nat.zero_le _
    room := Nat.zero_le _
    position := .inl ⟨rfl, rfl⟩
    slots := fun k _ => hclear
    link := hclear
    outstanding := nofun
    delivered := rfl
    requests := nofun
    firstLap := fun _ => ⟨rfl, rfl⟩
    laterLap := nofun
    stored := by
      show 0 < n - 1
      omega }

/-- A run may go on with a whole call of `Push`. -/
theorem pushed_reachable {init : RingRun → Prop} {guard : RingRun → RingEvent → Prop} (data : TRB)
    (h : Reachable init (GuardedStep RingStep guard) s) (hidle : s.writer = .idle)
    (hpush : guard s (.push data)) (hstore : ∀ s, guard s .store) :
    Reachable init (GuardedStep RingStep guard)
      { s with ring := (s.ring.push data).2, pushed := s.pushed ++ [data] } := by
  obtain ⟨t, hcall, hstores⟩ := push_runs data hidle
  have hcalled : Reachable init (GuardedStep RingStep guard) t := .next h ⟨_, hpush, hcall⟩
  clear hcall
  generalize { s with ring := (s.ring.push data).2, pushed := s.pushed ++ [data] } = u at hstores ⊢
  induction hstores with
  | refl => exact hcalled
  | tail _ hstep ih => exact .next ih ⟨_, hstore _, hstep⟩

/-- Some lap and some slot make the invariant hold. -/
def Good (n : Nat) (s : RingRun) : Prop := ∃ lap clap i, s.Inv (n - 1) lap clap i

theorem Good.step (hn : 2 ≤ n) (h : s.Good n) (hguard : s.PushesRequests event)
    (hstep : RingStep s event t) : t.Good n := by
  obtain ⟨lap, clap, i, h⟩ := h
  cases hstep with
  | push data hidle => exact ⟨lap, clap, i, h.push hidle hguard.1 hguard.2⟩
  | storeWord data w hwriter hw => exact ⟨lap, clap, i, h.storeWord hwriter hw⟩
  | publish data hwriter => exact ⟨lap, clap, i, h.publish hwriter⟩
  | storeLink w hwriter hw => exact ⟨lap, clap, i, h.storeLink hwriter hw⟩
  | wrap hwriter => exact ⟨lap + 1, clap, i, h.wrap hwriter (by omega)⟩
  | take trb hfetch hcycle htype => exact ⟨lap, clap, i + 1, h.take hfetch hcycle htype⟩
  | follow trb hfetch hcycle htype => exact ⟨lap, clap + 1, 0, h.follow hfetch hcycle htype⟩

theorem good_of_reachable
    (h : Reachable (Fresh n) (GuardedStep RingStep PushesRequests) s) : 2 ≤ n ∧ s.Good n := by
  induction h with
  | start hfresh => exact ⟨by obtain ⟨_, _, hn, _⟩ := hfresh; exact hn, 0, 0, 0, hfresh.inv⟩
  | next _ hstep ih =>
    obtain ⟨event, hguard, hstep⟩ := hstep
    exact ⟨ih.1, ih.2.step ih.1 hguard hstep⟩

/-- While something is outstanding the controller gets the next TRB, after a Link TRB at most. -/
theorem Good.receives (h : s.Good n) (hlt : s.received.length < s.pushed.length) :
    ∃ t, Relation.ReflTransGen ConsumerStep s t ∧ t.pushed = s.pushed ∧ t.Good n ∧
      t.received.length = s.received.length + 1 := by
  obtain ⟨lap, clap, i, h⟩ := h
  -- at a slot before the link it takes the TRB
  have htake {s : RingRun} {clap i : Nat} (h : s.Inv (n - 1) lap clap i) (hi : i < n - 1)
      (hlt : s.received.length < s.pushed.length) : ∃ t, ConsumerStep s t ∧ t.pushed = s.pushed ∧
        t.Good n ∧ t.received.length = s.received.length + 1 := by
    have hcycle := (h.cycle_iff hi).mpr hlt
    have htype := h.first_trbType hi hlt
    exact ⟨_, .inl (.take _ h.fetch hcycle htype), rfl, ⟨lap, clap, i + 1, h.take h.fetch hcycle htype⟩,
      List.length_append⟩
  by_cases hi : i < n - 1
  · obtain ⟨t, hstep, ht⟩ := htake h hi hlt
    exact ⟨t, .single hstep, ht⟩
  · -- at the link the driver is in its next lap, or nothing would be outstanding
    have hle := h.index_le
    have hm : i = n - 1 := by omega
    subst hm
    have hindex : s.ring.writeIndex ≤ n - 1 := by
      have hstored := h.stored
      revert hstored
      cases s.writer with
      | idle => exact fun h => Nat.le_of_lt h
      | trb data w => exact fun h => Nat.le_of_lt h.1
      | link w => exact fun h => Nat.le_of_eq h.1
    have hlap : lap = clap + 1 := by
      have hpos := h.position
      omega
    have hcycle := h.link_iff.mpr hlap
    have htype : (s.ring.buf (n - 1)).trbType = 6 := by
      rw [← TRB.payload_trbType, h.laterLap (by omega), TRB.payload_trbType]
      exact linkTRB_trbType _
    have hnext := h.follow h.fetch hcycle htype
    have hroom := h.room
    obtain ⟨t, hstep, ht⟩ := htake hnext (by omega) hlt
    exact ⟨t, .head (.inr (.follow _ h.fetch hcycle htype)) (.single hstep), ht⟩

/-- Left alone, the controller gets everything that was pushed. -/
theorem Good.catchesUp (h : s.Good n) :
    ∃ t, Relation.ReflTransGen ConsumerStep s t ∧ t.pushed = s.pushed ∧
      t.received.map TRB.payload = s.pushed.map TRB.payload := by
  induction hd : s.pushed.length - s.received.length generalizing s with
  | zero =>
    obtain ⟨lap, clap, i, hinv⟩ := h
    refine ⟨s, .refl, rfl, ?_⟩
    rw [hinv.delivered]
    apply List.take_of_length_le
    rw [List.length_map]
    omega
  | succ d ih =>
    obtain ⟨t, hrun, hpushed, hgood, hlength⟩ := h.receives (by omega)
    obtain ⟨u, hrun', hpushed', hall⟩ := ih hgood (by rw [hpushed]; omega)
    exact ⟨u, hrun.trans hrun', hpushed'.trans hpushed, hpushed ▸ hall⟩

/-- The last slot of the ring holds a Link TRB that leads back to its base, into the next lap. -/
def LinksBack (s : RingRun) (n : Nat) : Prop :=
  (s.ring.buf (n - 1)).trbType = 6 ∧ (s.ring.buf (n - 1)).pointer = s.ring.base ∧
    (s.ring.buf (n - 1)).toggleCycle = true

theorem Inv.linksBack (h : s.Inv (n - 1) lap clap i) (hlap : 0 < lap) : s.LinksBack n := by
  have hlink := h.laterLap hlap
  refine ⟨?_, ?_, ?_⟩
  · rw [← TRB.payload_trbType, hlink, TRB.payload_trbType]
    exact linkTRB_trbType _
  · rw [← TRB.payload_pointer, hlink, TRB.payload_pointer, linkTRB_pointer h.aligned h.inSpace]
  · rw [← TRB.payload_toggleCycle, hlink, TRB.payload_toggleCycle, linkTRB_toggleCycle]

/-- Until the first wrap it has the last word it was cleared with. -/
def NotYetLinked (s : RingRun) (n : Nat) : Prop :=
  (s.ring.buf (n - 1)).lastWord = 0 ∧ (s.pushed.length < n - 1 ∨ ∃ i, s.writer = .link i)

theorem Inv.notYetLinked (h : s.Inv (n - 1) 0 clap i) : s.NotYetLinked n := by
  obtain ⟨hlength, hword⟩ := h.firstLap rfl
  refine ⟨hword, ?_⟩
  have hstored := h.stored
  revert hstored
  cases s.writer with
  | idle => exact fun h => .inl (hlength ▸ h)
  | trb data w => exact fun h => .inl (hlength ▸ h.1)
  | link w => exact fun _ => .inr ⟨w, rfl⟩

end RingRun

open RingRun

/-- The controller gets the pushed TRBs in order, none of them before it is complete, and all of them if it
goes on; from the first wrap on the last slot leads back to the base. -/
theorem ring_delivers {n : Nat} {s : RingRun}
    (h : Reachable (Fresh n) (GuardedStep RingStep PushesRequests) s) :
    s.received.map TRB.payload <+: s.pushed.map TRB.payload ∧
      (∃ t, Relation.ReflTransGen ConsumerStep s t ∧ t.pushed = s.pushed ∧
        t.received.map TRB.payload = s.pushed.map TRB.payload) ∧
      (s.LinksBack n ∨ s.NotYetLinked n) := by
  obtain ⟨hn, hgood⟩ := good_of_reachable h
  refine ⟨?_, hgood.catchesUp, ?_⟩
  · obtain ⟨lap, clap, i, hinv⟩ := hgood
    rw [hinv.delivered]
    exact List.take_prefix ..
  · obtain ⟨lap, clap, i, hinv⟩ := hgood
    cases lap with
    | zero => exact .inr hinv.notYetLinked
    | succ lap => exact .inl (hinv.linksBack (Nat.succ_pos lap))

/-- A ring of `n` slots at the start of a pool at address 64. -/
def ringAt64 (n : Nat) : RingRun := ⟨⟨fun _ _ => 0, 64, n, 1, 0⟩, .idle, 64, true, [], []⟩

theorem ringAt64_fresh : Fresh 3 (ringAt64 3) :=
  ⟨⟨64, 64, by decide⟩, _, by decide, rfl, rfl⟩

/-- A Normal TRB is pushed into a ring with room for one. -/
theorem ring_delivers_normal : ∃ s : RingRun, s.pushed = [(![1, 2, 3, 1 <<< 10] : TRB)] ∧
    s.received.map TRB.payload <+: s.pushed.map TRB.payload ∧
      (∃ t, Relation.ReflTransGen ConsumerStep s t ∧ t.pushed = s.pushed ∧
        t.received.map TRB.payload = s.pushed.map TRB.payload) ∧
      (s.LinksBack 3 ∨ s.NotYetLinked 3) :=
  ⟨_, rfl, ring_delivers (pushed_reachable ![1, 2, 3, 1 <<< 10] (.start ringAt64_fresh) rfl
    ⟨Nat.le_refl 1, by decide⟩ fun _ => trivial)⟩

/-- The ring after a push of a Link TRB to the address 0. -/
def linkPushed : RingRun := { ringAt64 3 with
  ring := ((ringAt64 3).ring.push (linkTRB 0)).2
  pushed := [linkTRB 0] }

/-- There the controller goes to the address 0 and finds nothing. -/
theorem linkPushed_received {t : RingRun} (h : Relation.ReflTransGen ConsumerStep linkPushed t) :
    t.received = [] ∧ (t = linkPushed ∨ t.dequeue = 0 ∧ t.ring.base = 64) := by
  have hslot : linkPushed.fetch = some (linkPushed.ring.buf 0) := rfl
  have htype : (linkPushed.ring.buf 0).trbType = 6 := by decide
  have hpointer : (linkPushed.ring.buf 0).pointer = 0 := by decide
  have hnone {u : RingRun} (hdequeue : u.dequeue = 0) (hbase : u.ring.base = 64) : u.fetch = none := by
    apply if_neg
    omega
  induction h with
  | refl => exact ⟨rfl, .inl rfl⟩
  | tail _ hstep ih =>
    obtain ⟨hreceived, rfl | ⟨hdequeue, hbase⟩⟩ := ih
    · cases hstep with
      | inl hstep =>
        cases hstep with
        | take trb hfetch hcycle hrequest =>
          rw [hslot] at hfetch
          exact absurd (Option.some.inj hfetch ▸ htype) hrequest
      | inr hstep =>
        cases hstep with
        | follow trb hfetch =>
          rw [hslot] at hfetch
          refine ⟨rfl, .inr ⟨?_, rfl⟩⟩
          show trb.pointer = 0
          rw [← Option.some.inj hfetch, hpointer]
    · have hfetch := hnone hdequeue hbase
      cases hstep with
      | inl hstep =>
        cases hstep with
        | take trb hfetch' => cases hfetch.symm.trans hfetch'
      | inr hstep =>
        cases hstep with
        | follow trb hfetch' => cases hfetch.symm.trans hfetch'

/-- The last slot of a new ring holds no Link TRB, and a Link TRB that is pushed is followed, not taken. -/
theorem pushed_link_lost :
    (∃ s, Fresh 3 s ∧ (s.ring.buf 2).trbType ≠ 6) ∧
      ∃ s, Reachable (Fresh 3) (GuardedStep RingStep HasRoom) s ∧ s.pushed = [linkTRB 0] ∧
        ∀ t, Relation.ReflTransGen ConsumerStep s t → t.received = [] := by
  have hreach : Reachable (Fresh 3) (GuardedStep RingStep HasRoom) linkPushed :=
    pushed_reachable (linkTRB 0) (.start ringAt64_fresh) rfl (Nat.le_refl 1) fun _ => trivial
  refine ⟨⟨ringAt64 3, ringAt64_fresh, ?_⟩, linkPushed, hreach, rfl, fun t ht => (linkPushed_received ht).1⟩
  show (0 : BitVec 32).extractLsb' 10 6 ≠ 6
  decide

end MikanSaos

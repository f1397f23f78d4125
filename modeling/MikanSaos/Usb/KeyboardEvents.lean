import MikanSaos.Error
import MikanSaos.Usb.Ring
import Mathlib.Data.Finset.Image
import Mathlib.Order.Interval.Finset.Nat

/-!
# KeyboardEvents — the keys that are held

A report of the keyboard has the codes of up to six pressed keys.  The driver compares it with the report before
and tells its observers of each key that has changed.  A short transfer overwrites a part of the report only.
-/

namespace MikanSaos

def EndpointID.isDirIn (ep : EndpointID) : Bool := ep.dci % 2 == 1

/-- The arguments of an observer. -/
structure KeyPush where
  modifier : UInt8
  keycode : UInt8
  press : Bool
  deriving DecidableEq

structure HIDKeyboardDriver where
  epInterruptIn : EndpointID
  inPacketSize : Int
  buf : Nat → UInt8
  previousBuf : Nat → UInt8

/-- How a completion ends: with the request for the next transfer, or with an error. -/
inductive AfterCompletion where
  | interruptIn (ep : EndpointID) (len : Int)
  | error (err : Error)
  deriving DecidableEq

namespace HIDKeyboardDriver

/-- The set of the bytes 2 to 7, as a `std::bitset<256>`. -/
def keyBits (buf : Nat → UInt8) : BitVec 256 :=
  (List.range' 2 6).foldl (fun bits i => bits ||| BitVec.twoPow 256 (buf i).toNat) 0

/-- One pass of the loop over the keys: the call of `NotifyKeyPush`. -/
def notifyKey (modifier : UInt8) (prev current : BitVec 256) (key : Nat) : Option KeyPush :=
  let changed := prev ^^^ current
  let pressed := changed &&& current
  if changed.getLsbD key then some ⟨modifier, UInt8.ofNat key, pressed.getLsbD key⟩ else none

def onDataReceived (d : HIDKeyboardDriver) : List KeyPush :=
  (List.range' 1 255).filterMap (notifyKey (d.buf 0) (keyBits d.previousBuf) (keyBits d.buf))

def onInterruptCompleted (d : HIDKeyboardDriver) (ep : EndpointID) (len : Int) :
    AfterCompletion × List KeyPush × HIDKeyboardDriver :=
  if ep.isDirIn then
    (.interruptIn d.epInterruptIn d.inPacketSize, d.onDataReceived,
      { d with previousBuf := fun i => if (i : Int) < len then d.buf i else d.previousBuf i })
  else (.error .kNotImplemented, [], d)

/-- A keyboard whose buffers are zeroed. -/
def zeroed (epInterruptIn : EndpointID) : HIDKeyboardDriver := ⟨epInterruptIn, 8, fun _ => 0, fun _ => 0⟩

/-- A transfer that has written `len` bytes to the buffer of the driver. -/
structure Completion where
  ep : EndpointID
  len : Int
  data : Nat → UInt8
  isIn : ep.isDirIn = true
  len_le : len ≤ 8

/-- The controller has written the data, then the driver is called. -/
def complete (d : HIDKeyboardDriver) (c : Completion) : AfterCompletion × List KeyPush × HIDKeyboardDriver :=
  { d with buf := fun i => if (i : Int) < c.len then c.data i else d.buf i }.onInterruptCompleted c.ep c.len

/-- Everything that the observers are told, and the driver in the end. -/
def completeAll (d : HIDKeyboardDriver) : List Completion → List KeyPush × HIDKeyboardDriver
  | [] => ([], d)
  | c :: rest =>
    let (_, pushes, next) := d.complete c
    let (later, last) := next.completeAll rest
    (pushes ++ later, last)

end HIDKeyboardDriver

/-! ## The keys held, as an observer sees them -/

def KeyPush.held (held : Finset UInt8) (push : KeyPush) : Finset UInt8 :=
  if push.press then insert push.keycode held else held.erase push.keycode

/-- A key is pressed only when it is not held, and released only when it is. -/
def Truthful (held : Finset UInt8) : List KeyPush → Prop
  | [] => True
  | push :: rest => (push.press = true ↔ push.keycode ∉ held) ∧ Truthful (push.held held) rest

theorem Truthful.append {held : Finset UInt8} {first second : List KeyPush} (hfirst : Truthful held first)
    (hsecond : Truthful (first.foldl KeyPush.held held) second) : Truthful held (first ++ second) := by
  induction first generalizing held with
  | nil => exact hsecond
  | cons push rest ih => exact ⟨hfirst.1, ih hfirst.2 hsecond⟩

/-- The codes of a report. -/
def keyCodes (buf : Nat → UInt8) : Finset UInt8 := ((Finset.Icc 2 7).image buf).erase 0

namespace HIDKeyboardDriver

variable {d : HIDKeyboardDriver} {buf : Nat → UInt8} {held : Finset UInt8} {key : Nat} {code : UInt8}

/-! ## The bits of a report -/

theorem getLsbD_foldl_twoPow {slots : List Nat} {bits : BitVec 256} (hkey : key < 256) :
    (slots.foldl (fun bits i => bits ||| BitVec.twoPow 256 (buf i).toNat) bits).getLsbD key = true ↔
      bits.getLsbD key = true ∨ ∃ i ∈ slots, (buf i).toNat = key := by
  induction slots generalizing bits with
  | nil => simp
  | cons i rest ih =>
    rw [List.foldl_cons, ih]
    have hbit : (BitVec.twoPow 256 (buf i).toNat).getLsbD key = true ↔ (buf i).toNat = key := by
      rw [BitVec.getLsbD_twoPow, Bool.and_eq_true, decide_eq_true_eq, decide_eq_true_eq]
      exact and_iff_right_of_imp fun heq => heq ▸ hkey
    simp only [BitVec.getLsbD_or, Bool.or_eq_true, hbit, List.mem_cons, exists_eq_or_imp, or_assoc]

theorem getLsbD_keyBits : (keyBits buf).getLsbD code.toNat = true ↔ ∃ i ∈ Finset.Icc 2 7, buf i = code := by
  have hslots : ∀ i, i ∈ List.range' 2 6 ↔ i ∈ Finset.Icc 2 7 := by
    intro i
    simp only [List.mem_range'_1, Finset.mem_Icc]
    omega
  unfold keyBits
  rw [getLsbD_foldl_twoPow code.toNat_lt]
  simp [hslots, UInt8.toNat_inj]

/-- The loop starts with key 1: the code zero is no key. -/
theorem mem_keyCodes : code ∈ keyCodes buf ↔ code ≠ 0 ∧ (keyBits buf).getLsbD code.toNat = true := by
  rw [getLsbD_keyBits]
  simp [keyCodes]

theorem keyCodes_congr {other : Nat → UInt8} (h : ∀ i < 8, buf i = other i) : keyCodes buf = keyCodes other := by
  unfold keyCodes
  congr 1
  apply Finset.image_congr
  intro i hi
  have hrange := Finset.mem_Icc.mp hi
  exact h i (by omega)

/-! ## The events of a report -/

/-- The call for one key tells the truth when the key is held as the old report says. -/
theorem notifyKey_step {modifier : UInt8} {prev current : BitVec 256}
    (hheld : code ∈ held ↔ prev.getLsbD code.toNat = true) :
    Truthful held (notifyKey modifier prev current code.toNat).toList ∧
    ∀ other, other ∈ (notifyKey modifier prev current code.toNat).toList.foldl KeyPush.held held ↔
      if other = code then current.getLsbD code.toNat = true else other ∈ held := by
  have hcode : UInt8.ofNat code.toNat = code := UInt8.ofNat_toNat
  unfold notifyKey
  simp only [BitVec.getLsbD_xor, BitVec.getLsbD_and, hcode]
  cases hprev : prev.getLsbD code.toNat <;> cases hcurrent : current.getLsbD code.toNat
  all_goals
    rw [hprev] at hheld
    refine ⟨by simp [Truthful, hheld], ?_⟩
    intro other
    by_cases h : other = code <;> simp [KeyPush.held, h, hheld]

/-- Each key that is looked at is held afterwards if its bit is set in the new report.  The induction is on the
keys still to come, which no earlier event of the report is about. -/
theorem notifyKey_run {codes : List UInt8} (modifier : UInt8) {prev : BitVec 256} (current : BitVec 256)
    (hnodup : codes.Nodup)
    (hheld : ∀ code ∈ codes, code ∈ held ↔ prev.getLsbD code.toNat = true) :
    Truthful held (codes.filterMap fun code => notifyKey modifier prev current code.toNat) ∧
    ∀ code, code ∈ (codes.filterMap fun code => notifyKey modifier prev current code.toNat).foldl
      KeyPush.held held ↔ if code ∈ codes then current.getLsbD code.toNat = true else code ∈ held := by
  induction codes generalizing held with
  | nil => exact ⟨trivial, by simp⟩
  | cons code rest ih =>
    obtain ⟨hnew, hnodup⟩ := List.nodup_cons.mp hnodup
    have hsplit : (code :: rest).filterMap (fun code => notifyKey modifier prev current code.toNat) =
        (notifyKey modifier prev current code.toNat).toList ++
          rest.filterMap fun code => notifyKey modifier prev current code.toNat := by
      rw [List.filterMap_cons]
      cases notifyKey modifier prev current code.toNat <;> rfl
    obtain ⟨hfirst, hstep⟩ := notifyKey_step (hheld code List.mem_cons_self)
    have hrest : ∀ other ∈ rest, other ∈ (notifyKey modifier prev current code.toNat).toList.foldl
        KeyPush.held held ↔ prev.getLsbD other.toNat = true := by
      intro other hother
      have hne : other ≠ code := fun heq => hnew (heq ▸ hother)
      rw [hstep, if_neg hne]
      exact hheld other (List.mem_cons_of_mem _ hother)
    obtain ⟨hlater, hend⟩ := ih hnodup hrest
    rw [hsplit]
    refine ⟨hfirst.append hlater, ?_⟩
    intro other
    rw [List.foldl_append, hend, hstep]
    by_cases h : other = code
    · simp [h, hnew]
    · simp [h]

/-- The codes that the loop of the driver goes through. -/
def loopCodes : List UInt8 := (List.range' 1 255).map UInt8.ofNat

theorem toNat_ofNat_of_mem (h : key ∈ List.range' 1 255) : (UInt8.ofNat key).toNat = key := by
  rw [List.mem_range'_1] at h
  exact UInt8.toNat_ofNat_of_lt' (by change key < 256; omega)

theorem mem_loopCodes : code ∈ loopCodes ↔ code ≠ 0 := by
  have hrange := code.toNat_lt
  have hzero : code = 0 ↔ code.toNat = 0 := UInt8.toNat_inj.symm
  unfold loopCodes
  rw [List.mem_map]
  constructor
  · intro h
    obtain ⟨key, hkey, rfl⟩ := h
    rw [Ne, hzero, toNat_ofNat_of_mem hkey]
    rw [List.mem_range'_1] at hkey
    omega
  · intro h
    rw [Ne, hzero] at h
    refine ⟨code.toNat, ?_, UInt8.ofNat_toNat⟩
    rw [List.mem_range'_1]
    omega

theorem nodup_loopCodes : loopCodes.Nodup := by
  unfold loopCodes
  apply List.Nodup.map_on _ List.nodup_range'
  intro key hkey other hother heq
  rw [← toNat_ofNat_of_mem hkey, heq, toNat_ofNat_of_mem hother]

theorem onDataReceived_eq : d.onDataReceived = loopCodes.filterMap fun code =>
    notifyKey (d.buf 0) (keyBits d.previousBuf) (keyBits d.buf) code.toNat := by
  unfold onDataReceived loopCodes
  rw [List.filterMap_map]
  apply List.filterMap_congr
  intro key hkey
  rw [Function.comp_apply, toNat_ofNat_of_mem hkey]

/-- The events of a report take the keys of the report before to its own. -/
theorem onDataReceived_run (d : HIDKeyboardDriver) (hheld : held = keyCodes d.previousBuf) :
    Truthful held d.onDataReceived ∧ d.onDataReceived.foldl KeyPush.held held = keyCodes d.buf := by
  have hbits : ∀ code ∈ loopCodes, code ∈ held ↔ (keyBits d.previousBuf).getLsbD code.toNat = true := by
    intro code hcode
    rw [hheld, mem_keyCodes]
    exact and_iff_right (mem_loopCodes.mp hcode)
  obtain ⟨htrue, hlast⟩ := notifyKey_run (d.buf 0) (keyBits d.buf) nodup_loopCodes hbits
  rw [onDataReceived_eq]
  refine ⟨htrue, ?_⟩
  ext code
  rw [hlast]
  by_cases hzero : code = 0
  · rw [if_neg (by simp [mem_loopCodes, hzero])]
    simp [hzero, hheld, mem_keyCodes]
  · rw [if_pos (mem_loopCodes.mpr hzero), mem_keyCodes]
    exact (and_iff_right hzero).symm

/-! ## All completions -/

/-- What holds between two completions. -/
structure Tracks (d : HIDKeyboardDriver) (held : Finset UInt8) : Prop where
  held_eq : held = keyCodes d.buf
  previous_eq : ∀ i < 8, d.previousBuf i = d.buf i

/-- Beyond the bytes that have been written, the last report is still in both buffers. -/
theorem Tracks.complete {c : Completion} (h : Tracks d held) :
    Truthful held (d.complete c).2.1 ∧
      Tracks (d.complete c).2.2 ((d.complete c).2.1.foldl KeyPush.held held) := by
  have hold : held = keyCodes d.previousBuf := by
    rw [h.held_eq]
    exact keyCodes_congr fun i hi => (h.previous_eq i hi).symm
  unfold HIDKeyboardDriver.complete onInterruptCompleted
  rw [if_pos c.isIn]
  obtain ⟨htrue, hlast⟩ := onDataReceived_run
    { d with buf := fun i => if (i : Int) < c.len then c.data i else d.buf i } hold
  refine ⟨htrue, hlast, ?_⟩
  -- what a short transfer leaves in the buffer is what was copied from it before
  intro i hi
  dsimp only
  split
  · rfl
  · exact h.previous_eq i hi

theorem Tracks.completeAll (completions : List Completion) (h : Tracks d held) :
    Truthful held (d.completeAll completions).1 ∧
      Tracks (d.completeAll completions).2 ((d.completeAll completions).1.foldl KeyPush.held held) := by
  induction completions generalizing d held with
  | nil => exact ⟨trivial, h⟩
  | cons c rest ih =>
    obtain ⟨hfirst, hnext⟩ := h.complete (c := c)
    obtain ⟨hlater, hlast⟩ := ih hnext
    refine ⟨hfirst.append hlater, ?_⟩
    change Tracks _ (List.foldl KeyPush.held held (_ ++ _))
    rw [List.foldl_append]
    exact hlast

theorem Tracks.zeroed (ep : EndpointID) : Tracks (.zeroed ep) ∅ := by
  constructor
  · ext code
    have hbytes : ∀ i ∈ Finset.Icc 2 7, (HIDKeyboardDriver.zeroed ep).buf i = 0 := fun _ _ => rfl
    simp only [keyCodes, Finset.mem_erase, Finset.mem_image, Finset.notMem_empty, false_iff]
    intro h
    obtain ⟨hne, i, hi, hbyte⟩ := h
    exact hne (hbyte.symm.trans (hbytes i hi))
  · intro i _
    rfl

end HIDKeyboardDriver

end MikanSaos

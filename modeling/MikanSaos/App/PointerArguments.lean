import MikanSaos.App.ReadEvent
import MikanSaos.Error
import MikanSaos.FileSystem.FileDescriptor
import MikanSaos.Paging.Machine
import MikanSaos.Task.PipeDescriptor
import MikanSaos.Word64

/-!
# PointerArguments — what system calls store through the pointers of an application

`ReadFile`, `ReadEvent` and `MapFile` store through a pointer that is one of their arguments.  How much they
store depends on a file, a pipe or the messages that are received during the call.
-/

namespace MikanSaos

/-- The bytes of a number, from the offset on. -/
def bytesAt (offset size value : Nat) : List (Nat × UInt8) :=
  (List.range size).map fun k => (offset + k, UInt8.ofNat (value / 256 ^ k))

/-! ## `ReadEvent` -/

/-- The bits of an `int`. -/
def intBits (x : Int) : Nat := (x % 2 ^ 32).toNat

/-- The fields of an entry that `ReadEvent` sets, its type first: offset, size and value. -/
def AppEvent.fields : AppEvent → List (Nat × Nat × Nat)
  | .kQuit => [(0, 4, 0)]
  | .kMouseMove x y dx dy buttons =>
    [(0, 4, 1), (8, 4, intBits x), (12, 4, intBits y), (16, 4, intBits dx), (20, 4, intBits dy),
      (24, 1, buttons.toNat)]
  | .kMouseButton x y press button =>
    [(0, 4, 2), (8, 4, intBits x), (12, 4, intBits y), (16, 4, intBits press), (20, 4, intBits button)]
  | .kTimerTimeout timeout value => [(0, 4, 3), (8, 8, timeout), (16, 4, intBits value)]
  | .kKeyPush modifier keycode ascii press =>
    [(0, 4, 4), (8, 1, modifier.toNat), (9, 1, keycode.toNat), (10, 1, ascii.toNat), (12, 4, intBits press)]

def AppEvent.stores (e : AppEvent) : List (Nat × UInt8) :=
  e.fields.flatMap fun f => bytesAt f.1 f.2.1 f.2.2

/-- `sizeof(AppEvent)` -/
def kAppEventSize : Nat := 32

/-- The stores into an array of entries. -/
def eventStores (events : List AppEvent) : List (Nat × UInt8) :=
  events.zipIdx.flatMap fun e => e.1.stores.map fun p => (kAppEventSize * e.2 + p.1, p.2)

/-- The entries that `ReadEvent` fills, and whether it returns.  `received` is what its calls of
`ReceiveMessage` return one after the other. -/
def readEvents (len : Nat) : (received : List (Option Message)) → List AppEvent → List AppEvent × Bool
  | [], events => (events, ¬ events.length < len)
  | msg :: received, events =>
    if events.length < len then
      match msg with
      | none => if events.isEmpty then readEvents len received events else (events, true)
      | some msg => readEvents len received (events ++ (appEvent msg).toList)
    else (events, true)

/-! ## `ReadFile` -/

/-- `TerminalFileDescriptor::Read`, which does not look at the length. -/
def terminalRead : (received : List (Option Message)) → Option (List UInt8)
  | [] => none
  | some (.kKeyPush modifier keycode ascii press) :: received =>
    if press = 0 then terminalRead received
    else if modifier &&& (kLControlBitMask ||| kRControlBitMask) ≠ 0 then
      -- ctrl + d
      if keycode = 7 then some [] else terminalRead received
    else some [ascii]
  | _ :: received => terminalRead received

/-- The rounds of `PipeDescriptor::Read` that receive a message. -/
def pipeReceive (fd : PipeDescriptor) (len : Nat) : (received : List (Option Message)) → Option (List UInt8)
  | [] => none
  | none :: received => pipeReceive fd len received
  | some msg :: received =>
    match (fd.readMessage len msg).1 with
    | some bytes => some bytes
    | none => pipeReceive fd len received

def pipeRead (fd : PipeDescriptor) (len : Nat) (received : List (Option Message)) : Option (List UInt8) :=
  if fd.data ≠ [] then some (fd.data.take len)
  else if fd.closed then some []
  else pipeReceive fd len received

inductive OpenFile where
  | fat (fd : FileDescriptor)
  | terminal
  | pipe (fd : PipeDescriptor)

/-- What a system call works on: the open files and the mappings of the task, the volume, and what its calls
of `ReceiveMessage` return. -/
structure CallState where
  files : Nat → Option OpenFile
  fileMapEnd : Nat
  volume : Volume
  received : List (Option Message)

namespace OpenFile

/-- The bytes that `Read` stores before it returns, if it does.  There is no result when a cluster of the file is
not on the volume. -/
def read (file : OpenFile) (k : CallState) (len : Nat) : Option (Option (List UInt8)) :=
  match file with
  | .fat fd => (fd.read k.volume len).map fun r => some r.1
  | .terminal => some (terminalRead k.received)
  | .pipe fd => some (pipeRead fd len k.received)

def size (file : OpenFile) (k : CallState) : Nat :=
  match file with
  | .fat fd => k.volume.fileSize fd.fatEntry
  | .terminal => 0
  | .pipe _ => 0

end OpenFile

def CallState.file (k : CallState) (fd : Int) : Option OpenFile := if fd < 0 then none else k.files fd.toNat

/-! ## The calls -/

inductive SystemCall where
  | readFile (arg1 arg2 arg3 : BitVec 64)
  | readEvent (arg1 arg2 : BitVec 64)
  | mapFile (arg1 arg2 : BitVec 64)

/-- The bytes stored so far, with their addresses, and the value and the error when the call has returned. -/
structure CallOutcome where
  stores : List (Nat × UInt8)
  result : Option (Nat × Nat)

/-- Stores at offsets from a pointer. -/
def storesAt (ptr : Nat) (stores : List (Nat × UInt8)) : List (Nat × UInt8) :=
  stores.map fun p => ((ptr + p.1) % 2 ^ 64, p.2)

/-- `const int fd = arg1` -/
def fdOf (arg : BitVec 64) : Int := (arg.setWidth 32).toInt

/-- The bytes of a buffer from its start on. -/
def bufferStores (bytes : List UInt8) : List (Nat × UInt8) := bytes.zipIdx.map Prod.swap

namespace CallState

def readFile (k : CallState) (arg1 arg2 arg3 : BitVec 64) : Option CallOutcome :=
  match k.file (fdOf arg1) with
  | none => some ⟨[], some (0, EBADF)⟩
  | some file =>
    (file.read k arg3.toNat).map fun
      | none => ⟨[], none⟩
      | some bytes => ⟨storesAt arg2.toNat (bufferStores bytes), some (bytes.length, 0)⟩

def readEvent (k : CallState) (arg1 arg2 : BitVec 64) : CallOutcome :=
  if arg1.toNat < 0x8000000000000000 then ⟨[], some (0, EFAULT)⟩
  else
    let (events, returns) := readEvents arg2.toNat k.received []
    ⟨storesAt arg1.toNat (eventStores events), if returns then some (events.length, 0) else none⟩

def mapFile (k : CallState) (arg1 arg2 : BitVec 64) : CallOutcome :=
  match k.file (fdOf arg1) with
  | none => ⟨[], some (0, EBADF)⟩
  | some file =>
    ⟨storesAt arg2.toNat (bytesAt 0 8 (file.size k)),
      some (sub64 k.fileMapEnd (file.size k) / 4096 * 4096, 0)⟩

def call (k : CallState) : SystemCall → Option CallOutcome
  | .readFile arg1 arg2 arg3 => k.readFile arg1 arg2 arg3
  | .readEvent arg1 arg2 => some (k.readEvent arg1 arg2)
  | .mapFile arg1 arg2 => some (k.mapFile arg1 arg2)

end CallState

/-! ## Stores in the application's half -/

/-- Every byte that the call stores is in the half of the application. -/
def CallOutcome.Isolated (o : CallOutcome) : Prop := ∀ p ∈ o.stores, kUpperHalf ≤ p.1

/-- Offsets that start with 0 and have no gap of 32 bytes. -/
structure Dense (stores : List (Nat × UInt8)) : Prop where
  first : stores ≠ [] → ∃ byte, (0, byte) ∈ stores
  next : ∀ p ∈ stores, ∀ n ≤ p.1, ∃ q ∈ stores, n ≤ q.1 ∧ q.1 < n + 32

/-- Stores without large gaps cannot jump over the kernel's half. -/
theorem isolated_storesAt_iff {ptr : Nat} {stores : List (Nat × UInt8)} (hptr : ptr < 2 ^ 64)
    (hdense : Dense stores) : (∀ p ∈ storesAt ptr stores, kUpperHalf ≤ p.1) ↔
      stores = [] ∨ (kUpperHalf ≤ ptr ∧ ∀ p ∈ stores, ptr + p.1 < 2 ^ 64) := by
  constructor
  · intro hisolated
    have hstore {p : Nat × UInt8} (hp : p ∈ stores) : kUpperHalf ≤ (ptr + p.1) % 2 ^ 64 :=
      hisolated _ (List.mem_map_of_mem hp)
    by_cases hempty : stores = []
    · exact .inl hempty
    · obtain ⟨byte, hzero⟩ := hdense.first hempty
      have hstart := hstore hzero
      rw [Nat.add_zero, Nat.mod_eq_of_lt hptr] at hstart
      refine .inr ⟨hstart, fun p hp => ?_⟩
      by_contra hwraps
      -- the first byte behind the end of the address space, or one close to it, is at its start
      obtain ⟨q, hq, hlow, hhigh⟩ := hdense.next p hp (2 ^ 64 - ptr) (by omega)
      have hwrapped := hstore hq
      have hmod : (ptr + q.1) % 2 ^ 64 = ptr + q.1 - 2 ^ 64 := by omega
      rw [hmod] at hwrapped
      unfold kUpperHalf at hwrapped
      omega
  · rintro (rfl | ⟨hstart, hend⟩) p hp
    · cases hp
    · obtain ⟨q, hq, rfl⟩ := List.mem_map.mp hp
      show kUpperHalf ≤ (ptr + q.1) % 2 ^ 64
      rw [Nat.mod_eq_of_lt (hend q hq)]
      exact hstart.trans (Nat.le_add_right ..)

theorem mem_bytesAt {offset size value : Nat} {p : Nat × UInt8} (h : p ∈ bytesAt offset size value) :
    offset ≤ p.1 ∧ p.1 < offset + size := by
  obtain ⟨k, hk, rfl⟩ := List.mem_map.mp h
  have hlt := List.mem_range.mp hk
  exact ⟨Nat.le_add_right .., Nat.add_lt_add_left hlt _⟩

theorem exists_mem_bytesAt (offset value : Nat) {size k : Nat} (hk : k < size) :
    ∃ byte, (offset + k, byte) ∈ bytesAt offset size value :=
  ⟨_, List.mem_map_of_mem (List.mem_range.mpr hk)⟩

/-! ### The bytes of a file -/

theorem mem_bufferStores {bytes : List UInt8} {p : Nat × UInt8} (h : p ∈ bufferStores bytes) :
    p.1 < bytes.length := by
  obtain ⟨⟨byte, i⟩, hmem, rfl⟩ := List.mem_map.mp h
  exact List.snd_lt_of_mem_zipIdx hmem

theorem exists_mem_bufferStores {bytes : List UInt8} {k : Nat} (hk : k < bytes.length) :
    ∃ byte, (k, byte) ∈ bufferStores bytes := by
  refine ⟨bytes[k], List.mem_map.mpr ⟨(bytes[k], k), ?_, rfl⟩⟩
  rw [List.mk_mem_zipIdx_iff_getElem?]
  exact List.getElem?_eq_getElem hk

theorem bufferStores_dense (bytes : List UInt8) : Dense (bufferStores bytes) where
  first hne := by
    obtain ⟨p, hp⟩ := List.exists_mem_of_ne_nil _ hne
    exact exists_mem_bufferStores ((Nat.zero_le _).trans_lt (mem_bufferStores hp))
  next p hp n hn := by
    obtain ⟨byte, hmem⟩ := exists_mem_bufferStores (hn.trans_lt (mem_bufferStores hp))
    exact ⟨_, hmem, le_rfl, by omega⟩

theorem bufferStores_below_iff {bytes : List UInt8} {ptr : Nat} (hptr : ptr < 2 ^ 64) :
    (∀ p ∈ bufferStores bytes, ptr + p.1 < 2 ^ 64) ↔ ptr + bytes.length ≤ 2 ^ 64 := by
  constructor
  · intro hbelow
    rcases Nat.eq_zero_or_pos bytes.length with hzero | hpos
    · omega
    · have hlt : bytes.length - 1 < bytes.length := Nat.sub_lt hpos Nat.one_pos
      obtain ⟨byte, hmem⟩ := exists_mem_bufferStores hlt
      have hlast := hbelow _ hmem
      omega
  · intro hend p hp
    have hlt := mem_bufferStores hp
    omega

/-! ### The entries of `ReadEvent` -/

namespace AppEvent

/-- The bytes from the start of an entry that its fields take. -/
def extent : AppEvent → Nat
  | .kQuit => 4
  | .kMouseMove .. => 25
  | .kMouseButton .. => 24
  | .kTimerTimeout .. => 20
  | .kKeyPush .. => 16

theorem fields_le (e : AppEvent) : ∀ f ∈ e.fields, f.1 + f.2.1 ≤ e.extent := by
  cases e <;> simp [fields, extent]

/-- The type is stored first. -/
theorem first_mem_fields (e : AppEvent) : ∃ type, (0, 4, type) ∈ e.fields := by
  cases e <;> exact ⟨_, List.mem_cons_self⟩

theorem last_mem_fields (e : AppEvent) : ∃ f ∈ e.fields, 1 ≤ f.2.1 ∧ f.1 + f.2.1 = e.extent := by
  cases e <;> simp [fields, extent]

theorem extent_bounds (e : AppEvent) : 0 < e.extent ∧ e.extent < kAppEventSize := by
  cases e <;> simp [extent, kAppEventSize]

theorem lt_of_mem_stores {e : AppEvent} {p : Nat × UInt8} (h : p ∈ e.stores) : p.1 < e.extent := by
  obtain ⟨f, hf, hp⟩ := List.mem_flatMap.mp h
  exact (mem_bytesAt hp).2.trans_le (e.fields_le f hf)

theorem zero_mem_stores (e : AppEvent) : ∃ byte, (0, byte) ∈ e.stores := by
  obtain ⟨type, hf⟩ := e.first_mem_fields
  obtain ⟨byte, hmem⟩ := exists_mem_bytesAt 0 type (k := 0) (by decide : 0 < 4)
  exact ⟨byte, List.mem_flatMap.mpr ⟨_, hf, hmem⟩⟩

theorem last_mem_stores (e : AppEvent) : ∃ byte, (e.extent - 1, byte) ∈ e.stores := by
  obtain ⟨f, hf, hsize, hend⟩ := e.last_mem_fields
  obtain ⟨byte, hmem⟩ := exists_mem_bytesAt f.1 f.2.2 (Nat.sub_lt hsize Nat.one_pos)
  refine ⟨byte, List.mem_flatMap.mpr ⟨f, hf, ?_⟩⟩
  have hlast : f.1 + (f.2.1 - 1) = e.extent - 1 := by omega
  exact hlast ▸ hmem

end AppEvent

theorem mem_eventStores {events : List AppEvent} {p : Nat × UInt8} (h : p ∈ eventStores events) :
    ∃ i e, events[i]? = some e ∧ kAppEventSize * i ≤ p.1 ∧ p.1 < kAppEventSize * i + e.extent := by
  obtain ⟨⟨e, i⟩, he, hp⟩ := List.mem_flatMap.mp h
  obtain ⟨q, hq, rfl⟩ := List.mem_map.mp hp
  have hlt := AppEvent.lt_of_mem_stores hq
  exact ⟨i, e, List.mk_mem_zipIdx_iff_getElem?.mp he, Nat.le_add_right .., Nat.add_lt_add_left hlt _⟩

theorem mem_eventStores_of {events : List AppEvent} {i : Nat} {e : AppEvent} {p : Nat × UInt8}
    (he : events[i]? = some e) (hp : p ∈ e.stores) : (kAppEventSize * i + p.1, p.2) ∈ eventStores events :=
  List.mem_flatMap.mpr ⟨(e, i), List.mk_mem_zipIdx_iff_getElem?.mpr he, List.mem_map_of_mem hp⟩

theorem eventStores_dense (events : List AppEvent) : Dense (eventStores events) where
  first hne := by
    obtain ⟨p, hp⟩ := List.exists_mem_of_ne_nil _ hne
    obtain ⟨i, e, he, -⟩ := mem_eventStores hp
    have hlt : 0 < events.length := (Nat.zero_le i).trans_lt (List.getElem?_eq_some_iff.mp he).1
    obtain ⟨byte, hzero⟩ := events[0].zero_mem_stores
    exact ⟨byte, mem_eventStores_of (List.getElem?_eq_getElem hlt) hzero⟩
  next p hp n hn := by
    obtain ⟨i, e, he, hlow, hhigh⟩ := mem_eventStores hp
    have hextent := e.extent_bounds.2
    unfold kAppEventSize at hlow hhigh hextent
    by_cases hbehind : 32 * i < n
    · exact ⟨p, hp, hn, by omega⟩
    · -- the type of the first entry that starts at or after `n`
      have hlt : (n + 31) / 32 < events.length := by
        have hi := (List.getElem?_eq_some_iff.mp he).1
        omega
      obtain ⟨byte, hzero⟩ := events[(n + 31) / 32].zero_mem_stores
      refine ⟨_, mem_eventStores_of (List.getElem?_eq_getElem hlt) hzero, ?_⟩
      show n ≤ 32 * ((n + 31) / 32) + 0 ∧ 32 * ((n + 31) / 32) + 0 < n + 32
      omega

theorem eventStores_below_iff {events : List AppEvent} {ptr : Nat} :
    (∀ p ∈ eventStores events, ptr + p.1 < 2 ^ 64) ↔
      ∀ i e, events[i]? = some e → ptr + (kAppEventSize * i + e.extent) ≤ 2 ^ 64 := by
  constructor
  · intro hbelow i e he
    obtain ⟨byte, hlast⟩ := e.last_mem_stores
    have hlt := hbelow _ (mem_eventStores_of he hlast)
    have hpos := e.extent_bounds.1
    dsimp only at hlt
    omega
  · intro hend p hp
    obtain ⟨i, e, he, -, hhigh⟩ := mem_eventStores hp
    have hle := hend i e he
    omega

theorem eventStores_eq_nil_iff {events : List AppEvent} : eventStores events = [] ↔ events = [] := by
  constructor
  · intro hnone
    by_contra hne
    obtain ⟨e, events, rfl⟩ := List.exists_cons_of_ne_nil hne
    obtain ⟨byte, hzero⟩ := e.zero_mem_stores
    have he : (e :: events)[0]? = some e := rfl
    have hmem := mem_eventStores_of he hzero
    rw [hnone] at hmem
    cases hmem
  · rintro rfl
    rfl

/-! ## The calls whose pointer is good -/

/-- What an application may ask for without a store into the kernel's half. -/
def CallState.PointsToApplication (k : CallState) : SystemCall → Prop
  | .readFile arg1 arg2 arg3 => ∀ file bytes, k.file (fdOf arg1) = some file →
      file.read k arg3.toNat = some (some bytes) →
        bytes = [] ∨ (kUpperHalf ≤ arg2.toNat ∧ arg2.toNat + bytes.length ≤ 2 ^ 64)
  | .readEvent arg1 arg2 => ∀ events, (readEvents arg2.toNat k.received []).1 = events →
      arg1.toNat < 0x8000000000000000 ∨ events = [] ∨ (kUpperHalf ≤ arg1.toNat ∧
        ∀ i e, events[i]? = some e → arg1.toNat + (kAppEventSize * i + e.extent) ≤ 2 ^ 64)
  | .mapFile arg1 arg2 => k.file (fdOf arg1) = none ∨
      (kUpperHalf ≤ arg2.toNat ∧ arg2.toNat + 8 ≤ 2 ^ 64)

variable {k : CallState} {o : CallOutcome}

theorem bufferStores_isolated_iff (ptr : BitVec 64) (bytes : List UInt8) :
    (∀ p ∈ storesAt ptr.toNat (bufferStores bytes), kUpperHalf ≤ p.1) ↔
      bytes = [] ∨ (kUpperHalf ≤ ptr.toNat ∧ ptr.toNat + bytes.length ≤ 2 ^ 64) := by
  have hempty : bufferStores bytes = [] ↔ bytes = [] := by
    rw [bufferStores, List.map_eq_nil_iff, List.zipIdx_eq_nil_iff]
  rw [isolated_storesAt_iff ptr.isLt (bufferStores_dense bytes), hempty, bufferStores_below_iff ptr.isLt]

theorem readFile_isolated_iff {arg1 arg2 arg3 : BitVec 64} (h : k.readFile arg1 arg2 arg3 = some o) :
    o.Isolated ↔ k.PointsToApplication (.readFile arg1 arg2 arg3) := by
  unfold CallState.readFile at h
  cases hfile : k.file (fdOf arg1) with
  | none =>
    rw [hfile] at h
    cases h
    refine ⟨fun _ file bytes hopen => ?_, fun _ p hp => by cases hp⟩
    rw [hfile] at hopen
    cases hopen
  | some file =>
    rw [hfile] at h
    obtain ⟨r, hread, hout⟩ := Option.map_eq_some_iff.mp h
    cases r with
    | none =>
      -- the call still waits and has stored nothing
      subst hout
      refine ⟨fun _ file' bytes hopen hread' => ?_, fun _ p hp => by cases hp⟩
      rw [hfile] at hopen
      cases hopen
      rw [hread] at hread'
      cases hread'
    | some bytes =>
      subst hout
      rw [CallOutcome.Isolated, bufferStores_isolated_iff]
      constructor
      · intro hgood file' bytes' hopen hread'
        rw [hfile] at hopen
        cases hopen
        rw [hread] at hread'
        cases hread'
        exact hgood
      · exact fun hgood => hgood file bytes hfile hread

theorem readEvent_isolated_iff (k : CallState) (arg1 arg2 : BitVec 64) :
    (k.readEvent arg1 arg2).Isolated ↔ k.PointsToApplication (.readEvent arg1 arg2) := by
  unfold CallState.readEvent
  by_cases hrefused : arg1.toNat < 0x8000000000000000
  · rw [if_pos hrefused]
    exact ⟨fun _ _ _ => .inl hrefused, fun _ p hp => by cases hp⟩
  · rw [if_neg hrefused]
    have hiff : (∀ p ∈ storesAt arg1.toNat (eventStores (readEvents arg2.toNat k.received []).1),
        kUpperHalf ≤ p.1) ↔ _ := isolated_storesAt_iff arg1.isLt (eventStores_dense _)
    rw [eventStores_eq_nil_iff, eventStores_below_iff] at hiff
    constructor
    · intro hisolated events hevents
      exact .inr (hevents ▸ hiff.mp hisolated)
    · intro hgood
      exact hiff.mpr ((hgood _ rfl).resolve_left hrefused)

theorem mapFile_isolated_iff (k : CallState) (arg1 arg2 : BitVec 64) :
    (k.mapFile arg1 arg2).Isolated ↔ k.PointsToApplication (.mapFile arg1 arg2) := by
  unfold CallState.mapFile
  cases hfile : k.file (fdOf arg1) with
  | none => exact ⟨fun _ => .inl hfile, fun _ p hp => by cases hp⟩
  | some file =>
    have hopen : k.file (fdOf arg1) ≠ none := by
      rw [hfile]
      exact nofun
    have hstored : bytesAt 0 8 (file.size k) ≠ [] := by
      obtain ⟨byte, hzero⟩ := exists_mem_bytesAt 0 (file.size k) (by decide : 0 < 8)
      exact List.ne_nil_of_mem hzero
    have hdense : Dense (bytesAt 0 8 (file.size k)) := {
      first := fun _ => exists_mem_bytesAt 0 _ (by decide : 0 < 8)
      next := fun p hp n hn => by
        have hlt := (mem_bytesAt hp).2
        obtain ⟨byte, hmem⟩ := exists_mem_bytesAt 0 (file.size k) (hn.trans_lt hlt)
        exact ⟨_, hmem, by omega, by omega⟩ }
    have hiff := isolated_storesAt_iff arg2.isLt hdense
    refine hiff.trans ⟨fun hgood => .inr ?_, fun hgood => .inr ?_⟩
    · obtain ⟨hstart, hend⟩ := hgood.resolve_left hstored
      obtain ⟨byte, hlast⟩ := exists_mem_bytesAt 0 (file.size k) (by decide : 7 < 8)
      have hlt := hend _ hlast
      exact ⟨hstart, by omega⟩
    · obtain ⟨hstart, hend⟩ := hgood.resolve_left hopen
      refine ⟨hstart, fun p hp => ?_⟩
      have hlt := (mem_bytesAt hp).2
      omega

/-- A system call stores into the application's half only, exactly when its pointer and all that it stores from
there on are in that half. -/
theorem stores_isolated_iff {call : SystemCall} (h : k.call call = some o) :
    o.Isolated ↔ k.PointsToApplication call := by
  cases call with
  | readFile arg1 arg2 arg3 => exact readFile_isolated_iff h
  | readEvent arg1 arg2 =>
    cases h
    exact readEvent_isolated_iff k arg1 arg2
  | mapFile arg1 arg2 =>
    cases h
    exact mapFile_isolated_iff k arg1 arg2

/-- An application of a terminal in which the key `a` is pushed. -/
def typingA : CallState where
  files fd := if fd = 0 then some .terminal else none
  fileMapEnd := 0
  volume := ⟨512, 4, 2, fun _ => 0, fun _ _ => 0⟩
  received := [some (.kKeyPush 0 4 97 1)]

/-- The character goes to the second page of the upper half. -/
theorem stores_isolated_iff_typingA : ∃ o : CallOutcome,
    typingA.call (.readFile 0 0xffff800000001000 1) = some o ∧ o.stores = [(0xffff800000001000, 97)] ∧
      (o.Isolated ↔ typingA.PointsToApplication (.readFile 0 0xffff800000001000 1)) := by
  refine ⟨_, rfl, by decide, stores_isolated_iff ?_⟩
  rfl

/-- The same call with an address of the kernel. -/
theorem readFile_stores_into_kernel : ∃ o : CallOutcome,
    typingA.call (.readFile 0 0x100000 1) = some o ∧ o.stores = [(0x100000, 97)] ∧
      o.result = some (1, 0) ∧ ¬ o.Isolated := by
  refine ⟨_, rfl, by decide, by decide, fun hisolated => ?_⟩
  have hstore := hisolated (0x100000, 97) (by decide)
  revert hstore
  decide

end MikanSaos

import MikanSaos.App.ReadEvent
import MikanSaos.Task.Mailbox
import MikanSaos.Task.PipeDescriptor

/-!
# PipeStream — one pipe, from its writer to the task that owns it

The writer cuts the bytes into messages, the reader cuts the messages again, and both work on a mailbox
that others send to as well and that `ReadEvent` reads, too.
-/

open Reasoning

namespace MikanSaos

open TaskManager

/-- The bytes of a pipe message; the end marker has none. -/
def Message.pipeData : Message → Option (List UInt8)
  | .kPipe data => some data
  | _ => none

/-- A pipe and its two sides: `pending` is what the current `Write` has still to send.  The last two
fields record what all calls of `Write` were given and what each `Read` has returned. -/
structure PipeStream where
  tm : TaskManager
  fd : PipeDescriptor
  pending : List UInt8
  finished : Bool
  written : List UInt8
  results : List (List UInt8)

namespace PipeStream

def mailbox (s : PipeStream) : List Message := (s.tm.task s.fd.task).msgs

/-- What the pipe messages in the mailbox hold, one list for each message. -/
def chunks (s : PipeStream) : List (List UInt8) := s.mailbox.filterMap Message.pipeData

/-- A new pipe; whatever else runs, its task has no pipe message yet. -/
def Opened (s : PipeStream) : Prop :=
  ∃ tm r, s = ⟨tm, ⟨r, [], false⟩, [], false, [], []⟩ ∧ s.chunks = []

end PipeStream

inductive StreamEvent where
  | write (buf : List UInt8)
  | sendChunk
  | finishWrite
  | read (len : Nat)
  | readEvent (len : Nat) (events : List AppEvent)
  | others
  deriving DecidableEq

/-- One step.  `others` is all that the rest of the system may do between two of them: it may run the
scheduler in any way and send the task messages of other types. -/
inductive StreamStep (s : PipeStream) : StreamEvent → PipeStream → Prop
  | write (buf : List UInt8) (hpending : s.pending = []) (hopen : s.finished = false) :
      StreamStep s (.write buf) { s with pending := buf, written := s.written ++ buf }
  | sendChunk (rest : List UInt8) (tm : TaskManager) (hpending : s.pending ≠ [])
      (hrun : s.fd.writeRound s.tm s.pending = some (rest, tm)) :
      StreamStep s .sendChunk { s with tm := tm, pending := rest }
  | finishWrite (tm : TaskManager) (hpending : s.pending = []) (hopen : s.finished = false)
      (hrun : s.fd.finishWrite s.tm = some tm) :
      StreamStep s .finishWrite { s with tm := tm, finished := true }
  | read (len : Nat) (bytes : Option (List UInt8)) (fd : PipeDescriptor) (tm : TaskManager)
      (hrun : s.fd.readRound s.tm len = some (bytes, fd, tm)) :
      StreamStep s (.read len) { s with tm := tm, fd := fd, results := s.results ++ bytes.toList }
  | readEvent (len : Nat) (events : List AppEvent) (state : ReadEventState) (tm : TaskManager)
      (hrun : s.tm.readEventRound s.fd.task len events = some (state, tm)) :
      StreamStep s (.readEvent len events) { s with tm := tm }
  | others (tm : TaskManager) (msgs : List Message)
      (hmsgs : (tm.task s.fd.task).msgs = s.mailbox ++ msgs)
      (hother : ∀ msg ∈ msgs, msg.pipeData = none) :
      StreamStep s .others { s with tm := tm }

namespace PipeStream

variable {s s' : PipeStream} {event : StreamEvent}

/-- `Read` is the only consumer, and asks for at least one byte. -/
def ReadsOnly (_ : PipeStream) : StreamEvent → Prop
  | .read len => 1 ≤ len
  | .readEvent _ _ => False
  | _ => True

/-- `ReadEvent` looks into the mailbox only while its first message is none of the pipe's. -/
def EventsFirst (s : PipeStream) : StreamEvent → Prop
  | .readEvent len events => events.length < len → ∀ msg, s.mailbox.head? = some msg → msg.pipeData = none
  | _ => True

/-- The calls of the task manager are such steps of the rest of the system. -/
theorem others_of_call {c : SchedulerCall} {tm : TaskManager} (hfin : ∀ exitCode, c ≠ .finish exitCode)
    (hfresh : s.tm.lastId < s.fd.task → s.tm.task s.fd.task = {}) (hrun : c.run s.tm = some tm)
    (hother : ∀ msg ∈ s.tm.newMsgs s.fd.task c, msg.pipeData = none) :
    StreamStep s .others { s with tm := tm } := by
  refine .others tm (s.tm.newMsgs s.fd.task c) ?_ hother
  rw [run_task hfin hrun]
  exact tasksAfter_msgs c fun hlt => congrArg Task.msgs (hfresh hlt)

theorem ReadsOnly.eventsFirst (h : ReadsOnly s event) : EventsFirst s event := by
  cases event with
  | readEvent len events => exact h.elim
  | _ => trivial

/-! ## What a step does to the messages -/

theorem taskSendMessage_msgs {tm tm' : TaskManager} {t : Nat} {msg : Message}
    (h : tm.taskSendMessage t msg = some tm') : (tm'.task t).msgs = (tm.task t).msgs ++ [msg] := by
  rw [taskSendMessage_task h, Function.update_self]

theorem sleep_msgs {tm tm' : TaskManager} {t : Nat} (h : tm.sleep t = some tm') :
    (tm'.task t).msgs = (tm.task t).msgs := by
  rw [sleep_task h, Function.update_self]

theorem chunks_append {msgs : List Message} (h : s'.mailbox = s.mailbox ++ msgs) :
    s'.chunks = s.chunks ++ msgs.filterMap Message.pipeData := by
  rw [chunks, h, List.filterMap_append]
  rfl

theorem chunks_cons {msg : Message} {data : List UInt8} (h : s.mailbox = msg :: s'.mailbox)
    (hmsg : msg.pipeData = some data) : s.chunks = data :: s'.chunks := by
  rw [chunks, h, List.filterMap_cons_some hmsg]
  rfl

theorem chunks_skip {msg : Message} (h : s.mailbox = msg :: s'.mailbox)
    (hmsg : msg.pipeData = none) : s.chunks = s'.chunks := by
  rw [chunks, h, List.filterMap_cons_none hmsg]
  rfl

/-- What one round of `Read` does: it serves the leftover, reports the end, goes to sleep, drops a message
of another type, or takes a message of the pipe. -/
inductive ReadRound (s s' : PipeStream) (len : Nat) : Option (List UInt8) → Prop
  | leftover (hdata : s.fd.data ≠ []) (hrest : s'.fd.data = s.fd.data.drop len)
      (hclosed : s'.fd.closed = s.fd.closed) (hmailbox : s'.mailbox = s.mailbox) :
      ReadRound s s' len (some (s.fd.data.take len))
  | atEnd (hdata : s.fd.data = []) (hclosed : s.fd.closed = true) (hfd : s'.fd = s.fd)
      (hmailbox : s'.mailbox = s.mailbox) : ReadRound s s' len (some [])
  | asleep (hdata : s.fd.data = []) (hclosed : s.fd.closed = false) (hfd : s'.fd = s.fd)
      (hmailbox : s'.mailbox = s.mailbox) (hempty : s.mailbox = []) : ReadRound s s' len none
  | skipped (msg : Message) (hdata : s.fd.data = []) (hclosed : s.fd.closed = false)
      (hfd : s'.fd = s.fd) (hmailbox : s.mailbox = msg :: s'.mailbox)
      (hmsg : msg.pipeData = none) : ReadRound s s' len none
  | taken (msg : Message) (data : List UInt8) (hdata : s.fd.data = []) (hclosed : s.fd.closed = false)
      (hrest : s'.fd.data = data.drop len) (hmark : s'.fd.closed = data.isEmpty)
      (hmailbox : s.mailbox = msg :: s'.mailbox) (hmsg : msg.pipeData = some data) :
      ReadRound s s' len (some (data.take len))

theorem readMessage_cases {fd : PipeDescriptor} (len : Nat) (msg : Message) (hdata : fd.data = [])
    (hclosed : fd.closed = false) :
    (msg.pipeData = none ∧ fd.readMessage len msg = (none, fd)) ∨
      ∃ data, msg.pipeData = some data ∧
        fd.readMessage len msg =
          (some (data.take len), { fd with data := data.drop len, closed := data.isEmpty }) := by
  cases msg with
  | kPipe data =>
    refine .inr ⟨data, rfl, ?_⟩
    cases data with
    | nil =>
      have hsame : ([] : List UInt8).drop len = fd.data := by rw [hdata, List.drop_nil]
      rw [hsame, List.take_nil]
      rfl
    | cons byte rest =>
      have hsame : (byte :: rest).isEmpty = fd.closed := hclosed.symm
      rw [hsame]
      rfl
  | _ => exact .inl ⟨rfl, rfl⟩

theorem readRound_cases {len : Nat} {bytes : Option (List UInt8)} {fd : PipeDescriptor}
    {tm : TaskManager} (results : List (List UInt8))
    (hrun : s.fd.readRound s.tm len = some (bytes, fd, tm)) :
    ReadRound s { s with tm := tm, fd := fd, results := results } len bytes := by
  unfold PipeDescriptor.readRound at hrun
  split at hrun
  · rename_i hdata
    cases hrun
    exact .leftover hdata rfl rfl rfl
  · rename_i hdata
    replace hdata : s.fd.data = [] := Classical.not_not.mp hdata
    split at hrun
    · rename_i hclosed
      cases hrun
      exact .atEnd hdata hclosed rfl rfl
    · rename_i hopen
      have hclosed : s.fd.closed = false := by simpa using hopen
      split at hrun
      · rename_i tm₁ hreceive
        obtain ⟨hempty, rfl⟩ := taskReceiveMessage_none hreceive
        obtain ⟨tm₂, hsleep, heq⟩ := Option.map_eq_some_iff.mp hrun
        cases heq
        exact .asleep hdata hclosed rfl (sleep_msgs hsleep) hempty
      · rename_i msg tm₁ hreceive
        obtain ⟨msgs, hmsgs, rfl⟩ := taskReceiveMessage_some hreceive
        have hleft : ((s.tm.setMsgs s.fd.task msgs).task s.fd.task).msgs = msgs :=
          congrArg Task.msgs (setTask_self ..)
        have hmailbox : s.mailbox = msg :: ((s.tm.setMsgs s.fd.task msgs).task s.fd.task).msgs := by
          rw [hleft]
          exact hmsgs
        cases hrun
        rcases readMessage_cases len msg hdata hclosed with ⟨hnone, heq⟩ | ⟨data, hsome, heq⟩
        · rw [heq]
          exact .skipped msg hdata hclosed rfl hmailbox hnone
        · rw [heq]
          exact .taken msg data hdata hclosed rfl rfl hmailbox hsome

/-- A round of `ReadEvent` leaves the mailbox alone or takes its first message. -/
theorem readEventRound_cases {len : Nat} {events : List AppEvent} {state : ReadEventState}
    {tm : TaskManager} (hrun : s.tm.readEventRound s.fd.task len events = some (state, tm)) :
    (mailbox { s with tm := tm } = s.mailbox ∧
        (len ≤ events.length ∨ s.mailbox = [])) ∨
      (events.length < len ∧ ∃ msg, s.mailbox = msg :: mailbox { s with tm := tm }) := by
  unfold readEventRound at hrun
  split at hrun
  · rename_i hlen
    split at hrun
    · rename_i tm₁ hreceive
      obtain ⟨hempty, rfl⟩ := taskReceiveMessage_none hreceive
      split at hrun
      · obtain ⟨tm₂, hsleep, heq⟩ := Option.map_eq_some_iff.mp hrun
        cases heq
        exact .inl ⟨sleep_msgs hsleep, .inr hempty⟩
      · cases hrun
        exact .inl ⟨rfl, .inr hempty⟩
    · rename_i msg tm₁ hreceive
      obtain ⟨msgs, hmsgs, rfl⟩ := taskReceiveMessage_some hreceive
      have hleft : ((s.tm.setMsgs s.fd.task msgs).task s.fd.task).msgs = msgs :=
        congrArg Task.msgs (setTask_self ..)
      cases hrun
      refine .inr ⟨hlen, msg, ?_⟩
      show (s.tm.task s.fd.task).msgs =
        msg :: ((s.tm.setMsgs s.fd.task msgs).task s.fd.task).msgs
      rw [hleft, hmsgs]
  · rename_i hlen
    cases hrun
    exact .inl ⟨rfl, .inl (Nat.le_of_not_lt hlen)⟩

/-! ## The bytes on their way -/

structure StreamInv (s : PipeStream) : Prop where
  bytes : s.results.flatten ++ s.fd.data ++ s.chunks.flatten ++ s.pending = s.written
  opened : s.finished = false → [] ∉ s.chunks ∧ s.fd.closed = false
  sent : s.finished = true → s.pending = []
  marker : s.finished = true → s.fd.closed = false →
    ∃ chunks, s.chunks = chunks ++ [[]] ∧ [] ∉ chunks
  ended : s.fd.closed = true → s.fd.data = [] ∧ s.chunks = []

/-- A step that moves no byte of the pipe. -/
theorem StreamInv.keep (h : s.StreamInv) (hfd : s'.fd = s.fd) (hchunks : s'.chunks = s.chunks)
    (hpending : s'.pending = s.pending) (hfinished : s'.finished = s.finished)
    (hwritten : s'.written = s.written) (hresults : s'.results.flatten = s.results.flatten) :
    s'.StreamInv := by
  refine ⟨?_, ?_, ?_, ?_, ?_⟩
  · rw [hresults, hfd, hchunks, hpending, hwritten]
    exact h.bytes
  · rw [hfinished, hchunks, hfd]
    exact h.opened
  · rw [hfinished, hpending]
    exact h.sent
  · rw [hfinished, hfd, hchunks]
    exact h.marker
  · rw [hfd, hchunks]
    exact h.ended

theorem StreamInv.sendChunk (h : s.StreamInv) (hpending : s.pending ≠ [])
    (hchunks : s'.chunks = s.chunks ++ [s.pending.take kPipeBytes]) (hfd : s'.fd = s.fd)
    (hrest : s'.pending = s.pending.drop kPipeBytes) (hfinished : s'.finished = s.finished)
    (hwritten : s'.written = s.written) (hresults : s'.results = s.results) : s'.StreamInv := by
  have hopen : s.finished = false := by
    by_contra hf
    exact hpending (h.sent (by simpa using hf))
  have hsome : [] ≠ s.pending.take kPipeBytes := by
    intro hnil
    rcases List.take_eq_nil_iff.mp hnil.symm with hz | hz
    · cases hz
    · exact hpending hz
  refine ⟨?_, fun _ => ⟨?_, ?_⟩, ?_, ?_, ?_⟩
  · rw [hresults, hfd, hchunks, hrest, hwritten, List.flatten_append, List.flatten_singleton, ← h.bytes]
    simp only [List.append_assoc]
    rw [List.take_append_drop]
  · rw [hchunks, List.mem_append, List.mem_singleton]
    rintro (hmem | hmem)
    · exact (h.opened hopen).1 hmem
    · exact hsome hmem
  · rw [hfd]
    exact (h.opened hopen).2
  · intro hf
    rw [hfinished, hopen] at hf
    cases hf
  · intro hf
    rw [hfinished, hopen] at hf
    cases hf
  · intro hc
    rw [hfd, (h.opened hopen).2] at hc
    cases hc

theorem StreamInv.finishWrite (h : s.StreamInv) (hpending : s.pending = []) (hopen : s.finished = false)
    (hchunks : s'.chunks = s.chunks ++ [[]]) (hfd : s'.fd = s.fd) (hrest : s'.pending = s.pending)
    (hfinished : s'.finished = true) (hwritten : s'.written = s.written)
    (hresults : s'.results = s.results) : s'.StreamInv := by
  refine ⟨?_, ?_, ?_, ?_, ?_⟩
  · rw [hresults, hfd, hchunks, hrest, hwritten, List.flatten_append, List.flatten_singleton,
      List.append_nil]
    exact h.bytes
  · intro hf
    rw [hfinished] at hf
    cases hf
  · intro _
    rw [hrest, hpending]
  · exact fun _ _ => ⟨s.chunks, hchunks, (h.opened hopen).1⟩
  · intro hc
    rw [hfd, (h.opened hopen).2] at hc
    cases hc

theorem StreamInv.read (h : s.StreamInv) {len : Nat} {bytes : Option (List UInt8)}
    (hround : ReadRound s s' len bytes) (hpending : s'.pending = s.pending)
    (hfinished : s'.finished = s.finished) (hwritten : s'.written = s.written)
    (hresults : s'.results = s.results ++ bytes.toList) : s'.StreamInv := by
  cases hround with
  | leftover hdata hrest hclosed hmailbox =>
    have hchunks : s'.chunks = s.chunks := by rw [chunks, hmailbox, chunks]
    have hopen : s.fd.closed = false := by
      by_contra hc
      exact hdata (h.ended (by simpa using hc)).1
    refine ⟨?_, ?_, ?_, ?_, ?_⟩
    · rw [hresults, hrest, hchunks, hpending, hwritten, ← h.bytes]
      show (s.results ++ [s.fd.data.take len]).flatten ++ _ ++ _ ++ _ = _
      rw [List.flatten_append, List.flatten_singleton, List.append_assoc s.results.flatten,
        List.take_append_drop]
    · rw [hfinished, hchunks, hclosed]
      exact h.opened
    · rw [hfinished, hpending]
      exact h.sent
    · rw [hfinished, hclosed, hchunks]
      exact h.marker
    · intro hc
      rw [hclosed, hopen] at hc
      cases hc
  | atEnd hdata hclosed hfd hmailbox =>
    apply h.keep hfd (by rw [chunks, hmailbox, chunks]) hpending hfinished hwritten
    rw [hresults]
    show (s.results ++ [[]]).flatten = _
    rw [List.flatten_append, List.flatten_singleton, List.append_nil]
  | asleep hdata hclosed hfd hmailbox hempty =>
    apply h.keep hfd (by rw [chunks, hmailbox, chunks]) hpending hfinished hwritten
    rw [hresults]
    exact congrArg List.flatten (List.append_nil _)
  | skipped msg hdata hclosed hfd hmailbox hmsg =>
    apply h.keep hfd (chunks_skip hmailbox hmsg).symm hpending hfinished hwritten
    rw [hresults]
    exact congrArg List.flatten (List.append_nil _)
  | taken msg data hdata hclosed hrest hmark hmailbox hmsg =>
    have hchunks := chunks_cons hmailbox hmsg
    refine ⟨?_, ?_, ?_, ?_, ?_⟩
    · rw [hresults, hrest, hpending, hwritten, ← h.bytes, hdata, hchunks]
      show (s.results ++ [data.take len]).flatten ++ _ ++ _ ++ _ = _
      rw [List.flatten_append, List.flatten_singleton, List.flatten_cons, List.append_nil,
        List.append_assoc s.results.flatten, List.take_append_drop, ← List.append_assoc]
    · intro hf
      rw [hfinished] at hf
      obtain ⟨hno, -⟩ := h.opened hf
      rw [hchunks, List.mem_cons, not_or] at hno
      refine ⟨hno.2, ?_⟩
      rw [hmark]
      simpa using Ne.symm hno.1
    · rw [hfinished, hpending]
      exact h.sent
    · intro hf hc
      rw [hfinished] at hf
      obtain ⟨front, heq, hno⟩ := h.marker hf hclosed
      have hne : data ≠ [] := by
        rw [hmark] at hc
        simpa using hc
      -- the marker is not the message that was taken
      cases front with
      | nil =>
        rw [hchunks] at heq
        exact absurd (List.cons.inj heq).1 hne
      | cons first front =>
        rw [hchunks] at heq
        exact ⟨front, (List.cons.inj heq).2, fun hmem => hno (List.mem_cons_of_mem _ hmem)⟩
    · intro hc
      have hnil : data = [] := by
        rw [hmark] at hc
        simpa using hc
      refine ⟨by rw [hrest, hnil, List.drop_nil], ?_⟩
      -- the marker has been sent, and is the last message of the pipe
      have hf : s.finished = true := by
        by_contra hf
        refine (h.opened (by simpa using hf)).1 ?_
        rw [hchunks, hnil]
        exact List.mem_cons_self
      obtain ⟨front, heq, hno⟩ := h.marker hf hclosed
      rw [hchunks, hnil] at heq
      cases front with
      | nil => exact (List.cons.inj heq).2
      | cons first front =>
        refine absurd ?_ hno
        rw [← (List.cons.inj heq).1]
        exact List.mem_cons_self

theorem StreamInv.step (h : s.StreamInv) (hguard : EventsFirst s event) (hstep : StreamStep s event s') :
    s'.StreamInv := by
  cases hstep with
  | write buf hpending hopen =>
    refine ⟨?_, h.opened, ?_, h.marker, h.ended⟩
    · show s.results.flatten ++ s.fd.data ++ s.chunks.flatten ++ buf = s.written ++ buf
      rw [← h.bytes, hpending, List.append_nil]
    · intro hf
      rw [show s.finished = true from hf] at hopen
      cases hopen
  | sendChunk rest tm hpending hrun =>
    obtain ⟨tm₁, hsend, heq⟩ := Option.map_eq_some_iff.mp hrun
    cases heq
    have hmailbox : mailbox { s with tm := tm, pending := s.pending.drop kPipeBytes } =
        s.mailbox ++ [.kPipe (s.pending.take kPipeBytes)] := taskSendMessage_msgs hsend
    exact h.sendChunk hpending (chunks_append hmailbox) rfl rfl rfl rfl rfl
  | finishWrite tm hpending hopen hrun =>
    have hmailbox : mailbox { s with tm := tm, finished := true } = s.mailbox ++ [.kPipe []] :=
      taskSendMessage_msgs hrun
    exact h.finishWrite hpending hopen (chunks_append hmailbox) rfl rfl rfl rfl rfl
  | read len bytes fd tm hrun =>
    exact h.read (readRound_cases _ hrun) rfl rfl rfl rfl
  | readEvent len events state tm hrun =>
    refine h.keep rfl ?_ rfl rfl rfl rfl
    rcases readEventRound_cases hrun with ⟨hmailbox, -⟩ | ⟨hlen, msg, hmailbox⟩
    · exact congrArg (List.filterMap Message.pipeData) hmailbox
    · have hhead : s.mailbox.head? = some msg := by rw [hmailbox, List.head?_cons]
      exact (chunks_skip hmailbox (hguard hlen msg hhead)).symm
  | others tm msgs hmsgs hother =>
    refine h.keep rfl ?_ rfl rfl rfl rfl
    have hmailbox : mailbox { s with tm := tm } = s.mailbox ++ msgs := hmsgs
    rw [chunks_append hmailbox, List.filterMap_eq_nil_iff.mpr hother, List.append_nil]

theorem StreamInv.of_opened (h : s.Opened) : s.StreamInv := by
  obtain ⟨tm, r, rfl, hnone⟩ := h
  refine ⟨?_, fun _ => ⟨?_, rfl⟩, nofun, nofun, nofun⟩
  · rw [hnone]
    rfl
  · rw [hnone]
    exact List.not_mem_nil

theorem StreamInv.of_reachable (h : Reachable Opened (GuardedStep StreamStep EventsFirst) s) : s.StreamInv := by
  refine h.invariant ?_ ?_
  · exact fun s hs => .of_opened hs
  · rintro s s' hi ⟨event, hguard, hstep⟩
    exact hi.step hguard hstep

/-! ## What the reads return -/

/-- No `Read` has returned 0 bytes before the end was reached, and since then all of them have. -/
structure ResultsInv (s : PipeStream) : Prop where
  stream : s.StreamInv
  opened : s.fd.closed = false → [] ∉ s.results
  ended : s.fd.closed = true → ∃ full k, s.results = full ++ List.replicate k [] ∧ [] ∉ full

theorem ResultsInv.keep (h : s.ResultsInv) (hstream : s'.StreamInv) (hclosed : s'.fd.closed = s.fd.closed)
    (hresults : s'.results = s.results) : s'.ResultsInv := by
  refine ⟨hstream, ?_, ?_⟩
  · rw [hclosed, hresults]
    exact h.opened
  · rw [hclosed, hresults]
    exact h.ended

/-- A `Read` that returns some bytes while the pipe is open. -/
theorem ResultsInv.some (h : s.ResultsInv) (hstream : s'.StreamInv) (hopen : s.fd.closed = false)
    (hopen' : s'.fd.closed = false) {bytes : List UInt8} (hsome : bytes ≠ [])
    (hresults : s'.results = s.results ++ [bytes]) : s'.ResultsInv := by
  refine ⟨hstream, fun _ => ?_, fun hc => ?_⟩
  · rw [hresults, List.mem_append, List.mem_singleton]
    rintro (hmem | hmem)
    · exact h.opened hopen hmem
    · exact hsome hmem.symm
  · rw [hopen'] at hc
    cases hc

theorem take_ne_nil {data : List UInt8} {len : Nat} (hlen : 1 ≤ len) (h : data ≠ []) :
    data.take len ≠ [] := by
  intro hnil
  rcases List.take_eq_nil_iff.mp hnil with hz | hz
  · omega
  · exact h hz

theorem ResultsInv.read (h : s.ResultsInv) (hstream : s'.StreamInv) {len : Nat} (hlen : 1 ≤ len)
    {bytes : Option (List UInt8)} (hround : ReadRound s s' len bytes)
    (hresults : s'.results = s.results ++ bytes.toList) : s'.ResultsInv := by
  cases hround with
  | leftover hdata hrest hclosed hmailbox =>
    have hopen : s.fd.closed = false := by
      by_contra hc
      exact hdata (h.stream.ended (by simpa using hc)).1
    exact h.some hstream hopen (hclosed.trans hopen) (take_ne_nil hlen hdata) hresults
  | atEnd hdata hclosed hfd hmailbox =>
    obtain ⟨full, k, heq, hno⟩ := h.ended hclosed
    refine ⟨hstream, fun hc => ?_, fun _ => ⟨full, k + 1, ?_, hno⟩⟩
    · rw [hfd, hclosed] at hc
      cases hc
    · rw [hresults, heq, List.append_assoc, List.replicate_succ']
      rfl
  | asleep hdata hclosed hfd hmailbox hempty =>
    exact h.keep hstream (congrArg _ hfd) (hresults.trans (List.append_nil _))
  | skipped msg hdata hclosed hfd hmailbox hmsg =>
    exact h.keep hstream (congrArg _ hfd) (hresults.trans (List.append_nil _))
  | taken msg data hdata hclosed hrest hmark hmailbox hmsg =>
    cases data with
    | nil =>
      refine ⟨hstream, fun hc => ?_, fun _ => ⟨s.results, 1, ?_, h.opened hclosed⟩⟩
      · rw [hmark] at hc
        cases hc
      · rw [hresults, List.take_nil]
        rfl
    | cons byte data => exact h.some hstream hclosed hmark (take_ne_nil hlen (by simp)) hresults

theorem ResultsInv.step (h : s.ResultsInv) (hguard : ReadsOnly s event)
    (hstep : StreamStep s event s') : s'.ResultsInv := by
  have hstream := h.stream.step hguard.eventsFirst hstep
  cases hstep with
  | read len bytes fd tm hrun => exact h.read hstream hguard (readRound_cases _ hrun) rfl
  | sendChunk rest tm hpending hrun =>
    obtain ⟨tm₁, hsend, heq⟩ := Option.map_eq_some_iff.mp hrun
    cases heq
    exact h.keep hstream rfl rfl
  | _ => exact h.keep hstream rfl rfl

theorem ResultsInv.of_reachable (h : Reachable Opened (GuardedStep StreamStep ReadsOnly) s) : s.ResultsInv := by
  refine h.invariant ?_ ?_
  · intro s hs
    have hstream := StreamInv.of_opened hs
    obtain ⟨tm, r, rfl, -⟩ := hs
    exact ⟨hstream, fun _ => List.not_mem_nil, nofun⟩
  · rintro s s' hi ⟨event, hguard, hstep⟩
    exact hi.step hguard hstep

/-- A `Read` has returned 0 bytes: all that was written had been returned before. -/
theorem ResultsInv.end_reported (h : s.ResultsInv) {before after : List (List UInt8)}
    (heq : s.results = before ++ [] :: after) :
    s.finished = true ∧ before.flatten = s.written ∧ ∀ bytes ∈ after, bytes = [] := by
  have hclosed : s.fd.closed = true := by
    by_contra hc
    refine h.opened (by simpa using hc) ?_
    rw [heq]
    exact List.mem_append_right _ List.mem_cons_self
  have hfinished : s.finished = true := by
    by_contra hf
    rw [(h.stream.opened (by simpa using hf)).2] at hclosed
    cases hclosed
  obtain ⟨full, k, hfull, hno⟩ := h.ended hclosed
  -- the first empty result stands behind all the full ones
  have hafter : ∀ bytes ∈ after, bytes = [] := by
    intro bytes hmem
    rcases List.append_eq_append_iff.mp (heq.symm.trans hfull) with
      ⟨mid, hfull', htail⟩ | ⟨mid, -, htail⟩
    · cases mid with
      | nil =>
        have hmem' : bytes ∈ List.replicate k [] := by
          rw [List.nil_append] at htail
          rw [← htail]
          exact List.mem_cons_of_mem _ hmem
        exact List.eq_of_mem_replicate hmem'
      | cons first mid =>
        refine absurd ?_ hno
        rw [hfull', ← (List.cons.inj htail).1]
        exact List.mem_append_right _ List.mem_cons_self
    · have hmem' : bytes ∈ List.replicate k [] := by
        rw [htail]
        exact List.mem_append_right _ (List.mem_cons_of_mem _ hmem)
      exact List.eq_of_mem_replicate hmem'
  refine ⟨hfinished, ?_, hafter⟩
  have hbytes := h.stream.bytes
  obtain ⟨hdata, hchunks⟩ := h.stream.ended hclosed
  rw [hdata, hchunks, h.stream.sent hfinished, heq, List.flatten_append, List.flatten_cons,
    List.flatten_eq_nil_iff.mpr hafter] at hbytes
  simpa using hbytes

/-! ## Reading on leads to the end -/

/-- The rounds of `Read` that the messages up to the end marker can take. -/
def unread : List Message → Nat
  | [] => 0
  | .kPipe [] :: _ => 1
  | msg :: msgs => 1 + (msg.pipeData.getD []).length + unread msgs

def backlog (s : PipeStream) : Nat :=
  if s.fd.closed then 0 else s.fd.data.length + unread s.mailbox

theorem backlog_open (h : s.fd.closed = false) : s.backlog = s.fd.data.length + unread s.mailbox := by
  rw [backlog, if_neg (by simp [h])]

theorem backlog_closed (h : s.fd.closed = true) : s.backlog = 0 := if_pos h

theorem unread_skip {msg : Message} {msgs : List Message} (h : msg.pipeData = none) :
    unread (msg :: msgs) = 1 + unread msgs := by
  cases msg with
  | kPipe data => cases h
  | _ => rfl

theorem unread_data {data : List UInt8} {msgs : List Message} (h : data ≠ []) :
    unread (.kPipe data :: msgs) = 1 + data.length + unread msgs := by
  cases data with
  | nil => exact absurd rfl h
  | cons byte data => rfl

/-- What arrives behind the end marker changes nothing. -/
theorem unread_append {msgs more : List Message} (h : Message.kPipe [] ∈ msgs) :
    unread (msgs ++ more) = unread msgs := by
  induction msgs with
  | nil => cases h
  | cons msg msgs ih =>
    by_cases hmsg : msg = .kPipe []
    · rw [hmsg]
      rfl
    · have hmem : Message.kPipe [] ∈ msgs := by
        rcases List.mem_cons.mp h with heq | hmem
        · exact absurd heq.symm hmsg
        · exact hmem
      cases msg with
      | kPipe data =>
        have hne : data ≠ [] := fun hnil => hmsg (by rw [hnil])
        rw [List.cons_append, unread_data hne, unread_data hne, ih hmem]
      | _ => rw [List.cons_append, unread_skip rfl, unread_skip rfl, ih hmem]

theorem mem_mailbox_of_chunk {data : List UInt8} (h : data ∈ s.chunks) : .kPipe data ∈ s.mailbox := by
  obtain ⟨msg, hmem, hmsg⟩ := List.mem_filterMap.mp h
  cases msg with
  | kPipe bytes =>
    cases hmsg
    exact hmem
  | _ => cases hmsg

theorem StreamInv.marker_mem (h : s.StreamInv) (hfinished : s.finished = true)
    (hopen : s.fd.closed = false) : Message.kPipe [] ∈ s.mailbox := by
  obtain ⟨front, hchunks, -⟩ := h.marker hfinished hopen
  apply mem_mailbox_of_chunk
  rw [hchunks]
  exact List.mem_append_right _ (List.mem_singleton_self _)

/-- Once the end marker is sent, a round of `Read` always gets nearer to it. -/
theorem StreamInv.read_backlog (h : s.StreamInv) (hfinished : s.finished = true)
    (hopen : s.fd.closed = false) {len : Nat} (hlen : 1 ≤ len) {bytes : Option (List UInt8)}
    (hround : ReadRound s s' len bytes) : s'.backlog < s.backlog := by
  have hmarker := h.marker_mem hfinished hopen
  rw [backlog_open hopen]
  cases hround with
  | leftover hdata hrest hclosed hmailbox =>
    have hpos := List.length_pos_of_ne_nil hdata
    rw [backlog_open (hclosed.trans hopen), hrest, hmailbox, List.length_drop]
    omega
  | atEnd hdata hclosed hfd hmailbox =>
    rw [hopen] at hclosed
    cases hclosed
  | asleep hdata hclosed hfd hmailbox hempty =>
    rw [hempty] at hmarker
    cases hmarker
  | skipped msg hdata hclosed hfd hmailbox hmsg =>
    rw [backlog_open (by rw [hfd, hopen]), hfd, hmailbox, unread_skip hmsg]
    omega
  | taken msg data hdata hclosed hrest hmark hmailbox hmsg =>
    obtain rfl : msg = .kPipe data := by
      cases msg with
      | kPipe bytes => exact congrArg Message.kPipe (Option.some.inj hmsg)
      | _ => cases hmsg
    rw [hmailbox]
    cases data with
    | nil =>
      rw [backlog_closed hmark]
      show 0 < _ + 1
      omega
    | cons byte data =>
      rw [backlog_open hmark, hrest, unread_data (by simp), List.length_drop]
      omega

/-- Whoever reads on after `FinishWrite` is never left asleep, and gets to the end. -/
def Drains (s : PipeStream) : Prop :=
  ∀ len, 1 ≤ len → s.fd.closed = false → ∃ s', StreamStep s (.read len) s' ∧ s'.backlog < s.backlog

theorem StreamInv.drains (h : s.StreamInv) (hfinished : s.finished = true) : s.Drains := by
  intro len hlen hopen
  obtain ⟨⟨bytes, fd, tm⟩, hrun⟩ : ∃ r, s.fd.readRound s.tm len = some r := by
    have hmarker := h.marker_mem hfinished hopen
    unfold PipeDescriptor.readRound
    split
    · exact ⟨_, rfl⟩
    · rw [if_neg (by simp [hopen])]
      split
      · rename_i tm hreceive
        rw [mailbox, (taskReceiveMessage_none hreceive).1] at hmarker
        cases hmarker
      · exact ⟨_, rfl⟩
  exact ⟨_, .read len bytes fd tm hrun, h.read_backlog hfinished hopen hlen (readRound_cases _ hrun)⟩

/-- No other step takes a reader back. -/
theorem StreamInv.backlog_le (h : s.StreamInv) (hfinished : s.finished = true)
    (hguard : ReadsOnly s event) (hstep : StreamStep s event s') : s'.backlog ≤ s.backlog := by
  cases hopen : s.fd.closed with
  | true =>
    have hclosed : s'.fd.closed = true := by
      cases hstep with
      | read len bytes fd tm hrun =>
        cases readRound_cases s.results hrun with
        | leftover hdata hrest hclosed hmailbox => exact hclosed.trans hopen
        | atEnd hdata hclosed hfd hmailbox => exact (congrArg _ hfd).trans hopen
        | asleep hdata hclosed hfd hmailbox hempty => exact (congrArg _ hfd).trans hopen
        | skipped msg hdata hclosed hfd hmailbox hmsg => exact (congrArg _ hfd).trans hopen
        | taken msg data hdata hclosed hrest hmark hmailbox hmsg =>
          rw [hopen] at hclosed
          cases hclosed
      | _ => exact hopen
    rw [backlog_closed hclosed]
    exact Nat.zero_le _
  | false =>
    cases hstep with
    | write buf hpending hwriting =>
      rw [hfinished] at hwriting
      cases hwriting
    | sendChunk rest tm hpending hrun => exact absurd (h.sent hfinished) hpending
    | finishWrite tm hpending hwriting hrun =>
      rw [hfinished] at hwriting
      cases hwriting
    | read len bytes fd tm hrun =>
      exact Nat.le_of_lt (h.read_backlog hfinished hopen hguard (readRound_cases _ hrun))
    | readEvent len events state tm hrun => exact hguard.elim
    | others tm msgs hmsgs hother =>
      have hmailbox : mailbox { s with tm := tm } = s.mailbox ++ msgs := hmsgs
      have hopen' : { s with tm := tm }.fd.closed = false := hopen
      apply Nat.le_of_eq
      rw [backlog_open hopen, backlog_open hopen', hmailbox,
        unread_append (h.marker_mem hfinished hopen)]

/-! ## No step loses bytes -/

/-- A pipe message leaves the mailbox only for a `Read` that returns its bytes or keeps them, and the end
marker only for one that reports the end. -/
def KeepsBytes (s s' : PipeStream) (event : StreamEvent) : Prop :=
  (∃ more, s'.chunks = s.chunks ++ more) ∨
    ∃ len data bytes, event = .read len ∧ s.chunks = data :: s'.chunks ∧
      s'.results = s.results ++ [bytes] ∧ bytes ++ s'.fd.data = data ∧
      (data = [] → bytes = [] ∧ s'.fd.closed = true)

theorem keepsBytes_of_mailbox {msgs : List Message} (h : s'.mailbox = s.mailbox ++ msgs) :
    KeepsBytes s s' event := .inl ⟨_, chunks_append h⟩

theorem keepsBytes_read {len : Nat} {bytes : Option (List UInt8)} (hround : ReadRound s s' len bytes)
    (hresults : s'.results = s.results ++ bytes.toList) : KeepsBytes s s' (.read len) := by
  cases hround with
  | leftover hdata hrest hclosed hmailbox =>
    exact keepsBytes_of_mailbox (hmailbox.trans (List.append_nil _).symm)
  | atEnd hdata hclosed hfd hmailbox =>
    exact keepsBytes_of_mailbox (hmailbox.trans (List.append_nil _).symm)
  | asleep hdata hclosed hfd hmailbox hempty =>
    exact keepsBytes_of_mailbox (hmailbox.trans (List.append_nil _).symm)
  | skipped msg hdata hclosed hfd hmailbox hmsg =>
    exact .inl ⟨[], by rw [chunks_skip hmailbox hmsg, List.append_nil]⟩
  | taken msg data hdata hclosed hrest hmark hmailbox hmsg =>
    refine .inr ⟨len, data, data.take len, rfl, chunks_cons hmailbox hmsg, hresults, ?_, ?_⟩
    · rw [hrest, List.take_append_drop]
    · rintro rfl
      exact ⟨List.take_nil, hmark⟩

/-- The steps that lose bytes are the rounds of `ReadEvent` that meet a pipe message. -/
theorem keepsBytes_iff (hstep : StreamStep s event s') : KeepsBytes s s' event ↔ EventsFirst s event := by
  cases hstep with
  | write buf hpending hopen =>
    exact iff_of_true (keepsBytes_of_mailbox (List.append_nil s.mailbox).symm) trivial
  | sendChunk rest tm hpending hrun =>
    obtain ⟨tm₁, hsend, heq⟩ := Option.map_eq_some_iff.mp hrun
    cases heq
    exact iff_of_true (keepsBytes_of_mailbox (taskSendMessage_msgs hsend)) trivial
  | finishWrite tm hpending hopen hrun =>
    exact iff_of_true (keepsBytes_of_mailbox (taskSendMessage_msgs hrun)) trivial
  | read len bytes fd tm hrun =>
    exact iff_of_true (keepsBytes_read (readRound_cases _ hrun) rfl) trivial
  | others tm msgs hmsgs hother => exact iff_of_true (keepsBytes_of_mailbox hmsgs) trivial
  | readEvent len events state tm hrun =>
    rcases readEventRound_cases hrun with ⟨hmailbox, hwhy⟩ | ⟨hlen, msg, hmailbox⟩
    · refine iff_of_true (keepsBytes_of_mailbox (hmailbox.trans (List.append_nil _).symm)) ?_
      intro hlen msg hhead
      rcases hwhy with hle | hempty
      · omega
      · rw [hempty] at hhead
        cases hhead
    · cases hmsg : msg.pipeData with
      | none =>
        refine iff_of_true (.inl ⟨[], by rw [chunks_skip hmailbox hmsg, List.append_nil]⟩) ?_
        intro _ msg' hhead
        rw [hmailbox] at hhead
        cases hhead
        exact hmsg
      | some data =>
        have hchunks := chunks_cons hmailbox hmsg
        apply iff_of_false
        · rintro (⟨more, heq⟩ | ⟨_, _, _, hread, -⟩)
          · have hlength := congrArg List.length (hchunks.trans (congrArg _ heq))
            simp only [List.length_cons, List.length_append] at hlength
            omega
          · cases hread
        · intro hguard
          have hhead : s.mailbox.head? = some msg := by rw [hmailbox, List.head?_cons]
          rw [hguard hlen msg hhead] at hmsg
          cases hmsg

end PipeStream

open PipeStream

/-- **A pipe delivers the bytes written, in order, and then the end.**  The bytes the reads have returned,
those left over, those in messages and those still to be sent are the bytes written.  A `Read` of 0 bytes
comes after all of them, and only such reads come after it; and after `FinishWrite` every `Read` gets on. -/
theorem pipe_stream {s : PipeStream} (h : Reachable Opened (GuardedStep StreamStep ReadsOnly) s) :
    s.results.flatten ++ s.fd.data ++ s.chunks.flatten ++ s.pending = s.written ∧
      (∀ before after, s.results = before ++ [] :: after →
        s.finished = true ∧ before.flatten = s.written ∧ ∀ bytes ∈ after, bytes = []) ∧
      (s.finished = true → s.Drains ∧
        ∀ event s', ReadsOnly s event → StreamStep s event s' → s'.backlog ≤ s.backlog) := by
  have hinv := ResultsInv.of_reachable h
  refine ⟨hinv.stream.bytes, fun _ _ heq => hinv.end_reported heq, fun hf => ⟨?_, ?_⟩⟩
  · exact hinv.stream.drains hf
  · exact fun event s' hguard hstep => hinv.stream.backlog_le hf hguard hstep

/-- A new pipe to the task made after the main and the idle task. -/
theorem opened_third : Opened ⟨TaskManager.init.newTask.2, ⟨3, [], false⟩, [], false, [], []⟩ :=
  ⟨_, 3, rfl, rfl⟩

/-- Three bytes in one message, read as two and one, and then the end. -/
theorem pipe_stream_three_bytes :
    ∃ s : PipeStream, s.results = [[1, 2], [3], []] ∧ s.finished = true ∧
      [[1, 2], [3]].flatten = s.written := by
  have hrun : Reachable Opened (GuardedStep StreamStep ReadsOnly) _ := .start opened_third
  have hrun := hrun.next ⟨.write [1, 2, 3], trivial, .write [1, 2, 3] rfl rfl⟩
  have hrun := hrun.next ⟨.sendChunk, trivial, .sendChunk [] _ (by decide) rfl⟩
  have hrun := hrun.next ⟨.read 2, Nat.le_add_left 1 1, .read 2 (some [1, 2]) ⟨3, [3], false⟩ _ rfl⟩
  have hrun := hrun.next ⟨.finishWrite, trivial, .finishWrite _ rfl rfl rfl⟩
  have hrun := hrun.next ⟨.read 2, Nat.le_add_left 1 1, .read 2 (some [3]) ⟨3, [], false⟩ _ rfl⟩
  have hrun := hrun.next ⟨.read 1, Nat.le_refl 1, .read 1 (some []) ⟨3, [], true⟩ _ rfl⟩
  obtain ⟨-, hend, -⟩ := pipe_stream hrun
  obtain ⟨hfinished, hall, -⟩ := hend [[1, 2], [3]] [] rfl
  exact ⟨_, rfl, hfinished, hall⟩

/-- **`ReadEvent` and the pipe share the mailbox.**  As long as `ReadEvent` finds no pipe message in front
of it, no byte is lost; and a step loses bytes, or the end, exactly if it is a round of `ReadEvent` that
finds one. -/
theorem pipe_bytes_kept {s : PipeStream} (h : Reachable Opened (GuardedStep StreamStep EventsFirst) s) :
    s.results.flatten ++ s.fd.data ++ s.chunks.flatten ++ s.pending = s.written ∧
      ∀ event s', StreamStep s event s' → (KeepsBytes s s' event ↔ EventsFirst s event) :=
  ⟨(StreamInv.of_reachable h).bytes, fun _ _ hstep => keepsBytes_iff hstep⟩

/-- A key event in front of the pipe's message: `ReadEvent` takes the one and `Read` the other. -/
theorem pipe_bytes_kept_key_event :
    ∃ s : PipeStream, s.results = [[0x61]] ∧ s.written = [0x61] ∧
      s.results.flatten ++ s.fd.data ++ s.chunks.flatten ++ s.pending = s.written := by
  have hrun : Reachable Opened (GuardedStep StreamStep EventsFirst) _ := .start opened_third
  have hrun := hrun.next ⟨.others, trivial,
    .others (TaskManager.init.newTask.2.setMsgs 3 [.kKeyPush 0 4 0x61 1]) [.kKeyPush 0 4 0x61 1] rfl
      (by decide)⟩
  have hrun := hrun.next ⟨.write [0x61], trivial, .write [0x61] rfl rfl⟩
  have hrun := hrun.next ⟨.sendChunk, trivial, .sendChunk [] _ (by decide) rfl⟩
  have hguard : ∀ msg, some (Message.kKeyPush 0 4 0x61 1) = some msg → msg.pipeData = none := by
    intro msg heq
    cases heq
    rfl
  have hrun := hrun.next ⟨.readEvent 1 [], fun _ msg hhead => hguard msg hhead,
    .readEvent 1 [] (.reading [.kKeyPush 0 4 0x61 1]) _ rfl⟩
  have hrun := hrun.next ⟨.read 4, trivial, .read 4 (some [0x61]) ⟨3, [], false⟩ _ rfl⟩
  exact ⟨_, rfl, rfl, (pipe_bytes_kept hrun).1⟩

/-- The writer sends one byte, and the application calls `ReadEvent` before it reads: the byte is in no
result, in no leftover and in no message. -/
theorem pipe_byte_lost :
    ∃ s, Reachable Opened (GuardedStep StreamStep fun _ _ => True) s ∧ s.written = [0x61] ∧
      s.results.flatten ++ s.fd.data ++ s.chunks.flatten ++ s.pending = [] := by
  have hrun : Reachable Opened (GuardedStep StreamStep fun _ _ => True) _ := .start opened_third
  have hrun := hrun.next ⟨.write [0x61], trivial, .write [0x61] rfl rfl⟩
  have hrun := hrun.next ⟨.sendChunk, trivial, .sendChunk [] _ (by decide) rfl⟩
  have hrun := hrun.next ⟨.readEvent 1 [], trivial, .readEvent 1 [] (.reading []) _ rfl⟩
  exact ⟨_, hrun, rfl, rfl⟩

end MikanSaos

import MikanSaos.FileSystem.Volume
import MikanSaos.Terminal.CutStrings
import Mathlib.Data.List.DropRight

/-!
# CommandLine — how `ExecuteLine` splits its line

The separators are looked up in the whole line before any of them is cut; the line is then cut at the first
space, at `>` and at `|`, in this order, and the file of a redirection is opened before the cut at `|`.
`FindFile` and `CreateFile` may return anything, and a command is what is run, not what it does.
-/

namespace MikanSaos

def kBlank : UInt8 := 0x20
def kRedirect : UInt8 := 0x3e
def kPipe : UInt8 := 0x7c

/-- What the files of a redirection look like to `ExecuteLine`; an error of `CreateFile` has a name. -/
structure RedirectFiles where
  findFile : List UInt8 → Option EntryPtr × Bool
  createFile : List UInt8 → Except String EntryPtr
  isDirectory : EntryPtr → Bool

/-- The descriptor `_files[1]`: the terminal's own one, a file, or the pipe to the subtask. -/
inductive StandardOutput
  | own
  | file (entry : EntryPtr)
  | pipe
  deriving DecidableEq

inductive LineCall
  | findFile (path : List UInt8)
  | createFile (path : List UInt8)
  | printError (message : String)
  | newTask (commandLine : List UInt8) (output : StandardOutput)
  | run (command : List UInt8) (arg : Option (List UInt8)) (output : StandardOutput)
  deriving DecidableEq

/-- The buffer, `_files[1]` and the calls so far. -/
structure LineRun where
  linebuf : List UInt8
  output : StandardOutput
  calls : List LineCall

namespace RedirectFiles

/-- Finds or creates the file of a redirection; there is none after an error. -/
def openRedirect (files : RedirectFiles) (redirDest : List UInt8) : List LineCall × Option EntryPtr :=
  match files.findFile redirDest with
  | (none, _) =>
    match files.createFile redirDest with
    | .error name =>
      ([.findFile redirDest, .createFile redirDest,
        .printError ("failed to create a redirect file: " ++ name ++ "\n")], none)
    | .ok file => ([.findFile redirDest, .createFile redirDest], some file)
  | (some file, postSlash) =>
    if files.isDirectory file ∨ postSlash then
      ([.findFile redirDest, .printError "cannot redirect to a directory\n"], none)
    else ([.findFile redirDest], some file)

end RedirectFiles

namespace LineRun

/-- The part for `redir_char`; after an error the function returns. -/
def redirect (files : RedirectFiles) (run : LineRun) : Option Nat → Except LineRun LineRun
  | none => .ok run
  | some i =>
    let linebuf := run.linebuf.set i 0
    let redirDest := stringAt linebuf (skipSpaces linebuf (i + 1))
    match files.openRedirect redirDest with
    | (calls, none) => .error ⟨linebuf, run.output, run.calls ++ calls⟩
    | (calls, some file) => .ok ⟨linebuf, .file file, run.calls ++ calls⟩

/-- The part for `pipe_char`. -/
def pipe (run : LineRun) : Option Nat → LineRun
  | none => run
  | some i =>
    let linebuf := run.linebuf.set i 0
    let subcommand := stringAt linebuf (skipSpaces linebuf (i + 1))
    ⟨linebuf, .pipe, run.calls ++ [.newTask subcommand run.output]⟩

end LineRun

def executeLine (files : RedirectFiles) (stdout : StandardOutput) (linebuf : List UInt8) : LineRun :=
  let space := strchr linebuf kBlank
  -- both are looked up in the line as it has been typed
  let redirChar := strchr linebuf kRedirect
  let pipeChar := strchr linebuf kPipe
  let cutbuf := cut linebuf space
  let arg := space.map fun i => skipSpaces cutbuf (i + 1)
  let originalStdout := stdout
  match LineRun.redirect files ⟨cutbuf, stdout, []⟩ redirChar with
  | .error run => run
  | .ok run =>
    let run := run.pipe pipeChar
    ⟨run.linebuf, originalStdout,
      run.calls ++ [.run (stringAt run.linebuf 0) (arg.map fun i => stringAt run.linebuf i) run.output]⟩

/-! ## Command lines -/

/-- The text behind `>`: a word with whitespace around it. -/
structure RedirectPart where
  before : List UInt8
  file : List UInt8
  after : List UInt8

def RedirectPart.text (r : RedirectPart) : List UInt8 := r.before ++ r.file ++ r.after

/-- What follows the command part. -/
inductive LineTail
  | none
  | redirect (r : RedirectPart)
  | pipe (sub : List UInt8)
  | redirectPipe (r : RedirectPart) (sub : List UInt8)
  | pipeRedirect (sub : List UInt8) (r : RedirectPart)

namespace LineTail

def text : LineTail → List UInt8
  | none => []
  | redirect r => kRedirect :: r.text
  | pipe sub => kPipe :: sub
  | redirectPipe r sub => kRedirect :: (r.text ++ kPipe :: sub)
  | pipeRedirect sub r => kPipe :: (sub ++ kRedirect :: r.text)

def redirectPart : LineTail → Option RedirectPart
  | redirect r | redirectPipe r _ | pipeRedirect _ r => some r
  | _ => Option.none

def pipePart : LineTail → Option (List UInt8)
  | pipe sub | redirectPipe _ sub | pipeRedirect sub _ => some sub
  | _ => Option.none

end LineTail

/-- Text within a part of a line. -/
def PartText (s : List UInt8) : Prop := ∀ c ∈ s, c ≠ 0 ∧ c ≠ kRedirect ∧ c ≠ kPipe

structure RedirectPart.WellFormed (r : RedirectPart) : Prop where
  before : ∀ c ∈ r.before, isspace c
  after : ∀ c ∈ r.after, isspace c
  file : PartText r.file
  word : r.file ≠ [] ∧ ∀ c ∈ r.file, ¬ isspace c

/-- The separators are not in a part of the line. -/
theorem PartText.free {s : List UInt8} (h : PartText s) {c : UInt8} (hc : c = kRedirect ∨ c = kPipe) : c ∉ s := by
  intro hmem
  rcases hc with rfl | rfl
  · exact (h _ hmem).2.1 rfl
  · exact (h _ hmem).2.2 rfl

theorem isspace_separator {c : UInt8} (h : c = kRedirect ∨ c = kPipe) : isspace c = false := by
  rcases h with rfl | rfl <;> decide

theorem RedirectPart.WellFormed.free {r : RedirectPart} (h : r.WellFormed) {c : UInt8}
    (hc : c = kRedirect ∨ c = kPipe) : c ∉ r.text := by
  have hspace := isspace_separator hc
  intro hmem
  unfold text at hmem
  rcases List.mem_append.mp hmem with hmem | hmem
  · rcases List.mem_append.mp hmem with hmem | hmem
    · exact absurd (h.before c hmem) (by simp [hspace])
    · exact h.file.free hc hmem
  · exact absurd (h.after c hmem) (by simp [hspace])

structure CommandLine where
  command : List UInt8
  tail : LineTail

namespace CommandLine

def text (l : CommandLine) : List UInt8 := l.command ++ l.tail.text

structure WellFormed (l : CommandLine) : Prop where
  command : PartText l.command
  redirect : ∀ r ∈ l.tail.redirectPart, r.WellFormed
  pipe : ∀ sub ∈ l.tail.pipePart, PartText sub

/-- The first word of the command part. -/
def word (l : CommandLine) : List UInt8 := (l.command.dropWhile isspace).takeWhile (¬ isspace ·)

/-- What follows the first word, without the whitespace between the two. -/
def remaining (l : CommandLine) : List UInt8 :=
  ((l.command.dropWhile isspace).dropWhile (¬ isspace ·)).dropWhile isspace

end CommandLine

/-- The strings of a line that the calls are made with. -/
structure LineStrings where
  redirDest : Option (List UInt8)
  subcommand : Option (List UInt8)
  command : List UInt8
  arg : Option (List UInt8)

namespace LineStrings

def runs (l : LineStrings) (output : StandardOutput) : List LineCall :=
  match l.subcommand with
  | none => [.run l.command l.arg output]
  | some subcommand => [.newTask subcommand output, .run l.command l.arg .pipe]

def calls (l : LineStrings) (files : RedirectFiles) (stdout : StandardOutput) : List LineCall :=
  match l.redirDest with
  | none => l.runs stdout
  | some redirDest =>
    match files.openRedirect redirDest with
    | (calls, none) => calls
    | (calls, some file) => calls ++ l.runs (.file file)

end LineStrings

/-- What a command line asks for. -/
def CommandLine.strings (l : CommandLine) : LineStrings where
  redirDest := l.tail.redirectPart.map RedirectPart.file
  subcommand := l.tail.pipePart.map (·.dropWhile isspace)
  command := l.word
  arg := some l.remaining

/-- Two calls that differ only in whitespace at the end of a subtask's command, or in an argument that is
empty or missing, ask for the same. -/
def LineCall.meaning : LineCall → LineCall
  | newTask commandLine output => newTask (commandLine.rdropWhile isspace) output
  | run command arg output => run command (some (arg.getD [])) output
  | call => call

/-! ## Lines that are split right -/

/-- The text behind `>` gives the file, with `pre` before it and `rest` behind it: the first space of the line is
either before it all, and the line ends with the file, or comes directly behind the file, if anything does. -/
def RedirectPart.Ends (r : RedirectPart) (pre rest : List UInt8) : Prop :=
  if kBlank ∈ pre then r.after ++ rest = []
  else kBlank ∉ r.before ∧ ∀ c ∈ (r.after ++ rest).head?, c = kBlank

/-- The first space of the line is before the text behind `|`, or nothing but whitespace follows it there. -/
def PipeEnds (pre sub : List UInt8) : Prop := kBlank ∈ pre ∨ ∀ c ∈ sub.dropWhile (· ≠ kBlank), isspace c

/-- The first whitespace of a command part is a space, and no word comes behind a space at its beginning. -/
structure WordEnds (command : List UInt8) : Prop where
  blank : ∀ c ∈ command.takeWhile (· ≠ kBlank), ¬ isspace c
  leading : command.head? = some kBlank → ∀ c ∈ command, isspace c

def LineTail.Ends (command : List UInt8) : LineTail → Prop
  | none => True
  | redirect r => r.Ends command []
  | pipe sub => PipeEnds command sub
  | redirectPipe r sub => r.Ends command (kPipe :: sub)
  | pipeRedirect sub r => PipeEnds command sub ∧ r.Ends (command ++ kPipe :: sub) []

structure CommandLine.Separable (l : CommandLine) : Prop where
  command : WordEnds l.command
  tail : l.tail.Ends l.command

/-! ## The strings of the buffer -/

/-- The buffer after the cut at the first space. -/
def spaceCut (linebuf : List UInt8) : List UInt8 := cut linebuf (strchr linebuf kBlank)

/-- The buffer when the file of the redirection is looked up. -/
def redirectCut (linebuf : List UInt8) : List UInt8 := cut (spaceCut linebuf) (strchr linebuf kRedirect)

/-- The buffer when the subtask and the command are run. -/
def pipeCut (linebuf : List UInt8) : List UInt8 := cut (redirectCut linebuf) (strchr linebuf kPipe)

/-- The strings that the pointers of `ExecuteLine` point to, when they are used. -/
def bufferStrings (linebuf : List UInt8) : LineStrings where
  redirDest := (strchr linebuf kRedirect).map fun i =>
    stringAt (redirectCut linebuf) (skipSpaces (redirectCut linebuf) (i + 1))
  subcommand := (strchr linebuf kPipe).map fun i =>
    stringAt (pipeCut linebuf) (skipSpaces (pipeCut linebuf) (i + 1))
  command := stringAt (pipeCut linebuf) 0
  arg := (strchr linebuf kBlank).map fun i => stringAt (pipeCut linebuf) (skipSpaces (spaceCut linebuf) (i + 1))

variable {files : RedirectFiles} {stdout : StandardOutput} {linebuf : List UInt8} {l : CommandLine}

theorem executeLine_spec (files : RedirectFiles) (stdout : StandardOutput) (linebuf : List UInt8) :
    (executeLine files stdout linebuf).calls = (bufferStrings linebuf).calls files stdout ∧
      (executeLine files stdout linebuf).output = stdout := by
  unfold executeLine bufferStrings LineStrings.calls pipeCut redirectCut spaceCut
  dsimp only
  generalize cut linebuf (strchr linebuf kBlank) = cutbuf
  cases strchr linebuf kRedirect with
  | none => cases strchr linebuf kPipe <;> cases strchr linebuf kBlank <;> exact ⟨rfl, rfl⟩
  | some i =>
    simp only [LineRun.redirect, Option.map_some, cut]
    generalize cutbuf.set i 0 = cutbuf₂
    cases files.openRedirect (stringAt cutbuf₂ (skipSpaces cutbuf₂ (i + 1))) with
    | mk calls opened =>
      cases opened with
      | none => exact ⟨rfl, rfl⟩
      | some file => cases strchr linebuf kPipe <;> simp [LineRun.pipe, LineStrings.runs, Function.comp_def]

/-- Whatever the files are, two lines ask for the same exactly if their strings mean the same. -/
theorem same_meaning_iff (a b : LineStrings) (stdout : StandardOutput) :
    (∀ files, (a.calls files stdout).map LineCall.meaning = (b.calls files stdout).map LineCall.meaning) ↔
      a.redirDest = b.redirDest ∧
      a.subcommand.map (·.rdropWhile isspace) = b.subcommand.map (·.rdropWhile isspace) ∧
      a.command = b.command ∧ a.arg.getD [] = b.arg.getD [] := by
  have hruns : ∀ output, (a.runs output).map LineCall.meaning = (b.runs output).map LineCall.meaning ↔
      a.subcommand.map (·.rdropWhile isspace) = b.subcommand.map (·.rdropWhile isspace) ∧
      a.command = b.command ∧ a.arg.getD [] = b.arg.getD [] := by
    intro output
    unfold LineStrings.runs
    cases a.subcommand <;> cases b.subcommand <;> simp [LineCall.meaning]
  constructor
  · intro h
    -- a file that is there
    have hfound := h ⟨fun _ => (some ⟨0, 0⟩, false), fun _ => .ok ⟨0, 0⟩, fun _ => false⟩
    -- without a redirection no file is looked up
    have hno : ∀ (l : LineStrings) path rest,
        (l.runs stdout).map LineCall.meaning ≠ .findFile path :: rest := by
      intro l path rest
      unfold LineStrings.runs
      cases l.subcommand <;> simp [LineCall.meaning]
    unfold LineStrings.calls at hfound
    cases ha : a.redirDest with
    | none =>
      cases hb : b.redirDest with
      | none =>
        rw [ha, hb] at hfound
        exact ⟨rfl, (hruns stdout).mp hfound⟩
      | some path =>
        rw [ha, hb] at hfound
        exact absurd hfound (hno a path _)
    | some path =>
      cases hb : b.redirDest with
      | none =>
        rw [ha, hb] at hfound
        exact absurd hfound.symm (hno b path _)
      | some path' =>
        rw [ha, hb] at hfound
        have hcons : LineCall.findFile path :: (a.runs (.file ⟨0, 0⟩)).map LineCall.meaning =
            .findFile path' :: (b.runs (.file ⟨0, 0⟩)).map LineCall.meaning := hfound
        rw [List.cons.injEq] at hcons
        obtain ⟨hpath, hrest⟩ := hcons
        cases hpath
        exact ⟨rfl, (hruns _).mp hrest⟩
  · rintro ⟨hredirect, hmeaning⟩ files
    unfold LineStrings.calls
    rw [hredirect]
    cases b.redirDest with
    | none => exact (hruns stdout).mpr hmeaning
    | some redirDest =>
      dsimp only
      split
      · -- nothing is run after an error
        rfl
      · rw [List.map_append, List.map_append, (hruns _).mpr hmeaning]

end MikanSaos

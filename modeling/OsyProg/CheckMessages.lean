import OsyProg.AppendedFile

/-!
`child_read` of `DU02/tail.cpp`, which prints its whole file at each check, and the
messages that the parent writes to it and to the child of `ostatne/main.cpp`. Both wait in the
same loop (`CheckLoop`), so for both it depends on the bytes that are unread when the
last message is written whether every message is followed by an inspection
(`messages_followed_iff`).
-/
namespace OsyProg.CheckMessages
open OsyProg.Bytes OsyProg.Runs OsyProg.CheckLoop

/-- What goes to `stdout`: the lines of `file_info`, of which the size is kept here, bytes
    of the file, and the line behind them. -/
inductive Output
  | info (size : ℕ)
  | data (bytes : Bytes)
  | line
  deriving DecidableEq

/-- The file, the position in `f`, and the output. -/
structure World where
  file : Bytes
  position : ℕ
  output : List Output
  deriving DecidableEq

/-- The statements of `child_read` before its loop, and behind `stat` in it. -/
inductive Body
  | openStat                -- fopen and stat
  | openInfo                -- file_info
  | info                    -- file_info
  | rewind                  -- rewind(f)
  | copy                    -- fread and fwrite, while there is something
  | line                    -- fflush and printf
  deriving DecidableEq

def work (w : World) : Body → Unit → Option (World × Option Body)
  | .openStat, _ => some (w, some .openInfo)
  | .openInfo, _ => some ({ w with output := w.output ++ [.info w.file.length] }, none)
  | .info, _ => some ({ w with output := w.output ++ [.info w.file.length] }, some .rewind)
  | .rewind, _ => some ({ w with position := 0 }, some .copy)
  | .copy, _ =>
    let chunk := (w.file.drop w.position).take 4096
    if chunk = [] then some (w, some .line)
    else some ({ w with position := w.position + chunk.length, output := w.output ++ [.data chunk] }, some .copy)
  | .line, _ => some ({ w with output := w.output ++ [.line] }, none)

/-- How the child inspects its file, in which others may change anything. -/
def childRead : Inspection World Body Unit Bytes where
  start := fun w => (w, some .info)
  work := work
  change := fun w file => { w with file }

/-- The child at its first statement, before a file. -/
def boot (file : Bytes) : State World Body := start { file, position := 0, output := [] } (some .openStat)

/-- Three messages are there at the first `read`, which takes two of them and four bytes of
    the third; the fourth comes during the inspection, and the next `read` begins within
    the third. -/
def queuedRun : List (Move Unit Bytes) :=
  [.write, .write, .write, .work (), .work (), .read 16, .inspect, .write, .work (), .work (), .work (), .work (), .read 8, .close, .read 0]

theorem queuedRun_ends : (exec (step childRead false) (boot []) queuedRun).map State.phase = some .ended := by
  decide +kernel

/-- In every run to the end of the loop of a child, all messages are followed by the start
    of an inspection exactly if the state in which the last one is written promises one. -/
theorem messages_followed_iff (file : Bytes) :
    (∀ moves t, exec (step childRead false) (boot file) moves = some t → t.phase = .ended →
        (Followed moves ↔ LastSeen childRead (boot file) moves)) ∧
      ∀ moves t, exec (step AppendedFile.childRun false) (AppendedFile.boot file) moves = some t → t.phase = .ended →
        (Followed moves ↔ LastSeen AppendedFile.childRun (AppendedFile.boot file) moves) :=
  ⟨fun _ _ run ended => followed_iff (piped_start _ _) run ended, fun _ _ run ended => followed_iff (piped_start _ _) run ended⟩

/-- What the theorem says of that run. -/
theorem messages_followed_sample : Followed queuedRun ↔ LastSeen childRead (boot []) queuedRun := by
  obtain ⟨t, run, ended⟩ := Option.map_eq_some_iff.mp queuedRun_ends
  exact (messages_followed_iff []).1 queuedRun t run ended

/-- The last message of that run is not followed by an inspection. -/
theorem message_lost :
    ¬ ∀ moves t, exec (step childRead false) (boot []) moves = some t → t.phase = .ended → Followed moves := by
  intro all
  obtain ⟨t, run, ended⟩ := Option.map_eq_some_iff.mp queuedRun_ends
  have followed := all queuedRun t run ended [.write, .write, .write, .work (), .work (), .read 16, .inspect]
    [.work (), .work (), .work (), .work (), .read 8, .close, .read 0] rfl
  exact absurd followed (by decide)

end OsyProg.CheckMessages

import OsyProg.Bytes
import OsyProg.Descriptors
import OsyProg.Runs

/-!
The pipes of `DU02/tail.cpp`: the fork loop of `main`, which is also the one of
`ostatne/main.cpp`, and after it the parent that writes `check` and the children
that read. The parent closes each read end, so every pipe gets descriptor 3 for its
read end and the next free one for its write end (`forkLoop_spec`). From the second
child on, closing the read ends recorded for the earlier pipes closes the own one,
and `fopen` gives its number to the file (`child_reads_file`). One file alone works,
from the first `check` to the end of file (`delivers_iff`).
-/
namespace OsyProg.TailPipes
open OsyProg.Bytes OsyProg.Descriptors OsyProg.Runs

/-- What a descriptor may stand for; pipes and files are numbered by the child. -/
inductive Object
  | std
  | readEnd (i : ℕ)
  | writeEnd (i : ℕ)
  | file (i : ℕ)
  deriving DecidableEq, Repr

/-! ### The fork loop -/

/-- The descriptors of the parent, `pipes`, and the descriptors with which each
    child enters its reading loop. -/
structure Setup where
  parent : Fds Object
  pipes : List (ℕ × ℕ)
  children : List (Fds Object)
  deriving DecidableEq

/-- The loop of a child over the pipes made before its own. -/
def closeEarlier (t : Fds Object) (pipes : List (ℕ × ℕ)) : Fds Object :=
  pipes.foldl (fun t ends => close (close t ends.1) ends.2) t

/-- A child from `fork` to its reading loop, where it has opened its file. -/
def childStart (t : Fds Object) (earlier : List (ℕ × ℕ)) (ends : ℕ × ℕ) (i : ℕ) : Fds Object :=
  let t := close t ends.2
  let t := closeEarlier t earlier
  (alloc t (.file i)).1

/-- One round of the fork loop. -/
def forkOne (s : Setup) : Setup :=
  let i := s.pipes.length
  let (t, ends) := pipe s.parent (.readEnd i) (.writeEnd i)
  { parent := close t ends.1
    pipes := s.pipes ++ [ends]
    children := s.children ++ [childStart t s.pipes ends i] }

/-- The state after the fork loop over `count` files. -/
def forkLoop : ℕ → Setup
  | 0 => { parent := [some .std, some .std, some .std], pipes := [], children := [] }
  | count + 1 => forkOne (forkLoop count)

/-- The descriptor of child `i` is the read end of its pipe, and of all processes
    only the parent has the write end. -/
def ReadsItsPipe (s : Setup) (i : ℕ) : Prop :=
  ∃ fds ends, s.children[i]? = some fds ∧ s.pipes[i]? = some ends ∧ lookup fds ends.1 = some (.readEnd i) ∧
    lookup s.parent ends.2 = some (.writeEnd i) ∧ ∀ other ∈ s.children, some (Object.writeEnd i) ∉ other

/-! ### The parent and the children -/

/-- Where the parent is in its loop: before `access`, before the write to a pipe,
    before the close of a write end, in `waitpid`, or ended by SIGPIPE. -/
inductive ParentPc
  | test
  | check (i : ℕ)
  | close (i : ℕ)
  | wait
  | killed
  deriving DecidableEq

/-- A child: its descriptors, the offset in its file, whether it is in its reading
    loop, what it has read, and whether a read has returned 0. -/
structure Child where
  fds : Fds Object
  position : ℕ
  running : Bool
  received : Bytes
  eof : Bool

/-- The processes, the bytes in each pipe, and all that the parent wrote to it. -/
structure World where
  parent : Fds Object
  pc : ParentPc
  child : ℕ → Child
  pending : ℕ → Bytes
  written : ℕ → Bytes

/-- `"check\n"` -/
def check : Bytes := ascii ['c', 'h', 'e', 'c', 'k', '\n']

/-- Some process has the object open. -/
def Held (s : Setup) (w : World) (o : Object) : Prop :=
  some o ∈ w.parent ∨ ∃ i < s.children.length, some o ∈ (w.child i).fds

instance (s : Setup) (w : World) (o : Object) : Decidable (Held s w o) := inferInstanceAs (Decidable (_ ∨ _))

/-- The loop of the parent; `stop` tells whether the file is there. A write to a
    pipe that no process reads ends the parent. -/
def parentStep (s : Setup) (w : World) (stop : Bool) : Option World :=
  match w.pc with
  | .test => some { w with pc := if stop then .close 0 else .check 0 }
  | .check i =>
    match s.pipes[i]? with
    | none => some { w with pc := .test }
    | some ends =>
      match lookup w.parent ends.2 with
      | some (.writeEnd j) =>
        if Held s w (.readEnd j) then
          some { w with
            pc := .check (i + 1)
            pending := Function.update w.pending j (w.pending j ++ check)
            written := Function.update w.written i (w.written i ++ check) }
        else some { w with pc := .killed, parent := [] }
      | _ => some { w with pc := .check (i + 1) }
  | .close i =>
    match s.pipes[i]? with
    | none => some { w with pc := .wait }
    | some ends => some { w with pc := .close (i + 1), parent := close w.parent ends.2 }
  | .wait | .killed => none

/-- A read of the loop of child `i` that returns `bytes`: none of them leave the
    loop, and the process ends. -/
def got (w : World) (i : ℕ) (bytes : Bytes) (position : ℕ) : World :=
  let c := w.child i
  let c :=
    if bytes = [] then { c with fds := [], running := false, eof := true }
    else { c with received := c.received ++ bytes, position }
  { w with child := Function.update w.child i c }

/-- `read(pipe_r, buf, 16)` of child `i`, returning `r` bytes if it can. A read of a
    pipe returns 0 when it is empty and no process has its write end; one of the file
    goes on at its offset, which the answer to `check` moves to the end. A read
    that fails changes nothing. -/
def readStep (s : Setup) (files : ℕ → Bytes) (w : World) (i r : ℕ) : Option World :=
  if (w.child i).running then
    match lookup (w.child i).fds ((s.pipes[i]?.map Prod.fst).getD 0) with
    | some (.readEnd j) =>
      let bytes := (w.pending j).take r
      if bytes.length = r ∧ r ≤ 16 ∧ (r = 0 → w.pending j = [] ∧ ¬ Held s w (.writeEnd j)) then
        some (got { w with pending := Function.update w.pending j ((w.pending j).drop r) } i bytes
          (w.child i).position)
      else none
    | some (.file j) =>
      let bytes := ((files j).drop (w.child i).position).take 16
      let position := if check <+: bytes then (files j).length else (w.child i).position + bytes.length
      if bytes.length = r then some (got w i bytes position) else none
    | some .std => none
    | some (.writeEnd _) | none => some w
  else none

/-- A statement of the parent, or a read of a child. -/
inductive Move
  | parent (stop : Bool)
  | read (i r : ℕ)

def step (s : Setup) (files : ℕ → Bytes) (w : World) : Move → Option World
  | .parent stop => parentStep s w stop
  | .read i r => readStep s files w i r

/-- The state after the fork loop. -/
def boot (s : Setup) : World :=
  { parent := s.parent
    pc := .test
    child := fun i =>
      { fds := s.children[i]?.getD [], position := 0, running := i < s.children.length, received := [], eof := false }
    pending := fun _ => []
    written := fun _ => [] }

/-- What child `i` has read is what the parent wrote for it, up to the bytes still
    in the pipe; it sees the end of file only when it has read everything and the
    parent has closed the write end, and then its read does return 0. -/
def Delivered (s : Setup) (files : ℕ → Bytes) (w : World) (i : ℕ) : Prop :=
  let closed := some (Object.writeEnd i) ∉ w.parent
  (w.child i).received ++ w.pending i = w.written i ∧
    ((w.child i).eof = true → closed ∧ (w.child i).received = w.written i) ∧
    (closed → (w.child i).running = true → w.pending i = [] →
      ∃ t, step s files w (.read i 0) = some t ∧ (t.child i).eof = true)

/-- Every child has its pipe after the fork loop, and all that is written to it
    arrives. -/
def Delivers (files : ℕ → Bytes) (count : ℕ) : Prop :=
  (∀ i < count, ReadsItsPipe (forkLoop count) i) ∧
    ∀ w, Reachable (step (forkLoop count) files) (boot (forkLoop count)) w →
      ∀ i < count, Delivered (forkLoop count) files w i

/-! ### Where the descriptors go -/

/-- The descriptors of the parent after a number of rounds. -/
def parentFd (count fd : ℕ) : Option Object :=
  if fd < 3 then some .std
  else if fd = 3 then none
  else if fd < 4 + count then some (.writeEnd (fd - 4))
  else none

/-- The descriptors of a child in its reading loop. -/
def childFd (i fd : ℕ) : Option Object :=
  if fd < 3 then some .std
  else if fd = 3 then some (if i = 0 then .readEnd 0 else .file i)
  else if fd = 4 ∧ i = 0 then some (.file 0)
  else none

theorem lookup_closeEarlier (t : Fds Object) (pipes : List (ℕ × ℕ)) (fd : ℕ) :
    lookup (closeEarlier t pipes) fd = if ∃ ends ∈ pipes, fd = ends.1 ∨ fd = ends.2 then none else lookup t fd := by
  induction pipes generalizing t with
  | nil => simp [closeEarlier]
  | cons ends rest ih =>
    rw [closeEarlier, List.foldl_cons, ← closeEarlier, ih, lookup_close, lookup_close]
    simp only [List.mem_cons, exists_eq_or_imp]
    by_cases first : fd = ends.1
    · simp [first]
    · by_cases second : fd = ends.2
      · simp [second]
      · rw [if_neg second, if_neg first]
        exact if_congr (by simp [first, second]) rfl rfl

/-- The descriptors that `pipe` gives the parent in a round. -/
theorem pipe_spec {t : Fds Object} {count : ℕ} (before : ∀ fd, lookup t fd = parentFd count fd) :
    (pipe t (.readEnd count) (.writeEnd count)).2 = (3, 4 + count) ∧
      ∀ fd, lookup (pipe t (.readEnd count) (.writeEnd count)).1 fd =
        if fd = 3 then some (.readEnd count) else parentFd (count + 1) fd := by
  have first : lowest t = 3 := by
    apply lowest_eq
    · rw [before, parentFd]; simp
    · intro k below
      rw [before, parentFd]; simp [below]
  have afterFirst : ∀ fd, lookup (alloc t (.readEnd count)).1 fd =
      if fd = 3 then some (.readEnd count) else parentFd count fd := by
    intro fd
    rw [lookup_alloc, first, before]
  have second : lowest (alloc t (Object.readEnd count)).1 = 4 + count := by
    apply lowest_eq
    · rw [afterFirst, if_neg (by omega), parentFd, if_neg (by omega), if_neg (by omega), if_neg (by omega)]
    · intro k below
      rw [afterFirst]
      split
      · simp
      · next other =>
        rw [parentFd, if_neg other, if_pos below]
        split <;> simp
  constructor
  · show (lowest t, lowest (alloc t (Object.readEnd count)).1) = _
    rw [first, second]
  · intro fd
    show lookup (alloc (alloc t (Object.readEnd count)).1 (.writeEnd count)).1 fd = _
    rw [lookup_alloc, second, afterFirst]
    unfold parentFd
    by_cases new : fd = 4 + count
    · subst new
      rw [if_pos rfl, if_neg (by omega), if_neg (by omega), if_neg (by omega), if_pos (by omega)]
      congr 2
      omega
    · rw [if_neg new]
      by_cases old : fd < 4 + count
      · simp [old, show fd < 4 + (count + 1) by omega]
      · simp [old, show ¬ fd < 4 + (count + 1) by omega]

/-- The descriptors of the child forked in a round. -/
theorem childStart_spec {t : Fds Object} {i : ℕ}
    (inherited : ∀ fd, lookup t fd = if fd = 3 then some (.readEnd i) else parentFd (i + 1) fd) (fd : ℕ) :
    lookup (childStart t ((List.range i).map fun k => (3, 4 + k)) (3, 4 + i) i) fd = childFd i fd := by
  let closed := closeEarlier (close t (4 + i)) ((List.range i).map fun k => (3, 4 + k))
  have earlier : ∀ fd, (∃ ends ∈ (List.range i).map fun k => (3, 4 + k), fd = ends.1 ∨ fd = ends.2) ↔
      0 < i ∧ fd = 3 ∨ 4 ≤ fd ∧ fd < 4 + i := by
    intro fd
    simp only [List.mem_map, List.mem_range, exists_exists_and_eq_and]
    constructor
    · rintro ⟨k, below, rfl | rfl⟩
      · exact .inl ⟨by omega, rfl⟩
      · exact .inr ⟨by omega, by omega⟩
    · rintro (⟨some, rfl⟩ | ⟨above, below⟩)
      · exact ⟨0, some, .inl rfl⟩
      · exact ⟨fd - 4, by omega, .inr (by omega)⟩
  -- Of the pipes only the own read end can be left, and it is closed with those of the earlier ones.
  have left : ∀ fd, lookup closed fd =
      if fd < 3 then some .std else if fd = 3 ∧ i = 0 then some (.readEnd i) else none := by
    intro fd
    rw [lookup_closeEarlier, lookup_close, inherited]
    simp only [earlier]
    unfold parentFd
    split_ifs <;> first | rfl | omega
  have opened : lowest closed = if i = 0 then 4 else 3 := by
    apply lowest_eq
    · rw [left]
      split_ifs <;> first | rfl | omega
    · intro k below
      rw [left]
      split_ifs at below ⊢ <;> first | omega | simp
  show lookup (alloc closed (.file i)).1 fd = _
  rw [lookup_alloc, opened, left]
  unfold childFd
  split_ifs <;> first | rfl | omega | simp_all

/-- After the fork loop every pipe has descriptor 3 and one more of its own. -/
theorem forkLoop_spec (count : ℕ) :
    (forkLoop count).pipes = (List.range count).map (fun k => (3, 4 + k)) ∧
      (∀ fd, lookup (forkLoop count).parent fd = parentFd count fd) ∧
      (forkLoop count).children.length = count ∧
      ∀ i < count, ∃ fds, (forkLoop count).children[i]? = some fds ∧ ∀ fd, lookup fds fd = childFd i fd := by
  induction count with
  | zero =>
    refine ⟨rfl, ?_, rfl, fun i below => absurd below (Nat.not_lt_zero i)⟩
    intro fd
    show lookup [some Object.std, some .std, some .std] fd = _
    rcases fd with _ | _ | _ | fd
    · rfl
    · rfl
    · rfl
    · rw [lookup, List.getElem?_eq_none (by simp), parentFd, if_neg (by omega)]
      split
      · rfl
      · rw [if_neg (by omega)]
        rfl
  | succ count ih =>
    obtain ⟨pipes, parent, length, children⟩ := ih
    have index : (forkLoop count).pipes.length = count := by simp [pipes]
    obtain ⟨ends, opened⟩ := pipe_spec parent
    have round : forkLoop (count + 1) =
        { parent := close (pipe (forkLoop count).parent (.readEnd count) (.writeEnd count)).1 3
          pipes := (forkLoop count).pipes ++ [(3, 4 + count)]
          children := (forkLoop count).children ++
            [childStart (pipe (forkLoop count).parent (.readEnd count) (.writeEnd count)).1
              (forkLoop count).pipes (3, 4 + count) count] } := by
      show forkOne (forkLoop count) = _
      simp only [forkOne, index, ends]
    rw [round]
    refine ⟨?_, ?_, by simp [length], ?_⟩
    · show (forkLoop count).pipes ++ [(3, 4 + count)] = _
      rw [pipes, List.range_succ, List.map_append]
      rfl
    · intro fd
      rw [lookup_close, opened]
      split
      · next three => simp [parentFd, three]
      · rfl
    · intro i below
      rw [List.getElem?_append, length]
      rcases Nat.lt_succ_iff_lt_or_eq.mp below with earlier | rfl
      · rw [if_pos earlier]
        exact children i earlier
      · rw [if_neg (Nat.lt_irrefl i), Nat.sub_self]
        refine ⟨_, rfl, ?_⟩
        intro fd
        rw [pipes]
        exact childStart_spec opened fd

/-- From the second child on, the descriptor passed to the reading loop is the file. -/
theorem child_reads_file {count i : ℕ} (later : 0 < i) (below : i < count) :
    ∃ fds ends, (forkLoop count).children[i]? = some fds ∧ (forkLoop count).pipes[i]? = some ends ∧
      lookup fds ends.1 = some (.file i) := by
  obtain ⟨pipes, -, -, children⟩ := forkLoop_spec count
  obtain ⟨fds, child, descriptors⟩ := children i below
  refine ⟨fds, (3, 4 + i), child, by simp [pipes, below], ?_⟩
  rw [descriptors, childFd, if_neg (by omega), if_pos rfl, if_neg (by omega)]

/-! ### One child -/

/-- The state after one round of the fork loop. -/
def one : Setup :=
  { parent := [some .std, some .std, some .std, none, some (.writeEnd 0)]
    pipes := [(3, 4)]
    children := [[some .std, some .std, some .std, some (.readEnd 0), some (.file 0)]] }

theorem forkLoop_one : forkLoop 1 = one := by decide

/-- The parent until it closes the write end, and after. -/
def ParentOk (w : World) : Prop :=
  (w.parent = [some .std, some .std, some .std, none, some (.writeEnd 0)] ∧
      (w.pc = .test ∨ w.pc = .check 0 ∨ w.pc = .check 1 ∨ w.pc = .close 0)) ∨
    (w.parent = [some .std, some .std, some .std, none, none] ∧ (w.pc = .close 1 ∨ w.pc = .wait))

structure Invariant (w : World) : Prop where
  parent : ParentOk w
  alone : ∀ i, 0 < i → (w.child i).running = false
  reading : (w.child 0).running = true →
    (w.child 0).fds = [some .std, some .std, some .std, some (.readEnd 0), some (.file 0)] ∧ (w.child 0).eof = false
  ended : (w.child 0).running = false →
    (w.child 0).fds = [] ∧ some (Object.writeEnd 0) ∉ w.parent ∧ w.pending 0 = []
  bytes : (w.child 0).received ++ w.pending 0 = w.written 0

theorem start_invariant : Invariant (boot one) := by
  refine ⟨.inl ⟨rfl, .inl rfl⟩, ?_, fun _ => ⟨rfl, rfl⟩, ?_, rfl⟩
  · intro i later
    simp [boot, one]
    omega
  · intro ended
    simp [boot, one] at ended

theorem parentStep_invariant {files : ℕ → Bytes} {w t : World} {stop : Bool}
    (taken : step one files w (.parent stop) = some t) (holds : Invariant w) : Invariant t := by
  obtain ⟨parent, alone, reading, ended, bytes⟩ := holds
  rcases parent with ⟨fds, pc⟩ | ⟨fds, pc⟩
  · have running : (w.child 0).running = true := by
      by_contra stopped
      have := (ended (by simpa using stopped)).2.1
      simp [fds] at this
    have ended' : ∀ P : Prop, (w.child 0).running = false → P := by simp [running]
    rcases pc with pc | pc | pc | pc
    · obtain rfl : { w with pc := if stop then .close 0 else .check 0 } = t := by
        simpa [step, parentStep, pc] using taken
      refine ⟨.inl ⟨fds, ?_⟩, alone, reading, ended' _, bytes⟩
      cases stop
      · exact .inr (.inl rfl)
      · exact .inr (.inr (.inr rfl))
    · have reader : Held one w (.readEnd 0) := .inr ⟨0, by decide, by rw [(reading running).1]; simp⟩
      have lookedUp : lookup w.parent 4 = some (.writeEnd 0) := by rw [fds]; rfl
      simp only [step, parentStep, pc] at taken
      change (match lookup w.parent 4 with | some (.writeEnd j) => _ | _ => _) = _ at taken
      simp only [lookedUp, if_pos reader] at taken
      obtain rfl := Option.some.inj taken
      refine ⟨.inl ⟨fds, .inr (.inr (.inl rfl))⟩, alone, reading, ended' _, ?_⟩
      simp only [Function.update_self, ← List.append_assoc, bytes]
    · obtain rfl : { w with pc := .test } = t := by simpa [step, parentStep, pc, one] using taken
      exact ⟨.inl ⟨fds, .inl rfl⟩, alone, reading, ended' _, bytes⟩
    · obtain rfl : { w with pc := .close 1, parent := close w.parent 4 } = t := by
        simpa [step, parentStep, pc, one] using taken
      exact ⟨.inr ⟨by rw [fds]; rfl, .inl rfl⟩, alone, reading, ended' _, bytes⟩
  · rcases pc with pc | pc
    · obtain rfl : { w with pc := .wait } = t := by simpa [step, parentStep, pc, one] using taken
      exact ⟨.inr ⟨fds, .inr rfl⟩, alone, reading, ended, bytes⟩
    · simp [step, parentStep, pc] at taken

/-- Only the child of the file reads, and it takes the front of its pipe; a read that returns 0 finds the pipe
    empty and the write end closed. -/
theorem read_cases {files : ℕ → Bytes} {w t : World} {i r : ℕ} (taken : step one files w (.read i r) = some t)
    (holds : Invariant w) :
    i = 0 ∧ (w.child 0).running = true ∧ ((w.pending 0).take r).length = r ∧
      (r = 0 → w.pending 0 = [] ∧ ¬ Held one w (.writeEnd 0)) ∧
      t = got { w with pending := Function.update w.pending 0 ((w.pending 0).drop r) } 0 ((w.pending 0).take r)
        (w.child 0).position := by
  simp only [step, readStep] at taken
  split at taken
  case isFalse => cases taken
  next running =>
  have first : i = 0 := by
    by_contra later
    rw [holds.alone i (by omega)] at running
    cases running
  subst first
  have lookedUp : lookup (w.child 0).fds ((one.pipes[0]?.map Prod.fst).getD 0) = some (.readEnd 0) := by
    rw [(holds.reading running).1]; rfl
  rw [lookedUp] at taken
  simp only at taken
  split at taken
  · next fits =>
    exact ⟨rfl, running, fits.1, fits.2.2, (Option.some.inj taken).symm⟩
  · cases taken

theorem readStep_invariant {files : ℕ → Bytes} {w t : World} {i r : ℕ}
    (taken : step one files w (.read i r) = some t) (holds : Invariant w) : Invariant t := by
  obtain ⟨-, running, length, atEnd, rfl⟩ := read_cases taken holds
  have alone : ∀ (c : Child) i, 0 < i → (Function.update w.child 0 c i).running = false := by
    intro c i later
    rw [Function.update_of_ne (by omega)]
    exact holds.alone i later
  by_cases empty : (w.pending 0).take r = []
  · have zero : r = 0 := by rw [← length, empty]; rfl
    obtain ⟨drained, closed⟩ := atEnd zero
    refine ⟨holds.parent, alone _, ?_, ?_, ?_⟩
    · simp [got, empty]
    · intro _
      simp only [got, if_pos empty, Function.update_self]
      rw [drained, List.drop_nil]
      exact ⟨trivial, fun held => closed (.inl held), rfl⟩
    · have bytes := holds.bytes
      rw [drained] at bytes
      simpa [got, empty, drained] using bytes
  · refine ⟨holds.parent, alone _, ?_, ?_, ?_⟩
    · simpa [got, empty] using holds.reading
    · simp [got, empty, running]
    · simp only [got, if_neg empty, Function.update_self, List.append_assoc, List.take_append_drop]
      exact holds.bytes

theorem step_invariant (files : ℕ → Bytes) (w : World) (move : Move) (t : World) (holds : Invariant w)
    (taken : step one files w move = some t) : Invariant t := by
  cases move with
  | parent stop => exact parentStep_invariant taken holds
  | read i r => exact readStep_invariant taken holds

/-- What the invariant says about the bytes and the end of file. -/
theorem delivered (files : ℕ → Bytes) {w : World} (holds : Invariant w) : Delivered one files w 0 := by
  refine ⟨holds.bytes, ?_, ?_⟩
  · intro eof
    have stopped : (w.child 0).running = false := by
      by_contra running
      have := (holds.reading (by simpa using running)).2
      rw [eof] at this
      cases this
    obtain ⟨-, closed, drained⟩ := holds.ended stopped
    refine ⟨closed, ?_⟩
    have bytes := holds.bytes
    rwa [drained, List.append_nil] at bytes
  · intro closed running drained
    have fds := (holds.reading running).1
    have lookedUp : lookup (w.child 0).fds ((one.pipes[0]?.map Prod.fst).getD 0) = some (.readEnd 0) := by
      rw [fds]; rfl
    have unheld : ¬ Held one w (.writeEnd 0) := by
      rintro (parent | ⟨i, below, child⟩)
      · exact closed parent
      · obtain rfl : i = 0 := by simpa [one] using below
        simp [fds] at child
    refine ⟨got { w with pending := Function.update w.pending 0 [] } 0 [] (w.child 0).position, ?_, by simp [got]⟩
    simp [step, readStep, running, lookedUp, drained, unheld]

/-- With two files or more the second child reads its file. -/
theorem not_delivers (files : ℕ → Bytes) {count : ℕ} (more : 2 ≤ count) : ¬ Delivers files count := by
  rintro ⟨reads, -⟩
  obtain ⟨fds, ends, child, pipe, descriptor, -⟩ := reads 1 more
  obtain ⟨fds', ends', child', pipe', file⟩ := child_reads_file (i := 1) (by omega) more
  obtain rfl := Option.some.inj (child.symm.trans child')
  obtain rfl := Option.some.inj (pipe.symm.trans pipe')
  rw [descriptor] at file
  cases file

/-- The fork loop and the processes after it do what they should if and only if there is one file. -/
theorem delivers_iff (files : ℕ → Bytes) (count : ℕ) (valid : 1 ≤ count) : Delivers files count ↔ count = 1 := by
  constructor
  · intro delivers
    by_contra other
    exact not_delivers files (by omega) delivers
  · rintro rfl
    rw [Delivers, forkLoop_one]
    constructor
    · intro i below
      obtain rfl : i = 0 := by omega
      exact ⟨_, _, rfl, rfl, rfl, rfl, by simp [one]⟩
    · intro w reached i below
      obtain rfl : i = 0 := by omega
      exact delivered files (reachable_kept (step_invariant files) start_invariant reached)

theorem delivers_iff_sample : Delivers (fun _ => check) 1 := (delivers_iff _ 1 (by decide)).mpr rfl

/-- Two files: descriptor 3 of the second child is its file. -/
theorem two_files : ¬ Delivers (fun _ => check) 2 := not_delivers _ (by decide)

end OsyProg.TailPipes

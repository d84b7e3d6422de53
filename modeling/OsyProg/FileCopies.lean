import OsyProg.InputLines
import OsyProg.PacedSending

/-!
Files that are sent over a socket and stored by the receiver. In `file_edit` the client
sends a block with the name and then the file, and the server reads each of them with one
call of `read`; what it stores is the file when the first call gets the whole block and
the second the whole file (`fileEdit_iff`). In `animal3` the client writes its whole
buffer into the file after each call of `read`, also after the one that finds the end of
the stream, so it stores more than it gets (`length_receive`).
-/
namespace OsyProg.FileCopies
open OsyProg.Bytes OsyProg.CStrings OsyProg.InputLines OsyProg.PacedSending

/-! ### The client of file_edit -/

/-- `name_buf` after `memset` and `strncpy`. -/
def nameBlock (outName : Bytes) : Bytes := outName.take 256 ++ List.replicate (256 - outName.length) 0

/-- What the loop over the file writes; it ends only after it has written nothing. -/
def sendFile (file : Bytes) : Bytes :=
  let fileBuf := file.take 4096
  fileBuf ++ if fileBuf = [] then [] else sendFile (file.drop 4096)
termination_by file.length
decreasing_by
  rename_i more
  have some_ := List.length_pos_iff.mpr fun none : file = [] => more (congrArg (List.take 4096) none)
  rw [List.length_drop]
  omega

/-- All that the client writes to the socket. -/
def clientSends (outName file : Bytes) : Bytes := nameBlock outName ++ sendFile file

theorem sendFile_eq (file : Bytes) : sendFile file = file := by
  induction length : file.length using Nat.strongRecOn generalizing file with
  | ind n ih =>
    rw [sendFile]
    split
    case isTrue empty =>
      have none : file = [] := by simpa using empty
      rw [none, List.take_nil, List.append_nil]
    case isFalse more =>
      have some_ := List.length_pos_iff.mpr fun none : file = [] => more (by rw [none, List.take_nil])
      rw [ih _ (by rw [List.length_drop]; omega) (file.drop 4096) rfl, List.take_append_drop]

theorem length_nameBlock (outName : Bytes) : (nameBlock outName).length = 256 := by
  rw [nameBlock, List.length_append, List.length_take, List.length_replicate]
  omega

/-- The beginning of the block, and what is behind the name. -/
theorem take_nameBlock (outName : Bytes) {n : ℕ} (inside : n ≤ 256) :
    (nameBlock outName).take n = outName.take n ++ List.replicate (n - outName.length) 0 := by
  rw [nameBlock, List.take_append, List.take_take, Nat.min_eq_left inside, List.length_take, List.take_replicate]
  congr 2
  omega

theorem drop_nameBlock {outName : Bytes} {n : ℕ} (behind : outName.length ≤ n) (inside : n ≤ 256) :
    (nameBlock outName).drop n = List.replicate (256 - n) 0 := by
  rw [nameBlock, List.drop_append, List.drop_of_length_le (by rw [List.length_take]; omega), List.nil_append, List.length_take,
    List.drop_replicate]
  congr 1
  omega

/-! ### The server of file_edit -/

/-- A call of `read` with room for `size` bytes, and what is left of the stream: it gets
    `more + 1` bytes, as far as there is room and as there are bytes. -/
def read (size more : ℕ) (stream : Bytes) : Bytes × Bytes :=
  (stream.take (min (more + 1) size), stream.drop (min (more + 1) size))

/-- `read_mame`: the array `out_name`, which a new process has full of zeros, and what is
    left of the stream. -/
def readMame (more : ℕ) (stream : Bytes) : Bytes × Bytes :=
  let (got, rest) := read 256 more stream
  (got ++ (List.replicate 256 0).drop got.length, rest)

/-- `save_data_to_file`: the file that is stored, with its name. There is none when `open`
    finds no end of the name in the array, or no name. -/
def saveDataToFile (more : ℕ) (outName stream : Bytes) : Option (Bytes × Bytes) :=
  if 0 ∉ outName ∨ cString outName = [] then none else some (cString outName, (read 4092 more stream).1)

/-- A client and the process of the server for it; the two calls of `read` get
    `first + 1` and `second + 1` bytes. -/
def fileEdit (first second : ℕ) (outName file : Bytes) : Option (Bytes × Bytes) :=
  let (array, rest) := readMame first (clientSends outName file)
  saveDataToFile second array rest

/-- The first call gets the whole block, and the second the whole file; or it gets the name
    without the whole block, and the file cannot be told from the rest of the block. -/
def Intact (first second : ℕ) (outName file : Bytes) : Prop :=
  outName ≠ [] ∧ outName.length < 256 ∧
    (255 ≤ first ∧ file.length ≤ min (second + 1) 4092 ∨
      first < 255 ∧ outName.length ≤ first + 1 ∧ file.length = min (second + 1) 4092 ∧ file = List.replicate file.length 0)

instance (first second : ℕ) (outName file : Bytes) : Decidable (Intact first second outName file) := by
  unfold Intact
  infer_instance

section
variable {first second : ℕ} {outName file : Bytes}

/-- The zeros in front of a file are a part of it only when it consists of zeros. -/
theorem take_zeros {k n : ℕ} (some_ : 0 < k) :
    (List.replicate k 0 ++ file).take n = file ↔ file.length = n ∧ file = List.replicate file.length 0 := by
  constructor
  · intro same
    have length := congrArg List.length same
    rw [List.length_take, List.length_append, List.length_replicate] at length
    refine ⟨by omega, List.eq_replicate_iff.mpr ⟨rfl, ?_⟩⟩
    -- Each byte is a zero, or the byte `k` places before it.
    have zero : ∀ i (inside : i < file.length), file[i] = 0 := by
      intro i
      induction i using Nat.strongRecOn with
      | ind i ih =>
        intro inside
        have here : file[i]? = (List.replicate k 0 ++ file)[i]? := by
          conv_lhs => rw [← same]
          exact List.getElem?_take_of_lt (by omega)
        by_cases front : i < k
        · rw [List.getElem?_append_left (by rwa [List.length_replicate]), List.getElem?_eq_getElem inside] at here
          simpa [front] using here
        · rw [List.getElem?_append_right (by rw [List.length_replicate]; omega), List.length_replicate,
            List.getElem?_eq_getElem inside, List.getElem?_eq_getElem (by omega), Option.some.injEq] at here
          rw [here, ih (i - k) (by omega) (by omega)]
    intro c there
    obtain ⟨i, inside, rfl⟩ := List.getElem_of_mem there
    exact zero i inside
  · rintro ⟨length, zeros⟩
    rw [zeros, List.replicate_append_replicate, List.take_replicate, ← length]
    congr 1
    omega

/-- The first call gets the whole block. -/
theorem fileEdit_block (plain : 0 ∉ outName) (whole : 255 ≤ first) :
    fileEdit first second outName file =
      if outName.length < 256 ∧ outName ≠ [] then some (outName, file.take (min (second + 1) 4092)) else none := by
  have block : min (first + 1) 256 = (nameBlock outName).length := by rw [length_nameBlock]; omega
  have name : readMame first (clientSends outName file) = (nameBlock outName, file) := by
    have nothing : (List.replicate 256 (0 : UInt8)).drop (nameBlock outName).length = [] := by
      rw [length_nameBlock, List.drop_replicate, Nat.sub_self, List.replicate_zero]
    simp only [readMame, read, clientSends, block, List.take_left, List.drop_left, nothing, List.append_nil, sendFile_eq]
  rw [fileEdit, name]
  dsimp only
  rw [saveDataToFile]
  by_cases fits : outName.length < 256
  · have string : cString (nameBlock outName) = outName := by
      rw [nameBlock, cString_zeros, List.take_of_length_le (by omega), cString_self plain]
    have ends : 0 ∈ nameBlock outName :=
      List.mem_append_right _ (List.mem_replicate.mpr ⟨by omega, rfl⟩)
    simp [string, ends, fits, read]
  · have array : nameBlock outName = outName.take 256 := by rw [nameBlock, Nat.sub_eq_zero_of_le (by omega)]; simp
    have noEnd : 0 ∉ nameBlock outName := by
      rw [array]
      exact fun there => plain (List.mem_of_mem_take there)
    rw [if_pos (.inl noEnd), if_neg fun both => fits both.1]

/-- The first call gets a part of the block: what it gets of the name is the name of the file,
    and the second call gets the rest of the block first. -/
theorem fileEdit_part (plain : 0 ∉ outName) (part : first < 255) :
    fileEdit first second outName file =
      if outName = [] then none
      else some (outName.take (first + 1), ((nameBlock outName).drop (first + 1) ++ file).take (min (second + 1) 4092)) := by
  have count : min (first + 1) 256 = first + 1 := by omega
  have short : first + 1 ≤ (nameBlock outName).length := by rw [length_nameBlock]; omega
  have plainPart : 0 ∉ outName.take (first + 1) := fun there => plain (List.mem_of_mem_take there)
  have length : ((nameBlock outName).take (first + 1)).length = first + 1 := by rw [List.length_take, Nat.min_eq_left short]
  have left : (List.replicate 256 (0 : UInt8)).drop (first + 1) = List.replicate (255 - first) 0 := by
    rw [List.drop_replicate]
    congr 1
    omega
  have array : readMame first (clientSends outName file) =
      ((nameBlock outName).take (first + 1) ++ List.replicate (255 - first) 0, (nameBlock outName).drop (first + 1) ++ file) := by
    simp only [readMame, read, clientSends, count, List.take_append_of_le_length short, List.drop_append_of_le_length short,
      length, left, sendFile_eq]
  have name : cString ((nameBlock outName).take (first + 1) ++ List.replicate (255 - first) 0) = outName.take (first + 1) := by
    rw [cString_zeros, take_nameBlock outName (by omega), cString_zeros, cString_self plainPart]
  have ends : 0 ∈ (nameBlock outName).take (first + 1) ++ List.replicate (255 - first) 0 :=
    List.mem_append_right _ (List.mem_replicate.mpr ⟨by omega, rfl⟩)
  rw [fileEdit, array]
  dsimp only
  rw [saveDataToFile, name, read]
  by_cases none : outName = []
  · simp [none]
  · simp [ends, none]

theorem fileEdit_iff (plain : 0 ∉ outName) :
    fileEdit first second outName file = some (outName, file) ↔ Intact first second outName file := by
  by_cases none : outName = []
  · subst none
    rcases Nat.lt_or_ge first 255 with part | whole
    · simp [fileEdit_part plain part, Intact]
    · simp [fileEdit_block plain whole, Intact]
  rcases Nat.lt_or_ge first 255 with part | whole
  · have notWhole : ¬ 255 ≤ first := by omega
    rw [fileEdit_part plain part, if_neg none, Option.some.injEq, Prod.mk.injEq, List.take_eq_self_iff]
    by_cases name : outName.length ≤ first + 1
    · have short : outName.length < 256 := by omega
      rw [drop_nameBlock name (by omega), take_zeros (by omega)]
      simp [Intact, none, name, short, part, notWhole]
    · simp [Intact, name, notWhole]
  · have notPart : ¬ first < 255 := by omega
    rw [fileEdit_block plain whole]
    by_cases fits : outName.length < 256
    · simp [Intact, fits, none, whole, notPart]
    · simp [Intact, fits]

end

/-! ### animal3 -/

/-- What the given rounds of `send_data` write, each as many bytes of the file as it has read. -/
def written (animal : Bytes) : List Round → Bytes
  | [] => []
  | round :: later => animal.take round.bytes ++ written (animal.drop round.bytes) later

/-- What `send_data` writes to the socket; a file smaller than its buffer makes it divide by zero. -/
def sendData (animal : Bytes) : Option Bytes := (animal3 animal.length).map (written animal)

/-- The loop of the client: what a call of `read` gets is at the beginning of `buf`, and all of
    `buf` is written to the file, also after the call that finds the end of the stream. -/
def receive (buf : Bytes) : List (Piece 4096) → Bytes
  | [] => buf
  | piece :: later =>
    let buf := piece.bytes ++ buf.drop piece.bytes.length
    buf ++ receive buf later

theorem written_eq {buf : ℕ} (some_ : 0 < buf) (pause : ℕ) (animal : Bytes) :
    written animal (sendLoopAfter buf pause animal.length) = animal := by
  induction length : animal.length using Nat.strongRecOn generalizing animal with
  | ind n ih =>
    subst length
    rw [sendLoopAfter, written]
    by_cases none : animal = []
    · simp [none, written]
    · have more := List.length_pos_iff.mpr none
      have goesOn : min buf animal.length ≠ 0 := by omega
      have left : animal.length - min buf animal.length = (animal.drop (min buf animal.length)).length := by rw [List.length_drop]
      have shorter : (animal.drop (min buf animal.length)).length < animal.length := by rw [← left]; omega
      have later := ih _ shorter _ rfl
      dsimp only
      rw [if_neg goesOn, left, later, List.take_append_drop]

theorem sendData_eq {animal sent : Bytes} (sends : sendData animal = some sent) : sent = animal := by
  obtain ⟨rounds, loop, rfl⟩ := Option.map_eq_some_iff.mp sends
  obtain ⟨pause, -, rfl⟩ := Option.map_eq_some_iff.mp loop
  exact written_eq (by decide) _ animal

theorem length_receive {buf : Bytes} (size : buf.length = 4096) (pieces : List (Piece 4096)) :
    (receive buf pieces).length = 4096 * (pieces.length + 1) := by
  induction pieces generalizing buf with
  | nil => exact size
  | cons piece later ih =>
    have fits := piece.fits
    have next : (piece.bytes ++ buf.drop piece.bytes.length).length = 4096 := by
      rw [List.length_append, List.length_drop]
      omega
    rw [receive, List.length_append, ih next, next, List.length_cons]
    omega

theorem length_stream_le (pieces : List (Piece 4096)) : (stream pieces).length ≤ 4096 * pieces.length := by
  induction pieces with
  | nil => exact Nat.zero_le _
  | cons piece later ih =>
    have fits := piece.fits
    rw [stream, List.flatMap_cons, List.length_append, List.length_cons, ← stream]
    omega

/-- Whatever the file, and however the stream is cut, the client does not store the file:
    what it stores is longer than what it gets, and when the server sends nothing it is what
    happens to be in the buffer. -/
theorem receive_not_file {animal : Bytes} {pieces : List (Piece 4096)} (cut : stream pieces = (sendData animal).getD []) :
    ¬ ∀ junk : Bytes, junk.length = 4096 → receive junk pieces = animal := by
  intro stored
  have zeros := stored (List.replicate 4096 0) List.length_replicate
  cases sends : sendData animal with
  | some sent =>
    rw [sends, Option.getD_some, sendData_eq sends] at cut
    have size := length_receive (List.length_replicate (n := 4096) (a := (0 : UInt8))) pieces
    have most := length_stream_le pieces
    rw [zeros] at size
    rw [cut] at most
    omega
  | none =>
    rw [sends, Option.getD_none] at cut
    cases pieces with
    | nil =>
      have ones := stored (List.replicate 4096 1) List.length_replicate
      have same : List.replicate 4096 (0 : UInt8) = List.replicate 4096 1 := zeros.trans ones.symm
      have first := congrArg List.head? same
      rw [List.head?_replicate, List.head?_replicate] at first
      exact absurd first (by decide)
    | cons piece later =>
      rw [stream, List.flatMap_cons, List.append_eq_nil_iff] at cut
      exact piece.nonempty cut.1

/-! ### Both -/

/-- `file_edit` stores the file under its name exactly when `Intact` holds, and `animal3` never
    stores the file. -/
theorem copies_iff {first second : ℕ} {outName file animal : Bytes} {pieces : List (Piece 4096)} (plain : 0 ∉ outName)
    (cut : stream pieces = (sendData animal).getD []) :
    (fileEdit first second outName file = some (outName, file) ↔ Intact first second outName file) ∧
      ¬ ∀ junk : Bytes, junk.length = 4096 → receive junk pieces = animal :=
  ⟨fileEdit_iff plain, receive_not_file cut⟩

/-- A file that is stored, and a binary that is too small for `animal3` to send. -/
theorem copies_iff_sample :
    fileEdit 255 4095 (ascii ['a']) (ascii ['h', 'i']) = some (ascii ['a'], ascii ['h', 'i']) ∧
      ¬ ∀ junk : Bytes, junk.length = 4096 → receive junk [] = ascii ['b'] := by
  have plain : 0 ∉ ascii ['a'] := by decide
  have nothing : stream ([] : List (Piece 4096)) = (sendData (ascii ['b'])).getD [] := by decide
  obtain ⟨edited, animal⟩ := @copies_iff 255 4095 (ascii ['a']) (ascii ['h', 'i']) (ascii ['b']) [] plain nothing
  exact ⟨edited.mpr (by decide), animal⟩

/-- The first call of `read` gets only a part of the block. -/
theorem copies_differ :
    ¬ ((∀ first second outName file, 0 ∉ outName → outName ≠ [] → outName.length < 256 →
        fileEdit first second outName file = some (outName, file)) ∧
      ∀ animal (pieces : List (Piece 4096)), stream pieces = (sendData animal).getD [] →
        ∀ junk : Bytes, junk.length = 4096 → receive junk pieces = animal) := by
  intro stored
  have whole := stored.1 0 1 (ascii ['a']) (ascii ['h', 'i']) (by decide) (by decide) (by decide)
  exact absurd ((fileEdit_iff (by decide)).mp whole) (by decide)

end OsyProg.FileCopies

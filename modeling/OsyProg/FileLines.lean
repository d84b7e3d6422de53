import OsyProg.CStrings
import OsyProg.InputLines

/-!
`client_handle` of `cv_skuska/05_riadky`: the client sends the size of a file and, after
it has got `OK`, the file; the server sends the lines back with their numbers. `strtok`
takes the empty lines for one delimiter, and each line is sent twice: by `write`, and by
`dprintf`, to which it is the format. What is sent consists of the tokens of the buffer
(`sendLoop_pieces`), so the second thing that the client gets is a line number again, and
only an empty file is answered as it should be (`clientHandle_iff`).
-/
namespace OsyProg.FileLines
open OsyProg.Bytes OsyProg.CStrings OsyProg.Lines OsyProg.InputLines

/-! ### client_handle -/

/-- What `dprintf` prints for a format: the bytes in front of the first `%`, and then what
    `convert` makes of the conversion there and of all that follows. It may be undefined,
    since the only argument is a number. -/
def dprintf (convert : Bytes → ℕ → Option Bytes) (format : Bytes) (arg : ℕ) : Option Bytes :=
  let plain := format.takeWhile fun c => c ≠ 37
  let conversion := format.dropWhile fun c => c ≠ 37
  if conversion = [] then some plain else (convert conversion arg).map (plain ++ ·)

/-- The loop of `read` into `buf + total`, with what its calls get: nothing of it is left
    when `total` is `sz`, and the rest of `buf` holds what it held when it was new when a call gets nothing. -/
def receive (junk : Bytes) (sz : ℕ) (buf : Bytes) : List Bytes → Option Bytes
  | [] => if buf.length < sz then none else some buf
  | piece :: later =>
    if sz ≤ buf.length then some buf
    else if piece = [] then some (buf ++ junk.drop buf.length)
    else if buf.length + piece.length ≤ sz then receive junk sz (buf ++ piece) later
    else none

/-- `snprintf(out, sizeof(out), "%d: %s\n", line++, p)` -/
def lineText (line : ℕ) (token : Bytes) : Bytes := (decimal line ++ ascii [':', ' '] ++ token ++ [10]).take 4095

/-- The loop over the tokens, when the given number of rounds suffices: what is sent. -/
def sendLoop (convert : Bytes → ℕ → Option Bytes) : ℕ → ℕ → Option ℕ → Tokens → Option Bytes
  | _, _, none, _ => some []
  | 0, _, some _, _ => none
  | rounds + 1, line, some p, s =>
    let out := lineText line (s.text p)
    (dprintf convert out out.length).bind fun printed =>
      let (next, s) := s.strtok none [10]
      (sendLoop convert rounds (line + 1) next s).map fun later => out ++ printed ++ later

/-- `client_handle` with what the first `read` gets and what those of the loop get: what it
    sends after `OK`. `malloc` says what the new memory holds. A size that is negative, or too large
    for `sz + 1`, has no meaning. -/
def clientHandle (convert : Bytes → ℕ → Option Bytes) (malloc : ∀ sz, Fresh sz) (msg : Bytes) (data : List Bytes) : Option Bytes :=
  let sz := atoi msg
  if sz < 0 ∨ 2 ^ 31 ≤ sz + 1 then none
  else
    (receive (malloc sz.toNat).val sz.toNat [] data).bind fun buf =>
      let (p, s) := Tokens.strtok { buf := buf ++ [0], saved := 0 } (some 0) [10]
      sendLoop convert (buf.length + 1) 1 p s

/-! ### The client -/

/-- The size of a file as the client sends it, from an `int`. -/
def sizeText (file : Bytes) : Bytes := decimalInt ((file.length : ℤ).bmod (2 ^ 32))

/-- How a file gets to the server: the first `read` gets some bytes of the size, since the
    client waits for `OK`, and those of the loop get the following bytes, until `sz` of them
    are there. -/
structure Delivery (file : Bytes) where
  msg : Bytes
  data : List Bytes
  some : msg ≠ []
  part : msg <+: sizeText file
  pieces : ∀ piece ∈ data, piece ≠ []
  whole : data.flatten = ((sizeText file ++ file).drop msg.length).take (atoi msg).toNat

/-- The lines of a file with their numbers. -/
def numberedLines (file : Bytes) : Bytes :=
  ((allLines file).zipIdx 1).flatMap fun (line, n) => decimal n ++ ascii [':', ' '] ++ line ++ [10]

/-! ### What the tokens come to -/

/-- What is sent for the given tokens. -/
def sent (convert : Bytes → ℕ → Option Bytes) (line : ℕ) : List Bytes → Option Bytes
  | [] => some []
  | token :: more =>
    (dprintf convert (lineText line token) (lineText line token).length).bind fun printed =>
      (sent convert (line + 1) more).map fun later => lineText line token ++ printed ++ later

variable {convert : Bytes → ℕ → Option Bytes}

/-- A round of the loop sends the token at `p`. -/
theorem sendLoop_round {rounds line : ℕ} {before token rest : Bytes} {saved : ℕ} (plain : ∀ c ∈ token, c ≠ 0) (tokens : List Bytes)
    (later : sendLoop convert rounds (line + 1) (Tokens.strtok { buf := before ++ (token ++ 0 :: rest), saved } none [10]).1
      (Tokens.strtok { buf := before ++ (token ++ 0 :: rest), saved } none [10]).2 = sent convert (line + 1) tokens) :
    sendLoop convert (rounds + 1) line (some before.length) { buf := before ++ (token ++ 0 :: rest), saved } =
      sent convert line (token :: tokens) := by
  simp only [sendLoop, Tokens.text_token plain, later, sent]

/-- The loop sends the parts of the text between its newlines that are not empty. -/
theorem sendLoop_pieces {before text : Bytes} (nul : 0 ∉ text) {saved : ℕ} {str : Option ℕ} (here : str.getD saved = before.length)
    {rounds : ℕ} (enough : text.length < rounds) (line : ℕ) :
    sendLoop convert rounds line (Tokens.strtok { buf := before ++ (text ++ [0]), saved } str [10]).1
      (Tokens.strtok { buf := before ++ (text ++ [0]), saved } str [10]).2 = sent convert line (pieces 10 text) := by
  induction size : text.length using Nat.strong_induction_on generalizing before text saved str rounds line with
  | _ n ih =>
    subst size
    rcases text with _ | ⟨c, text⟩
    · have ended := @Tokens.strtok_none before [0] [10] saved str here rfl rfl
      rw [List.nil_append, ended, sendLoop]
      rfl
    by_cases newline : c = 10
    · subst newline
      have skip := @Tokens.strtok_skip before (text ++ [0]) [10] saved str [10] here (List.forall_mem_singleton.mpr rfl)
      have shorter := @ih _ (Nat.lt_succ_self _) (before ++ [10]) text (fun inside => nul (List.mem_cons_of_mem _ inside))
        (before ++ [10]).length none rfl rounds (Nat.lt_of_succ_lt enough) line rfl
      rw [List.singleton_append] at skip
      rw [List.cons_append, skip, shorter, pieces_cons_delim]
    · -- The token goes up to the next newline, or to the end.
      obtain ⟨token, behind, split, nonempty, letters, ends⟩ := first_token nul newline
      have tokenPlain := contains_singleton letters
      have noNul : ∀ d ∈ token, d ≠ 0 := fun d inside => (letters d inside).1
      have noNewline : 10 ∉ token := fun inside => (letters 10 inside).2 rfl
      have pos := List.length_pos_iff.mpr nonempty
      obtain ⟨rounds, rfl⟩ := Nat.exists_eq_succ_of_ne_zero (Nat.ne_zero_of_lt enough)
      rw [List.length_cons] at enough
      rcases ends with rfl | ⟨rest, rfl, rest_nul, length⟩
      · have call := @Tokens.strtok_last before token [0] [10] saved str here nonempty tokenPlain rfl
        have some : ([] : Bytes).length < rounds := by
          rw [List.length_nil]
          omega
        have later := @ih 0 (Nat.zero_lt_succ _) (before ++ token) [] List.not_mem_nil (before.length + token.length) none
          List.length_append.symm rounds some (line + 1) rfl
        have none : pieces 10 ([] : Bytes) = [] := rfl
        rw [split, List.append_nil, call, pieces_token nonempty noNewline]
        exact sendLoop_round noNul [] (by simpa [none] using later)
      · have call := @Tokens.strtok_stop before token (rest ++ [0]) [10] 10 saved str here nonempty tokenPlain rfl (by decide)
        have shorter : rest.length < (c :: text).length := by
          rw [List.length_cons]
          omega
        have some : rest.length < rounds := by omega
        have later := @ih _ shorter (before ++ (token ++ [0])) rest rest_nul (before.length + token.length + 1) none
          (by simp [Nat.add_assoc]) rounds some (line + 1) rfl
        rw [split, List.append_assoc, List.cons_append, call, pieces_token_cons nonempty noNewline]
        exact sendLoop_round noNul (pieces 10 rest) (by simpa using later)

/-! ### What is sent for a file -/

theorem receive_whole (junk : Bytes) {sz : ℕ} {buf : Bytes} {data : List Bytes} (nonempty : ∀ piece ∈ data, piece ≠ [])
    (fits : buf.length + data.flatten.length ≤ sz) :
    receive junk sz buf data = if buf.length + data.flatten.length = sz then some (buf ++ data.flatten) else none := by
  induction data generalizing buf with
  | nil =>
    simp only [List.flatten_nil, List.length_nil, Nat.add_zero, List.append_nil] at fits ⊢
    by_cases full : buf.length = sz
    · rw [receive, if_neg (by omega), if_pos full]
    · rw [receive, if_pos (by omega), if_neg full]
  | cons piece later ih =>
    have some : piece ≠ [] := nonempty piece (List.mem_cons_self ..)
    have pos := List.length_pos_iff.mpr some
    have next := @ih (buf ++ piece) fun p inside => nonempty p (List.mem_cons_of_mem _ inside)
    simp only [List.flatten_cons, List.length_append, ← Nat.add_assoc, List.append_assoc] at fits next ⊢
    rw [receive, if_neg (by omega), if_neg some, if_pos (by omega), next fits]

theorem sizeText_nul (file : Bytes) : 0 ∉ sizeText file := zero_decimalInt _

/-- Whatever is sent, it is sent for the tokens of some text without zeros. -/
theorem clientHandle_sent (malloc : ∀ sz, Fresh sz) {file : Bytes} (nul : 0 ∉ file) (d : Delivery file) {out : Bytes}
    (answer : clientHandle convert malloc d.msg d.data = some out) : ∃ text, sent convert 1 (pieces 10 text) = some out := by
  rw [clientHandle] at answer
  split at answer
  · exact absurd answer (Option.some_ne_none _).symm
  · have length : d.data.flatten.length ≤ (atoi d.msg).toNat := by
      rw [d.whole]
      exact List.length_take_le ..
    have noNul : 0 ∉ d.data.flatten := by
      rw [d.whole]
      intro inside
      rcases List.mem_append.mp (List.mem_of_mem_drop (List.mem_of_mem_take inside)) with size | data
      · exact sizeText_nul file size
      · exact nul data
    obtain ⟨buf, got, answer⟩ := Option.bind_eq_some_iff.mp answer
    rw [receive_whole _ d.pieces (by rwa [List.length_nil, Nat.zero_add]), List.nil_append] at got
    obtain ⟨-, ⟨⟩⟩ := Option.ite_none_right_eq_some.mp got
    have run := @sendLoop_pieces convert [] d.data.flatten noNul 0 (some 0) rfl _ (Nat.lt_succ_self _) 1
    exact ⟨_, run.symm.trans answer⟩

/-- The answer that is due to a file begins with its first line, and goes on, if at all,
    with the second number. -/
theorem numberedLines_first {file : Bytes} (some : file ≠ []) :
    ∃ line more, numberedLines file = 49 :: 58 :: 32 :: (line ++ 10 :: more) ∧ 10 ∉ line ∧ line ∈ allLines file ∧ more.head? ≠ .some 49 := by
  obtain ⟨clean, noneRest⟩ := linesOf_clean 10 file
  have all : ∀ l ∈ allLines file, 10 ∉ l := by
    intro l inside
    rcases List.mem_append.mp inside with line | rest
    · exact clean l line
    · split at rest
      · exact absurd rest List.not_mem_nil
      · rwa [List.mem_singleton.mp rest]
  have nonempty : allLines file ≠ [] := by
    intro none
    rw [allLines, List.append_eq_nil_iff] at none
    have text := unlines_linesOf 10 file
    rw [none.1, unlines_nil, List.nil_append] at text
    rw [text, if_neg some] at none
    exact absurd none.2 (List.cons_ne_nil _ _)
  have one : decimal 1 = [49] := rfl
  have two : decimal 2 = [50] := rfl
  rw [numberedLines]
  generalize allLines file = lines at all nonempty ⊢
  obtain ⟨line, later, rfl⟩ := List.exists_cons_of_ne_nil nonempty
  refine ⟨line, (later.zipIdx 2).flatMap fun (line, n) => decimal n ++ ascii [':', ' '] ++ line ++ [10], ?_,
    all line (List.mem_cons_self ..), List.mem_cons_self .., ?_⟩
  · simp [one, ascii]
  · cases later with
    | nil => simp
    | cons second others => simp [two]

/-- What `dprintf` prints for a line begins with the number of the line. -/
theorem dprintf_number {token printed : Bytes} {arg : ℕ} (prints : dprintf convert (lineText 1 token) arg = some printed) :
    ∃ more, printed = 49 :: more := by
  have start : ∃ more, lineText 1 token = 49 :: more := ⟨_, rfl⟩
  obtain ⟨format, same⟩ := start
  rw [same, dprintf, List.takeWhile_cons_of_pos (by decide)] at prints
  split at prints
  · obtain rfl := Option.some.inj prints
    exact ⟨_, rfl⟩
  · obtain ⟨rest, -, rfl⟩ := Option.map_eq_some_iff.mp prints
    exact ⟨_, rfl⟩

/-- A part without newlines ends before the first newline. -/
theorem part_le {part line rest more : Bytes} (none : 10 ∉ part) (same : part ++ rest = line ++ 10 :: more) : part.length ≤ line.length := by
  rcases List.append_eq_append_iff.mp same with ⟨m, rfl, -⟩ | ⟨m, rfl, onward⟩
  · rw [List.length_append]
    omega
  · cases m with
    | nil => simp
    | cons c m =>
      obtain ⟨rfl, -⟩ := List.cons.inj onward
      exact absurd (by simp) none

/-- What is sent for some tokens is no due answer: the first token is followed by the
    first number again. -/
theorem sent_ne {file : Bytes} (some : file ≠ []) (short : ∀ l ∈ allLines file, l.length < 4000) {tokens : List Bytes}
    (plain : ∀ token ∈ tokens, 10 ∉ token) : sent convert 1 tokens ≠ .some (numberedLines file) := by
  obtain ⟨line, more, due, none, among, onward⟩ := numberedLines_first some
  have few := short line among
  rw [due]
  cases tokens with
  | nil =>
    intro same
    exact absurd (Option.some.inj same) (List.cons_ne_nil _ _).symm
  | cons token tokens =>
    have noNewline : 10 ∉ token := plain token (List.mem_cons_self ..)
    intro same
    obtain ⟨printed, prints, same⟩ := Option.bind_eq_some_iff.mp same
    obtain ⟨later, -, same⟩ := Option.map_eq_some_iff.mp same
    obtain ⟨rest, rfl⟩ := dprintf_number prints
    rw [lineText] at same
    have text : decimal 1 ++ ascii [':', ' '] ++ token ++ [10] = 49 :: 58 :: 32 :: (token ++ [10]) := rfl
    rw [text] at same
    simp only [List.take_succ_cons, List.cons_append, List.cons.injEq, true_and] at same
    by_cases fits : token.length ≤ 4091
    · rw [List.take_of_length_le (by rw [List.length_append, List.length_singleton]; omega), List.append_assoc, List.append_assoc,
        List.singleton_append] at same
      obtain ⟨rfl, rfl⟩ := cut_unique noNewline none same
      exact onward rfl
    · rw [List.take_append_of_le_length (by omega), List.append_assoc] at same
      have cut : 10 ∉ token.take 4092 := fun inside => noNewline (List.mem_of_mem_take inside)
      have le := part_le cut same
      rw [List.length_take] at le
      omega

/-- A file is answered as it should be exactly if it is empty, however it is delivered. -/
theorem clientHandle_iff (convert : Bytes → ℕ → Option Bytes) (malloc : ∀ sz, Fresh sz) {file : Bytes} (nul : 0 ∉ file)
    (short : ∀ l ∈ allLines file, l.length < 4000) (d : Delivery file) :
    clientHandle convert malloc d.msg d.data = some (numberedLines file) ↔ file = [] := by
  constructor
  · intro answer
    by_contra some
    obtain ⟨text, sends⟩ := clientHandle_sent malloc nul d answer
    exact sent_ne some short (pieces_plain 10 text) sends
  · rintro rfl
    have size : d.msg = [48] := by
      obtain ⟨behind, same⟩ := d.part
      obtain ⟨c, rest, begins⟩ := List.exists_cons_of_ne_nil d.some
      have zero : sizeText [] = [48] := rfl
      rw [begins, zero, List.cons_append] at same
      obtain ⟨rfl, none⟩ := List.cons.inj same
      rw [begins, (List.append_eq_nil_iff.mp none).1]
    have none : d.data = [] := by
      have whole := d.whole
      rw [size] at whole
      have nothing : d.data.flatten = [] := whole
      by_contra some
      obtain ⟨piece, later, begins⟩ := List.exists_cons_of_ne_nil some
      rw [begins, List.flatten_cons, List.append_eq_nil_iff] at nothing
      exact d.pieces piece (by simp [begins]) nothing.1
    rw [size, none]
    rfl

/-- New memory that holds zeros. -/
def zeros (sz : ℕ) : Fresh sz := ⟨List.replicate sz 0, List.length_replicate⟩

/-- The empty file. -/
theorem clientHandle_sample :
    clientHandle (fun _ _ => none) zeros (ascii ['0']) [] = some (numberedLines []) ↔ ([] : Bytes) = [] :=
  clientHandle_iff (fun _ _ => none) zeros (List.not_mem_nil) (fun l inside => absurd inside List.not_mem_nil)
    { msg := ascii ['0'], data := [], some := by decide, part := by decide, pieces := fun p inside => absurd inside List.not_mem_nil, whole := rfl }

/-- A file with two lines between which there is an empty one, in two pieces. -/
theorem clientHandle_twice :
    ∃ d : Delivery (ascii ['a', '\n', '\n', 'b']),
      clientHandle (fun _ _ => none) zeros d.msg d.data = some (ascii ['1', ':', ' ', 'a', '\n', '1', ':', ' ', 'a', '\n', '2', ':', ' ', 'b', '\n', '2', ':', ' ', 'b', '\n']) ∧
        ¬ clientHandle (fun _ _ => none) zeros d.msg d.data = some (numberedLines (ascii ['a', '\n', '\n', 'b'])) := by
  let d : Delivery (ascii ['a', '\n', '\n', 'b']) :=
    { msg := ascii ['4'], data := [ascii ['a', '\n'], ascii ['\n', 'b']], some := by decide, part := by decide, pieces := by decide
      whole := by decide }
  exact ⟨d, by decide, by decide⟩

end OsyProg.FileLines

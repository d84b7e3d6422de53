import OsyProg.HttpRequests
import Mathlib.Data.List.Infix

/-!
The server that executes the target of a request, with its pieces between the `*` as
the argument vector. `clientFunc` stores a pointer to each piece, behind which the array
holds null pointers, and calls `execvp` with the pointer to the beginning of the target:
that is the first piece unless the target begins with `*`, and the null pointer is there
for up to 49 pieces (`pieces_executed_iff`). The fifty-first piece is stored behind the
array.
-/
namespace OsyProg.ExecRequests
open OsyProg.Bytes OsyProg.CStrings OsyProg.HttpRequests

/-- The loop that stores the tokens from `index` on, while as many places are left. -/
def storeTokens : ℕ → ℕ → Option ℕ → Tokens → List (Option ℕ) → Option (Tokens × List (Option ℕ))
  | 0, _, realcommandFirst, s, array => if realcommandFirst = none then some (s, array) else none
  | left + 1, index, realcommandFirst, s, array =>
    match realcommandFirst with
    | none => some (s, array)
    | some token =>
      let (next, s) := s.strtok none [42]
      storeTokens left (index + 1) next s (array.set index (some token))

/-- What comes of a request. -/
inductive Outcome
  | undefined     -- memory outside of an array, a variable without a value, a null pointer
  | exited
  | execvp (file : Bytes) (array : List (Option Bytes))
  deriving DecidableEq

/-- `clientFunc` with what `read` has stored in `buffer`; what it prints is left out. -/
def clientFunc (received : Bytes) : Outcome :=
  if received = [] ∨ 2056 ≤ received.length then .undefined
  else
    let buffer := received ++ List.replicate (2056 - received.length) 0
    let checkGetHTTP := cString buffer
    let s : Tokens := { buf := buffer, saved := 0 }
    let (firstLine, s) := s.strtok (some 0) [10]
    let (_, s) := s.strtok firstLine [47]
    let (afterFirstWord, s) := s.strtok none []
    let (tmp, s) := s.strtok afterFirstWord [32]
    let (realcommandFirst, s) := s.strtok tmp [42]
    match storeTokens 50 0 realcommandFirst s (List.replicate 50 none) with
    | none => .undefined
    | some (s, array) =>
      if ¬ ascii ['H', 'T', 'T', 'P'] <:+: checkGetHTTP ∨ ¬ ascii ['G', 'E', 'T'] <:+: checkGetHTTP then .exited
      else
        match tmp with
        | none => .undefined
        | some tmp => .execvp (s.text tmp) (array.map fun entry => entry.map s.text)

/-! ### The loop -/

/-- The tokens of the string `t` behind `before`, and the buffer when they are stored. -/
structure Stored (before t more : Bytes) (s : Tokens) (tokens : List ℕ) : Prop where
  texts : tokens.map s.text = pieces 42 t
  buffer : ∃ t', s.buf = before ++ (t' ++ 0 :: more) ∧ (t = [] → t' = []) ∧ (t.head? = some 42 → t'.head? = some 42)
  first : t.head? ≠ some 42 → t ≠ [] → tokens.head? = some before.length

/-- The array with `left` places behind the tokens that are stored. -/
def filled (left : ℕ) (tokens : List ℕ) : List (Option ℕ) := tokens.map some ++ List.replicate left none

/-- The loop stores all tokens, or finds that there are too many for the places. -/
def Stores (before t more : Bytes) (left : ℕ) (done : List ℕ) (result : Option (Tokens × List (Option ℕ))) : Prop :=
  if (pieces 42 t).length ≤ left then
    ∃ s tokens, result = some (s, filled (left - tokens.length) (done ++ tokens)) ∧ Stored before t more s tokens
  else result = none

section
variable {before t more token rest : Bytes} {left : ℕ} {done : List ℕ} {result : Option (Tokens × List (Option ℕ))}

theorem storeTokens_none (left index : ℕ) (s : Tokens) (array : List (Option ℕ)) :
    storeTokens left index none s array = some (s, array) := by
  cases left <;> rfl

/-- A `*` at the beginning is passed over. -/
theorem Stores.star (stores : Stores (before ++ [42]) t more left done result) : Stores before (42 :: t) more left done result := by
  unfold Stores at *
  rw [pieces_cons_delim]
  split
  next fits =>
    rw [if_pos fits] at stores
    obtain ⟨s, tokens, stored, facts⟩ := stores
    obtain ⟨t', buffer, -, -⟩ := facts.buffer
    refine ⟨s, tokens, stored, ?_, ⟨42 :: t', ?_, fun none => (by cases none), fun _ => rfl⟩, fun other => absurd rfl other⟩
    · rw [facts.texts, pieces_cons_delim]
    · rw [buffer]
      simp
  next many => rwa [if_neg many] at stores

/-- A token is stored, and then those behind it. -/
theorem Stores.cons {gap : Bytes} (nonempty : token ≠ []) (plain : ∀ c ∈ token, c ≠ 0 ∧ c ≠ 42)
    (split : pieces 42 (token ++ rest) = token :: pieces 42 t) (ends : gap = [0] ∨ gap = [] ∧ t = [])
    (stores : Stores (before ++ (token ++ gap)) t more left (done ++ [before.length]) result) :
    Stores before (token ++ rest) more (left + 1) done result := by
  obtain ⟨c, letters, rfl⟩ := List.exists_cons_of_ne_nil nonempty
  have head : ¬ c = 42 := (plain c (List.mem_cons_self ..)).2
  unfold Stores at *
  rw [split, List.length_cons]
  by_cases fits : (pieces 42 t).length ≤ left
  · rw [if_pos fits] at stores
    rw [if_pos (by omega)]
    obtain ⟨s, tokens, stored, facts⟩ := stores
    obtain ⟨t', buffer, empty, -⟩ := facts.buffer
    -- Behind the token stands the zero of the gap, or the one that ends the string.
    obtain ⟨after, zero⟩ : ∃ after, gap ++ (t' ++ 0 :: more) = 0 :: after := by
      rcases ends with rfl | ⟨rfl, none⟩
      · exact ⟨_, rfl⟩
      · exact ⟨more, by rw [empty none]; rfl⟩
    have text : s.text before.length = c :: letters := by
      have whole : s = { buf := before ++ (c :: letters ++ 0 :: after), saved := s.saved } := by
        rw [← zero, ← List.append_assoc (c :: letters), ← List.append_assoc, ← buffer]
      rw [whole]
      exact Tokens.text_token fun d inside => (plain d inside).1
    refine ⟨s, before.length :: tokens, ?_, ?_, ⟨c :: letters ++ (gap ++ t'), ?_, ?_, ?_⟩, fun _ _ => rfl⟩
    · rw [stored, List.append_assoc, List.singleton_append, List.length_cons, Nat.add_sub_add_right]
    · rw [List.map_cons, text, facts.texts, split]
    · rw [buffer]
      simp
    · intro none
      cases none
    · intro star
      exact absurd (Option.some.inj star) head
  · rw [if_neg fits] at stores
    rw [if_neg (by omega), stores]

/-- The place `index` of the array is the first that is empty. -/
theorem filled_set (left : ℕ) (tokens : List ℕ) (token : ℕ) :
    (filled (left + 1) tokens).set tokens.length (some token) = filled left (tokens ++ [token]) := by
  rw [filled, filled, List.set_append_right _ _ (by rw [List.length_map]), List.replicate_succ]
  simp

/-- One round of the loop. -/
theorem Stores.round {gap : Bytes} (nonempty : token ≠ []) (plain : ∀ c ∈ token, c ≠ 0 ∧ c ≠ 42)
    (split : pieces 42 (token ++ rest) = token :: pieces 42 t) (ends : gap = [0] ∨ gap = [] ∧ t = []) (s : Tokens)
    (later : ∀ left, Stores (before ++ (token ++ gap)) t more left (done ++ [before.length])
      (storeTokens left (done ++ [before.length]).length (s.strtok none [42]).1 (s.strtok none [42]).2
        (filled left (done ++ [before.length])))) (left : ℕ) :
    Stores before (token ++ rest) more left done (storeTokens left done.length (some before.length) s (filled left done)) := by
  cases left with
  | zero =>
    rw [Stores, if_neg (by rw [split, List.length_cons]; omega)]
    rfl
  | succ left =>
    refine Stores.cons nonempty plain split ends ?_
    have next := later left
    rw [List.length_append, List.length_singleton] at next
    rw [storeTokens, filled_set]
    exact next

end

/-- The loop stores a token for each piece, when there are places for them. -/
theorem storeTokens_stores {before t more : Bytes} (plain : 0 ∉ t) {saved : ℕ} {str : Option ℕ} (here : str.getD saved = before.length)
    (left : ℕ) (done : List ℕ) :
    Stores before t more left done
      (storeTokens left done.length (Tokens.strtok { buf := before ++ (t ++ 0 :: more), saved } str [42]).1
        (Tokens.strtok { buf := before ++ (t ++ 0 :: more), saved } str [42]).2 (filled left done)) := by
  induction size : t.length using Nat.strong_induction_on generalizing before t saved str left done with
  | _ n ih =>
    subst size
    rcases t with _ | ⟨c, t⟩
    · have ended := @Tokens.strtok_none before (0 :: more) [42] saved str here rfl rfl
      have none : (pieces 42 []).length ≤ left := Nat.zero_le left
      rw [List.nil_append, ended, storeTokens_none, Stores, if_pos none]
      refine ⟨{ buf := before ++ 0 :: more, saved := before.length }, [], ?_, rfl, ⟨[], rfl, fun _ => rfl, fun star => (by cases star)⟩,
        fun _ nonempty => absurd rfl nonempty⟩
      rw [List.append_nil]
      rfl
    by_cases star : c = 42
    · subst star
      have skip := @Tokens.strtok_skip before (t ++ 0 :: more) [42] saved str [42] here (List.forall_mem_singleton.mpr rfl)
      rw [List.singleton_append] at skip
      rw [List.cons_append, skip]
      exact (ih _ (Nat.lt_succ_self _) (fun inside => plain (List.mem_cons_of_mem _ inside)) rfl left done rfl).star
    · -- The token goes up to the next `*`, or to the end.
      obtain ⟨token, behind, split, nonempty, letters, ends⟩ := first_token plain star
      have tokenPlain := contains_singleton letters
      have noStar : 42 ∉ token := fun inside => (letters 42 inside).2 rfl
      rcases ends with rfl | ⟨rest, rfl, rest_plain, length⟩
      · have one : pieces 42 (token ++ []) = token :: pieces 42 [] := by
          rw [List.append_nil, pieces_token nonempty noStar]
          rfl
        have call := @Tokens.strtok_last before token (0 :: more) [42] saved str here nonempty tokenPlain rfl
        have shorter : ([] : Bytes).length < (c :: t).length := Nat.zero_lt_succ _
        rw [split, List.append_nil, call, ← List.append_nil token]
        refine Stores.round nonempty letters one (.inr ⟨rfl, rfl⟩) _ (fun left => ?_) left
        have later := @ih _ shorter (before ++ token) [] (fun inside => by cases inside) (before.length + token.length) none
          List.length_append.symm left (done ++ [before.length]) rfl
        simpa using later
      · have call := @Tokens.strtok_stop before token (rest ++ 0 :: more) [42] 42 saved str here nonempty tokenPlain rfl (by decide)
        have shorter : rest.length < (c :: t).length := by
          rw [List.length_cons]
          omega
        rw [split, List.append_assoc, List.cons_append, call]
        refine Stores.round nonempty letters (pieces_token_cons nonempty noStar rest) (.inl rfl) _ (fun left => ?_) left
        have later := @ih _ shorter (before ++ (token ++ [0])) rest rest_plain (before.length + token.length + 1) none
          (by simp [Nat.add_assoc]) left (done ++ [before.length]) rfl
        simpa using later

/-! ### Requests -/

/-- The tokens of the target are in the array with a null pointer behind them, and the
    first of them is the file that is executed. -/
def Executes (t tail : Bytes) : Prop :=
  ∃ file array, clientFunc (request t tail) = .execvp file array ∧ (pieces 42 t).head? = some file ∧
    array.length = 50 ∧ (pieces 42 t).map some ++ [none] <+: array

/-- The words that `clientFunc` looks for are in every request. -/
theorem request_words {t : Bytes} (plain : ∀ c ∈ t, c ≠ 0 ∧ c ≠ 10 ∧ c ≠ 32) (tail : Bytes) :
    ascii ['H', 'T', 'T', 'P'] <:+: cString (request t tail) ∧ ascii ['G', 'E', 'T'] <:+: cString (request t tail) := by
  have string : cString (request t tail) = requestLine t ++ cString tail := by
    rw [request_eq, cString, List.takeWhile_append_of_pos fun c inside => by simpa using (requestLine_plain plain c inside).1]
    rfl
  rw [string]
  constructor
  · exact ⟨ascii ['G', 'E', 'T', ' ', '/'] ++ (t ++ [32]), ascii ['/', '1', '.', '1'] ++ cString tail, by simp [requestLine, ascii]⟩
  · exact ⟨[], ascii [' ', '/'] ++ (t ++ (ascii [' ', 'H', 'T', 'T', 'P', '/', '1', '.', '1'] ++ cString tail)), by simp [requestLine, ascii]⟩

/-- What `clientFunc` does with a request is decided by the loop. -/
theorem clientFunc_request {t : Bytes} (plain : ∀ c ∈ t, c ≠ 0 ∧ c ≠ 10 ∧ c ≠ 32) (nonempty : t ≠ []) {tail : Bytes}
    (fits : (request t tail).length < 2056) :
    ∃ result after, Stores getToken t after 50 [] result ∧
      clientFunc (request t tail) =
        match result with
        | none => .undefined
        | some (s, array) => .execvp (s.text getToken.length) (array.map fun entry => entry.map s.text) := by
  let zeros := List.replicate (2056 - (request t tail).length) (0 : UInt8)
  have received : ¬ (request t tail = [] ∨ 2056 ≤ (request t tail).length) := by
    rintro (none | long)
    · exact absurd none (List.append_ne_nil_of_left_ne_nil (by decide) _)
    · omega
  have buffer : request t tail ++ zeros = request t (tail ++ zeros) := by simp [request]
  obtain ⟨line, s, after, first, second, third⟩ := target_found nonempty plain (tail ++ zeros)
  obtain ⟨http, get⟩ := request_words plain (tail ++ zeros)
  have stores := @storeTokens_stores getToken t after (fun inside => (plain 0 inside).1 rfl) (getToken.length + t.length + 1)
    (some getToken.length) rfl 50 []
  refine ⟨_, after, stores, ?_⟩
  simp only [clientFunc, if_neg received, zeros, buffer, first, second, Tokens.strtok_rest, third, http, get, not_true, or_self, if_false]
  rfl

/-- The server executes the pieces of the target exactly when there are at most 49 of
    them and the target does not begin with `*`. -/
theorem pieces_executed_iff {t : Bytes} (plain : ∀ c ∈ t, c ≠ 0 ∧ c ≠ 10 ∧ c ≠ 32) (token : pieces 42 t ≠ []) {tail : Bytes}
    (fits : (request t tail).length < 2056) :
    Executes t tail ↔ (pieces 42 t).length ≤ 49 ∧ t.head? ≠ some 42 := by
  have nonempty : t ≠ [] := by
    rintro rfl
    exact token rfl
  obtain ⟨result, after, stores, outcome⟩ := clientFunc_request plain nonempty fits
  rw [Executes, outcome]
  unfold Stores at stores
  split at stores
  next places =>
    obtain ⟨s, tokens, rfl, facts⟩ := stores
    obtain ⟨t', buffer, -, star⟩ := facts.buffer
    have count : tokens.length = (pieces 42 t).length := by rw [← facts.texts, List.length_map]
    have array : ((filled (50 - tokens.length) ([] ++ tokens)).map fun entry => entry.map s.text) =
        (pieces 42 t).map some ++ List.replicate (50 - tokens.length) none := by
      simp [filled, ← facts.texts]
    simp only [array]
    constructor
    · rintro ⟨file, array, same, head, length, vector⟩
      injection same with fileIs arrayIs
      subst fileIs arrayIs
      refine ⟨?_, ?_⟩
      · have room : 50 - tokens.length ≠ 0 := by
          intro full
          rw [full] at vector
          have shorter := vector.length_le
          simp only [List.length_append, List.length_map, List.length_singleton, List.length_replicate] at shorter
          omega
        omega
      · intro begins
        -- The string at the beginning of the target begins with the `*`.
        have text : (s.text getToken.length).head? = some 42 := by
          obtain ⟨behind, begins'⟩ : ∃ behind, t' = 42 :: behind := List.head?_eq_some_iff.mp (star begins)
          rw [Tokens.text, buffer, List.drop_left, begins']
          rfl
        have plainFile := pieces_plain 42 t _ (List.mem_of_mem_head? head)
        exact plainFile (List.mem_of_mem_head? text)
    · rintro ⟨few, other⟩
      have first := facts.first other nonempty
      refine ⟨_, _, rfl, ?_, ?_, ?_⟩
      · rw [← facts.texts, List.head?_map, first]
        rfl
      · simp
        omega
      · obtain ⟨left, places⟩ := Nat.exists_eq_succ_of_ne_zero (show 50 - tokens.length ≠ 0 by omega)
        rw [places, List.replicate_succ]
        exact (List.prefix_append_right_inj _).mpr (List.prefix_append [none] _)
  next many =>
    subst stores
    constructor
    · rintro ⟨file, array, same, -⟩
      cases same
    · rintro ⟨few, -⟩
      omega

/-- `GET /ls*-la HTTP/1.1` -/
theorem pieces_executed_sample : Executes (ascii ['l', 's', '*', '-', 'l', 'a']) [13, 10] :=
  (pieces_executed_iff (List.all_iff_forall_prop.mp (by decide)) (by decide) (by decide)).mpr (by decide)

/-- `GET /*ls HTTP/1.1` has the one piece `ls`, and `*ls` is executed. -/
theorem star_executed :
    pieces 42 (ascii ['*', 'l', 's']) = [ascii ['l', 's']] ∧ ¬ Executes (ascii ['*', 'l', 's']) [13, 10] := by
  have run : clientFunc (request (ascii ['*', 'l', 's']) [13, 10]) =
      .execvp (ascii ['*', 'l', 's']) (some (ascii ['l', 's']) :: List.replicate 49 none) := by
    decide +kernel
  refine ⟨by decide, ?_⟩
  rintro ⟨file, array, outcome, head, -⟩
  rw [run] at outcome
  cases outcome
  exact absurd head (by decide)

end OsyProg.ExecRequests

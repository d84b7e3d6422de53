import OsyProg.Bytes
import OsyProg.PartialWrites
import Mathlib.Data.Set.Finite.Lattice
import Mathlib.Order.Interval.Finset.Nat

/-!
`write_all` of `cv_socket/serv.c`, which `cv_exec_dup_socket/server_poll_echo.cpp` has as
well. What the calls of `write` return is an infinite sequence, of which the loop uses as
much as it needs. The loop offers what is left of the buffer (`loop_offer`), so it delivers
the buffer, or a proper part from its beginning, and it ends when interruptions do
(`writeAll_delivers`).
-/
namespace OsyProg.WriteAll
open OsyProg.Bytes OsyProg.PartialWrites

def EINTR : ℕ := 4

/-- What a call of `write` returns: it has accepted `more + 1` bytes, or all that it was
    given, or it returns -1 and sets `errno`. -/
inductive Wrote
  | accepts (more : ℕ)
  | failed (errno : ℕ)
  deriving DecidableEq

/-- The arguments `buf` and `len`. An array of C has less than 2 ^ 63 bytes. -/
structure Buffer where
  buf : Bytes
  len : ℕ
  inside : len ≤ buf.length
  object : buf.length < 2 ^ 63

/-- The variables of the loop, and what `write` has accepted. -/
structure Loop where
  p : ℕ
  left : ℕ
  accepted : Bytes

/-- `left -= n` and `p += n`, after `write` has accepted `n` bytes at `p`. -/
def Loop.advance (b : Buffer) (s : Loop) (n : ℕ) : Loop :=
  { p := s.p + n, left := s.left - n, accepted := s.accepted ++ (b.buf.drop s.p).take n }

/-- The value of `(ssize_t) len`. -/
def ssize (len : ℕ) : ℤ := (len : ℤ).bmod (2 ^ 64)

/-- The loop, when it ends within the given number of calls: what `write_all` returns, and
    what has been accepted. -/
def loop (b : Buffer) (results : ℕ → Wrote) : ℕ → Loop → Option (ℤ × Bytes)
  | 0, s => if 0 < s.left then none else some (ssize b.len, s.accepted)
  | calls + 1, s =>
    if 0 < s.left then
      match results 0 with
      | .failed errno => if errno = EINTR then loop b (fun k => results (k + 1)) calls s else some (-1, s.accepted)
      | .accepts more => loop b (fun k => results (k + 1)) calls (s.advance b (min (more + 1) s.left))
    else some (ssize b.len, s.accepted)

def writeAll (b : Buffer) (results : ℕ → Wrote) (calls : ℕ) : Option (ℤ × Bytes) :=
  loop b results calls { p := 0, left := b.len, accepted := [] }

/-! ### The loop as offers -/

/-- A result of `write` as the result of an offer. -/
def Wrote.offered : Wrote → Result
  | .accepts more => .takes more
  | .failed errno => if errno = EINTR then .again else .fails

/-- The bytes that `left` and `p` stand for. -/
def Loop.rest (b : Buffer) (s : Loop) : Bytes := (b.buf.drop s.p).take s.left

variable {b : Buffer} {results : ℕ → Wrote} {calls : ℕ} {s : Loop}

/-- The pointer and the count name bytes of the buffer. -/
def Loop.Inside (b : Buffer) (s : Loop) : Prop := s.p + s.left = b.len

theorem length_rest (inside : s.Inside b) : (s.rest b).length = s.left := by
  have whole := b.inside
  rw [Loop.Inside] at inside
  rw [Loop.rest, List.length_take, List.length_drop]
  omega

theorem rest_eq_nil (inside : s.Inside b) : s.rest b = [] ↔ ¬ 0 < s.left := by
  rw [← List.length_eq_zero_iff, length_rest inside]
  omega

/-- The bytes that are accepted come from the front of the rest, and what is left is behind them. -/
theorem rest_advance (inside : s.Inside b) (more : ℕ) :
    (s.advance b (min (more + 1) s.left)).Inside b ∧
      (s.advance b (min (more + 1) s.left)).accepted = s.accepted ++ (s.rest b).take (more + 1) ∧
      (s.advance b (min (more + 1) s.left)).rest b = (s.rest b).drop (more + 1) := by
  have length := length_rest inside
  refine ⟨?_, ?_, ?_⟩
  · rw [Loop.Inside] at inside ⊢
    simp only [Loop.advance]
    omega
  · rw [Loop.advance, Loop.rest, List.take_take]
  · have behind : (s.advance b (min (more + 1) s.left)).rest b = (s.rest b).drop (min (more + 1) s.left) := by
      rw [Loop.rest, Loop.rest, Loop.advance, List.drop_take, List.drop_drop]
    rw [behind]
    by_cases few : more + 1 ≤ s.left
    · rw [Nat.min_eq_left few]
    · rw [Nat.min_eq_right (by omega), List.drop_of_length_le (by omega), List.drop_of_length_le (by omega)]

/-- What the loop returns when all has been accepted, or when it gives up. -/
def ret (b : Buffer) (done : Bool) : ℤ := if done then ssize b.len else -1

theorem loop_ended (inside : s.Inside b) (none : ¬ 0 < s.left) :
    some (ssize b.len, s.accepted) =
      (offer (s.rest b) (fun k => (results k).offered) calls).map fun (done, taken) => (ret b done, s.accepted ++ taken) := by
  rw [(rest_eq_nil inside).mpr none, offer_nil]
  simp [ret]

theorem loop_offer (inside : s.Inside b) :
    loop b results calls s =
      (offer (s.rest b) (fun k => (results k).offered) calls).map fun (done, taken) => (ret b done, s.accepted ++ taken) := by
  induction calls generalizing s results with
  | zero =>
    by_cases more : 0 < s.left
    · rw [loop, if_pos more, offer, if_neg fun empty => (rest_eq_nil inside).mp empty more]
      rfl
    · rw [loop, if_neg more, loop_ended inside more]
  | succ calls ih =>
    by_cases more : 0 < s.left
    · have some_ : s.rest b ≠ [] := fun empty => (rest_eq_nil inside).mp empty more
      rw [loop, if_pos more]
      cases first : results 0 with
      | failed errno =>
        by_cases again : errno = EINTR
        · rw [offer_again some_ (by simp only [first, Wrote.offered, if_pos again])]
          exact (if_pos again).trans (ih inside)
        · rw [offer_fails some_ (by simp only [first, Wrote.offered, if_neg again])]
          simp [again, ret]
      | accepts k =>
        obtain ⟨next, accepted, rest⟩ := rest_advance inside k
        rw [offer_takes some_ (by rw [first, Wrote.offered])]
        dsimp only
        rw [ih next, accepted, rest, Option.map_map]
        refine congrArg (Option.map · _) (funext fun out => ?_)
        simp only [Function.comp, List.append_assoc]
    · rw [loop, if_neg more, loop_ended inside more]

theorem start_inside (b : Buffer) : Loop.Inside b { p := 0, left := b.len, accepted := [] } := Nat.zero_add b.len

theorem writeAll_offer (b : Buffer) (results : ℕ → Wrote) (calls : ℕ) :
    writeAll b results calls =
      (offer (b.buf.take b.len) (fun k => (results k).offered) calls).map fun (done, taken) => (ret b done, taken) := by
  rw [writeAll, loop_offer (start_inside b)]
  rfl

/-! ### What the callers rely on -/

/-- No array is so long that its length is changed by the conversion. -/
theorem ssize_len (b : Buffer) : ssize b.len = b.len := by
  have short : (b.len : ℤ).bmod (2 ^ 64) = b.len := by
    have inside := b.inside
    have object := b.object
    rw [Int.bmod_eq_of_le (by omega) (by omega)]
  exact short

theorem ret_eq_len {done : Bool} : ret b done = b.len ↔ done = true := by
  cases done with
  | true => simp [ret, ssize_len]
  | false =>
    simp only [ret, Bool.false_eq_true, if_false, iff_false]
    omega

theorem ret_eq_neg_one {done : Bool} : ret b done = -1 ↔ done = false := by
  cases done with
  | true =>
    simp only [ret, if_true, ssize_len, Bool.true_eq_false, iff_false]
    omega
  | false => simp [ret]

/-- For every buffer and whatever the calls of `write` return: when `write_all` returns its
    length, the bytes have been accepted, each once and in order; it returns -1 only when a
    proper part from the beginning has been accepted; and it returns after finitely many
    calls when only finitely many of them are interrupted. -/
theorem writeAll_delivers (b : Buffer) (results : ℕ → Wrote) :
    (∀ calls value accepted, writeAll b results calls = some (value, accepted) →
      (value = b.len ∨ value = -1) ∧
      (value = b.len → accepted = b.buf.take b.len) ∧
      (value = -1 → accepted <+: b.buf.take b.len ∧ accepted ≠ b.buf.take b.len)) ∧
    ({k | results k = .failed EINTR}.Finite → ∃ calls value accepted, writeAll b results calls = some (value, accepted)) := by
  constructor
  · intro calls value accepted returns
    rw [writeAll_offer] at returns
    obtain ⟨⟨done, taken⟩, ends, ⟨⟩⟩ := Option.map_eq_some_iff.mp returns
    refine ⟨?_, ?_, ?_⟩
    · cases done with
      | true => exact .inl (ret_eq_len.mpr rfl)
      | false => exact .inr rfl
    · intro all
      rw [ret_eq_len.mp all] at ends
      exact offer_done ends
    · intro failed
      rw [ret_eq_neg_one.mp failed] at ends
      obtain ⟨left, some_, whole⟩ := offer_failed ends
      refine ⟨⟨left, whole⟩, fun same => some_ ?_⟩
      rwa [same, List.append_right_eq_self] at whole
  · intro finite
    obtain ⟨last, above⟩ := finite.bddAbove
    have few : ∀ k, last + 1 ≤ k → (results k).offered ≠ .again := by
      intro k behind again
      cases result : results k with
      | accepts more => simp [result, Wrote.offered] at again
      | failed errno =>
        have interrupted : errno = EINTR := by
          by_contra other
          simp [result, Wrote.offered, other] at again
        have within : k ≤ last := above (by rw [Set.mem_ofPred_eq, result, interrupted])
        omega
    obtain ⟨⟨done, taken⟩, ends⟩ := Option.isSome_iff_exists.mp (@offer_ends _ (b.buf.take b.len) _ _ few)
    exact ⟨_, _, _, by rw [writeAll_offer, ends, Option.map_some]⟩

/-- Two bytes, an interruption, and then the rest. -/
theorem writeAll_delivers_sample :
    let b : Buffer := ⟨ascii ['b', 'y', 'e', '!', '\n'], 5, by decide, by decide⟩
    let results : ℕ → Wrote := fun k => if k = 0 then .accepts 1 else if k = 1 then .failed EINTR else .accepts 9
    ∃ accepted, writeAll b results 3 = some (5, accepted) ∧ accepted = b.buf.take b.len := by
  intro b results
  have returns : writeAll b results 3 = some (5, ascii ['b', 'y', 'e', '!', '\n']) := by decide
  exact ⟨_, returns, ((writeAll_delivers b results).1 3 5 _ returns).2.1 rfl⟩

end OsyProg.WriteAll

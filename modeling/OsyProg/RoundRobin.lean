import OsyProg.ThreadRuns

/-!
Round robin. While a slot stays ready, every switch moves the current slot
forward in cyclic order and never past that slot, so the switches of the segment
lead to different slots (`switches_between`, `round_robin`).
-/
namespace OsyProg.RoundRobin
open OsyProg.Cyclic OsyProg.Gthreads OsyProg.Runs OsyProg.ThreadRuns

variable {n : ℕ} [NeZero n]

/-- The slots that the calls of `gt_yield` in a run switch to, in order. -/
def switches (s : Threads n) : List (Op n) → List (Fin n)
  | [] => []
  | op :: rest => (switchedTo s op).toList ++ (step s op).elim [] fun t => switches t rest

/-- An operation that switches selects the first ready slot after the current
    one, and a slot that is ready all the time comes no earlier. -/
theorem switchedTo_some {s t : Threads n} {op : Op n} {i j : Fin n} (inv : Invariant s)
    (free : MainNeverBlocks s op) (taken : step s op = some t) (switched : switchedTo s op = some j)
    (ready : s.stateOf i = .Ready) : t.gtcur = j ∧ 0 < gap s.gtcur j ∧ gap s.gtcur j ≤ gap s.gtcur i := by
  have performed : (perform s op).1 = t := by simpa [step, inv.alive] using taken
  have away : i ≠ s.gtcur := fun here => by rw [here, inv.current] at ready; cases ready
  rcases perform_cases s op with ⟨-, -, -, -, quiet⟩ | ⟨_, _, -, same⟩ | ⟨_, -, same⟩ |
    ⟨here, m, p, made, first, same⟩ | ⟨here, m, -, -, same⟩
  · rw [switchedTo, quiet] at switched; cases switched
  · rw [switchedTo, same] at switched; cases switched
  · rw [switchedTo, same] at switched; cases switched
  · obtain ⟨-, notReady, -⟩ := calls_ok inv.table inv.current free made
    rw [switchedTo, same] at switched
    have selected : p = j := by simpa using switched
    subst selected
    rw [(calls_other made).1] at first
    refine ⟨by rw [← performed, same, switchTo_gtcur], ?_, ?_⟩
    · exact gap_pos fun back => notReady (back ▸ first.1)
    · exact first.2 i ((calls_keeps made away (by simp [ready])).trans ready)
  · rw [switchedTo, same] at switched
    have none : ¬ -((Finset.univ.filter (Waiting m)).card : ℤ) = 1 := by omega
    simp [none] at switched

/-- An operation that does not switch leaves the current slot. -/
theorem switchedTo_none {s t : Threads n} {op : Op n} (inv : Invariant s)
    (taken : step s op = some t) (stayed : switchedTo s op = none) : t.gtcur = s.gtcur := by
  have performed : (perform s op).1 = t := by simpa [step, inv.alive] using taken
  subst performed
  rcases perform_cases s op with ⟨-, table, -⟩ | ⟨_, _, -, same⟩ | ⟨_, -, same⟩ |
    ⟨here, m, p, -, -, same⟩ | ⟨here, m, made, -, same⟩
  · rw [table]
  · rw [same]; rfl
  · rw [same]; exact gtResume_gtcur ..
  · rw [switchedTo, same] at stayed; cases stayed
  · rw [same]; exact (calls_other made).1

/-- While slot `i` stays ready, the slots switched to are different ones, all after
    the current slot and before `i`. -/
theorem switches_between {i : Fin n} {ops : List (Op n)} {s : Threads n} (inv : Invariant s)
    (free : AllSteps step MainNeverBlocks s ops) (stays : AllStates step (fun t => t.stateOf i = .Ready) s ops) :
    (switches s ops).Nodup ∧ ∀ j ∈ switches s ops, 0 < gap s.gtcur j ∧ gap s.gtcur j < gap s.gtcur i := by
  induction ops generalizing s with
  | nil => simp [switches]
  | cons op rest ih =>
    cases taken : step s op with
    | none => rw [step, inv.alive] at taken; cases taken
    | some t =>
      have invT := step_invariant s op t inv free.1 taken
      have readyT := allStates_head (stays.2 t taken)
      have away : i ≠ t.gtcur := fun here => by rw [here, invT.current] at readyT; cases readyT
      obtain ⟨distinct, between⟩ := ih invT (free.2 t taken) (stays.2 t taken)
      rw [switches, taken]
      cases moved : switchedTo s op with
      | none =>
        rw [switchedTo_none inv taken moved] at between
        exact ⟨distinct, between⟩
      | some j =>
        obtain ⟨cur, after, before⟩ := switchedTo_some inv free.1 taken moved stays.1
        rw [cur] at between away
        have left := gap_sub before
        have room := gap_pos away
        have bound := gap_lt s.gtcur i
        constructor
        · refine List.nodup_cons.mpr ⟨fun again => ?_, distinct⟩
          have := (between j again).1
          rw [gap_self] at this
          omega
        · intro k member
          rcases List.mem_cons.mp member with rfl | later
          · omega
          · obtain ⟨past, short⟩ := between k later
            rw [gap_add (b := j) (by omega)]
            omega

/-- In every run in which thread 0 does not block itself, and in every segment of
    it during which a slot stays ready, no slot is switched to twice. -/
theorem round_robin {before segment : List (Op n)} {s : Threads n} {i : Fin n}
    (free : AllSteps step MainNeverBlocks (start n) (before ++ segment))
    (reached : exec step (start n) before = some s)
    (stays : AllStates step (fun t => t.stateOf i = .Ready) s segment) (j : Fin n) :
    (switches s segment).count j ≤ 1 := by
  obtain ⟨freeBefore, freeAfter⟩ := allSteps_append.mp free
  have inv := run_invariant freeBefore reached
  exact List.nodup_iff_count_le_one.mp (switches_between inv (freeAfter s reached) stays).1 j

/-- Slot 3 stays ready while the first two threads take their turns. -/
theorem round_robin_sample :
    ∃ s : Threads 4, exec step (start 4) [.go none true, .go none true, .go none true] = some s ∧
      switches s [.yield, .go none true, .sigHandle] = [1, 2] ∧
      (switches s [.yield, .go none true, .sigHandle]).count 2 ≤ 1 := by
  have free : AllSteps step MainNeverBlocks (start 4)
      ([.go none true, .go none true, .go none true] ++ [.yield, .go none true, .sigHandle]) := by decide
  have ends : (exec step (start 4) [.go none true, .go none true, .go none true]).map
      (fun s => (switches s [.yield, .go none true, .sigHandle],
        decide (AllStates step (fun t => t.stateOf 3 = .Ready) s [.yield, .go none true, .sigHandle]))) =
      some ([1, 2], true) := by decide
  obtain ⟨s, reached, seen⟩ := Option.map_eq_some_iff.mp ends
  simp only [Prod.mk.injEq, decide_eq_true_eq] at seen
  exact ⟨s, reached, seen.1, round_robin free reached seen.2 2⟩

end OsyProg.RoundRobin

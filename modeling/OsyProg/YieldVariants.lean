import OsyProg.Gthreads
import Mathlib.Data.UInt

/-!
The two other versions of `gt_yield`. The one of `osy-gthreads-main-learn` looks at
the current slot last, in a `do` loop; from a slot that is not ready it does the
same as the `while` loop (`scanDo_eq`, `yield_first_ready`). The one of
`osy-gthreads-main_test` counts ticks and leaves slot 0, the idle thread, for the
case that nothing else is ready: a second loop from slot 1 on replaces slot 0 by
the slot that the cyclic scan would find without it (`second_scan`,
`yield_idle_last`).
-/
namespace OsyProg.YieldVariants
open OsyProg.Bytes OsyProg.Cyclic OsyProg.Gthreads

/-! ### The do loop of osy-gthreads-main-learn -/

section
variable {n : ℕ}

/-- The `do` loop of `gt_yield`, with at most the given number of rounds. -/
def scanDo (s : Table n) : ℕ → Fin n → ℕ → Option (Scan n)
  | 0, _, _ => none
  | rounds + 1, p, noReady =>
    let noReady := if Waiting s p then noReady + 1 else noReady
    let p := next p
    if p = s.gtcur then some (.noReady noReady)
    else if s.stateOf p = .Ready then some (.found p) else scanDo s rounds p noReady

/-- `gt_yield` of `osy-gthreads-main-learn`, in both builds. -/
def gtYieldLearn (b : Build) (s : Table n) : Table n × ℤ :=
  let s := if b = .cooperative then gtManageTimers s else s
  match scanDo s n s.gtcur 0 with
  | some (.found p) => (switchTo s p, 1)
  | some (.noReady count) => (s, -count)
  | none => (s, 0)

/-- From a slot that is not ready both loops end in the same way. -/
theorem scanDo_eq (s : Table n) (rounds : ℕ) (p : Fin n) (count : ℕ) (enough : rounds + gap s.gtcur p = n)
    (skipped : s.stateOf p ≠ .Ready) : scanDo s rounds p count = scan s rounds p count := by
  induction rounds generalizing p count with
  | zero => rfl
  | succ rounds ih =>
    rw [scanDo, scan, if_neg skipped]
    by_cases back : next p = s.gtcur
    · rw [if_pos back, if_pos back]
    · have onward := gap_next back
      simp only [if_neg back]
      by_cases ready : s.stateOf (next p) = .Ready
      · -- The `while` loop sees the ready slot in its next round.
        obtain ⟨more, rfl⟩ : ∃ more, rounds = more + 1 := by
          refine Nat.exists_eq_succ_of_ne_zero ?_
          rintro rfl
          have := gap_lt s.gtcur (next p)
          omega
        rw [if_pos ready, scan, if_pos ready]
      · rw [if_neg ready]
        exact ih (next p) _ (by omega) ready

theorem gtYieldLearn_eq (s : Table n) (skipped : s.stateOf s.gtcur ≠ .Ready) :
    gtYieldLearn .preemptive s = gtYield s := by
  have same := scanDo_eq s n s.gtcur 0 (by simp) skipped
  simp only [gtYieldLearn, reduceCtorEq, if_false, same]
  rfl

/-- `gt_yield` of `osy-gthreads-main` for every table and every current slot: the
    scan ends within `n` rounds. If a slot is ready, the first one in cyclic order
    from the current slot on becomes running and current, the old slot becomes
    ready when it was running, the other slots keep their states, and the result is
    1. If none is, nothing changes and the result is minus the number of blocked
    and suspended slots. From a current slot that is not ready, `gt_yield` of
    `osy-gthreads-main-learn` does the same. -/
theorem yield_first_ready (s : Table n) :
    (∃ outcome, scan s n s.gtcur 0 = some outcome) ∧
      ((∃ r, s.stateOf r = .Ready) → ∃ p, First (fun r => s.stateOf r = .Ready) s.gtcur p ∧
        (gtYield s).2 = 1 ∧ (gtYield s).1.gtcur = p ∧ (gtYield s).1.stateOf p = .Running ∧
        ((gtYield s).1.stateOf s.gtcur = .Ready ↔ s.stateOf s.gtcur = .Running) ∧
        ∀ i, i ≠ p → ¬ (i = s.gtcur ∧ s.stateOf i = .Running) → (gtYield s).1.stateOf i = s.stateOf i) ∧
      ((∀ r, s.stateOf r ≠ .Ready) → gtYield s = (s, -((Finset.univ.filter (Waiting s)).card : ℤ))) ∧
      (s.stateOf s.gtcur ≠ .Ready → gtYieldLearn .preemptive s = gtYield s) := by
  refine ⟨?_, ?_, ?_, gtYieldLearn_eq s⟩
  · rcases scan_spec s with ⟨q, found, -⟩ | ⟨counted, -⟩
    · exact ⟨_, found⟩
    · exact ⟨_, counted⟩
  · rintro ⟨r, ready⟩
    rcases gtYield_cases s with ⟨p, first, yields⟩ | ⟨none, -⟩
    · refine ⟨p, first, ?_⟩
      rw [yields]
      refine ⟨rfl, rfl, by rw [switchTo_stateOf, if_pos rfl], ?_, ?_⟩
      · rw [switchTo_stateOf]
        by_cases own : s.gtcur = p
        · -- The current slot was ready itself.
          have ready : s.stateOf p = .Ready := first.1
          rw [if_pos own, own, ready]
          simp
        · have notReady : s.stateOf s.gtcur ≠ .Ready := by
            intro ready
            have zero := first.2 s.gtcur ready
            rw [gap_self] at zero
            exact own (gap_eq_zero.mp (by omega)).symm
          by_cases runs : s.stateOf s.gtcur = .Running
          · simp [own, runs]
          · simp [own, runs, notReady]
      · intro i other untouched
        rw [switchTo_stateOf, if_neg other, if_neg untouched]
    · exact absurd ready (none r)
  · intro none
    rcases gtYield_cases s with ⟨p, first, -⟩ | ⟨-, yields⟩
    · exact absurd first.1 (none p)
    · exact yields

end

/-! ### The idle thread of osy-gthreads-main_test -/

/-- The table with the counters of ticks: `cpu_ticks` of each slot and `g_sys_ticks`. -/
structure Ticked (n : ℕ) extends Table n where
  cpuTicks : Fin n → UInt64
  sysTicks : UInt64

section
variable {n : ℕ}

/-- The slots from 1 on that are ready, as both loops over `i` test them. -/
def readyNonidle (s : Table n) (i : Fin n) : Bool := decide (1 ≤ i.val ∧ s.stateOf i = .Ready)

/-- `gt_has_ready_nonidle` -/
def gtHasReadyNonidle (s : Table n) : Bool := (List.finRange n).any (readyNonidle s)

/-- The slot of the second loop of `gt_yield`, which replaces slot 0 when the first
    one has stopped there. -/
def replaceIdle (s : Table n) (hasNonidle : Bool) (p : Fin n) : Fin n :=
  if hasNonidle && p.val = 0 then ((List.finRange n).find? (readyNonidle s)).getD p else p

/-- The two counters at the start of `gt_yield`. -/
def countTick (s : Ticked n) : Ticked n :=
  let s := if s.stateOf s.gtcur = .Running then
      { s with cpuTicks := Function.update s.cpuTicks s.gtcur (s.cpuTicks s.gtcur + 1) }
    else s
  { s with sysTicks := s.sysTicks + 1 }

/-- `gt_yield` of `osy-gthreads-main_test` -/
def gtYieldTicked (s : Ticked n) : Ticked n × ℤ :=
  let s := countTick s
  let hasNonidle := gtHasReadyNonidle s.toTable
  match scan s.toTable n s.gtcur 0 with
  | some (.found p) =>
    let p := replaceIdle s.toTable hasNonidle p
    ({ s with toTable := switchTo s.toTable p, sysTicks := s.sysTicks + 1 }, 1)
  | some (.noReady count) => (s, -count)
  | none => (s, 0)

@[simp] theorem countTick_toTable (s : Ticked n) : (countTick s).toTable = s.toTable := by
  unfold countTick
  split <;> rfl

theorem gtHasReadyNonidle_iff (s : Table n) :
    gtHasReadyNonidle s = true ↔ ∃ i : Fin n, 1 ≤ i.val ∧ s.stateOf i = .Ready := by
  simp [gtHasReadyNonidle, readyNonidle]

/-- When the scan has stopped at slot 0 and another slot is ready, all slots from the
    current one on have been ruled out, so that the first ready slot from 1 on is
    the first one in cyclic order apart from slot 0. -/
theorem second_scan {s : Table n} {p q : Fin n} (idle : p.val = 0)
    (first : First (fun r => s.stateOf r = .Ready) s.gtcur p)
    (found : (List.finRange n).find? (readyNonidle s) = some q) :
    First (fun r => 1 ≤ r.val ∧ s.stateOf r = .Ready) s.gtcur q := by
  obtain ⟨readyQ, least⟩ := find?_least found
  rw [readyNonidle, decide_eq_true_eq] at readyQ
  refine ⟨readyQ, ?_⟩
  rintro r ⟨other, ready⟩
  have order : q ≤ r := least r (by simp [readyNonidle, other, ready])
  -- From the current slot the way to any ready slot leads through slot 0.
  have through : ∀ i, s.stateOf i = .Ready → gap s.gtcur i = gap s.gtcur p + i.val := by
    intro i readyI
    have le := first.2 i readyI
    have rest := gap_sub le
    rw [gap_zero p i idle] at rest
    omega
  rw [through q readyQ.2, through r ready]
  exact Nat.add_le_add_left order _

/-- What `gt_yield` of `osy-gthreads-main_test` switches to. -/
theorem gtYieldTicked_cases (s : Ticked n) :
    (∃ p, First (fun r => 1 ≤ r.val ∧ s.stateOf r = .Ready) s.gtcur p ∧ gtYieldTicked s =
        ({ countTick s with toTable := switchTo s.toTable p, sysTicks := (countTick s).sysTicks + 1 }, 1)) ∨
      (∃ p : Fin n, p.val = 0 ∧ s.stateOf p = .Ready ∧ (∀ r : Fin n, 1 ≤ r.val → s.stateOf r ≠ .Ready) ∧
        gtYieldTicked s =
          ({ countTick s with toTable := switchTo s.toTable p, sysTicks := (countTick s).sysTicks + 1 }, 1)) ∨
      ((∀ r, s.stateOf r ≠ .Ready) ∧
        gtYieldTicked s = (countTick s, -((Finset.univ.filter (Waiting s.toTable)).card : ℤ))) := by
  unfold gtYieldTicked
  simp only [countTick_toTable]
  rcases scan_spec s.toTable with ⟨p, found, first⟩ | ⟨counted, none⟩
  · simp only [found]
    by_cases idle : p.val = 0
    · by_cases other : ∃ i : Fin n, 1 ≤ i.val ∧ s.stateOf i = .Ready
      · have has := (gtHasReadyNonidle_iff s.toTable).mpr other
        obtain ⟨q, second⟩ : ∃ q, (List.finRange n).find? (readyNonidle s.toTable) = some q := by
          apply Option.isSome_iff_exists.mp
          rw [List.find?_isSome]
          obtain ⟨i, positive, ready⟩ := other
          exact ⟨i, List.mem_finRange i, by simp [readyNonidle, positive, ready]⟩
        refine .inl ⟨q, second_scan idle first second, ?_⟩
        rw [replaceIdle, has, second]
        simp [idle]
      · have none : gtHasReadyNonidle s.toTable = false := by
          rw [← Bool.not_eq_true, gtHasReadyNonidle_iff]
          exact other
        refine .inr (.inl ⟨p, idle, first.1, fun r positive ready => other ⟨r, positive, ready⟩, ?_⟩)
        rw [replaceIdle, none]
        simp
    · refine .inl ⟨p, ⟨⟨Nat.one_le_iff_ne_zero.mpr idle, first.1⟩, fun r ready => first.2 r ready.2⟩, ?_⟩
      rw [replaceIdle, if_neg (by simp [idle])]
  · exact .inr (.inr ⟨none, by simp only [counted]⟩)

/-- `gt_yield` of `osy-gthreads-main_test` for every table and every current slot:
    it selects slot 0 only if no other slot is ready; otherwise it selects the first
    ready slot in cyclic order from the current one on, slot 0 left out. If no slot
    is ready, the result is minus the number of blocked and suspended slots, and the
    table and the current slot stay as they are. -/
theorem yield_idle_last (s : Ticked n) :
    ((gtYieldTicked s).2 = 1 → (gtYieldTicked s).1.gtcur.val = 0 →
        ∀ r : Fin n, 1 ≤ r.val → s.stateOf r ≠ .Ready) ∧
      ((∃ r : Fin n, 1 ≤ r.val ∧ s.stateOf r = .Ready) →
        ∃ p, First (fun r => 1 ≤ r.val ∧ s.stateOf r = .Ready) s.gtcur p ∧
          (gtYieldTicked s).2 = 1 ∧ (gtYieldTicked s).1.toTable = switchTo s.toTable p) ∧
      ((∃ r, s.stateOf r = .Ready) → (∀ r : Fin n, 1 ≤ r.val → s.stateOf r ≠ .Ready) →
        (gtYieldTicked s).2 = 1 ∧ ∃ p : Fin n, p.val = 0 ∧ (gtYieldTicked s).1.toTable = switchTo s.toTable p) ∧
      ((∀ r, s.stateOf r ≠ .Ready) →
        (gtYieldTicked s).2 = -((Finset.univ.filter (Waiting s.toTable)).card : ℤ) ∧
          (gtYieldTicked s).1.toTable = s.toTable) := by
  rcases gtYieldTicked_cases s with ⟨p, first, yields⟩ | ⟨p, idle, ready, others, yields⟩ | ⟨none, yields⟩
  · rw [yields]
    refine ⟨?_, fun _ => ⟨p, first, rfl, rfl⟩, ?_, ?_⟩
    · intro _ zero
      have positive : 1 ≤ p.val := first.1.1
      have same : p.val = 0 := zero
      omega
    · intro _ others
      exact absurd first.1.2 (others p first.1.1)
    · intro none
      exact absurd first.1.2 (none p)
  · rw [yields]
    refine ⟨fun _ _ => others, ?_, fun _ _ => ⟨rfl, p, idle, rfl⟩, ?_⟩
    · rintro ⟨r, positive, readyR⟩
      exact absurd readyR (others r positive)
    · intro none
      exact absurd ready (none p)
  · rw [yields]
    refine ⟨fun _ _ r _ => none r, ?_, ?_, fun _ => ⟨rfl, countTick_toTable s⟩⟩
    · rintro ⟨r, -, ready⟩
      exact absurd ready (none r)
    · rintro ⟨r, ready⟩
      exact absurd ready (none r)

end

end OsyProg.YieldVariants

import Mathlib.Data.List.Basic
import Mathlib.Data.List.Count
import Mathlib.Logic.Function.Basic

/-!
Handles that are given out for things that are opened, and that are used again after they
have been closed, as descriptors are. The things are numbered in the order of opening, and
the closings are recorded with the thing that each has hit. Whatever handle is closed, a
thing that was opened is open under one handle and not closed yet, or it was closed exactly
once (`Sound`). A table of slots that holds the open handles, one each (`Mirrors`), goes on
doing so when a new handle is put into a free slot, and when the handle of a slot is closed
and the slot freed.
-/
namespace OsyProg.Handles
universe u v

/-- What each handle is open for, how many things were opened, and the closings. -/
structure Ledger (Handle : Type u) where
  owner : Handle → Option ℕ
  opened : ℕ
  closed : List (Handle × Option ℕ)

namespace Ledger

variable {Handle : Type u} [DecidableEq Handle]

/-- The next thing is opened under the given handle. -/
def opens (k : Ledger Handle) (h : Handle) : Ledger Handle :=
  { k with owner := Function.update k.owner h (some k.opened), opened := k.opened + 1 }

/-- A handle is closed; it may be one that is not open. -/
def closes (k : Ledger Handle) (h : Handle) : Ledger Handle :=
  { k with owner := Function.update k.owner h none, closed := k.closed ++ [(h, k.owner h)] }

omit [DecidableEq Handle] in
/-- How often a thing was closed. -/
def timesClosed (k : Ledger Handle) (c : ℕ) : ℕ := (k.closed.map Prod.snd).count (some c)

@[simp] theorem owner_opens_self (k : Ledger Handle) (h : Handle) : (k.opens h).owner h = some k.opened := Function.update_self ..
@[simp] theorem owner_closes_self (k : Ledger Handle) (h : Handle) : (k.closes h).owner h = none := Function.update_self ..

theorem owner_opens {k : Ledger Handle} {h h' : Handle} (other : h' ≠ h) : (k.opens h).owner h' = k.owner h' :=
  Function.update_of_ne other ..

theorem owner_closes {k : Ledger Handle} {h h' : Handle} (other : h' ≠ h) : (k.closes h).owner h' = k.owner h' :=
  Function.update_of_ne other ..

theorem owner_opens_iff {k : Ledger Handle} {h h' : Handle} {c : ℕ} :
    (k.opens h).owner h' = some c ↔ h' = h ∧ c = k.opened ∨ h' ≠ h ∧ k.owner h' = some c := by
  by_cases same : h' = h
  · simp [same, eq_comm]
  · simp [owner_opens same, same]

theorem owner_closes_iff {k : Ledger Handle} {h h' : Handle} {c : ℕ} :
    (k.closes h).owner h' = some c ↔ h' ≠ h ∧ k.owner h' = some c := by
  by_cases same : h' = h
  · simp [same]
  · simp [owner_closes same, same]

@[simp] theorem timesClosed_opens (k : Ledger Handle) (h : Handle) (c : ℕ) : (k.opens h).timesClosed c = k.timesClosed c := rfl

theorem timesClosed_closes (k : Ledger Handle) (h : Handle) (c : ℕ) :
    (k.closes h).timesClosed c = k.timesClosed c + if k.owner h = some c then 1 else 0 := by
  simp [timesClosed, closes, List.count_singleton]

/-- What is opened and closed under a handle that was not open leaves the open handles as they were. -/
theorem owner_opens_closes {k : Ledger Handle} {h : Handle} (fresh : k.owner h = none) : ((k.opens h).closes h).owner = k.owner := by
  simp only [opens, closes, Function.update_idem]
  rw [← fresh, Function.update_eq_self]

/-- Each thing that was opened is open under one handle, or it was closed once. -/
structure Sound (k : Ledger Handle) : Prop where
  single : ∀ h h' c, k.owner h = some c → k.owner h' = some c → h = h'
  open_ : ∀ h c, k.owner h = some c → c < k.opened ∧ k.timesClosed c = 0
  closed : ∀ c, c < k.opened → (∀ h, k.owner h ≠ some c) → k.timesClosed c = 1
  later : ∀ c, k.opened ≤ c → k.timesClosed c = 0

variable {k : Ledger Handle} {h : Handle}

omit [DecidableEq Handle] in
theorem Sound.timesClosed_le (sound : k.Sound) (c : ℕ) : k.timesClosed c ≤ 1 := by
  by_cases before : c < k.opened
  · by_cases found : ∃ h, k.owner h = some c
    · obtain ⟨h, owns⟩ := found
      rw [(sound.open_ h c owns).2]
      exact Nat.zero_le 1
    · exact Nat.le_of_eq (sound.closed c before fun h owns => found ⟨h, owns⟩)
  · rw [sound.later c (Nat.le_of_not_lt before)]
    exact Nat.zero_le 1

theorem Sound.opens (sound : k.Sound) (fresh : k.owner h = none) : (k.opens h).Sound := by
  refine ⟨?_, ?_, ?_, ?_⟩
  · intro h' h'' c first second
    rcases owner_opens_iff.mp first with ⟨rfl, new⟩ | ⟨-, old⟩ <;> rcases owner_opens_iff.mp second with ⟨rfl, new'⟩ | ⟨-, old'⟩
    · rfl
    · have := (sound.open_ _ _ old').1
      omega
    · have := (sound.open_ _ _ old).1
      omega
    · exact sound.single _ _ c old old'
  · intro h' c owns
    rw [timesClosed_opens]
    rcases owner_opens_iff.mp owns with ⟨-, rfl⟩ | ⟨-, old⟩
    · exact ⟨Nat.lt_succ_self _, sound.later _ (Nat.le_refl _)⟩
    · exact ⟨Nat.lt_succ_of_lt (sound.open_ _ _ old).1, (sound.open_ _ _ old).2⟩
  · intro c low unowned
    have other : c ≠ k.opened := fun same => unowned h (owner_opens_iff.mpr (.inl ⟨rfl, same⟩))
    refine sound.closed c (Nat.lt_of_le_of_ne (Nat.lt_succ_iff.mp low) other) fun h' owns => ?_
    by_cases same : h' = h
    · rw [same, fresh] at owns
      cases owns
    · exact unowned h' (owner_opens_iff.mpr (.inr ⟨same, owns⟩))
  · intro c high
    exact sound.later c (Nat.le_of_succ_le high)

theorem Sound.closes (sound : k.Sound) (h : Handle) : (k.closes h).Sound := by
  refine ⟨?_, ?_, ?_, ?_⟩
  · intro h' h'' c first second
    exact sound.single _ _ c (owner_closes_iff.mp first).2 (owner_closes_iff.mp second).2
  · intro h' c owns
    obtain ⟨other, old⟩ := owner_closes_iff.mp owns
    have elsewhere : k.owner h ≠ some c := fun same => other (sound.single _ _ c old same)
    rw [timesClosed_closes, if_neg elsewhere]
    exact sound.open_ h' c old
  · intro c low unowned
    rw [timesClosed_closes]
    by_cases here : k.owner h = some c
    · rw [if_pos here, (sound.open_ h c here).2]
    · rw [if_neg here, sound.closed c low fun h' owns => ?_]
      by_cases same : h' = h
      · exact here (same ▸ owns)
      · exact unowned h' (owner_closes_iff.mpr ⟨same, owns⟩)
  · intro c high
    have elsewhere : k.owner h ≠ some c := by
      intro same
      have := (sound.open_ h c same).1
      have : k.opened ≤ c := high
      omega
    rw [timesClosed_closes, if_neg elsewhere]
    exact sound.later c high

omit [DecidableEq Handle] in
/-- Nothing has been opened. -/
theorem sound_start : ({ owner := fun _ => none, opened := 0, closed := [] } : Ledger Handle).Sound where
  single := fun _ _ _ owns => by cases owns
  open_ := fun _ _ owns => by cases owns
  closed := fun _ low => absurd low (Nat.not_lt_zero _)
  later := fun _ _ => rfl

end Ledger

/-! ### A table of handles -/

section
variable {Handle : Type u} {ι : Type v} {free : Handle} {slots : ι → Handle} {k : Ledger Handle} {h : Handle} {i : ι}

/-- The slots that are not free hold the open handles, each once. -/
structure Mirrors (free : Handle) (slots : ι → Handle) (k : Ledger Handle) : Prop where
  unowned : k.owner free = none
  used : ∀ i, slots i ≠ free → k.owner (slots i) ≠ none
  found : ∀ h, k.owner h ≠ none → ∃ i, slots i = h
  distinct : ∀ i j, slots i = slots j → slots i ≠ free → i = j

/-- The table is about the open handles alone. -/
theorem Mirrors.congr {k' : Ledger Handle} (table : Mirrors free slots k) (same : k'.owner = k.owner) : Mirrors free slots k' := by
  obtain ⟨unowned, used, found, distinct⟩ := table
  rw [← same] at unowned used found
  exact ⟨unowned, used, found, distinct⟩

variable [DecidableEq Handle] [DecidableEq ι]

/-- A new handle is put into a free slot. -/
theorem Mirrors.opens (table : Mirrors free slots k) (empty : slots i = free) (fresh : k.owner h = none) (other : h ≠ free) :
    Mirrors free (Function.update slots i h) (k.opens h) := by
  have notHere (j : ι) (elsewhere : j ≠ i) : slots j ≠ h := by
    rintro rfl
    exact table.used j other fresh
  refine ⟨?_, ?_, ?_, ?_⟩
  · rw [Ledger.owner_opens (Ne.symm other)]
    exact table.unowned
  · intro j usedJ
    by_cases here : j = i
    · subst here
      simp [Ledger.opens]
    · rw [Function.update_of_ne here] at usedJ ⊢
      rw [Ledger.owner_opens (notHere j here)]
      exact table.used j usedJ
  · intro h' owned
    by_cases new : h' = h
    · exact ⟨i, by rw [Function.update_self, new]⟩
    · rw [Ledger.owner_opens new] at owned
      obtain ⟨j, rfl⟩ := table.found h' owned
      have elsewhere : j ≠ i := by
        rintro rfl
        rw [empty] at owned
        exact owned table.unowned
      exact ⟨j, Function.update_of_ne elsewhere _ _⟩
  · intro j j' same usedJ
    by_cases here : j = i <;> by_cases here' : j' = i
    · rw [here, here']
    · rw [here, Function.update_self, Function.update_of_ne here'] at same
      exact absurd same.symm (notHere j' here')
    · rw [here', Function.update_self, Function.update_of_ne here] at same
      exact absurd same (notHere j here)
    · rw [Function.update_of_ne here, Function.update_of_ne here'] at same
      rw [Function.update_of_ne here] at usedJ
      exact table.distinct j j' same usedJ

/-- The handle of a slot is closed, and the slot is freed; it may be free already. -/
theorem Mirrors.closes (table : Mirrors free slots k) (i : ι) :
    Mirrors free (Function.update slots i free) (k.closes (slots i)) := by
  have notHere (j : ι) (elsewhere : j ≠ i) (usedJ : slots j ≠ free) : slots j ≠ slots i := fun same =>
    elsewhere (table.distinct j i same usedJ)
  refine ⟨?_, ?_, ?_, ?_⟩
  · by_cases here : free = slots i
    · rw [← here, Ledger.owner_closes_self]
    · rw [Ledger.owner_closes here]
      exact table.unowned
  · intro j usedJ
    by_cases here : j = i
    · exact absurd (here ▸ Function.update_self ..) usedJ
    · rw [Function.update_of_ne here] at usedJ ⊢
      rw [Ledger.owner_closes (notHere j here usedJ)]
      exact table.used j usedJ
  · intro h' owned
    have other : h' ≠ slots i := by
      rintro rfl
      exact owned (Ledger.owner_closes_self ..)
    rw [Ledger.owner_closes other] at owned
    obtain ⟨j, rfl⟩ := table.found h' owned
    have elsewhere : j ≠ i := by
      rintro rfl
      exact other rfl
    exact ⟨j, Function.update_of_ne elsewhere _ _⟩
  · intro j j' same usedJ
    have here : j ≠ i := by
      rintro rfl
      exact usedJ (Function.update_self ..)
    rw [Function.update_of_ne here] at same usedJ
    have here' : j' ≠ i := by
      rintro rfl
      rw [Function.update_self] at same
      exact usedJ same
    rw [Function.update_of_ne here'] at same
    exact table.distinct j j' same usedJ

omit [DecidableEq ι] in
/-- A new handle is closed at once. -/
theorem Mirrors.opens_closes (table : Mirrors free slots k) (fresh : k.owner h = none) : Mirrors free slots ((k.opens h).closes h) :=
  table.congr (Ledger.owner_opens_closes fresh)

/-! ### Closing the whole table -/

/-- The handles of the given slots are closed, one slot after the other. -/
def closesAll (free : Handle) (slots : ι → Handle) (k : Ledger Handle) : List ι → Ledger Handle
  | [] => k
  | i :: later => closesAll free slots (if slots i = free then k else k.closes (slots i)) later

omit [DecidableEq ι] in
theorem closesAll_sound (sound : k.Sound) (all : List ι) : (closesAll free slots k all).Sound ∧ (closesAll free slots k all).opened = k.opened := by
  induction all generalizing k with
  | nil => exact ⟨sound, rfl⟩
  | cons i later ih =>
    rw [closesAll]
    split
    · exact ih sound
    · exact ih (sound.closes _)

omit [DecidableEq ι] in
/-- A handle stays closed, and the handle of a given slot is closed. -/
theorem closesAll_owner (unowned : k.owner free = none) (all : List ι) (h : Handle) (gone : k.owner h = none ∨ ∃ i ∈ all, slots i = h) :
    (closesAll free slots k all).owner h = none := by
  induction all generalizing k with
  | nil =>
    rcases gone with none | ⟨i, inside, -⟩
    · exact none
    · cases inside
  | cons i later ih =>
    have step (h' : Handle) (either : k.owner h' = none ∨ slots i = h') :
        (if slots i = free then k else k.closes (slots i)).owner h' = none := by
      split
      case isTrue empty =>
        rcases either with unowned' | rfl
        · exact unowned'
        · rw [empty, unowned]
      case isFalse =>
        by_cases same : h' = slots i
        · rw [same, Ledger.owner_closes_self]
        · rw [Ledger.owner_closes same]
          exact either.resolve_right (Ne.symm same)
    rw [closesAll]
    refine ih (step free (.inl unowned)) ?_
    rcases gone with none | ⟨j, inside, here⟩
    · exact .inl (step h (.inl none))
    · rcases List.mem_cons.mp inside with rfl | inside
      · exact .inl (step h (.inr here))
      · exact .inr ⟨j, inside, here⟩

omit [DecidableEq ι] in
/-- After the whole table, everything that was opened has been closed. -/
theorem closesAll_closed (sound : k.Sound) (table : Mirrors free slots k) {all : List ι} (every : ∀ i, i ∈ all) {c : ℕ}
    (before : c < k.opened) : (closesAll free slots k all).timesClosed c = 1 := by
  obtain ⟨after, opened⟩ := @closesAll_sound _ _ free slots _ _ sound all
  refine after.closed c (by rwa [opened]) fun h owns => ?_
  have gone : k.owner h = none ∨ ∃ i ∈ all, slots i = h := by
    by_cases owned : k.owner h = none
    · exact .inl owned
    · obtain ⟨i, here⟩ := table.found h owned
      exact .inr ⟨i, every i, here⟩
  rw [closesAll_owner table.unowned all h gone] at owns
  cases owns

end

end OsyProg.Handles

import Mathlib.Data.List.DropRight
import RingLog.Media.Bank
import RingLog.Proofs.Media.Calls

/-!
# The words that stand on a medium

A word of a medium is the conjunction of all values that were programmed there since its page was
last erased (`Medium.standing`). A bank that was just allocated shows these words whatever calls it
gets, and no access goes beyond its array (`Bank.Faithful`).

Main statements: `Medium.read_applyAll_blank` and `Bank.faithful_of_allocated`.
-/

namespace RingLog

variable {g : Geometry}

namespace Call

/-- The value that a call programs at a place, if it programs one there. -/
def value? (slot offset : Nat) : Call → Option Word
  | program s o word => if s = slot ∧ o = offset then some word else none
  | erase _ => none

/-- The call is about the word at a place: it programs that word or erases its page. -/
def Reaches (slot offset : Nat) : Call → Prop
  | program s o _ => s = slot ∧ o = offset
  | erase s => s = slot

end Call

namespace Medium

variable {slot offset : Nat} {call : Call}

/-- The calls behind the last one that erases a page. -/
def sinceErase (slot : Nat) (calls : List Call) : List Call :=
  calls.rtakeWhile (· != .erase slot)

/-- The conjunction of all values that were programmed at a place since its page was last erased.
A place beyond the medium always shows the erased word. -/
def standing (g : Geometry) (calls : List Call) (slot offset : Nat) : Word :=
  if g.Contains slot offset then
    ((sinceErase slot calls).filterMap (Call.value? slot offset)).foldl (· &&& ·) Word.erased
  else Word.erased

theorem standing_of_not_contains (hnot : ¬g.Contains slot offset) (calls : List Call) :
    standing g calls slot offset = Word.erased :=
  if_neg hnot

theorem standing_concat_erase (calls : List Call) (slot offset : Nat) :
    standing g (calls ++ [.erase slot]) slot offset = Word.erased := by
  have hnone : sinceErase slot (calls ++ [.erase slot]) = [] :=
    List.rtakeWhile_concat_neg _ _ _ (by simp)
  rw [standing, hnone]
  exact ite_self _

/-- A call other than an erasure of the page is one more call. -/
theorem standing_concat (hcontains : g.Contains slot offset) (hother : call ≠ .erase slot)
    (calls : List Call) : standing g (calls ++ [call]) slot offset =
      (call.value? slot offset).toList.foldl (· &&& ·) (standing g calls slot offset) := by
  have hmore : sinceErase slot (calls ++ [call]) = sinceErase slot calls ++ [call] :=
    List.rtakeWhile_concat_pos _ _ _ (by simpa using hother)
  rw [standing, standing, if_pos hcontains, if_pos hcontains, hmore, List.filterMap_append,
    List.foldl_append]
  cases hvalue : call.value? slot offset <;> simp [hvalue]

/-- What is read behind a call, at a place on the medium. -/
theorem read_apply (hcontains : g.Contains slot offset) (hother : call ≠ .erase slot)
    (medium : Medium g) : (medium.apply call).read slot offset =
      (call.value? slot offset).toList.foldl (· &&& ·) (medium.read slot offset) := by
  cases call with
  | erase s =>
    have hne : slot ≠ s := fun heq => hother (heq ▸ rfl)
    rw [apply, read_erase, if_neg hne]
    rfl
  | program s o word =>
    rw [apply, read_program, Call.value?]
    by_cases hplace : s = slot ∧ o = offset
    · obtain ⟨rfl, rfl⟩ := hplace
      rw [if_pos ⟨hcontains, rfl, rfl⟩, if_pos ⟨rfl, rfl⟩]
      rfl
    · have hne : ¬(g.Contains s o ∧ slot = s ∧ offset = o) :=
        fun h => hplace ⟨h.2.1.symm, h.2.2.symm⟩
      rw [if_neg hne, if_neg hplace]
      rfl

/-- Behind any calls a medium that was blank shows the words that stand on it. -/
theorem read_applyAll_blank (calls : List Call) (slot offset : Nat) :
    ((blank g).applyAll calls).read slot offset = standing g calls slot offset := by
  -- induction from the last call, which either erases the page or is one more call on it
  by_cases hcontains : g.Contains slot offset
  · induction calls using List.reverseRecOn with
    | nil =>
      rw [applyAll, List.foldl_nil, read_blank, standing, if_pos hcontains]
      rfl
    | append_singleton calls call ih =>
      rw [applyAll_append, applyAll_cons]
      by_cases herase : call = .erase slot
      · rw [herase, standing_concat_erase]
        show ((((blank g).applyAll calls).erase slot).read slot offset) = _
        rw [read_erase, if_pos rfl]
      · rw [standing_concat hcontains herase, ← ih]
        exact read_apply hcontains herase _
  · rw [read_of_not_contains hcontains, standing_of_not_contains hcontains]

/-- An erasure of the page hides what was programmed before, one of another page does not. -/
example : standing ⟨2, 8⟩ [.program 1 3 0, .erase 1, .program 1 3 0xff0f, .erase 0,
    .program 1 3 0xffff00ff] 1 3 = 0x0000000f := by
  decide

/-- A call changes only the words that it is about. -/
theorem read_apply_of_not_reaches (hnot : ¬call.Reaches slot offset) (medium : Medium g) :
    (medium.apply call).read slot offset = medium.read slot offset := by
  by_cases hcontains : g.Contains slot offset
  · have hother : call ≠ .erase slot := by
      rintro rfl
      exact hnot rfl
    have hvalue : call.value? slot offset = none := by
      cases call with
      | erase s => rfl
      | program s o word => exact if_neg hnot
    rw [read_apply hcontains hother, hvalue]
    rfl
  · rw [read_of_not_contains hcontains, read_of_not_contains hcontains]

end Medium

namespace Bank

variable {new : Bank g}

/-- Whatever calls the new bank gets, none of them goes beyond the array, each word that is read is
the one that stands there, and a call changes only the words that it is about. -/
structure Faithful (new : Bank g) : Prop where
  runs : ∀ calls, ∃ bank, new.applyAll calls = some bank
  reads : ∀ calls bank, new.applyAll calls = some bank → ∀ slot offset,
    bank.read slot offset = some (Medium.standing g calls slot offset)
  keeps : ∀ calls bank call after, new.applyAll calls = some bank → bank.apply call = some after →
    ∀ slot offset, ¬call.Reaches slot offset → after.read slot offset = bank.read slot offset

theorem allocate?_eq_some_iff : allocate? g = some new ↔ g.size ≤ maxWords ∧ new = blank g := by
  unfold allocate?
  split
  next hfits => simp [hfits, eq_comm]
  next hlarge => simp [hlarge]

theorem applyAll_blank (calls : List Call) :
    (blank g).applyAll calls = some (ofMedium ((Medium.blank g).applyAll calls)) := by
  rw [blank_eq_ofMedium]
  exact applyAll_ofMedium _ calls

theorem faithful_blank (g : Geometry) : (blank g).Faithful where
  runs calls := ⟨_, applyAll_blank calls⟩
  reads := by
    intro calls bank hbank slot offset
    rw [applyAll_blank, Option.some.injEq] at hbank
    rw [← hbank, read_ofMedium, Medium.read_applyAll_blank]
  keeps := by
    intro calls bank call after hbank hafter slot offset hnot
    rw [applyAll_blank, Option.some.injEq] at hbank
    rw [← hbank, apply_ofMedium, Option.some.injEq] at hafter
    rw [← hafter, ← hbank, read_ofMedium, read_ofMedium, Medium.read_apply_of_not_reaches hnot]

/-- A bank is to be had for every medium whose words fit in an array, and for no other. It shows the
words that stand on the medium, whatever calls it gets. -/
theorem faithful_of_allocated (g : Geometry) :
    ((∃ new : Bank g, allocate? g = some new) ↔ g.size ≤ maxWords) ∧
      ∀ new : Bank g, allocate? g = some new → new.Faithful := by
  refine ⟨⟨?_, fun hfits => ⟨_, if_pos hfits⟩⟩, ?_⟩
  · rintro ⟨new, hnew⟩
    exact (allocate?_eq_some_iff.mp hnew).1
  · intro new hnew
    rw [(allocate?_eq_some_iff.mp hnew).2]
    exact faithful_blank g

theorem faithful_of_allocated_two_pages :
    ∃ new : Bank ⟨2, 8⟩, allocate? ⟨2, 8⟩ = some new ∧ new.Faithful :=
  ⟨_, rfl, (faithful_of_allocated ⟨2, 8⟩).2 _ rfl⟩

end Bank

end RingLog

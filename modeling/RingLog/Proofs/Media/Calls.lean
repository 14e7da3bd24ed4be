import RingLog.Media.Chip

/-!
# Calls one after another

What a chip does is a list of calls. Under a supply that fails only a first part of them takes
effect (`Chip.carried`), so an interruption is a matter of cutting that list.

A write that finds anything but an erased word would merge two values. `Medium.WritesOnce` says
that no write among some calls does.

Main statement: `Chip.performAll_eq`, the calls that a chip carries are those that reach the medium
and those that it remembers.
-/

namespace RingLog

variable {g : Geometry}

/-- The slot that a call changes. -/
def Call.slot : Call → Nat
  | erase slot => slot
  | program slot _ _ => slot

namespace Medium

/-- The medium after some calls. -/
def applyAll (medium : Medium g) (calls : List Call) : Medium g :=
  calls.foldl apply medium

/-- Every write among the calls finds an erased word of the medium, and is read back as written. -/
def WritesOnce (medium : Medium g) (calls : List Call) : Prop :=
  ∀ before slot offset word after, calls = before ++ .program slot offset word :: after →
    (medium.applyAll before).read slot offset = Word.erased ∧
      (medium.applyAll (before ++ [.program slot offset word])).read slot offset = word

theorem applyAll_append (medium : Medium g) (first second : List Call) :
    medium.applyAll (first ++ second) = (medium.applyAll first).applyAll second :=
  List.foldl_append

theorem applyAll_cons (medium : Medium g) (call : Call) (rest : List Call) :
    medium.applyAll (call :: rest) = (medium.apply call).applyAll rest := rfl

theorem read_apply_of_slot_ne {medium : Medium g} {call : Call} {slot : Nat}
    (h : call.slot ≠ slot) (offset : Nat) :
    (medium.apply call).read slot offset = medium.read slot offset := by
  cases call with
  | erase s => rw [apply, read_erase, if_neg fun hslot => h hslot.symm]
  | program s o word => rw [apply, read_program, if_neg fun hand => h hand.2.1.symm]

theorem read_applyAll_of_slot_ne {medium : Medium g} {calls : List Call} {slot : Nat}
    (h : ∀ call ∈ calls, call.slot ≠ slot) (offset : Nat) :
    (medium.applyAll calls).read slot offset = medium.read slot offset := by
  induction calls generalizing medium with
  | nil => rfl
  | cons call rest ih =>
    rw [applyAll_cons, ih fun other hother => h other (List.mem_cons_of_mem _ hother)]
    exact read_apply_of_slot_ne (h call List.mem_cons_self) offset

theorem read_apply_program {medium : Medium g} {slot offset : Nat} {word : Word}
    (hcontains : g.Contains slot offset) (herased : medium.read slot offset = Word.erased)
    (o : Nat) :
    (medium.apply (.program slot offset word)).read slot o =
      if o = offset then word else medium.read slot o := by
  have hall : Word.erased &&& word = word := by
    have hones : Word.erased.toBitVec = BitVec.allOnes 32 := rfl
    rw [← UInt32.toBitVec_inj, UInt32.toBitVec_and, hones, BitVec.allOnes_and]
  rw [apply, read_program, herased, hall]
  simp only [hcontains, true_and]

theorem isErased_iff {medium : Medium g} {slot : Nat} :
    medium.isErased slot ↔ ∀ offset, medium.read slot offset = Word.erased := by
  simp only [isErased, List.all_eq_true, List.mem_range, beq_iff_eq]
  constructor
  · intro h offset
    by_cases hoffset : offset < g.pageSize
    · exact h offset hoffset
    · exact read_of_not_contains fun hcontains => hoffset hcontains.2
  · intro h offset _
    exact h offset

theorem isErased_apply_erase (medium : Medium g) (slot : Nat) :
    (medium.apply (.erase slot)).isErased slot := by
  refine isErased_iff.mpr fun offset => ?_
  rw [apply, read_erase, if_pos rfl]

end Medium

namespace Chip

/-- Makes some calls, each if there is power for it. -/
def performAll (chip : Chip g) (calls : List Call) : Chip g :=
  calls.foldl perform chip

/-- Those of the calls that the supply carries. -/
def carried (chip : Chip g) (calls : List Call) : List Call :=
  match chip.supply with
  | none => calls
  | some left => calls.take left

theorem performAll_append (chip : Chip g) (first second : List Call) :
    chip.performAll (first ++ second) = (chip.performAll first).performAll second :=
  List.foldl_append

theorem performAll_cons (chip : Chip g) (call : Call) (rest : List Call) :
    chip.performAll (call :: rest) = (chip.perform call).performAll rest := rfl

theorem performAll_cut {chip : Chip g} (h : chip.supply = some 0) (calls : List Call) :
    chip.performAll calls = chip := by
  induction calls with
  | nil => rfl
  | cons call rest ih => rw [performAll_cons, perform_cut h, ih]

theorem carried_powered {chip : Chip g} (h : chip.supply = none) (calls : List Call) :
    chip.carried calls = calls := by
  rw [carried, h]

/-- All that calls do to a chip: the medium, the supply and the trace. -/
theorem performAll_eq (chip : Chip g) (calls : List Call) :
    chip.performAll calls =
      ⟨chip.medium.applyAll (chip.carried calls), chip.supply.map (· - calls.length),
        (chip.carried calls).reverse ++ chip.trace⟩ := by
  induction calls generalizing chip with
  | nil =>
    obtain ⟨medium, supply, trace⟩ := chip
    cases supply with
    | none => rfl
    | some left => simp [performAll, carried, Medium.applyAll]
  | cons call rest ih =>
    obtain ⟨medium, supply, trace⟩ := chip
    rw [performAll_cons, ih]
    match supply with
    | none => simp [perform, carried, Medium.applyAll]
    | some 0 => simp [perform, carried, Medium.applyAll]
    | some (left + 1) =>
      simp only [perform, carried, List.take_succ_cons, List.reverse_cons, List.append_assoc,
        List.singleton_append, Option.map_some, List.length_cons, mk.injEq, true_and, and_true,
        Medium.applyAll_cons]
      congr 1
      omega

theorem medium_performAll (chip : Chip g) (calls : List Call) :
    (chip.performAll calls).medium = chip.medium.applyAll (chip.carried calls) := by
  rw [performAll_eq]

theorem supply_performAll (chip : Chip g) (calls : List Call) :
    (chip.performAll calls).supply = chip.supply.map (· - calls.length) := by
  rw [performAll_eq]

theorem medium_performAll_powered {chip : Chip g} (h : chip.supply = none) (calls : List Call) :
    (chip.performAll calls).medium = chip.medium.applyAll calls := by
  rw [medium_performAll, carried_powered h]

theorem supply_performAll_powered {chip : Chip g} (h : chip.supply = none) (calls : List Call) :
    (chip.performAll calls).supply = none := by
  rw [supply_performAll, h]
  rfl

/-- A supply that is not exhausted by some calls carried them all. -/
theorem carried_of_supply_ne {chip : Chip g} {calls : List Call}
    (h : (chip.performAll calls).supply ≠ some 0) : chip.carried calls = calls := by
  rw [supply_performAll] at h
  unfold carried
  split
  · rfl
  · rename_i left hleft
    rw [hleft] at h
    refine List.take_of_length_le ?_
    rcases Nat.lt_or_ge left calls.length with hlt | hle
    · exact absurd (congrArg some (Nat.sub_eq_zero_of_le (Nat.le_of_lt hlt))) h
    · exact hle

end Chip

end RingLog

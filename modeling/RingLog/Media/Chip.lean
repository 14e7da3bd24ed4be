import RingLog.Media.Medium

/-!
# Chips and their power

A chip is a medium behind a power supply. The supply may be about to fail: then it carries a
known number of further calls, and every later one leaves the medium as it is until power comes
back. The chip also remembers which calls took effect, so that wear can be counted.

Main statements: `Chip.perform_powered` and `Chip.perform_cut`, a call under power reaches the
medium and a call without power does not.
-/

namespace RingLog

/-- A medium, its power supply and its wear. -/
structure Chip (g : Geometry) where
  medium : Medium g
  /-- Calls the supply still carries; `none` for a supply that does not fail. -/
  supply : Option Nat := none
  /-- The calls that took effect since the trace was last taken, the newest first. -/
  trace : List Call := []

namespace Chip

variable {g : Geometry}

/-- Makes a call, if there is power for it. -/
def perform (chip : Chip g) (call : Call) : Chip g :=
  match chip with
  | ⟨medium, none, trace⟩ => ⟨medium.apply call, none, call :: trace⟩
  | ⟨medium, some 0, trace⟩ => ⟨medium, some 0, trace⟩
  | ⟨medium, some (left + 1), trace⟩ => ⟨medium.apply call, some left, call :: trace⟩

/-- Erases a page, if there is power. -/
def erase (chip : Chip g) (slot : Nat) : Chip g :=
  chip.perform (.erase slot)

/-- Programs a word, if there is power. -/
def program (chip : Chip g) (slot offset : Nat) (word : Word) : Chip g :=
  chip.perform (.program slot offset word)

/-- The calls that took effect, the oldest first, and the chip with an empty trace. -/
def takeTrace (chip : Chip g) : List Call × Chip g :=
  (chip.trace.reverse, { chip with trace := [] })

theorem perform_cut {chip : Chip g} (h : chip.supply = some 0) (call : Call) :
    chip.perform call = chip := by
  obtain ⟨medium, supply, trace⟩ := chip
  subst h
  rfl

theorem perform_powered {chip : Chip g} (h : chip.supply ≠ some 0) (call : Call) :
    chip.perform call =
      ⟨chip.medium.apply call, chip.supply.map (· - 1), call :: chip.trace⟩ := by
  obtain ⟨medium, supply, trace⟩ := chip
  match supply with
  | none => rfl
  | some 0 => exact absurd rfl h
  | some (left + 1) => rfl

end Chip

end RingLog

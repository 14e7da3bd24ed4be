import RingLog.Proofs.Ring.Contents

/-!
# The discipline of writing

A log makes three kinds of calls only (`Medium.Allows`): it erases a slot, it writes the header of
an erased slot, and it writes the next record of a slot that has a header. On a sound medium, where
each slot is erased or holds a page, such a call finds an erased word, and the medium stays sound.

Since this holds call by call, it holds wherever a list of such calls is cut.

Main statements: `Medium.Sound.apply`, an allowed call keeps the medium sound;
`Medium.AllowsAll.writesOnce`, allowed calls never write a word twice.
-/

namespace RingLog

variable {g : Geometry}

namespace Medium

/-- Every slot is erased or holds a page. -/
def Sound (medium : Medium g) : Prop :=
  ∀ slot < g.pages, medium.isErased slot ∨ medium.Filled slot

/-- The calls that a log makes. -/
inductive Allows (medium : Medium g) : Call → Prop where
  | erase (slot : Nat) : medium.Allows (.erase slot)
  | header {page : Page} (fits : page.Fits g) (erased : medium.isErased page.slot) :
      medium.Allows page.headerCall
  | record {page : Page} {words : List Word} {word : Word} (holds : page.Holds medium words)
      (room : words.length < page.capacity g) (proper : word ≠ Word.erased) :
      medium.Allows (page.recordCall words.length word)

/-- The calls are allowed one after another. -/
def AllowsAll (medium : Medium g) : List Call → Prop
  | [] => True
  | call :: rest => medium.Allows call ∧ (medium.apply call).AllowsAll rest

variable {medium : Medium g}

theorem sound_blank (g : Geometry) : (blank g).Sound :=
  fun slot _ => .inl (isErased_iff.mpr fun offset => read_blank slot offset)

theorem erased_or_filled_apply {call : Call} {slot : Nat} (hslot : call.slot ≠ slot)
    (h : medium.isErased slot ∨ medium.Filled slot) :
    (medium.apply call).isErased slot ∨ (medium.apply call).Filled slot := by
  have hread : ∀ offset, (medium.apply call).read slot offset = medium.read slot offset :=
    read_apply_of_slot_ne hslot
  rwa [isErased_congr hread, filled_congr hread]

theorem Sound.apply (h : medium.Sound) {call : Call} (hcall : medium.Allows call) :
    (medium.apply call).Sound := by
  intro slot hslot
  by_cases hother : call.slot = slot
  · subst hother
    cases hcall with
    | erase s =>
      refine .inl (isErased_iff.mpr fun offset => ?_)
      rw [Medium.apply, read_erase]
      exact if_pos rfl
    | header fits erased => exact .inr (Page.holds_header fits erased).filled
    | record holds room proper => exact .inr (holds.apply_recordCall room proper).filled
  · exact erased_or_filled_apply hother (h slot hslot)

theorem Sound.applyAll (h : medium.Sound) {calls : List Call} (hcalls : medium.AllowsAll calls) :
    (medium.applyAll calls).Sound := by
  induction calls generalizing medium with
  | nil => exact h
  | cons call rest ih => exact ih (h.apply hcalls.1) hcalls.2

/-! ## Lists of allowed calls -/

theorem allowsAll_append {first second : List Call} :
    medium.AllowsAll (first ++ second) ↔
      medium.AllowsAll first ∧ (medium.applyAll first).AllowsAll second := by
  induction first generalizing medium with
  | nil => simp [AllowsAll, applyAll]
  | cons call rest ih => simp only [List.cons_append, AllowsAll, ih, applyAll_cons, and_assoc]

theorem AllowsAll.take {calls : List Call} (h : medium.AllowsAll calls) (count : Nat) :
    medium.AllowsAll (calls.take count) := by
  rw [← List.take_append_drop count calls, allowsAll_append] at h
  exact h.1

theorem allowsAll_establishCalls {page : Page} (hfits : page.Fits g) :
    medium.AllowsAll page.establishCalls := by
  exact ⟨.erase page.slot, .header hfits (isErased_apply_erase medium page.slot), trivial⟩

theorem allowsAll_recordCalls {page : Page} {words more : List Word}
    (h : page.Holds medium words) (hmore : Word.erased ∉ more) :
    medium.AllowsAll (Page.recordCalls g page words.length more) := by
  induction more generalizing medium words with
  | nil => trivial
  | cons word rest ih =>
    have hword : word ≠ Word.erased := fun heq => hmore (heq ▸ List.mem_cons_self)
    have hrest : Word.erased ∉ rest := fun hmem => hmore (List.mem_cons_of_mem _ hmem)
    unfold Page.recordCalls
    split
    · rename_i hroom
      have hstep := ih (h.apply_recordCall hroom hword) hrest
      rw [List.length_append, List.length_singleton] at hstep
      exact ⟨.record h hroom hword, hstep⟩
    · trivial

theorem Allows.program {slot offset : Nat} {word : Word}
    (h : medium.Allows (.program slot offset word)) :
    g.Contains slot offset ∧ medium.read slot offset = Word.erased := by
  generalize hcall : Call.program slot offset word = call at h
  cases h with
  | erase s => cases hcall
  | header fits erased =>
    cases hcall
    exact ⟨⟨fits.slot_lt, Nat.lt_of_le_of_lt (Nat.zero_le _) fits.headerSize_lt⟩,
      isErased_iff.mp erased _⟩
  | record holds room proper =>
    cases hcall
    exact holds.read_free room

theorem AllowsAll.writesOnce {calls : List Call} (h : medium.AllowsAll calls) :
    medium.WritesOnce calls := by
  intro before slot offset word after hcalls
  rw [hcalls, allowsAll_append] at h
  obtain ⟨hcontains, herased⟩ := h.2.1.program
  refine ⟨herased, ?_⟩
  rw [applyAll_append]
  exact (read_apply_program hcontains herased offset).trans (if_pos rfl)

end Medium

end RingLog

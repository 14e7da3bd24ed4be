import RingLog.Media.Medium

/-!
# A medium in working memory

A bank keeps the words of a medium in one array, one page after the other. There is a bank only for
a medium whose words fit in an array, so sizes and indices stay far below 64 bits. An access beyond
the array would end the program, so a call may come to nothing (`none`).

Main statements: `Bank.blank_eq_ofMedium`, `Bank.read_ofMedium` and `Bank.applyAll_ofMedium`, a bank
does what the medium does.
-/

namespace RingLog

/-- The words of a medium in working memory. -/
structure Bank (g : Geometry) where
  words : Array Word
  deriving DecidableEq, Repr

namespace Bank

variable {g : Geometry}

/-- An array can have so many words, which take less than 2^63 bytes. -/
def maxWords : Nat := 0x1fffffffffffffff

/-- A bank with every word erased. -/
def blank (g : Geometry) : Bank g :=
  ⟨Array.replicate g.size Word.erased⟩

/-- A new bank, unless it is asked for more words than an array can have. The program then ends at
the product of the sizes or at the allocation. -/
def allocate? (g : Geometry) : Option (Bank g) :=
  if g.size ≤ maxWords then some (blank g) else none

/-- The index of a word in the array; `none` where the medium has no word. -/
def index? (g : Geometry) (slot offset : Nat) : Option Nat :=
  if g.Contains slot offset then some (g.index slot offset) else none

/-- The word at an offset of a page. -/
def read (bank : Bank g) (slot offset : Nat) : Option Word :=
  match index? g slot offset with
  | some index => bank.words[index]?
  | none => some Word.erased

/-- Clears in the stored word every bit that is clear in `word`. -/
def program (bank : Bank g) (slot offset : Nat) (word : Word) : Option (Bank g) :=
  match index? g slot offset with
  | some index =>
    if h : index < bank.words.size then
      some ⟨bank.words.set index (bank.words[index] &&& word)⟩
    else none
  | none => some bank

/-- Sets every word of a page to the erased word. -/
def erase (bank : Bank g) (slot : Nat) : Option (Bank g) :=
  if slot < g.pages then
    let start := g.index slot 0
    if start + g.pageSize ≤ bank.words.size then
      some ⟨(Medium.fillErased bank.words.toVector start g.pageSize).toArray⟩
    else none
  else some bank

/-- The effect of a call. -/
def apply (bank : Bank g) : Call → Option (Bank g)
  | .erase slot => bank.erase slot
  | .program slot offset word => bank.program slot offset word

/-- The effect of some calls, one after another. -/
def applyAll (bank : Bank g) (calls : List Call) : Option (Bank g) :=
  calls.foldlM apply bank

/-- The words of a medium, kept in a bank. -/
def ofMedium (medium : Medium g) : Bank g :=
  ⟨medium.words.toArray⟩

/-! ## The words of a medium -/

theorem blank_eq_ofMedium : blank g = ofMedium (Medium.blank g) := by
  rw [blank, ofMedium, Medium.blank, Vector.toArray_replicate]

theorem index?_of_contains {slot offset : Nat} (hcontains : g.Contains slot offset) :
    index? g slot offset = some (g.index slot offset) :=
  if_pos hcontains

theorem index?_of_not_contains {slot offset : Nat} (hnot : ¬g.Contains slot offset) :
    index? g slot offset = none :=
  if_neg hnot

theorem read_ofMedium (medium : Medium g) (slot offset : Nat) :
    (ofMedium medium).read slot offset = some (medium.read slot offset) := by
  by_cases hcontains : g.Contains slot offset
  · rw [read, index?_of_contains hcontains, Medium.read, dif_pos hcontains]
    simp [ofMedium, Geometry.index_lt hcontains]
  · rw [read, index?_of_not_contains hcontains, Medium.read_of_not_contains hcontains]

theorem program_ofMedium (medium : Medium g) (slot offset : Nat) (word : Word) :
    (ofMedium medium).program slot offset word =
      some (ofMedium (medium.program slot offset word)) := by
  by_cases hcontains : g.Contains slot offset
  · rw [program, index?_of_contains hcontains, Medium.program, dif_pos hcontains]
    simp [ofMedium, Geometry.index_lt hcontains]
  · rw [program, index?_of_not_contains hcontains, Medium.program, dif_neg hcontains]

theorem fillErased_toArray {size : Nat} (words : Vector Word size) (start count : Nat) :
    (Medium.fillErased words.toArray.toVector start count).toArray =
      (Medium.fillErased words start count).toArray := by
  obtain ⟨array, rfl⟩ := words
  rfl

theorem erase_ofMedium (medium : Medium g) (slot : Nat) :
    (ofMedium medium).erase slot = some (ofMedium (medium.erase slot)) := by
  unfold erase Medium.erase
  split
  next hslot =>
    have hstop := Nat.mul_le_mul_right g.pageSize (Nat.succ_le_of_lt hslot)
    rw [Nat.succ_mul] at hstop
    have hwithin : g.index slot 0 + g.pageSize ≤ (ofMedium medium).words.size :=
      Nat.le_trans hstop (Nat.le_of_eq medium.words.size_toArray.symm)
    dsimp only
    rw [if_pos hwithin]
    exact congrArg (fun words => some (Bank.mk words)) (fillErased_toArray medium.words _ _)
  next => rfl

theorem apply_ofMedium (medium : Medium g) (call : Call) :
    (ofMedium medium).apply call = some (ofMedium (medium.apply call)) := by
  cases call with
  | erase slot => exact erase_ofMedium medium slot
  | program slot offset word => exact program_ofMedium medium slot offset word

theorem applyAll_ofMedium (medium : Medium g) (calls : List Call) :
    (ofMedium medium).applyAll calls = some (ofMedium (calls.foldl Medium.apply medium)) := by
  induction calls generalizing medium with
  | nil => rfl
  | cons call rest ih =>
    rw [applyAll, List.foldlM_cons, apply_ofMedium]
    exact ih _

end Bank

end RingLog

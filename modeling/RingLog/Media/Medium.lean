import RingLog.Format.Word
import RingLog.Media.Geometry

/-!
# The medium

A medium can be read and programmed word by word and erased page by page. Erasing sets every bit
of a page, programming can only clear bits, so a word programmed twice holds the conjunction of
both values. A call that names no word of the medium has no effect, and reading there finds an
erased word.

Main statements: `Medium.read_blank`, `Medium.read_program` and `Medium.read_erase` say what each
operation does to every word.
-/

namespace RingLog

/-- The contents of a medium of the given geometry. -/
structure Medium (g : Geometry) where
  words : Vector Word g.size

/-- A call that changes a medium. -/
inductive Call where
  | erase (slot : Nat)
  | program (slot offset : Nat) (word : Word)
  deriving DecidableEq, Repr

namespace Medium

variable {g : Geometry}

/-- A medium with every word erased. -/
def blank (g : Geometry) : Medium g :=
  ⟨Vector.replicate g.size Word.erased⟩

/-- The word at an offset of a page. -/
def read (medium : Medium g) (slot offset : Nat) : Word :=
  if h : g.Contains slot offset then
    have bound := Geometry.index_lt h
    medium.words[g.index slot offset]
  else Word.erased

/-- Clears in the stored word every bit that is clear in `word`. -/
def program (medium : Medium g) (slot offset : Nat) (word : Word) : Medium g :=
  if h : g.Contains slot offset then
    have bound := Geometry.index_lt h
    let index := g.index slot offset
    ⟨medium.words.set index (medium.words[index] &&& word) bound⟩
  else medium

/-- Sets `count` words from `start` on to the erased word. -/
def fillErased {size : Nat} (words : Vector Word size) (start : Nat) : Nat → Vector Word size
  | 0 => words
  | count + 1 => fillErased (words.setIfInBounds (start + count) Word.erased) start count

/-- Sets every word of a page to the erased word. -/
def erase (medium : Medium g) (slot : Nat) : Medium g :=
  if slot < g.pages then ⟨fillErased medium.words (g.index slot 0) g.pageSize⟩ else medium

/-- The effect of a call. -/
def apply (medium : Medium g) : Call → Medium g
  | .erase slot => medium.erase slot
  | .program slot offset word => medium.program slot offset word

/-- The words of one page, header included. -/
def page (medium : Medium g) (slot : Nat) : List Word :=
  (List.range g.pageSize).map (medium.read slot)

/-- True when every word of the page is erased. -/
def isErased (medium : Medium g) (slot : Nat) : Bool :=
  (List.range g.pageSize).all fun offset => medium.read slot offset == Word.erased

/-! ## What is read after a call -/

theorem read_of_not_contains {medium : Medium g} {slot offset : Nat}
    (h : ¬g.Contains slot offset) : medium.read slot offset = Word.erased :=
  dif_neg h

theorem read_blank (slot offset : Nat) : (blank g).read slot offset = Word.erased := by
  unfold read
  split
  · exact Vector.getElem_replicate _
  · rfl

/-- Programming changes the word it names and no other. -/
theorem read_program (medium : Medium g) (slot offset : Nat) (word : Word) (s o : Nat) :
    (medium.program slot offset word).read s o =
      if g.Contains slot offset ∧ s = slot ∧ o = offset then medium.read slot offset &&& word
      else medium.read s o := by
  unfold program
  split
  next h =>
    by_cases hso : g.Contains s o
    · simp only [read, hso, h, dif_pos, Vector.getElem_set, Geometry.index_inj h hso, true_and]
    · have hne : ¬(s = slot ∧ o = offset) := fun heq => hso (by rw [heq.1, heq.2]; exact h)
      simp [read, hso, hne]
  next h => simp [h]

theorem getElem_fillErased {size : Nat} (words : Vector Word size) (start count i : Nat)
    (hi : i < size) :
    (fillErased words start count)[i] =
      if start ≤ i ∧ i < start + count then Word.erased else words[i] := by
  induction count generalizing words with
  | zero =>
    have : ¬(start ≤ i ∧ i < start + 0) := by omega
    rw [if_neg this, fillErased]
  | succ count ih =>
    rw [fillErased, ih, Vector.getElem_setIfInBounds]
    grind

/-- Erasing sets every word of the page and changes no other page. -/
theorem read_erase (medium : Medium g) (slot s o : Nat) :
    (medium.erase slot).read s o = if s = slot then Word.erased else medium.read s o := by
  by_cases hso : g.Contains s o
  · unfold erase
    split
    next h =>
      simp only [read, hso, dif_pos, getElem_fillErased, Geometry.mem_page_iff hso]
    next h =>
      have hne : s ≠ slot := fun heq => h (heq ▸ hso.1)
      rw [if_neg hne]
  · simp [read_of_not_contains hso]

end Medium

end RingLog

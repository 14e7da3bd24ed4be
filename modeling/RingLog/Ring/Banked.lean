import RingLog.Media.Bank
import RingLog.Ring.Page

/-!
# Pages on a bank

The pages of a ring whose words lie in working memory. What is done with a page on a medium is done
on a bank in the same way, but for an access beyond the array: then all of it comes to nothing
(`none`).

Main statements: `Bank.load_ofMedium`, `Bank.initialise_ofMedium`, `Bank.establish_ofMedium`,
`Bank.isErased_ofMedium`, `Bank.record_ofMedium`, `Bank.write_ofMedium` and `Bank.next?_ofMedium`, a
bank has the pages of the medium.
-/

namespace RingLog

namespace Bank

variable {g : Geometry}

/-- The page that the header stored in a slot describes. -/
def load (bank : Bank g) (slot : Nat) : Option Page :=
  (bank.read slot Header.offset).map fun word =>
    let header := Header.decode word
    ⟨slot, header.number, header.size⟩

/-- Writes the page's header. The slot should be erased. -/
def initialise (bank : Bank g) (page : Page) : Option (Bank g) :=
  bank.program page.slot Header.offset (Header.current page.headerSize page.number).encode

/-- Erases the page's slot and writes the header into it. -/
def establish (bank : Bank g) (page : Page) : Option (Bank g) :=
  (bank.erase page.slot).bind fun erased => erased.initialise page

/-- True when `count` words of a slot from an offset on are erased. It stops at the first word
that is not. -/
def isErasedFrom (bank : Bank g) (slot : Nat) : Nat → Nat → Option Bool
  | _, 0 => some true
  | offset, count + 1 =>
    (bank.read slot offset).bind fun word =>
      if word = Word.erased then bank.isErasedFrom slot (offset + 1) count else some false

/-- True when every word of the slot is erased. -/
def isErased (bank : Bank g) (slot : Nat) : Option Bool :=
  bank.isErasedFrom slot 0 g.pageSize

/-- The word of the page's record at an index, or the erased word beyond the page. -/
def record (bank : Bank g) (page : Page) (index : Nat) : Option Word :=
  if index < page.capacity g then bank.read page.slot (page.headerSize.toNat + index)
  else some Word.erased

/-- Writes the page's record at an index. Beyond the page there is nothing to write to. -/
def write (bank : Bank g) (page : Page) (index : Nat) (word : Word) : Option (Bank g) :=
  if index < page.capacity g then bank.program page.slot (page.headerSize.toNat + index) word
  else some bank

/-- The page behind another one on the ring. The program ends if the ring has no page at all or the
slot numbers are at their end. -/
def next? (bank : Bank g) (page : Page) : Option Page :=
  if g.pages = 0 ∨ UInt64.size ≤ page.slot + 1 then none
  else (bank.load (g.next page.slot)).map fun behind => { behind with number := page.number + 1 }

/-! ## The pages of a medium -/

variable (medium : Medium g)

theorem load_ofMedium (slot : Nat) :
    (ofMedium medium).load slot = some (Page.load medium slot) := by
  rw [load, read_ofMedium]
  rfl

theorem initialise_ofMedium (page : Page) : (ofMedium medium).initialise page =
    some (ofMedium (page.initialise ⟨medium, none, []⟩).medium) :=
  program_ofMedium medium _ _ _

theorem establish_ofMedium (page : Page) : (ofMedium medium).establish page =
    some (ofMedium (page.establish ⟨medium, none, []⟩).medium) := by
  rw [establish, erase_ofMedium]
  exact program_ofMedium _ _ _ _

theorem isErasedFrom_ofMedium (slot offset count : Nat) :
    (ofMedium medium).isErasedFrom slot offset count =
      some ((List.range' offset count).all fun o => medium.read slot o == Word.erased) := by
  induction count generalizing offset with
  | zero => rfl
  | succ count ih =>
    rw [isErasedFrom, read_ofMedium, Option.bind_some, List.range'_succ, List.all_cons]
    split
    next herased => rw [ih, herased, beq_self_eq_true, Bool.true_and]
    next hne => rw [beq_eq_false_iff_ne.mpr hne, Bool.false_and]

theorem isErased_ofMedium (slot : Nat) :
    (ofMedium medium).isErased slot = some (medium.isErased slot) := by
  rw [isErased, isErasedFrom_ofMedium, Medium.isErased, List.range_eq_range']

theorem record_ofMedium (page : Page) (index : Nat) :
    (ofMedium medium).record page index = some (page.read medium index) := by
  unfold record Page.read
  split
  · exact read_ofMedium medium _ _
  · rfl

theorem write_ofMedium (page : Page) (index : Nat) (word : Word) :
    (ofMedium medium).write page index word =
      some (ofMedium (page.write ⟨medium, none, []⟩ index word).medium) := by
  unfold write Page.write
  split
  · exact program_ofMedium medium _ _ _
  · rfl

theorem next?_ofMedium (page : Page) : (ofMedium medium).next? page = page.next? medium := by
  unfold next? Page.next?
  split
  · rfl
  · rw [load_ofMedium]
    rfl

end Bank

end RingLog

import RingLog.Format.Header
import RingLog.Format.Position
import RingLog.Media.Chip

/-!
# Pages of the ring

A `Page` is a slot of the medium together with the sequence number and header size that go with
it: those that its header says (`Page.load`), or those that a header still to be written will say.
The words behind the header are the page's records, by index from zero. What lies beyond the page
reads as erased and cannot be written.

The page behind another one on the ring (`Page.next`) continues its numbering: the sequence
number is counted on rather than read back, so a stale or erased header does not break the order
of a walk. Its header size is always the stored one.
-/

namespace RingLog

/-- A slot of the medium, seen as a page of the log. -/
structure Page where
  slot : Nat
  /-- The sequence number of the page. -/
  number : UInt16
  /-- Words before the first record. -/
  headerSize : UInt8
  deriving DecidableEq, Repr

namespace Page

variable {g : Geometry}

/-- The page that the header stored in a slot describes. -/
def load (medium : Medium g) (slot : Nat) : Page :=
  let header := Header.decode (medium.read slot Header.offset)
  ⟨slot, header.number, header.size⟩

/-! ## Writing a page's slot -/

/-- Writes the page's header. The slot should be erased. -/
def initialise (chip : Chip g) (page : Page) : Chip g :=
  chip.program page.slot Header.offset (Header.current page.headerSize page.number).encode

/-- Erases the page's slot. -/
def erase (chip : Chip g) (page : Page) : Chip g :=
  chip.erase page.slot

/-- Erases the page's slot and writes the header into it. -/
def establish (chip : Chip g) (page : Page) : Chip g :=
  page.initialise (page.erase chip)

/-! ## Records of a page -/

/-- How many records the page can hold. -/
def capacity (g : Geometry) (page : Page) : Nat :=
  g.pageSize - page.headerSize.toNat

/-- The word of the record at an index, or the erased word beyond the page. -/
def read (medium : Medium g) (page : Page) (index : Nat) : Word :=
  if index < page.capacity g then medium.read page.slot (page.headerSize.toNat + index)
  else Word.erased

/-- Writes the record at an index. Beyond the page there is nothing to write to. -/
def write (chip : Chip g) (page : Page) (index : Nat) (word : Word) : Chip g :=
  if index < page.capacity g then chip.program page.slot (page.headerSize.toNat + index) word
  else chip

/-- True once at most `reserve` records fit from `index` on. -/
def isNearlyFull (g : Geometry) (page : Page) (index : Nat) (reserve : UInt64) : Bool :=
  g.pageSize ≤ page.headerSize.toNat + index + reserve.toNat

/-- The test of fullness, which ends the program if its sum goes beyond 64 bits. -/
def isNearlyFull? (g : Geometry) (page : Page) (index : Nat) (reserve : UInt64) : Option Bool :=
  if page.headerSize.toNat + index + reserve.toNat < UInt64.size then
    some (page.isNearlyFull g index reserve)
  else none

/-! ## Pages in ring order -/

/-- The page behind this one on the ring. -/
def next (medium : Medium g) (page : Page) : Page :=
  let slot := g.next page.slot
  ⟨slot, page.number + 1, (load medium slot).headerSize⟩

/-- The page behind this one. The program ends if the ring has no page at all or the slot numbers
are at their end. -/
def next? (medium : Medium g) (page : Page) : Option Page :=
  if g.pages = 0 ∨ UInt64.size ≤ page.slot + 1 then none else some (page.next medium)

/-- `count` pages in ring order, this one first. -/
def walk (medium : Medium g) : Nat → Page → List Page
  | 0, _ => []
  | count + 1, page => page :: walk medium count (page.next medium)

/-! ## A page as a list -/

/-- The words of all records the page can hold, in order. -/
def words (medium : Medium g) (page : Page) : List Word :=
  (List.range (page.capacity g)).map (page.read medium)

/-- The words on the page up to the first erased one. -/
def stored (medium : Medium g) (page : Page) : List Word :=
  (page.words medium).takeWhile (· != Word.erased)

/-- The position of the record at an index. -/
def position (g : Geometry) (page : Page) (index : Nat) : Position :=
  Position.of page.number g.pageSize index

/-- The given words as the first entries of the page. -/
def entries (g : Geometry) (page : Page) (words : List Word) : List Entry :=
  words.mapIdx fun index word => ⟨page.position g index, word⟩

theorem length_words (medium : Medium g) (page : Page) :
    (page.words medium).length = page.capacity g := by
  simp [words]

theorem length_stored_le (medium : Medium g) (page : Page) :
    (page.stored medium).length ≤ page.capacity g :=
  page.length_words medium ▸ (List.takeWhile_prefix _).length_le

theorem read_of_capacity_le {medium : Medium g} {page : Page} {index : Nat}
    (h : page.capacity g ≤ index) : page.read medium index = Word.erased :=
  if_neg (Nat.not_lt.mpr h)

theorem length_walk (medium : Medium g) (count : Nat) (page : Page) :
    (walk medium count page).length = count := by
  induction count generalizing page with
  | zero => rfl
  | succ count ih => simp [walk, ih]

theorem length_entries (page : Page) (words : List Word) :
    (page.entries g words).length = words.length := by
  simp [entries]

end Page

end RingLog

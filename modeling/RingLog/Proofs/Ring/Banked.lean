import RingLog.Proofs.Media.Standing
import RingLog.Proofs.Ring.Contents
import RingLog.Ring.Banked

/-!
# New pages on a bank

Every word is the word of one header, and every header has one word. A slot that is erased and then
given a header is the page of that number and header size, with nothing behind the header, and no
other slot changes (`Bank.Hosts`). It is so for every slot of a bank that was allocated, and
whatever its array came to hold (`Bank.TakesPages`).

Main statement: `Bank.takesPages_of_allocated`.
-/

namespace RingLog

variable {g : Geometry}

theorem Header.encode_decode (word : Word) : (decode word).encode = word := by
  have hword := word.toNat_lt
  rw [← UInt32.toNat_inj, toNat_encode]
  simp only [decode, UInt8.toNat_ofNat', UInt16.toNat_ofNat']
  omega

/-- A new page is read back with its number and its header size, whatever these are. -/
theorem Page.load_establish (medium : Medium g) {page : Page} (hslot : page.slot < g.pages)
    (hpos : 0 < g.pageSize) :
    load (medium.applyAll page.establishCalls) page.slot = page := by
  rw [load, read_establish, if_pos ⟨⟨hslot, hpos⟩, rfl⟩, Header.decode_encode]
  rfl

namespace Bank

variable {new bank after : Bank g} {page : Page}

/-- The second bank has the page in its slot and nothing behind the header, and all other slots are
as they are in the first one. -/
structure Hosts (bank : Bank g) (page : Page) (after : Bank g) : Prop where
  load_eq : after.load page.slot = some page
  header_ne : ∃ word, after.read page.slot Header.offset = some word ∧ word ≠ Word.erased
  rest_eq : ∀ offset, offset ≠ Header.offset → after.read page.slot offset = some Word.erased
  others_eq : ∀ slot, slot ≠ page.slot → ∀ offset, after.read slot offset = bank.read slot offset

/-- Whatever words the array of the new bank comes to hold, a page can be put into every slot. -/
def TakesPages (new : Bank g) : Prop :=
  ∀ bank : Bank g, bank.words.size = new.words.size → ∀ page : Page, page.slot < g.pages →
    ∃ after, bank.establish page = some after ∧ Hosts bank page after

/-! ## Putting pages into slots -/

/-- An array of the right size holds the words of a medium. -/
theorem exists_eq_ofMedium (hbank : bank.words.size = g.size) :
    ∃ medium : Medium g, bank = ofMedium medium :=
  ⟨⟨⟨bank.words, hbank⟩⟩, rfl⟩

theorem hosts_ofMedium (hslot : page.slot < g.pages) (hpos : 0 < g.pageSize) (medium : Medium g) :
    Hosts (ofMedium medium) page (ofMedium (medium.applyAll page.establishCalls)) where
  load_eq := by rw [load_ofMedium, Page.load_establish medium hslot hpos]
  header_ne := by
    refine ⟨_, read_ofMedium _ _ _, ?_⟩
    rw [Page.read_establish, if_pos ⟨⟨hslot, hpos⟩, rfl⟩]
    exact Header.encode_current_ne_erased _ _
  rest_eq := by
    intro offset hoffset
    rw [read_ofMedium, Page.read_establish, if_neg fun h => hoffset h.2]
  others_eq := by
    intro slot hslot offset
    have hother : ∀ call ∈ page.establishCalls, call.slot ≠ slot := by
      intro call hcall
      rw [Page.slot_of_mem_establishCalls hcall]
      exact hslot.symm
    rw [read_ofMedium, read_ofMedium, Medium.read_applyAll_of_slot_ne hother]

theorem takesPages_blank (hpos : 0 < g.pageSize) : (blank g).TakesPages := by
  intro bank hbank page hslot
  rw [blank, Array.size_replicate] at hbank
  obtain ⟨medium, rfl⟩ := exists_eq_ofMedium hbank
  exact ⟨_, establish_ofMedium medium page, hosts_ofMedium hslot hpos medium⟩

/-- Words and headers are one to one, and every bank takes pages of every number and header size
into every slot. -/
theorem takesPages_of_allocated (word : Word) (header : Header) (new : Bank g) :
    (Header.decode word).encode = word ∧ Header.decode header.encode = header ∧
      (allocate? g = some new → 0 < g.pageSize → new.TakesPages) := by
  refine ⟨Header.encode_decode word, Header.decode_encode header, fun hnew hpos => ?_⟩
  rw [(allocate?_eq_some_iff.mp hnew).2]
  exact takesPages_blank hpos

theorem takesPages_of_allocated_three_pages :
    ∃ new : Bank ⟨3, 16⟩, allocate? ⟨3, 16⟩ = some new ∧ 0 < 16 ∧ new.TakesPages :=
  ⟨_, rfl, by decide, (takesPages_of_allocated Word.erased (Header.current 1 7) _).2.2 rfl
    (by decide)⟩

end Bank

end RingLog

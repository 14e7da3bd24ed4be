import RingLog.Log.Config
import RingLog.Proofs.Media.Calls
import RingLog.Ring.Page

/-!
# What a slot holds

A slot that the log has written holds a header, then words of records without a gap, then erased
words (`Page.Holds`). An erased slot and such slots are all that ever appears on a medium that the
log alone has written.

Main statements: `Page.Holds.load_eq` and `Page.Holds.stored_eq`, the page and its words are read
back from the medium; `Page.holds_header` and `Page.Holds.applyAll_recordCalls`, what writing the
header and writing records leave in the slot.
-/

namespace RingLog

variable {g : Geometry}

/-- The words stored in a slot, up to the first erased one. -/
def Medium.wordsAt (medium : Medium g) (slot : Nat) : List Word :=
  (Page.load medium slot).stored medium

namespace Page

/-- The call that writes the page's header. -/
def headerCall (page : Page) : Call :=
  .program page.slot Header.offset (Header.current page.headerSize page.number).encode

/-- The calls that make a slot the page's. -/
def establishCalls (page : Page) : List Call :=
  [.erase page.slot, page.headerCall]

/-- The call that writes the record at an index. -/
def recordCall (page : Page) (index : Nat) (word : Word) : Call :=
  .program page.slot (page.headerSize.toNat + index) word

/-- The calls that write records from an index on, as far as there is room. -/
def recordCalls (g : Geometry) (page : Page) : Nat → List Word → List Call
  | _, [] => []
  | index, word :: rest =>
    if index < page.capacity g then
      page.recordCall index word :: recordCalls g page (index + 1) rest
    else []

/-- The page lies on the medium, and a header and one record fit into it. -/
structure Fits (g : Geometry) (page : Page) : Prop where
  slot_lt : page.slot < g.pages
  headerSize_pos : 0 < page.headerSize.toNat
  headerSize_lt : page.headerSize.toNat < g.pageSize

/-- The word at an offset of a slot that holds the page with the given words. -/
def image (page : Page) (words : List Word) (offset : Nat) : Word :=
  if offset = Header.offset then (Header.current page.headerSize page.number).encode
  else if offset < page.headerSize.toNat then Word.erased
  else words[offset - page.headerSize.toNat]?.getD Word.erased

/-- The slot of the page holds its header and the words, and is erased otherwise. -/
structure Holds (page : Page) (medium : Medium g) (words : List Word) : Prop where
  fits : page.Fits g
  length_le : words.length ≤ page.capacity g
  not_mem : Word.erased ∉ words
  read_eq : ∀ offset, medium.read page.slot offset = page.image words offset

end Page

/-- The slot holds the page that its header describes, with the words that it stores. -/
def Medium.Filled (medium : Medium g) (slot : Nat) : Prop :=
  (Page.load medium slot).Holds medium (medium.wordsAt slot)

namespace Page

variable {page : Page} {medium : Medium g} {words : List Word}

theorem Fits.capacity_pos (h : page.Fits g) : 0 < page.capacity g :=
  Nat.sub_pos_of_lt h.headerSize_lt

/-! ## Reading a page back -/

theorem Holds.read_header (h : page.Holds medium words) :
    medium.read page.slot Header.offset = (Header.current page.headerSize page.number).encode := by
  rw [h.read_eq, image, if_pos rfl]

theorem Holds.load_eq (h : page.Holds medium words) : load medium page.slot = page := by
  rw [load, h.read_header, Header.decode_encode]
  rfl

theorem Holds.not_isErased (h : page.Holds medium words) : medium.isErased page.slot = false := by
  rw [Bool.eq_false_iff]
  intro herased
  have hheader := Medium.isErased_iff.mp herased Header.offset
  rw [h.read_header] at hheader
  exact Header.encode_current_ne_erased _ _ hheader

theorem Holds.read_record (h : page.Holds medium words) (index : Nat) :
    page.read medium index = words[index]?.getD Word.erased := by
  have hpos := h.fits.headerSize_pos
  have hlength := h.length_le
  unfold read
  split
  · rw [h.read_eq, image, if_neg, if_neg, Nat.add_sub_cancel_left]
    · omega
    · simp only [Header.offset]
      omega
  · rw [List.getElem?_eq_none (by omega), Option.getD_none]

theorem Holds.words_eq (h : page.Holds medium words) : page.words medium =
    words ++ List.replicate (page.capacity g - words.length) Word.erased := by
  have hlength := h.length_le
  refine List.ext_getElem (by simp [length_words]; omega) fun index _ _ => ?_
  simp only [Page.words, List.getElem_map, List.getElem_range, h.read_record]
  by_cases hindex : index < words.length
  · rw [List.getElem?_eq_getElem hindex, List.getElem_append_left hindex, Option.getD_some]
  · rw [List.getElem?_eq_none (by omega), List.getElem_append_right (by omega),
      List.getElem_replicate, Option.getD_none]

theorem Holds.stored_eq (h : page.Holds medium words) : page.stored medium = words := by
  have hwords : ∀ word ∈ words, (word != Word.erased) = true := by
    intro word hword
    exact bne_iff_ne.mpr fun heq => h.not_mem (heq ▸ hword)
  rw [stored, h.words_eq, List.takeWhile_append_of_pos hwords]
  cases page.capacity g - words.length with
  | zero => simp
  | succ count => simp [List.replicate_succ]

theorem Holds.wordsAt_eq (h : page.Holds medium words) : medium.wordsAt page.slot = words := by
  rw [Medium.wordsAt, h.load_eq, h.stored_eq]

theorem Holds.filled (h : page.Holds medium words) : medium.Filled page.slot := by
  rw [Medium.Filled, h.load_eq, h.wordsAt_eq]
  exact h

/-! ## Writing a page -/

theorem Holds.congr {medium' : Medium g}
    (hread : ∀ offset, medium'.read page.slot offset = medium.read page.slot offset)
    (h : page.Holds medium words) : page.Holds medium' words :=
  ⟨h.fits, h.length_le, h.not_mem, fun offset => (hread offset).trans (h.read_eq offset)⟩

/-- An erased slot becomes the page's with its header. -/
theorem holds_header (hfits : page.Fits g) (herased : medium.isErased page.slot) :
    page.Holds (medium.apply page.headerCall) [] := by
  have hread := Medium.isErased_iff.mp herased
  have hcontains : g.Contains page.slot Header.offset :=
    ⟨hfits.slot_lt, Nat.lt_of_le_of_lt (Nat.zero_le _) hfits.headerSize_lt⟩
  refine ⟨hfits, Nat.zero_le _, List.not_mem_nil, fun offset => ?_⟩
  rw [headerCall, Medium.read_apply_program hcontains (hread _), image]
  split
  · rfl
  · rw [hread]
    split <;> rfl

theorem slot_of_mem_establishCalls {call : Call} (h : call ∈ page.establishCalls) :
    call.slot = page.slot := by
  rcases List.mem_cons.mp h with rfl | hlast
  · rfl
  · rw [List.mem_singleton.mp hlast]
    rfl

/-- What was in the slot is gone. The header is there if it is on the medium at all. -/
theorem read_establish (medium : Medium g) (page : Page) (offset : Nat) :
    (medium.applyAll page.establishCalls).read page.slot offset =
      if g.Contains page.slot offset ∧ offset = Header.offset then
        (Header.current page.headerSize page.number).encode
      else Word.erased := by
  have herased := Medium.isErased_iff.mp (medium.isErased_apply_erase page.slot)
  by_cases hoffset : offset = Header.offset
  · subst hoffset
    by_cases hcontains : g.Contains page.slot Header.offset
    · rw [if_pos ⟨hcontains, rfl⟩]
      exact (Medium.read_apply_program hcontains (herased _) _).trans (if_pos rfl)
    · rw [if_neg fun h => hcontains h.1]
      exact Medium.read_of_not_contains hcontains
  · rw [if_neg fun h => hoffset h.2]
    exact ((Medium.read_program ..).trans (if_neg fun h => hoffset h.2.2)).trans (herased offset)

theorem holds_establish (hfits : page.Fits g) :
    page.Holds (medium.applyAll page.establishCalls) [] :=
  holds_header hfits (medium.isErased_apply_erase page.slot)

theorem Holds.read_free (h : page.Holds medium words) (hroom : words.length < page.capacity g) :
    g.Contains page.slot (page.headerSize.toNat + words.length) ∧
      medium.read page.slot (page.headerSize.toNat + words.length) = Word.erased := by
  refine ⟨⟨h.fits.slot_lt, ?_⟩, ?_⟩
  · unfold capacity at hroom
    omega
  · have hrecord := h.read_record words.length
    rwa [read, if_pos hroom, List.getElem?_eq_none (Nat.le_refl _)] at hrecord

/-- A record behind the others is stored as it is. -/
theorem Holds.apply_recordCall (h : page.Holds medium words) {word : Word}
    (hroom : words.length < page.capacity g) (hword : word ≠ Word.erased) :
    page.Holds (medium.apply (page.recordCall words.length word)) (words ++ [word]) := by
  have hpos := h.fits.headerSize_pos
  obtain ⟨hcontains, herased⟩ := h.read_free hroom
  refine ⟨h.fits, ?_, ?_, fun offset => ?_⟩
  · rw [List.length_append, List.length_singleton]
    exact hroom
  · simp only [List.mem_append, List.mem_singleton, not_or]
    exact ⟨h.not_mem, fun heq => hword heq.symm⟩
  · rw [recordCall, Medium.read_apply_program hcontains herased]
    split
    · rename_i hoffset
      subst hoffset
      have hheader : ¬page.headerSize.toNat + words.length = Header.offset := by
        simp only [Header.offset]
        omega
      rw [image, if_neg hheader, if_neg (by omega), Nat.add_sub_cancel_left,
        List.getElem?_concat_length, Option.getD_some]
    · rename_i hoffset
      rw [h.read_eq]
      unfold image
      split
      · rfl
      · split
        · rfl
        · have hne : offset - page.headerSize.toNat ≠ words.length := by omega
          rw [List.getElem?_append]
          split
          · rfl
          · rw [List.getElem?_eq_none (by omega), List.getElem?_eq_none (by simp; omega)]

theorem Holds.applyAll_recordCalls (h : page.Holds medium words) {more : List Word}
    (hmore : Word.erased ∉ more) :
    page.Holds (medium.applyAll (recordCalls g page words.length more))
      (words ++ more.take (page.capacity g - words.length)) := by
  induction more generalizing medium words with
  | nil => simpa [recordCalls, Medium.applyAll] using h
  | cons word rest ih =>
    have hword : word ≠ Word.erased := fun heq => hmore (heq ▸ List.mem_cons_self)
    have hrest : Word.erased ∉ rest := fun hmem => hmore (List.mem_cons_of_mem _ hmem)
    unfold recordCalls
    split
    · rename_i hroom
      have hstep := ih (h.apply_recordCall hroom hword) hrest
      have hcount : page.capacity g - words.length =
          page.capacity g - (words ++ [word]).length + 1 := by
        rw [List.length_append, List.length_singleton]
        omega
      rw [List.length_append, List.length_singleton] at hstep
      rw [hcount, List.take_succ_cons, Medium.applyAll_cons]
      simpa using hstep
    · rename_i hfull
      have hcount : page.capacity g - words.length = 0 := by omega
      simpa [hcount, Medium.applyAll] using h

theorem recordCalls_append (page : Page) (index : Nat) (first second : List Word) :
    recordCalls g page index (first ++ second) = recordCalls g page index first ++
      recordCalls g page (index + min first.length (page.capacity g - index)) second := by
  induction first generalizing index with
  | nil => simp [recordCalls]
  | cons word rest ih =>
    rw [List.cons_append, recordCalls, recordCalls, List.length_cons]
    split
    · rename_i hroom
      have hindex : index + 1 + min rest.length (page.capacity g - (index + 1)) =
          index + min (rest.length + 1) (page.capacity g - index) := by omega
      rw [ih, hindex, List.cons_append]
    · rename_i hfull
      have hindex : index + min (rest.length + 1) (page.capacity g - index) = index := by omega
      rw [hindex, List.nil_append]
      cases second with
      | nil => rfl
      | cons word rest => rw [recordCalls, if_neg hfull]

theorem take_recordCalls (page : Page) (index : Nat) (words : List Word) (count : Nat) :
    (recordCalls g page index words).take count = recordCalls g page index (words.take count) := by
  induction words generalizing index count with
  | nil => simp [recordCalls]
  | cons word rest ih =>
    cases count with
    | zero => simp [recordCalls]
    | succ count =>
      simp only [List.take_succ_cons, recordCalls]
      split
      · rw [List.take_succ_cons, ih]
      · rfl

theorem slot_of_mem_recordCalls {page : Page} {index : Nat} {words : List Word} {call : Call}
    (h : call ∈ recordCalls g page index words) : call.slot = page.slot := by
  induction words generalizing index with
  | nil => simp [recordCalls] at h
  | cons word rest ih =>
    unfold recordCalls at h
    split at h
    · rcases List.mem_cons.mp h with rfl | hrest
      · rfl
      · exact ih hrest
    · simp at h

end Page

/-! ## Slots that calls leave alone -/

theorem Page.stored_congr {medium medium' : Medium g} {page : Page}
    (h : ∀ offset, medium'.read page.slot offset = medium.read page.slot offset) :
    page.stored medium' = page.stored medium := by
  have hread : page.read medium' = page.read medium := by
    funext index
    exact ite_congr rfl (fun _ => h _) fun _ => rfl
  rw [stored, stored, words, words, hread]

namespace Medium

variable {medium medium' : Medium g} {slot : Nat}

theorem load_congr (h : ∀ offset, medium'.read slot offset = medium.read slot offset) :
    Page.load medium' slot = Page.load medium slot := by
  rw [Page.load, Page.load, h]

theorem wordsAt_congr (h : ∀ offset, medium'.read slot offset = medium.read slot offset) :
    medium'.wordsAt slot = medium.wordsAt slot := by
  rw [wordsAt, wordsAt, load_congr h]
  exact Page.stored_congr h

theorem isErased_congr (h : ∀ offset, medium'.read slot offset = medium.read slot offset) :
    medium'.isErased slot = medium.isErased slot := by
  rw [isErased, isErased, funext h]

theorem filled_congr (h : ∀ offset, medium'.read slot offset = medium.read slot offset) :
    medium'.Filled slot ↔ medium.Filled slot := by
  rw [Filled, Filled, load_congr h, wordsAt_congr h]
  exact ⟨.congr fun offset => (h offset).symm, .congr h⟩

theorem wordsAt_of_isErased (h : medium.isErased slot) : medium.wordsAt slot = [] := by
  have hread : ∀ index, (Page.load medium slot).read medium index = Word.erased := by
    intro index
    unfold Page.read
    split
    · exact isErased_iff.mp h _
    · rfl
  rw [wordsAt, Page.stored, Page.words, funext hread]
  cases (Page.load medium slot).capacity g with
  | zero => rfl
  | succ count => simp [List.range_succ_eq_map]

end Medium

theorem Config.Fits.page_fits {config : Config} (h : config.Fits g) {slot : Nat}
    (hslot : slot < g.pages) (number : UInt16) : Page.Fits g ⟨slot, number, config.headerSize⟩ where
  slot_lt := hslot
  headerSize_pos := h.headerSize_pos
  headerSize_lt := by
    have := h.needed_le
    dsimp only
    omega

end RingLog

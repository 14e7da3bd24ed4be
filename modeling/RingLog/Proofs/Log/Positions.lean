import RingLog.Proofs.Log.Interruption
import RingLog.Proofs.Log.Leaves
import RingLog.Proofs.Log.Recording

/-!
# Positions behind an interrupted rotation

A walk through the log reads the number of its first page from the medium and counts on from there.
That is the number in each header as long as the first page has one. Behind a rotation that the
power did not last for, the first slot may be erased: then the walk starts from the number 0xffff,
and the pages behind it seem to be numbered from zero.

Main statements: `Device.positions_iff` and `Device.not_positions`.
-/

namespace RingLog

variable {g : Geometry}

/-! ## Leaves in order -/

namespace Leaf

variable {leaf other : Leaf}

/-- The leaf with its number counted on. -/
def moved (shift : UInt16) (leaf : Leaf) : Leaf :=
  { leaf with number := leaf.number + shift }

theorem mem_entries {entry : Nat × Word} (h : entry ∈ leaf.entries g) :
    ∃ index < leaf.words.length, entry.1 = leaf.number.toNat * g.pageSize + index := by
  obtain ⟨index, hindex, rfl⟩ := List.mem_mapIdx.mp h
  exact ⟨index, hindex, rfl⟩

theorem map_word_entries (g : Geometry) (leaf : Leaf) :
    (leaf.entries g).map Prod.snd = leaf.words := by
  refine List.ext_getElem (by simp [entries]) fun index _ _ => ?_
  simp [entries]

theorem pairwise_entries (g : Geometry) (leaf : Leaf) :
    (leaf.entries g).Pairwise fun entry later => entry.1 < later.1 := by
  refine List.pairwise_iff_getElem.mpr fun index later _ _ hlt => ?_
  simp only [entries, List.getElem_mapIdx]
  omega

/-- On pages with other numbers all positions are in the order of the numbers. -/
theorem entries_lt {entry later : Nat × Word} (hnumber : leaf.number < other.number)
    (hlength : leaf.words.length ≤ g.pageSize) (hentry : entry ∈ leaf.entries g)
    (hlater : later ∈ other.entries g) : entry.1 < later.1 := by
  obtain ⟨index, hindex, hposition⟩ := mem_entries hentry
  obtain ⟨_, -, hposition'⟩ := mem_entries hlater
  have hnumber' : leaf.number.toNat + 1 ≤ other.number.toNat := UInt16.lt_iff_toNat_lt.mp hnumber
  have hmul := Nat.mul_le_mul_right g.pageSize hnumber'
  rw [Nat.succ_mul] at hmul
  omega

theorem length_addAll_le (hlength : leaf.words.length ≤ g.pageSize) (words : List Word) :
    (leaf.addAll g words).words.length ≤ g.pageSize := by
  rw [addAll_eq, List.length_append, List.length_take, room]
  omega

theorem addAll_words_ne_nil (h : leaf.words ≠ []) (words : List Word) :
    (leaf.addAll g words).words ≠ [] := by
  rw [addAll_eq]
  exact List.append_ne_nil_of_left_ne_nil h _

theorem entries_prefix_addAll (g : Geometry) (leaf : Leaf) (words : List Word) :
    leaf.entries g <+: (leaf.addAll g words).entries g := by
  rw [addAll_eq, entries, entries, List.mapIdx_append]
  exact List.prefix_append _ _

end Leaf

/-- Positions rise along leaves, the newest first, whose numbers fall. -/
theorem pairwise_entries_of_numbers {leaves : List Leaf}
    (hlength : ∀ leaf ∈ leaves, leaf.words.length ≤ g.pageSize)
    (hnumbers : leaves.Pairwise fun leaf earlier => earlier.number < leaf.number) :
    (leaves.reverse.flatMap (Leaf.entries g)).Pairwise fun entry later => entry.1 < later.1 := by
  refine List.pairwise_flatMap.mpr ⟨fun leaf _ => leaf.pairwise_entries g, ?_⟩
  refine (List.pairwise_reverse.mpr hnumbers).imp_of_mem fun {earlier leaf} hearlier _ hlt => ?_
  exact fun _ hentry _ hlater =>
    Leaf.entries_lt hlt (hlength earlier (List.mem_reverse.mp hearlier)) hentry hlater

/-- They do not if the second leaf has no smaller number than the first. -/
theorem not_pairwise_entries {leaf earlier : Leaf} {leaves : List Leaf}
    (hleaf : leaf.words ≠ []) (hearlier : earlier.words ≠ []) (hle : leaf.number ≤ earlier.number) :
    ¬((leaf :: earlier :: leaves).reverse.flatMap (Leaf.entries g)).Pairwise
      fun entry later => entry.1 < later.1 := by
  intro hpairwise
  have hleaves := List.pairwise_reverse.mp (List.pairwise_flatMap.mp hpairwise).2
  obtain ⟨word, rest, hwords⟩ := List.exists_cons_of_ne_nil hleaf
  obtain ⟨word', rest', hwords'⟩ := List.exists_cons_of_ne_nil hearlier
  have hfirst : (earlier.number.toNat * g.pageSize, word') ∈ earlier.entries g := by
    simp [Leaf.entries, hwords', List.mapIdx_cons]
  have hlast : (leaf.number.toNat * g.pageSize, word) ∈ leaf.entries g := by
    simp [Leaf.entries, hwords, List.mapIdx_cons]
  have hlt := List.rel_of_pairwise_cons hleaves List.mem_cons_self _ hfirst _ hlast
  have hmul := Nat.mul_le_mul_right g.pageSize (UInt16.le_iff_toNat_le.mp hle)
  dsimp only at hlt
  omega

theorem Leaf.map_moved_zero (leaves : List Leaf) : leaves.map (Leaf.moved 0) = leaves := by
  refine List.map_id'' (fun leaf => ?_) leaves
  rw [Leaf.moved, UInt16.add_zero]

/-- Moved leaves do not have the positions they had. -/
theorem not_prefix_moved {leaves : List Leaf} (hsize : 0 < g.pageSize) (hne : leaves ≠ [])
    (hwords : ∀ leaf ∈ leaves, leaf.words ≠ []) {shift : UInt16} (hshift : shift ≠ 0)
    (behind behind' : List (Nat × Word)) : ¬(leaves.reverse.flatMap (Leaf.entries g) ++ behind <+:
      (leaves.map (Leaf.moved shift)).reverse.flatMap (Leaf.entries g) ++ behind') := by
  intro hstart
  obtain hnone | ⟨newer, oldest, rfl⟩ := leaves.eq_nil_or_concat'
  · exact hne hnone
  obtain ⟨word, rest, holdest⟩ :=
    List.exists_cons_of_ne_nil (hwords oldest List.mem_concat_self)
  -- the oldest leaf comes first, and its first position gives its number
  rw [List.map_append, List.reverse_append, List.reverse_append, List.map_singleton,
    List.reverse_singleton, List.reverse_singleton, List.singleton_append, List.singleton_append,
    List.flatMap_cons, List.flatMap_cons, Leaf.entries, Leaf.entries, Leaf.moved, holdest,
    List.mapIdx_cons, List.mapIdx_cons, List.cons_append, List.cons_append, List.cons_append,
    List.cons_append, List.cons_prefix_cons] at hstart
  have hposition := congrArg Prod.fst hstart.1
  dsimp only at hposition
  have hnumber := UInt16.toNat_inj.mp
    (Nat.eq_of_mul_eq_mul_right hsize (Nat.add_right_cancel hposition))
  exact hshift (UInt16.add_eq_left.mp hnumber.symm)

/-! ## What a walk sees -/

theorem Page.getElem_walk {medium : Medium g} {page : Page}
    (hsize : page.headerSize = (load medium page.slot).headerSize) {count index : Nat}
    (hindex : index < (walk medium count page).length) : (walk medium count page)[index] =
      ⟨g.next^[index] page.slot, page.number + UInt16.ofNat index,
        (load medium (g.next^[index] page.slot)).headerSize⟩ := by
  -- induction on the place in the walk
  induction index generalizing page count with
  | zero =>
    cases count with
    | zero => cases hindex
    | succ count =>
      obtain ⟨slot, number, headerSize⟩ := page
      dsimp only at hsize
      subst hsize
      exact congrArg (Page.mk _ · _) (UInt16.add_zero _).symm
  | succ index ih =>
    cases count with
    | zero => cases hindex
    | succ count =>
      have hnext := @ih (page.next medium) rfl count (Nat.lt_of_succ_lt_succ hindex)
      have hnumber : page.number + UInt16.ofNat (index + 1) =
          (page.next medium).number + UInt16.ofNat index := by
        rw [UInt16.ofNat_add, UInt16.add_comm (UInt16.ofNat index), ← UInt16.add_assoc]
        rfl
      rw [Function.iterate_succ_apply, hnumber]
      exact hnext

/-- From the number 0xffff on, a walk counts up to the number of the page with its distance. -/
theorem carried_eq (number : UInt16) {pages distance : Nat} (hpages : pages < 65536)
    (hdistance : distance + 2 ≤ pages) : 0xffff + UInt16.ofNat (pages - 1 - distance) =
      number - UInt16.ofNat distance + (UInt16.ofNat (pages - 2) - number) := by
  have hnumber := number.toNat_lt
  rw [← UInt16.toNat_inj]
  simp only [UInt16.toNat_add, UInt16.toNat_sub, UInt16.toNat_ofNat', UInt16.reduceToNat]
  omega

namespace Log

variable {log log' : Log g} {words : List Word} {leaf : Leaf} {leaves : List Leaf}

/-- The page in a slot with the number that a walk counts up to. -/
def seen (log : Log g) (slot : Nat) : Page :=
  if slot = log.page.slot then log.page
  else ⟨slot, log.oldestPage.number + UInt16.ofNat (g.pages - 1 - g.distance slot log.page.slot),
    (Page.load log.medium slot).headerSize⟩

theorem olderPages_eq (log : Log g) : log.olderPages = (g.lap log.page.slot).map log.seen := by
  have hdistance := Geometry.distance_next_self log.slot_lt log.two_le_pages
  have hwalk : log.olderPages.length = g.pages - 1 := Page.length_walk ..
  have hlap : (g.lap log.page.slot).length = g.pages - 1 := List.length_iterate ..
  refine List.ext_getElem (by rw [List.length_map, hwalk, hlap]) fun index hindex _ => ?_
  have hlt : index < g.pages - 1 := hwalk ▸ hindex
  have hmem : (g.lap log.page.slot)[index] ∈ g.lap log.page.slot := List.getElem_mem _
  have hne := ((Geometry.mem_lap log.slot_lt log.two_le_pages).mp hmem).2
  have hslot : (g.lap log.page.slot)[index] = g.next^[index] (g.next log.page.slot) := by
    simp only [Geometry.lap, List.getElem_iterate]
  have hleft := Geometry.distance_iterate log.next_slot_lt log.slot_lt
    (show index ≤ g.distance (g.next log.page.slot) log.page.slot by omega)
  rw [List.getElem_map, seen, if_neg hne, hslot, hleft, hdistance]
  have hcount : g.pages - 1 - (g.pages - 1 - index) = index := by omega
  rw [hcount]
  exact Page.getElem_walk rfl hindex

/-- The entries of a log are the words of all slots, each with the number that the walk has then. -/
theorem InStep.entries_eq_seen (h : log.InStep) :
    log.entries = (g.lap log.page.slot ++ [log.page.slot]).flatMap fun slot =>
      (log.seen slot).entries g (log.medium.wordsAt slot) := by
  have hactive : log.seen log.page.slot = log.page := if_pos rfl
  rw [entries, olderPages_eq, List.flatMap_map, List.flatMap_append, List.flatMap_singleton,
    hactive, h.activeWords_eq]
  congr 1
  refine List.flatMap_congr fun slot hslot => ?_
  have hne := ((Geometry.mem_lap log.slot_lt log.two_le_pages).mp hslot).2
  rw [seen, if_neg hne, Page.stored_eq_wordsAt rfl]

/-- A walk sees the leaf in the slot, or no words if there is none. -/
def SeenAs (log : Log g) (slot : Nat) : Option Leaf → Prop
  | some leaf => log.seen slot = ⟨slot, leaf.number, leaf.headerSize⟩ ∧
      log.medium.wordsAt slot = leaf.words
  | none => log.medium.wordsAt slot = []

/-- Backwards from the page being written, a walk sees the leaves. -/
structure Passes (log : Log g) (leaves : List Leaf) : Prop extends log.InStep where
  length_le : leaves.length ≤ g.pages
  seen : ∀ slot < g.pages, log.SeenAs slot leaves[g.distance slot log.page.slot]?

theorem InStep.length_wordsAt_le (h : log.InStep) (slot : Nat) :
    (log.medium.wordsAt slot).length ≤ (log.seen slot).capacity g := by
  by_cases hactive : slot = log.page.slot
  · rw [seen, if_pos hactive, hactive]
    exact h.holds.length_le
  · rw [seen, if_neg hactive]
    exact Page.length_stored_le log.medium (Page.load log.medium slot)

theorem Passes.entries_eq (h : log.Passes leaves) :
    log.entries.map Entry.shown = leaves.reverse.flatMap (Leaf.entries g) := by
  rw [h.entries_eq_seen]
  refine log.map_shown_lap h.length_le fun slot hslot => ?_
  have hseen := h.seen slot hslot
  rw [Page.map_shown_entries log.fits.pageSize_le (h.length_wordsAt_le slot)]
  cases hleaf : leaves[g.distance slot log.page.slot]? with
  | none =>
    rw [hleaf] at hseen
    have hnone : log.medium.wordsAt slot = [] := hseen
    rw [hnone]
    rfl
  | some leaf =>
    rw [hleaf] at hseen
    rw [hseen.1, hseen.2]
    rfl

theorem Passes.pushed (h : log.Passes (leaf :: leaves)) (hp : log.Pushed log' words)
    (hwords : Word.erased ∉ words) : log'.Passes (leaf.addAll g words :: leaves) := by
  have hstep := h.toInStep
  have hsame : log'.seen = log.seen := by
    funext slot
    rw [Log.seen, Log.seen, oldestPage, oldestPage, hp.page_eq, hstep.load_pushed hp hwords,
      hstep.load_pushed hp hwords]
  refine ⟨hstep.pushed hp hwords, h.length_le, fun slot hslot => ?_⟩
  have hseen := h.seen slot hslot
  rw [hp.page_eq]
  by_cases hactive : slot = log.page.slot
  · rw [hactive, Geometry.distance_self] at hseen ⊢
    obtain ⟨hpage, hlast⟩ := hseen
    refine ⟨?_, hstep.wordsAt_pushed_leaf hp hwords ?_ hlast⟩
    · rw [hsame, Leaf.addAll_eq]
      exact hpage
    · rw [Log.seen, if_pos rfl] at hpage
      exact congrArg Page.headerSize hpage
  · -- an older leaf is behind the first one, and nothing is written to its slot
    have hkept := hp.read_of_ne h.powered hactive
    obtain ⟨index, hindex⟩ := Nat.exists_eq_add_of_lt (Geometry.distance_pos hslot hactive)
    rw [hindex, Nat.zero_add, List.getElem?_cons_succ] at hseen ⊢
    cases hleaf : leaves[index]? <;> rw [hleaf] at hseen
    · exact (Medium.wordsAt_congr hkept).trans hseen
    · exact ⟨(congrFun hsame slot).trans hseen.1, (Medium.wordsAt_congr hkept).trans hseen.2⟩

/-! ## The numbers of a log -/

/-- The positions rise from entry to entry. -/
def Ascends (log : Log g) : Prop :=
  log.entries.Pairwise fun entry later => entry.position < later.position

theorem ascends_iff (log : Log g) : log.Ascends ↔
    (log.entries.map Entry.shown).Pairwise fun entry later => entry.1 < later.1 := by
  rw [List.pairwise_map]
  exact ⟨fun h => h.imp UInt32.lt_iff_toNat_lt.mp, fun h => h.imp UInt32.lt_iff_toNat_lt.mpr⟩

/-- Each leaf is in a slot. -/
theorem Shows.exists_slot (h : log.Shows leaves) {index : Nat} (hindex : index < leaves.length) :
    ∃ slot < g.pages, g.distance slot log.page.slot = index ∧
      log.medium.Shows slot (some leaves[index]) := by
  have hcount : index < g.pages := Nat.lt_of_lt_of_le hindex h.length_le
  have hlt := Nat.mod_lt (log.page.slot + g.pages - index) log.pages_pos
  have hdistance := Geometry.distance_sub_mod log.slot_lt hcount
  have hshows := h.shows _ hlt
  rw [hdistance, List.getElem?_eq_getElem hindex] at hshows
  exact ⟨_, hlt, hdistance, hshows⟩

theorem Shows.number_eq (h : log.Shows leaves) {index : Nat} (hindex : index < leaves.length) :
    leaves[index].number = log.page.number - UInt16.ofNat index := by
  obtain ⟨slot, hslot, rfl, hload, -⟩ := h.exists_slot hindex
  have hnumber := (h.full.inTurn slot hslot).2
  rwa [hload] at hnumber

theorem Shows.length_words_le (h : log.Shows leaves) (hleaf : leaf ∈ leaves) :
    leaf.words.length ≤ g.pageSize := by
  obtain ⟨index, hindex, rfl⟩ := List.mem_iff_getElem.mp hleaf
  obtain ⟨slot, hslot, -, -, hwords⟩ := h.exists_slot hindex
  have hlength := (h.full.inTurn slot hslot).1.length_le
  rw [hwords] at hlength
  exact Nat.le_trans hlength (Nat.sub_le _ _)

/-- As long as the numbers have not wrapped, a leaf has a smaller number than those behind it. -/
theorem Shows.numbers_fall (h : log.Shows leaves)
    (hlength : leaves.length ≤ log.page.number.toNat + 1) :
    leaves.Pairwise fun leaf earlier => earlier.number < leaf.number := by
  have hbound := log.page.number.toNat_lt
  refine List.pairwise_iff_getElem.mpr fun index earlier hindex hearlier hlt => ?_
  rw [h.number_eq hindex, h.number_eq hearlier, UInt16.lt_iff_toNat_lt,
    UInt16.toNat_sub, UInt16.toNat_sub, UInt16.toNat_ofNat', UInt16.toNat_ofNat']
  omega

theorem Shows.ascends (h : log.Shows leaves)
    (hlength : leaves.length ≤ log.page.number.toNat + 1) : log.Ascends := by
  rw [ascends_iff, h.entries_eq]
  exact pairwise_entries_of_numbers (fun _ => h.length_words_le) (h.numbers_fall hlength)

/-! ## The cuts of a rotation -/

variable {config : Config} {now now' : Instant}

/-- The entries that are left of a log when the power fails in a rotation: all of them, or all but
those on the page to be recycled. -/
def surviving (log : Log g) (count : Nat) : List Entry :=
  if count = 0 then log.entries else log.entries.drop (log.recycled .rotate)

theorem Shows.surviving_eq (h : log.Shows (leaf :: leaves)) (hpages : g.pages < 65536)
    {count : Nat} (hcount : count ≠ 0) : (log.surviving count).map Entry.shown =
      (leaf :: leaves.take (g.pages - 2)).reverse.flatMap (Leaf.entries g) := by
  have htwo := log.two_le_pages
  have hshown := (h.turned hpages).entries_eq
  have htake : (leaf :: leaves).take (g.pages - 1) = leaf :: leaves.take (g.pages - 2) := by
    rw [show g.pages - 1 = g.pages - 2 + 1 by omega, List.take_succ_cons]
  rw [h.onRing.entries_turned h.full, htake, List.reverse_cons, List.flatMap_append,
    List.flatMap_singleton] at hshown
  rw [surviving, if_neg hcount, hshown]
  exact List.append_nil _

/-- The power fails before the erasure: the boot adds an anchor. -/
theorem Shows.cutRotation_zero (h : log.Shows (leaf :: leaves)) (hpages : g.pages < 65536)
    (hfits : config.Fits g) :
    ∃ log', (Device.running log).run (cutRotation 0 now config now') = .running log' ∧
      log'.Shows (leaf.addAll g [anchorWord now'] :: leaves) := by
  obtain ⟨chip, log', hsupply, hmedium, hrun, hpushed⟩ :=
    h.onRing.toInStep.run_cutRotation 0 now hfits now'
  exact ⟨log', hrun, (h.found hsupply hmedium hfits hpages).pushed hpushed
    (erased_not_mem_anchor now')⟩

/-- The power fails behind the header: the new page is there, with no more than anchors. -/
theorem Shows.cutRotation_add_two (h : log.Shows (leaf :: leaves)) (hpages : g.pages < 65536)
    (hfits : config.Fits g) (count : Nat) :
    ∃ log' fresh, (Device.running log).run (cutRotation (count + 2) now config now') =
        .running log' ∧
      log'.Shows (fresh :: leaf :: leaves.take (g.pages - 2)) ∧ fresh.number = leaf.number + 1 ∧
      fresh.words.Sublist [anchorWord now, anchorWord now'] := by
  obtain ⟨chip, log', hsupply, hmedium, hrun, hpushed⟩ :=
    h.onRing.toInStep.run_cutRotation (count + 2) now hfits now'
  have htwo := log.two_le_pages
  have hanchor : Word.erased ∉ [anchorWord now].take count :=
    fun hmem => erased_not_mem_anchor now (List.mem_of_mem_take hmem)
  -- the medium is that of a log which has turned and perhaps recorded the time
  obtain ⟨turned, hturned⟩ : ∃ log', log.turned.Pushed log' ([anchorWord now].take count) := by
    cases count with
    | zero => exact ⟨log.turned, .refl _⟩
    | succ count =>
      refine ⟨log.rotate now, ?_⟩
      rw [List.take_succ_cons, List.take_nil]
      exact log.pushed_rotate now
  have hsame : chip.medium = turned.medium := by
    rw [hmedium, h.onRing.toInStep.medium_rotate_take, hturned.medium_eq h.onRing.turned.powered]
    rfl
  have hshows := (((h.turned hpages).pushed hturned hanchor).found hsupply hsame hfits
    hpages).pushed hpushed (erased_not_mem_anchor now')
  rw [show g.pages - 1 = g.pages - 2 + 1 by omega, List.take_succ_cons] at hshows
  refine ⟨log', _, hrun, hshows, ?_, ?_⟩ <;> rw [Leaf.addAll_eq, Leaf.addAll_eq]
  exact ((List.take_sublist _ _).trans (List.take_sublist _ _)).append (List.take_sublist _ _)

/-- The power fails behind the erasure: the boot goes on with the old page and adds an anchor. -/
theorem OnRing.run_cutRotation_one (h : log.OnRing) (hpages : g.pages < 65536)
    (hfits : config.Fits g) (hnext : g.next log.page.slot ≠ 0)
    (hnumber : log.page.number + 1 ≠ 0xffff) :
    ∃ found log' : Log g, found.InStep ∧ found.page = log.page ∧
      found.medium = log.medium.apply (.erase (g.next log.page.slot)) ∧
      found.Pushed log' [anchorWord now'] ∧
      (Device.running log).run (cutRotation 1 now config now') = .running log' := by
  obtain ⟨chip, log', hsupply, hmedium, hrun, hpushed⟩ :=
    h.toInStep.run_cutRotation 1 now hfits now'
  have herase : chip.medium = log.medium.apply (.erase (g.next log.page.slot)) := hmedium
  obtain ⟨hring, hformatted, -, hactive⟩ := h.erased hpages hnext herase
  rw [if_neg hnumber] at hactive
  obtain ⟨hpage, hsame⟩ := recover_of_activeSlot hsupply hring hfits hactive
  have hstep := inStep_recover hsupply hring.sound hfits
  rw [found_of_formatted hformatted] at hpushed
  exact ⟨_, log', hstep, hpage, hsame.trans herase, hpushed, hrun⟩

/-- With the oldest slot erased, a walk counts the older pages up from zero. -/
theorem Shows.seenAs_erased (h : log.Shows (leaf :: leaves)) (hpages : g.pages < 65536)
    {found : Log g} (hpage : found.page = log.page)
    (hmedium : found.medium = log.medium.apply (.erase (g.next log.page.slot))) {shift : UInt16}
    (hshift : shift = UInt16.ofNat (g.pages - 2) - log.page.number) {slot index : Nat}
    (hslot : slot < g.pages) (hnext : slot ≠ g.next log.page.slot)
    (hindex : g.distance slot log.page.slot = index + 1) :
    found.SeenAs slot (leaves[index]?.map (Leaf.moved shift)) := by
  have herased : found.medium.isErased (g.next log.page.slot) :=
    hmedium ▸ log.medium.isErased_apply_erase _
  have hread : ∀ offset, found.medium.read slot offset = log.medium.read slot offset := by
    rw [hmedium]
    exact Medium.read_apply_of_slot_ne fun heq => hnext heq.symm
  have hactive : slot ≠ log.page.slot := Geometry.ne_of_distance_eq_succ hindex
  have hcount := Geometry.distance_lt_of_ne_next hslot log.slot_lt log.two_le_pages hnext
  have hturn := (h.full.inTurn slot hslot).2
  have hshows := h.shows slot hslot
  rw [hindex, List.getElem?_cons_succ] at hshows
  cases hleaf : leaves[index]? <;> rw [hleaf] at hshows
  · exact (Medium.wordsAt_congr hread).trans hshows
  · obtain ⟨hload, hstored⟩ := hshows
    refine ⟨?_, (Medium.wordsAt_congr hread).trans hstored⟩
    rw [hload, Medium.numberAt, hindex] at hturn
    dsimp only at hturn
    rw [seen, hpage, if_neg hactive, oldestPage, hpage, Medium.number_load_of_isErased herased,
      hindex, carried_eq log.page.number hpages (by omega), Medium.load_congr hread, hload,
      hshift, Leaf.moved, hturn]

theorem Shows.passes_erased (h : log.Shows (leaf :: leaves)) (hpages : g.pages < 65536)
    {found : Log g} (hfound : found.InStep) (hpage : found.page = log.page)
    (hmedium : found.medium = log.medium.apply (.erase (g.next log.page.slot))) {shift : UInt16}
    (hshift : shift = UInt16.ofNat (g.pages - 2) - log.page.number) :
    found.Passes (leaf :: (leaves.take (g.pages - 2)).map (Leaf.moved shift)) := by
  have htwo := log.two_le_pages
  refine ⟨hfound, ?_, fun slot hslot => ?_⟩
  · rw [List.length_cons, List.length_map, List.length_take]
    omega
  rw [hpage]
  by_cases hactive : slot = log.page.slot
  · obtain ⟨hlast, hwords⟩ := h.last
    have hread : ∀ offset, found.medium.read log.page.slot offset =
        log.medium.read log.page.slot offset := by
      rw [hmedium]
      exact Medium.read_apply_of_slot_ne (Geometry.next_ne_self log.slot_lt htwo)
    rw [hactive, Geometry.distance_self]
    refine ⟨?_, (Medium.wordsAt_congr hread).trans hwords⟩
    rw [seen, hpage, if_pos rfl]
    exact hlast
  obtain ⟨index, hindex⟩ := Nat.exists_eq_add_of_lt (Geometry.distance_pos hslot hactive)
  rw [Nat.zero_add] at hindex
  rw [hindex, List.getElem?_cons_succ, List.getElem?_map]
  by_cases hnext : slot = g.next log.page.slot
  · -- the leaf that was in the erased slot is not among those taken
    rw [hnext, Geometry.distance_next_self log.slot_lt htwo] at hindex
    have hlength : (leaves.take (g.pages - 2)).length ≤ index := by
      rw [List.length_take]
      omega
    rw [List.getElem?_eq_none hlength, hnext]
    exact Medium.wordsAt_of_isErased (hmedium ▸ log.medium.isErased_apply_erase _)
  · have hcount := Geometry.distance_lt_of_ne_next hslot log.slot_lt htwo hnext
    rw [List.getElem?_take_of_lt (by omega)]
    exact h.seenAs_erased hpages hpage hmedium hshift hslot hnext hindex

/-! ## What a boot shows -/

theorem shown_injective : Function.Injective Entry.shown := by
  rintro ⟨⟨value⟩, word⟩ ⟨⟨value'⟩, word'⟩ h
  obtain ⟨hposition, hword⟩ := Prod.mk.inj h
  have hvalue : value = value' := UInt32.toNat_inj.mp hposition
  have hsame : word = word' := hword
  rw [hvalue, hsame]

theorem map_word_of_shown {entries : List Entry} (h : entries.map Entry.shown =
      leaves.reverse.flatMap (Leaf.entries g)) :
    entries.map Entry.word = leaves.reverse.flatMap Leaf.words := by
  have hwords := congrArg (List.map Prod.snd) h
  rw [List.map_map, List.map_flatMap] at hwords
  simp only [Leaf.map_word_entries] at hwords
  exact hwords

variable {count : Nat} {shift : UInt16}

/-- With words added to the last leaf, what survives is there still, wherever the others moved. -/
theorem words_of_moved (hold : (log.surviving count).map Entry.shown =
      (leaf :: leaves).reverse.flatMap (Leaf.entries g))
    (hnew : log'.entries.map Entry.shown = (leaf.addAll g words ::
      leaves.map (Leaf.moved shift)).reverse.flatMap (Leaf.entries g)) :
    log'.entries.map Entry.word =
      (log.surviving count).map Entry.word ++ words.take (leaf.room g) := by
  have hmoved : (leaves.map (Leaf.moved shift)).reverse.flatMap Leaf.words =
      leaves.reverse.flatMap Leaf.words := by
    rw [← List.map_reverse, List.flatMap_map]
    rfl
  rw [map_word_of_shown hold, map_word_of_shown hnew, List.reverse_cons, List.reverse_cons,
    List.flatMap_append, List.flatMap_append, List.flatMap_singleton, List.flatMap_singleton,
    hmoved, Leaf.addAll_eq, List.append_assoc]

theorem prefix_of_moved (hold : (log.surviving count).map Entry.shown =
      (leaf :: leaves).reverse.flatMap (Leaf.entries g))
    (hnew : log'.entries.map Entry.shown = (leaf.addAll g words ::
      leaves.map (Leaf.moved shift)).reverse.flatMap (Leaf.entries g))
    (hsame : leaves.map (Leaf.moved shift) = leaves) : log.surviving count <+: log'.entries := by
  rw [← List.prefix_map_iff_of_injective shown_injective, hold, hnew, hsame, List.reverse_cons,
    List.reverse_cons, List.flatMap_append, List.flatMap_append, List.prefix_append_right_inj,
    List.flatMap_singleton, List.flatMap_singleton]
  exact leaf.entries_prefix_addAll g words

/-- What survives has its old positions unless leaves have moved. -/
theorem prefix_of_moved_iff (hsize : 0 < g.pageSize) (hwords : ∀ other ∈ leaves, other.words ≠ [])
    (hold : (log.surviving count).map Entry.shown =
      (leaf :: leaves).reverse.flatMap (Leaf.entries g))
    (hnew : log'.entries.map Entry.shown = (leaf.addAll g words ::
      leaves.map (Leaf.moved shift)).reverse.flatMap (Leaf.entries g)) :
    log.surviving count <+: log'.entries ↔ leaves = [] ∨ shift = 0 := by
  constructor
  · intro hstart
    by_contra hmoved
    rw [not_or] at hmoved
    rw [← List.prefix_map_iff_of_injective shown_injective, hold, hnew, List.reverse_cons,
      List.reverse_cons, List.flatMap_append, List.flatMap_append] at hstart
    exact not_prefix_moved hsize hmoved.1 hwords hmoved.2 _ _ hstart
  · rintro (rfl | rfl)
    · exact prefix_of_moved hold hnew rfl
    · exact prefix_of_moved hold hnew (Leaf.map_moved_zero leaves)

/-! ## The numbers of moved leaves -/

/-- A moved leaf has the number that the walk comes to. -/
theorem Shows.toNat_moved (h : log.Shows (leaf :: leaves)) (hpages : g.pages < 65536)
    (hshift : shift = UInt16.ofNat (g.pages - 2) - log.page.number) (index : Nat)
    (hindex : index < leaves.length) (hroom : index + 3 ≤ g.pages) :
    (leaves[index].moved shift).number.toNat + index + 3 = g.pages := by
  have hnumber := h.number_eq (Nat.succ_lt_succ hindex)
  have hcarried := carried_eq log.page.number hpages (show index + 1 + 2 ≤ g.pages by omega)
  rw [List.getElem_cons_succ] at hnumber
  rw [Leaf.moved, hnumber, hshift, ← hcarried, UInt16.toNat_add, UInt16.toNat_ofNat']
  simp only [UInt16.reduceToNat]
  omega

theorem Shows.moved_fall (h : log.Shows (leaf :: leaves)) (hpages : g.pages < 65536)
    (hshift : shift = UInt16.ofNat (g.pages - 2) - log.page.number) :
    ((leaves.take (g.pages - 2)).map (Leaf.moved shift)).Pairwise
      fun leaf earlier => earlier.number < leaf.number := by
  refine List.pairwise_iff_getElem.mpr fun index earlier hindex hearlier hlt => ?_
  rw [List.length_map, List.length_take] at hindex hearlier
  have hnumber := h.toNat_moved hpages hshift index (by omega) (by omega)
  have hnumber' := h.toNat_moved hpages hshift earlier (by omega) (by omega)
  rw [List.getElem_map, List.getElem_map, List.getElem_take, List.getElem_take,
    UInt16.lt_iff_toNat_lt]
  omega

/-- The moved leaves stay below the last one unless the ring is less than full by two pages. -/
theorem Shows.moved_ascend_iff (h : log.Shows (leaf :: leaves)) (hpages : g.pages < 65536)
    (hshift : shift = UInt16.ofNat (g.pages - 2) - log.page.number)
    (hopen : ∀ other ∈ leaf :: leaves, other.words ≠ [])
    (hlength : leaves.length + 1 = min (log.page.number.toNat + 1) g.pages) (words : List Word) :
    ((leaf.addAll g words :: (leaves.take (g.pages - 2)).map (Leaf.moved shift)).reverse.flatMap
        (Leaf.entries g)).Pairwise (fun entry later => entry.1 < later.1) ↔
      ¬(1 ≤ log.page.number.toNat ∧ log.page.number.toNat + 3 ≤ g.pages) := by
  have hactive : (leaf.addAll g words).number = log.page.number := by
    rw [Leaf.addAll_eq]
    exact (congrArg Page.number h.last.1).symm
  constructor
  · rintro hpairwise ⟨hone, hle⟩
    obtain ⟨first, rest, rfl⟩ := List.exists_cons_of_length_pos (show 0 < leaves.length by omega)
    have hcount : g.pages - 2 = g.pages - 3 + 1 := by omega
    have hmoved := h.toNat_moved hpages hshift 0 (Nat.succ_pos _) (by omega)
    rw [List.getElem_cons_zero] at hmoved
    have hfirst : (first.moved shift).words ≠ [] :=
      hopen first (List.mem_cons_of_mem _ List.mem_cons_self)
    rw [hcount, List.take_succ_cons, List.map_cons] at hpairwise
    refine not_pairwise_entries (Leaf.addAll_words_ne_nil (hopen leaf List.mem_cons_self) words)
      hfirst ?_ hpairwise
    rw [hactive, UInt16.le_iff_toNat_le]
    omega
  · intro hother
    refine pairwise_entries_of_numbers (fun moved hmem => ?_)
      (List.pairwise_cons.mpr ⟨fun moved hmem => ?_, h.moved_fall hpages hshift⟩)
    · rcases List.mem_cons.mp hmem with rfl | holder
      · exact Leaf.length_addAll_le (h.length_words_le List.mem_cons_self) words
      · obtain ⟨older, htake, rfl⟩ := List.mem_map.mp holder
        have hlength : older.words.length ≤ g.pageSize :=
          h.length_words_le (List.mem_cons_of_mem _ (List.mem_of_mem_take htake))
        exact hlength
    · obtain ⟨older, htake, rfl⟩ := List.mem_map.mp hmem
      obtain ⟨index, hindex, rfl⟩ := List.mem_iff_getElem.mp htake
      rw [List.length_take] at hindex
      have hmoved := h.toNat_moved hpages hshift index (by omega) (by omega)
      rw [List.getElem_take, hactive, UInt16.lt_iff_toNat_lt]
      omega

/-- Words on moved leaves have other positions than before, unless the oldest one has number
zero. -/
theorem moved_eq_iff (hpages : g.pages < 65536)
    (hshift : shift = UInt16.ofNat (g.pages - 2) - log.page.number)
    (hlength : leaves.length + 1 = min (log.page.number.toNat + 1) g.pages) :
    (leaves.take (g.pages - 2) = [] ∨ shift = 0) ↔
      ¬(3 ≤ g.pages ∧ 1 ≤ log.page.number.toNat ∧ log.page.number.toNat + 2 ≠ g.pages) := by
  have hbound := log.page.number.toNat_lt
  have htwo := log.two_le_pages
  have hzero : shift = 0 ↔ log.page.number.toNat + 2 = g.pages := by
    rw [hshift, ← UInt16.toNat_inj, UInt16.toNat_sub, UInt16.toNat_ofNat', UInt16.toNat_zero]
    omega
  rw [List.take_eq_nil_iff, hzero, ← List.length_eq_zero_iff]
  omega

/-- The words that survive a cut rotation come first, and only anchors come behind them. -/
def WordsSurvive (log log' : Log g) (count : Nat) (now now' : Instant) : Prop :=
  ∃ newer, newer.Sublist [anchorWord now, anchorWord now'] ∧
    log'.entries.map Entry.word = (log.surviving count).map Entry.word ++ newer

theorem Shows.positions_zero (h : log.Shows (leaf :: leaves)) (hpages : g.pages < 65536)
    (hfits : config.Fits g) (hlength : (leaf :: leaves).length ≤ log.page.number.toNat + 1) :
    ∃ log', (Device.running log).run (cutRotation 0 now config now') = .running log' ∧
      log.WordsSurvive log' 0 now now' ∧ log'.Ascends ∧ log.surviving 0 <+: log'.entries := by
  obtain ⟨log', hrun, hshows⟩ := h.cutRotation_zero hpages hfits
  have hold : (log.surviving 0).map Entry.shown = _ := h.entries_eq
  have hnew := hshows.entries_eq
  rw [← Leaf.map_moved_zero leaves] at hnew
  refine ⟨log', hrun, ⟨_, ?_, words_of_moved hold hnew⟩, hshows.ascends ?_,
    prefix_of_moved hold hnew (Leaf.map_moved_zero leaves)⟩
  · exact (List.take_sublist _ _).cons _
  · have hnumber := congrArg Page.number hshows.last.1
    have hnumber' := congrArg Page.number h.last.1
    rw [Leaf.addAll_eq] at hnumber
    rw [hnumber, ← hnumber']
    exact hlength

theorem Shows.positions_add_two (h : log.Shows (leaf :: leaves)) (hpages : g.pages < 65536)
    (hfits : config.Fits g) (hlength : (leaf :: leaves).length ≤ log.page.number.toNat + 1)
    (hnumber : log.page.number.toNat + 1 < 65536) (count : Nat) :
    ∃ log', (Device.running log).run (cutRotation (count + 2) now config now') = .running log' ∧
      log.WordsSurvive log' (count + 2) now now' ∧ log'.Ascends ∧
      log.surviving (count + 2) <+: log'.entries := by
  obtain ⟨log', fresh, hrun, hshows, hnext, hfresh⟩ := h.cutRotation_add_two hpages hfits count
  have hold := h.surviving_eq hpages (Nat.succ_ne_zero (count + 1))
  have hnew := hshows.entries_eq
  rw [List.reverse_cons, List.flatMap_append, List.flatMap_singleton] at hnew
  refine ⟨log', hrun, ⟨fresh.words, hfresh, ?_⟩, hshows.ascends ?_, ?_⟩
  · rw [map_word_of_shown hshows.entries_eq, map_word_of_shown hold, List.reverse_cons,
      List.flatMap_append, List.flatMap_singleton]
  · have hlast := congrArg Page.number hshows.last.1
    have hbefore := congrArg Page.number h.last.1
    dsimp only at hlast hbefore
    rw [hlast, hnext, ← hbefore, UInt16.toNat_add, UInt16.toNat_one, Nat.mod_eq_of_lt hnumber]
    rw [List.length_cons] at hlength
    rw [List.length_cons, List.length_cons, List.length_take]
    omega
  · rw [← List.prefix_map_iff_of_injective shown_injective, hold, hnew]
    exact List.prefix_append _ _

/-- The power fails behind the erasure: the words are there, but the older ones keep their positions
only if the oldest of them was on page zero. -/
theorem Shows.positions_one (h : log.Shows (leaf :: leaves)) (hpages : g.pages < 65536)
    (hfits : config.Fits g) (hnext : g.next log.page.slot ≠ 0)
    (hwords : ∀ other ∈ leaf :: leaves, other.words ≠ [])
    (hlength : (leaf :: leaves).length = min (log.page.number.toNat + 1) g.pages)
    (hnumber : log.page.number.toNat + 1 < 65535) :
    ∃ log', (Device.running log).run (cutRotation 1 now config now') = .running log' ∧
      log.WordsSurvive log' 1 now now' ∧
      (log'.Ascends ↔
        ¬(1 ≤ log.page.number.toNat ∧ log.page.number.toNat + 3 ≤ g.pages)) ∧
      (log.surviving 1 <+: log'.entries ↔
        ¬(3 ≤ g.pages ∧ 1 ≤ log.page.number.toNat ∧ log.page.number.toNat + 2 ≠ g.pages)) := by
  have htwo := log.two_le_pages
  have hsuccessor : log.page.number + 1 ≠ 0xffff := by
    intro heq
    have hnat := congrArg UInt16.toNat heq
    rw [UInt16.toNat_add, UInt16.toNat_one] at hnat
    simp only [UInt16.reduceToNat] at hnat
    omega
  obtain ⟨found, log', hfound, hpage, hmedium, hpushed, hrun⟩ :=
    h.onRing.run_cutRotation_one hpages hfits hnext hsuccessor
  obtain ⟨shift, hshift⟩ : ∃ shift, shift = UInt16.ofNat (g.pages - 2) - log.page.number :=
    ⟨_, rfl⟩
  have hpasses := h.passes_erased hpages hfound hpage hmedium hshift
  have hnew := (hpasses.pushed hpushed (erased_not_mem_anchor now')).entries_eq
  have hold := h.surviving_eq hpages Nat.one_ne_zero
  have hactive : log.page.number = leaf.number := congrArg Page.number h.last.1
  rw [List.length_cons] at hlength
  refine ⟨log', hrun, ⟨_, (List.take_sublist _ _).cons _, words_of_moved hold hnew⟩, ?_, ?_⟩
  · rw [ascends_iff, hnew]
    exact h.moved_ascend_iff hpages hshift hwords hlength _
  · have hsize : 0 < g.pageSize := Nat.zero_lt_of_lt hfound.holds.fits.headerSize_lt
    rw [← moved_eq_iff hpages hshift hlength]
    refine prefix_of_moved_iff hsize (fun older holder => ?_) hold hnew
    exact hwords older (List.mem_cons_of_mem _ (List.mem_of_mem_take holder))

end Log

namespace Device

/-- The power fails in a rotation to another slot than zero, in a log whose page numbers have not
wrapped. The next boot shows the words that survive. Their positions rise, unless the power fails
just behind the erasure while more than two slots of a new ring have not been written; and each has
the position it had before, unless the power fails there and any of them is on an older page, other
than one of number zero in the slot behind the erased one. -/
theorem positions_iff (hpages : g.pages < 65536) {actions : List Action}
    (hactions : ∀ action ∈ actions, action.Regular g) (hbelow : StaysBelow g 0xfffe actions)
    {log : Log g} (hlog : (new g).actAll actions = running log)
    (hnext : g.next log.page.slot ≠ 0) {config : Config} (hfits : config.Fits g) (count : Nat)
    (now now' : Instant) :
    ∃ log', (running log).run (Log.cutRotation count now config now') = running log' ∧
      log.WordsSurvive log' count now now' ∧
      (log'.Ascends ↔ ¬(count = 1 ∧ 1 ≤ log.page.number.toNat ∧
        log.page.number.toNat + 3 ≤ g.pages)) ∧
      (log.surviving count <+: log'.entries ↔ ¬(count = 1 ∧ 3 ≤ g.pages ∧
        1 ≤ log.page.number.toNat ∧ log.page.number.toNat + 2 ≠ g.pages)) := by
  obtain ⟨history, hrecalls, hopens, hcounts⟩ := recalls_of_running hpages hactions hlog
  have hshows : log.Shows (history.last :: history.earlier) := hrecalls.shows
  have hnumber : log.page.number.toNat < 0xfffe := by
    have hlast := hbelow actions ((List.mem_inits _ _).mpr List.prefix_rfl)
    rwa [hlog] at hlast
  have hlength : (history.last :: history.earlier).length =
      min (log.page.number.toNat + 1) g.pages := by
    rw [hshows.last.1]
    exact hcounts 0xfffe (by decide) hbelow
  have hle := Nat.le_trans (Nat.le_of_eq hlength) (Nat.min_le_left _ _)
  match count with
  | 0 =>
    obtain ⟨log', hrun, hwords, hascends, hstart⟩ := hshows.positions_zero hpages hfits hle
    exact ⟨log', hrun, hwords, iff_of_true hascends (by omega), iff_of_true hstart (by omega)⟩
  | 1 =>
    obtain ⟨log', hrun, hwords, hascends, hstart⟩ := hshows.positions_one hpages hfits hnext
      hopens.leaves_ne_nil hlength (by omega)
    refine ⟨log', hrun, hwords, ?_, ?_⟩
    · rw [hascends, eq_self_iff_true, true_and]
    · rw [hstart, eq_self_iff_true, true_and]
  | count + 2 =>
    obtain ⟨log', hrun, hwords, hascends, hstart⟩ :=
      hshows.positions_add_two hpages hfits hle (by omega) count
    exact ⟨log', hrun, hwords, iff_of_true hascends (by omega), iff_of_true hstart (by omega)⟩

/-- Three rotations around three pages lead to page three in slot zero. Behind a cut the positions
rise, but if slot one is erased then page two seems to be page zero. -/
theorem positions_iff_three_rotations :
    let actions : List Action := .boot ⟨0, 1⟩ ⟨0⟩ :: .replicate 3 (.perform ⟨0⟩ .rotate)
    (∀ action ∈ actions, action.Regular ⟨3, 4⟩) ∧ StaysBelow ⟨3, 4⟩ 0xfffe actions ∧
      ∃ log, (new ⟨3, 4⟩).actAll actions = running log ∧
        Geometry.next ⟨3, 4⟩ log.page.slot ≠ 0 ∧
        (∃ log', (running log).run (Log.cutRotation 1 ⟨0⟩ ⟨0, 1⟩ ⟨0⟩) = running log' ∧
          log'.Ascends ∧ ¬log.surviving 1 <+: log'.entries) ∧
        ∃ log', (running log).run (Log.cutRotation 2 ⟨0⟩ ⟨0, 1⟩ ⟨0⟩) = running log' ∧
          log'.Ascends ∧ log.surviving 2 <+: log'.entries := by
  intro actions
  have hactions : ∀ action ∈ actions, action.Regular ⟨3, 4⟩ := by decide
  have hbelow : StaysBelow ⟨3, 4⟩ 0xfffe actions := by decide +kernel
  have hfits : (⟨0, 1⟩ : Config).Fits ⟨3, 4⟩ := by decide
  obtain ⟨log, hlog, hpage⟩ : ∃ log, (new ⟨3, 4⟩).actAll actions = running log ∧
      log.page = ⟨0, 3, 1⟩ := ⟨_, rfl, by decide +kernel⟩
  have hnext : Geometry.next ⟨3, 4⟩ log.page.slot ≠ 0 := by rw [hpage]; decide
  have hcut := positions_iff (by decide) hactions hbelow hlog hnext hfits
  obtain ⟨log', hrun, -, hascends, hstart⟩ := hcut 1 ⟨0⟩ ⟨0⟩
  obtain ⟨log'', hrun', -, hascends', hstart'⟩ := hcut 2 ⟨0⟩ ⟨0⟩
  rw [hpage] at hascends hstart
  refine ⟨hactions, hbelow, log, hlog, hnext, ⟨log', hrun, ?_, ?_⟩, log'', hrun', ?_, ?_⟩
  · exact hascends.mpr (by decide)
  · rw [hstart]
    decide
  · exact hascends'.mpr fun h => absurd h.1 (by decide)
  · exact hstart'.mpr fun h => absurd h.1 (by decide)

/-- On four pages, one rotation leads to page one, with a record on it and one on page zero. Behind
the erasure of slot two, both pages seem to be page one. -/
theorem not_positions :
    let now : Instant := .ofSeconds 100
    let actions : List Action := [.boot ⟨2, 1⟩ now, .perform now (.append 0x81000003),
      .perform now .rotate, .perform now (.append 0x81000004)]
    (∀ action ∈ actions, action.Regular ⟨4, 8⟩) ∧ StaysBelow ⟨4, 8⟩ 0xfffe actions ∧
      ∃ log log', (new ⟨4, 8⟩).actAll actions = running log ∧ log.page = ⟨1, 1, 1⟩ ∧
        (running log).run (Log.cutRotation 1 (.ofSeconds 101) ⟨2, 1⟩ (.ofSeconds 101)) =
          running log' ∧
        log.entries.map Entry.shown =
          [(0, 100), (1, 0x81000003), (8, 100), (9, 0x81000004)] ∧
        log'.entries.map Entry.shown =
          [(8, 100), (9, 0x81000003), (8, 100), (9, 0x81000004), (10, 101)] ∧ ¬log'.Ascends := by
  intro now actions
  obtain ⟨log, hlog, hpage, hbefore, hbehind⟩ : ∃ log,
      (new ⟨4, 8⟩).actAll actions = running log ∧ log.page = ⟨1, 1, 1⟩ ∧
      log.entries.map Entry.shown = [(0, 100), (1, 0x81000003), (8, 100), (9, 0x81000004)] ∧
      (match (running log).run (Log.cutRotation 1 (.ofSeconds 101) ⟨2, 1⟩ (.ofSeconds 101)) with
      | running log' => log'.entries.map Entry.shown
      | off _ => []) =
        [(8, 100), (9, 0x81000003), (8, 100), (9, 0x81000004), (10, 101)] :=
    ⟨_, rfl, by decide +kernel, by decide +kernel, by decide +kernel⟩
  split at hbehind
  · rename_i log' hrun
    refine ⟨by decide, by decide +kernel, log, log', hlog, hpage, hrun, hbefore, hbehind, ?_⟩
    rw [Log.ascends_iff, hbehind]
    decide
  · cases hbehind

end Device

end RingLog

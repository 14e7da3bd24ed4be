import RingLog.Proofs.Log.Entries
import RingLog.Proofs.Log.Walk

/-!
# What an operation does to the entries

An operation takes the entries of the page that it recycles from the front of the log, or all of
them, and adds the words that it stores behind the others. What there is to read from some page on
changes in the same way, as long as that page is not recycled.

Main statements: `Log.OnRing.entries_perform`, and `Log.OnRing.entries_found` for a boot;
`Log.InStep.entriesFrom_pushed` and `Log.OnRing.entriesFrom_turned`, the same for a part of the log.
-/

namespace RingLog

variable {g : Geometry}

/-- The entries of the page in a slot. -/
def Medium.entriesAt (medium : Medium g) (slot : Nat) : List Entry :=
  (Page.load medium slot).entries g (medium.wordsAt slot)

theorem Medium.entriesAt_congr {medium medium' : Medium g} {slot : Nat}
    (h : ∀ offset, medium'.read slot offset = medium.read slot offset) :
    medium'.entriesAt slot = medium.entriesAt slot := by
  rw [entriesAt, entriesAt, load_congr h, wordsAt_congr h]

theorem Medium.length_entriesAt (medium : Medium g) (slot : Nat) :
    (medium.entriesAt slot).length = (medium.wordsAt slot).length :=
  Page.length_entries ..

namespace Log

variable {log log' : Log g} {words : List Word} {slot : Nat}

/-- The entries that some words make which are written behind the records of the page. -/
def added (log : Log g) (words : List Word) : List Entry :=
  (log.fitting words).mapIdx fun index word => ⟨log.page.position g (log.used + index), word⟩

/-- The entries that an operation adds to the log. -/
def recorded (log : Log g) (now : Instant) (operation : Operation) : List Entry :=
  (log.prepared operation).added (log.written now operation)

/-- How many of the oldest entries an operation takes from the log. -/
def recycled (log : Log g) : Operation → Nat
  | .append _ | .anchor => 0
  | .rotate => (log.medium.wordsAt (g.next log.page.slot)).length
  | .eraseAll => log.entries.length

/-! ## What is added to a log -/

theorem length_added (log : Log g) (words : List Word) :
    (log.added words).length = min words.length (log.page.capacity g - log.used) := by
  rw [added, List.length_mapIdx, fitting, List.length_take, Nat.min_comm]

theorem added_singleton (log : Log g) (word : Word) : log.added [word] =
    if log.used < log.page.capacity g then [⟨log.page.position g log.used, word⟩] else [] := by
  rw [added, fitting_singleton]
  split <;> rfl

/-- The first words make the first entries. -/
theorem added_take (log : Log g) (words : List Word) (count : Nat) :
    log.added (words.take count) = (log.added words).take count := by
  have hfitting : log.fitting (words.take count) = (log.fitting words).take count := by
    rw [fitting, fitting, List.take_take, List.take_take, Nat.min_comm]
  refine List.ext_getElem ?_ fun index hindex _ => ?_
  · rw [added, List.length_mapIdx, hfitting, List.length_take, List.length_take, added,
      List.length_mapIdx]
  · rw [List.getElem_take]
    simp only [added, List.getElem_mapIdx, hfitting, List.getElem_take]

theorem Pushed.used_eq_add_length (hp : log.Pushed log' words) :
    log'.used = log.used + (log.added words).length := by
  rw [hp.used_eq, length_added]

/-! ## From a page on -/

theorem entriesFrom_oldestPage (log : Log g) : log.entriesFrom log.oldestPage = log.entries := by
  have hslot : log.oldestPage.slot = g.next log.page.slot := rfl
  rw [entriesFrom, hslot, Geometry.distance_next_self log.slot_lt log.two_le_pages]
  rfl

theorem InStep.entriesFrom_active (h : log.InStep) :
    log.entriesFrom (Page.load log.medium log.page.slot) =
      log.medium.entriesAt log.page.slot := by
  rw [Medium.entriesAt, h.holds.load_eq, log.entriesFrom_of_eq rfl, h.activeWords_eq]

theorem InStep.entries_eq_older (h : log.InStep) : log.entries =
    log.olderPages.flatMap (fun page => page.entries g (page.stored log.medium)) ++
      log.medium.entriesAt log.page.slot := by
  rw [entries, Medium.entriesAt, h.holds.load_eq, h.activeWords_eq]

theorem entriesFrom_next (hfull : log.medium.FullRing log.page) (hslot : slot < g.pages)
    (hne : slot ≠ log.page.slot) : log.entriesFrom (Page.load log.medium slot) =
      log.medium.entriesAt slot ++ log.entriesFrom (Page.load log.medium (g.next slot)) := by
  have hload : (Page.load log.medium slot).slot = slot := rfl
  rw [log.entriesFrom_of_ne (hload ▸ hslot) (hload ▸ hne), hfull.next_load hslot hne]
  rfl

/-- The entries of the oldest page come first. -/
theorem entries_eq_oldest (hfull : log.medium.FullRing log.page) :
    log.entries = log.medium.entriesAt (g.next log.page.slot) ++
      log.entriesFrom (Page.load log.medium (g.next (g.next log.page.slot))) := by
  have hactive := Geometry.next_ne_self log.slot_lt log.two_le_pages
  rw [← log.entriesFrom_oldestPage, oldestPage, entriesFrom_next hfull log.next_slot_lt hactive]

/-- What there is from a page on is the end of the log. -/
theorem entriesFrom_suffix (hfull : log.medium.FullRing log.page) (hslot : slot < g.pages) :
    log.entriesFrom (Page.load log.medium slot) <:+ log.entries := by
  have hnext := Geometry.distance_next_self log.slot_lt log.two_le_pages
  -- induction on the pages between the oldest one and this one
  induction hleft : g.pages - 1 - g.distance slot log.page.slot generalizing slot with
  | zero =>
    have hlt := Geometry.distance_lt hslot log.slot_lt
    have hdistance : g.distance slot log.page.slot =
        g.distance (g.next log.page.slot) log.page.slot := by omega
    rw [Geometry.distance_left_inj hslot log.next_slot_lt hdistance, ← log.entriesFrom_oldestPage]
    exact List.suffix_rfl
  | succ left ih =>
    have hprevious := Geometry.next_previous hslot
    have hlt : g.previous slot < g.pages := by
      unfold Geometry.previous
      split <;> omega
    have hne : g.previous slot ≠ log.page.slot := by
      intro heq
      rw [heq] at hprevious
      rw [hprevious] at hnext
      omega
    have hstep := Geometry.distance_next hlt log.slot_lt hne
    rw [hprevious] at hstep
    have hbefore := ih hlt (by omega)
    rw [entriesFrom_next hfull hlt hne, hprevious] at hbefore
    exact (List.suffix_append _ _).trans hbefore

/-! ## Writing records -/

theorem InStep.entriesAt_pushed (h : log.InStep) (hp : log.Pushed log' words)
    (hwords : Word.erased ∉ words) (slot : Nat) : log'.medium.entriesAt slot =
      log.medium.entriesAt slot ++ if slot = log.page.slot then log.added words else [] := by
  rw [Medium.entriesAt, Medium.entriesAt, h.load_pushed hp hwords, h.wordsAt_pushed hp hwords]
  split
  · rename_i hactive
    rw [hactive, h.holds.load_eq, Page.entries, Page.entries, List.mapIdx_append, added,
      h.used_eq]
    simp only [Nat.add_comm]
  · rw [List.append_nil, List.append_nil]

theorem InStep.entriesFrom_pushed (h : log.InStep) (hfull : log.medium.FullRing log.page)
    (hp : log.Pushed log' words) (hwords : Word.erased ∉ words) (hslot : slot < g.pages) :
    log'.entriesFrom (Page.load log'.medium slot) =
      log.entriesFrom (Page.load log.medium slot) ++ log.added words := by
  have hstep := h.pushed hp hwords
  have hfull' := h.fullRing_pushed hfull hp hwords
  have hpage : log'.page.slot = log.page.slot := congrArg Page.slot hp.page_eq
  -- induction on the distance to the page being written
  induction hhops : g.distance slot log.page.slot generalizing slot with
  | zero =>
    have hactive := (Geometry.distance_eq_zero hslot).mp hhops
    have hleft := hstep.entriesFrom_active
    rw [hpage] at hleft
    rw [hactive, hleft, h.entriesFrom_active, h.entriesAt_pushed hp hwords, if_pos rfl]
  | succ hops ih =>
    have hne : slot ≠ log.page.slot := Geometry.ne_of_distance_eq_succ hhops
    have hnext := Geometry.distance_next hslot log.slot_lt hne
    rw [entriesFrom_next hfull' hslot (hpage ▸ hne), entriesFrom_next hfull hslot hne,
      ih (Geometry.next_lt log.pages_pos) (by omega), h.entriesAt_pushed hp hwords, if_neg hne,
      List.append_nil, List.append_assoc]

/-- All older pages stay as they are, whatever they hold. -/
theorem InStep.entries_pushed (h : log.InStep) (hp : log.Pushed log' words)
    (hwords : Word.erased ∉ words) : log'.entries = log.entries ++ log.added words := by
  have hload := h.load_pushed hp hwords
  have holder : log'.olderPages = log.olderPages := by
    rw [olderPages, olderPages, oldestPage, oldestPage, hp.page_eq, hload]
    exact Page.walk_congr hload _ _
  have hstored : ∀ page ∈ log.olderPages, page.stored log'.medium = page.stored log.medium :=
    fun page hmem => Page.stored_congr (hp.read_of_ne h.powered (slot_of_mem_olderPages hmem).2)
  have hactive := h.entriesAt_pushed hp hwords log.page.slot
  rw [if_pos rfl] at hactive
  rw [h.entries_eq_older, (h.pushed hp hwords).entries_eq_older, holder, hp.page_eq, hactive,
    ← List.append_assoc]
  refine congrArg (· ++ _ ++ _) (List.flatMap_congr fun page hmem => ?_)
  rw [hstored page hmem]

/-! ## Rotation and erasure -/

/-- A rotation changes nothing from a page on that it does not recycle. -/
theorem OnRing.entriesFrom_turned (h : log.OnRing) (hfull : log.medium.FullRing log.page)
    (hslot : slot < g.pages) (hne : slot ≠ g.next log.page.slot) :
    log.turned.entriesFrom (Page.load log.turned.medium slot) =
      log.entriesFrom (Page.load log.medium slot) := by
  have hfull' := h.fullRing_turned
  have hpage : log.turned.page.slot = g.next log.page.slot := rfl
  have hnext := Geometry.distance_next_self log.slot_lt log.two_le_pages
  have hsame : ∀ {slot}, slot ≠ g.next log.page.slot →
      log.turned.medium.entriesAt slot = log.medium.entriesAt slot :=
    fun hne => Medium.entriesAt_congr (h.read_turned hne)
  -- induction on the distance to the page written before
  induction hhops : g.distance slot log.page.slot generalizing slot with
  | zero =>
    have hactive := (Geometry.distance_eq_zero hslot).mp hhops
    have hnone : log.turned.medium.wordsAt (g.next log.page.slot) = [] :=
      h.holds_turned.wordsAt_eq
    have hempty := h.toInStep.turned.entriesFrom_active
    rw [hpage, Medium.entriesAt, hnone] at hempty
    rw [entriesFrom_next hfull' hslot (hpage ▸ hne), hactive, hempty, h.entriesFrom_active,
      hsame (hactive ▸ hne)]
    exact List.append_nil _
  | succ hops ih =>
    have hactive : slot ≠ log.page.slot := Geometry.ne_of_distance_eq_succ hhops
    have hstep := Geometry.distance_next hslot log.slot_lt hactive
    have hlt := Geometry.distance_lt hslot log.slot_lt
    have hother : g.next slot ≠ g.next log.page.slot := by
      intro heq
      rw [heq] at hstep
      omega
    rw [entriesFrom_next hfull' hslot (hpage ▸ hne), entriesFrom_next hfull hslot hactive,
      ih (Geometry.next_lt log.pages_pos) hother (by omega), hsame hne]

theorem OnRing.entries_turned (h : log.OnRing) (hfull : log.medium.FullRing log.page) :
    log.turned.entries = log.entries.drop (log.recycled .rotate) := by
  have hnext := Geometry.next_ne_self log.next_slot_lt log.two_le_pages
  have hlt : g.next (g.next log.page.slot) < g.pages := Geometry.next_lt log.pages_pos
  have hpage : log.turned.page.slot = g.next log.page.slot := rfl
  have hturned := h.entriesFrom_turned hfull hlt hnext
  rw [← hpage] at hturned
  rw [← log.turned.entriesFrom_oldestPage, oldestPage, hturned, entries_eq_oldest hfull, recycled,
    ← Medium.length_entriesAt, List.drop_left, hpage]

/-- An operation takes no more entries from the log than there are. -/
theorem recycled_le_length (hfull : log.medium.FullRing log.page) (operation : Operation) :
    log.recycled operation ≤ log.entries.length := by
  cases operation with
  | append word => exact Nat.zero_le _
  | anchor => exact Nat.zero_le _
  | rotate =>
    rw [entries_eq_oldest hfull, List.length_append, recycled, Medium.length_entriesAt]
    exact Nat.le_add_right _ _
  | eraseAll => exact Nat.le_refl _

theorem InStep.entries_eq_nil (h : log.InStep)
    (hnone : ∀ slot < g.pages, log.medium.wordsAt slot = []) : log.entries = [] := by
  refine List.map_eq_nil_iff.mp (h.map_word_entries.trans ?_)
  refine List.flatMap_eq_nil_iff.mpr fun slot hmem => hnone slot ?_
  rcases List.mem_append.mp hmem with hlap | hactive
  · exact ((Geometry.mem_lap log.slot_lt log.two_le_pages).mp hlap).1
  · rw [List.mem_singleton.mp hactive]
    exact log.slot_lt

theorem entries_cleared (hpowered : log.chip.supply = none) : log.cleared.entries = [] :=
  (InStep.cleared hpowered).entries_eq_nil fun _ hslot =>
    (holds_cleared hpowered hslot).wordsAt_eq

/-! ## Operations -/

theorem OnRing.entries_prepared (h : log.OnRing) (hfull : log.medium.FullRing log.page)
    (operation : Operation) :
    (log.prepared operation).entries = log.entries.drop (log.recycled operation) := by
  cases operation with
  | append word => rfl
  | anchor => rfl
  | rotate => exact h.entries_turned hfull
  | eraseAll =>
    rw [recycled, List.drop_length]
    exact entries_cleared h.powered

/-- All that an operation does to the entries of a log. -/
theorem OnRing.entries_perform (h : log.OnRing) (hfull : log.medium.FullRing log.page)
    {now : Instant} {operation : Operation}
    (hoperation : (Action.perform now operation).Regular g) :
    (log.perform now operation).entries =
      log.entries.drop (log.recycled operation) ++ log.recorded now operation := by
  have hstep := h.toInStep.prepared operation
  rw [hstep.entries_pushed (log.pushed_perform now operation)
    (log.erased_not_mem_written hoperation), h.entries_prepared hfull, recorded]

/-- A boot finds the entries of a log on its ring. -/
theorem OnRing.entries_found (h : log.OnRing) (hfull : log.medium.FullRing log.page)
    {config : Config} (hfits : config.Fits g) :
    (found log.chip config hfits.accepted).InStep ∧
      (found log.chip config hfits.accepted).entries = log.entries := by
  have hstep := inStep_recover h.powered h.ring.sound hfits
  obtain ⟨hpage, hmedium⟩ := recover_of_activeSlot h.powered h.ring hfits h.activeSlot_eq
  have hfull' : (recover log.chip config hfits.accepted).medium.FullRing
      (recover log.chip config hfits.accepted).page := by
    rw [hpage, hmedium]
    exact hfull
  rw [found_of_formatted h.formatted]
  refine ⟨hstep, ?_⟩
  rw [hstep.entries_eq hfull', h.toInStep.entries_eq hfull, hpage, hmedium]

end Log

end RingLog

import Mathlib.Data.List.Basic
import RingLog.Log.Reading
import RingLog.Proofs.Log.OnRing
import RingLog.Proofs.Ring.Lap

/-!
# The entries of a log

The entries of a log in step are the words of all slots on a lap around the ring, the page being
written last. On a full ring their positions are those that the headers give.

Main statements: `Log.InStep.map_word_entries` and `Log.InStep.entries_eq`.
-/

namespace RingLog

variable {g : Geometry}

theorem Page.map_word_entries (page : Page) (words : List Word) :
    (page.entries g words).map Entry.word = words := by
  refine List.ext_getElem (by rw [List.length_map, length_entries]) fun index _ _ => ?_
  rw [List.getElem_map]
  simp only [entries, List.getElem_mapIdx]

namespace Log

variable {log log' : Log g} {words : List Word}

/-- The entries depend on the medium and on the place of writing only. -/
theorem entries_congr (hfrontier : log'.frontier = log.frontier)
    (hmedium : log'.medium = log.medium) : log'.entries = log.entries := by
  have hpage : log'.page = log.page := congrArg Cursor.page hfrontier
  have hused : log'.used = log.used := congrArg Cursor.index hfrontier
  simp only [entries, olderPages, oldestPage, activeWords, hpage, hused, hmedium]

theorem slot_of_mem_olderPages {page : Page} (h : page ∈ log.olderPages) :
    page.slot < g.pages ∧ page.slot ≠ log.page.slot := by
  have hslot : page.slot ∈ g.lap log.page.slot := by
    have hmem := List.mem_map_of_mem (f := Page.slot) h
    rw [olderPages, Page.map_slot_walk] at hmem
    exact hmem
  exact (Geometry.mem_lap log.slot_lt log.two_le_pages).mp hslot

theorem map_word_entries (log : Log g) : log.entries.map Entry.word =
    (g.lap log.page.slot).flatMap log.medium.wordsAt ++ log.activeWords := by
  have holder : log.olderPages.flatMap (·.stored log.medium) =
      (g.lap log.page.slot).flatMap log.medium.wordsAt := Page.flatMap_stored_walk _ rfl
  rw [entries, List.map_append, List.map_flatMap, Page.map_word_entries]
  simp only [Page.map_word_entries]
  rw [holder]

theorem activeWords_of_holds (h : log.page.Holds log.medium words)
    (hused : log.used = words.length) : log.activeWords = words := by
  rw [activeWords, h.words_eq, hused, List.take_left]

theorem InStep.activeWords_eq (h : log.InStep) :
    log.activeWords = log.medium.wordsAt log.page.slot :=
  activeWords_of_holds h.holds h.used_eq

theorem InStep.map_word_entries (h : log.InStep) : log.entries.map Entry.word =
    (g.lap log.page.slot ++ [log.page.slot]).flatMap log.medium.wordsAt := by
  rw [Log.map_word_entries, h.activeWords_eq, List.flatMap_append, List.flatMap_singleton]

theorem InStep.entries_eq (h : log.InStep) (hfull : log.medium.FullRing log.page) :
    log.entries = (g.lap log.page.slot ++ [log.page.slot]).flatMap fun slot =>
      (Page.load log.medium slot).entries g (log.medium.wordsAt slot) := by
  have hdistance := Geometry.distance_next_self log.slot_lt log.two_le_pages
  rw [entries, olderPages, oldestPage, hfull.walk_eq log.next_slot_lt (by omega), List.flatMap_map,
    List.flatMap_append, List.flatMap_singleton, hfull.load_eq, h.activeWords_eq]
  rfl

/-- Writing records adds entries behind the others. -/
theorem InStep.map_word_entries_pushed (h : log.InStep) (hp : log.Pushed log' words)
    (hwords : Word.erased ∉ words) :
    log'.entries.map Entry.word = log.entries.map Entry.word ++ log.fitting words := by
  have hlap : (g.lap log.page.slot).flatMap log'.medium.wordsAt =
      (g.lap log.page.slot).flatMap log.medium.wordsAt := by
    refine List.flatMap_congr fun slot hslot => ?_
    have hne := ((Geometry.mem_lap log.slot_lt log.two_le_pages).mp hslot).2
    rw [h.wordsAt_pushed hp hwords, if_neg hne, List.append_nil]
  rw [(h.pushed hp hwords).map_word_entries, h.map_word_entries, hp.page_eq, List.flatMap_append,
    List.flatMap_append, List.flatMap_singleton, List.flatMap_singleton, hlap,
    h.wordsAt_pushed hp hwords, if_pos rfl, List.append_assoc]

/-- A boot finds the words of the medium, in the order of the page that it goes on with. -/
theorem map_word_entries_recover {chip : Chip g} {config : Config} (hpowered : chip.supply = none)
    (hsound : chip.medium.Sound) (hfits : config.Fits g) :
    (recover chip config hfits.accepted).entries.map Entry.word =
      (g.lap chip.medium.activeSlot ++ [chip.medium.activeSlot]).flatMap chip.medium.wordsAt := by
  have hpage := (recover_spec chip config hfits.accepted).1
  rw [(inStep_recover hpowered hsound hfits).map_word_entries, hpage, slot_recoveredPage,
    funext (wordsAt_recover hpowered hsound hfits)]

end Log

end RingLog

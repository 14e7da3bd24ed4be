import Mathlib.Data.List.TakeWhile
import RingLog.Log.Reading
import RingLog.Proofs.Ring.Order

/-!
# Reading with a cursor

A cursor that starts at the oldest record and is moved on until it reaches the frontier stands on
the entries of the log, one after another. This holds of every log, whatever its medium holds: a
walk takes the numbers of the pages it comes to from the page where it started.

Main statement: `Log.reads_oldest`.
-/

namespace RingLog

variable {g : Geometry}

/-- The entries under a cursor that is moved on until it reaches the frontier. -/
inductive Cursor.Reads (medium : Medium g) (frontier : Cursor) : Cursor → List Entry → Prop
  | stop {cursor : Cursor} (hreached : cursor.reached frontier) : Reads medium frontier cursor []
  | entry {cursor : Cursor} {rest : List Entry} (hreached : cursor.reached frontier = false)
      (hrest : Reads medium frontier (cursor.advance medium frontier) rest) :
      Reads medium frontier cursor (cursor.entry medium :: rest)

namespace Cursor

variable {medium : Medium g} {cursor frontier : Cursor}

/-- What a cursor reads is determined. -/
theorem Reads.unique {entries other : List Entry} (h : Reads medium frontier cursor entries)
    (h' : Reads medium frontier cursor other) : entries = other := by
  induction h generalizing other with
  | stop hreached =>
    cases h' with
    | stop _ => rfl
    | entry hnot _ =>
      rw [hreached] at hnot
      cases hnot
  | entry hnot _ ih =>
    cases h' with
    | stop hreached =>
      rw [hreached] at hnot
      cases hnot
    | entry _ hrest => rw [ih hrest]

theorem settle_of_value_ne (h : cursor.value medium ≠ Word.erased) :
    settle medium cursor frontier = cursor := by
  unfold settle
  cases g.distance cursor.page.slot frontier.page.slot with
  | zero => rfl
  | succ hops => rw [settleWithin, if_neg h]

theorem slot_turnPage (medium : Medium g) (cursor frontier : Cursor) :
    (cursor.turnPage medium frontier).page.slot = g.next cursor.page.slot := by
  unfold turnPage
  dsimp only
  split
  · rename_i hfrontier
    exact hfrontier.symm
  · rfl

/-- Behind the last word of a page the cursor turns to the next one. -/
theorem settle_of_value_eq (h : cursor.value medium = Word.erased)
    (hslot : cursor.page.slot < g.pages) (htarget : frontier.page.slot < g.pages)
    (hne : cursor.page.slot ≠ frontier.page.slot) :
    settle medium cursor frontier = settle medium (cursor.turnPage medium frontier) frontier := by
  rw [settle, settle, slot_turnPage, Geometry.distance_next hslot htarget hne, settleWithin,
    if_pos h]

end Cursor

namespace Page

variable {medium : Medium g} {page : Page} {index : Nat}

theorem read_of_lt_stored (h : index < (page.stored medium).length) :
    page.read medium index = (page.stored medium)[index] := by
  have hstored : page.stored medium <+: page.words medium := List.takeWhile_prefix _
  rw [hstored.getElem h]
  simp [words]

theorem read_ne_of_lt_stored (h : index < (page.stored medium).length) :
    page.read medium index ≠ Word.erased := by
  have hkeep : ((page.stored medium)[index] != Word.erased) = true :=
    List.mem_takeWhile_imp (p := (· != Word.erased)) (List.getElem_mem h)
  rw [read_of_lt_stored h]
  exact bne_iff_ne.mp hkeep

/-- Behind the stored words there is an erased one, or the end of the page. -/
theorem read_length_stored (medium : Medium g) (page : Page) :
    page.read medium (page.stored medium).length = Word.erased := by
  have hsplit : page.stored medium ++ (page.words medium).dropWhile (· != Word.erased) =
      page.words medium := List.takeWhile_append_dropWhile
  by_cases hfull : page.capacity g ≤ (page.stored medium).length
  · exact read_of_capacity_le hfull
  · have hread : (page.words medium)[(page.stored medium).length]? =
        some (page.read medium (page.stored medium).length) := by
      rw [words, List.getElem?_map, List.getElem?_range (by omega)]
      rfl
    have hfirst := List.head?_dropWhile_not (· != Word.erased) (page.words medium)
    rw [← hsplit, List.getElem?_append_right (Nat.le_refl _), Nat.sub_self,
      ← List.head?_eq_getElem?] at hread
    rw [hread] at hfirst
    simpa using hfirst

theorem drop_entries {words : List Word} (h : index < words.length) :
    (page.entries g words).drop index =
      ⟨page.position g index, words[index]⟩ :: (page.entries g words).drop (index + 1) := by
  rw [List.drop_eq_getElem_cons (by rwa [length_entries])]
  simp [entries]

end Page

namespace Log

variable {log : Log g} {page : Page}

/-- The entries of a page and of those behind it, up to the frontier. -/
def entriesFrom (log : Log g) (page : Page) : List Entry :=
  (Page.walk log.medium (g.distance page.slot log.page.slot) page).flatMap
      (fun page => page.entries g (page.stored log.medium)) ++
    log.page.entries g log.activeWords

theorem length_activeWords (log : Log g) : log.activeWords.length = log.used := by
  rw [activeWords, List.length_take, Page.length_words, Nat.min_eq_left log.used_le]

theorem settle_active (log : Log g) (index : Nat) :
    Cursor.settle log.medium ⟨log.page, index⟩ log.frontier = ⟨log.page, index⟩ := by
  rw [Cursor.settle, frontier, Geometry.distance_self]
  rfl

theorem reached_active (log : Log g) (index : Nat) :
    Cursor.reached ⟨log.page, index⟩ log.frontier = decide (log.used ≤ index) := by
  rw [Cursor.reached, frontier, beq_self_eq_true, Bool.true_and]

/-- On the page being written a cursor goes on to the frontier. -/
theorem reads_active (log : Log g) {index : Nat} (hindex : index ≤ log.used) :
    Cursor.Reads log.medium log.frontier ⟨log.page, index⟩
      ((log.page.entries g log.activeWords).drop index) := by
  -- induction on the records left before the frontier
  induction hleft : log.used - index generalizing index with
  | zero =>
    rw [List.drop_of_length_le]
    · refine .stop ?_
      rw [reached_active, decide_eq_true_eq]
      omega
    · rw [Page.length_entries, length_activeWords]
      omega
  | succ left ih =>
    have hlt : index < log.activeWords.length := by
      rw [length_activeWords]
      omega
    have hword : log.activeWords[index] = log.page.read log.medium index := by
      simp [activeWords, Page.words]
    have hreached : Cursor.reached ⟨log.page, index⟩ log.frontier = false := by
      rw [reached_active, decide_eq_false_iff_not]
      omega
    have hrest := ih (show index + 1 ≤ log.used by omega) (by omega)
    rw [← log.settle_active] at hrest
    rw [Page.drop_entries hlt, hword]
    refine .entry hreached ?_
    rw [Cursor.advance, hreached, if_neg Bool.false_ne_true]
    exact hrest

theorem entriesFrom_of_ne (log : Log g) (hslot : page.slot < g.pages)
    (hne : page.slot ≠ log.page.slot) : log.entriesFrom page =
      page.entries g (page.stored log.medium) ++ log.entriesFrom (page.next log.medium) := by
  rw [entriesFrom, Geometry.distance_next hslot log.slot_lt hne, Page.walk, List.flatMap_cons,
    List.append_assoc]
  rfl

theorem entriesFrom_of_eq (log : Log g) (heq : page.slot = log.page.slot) :
    log.entriesFrom page = log.page.entries g log.activeWords := by
  rw [entriesFrom, heq, Geometry.distance_self]
  rfl

/-- On an older page a cursor goes on to the last word of the page. -/
theorem reads_page (log : Log g) {rest : List Entry} (hne : page.slot ≠ log.page.slot)
    (hrest : Cursor.Reads log.medium log.frontier (Cursor.settle log.medium
      ⟨page, (page.stored log.medium).length⟩ log.frontier) rest) {index : Nat}
    (hindex : index ≤ (page.stored log.medium).length) :
    Cursor.Reads log.medium log.frontier (Cursor.settle log.medium ⟨page, index⟩ log.frontier)
      ((page.entries g (page.stored log.medium)).drop index ++ rest) := by
  -- induction on the words left on the page
  induction hleft : (page.stored log.medium).length - index generalizing index with
  | zero =>
    have hend : index = (page.stored log.medium).length := by omega
    rw [hend, List.drop_of_length_le (Nat.le_of_eq (Page.length_entries ..)), List.nil_append]
    exact hrest
  | succ left ih =>
    have hlt : index < (page.stored log.medium).length := by omega
    have hreached : Cursor.reached ⟨page, index⟩ log.frontier = false := by
      rw [Cursor.reached, frontier, beq_eq_false_iff_ne.mpr hne, Bool.false_and]
    have hnext := ih (show index + 1 ≤ (page.stored log.medium).length by omega) (by omega)
    rw [Cursor.settle_of_value_ne (Page.read_ne_of_lt_stored hlt), Page.drop_entries hlt,
      ← Page.read_of_lt_stored hlt, List.cons_append]
    refine .entry hreached ?_
    rw [Cursor.advance, hreached, if_neg Bool.false_ne_true]
    exact hnext

/-- A cursor at the start of a page reads that page and those behind it. -/
theorem reads_from (log : Log g) {page : Page} (hslot : page.slot < g.pages)
    (hne : page.slot ≠ log.page.slot) :
    Cursor.Reads log.medium log.frontier (Cursor.settle log.medium ⟨page, 0⟩ log.frontier)
      (log.entriesFrom page) := by
  -- induction on the distance to the page being written, where the cursor takes the frontier's view
  induction hhops : g.distance page.slot log.page.slot generalizing page with
  | zero => exact absurd ((Geometry.distance_eq_zero hslot).mp hhops) hne
  | succ hops ih =>
    have hstep := Geometry.distance_next hslot log.slot_lt hne
    rw [log.entriesFrom_of_ne hslot hne]
    refine log.reads_page hne ?_ (Nat.zero_le _)
    have hend : Cursor.value log.medium ⟨page, (page.stored log.medium).length⟩ = Word.erased :=
      Page.read_length_stored log.medium page
    rw [Cursor.settle_of_value_eq hend hslot log.slot_lt hne, Cursor.turnPage]
    by_cases hactive : g.next page.slot = log.page.slot
    · have hturned : (page.next log.medium).slot = log.frontier.page.slot := hactive
      rw [if_pos hturned, log.entriesFrom_of_eq hactive]
      have hstart := log.reads_active (Nat.zero_le _)
      rw [← log.settle_active] at hstart
      exact hstart
    · have hturned : (page.next log.medium).slot ≠ log.frontier.page.slot := hactive
      rw [if_neg hturned]
      exact ih (Geometry.next_lt log.pages_pos) hactive (by rw [Page.next]; dsimp only; omega)

/-- From the oldest record on, a cursor reads all entries of the log. -/
theorem reads_oldest (log : Log g) :
    Cursor.Reads log.medium log.frontier log.oldest log.entries := by
  have hpages := Config.two_le_pages log.accepted
  have hnext := Geometry.next_ne_self log.slot_lt hpages
  have hentries : log.entriesFrom log.oldestPage = log.entries := by
    have hslot : log.oldestPage.slot = g.next log.page.slot := rfl
    rw [entriesFrom, hslot, Geometry.distance_next_self log.slot_lt hpages]
    rfl
  rw [← hentries]
  exact log.reads_from (Geometry.next_lt log.pages_pos) hnext

end Log

end RingLog

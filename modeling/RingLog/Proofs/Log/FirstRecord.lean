import RingLog.Proofs.Log.Recording
import RingLog.Proofs.Log.Renewal

/-!
# The first record of a page

A configuration is accepted where header, reserve and one ordinary record fit on a page. A rotation
or an erasure starts its page with an anchor, though, which takes a slot as well. A reserve gives it
one. But the smallest page that is accepted without a reserve has no slot beside that of the anchor,
and every word that is appended there is dropped.

Main statements: `Log.stores_of_clears` and `Log.not_stores`.
-/

namespace RingLog

variable {g : Geometry}

namespace Log

variable {log log' : Log g} {config : Config} {start moment now : Instant} {operation : Operation}
  {word : Word}

/-- An append stores its word, and nothing else, behind the entries that there are, and drops
nothing. -/
def Stores (log : Log g) (now : Instant) (word : Word) : Prop :=
  (log.append now word).entries = log.entries ++ [⟨log.frontier.position g, word⟩] ∧
    (log.append now word).dropped = log.dropped

/-! ## One word -/

theorem entries_append_of_elapsed (h : log.InStep) (hnone : log.elapsedWords now = [])
    (hword : word ≠ Word.erased) :
    (log.append now word).entries = log.entries ++ if log.used < log.page.capacity g then
      [⟨log.frontier.position g, word⟩] else [] := by
  have hpushed := log.pushed_append now word
  have hwords := log.erased_not_mem_append now hword
  rw [hnone, List.nil_append] at hpushed hwords
  rw [h.entries_pushed hpushed hwords, added_singleton]
  rfl

theorem dropped_append_of_elapsed (hle : log.dropped ≤ maxDropped)
    (hnone : log.elapsedWords now = []) : (log.append now word).dropped =
      if log.used < log.page.capacity g then log.dropped
      else min (log.dropped + 1) maxDropped := by
  rw [log.dropped_append_eq hle, hnone, List.nil_append, droppedAfter, lost, List.length_drop,
    List.length_singleton]
  split <;> omega

theorem stores_iff (h : log.InStep) (hle : log.dropped ≤ maxDropped)
    (hnone : log.elapsedWords now = []) (hword : word ≠ Word.erased) :
    log.Stores now word ↔ log.used < log.page.capacity g := by
  rw [Stores, entries_append_of_elapsed h hnone hword, dropped_append_of_elapsed hle hnone]
  constructor
  · rintro ⟨hentries, -⟩
    refine Decidable.byContradiction fun hfull => ?_
    rw [if_neg hfull, List.append_cancel_left_eq] at hentries
    cases hentries
  · intro hroom
    rw [if_pos hroom, if_pos hroom]
    exact ⟨rfl, rfl⟩

/-! ## A page that was just started -/

/-- There is nothing but the anchor on the page, which the log has laid out itself. -/
structure Opened (log : Log g) (moment : Instant) : Prop extends log.InStep where
  headerSize_eq : log.page.headerSize = log.config.headerSize
  one_used : log.used = 1
  reference_eq : log.reference = .ofSeconds moment.seconds

theorem opened_of_pushed (h : log.InStep) (hp : log.Pushed log' [anchorWord moment])
    (hheader : log.page.headerSize = log.config.headerSize) (hempty : log.used = 0)
    (hreference : log'.reference = .ofSeconds moment.seconds) : log'.Opened moment where
  toInStep := h.pushed hp (erased_not_mem_anchor moment)
  headerSize_eq := by rw [hp.page_eq, hp.config_eq, hheader]
  one_used := by
    have hcapacity := h.holds.fits.capacity_pos
    rw [hp.used_eq, hempty, List.length_singleton]
    omega
  reference_eq := hreference

theorem opened_perform (hpowered : log.chip.supply = none) (moment : Instant)
    (hclears : operation.clears = true) :
    (log.perform moment operation).Opened moment := by
  cases operation with
  | append word | anchor => cases hclears
  | rotate =>
    exact opened_of_pushed (inStep_turned hpowered) (log.pushed_rotate moment) rfl rfl
      (log.turned.reference_writeAnchor moment)
  | eraseAll =>
    refine opened_of_pushed (.cleared hpowered) (log.pushed_eraseAll moment) ?_ rfl
      (log.cleared.reference_writeAnchor moment)
    rw [page_cleared hpowered]
    rfl

theorem Opened.elapsedWords_eq (h : log.Opened moment)
    (hnow : now.millisSince (.ofSeconds moment.seconds) = 0) : log.elapsedWords now = [] := by
  rw [elapsedWords, h.reference_eq, hnow]
  rfl

/-- The anchor leaves room just if the page is larger than its header by two words. -/
theorem Opened.room_iff (h : log.Opened moment) :
    log.used < log.page.capacity g ↔ log.config.headerSize.toNat + 2 ≤ g.pageSize := by
  rw [h.one_used, Page.capacity, h.headerSize_eq]
  omega

/-- A log is opened on any medium and used in any way. Directly after a rotation or an erasure, less
than a millisecond behind its anchor, an append stores its word just if the page has two words more
than its header. Where it has not, there is no reserve, and the append does nothing but count the
word as dropped. -/
theorem stores_of_clears {medium : Medium g} (h : boot { medium } config start = .ok log)
    (operations : List (Instant × Operation)) (hclears : operation.clears = true)
    (hnow : now.millisSince (.ofSeconds moment.seconds) = 0) (hword : word ≠ Word.erased) :
    let opened := (log.run operations).perform moment operation
    (opened.Stores now word ↔ config.headerSize.toNat + 2 ≤ g.pageSize) ∧
      (¬opened.Stores now word → config.reserve = 0 ∧
        g.pageSize = config.headerSize.toNat + 1 ∧
        (opened.append now word).entries = opened.entries ∧
        (opened.append now word).dropped = min (opened.dropped + 1) maxDropped) := by
  intro opened
  have hguarded := (guarded_boot rfl h).run operations
  have hconfig : (log.run operations).config = config :=
    (log.config_run operations).trans (config_boot h)
  have hopened : opened.Opened moment :=
    opened_perform hguarded.powered moment hclears
  have hsame : opened.config = config := (config_perform ..).trans hconfig
  have hle := (hguarded.perform moment operation).dropped_le
  have hnone := hopened.elapsedWords_eq hnow
  have hstores := stores_iff hopened.toInStep hle hnone hword
  have hroom := hsame ▸ hopened.room_iff
  refine ⟨hstores.trans hroom, fun hnot => ?_⟩
  have hfull : ¬opened.used < opened.page.capacity g := fun hlt => hnot (hstores.mpr hlt)
  have hneeded := Config.Fits.needed_le (accepted_of_boot h)
  have hsmall : ¬config.headerSize.toNat + 2 ≤ g.pageSize := fun hlarge => hfull (hroom.mpr hlarge)
  refine ⟨UInt64.toNat_inj.mp ?_, by omega, ?_, ?_⟩
  · rw [UInt64.toNat_zero]
    omega
  · rw [entries_append_of_elapsed hopened.toInStep hnone hword, if_neg hfull, List.append_nil]
  · rw [dropped_append_of_elapsed hle hnone, if_neg hfull]

/-- On two pages of two words a header and an anchor are all that fits. A word that is appended is
dropped before the rotation and after it. -/
theorem stores_of_clears_smallest :
    let config : Config := ⟨0, 1⟩
    let second : Instant := .ofSeconds 100
    let later : Instant := ⟨100000999999⟩
    config.Fits ⟨2, 2⟩ ∧ later.millisSince (.ofSeconds second.seconds) = 0 ∧
      ∃ log, boot { medium := .blank ⟨2, 2⟩ } config second = .ok log ∧
        let opened := (log.run [(second, .append 7)]).perform second .rotate
        opened.entries = [⟨⟨0⟩, 100⟩, ⟨⟨2⟩, 100⟩] ∧ opened.dropped = 1 ∧
          ¬opened.Stores later 8 ∧ (opened.append later 8).entries = opened.entries ∧
          (opened.append later 8).dropped = 2 := by
  intro config second later
  have hfits : config.Fits ⟨2, 2⟩ := by decide
  have hnow : later.millisSince (.ofSeconds second.seconds) = 0 := by decide
  obtain ⟨log, hboot, hentries, hdropped⟩ :
      ∃ log, boot { medium := .blank ⟨2, 2⟩ } config second = .ok log ∧
        let opened := (log.run [(second, .append 7)]).perform second .rotate
        opened.entries = [⟨⟨0⟩, 100⟩, ⟨⟨2⟩, 100⟩] ∧ opened.dropped = 1 :=
    ⟨_, rfl, by decide +kernel, by decide +kernel⟩
  have hclears : Operation.rotate.clears = true := rfl
  obtain ⟨hiff, hlost⟩ := stores_of_clears hboot [(second, .append 7)] hclears hnow
    (by decide : (8 : Word) ≠ Word.erased)
  have hnot : ¬((log.run [(second, .append 7)]).perform second .rotate).Stores later 8 :=
    fun hstores => absurd (hiff.mp hstores) (by decide)
  obtain ⟨-, -, hsame, hcounted⟩ := hlost hnot
  rw [hdropped] at hcounted
  exact ⟨hfits, hnow, log, hboot, hentries, hdropped, hnot, hsame, hcounted⟩

/-- Not every configuration that fits leaves room for a first record. -/
theorem not_stores : ¬∀ (g : Geometry) (config : Config) (start : Instant) (log : Log g),
    config.Fits g → boot { medium := .blank g } config start = .ok log →
      ∀ (operations : List (Instant × Operation)) (operation : Operation) (moment now : Instant)
        (word : Word), operation.clears = true →
          now.millisSince (.ofSeconds moment.seconds) = 0 → word ≠ Word.erased →
            ((log.run operations).perform moment operation).Stores now word := by
  intro hstores
  have hstored := hstores ⟨2, 2⟩ ⟨0, 1⟩ (.ofSeconds 100) _ (by decide) rfl [] .rotate
    (.ofSeconds 100) (.ofSeconds 100) 0x81000007 rfl (by decide) (by decide)
  exact absurd hstored.2 (by decide +kernel)

end Log

end RingLog

import RingLog.Proofs.Log.Entries
import RingLog.Proofs.Log.Headroom
import RingLog.Proofs.Log.Trail

/-!
# What an append may change

An append writes to the free slots of its page and to nothing else, whatever the medium held when
the log was opened. On the page of a stray header word the records may begin at the header itself.
Then the header word counts as a record, so a log never goes on there (`Log.Guarded`): its next slot
lies behind the header on every page.

Each word of an append is stored or counted as dropped, up to the largest count.

Main statement: `Log.footprint_run`.
-/

namespace RingLog

variable {g : Geometry}

/-! ## Calls that write records -/

namespace Page

variable {page : Page} {index : Nat} {words : List Word}

theorem length_recordCalls (page : Page) (index : Nat) (words : List Word) :
    (recordCalls g page index words).length = min words.length (page.capacity g - index) := by
  induction words generalizing index with
  | nil => rw [recordCalls, List.length_nil, List.length_nil, Nat.zero_min]
  | cons word rest ih =>
    unfold recordCalls
    split
    · rw [List.length_cons, ih, List.length_cons]
      omega
    · rw [List.length_nil]
      omega

theorem exists_of_mem_recordCalls {call : Call} (h : call ∈ recordCalls g page index words) :
    ∃ slot word, call = page.recordCall slot word ∧ index ≤ slot ∧ slot < page.capacity g ∧
      word ∈ words := by
  induction words generalizing index with
  | nil => cases h
  | cons word rest ih =>
    unfold recordCalls at h
    split at h
    · rename_i hroom
      rcases List.mem_cons.mp h with rfl | hrest
      · exact ⟨index, word, rfl, Nat.le_refl _, hroom, List.mem_cons_self⟩
      · obtain ⟨slot, other, hcall, hle, hlt, hmem⟩ := ih hrest
        exact ⟨slot, other, hcall, Nat.le_of_succ_le hle, hlt, List.mem_cons_of_mem _ hmem⟩
    · cases h

/-- Records change the words of their slots only. -/
theorem read_recordCalls (medium : Medium g) {slot offset : Nat}
    (h : slot ≠ page.slot ∨ offset < page.headerSize.toNat + index ∨
      page.headerSize.toNat + index + min words.length (page.capacity g - index) ≤ offset) :
    (medium.applyAll (recordCalls g page index words)).read slot offset =
      medium.read slot offset := by
  induction words generalizing medium index with
  | nil => rfl
  | cons word rest ih =>
    rw [List.length_cons] at h
    unfold recordCalls
    split
    · rw [Medium.applyAll_cons, ih _ (by omega), recordCall, Medium.apply, Medium.read_program,
        if_neg (by omega)]
    · rfl

/-- A header that takes up no word is a record of its own page. -/
theorem behind_header_load (medium : Medium g) (slot : Nat) :
    Header.offset <
      (load medium slot).headerSize.toNat + ((load medium slot).stored medium).length := by
  refine Nat.pos_of_ne_zero fun hzero => ?_
  obtain ⟨hsize, hlength⟩ := Nat.add_eq_zero_iff.mp hzero
  have hheader : medium.read slot Header.offset ≠ Word.erased := by
    intro herased
    rw [load, herased] at hsize
    have hlargest : (Header.decode Word.erased).size.toNat ≠ 0 := by decide
    exact hlargest hsize
  have hcontains : g.Contains slot Header.offset :=
    Decidable.by_contra fun hnot => hheader (Medium.read_of_not_contains hnot)
  have hread := read_length_stored medium (load medium slot)
  have hroom : 0 < (load medium slot).capacity g := by
    rw [capacity, hsize]
    exact hcontains.2
  rw [hlength, read, if_pos hroom, hsize] at hread
  exact hheader hread

end Page

/-- Behind a format the header of slot zero takes up a word or more. Where there is no room for it,
it reads as erased, which is a header as well. -/
theorem headerSize_format (medium : Medium g) {headerSize : UInt8} (hpos : 0 < headerSize.toNat) :
    0 < (Page.load (medium.applyAll (formatCalls g headerSize)) 0).headerSize.toNat := by
  by_cases hcontains : g.Contains 0 Header.offset
  · have hread := read_format headerSize medium (Nat.le_refl _) hcontains.1 Header.offset
    rw [if_pos ⟨hcontains, rfl⟩] at hread
    rw [Page.load, formatCalls, hread, Header.decode_encode]
    exact hpos
  · rw [Page.load, Medium.read_of_not_contains hcontains]
    decide

namespace Log

variable {log log' : Log g} {words : List Word}

/-! ## Words that are dropped -/

/-- The words for which there is no room. -/
def lost (log : Log g) (words : List Word) : List Word :=
  words.drop (log.page.capacity g - log.used)

/-- The count of dropped records behind some words. -/
def droppedAfter (log : Log g) (words : List Word) : Nat :=
  min (log.dropped + (log.lost words).length) maxDropped

theorem droppedAfter_nil (hle : log.dropped ≤ maxDropped) : log.droppedAfter [] = log.dropped := by
  rw [droppedAfter, lost, List.drop_nil, List.length_nil, Nat.add_zero, Nat.min_eq_left hle]

theorem Pushed.droppedAfter_append (hp : log.Pushed log' words)
    (hdropped : log'.dropped = log.droppedAfter words) (more : List Word) :
    log'.droppedAfter more = log.droppedAfter (words ++ more) := by
  simp only [droppedAfter, lost, List.length_drop, List.length_append] at *
  rw [hdropped, hp.page_eq, hp.used_eq]
  omega

theorem dropped_push_eq (log : Log g) (hle : log.dropped ≤ maxDropped) (word : Word) :
    (log.push word).dropped = log.droppedAfter [word] := by
  simp only [droppedAfter, lost, List.length_drop, List.length_singleton]
  unfold push
  split <;> dsimp only <;> omega

theorem dropped_push_reference (log : Log g) (hle : log.dropped ≤ maxDropped)
    (reference : Instant) (word : Word) :
    ({ log with reference }.push word).dropped = log.droppedAfter [word] :=
  dropped_push_eq { log with reference } hle word

theorem dropped_writeAnchor (log : Log g) (hle : log.dropped ≤ maxDropped) (now : Instant) :
    (log.writeAnchor now).dropped = log.droppedAfter [anchorWord now] :=
  log.dropped_push_reference hle _ _

theorem dropped_anchorTime (log : Log g) (hle : log.dropped ≤ maxDropped) (now : Instant) :
    (log.anchorTime now).dropped = log.droppedAfter [anchorWord now] := by
  rw [anchorTime, dropped_requestRotation, log.dropped_writeAnchor hle]

theorem dropped_writeElapsed_eq (log : Log g) (hle : log.dropped ≤ maxDropped) (now : Instant) :
    (log.writeElapsed now).dropped = log.droppedAfter (log.elapsedWords now) := by
  unfold writeElapsed elapsedWords
  dsimp only
  split
  · exact log.dropped_writeAnchor hle now
  · split
    · exact (droppedAfter_nil hle).symm
    · exact log.dropped_push_reference hle _ _

theorem dropped_append_eq (log : Log g) (hle : log.dropped ≤ maxDropped) (now : Instant)
    (word : Word) :
    (log.append now word).dropped = log.droppedAfter (log.elapsedWords now ++ [word]) := by
  have helapsed := log.dropped_writeElapsed_eq hle now
  have hle' : (log.writeElapsed now).dropped ≤ maxDropped := helapsed ▸ Nat.min_le_right _ _
  rw [append, dropped_requestRotation, dropped_push_eq _ hle',
    (log.pushed_writeElapsed now).droppedAfter_append helapsed]

/-- Every operation counts the words that it drops. -/
theorem dropped_perform (hle : log.dropped ≤ maxDropped) (now : Instant) (operation : Operation) :
    (log.perform now operation).dropped =
      (log.prepared operation).droppedAfter (log.written now operation) := by
  cases operation with
  | append word => exact log.dropped_append_eq hle now word
  | anchor => exact log.dropped_anchorTime hle now
  | rotate => exact log.turned.dropped_writeAnchor hle now
  | eraseAll => exact log.cleared.dropped_writeAnchor (Nat.zero_le _) now

theorem dropped_recover (chip : Chip g) (config : Config) (accepted : config.fault? g = none) :
    (recover chip config accepted).dropped = 0 := by
  unfold recover
  dsimp only
  split <;> rfl

/-- A boot starts a new count. -/
theorem dropped_boot {chip : Chip g} {config : Config} {now : Instant}
    (h : boot chip config now = .ok log) : log.dropped =
      (found chip config (accepted_of_boot h)).droppedAfter [anchorWord now] := by
  have accepted := accepted_of_boot h
  have hresume : ∀ chip : Chip g, (resume chip config accepted now).dropped =
      (recover chip config accepted).droppedAfter [anchorWord now] := fun chip =>
    ((recover chip config accepted).note _).dropped_anchorTime
      ((dropped_recover chip config accepted).trans_le (Nat.zero_le _)) now
  unfold boot at h
  unfold found
  split at h
  · cases h
  · split at h
    · rename_i hunformatted
      cases h
      rw [if_pos hunformatted]
      exact hresume _
    · rename_i hformatted
      cases h
      rw [if_neg hformatted]
      exact hresume _

/-! ## Logs that leave headers alone -/

/-- The log has power, it goes on behind the header of its page, and its count of dropped records is
within its bound. -/
structure Guarded (log : Log g) : Prop where
  powered : log.chip.supply = none
  behind_header : Header.offset < log.page.headerSize.toNat + log.used
  dropped_le : log.dropped ≤ maxDropped

theorem Guarded.pushed (h : log.Guarded) (hp : log.Pushed log' words)
    (hle : log'.dropped ≤ maxDropped) : log'.Guarded where
  powered := by rw [hp.chip_eq, Chip.supply_performAll_powered h.powered]
  behind_header := by
    rw [hp.page_eq, hp.used_eq]
    exact Nat.lt_of_lt_of_le h.behind_header (by omega)
  dropped_le := hle

theorem headerSize_config_pos (log : Log g) : 0 < log.config.headerSize.toNat :=
  Config.headerSize_pos_of_accepted log.accepted

theorem Guarded.prepared (h : log.Guarded) (operation : Operation) :
    (log.prepared operation).Guarded := by
  cases operation with
  | append word => exact h
  | anchor => exact h
  | rotate =>
    refine ⟨?_, Nat.lt_of_lt_of_le log.headerSize_config_pos (Nat.le_add_right _ _), h.dropped_le⟩
    exact log.chip_turned ▸ Chip.supply_performAll_powered h.powered _
  | eraseAll =>
    refine ⟨?_, ?_, Nat.zero_le _⟩
    · exact log.chip_cleared ▸ Chip.supply_performAll_powered h.powered _
    · have hpage : 0 < log.firstPage.headerSize.toNat := by
        rw [firstPage, Chip.format_eq, Chip.medium_performAll_powered h.powered]
        exact headerSize_format log.medium log.headerSize_config_pos
      exact Nat.lt_of_lt_of_le hpage (Nat.le_add_right _ _)

theorem Guarded.perform (h : log.Guarded) (now : Instant) (operation : Operation) :
    (log.perform now operation).Guarded :=
  (h.prepared operation).pushed (log.pushed_perform now operation)
    (dropped_perform h.dropped_le now operation ▸ Nat.min_le_right _ _)

theorem Guarded.run (h : log.Guarded) (operations : List (Instant × Operation)) :
    (log.run operations).Guarded := by
  induction operations generalizing log with
  | nil => exact h
  | cons operation rest ih => exact ih (h.perform operation.1 operation.2)

theorem guarded_recover {chip : Chip g} (hpowered : chip.supply = none) (config : Config)
    (accepted : config.fault? g = none) : (recover chip config accepted).Guarded := by
  obtain ⟨hpage, hconfig, hused, hchip⟩ := recover_spec chip config accepted
  refine ⟨hchip ▸ Chip.supply_performAll_powered hpowered _, ?_, ?_⟩
  · have hpos := (recover chip config accepted).headerSize_config_pos
    rw [hconfig] at hpos
    rw [hpage, hused, recoveredPage]
    split
    · exact Nat.lt_of_lt_of_le hpos (Nat.le_add_right _ _)
    · exact Page.behind_header_load chip.medium _
  · exact (dropped_recover chip config accepted).trans_le (Nat.zero_le _)

theorem guarded_found {chip : Chip g} (hpowered : chip.supply = none) (config : Config)
    (accepted : config.fault? g = none) : (found chip config accepted).Guarded := by
  unfold found
  split
  · exact guarded_recover (supply_format hpowered _) config accepted
  · exact guarded_recover hpowered config accepted

/-- A boot opens such a log on any medium. -/
theorem guarded_boot {chip : Chip g} (hpowered : chip.supply = none) {config : Config}
    {now : Instant} (h : boot chip config now = .ok log) : log.Guarded :=
  (guarded_found hpowered config (accepted_of_boot h)).pushed (pushed_boot h)
    (dropped_boot h ▸ Nat.min_le_right _ _)

/-! ## The footprint of an append -/

/-- `log'` is `log` after some words were given to it. There was no erase and there were at most two
writes, to slots that were free, so the headers are as before. Each word was stored or dropped, and
the latter are counted up to the largest count. On a full page the medium, the frontier and the
entries stay as they are. -/
structure Footprint (log log' : Log g) (words : List Word) : Prop where
  page_eq : log'.page = log.page
  calls : ∃ calls : List Call, log'.chip.trace = calls.reverse ++ log.chip.trace ∧
    calls.length ≤ 2 ∧ log'.used = log.used + calls.length ∧
    ∀ call ∈ calls, ∃ index word, call = log.page.recordCall index word ∧ log.used ≤ index ∧
      index < log.page.capacity g ∧ word ∈ words
  read_eq : ∀ slot offset, slot ≠ log.page.slot ∨ offset < log.page.headerSize.toNat + log.used ∨
    log.page.headerSize.toNat + log'.used ≤ offset →
      log'.medium.read slot offset = log.medium.read slot offset
  header_eq : ∀ slot,
    log'.medium.read slot Header.offset = log.medium.read slot Header.offset
  dropped_eq : ∃ lost, log'.used + lost = log.used + words.length ∧
    log'.dropped = min (log.dropped + lost) maxDropped
  balance : log'.dropped < maxDropped →
    log'.used + log'.dropped = log.used + log.dropped + words.length
  full : log.used = log.page.capacity g → log'.medium = log.medium ∧
    log'.frontier = log.frontier ∧ log'.entries = log.entries

/-- Records change the words of the slots between the old frontier and the new one. -/
theorem Pushed.read_eq (hp : log.Pushed log' words) (hpowered : log.chip.supply = none)
    {slot offset : Nat} (h : slot ≠ log.page.slot ∨
      offset < log.page.headerSize.toNat + log.used ∨
        log.page.headerSize.toNat + log'.used ≤ offset) :
    log'.medium.read slot offset = log.medium.read slot offset := by
  rw [hp.used_eq, ← Nat.add_assoc] at h
  rw [hp.medium_eq hpowered]
  exact Page.read_recordCalls log.medium h

theorem Pushed.used_add_lost (hp : log.Pushed log' words) :
    log'.used + (log.lost words).length = log.used + words.length := by
  rw [hp.used_eq, lost, List.length_drop]
  omega

/-- On a full page nothing is stored. -/
theorem Pushed.eq_of_full (hp : log.Pushed log' words) (hpowered : log.chip.supply = none)
    (hfull : log.used = log.page.capacity g) :
    log'.medium = log.medium ∧ log'.frontier = log.frontier ∧ log'.entries = log.entries := by
  have hcount := Page.length_recordCalls (g := g) log.page log.used words
  have hnone : Page.recordCalls g log.page log.used words = [] :=
    List.eq_nil_of_length_eq_zero (by omega)
  have hmedium : log'.medium = log.medium := by
    rw [hp.medium_eq hpowered, hnone]
    rfl
  have hused : log'.used = log.used := by
    rw [hp.used_eq, hfull]
    omega
  have hfrontier : log'.frontier = log.frontier := by
    rw [frontier, frontier, hp.page_eq, hused]
  exact ⟨hmedium, hfrontier, entries_congr hfrontier hmedium⟩

theorem Guarded.footprint (h : log.Guarded) (hp : log.Pushed log' words)
    (hlength : words.length ≤ 2) (hdropped : log'.dropped = log.droppedAfter words) :
    log.Footprint log' words where
  page_eq := hp.page_eq
  calls := by
    have hcount := Page.length_recordCalls (g := g) log.page log.used words
    refine ⟨Page.recordCalls g log.page log.used words, ?_, ?_, ?_, ?_⟩
    · rw [hp.chip_eq, Chip.performAll_eq, Chip.carried_powered h.powered]
    · omega
    · rw [hp.used_eq, hcount]
    · exact fun call hcall => Page.exists_of_mem_recordCalls hcall
  read_eq := fun _ _ => hp.read_eq h.powered
  header_eq := fun _ => hp.read_eq h.powered (.inr (.inl h.behind_header))
  dropped_eq := ⟨_, hp.used_add_lost, hdropped⟩
  balance := by
    have hlost := hp.used_add_lost
    intro hlt
    rw [hdropped, droppedAfter] at *
    omega
  full := hp.eq_of_full h.powered

/-- Opened on any medium and after any operations, a log that is given a record or an anchor changes
nothing but free slots of its page. -/
theorem footprint_run {medium : Medium g} {config : Config} {start : Instant}
    (h : boot { medium } config start = .ok log) (operations : List (Instant × Operation))
    (now : Instant) :
    (∀ word, (log.run operations).Footprint ((log.run operations).append now word)
      ((log.run operations).elapsedWords now ++ [word])) ∧
    (log.run operations).Footprint ((log.run operations).anchorTime now) [anchorWord now] := by
  have hguarded := (guarded_boot rfl h).run operations
  refine ⟨fun word => ?_, ?_⟩
  · refine hguarded.footprint (pushed_append _ now word) ?_
      (dropped_append_eq _ hguarded.dropped_le now word)
    have hlength := (log.run operations).length_elapsedWords_le now
    rw [List.length_append, List.length_singleton]
    omega
  · exact hguarded.footprint (pushed_anchorTime _ now) (Nat.le_succ 1)
      (dropped_anchorTime _ hguarded.dropped_le now)

/-- Slot zero has a header of no size, so the header word counts as the first record. Behind the
seven the boot puts its anchor. The next word goes where a nine was left, and is merged with it.
Five milliseconds later the page has room for a record of them, and not for the word. -/
theorem footprint_run_garbage :
    let medium : Medium ⟨2, 5⟩ := ⟨#v[0x01000005, 7, Word.erased, 9, Word.erased, 0, 0, 0, 0, 0]⟩
    let operations : List (Instant × Operation) := [(⟨0⟩, .append 11)]
    let later : Instant := ⟨5000000⟩
    ∃ log, boot { medium } ⟨0, 1⟩ ⟨0⟩ = .ok log ∧ (log.run operations).frontier = ⟨⟨0, 5, 0⟩, 4⟩ ∧
      (log.run operations).Footprint ((log.run operations).append later 8) [0x80000005, 8] ∧
      ((log.run operations).append later 8).medium.page 0 = [0x01000005, 7, 0, 9, 0x80000005] ∧
      ((log.run operations).append later 8).dropped = 1 := by
  intro medium operations later
  obtain ⟨log, hboot, hfrontier, helapsed, hpage, hdropped⟩ :
      ∃ log, boot { medium } ⟨0, 1⟩ ⟨0⟩ = .ok log ∧
        (log.run operations).frontier = ⟨⟨0, 5, 0⟩, 4⟩ ∧
        (log.run operations).elapsedWords later = [0x80000005] ∧
        ((log.run operations).append later 8).medium.page 0 = [0x01000005, 7, 0, 9, 0x80000005] ∧
        ((log.run operations).append later 8).dropped = 1 :=
    ⟨_, rfl, by decide +kernel, by decide +kernel, by decide +kernel, by decide +kernel⟩
  have hfootprint := (footprint_run hboot operations later).1 8
  rw [helapsed] at hfootprint
  exact ⟨log, hboot, hfrontier, hfootprint, hpage, hdropped⟩

end Log

end RingLog

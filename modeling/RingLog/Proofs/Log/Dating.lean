import RingLog.Proofs.Log.Leaves
import RingLog.Proofs.Log.Recording

/-!
# The dates of events

An event says nothing about its time. The time records around it do: an anchor tells the seconds,
and each record of elapsed time tells how many milliseconds have passed since the time record before
it. What the words so far tell (`reckoned`) is kept by the log as its reference, as long as there is
room on the page; then nothing that is dropped was counted.

A page starts with an anchor, so what the words on it tell does not depend on pages that are gone.

The journal of a device (`Device.journal`) notes for each stored word the moment at which it was
stored. Main statement: `Device.events_dated`.
-/

namespace RingLog

variable {g : Geometry}

/-! ## Reckoning -/

namespace Word

/-- True of the words that record an event. -/
def isEvent (word : Word) : Bool :=
  (Record.decode word).record?.any fun record => !record.isTime

/-- The word records an absolute time. -/
def IsAnchor (word : Word) : Prop :=
  ∃ seconds, Record.decode word = .valid (.anchor seconds)

/-- The date that words tell, when a word follows. -/
def reckon (date : Option Instant) (word : Word) : Option Instant :=
  match Record.decode word with
  | .valid (.anchor seconds) => some (.ofSeconds seconds.toNat)
  | .valid (.elapsed millis) => date.map (·.addMillis millis.toNat)
  | _ => date

end Word

/-- The date that words tell: that of the last anchor, and all the time recorded behind it. -/
def reckoned (words : List Word) : Option Instant :=
  words.foldl Word.reckon none

theorem reckoned_concat (words : List Word) (word : Word) :
    reckoned (words ++ [word]) = Word.reckon (reckoned words) word :=
  List.foldl_concat ..

/-- Behind an anchor, nothing from before it counts. -/
theorem reckoned_append_of_isAnchor {word : Word} (h : word.IsAnchor) (before after : List Word) :
    reckoned (before ++ word :: after) = reckoned (word :: after) := by
  obtain ⟨seconds, hseconds⟩ := h
  have hreckon : ∀ date, Word.reckon date word = some (.ofSeconds seconds.toNat) := by
    intro date
    rw [Word.reckon, hseconds]
  rw [reckoned, List.foldl_append, List.foldl_cons, reckoned, List.foldl_cons, hreckon, hreckon]

theorem isAnchor_anchorWord (now : Instant) : Word.IsAnchor (anchorWord now) :=
  ⟨_, Record.decode_encode_anchor _⟩

theorem Word.IsAnchor.isEvent_eq {word : Word} (h : word.IsAnchor) : word.isEvent = false := by
  obtain ⟨seconds, hseconds⟩ := h
  rw [isEvent, hseconds]
  rfl

theorem isEvent_elapsed (millis : UInt32) :
    Word.isEvent (Record.elapsed millis).encode = false := by
  rw [Word.isEvent, Record.decode_encode_elapsed]
  rfl

theorem Word.ne_erased_of_isEvent {word : Word} (h : word.isEvent) : word ≠ Word.erased := by
  intro heq
  rw [heq] at h
  exact absurd h (by decide)

theorem reckon_of_isEvent {word : Word} (h : word.isEvent) (date : Option Instant) :
    Word.reckon date word = date := by
  unfold Word.isEvent at h
  unfold Word.reckon
  split
  · rename_i seconds hdecode
    rw [hdecode] at h
    cases h
  · rename_i millis hdecode
    rw [hdecode] at h
    cases h
  · rfl

theorem reckon_anchorWord {now : Instant} (h : now.seconds < 0x80000000) (date : Option Instant) :
    Word.reckon date (anchorWord now) = some (.ofSeconds now.seconds) := by
  have hseconds : (UInt32.ofNat ((UInt32.ofNat now.seconds).toNat % 0x80000000)).toNat =
      now.seconds := by
    rw [UInt32.toNat_ofNat', UInt32.toNat_ofNat']
    omega
  rw [Word.reckon, anchorWord, Record.decode_encode_anchor]
  dsimp only
  rw [hseconds]

theorem reckon_elapsed {millis : Nat} (h : millis ≤ Record.maxElapsed) (date : Instant) :
    Word.reckon (some date) (Record.elapsed (UInt32.ofNat millis)).encode =
      some (date.addMillis millis) := by
  have hmillis : (UInt32.ofNat ((UInt32.ofNat millis).toNat % 0x1000000)).toNat = millis := by
    unfold Record.maxElapsed at h
    rw [UInt32.toNat_ofNat', UInt32.toNat_ofNat']
    omega
  rw [Word.reckon, Record.decode_encode_elapsed]
  dsimp only
  rw [hmillis, Option.map_some]

/-! ## Stored words -/

/-- A word that was stored. -/
structure Stored where
  word : Word
  /-- The reading of the clock when it was stored. -/
  moment : Instant
  /-- Whether it was stored by an append that came so late that it recorded an anchor. -/
  overdue : Bool
  deriving DecidableEq, Repr

/-- The date is that of the moment, rounded down to milliseconds, or to seconds if overdue. -/
def Stored.DatedBy (stored : Stored) (date : Instant) : Prop :=
  date.nanos ≤ stored.moment.nanos ∧ stored.moment.nanos <
    date.nanos + if stored.overdue then Instant.nanosPerSecond else Instant.nanosPerMilli

/-- The words before each event tell its date. -/
def Dated (kept : List Stored) : Prop :=
  ∀ before stored after, kept = before ++ stored :: after → stored.word.isEvent →
    ∃ date, reckoned (before.map Stored.word) = some date ∧ stored.DatedBy date

theorem dated_nil : Dated [] := by
  intro before stored after h
  exact absurd h.symm (List.append_ne_nil_of_right_ne_nil _ (List.cons_ne_nil _ _))

theorem Dated.concat {kept : List Stored} (h : Dated kept) {last : Stored}
    (hlast : last.word.isEvent →
      ∃ date, reckoned (kept.map Stored.word) = some date ∧ last.DatedBy date) :
    Dated (kept ++ [last]) := by
  intro before stored after heq hevent
  rcases List.eq_nil_or_concat' after with rfl | ⟨between, other, rfl⟩
  · obtain ⟨rfl, hstored⟩ := List.append_inj' heq rfl
    cases hstored
    exact hlast hevent
  · rw [← List.cons_append, ← List.append_assoc] at heq
    exact h before stored between (List.append_inj' heq rfl).1 hevent

/-- What is left behind the loss of some words is dated still if it starts with an anchor. -/
theorem Dated.drop {kept : List Stored} (h : Dated kept) (count : Nat)
    (hopens : ∀ first ∈ (kept.drop count).head?, first.word.IsAnchor) :
    Dated (kept.drop count) := by
  intro before stored after heq hevent
  cases before with
  | nil =>
    have hanchor := hopens stored (by rw [heq]; rfl)
    cases hanchor.isEvent_eq.symm.trans hevent
  | cons first rest =>
    have hanchor := hopens first (by rw [heq]; rfl)
    have hkept : kept = kept.take count ++ (first :: rest) ++ stored :: after := by
      rw [List.append_assoc, ← heq, List.take_append_drop]
    obtain ⟨date, hdate, hdated⟩ := h _ _ _ hkept hevent
    rw [List.map_append, List.map_cons, reckoned_append_of_isAnchor hanchor] at hdate
    exact ⟨date, hdate, hdated⟩

/-! ## The journal -/

/-- The moment of an action. -/
def Action.moment : Action → Instant
  | boot _ now | perform now _ => now

/-- The action appends nothing but an event. -/
def Action.recordsEvents : Action → Bool
  | perform _ (.append word) => word.isEvent
  | perform _ _ | boot _ _ => true

/-- The operation is an append that comes so late that it records an anchor. -/
def Log.isOverdue (log : Log g) (now : Instant) : Operation → Bool
  | .append _ => decide (Record.maxElapsed < now.millisSince log.reference)
  | .anchor | .rotate | .eraseAll => false

/-- What an operation stores. -/
def Log.stored (log : Log g) (now : Instant) (operation : Operation) : List Stored :=
  ((log.prepared operation).fitting (log.written now operation)).map fun word =>
    ⟨word, now, log.isOverdue now operation⟩

namespace Device

/-- What an action stores. -/
def stored (device : Device g) : Action → List Stored
  | .boot config now =>
    if h : config.fault? g = none then
      ((Log.found device.chip config h).fitting [anchorWord now]).map (⟨·, now, false⟩)
    else []
  | .perform now operation =>
    match device with
    | running log => log.stored now operation
    | off _ => []

/-- All that actions store, one after another. -/
def journal (device : Device g) : List Action → List Stored
  | [] => []
  | action :: rest => device.stored action ++ (device.act action).journal rest

end Device

namespace Log

variable {log log' : Log g} {history : History} {latest now : Instant} {kept : List Stored}
  {words : List Word}

/-- What is kept of the journal are the words of the log, dated, and they tell the reference as
long as there is room for more. -/
structure Dates (log : Log g) (latest : Instant) (kept : List Stored) : Prop where
  words_eq : log.entries.map Entry.word = kept.map Stored.word
  dated : Dated kept
  reference_eq : log.used < log.page.capacity g →
    reckoned (kept.map Stored.word) = some log.reference
  reference_le : log.reference.nanos ≤ latest.nanos

/-- A word is stored if there is room for it, and then it tells the new reference. -/
theorem dates_pushed (hstep : log.InStep) (stored : Stored) (hp : log.Pushed log' [stored.word])
    (hword : stored.word ≠ Word.erased)
    (hwords : log.entries.map Entry.word = kept.map Stored.word) (hdated : Dated kept)
    (hevent : stored.word.isEvent → log.used < log.page.capacity g →
      ∃ date, reckoned (kept.map Stored.word) = some date ∧ stored.DatedBy date)
    (hreckon : log.used < log.page.capacity g →
      Word.reckon (reckoned (kept.map Stored.word)) stored.word = some log'.reference)
    (hreference : log'.reference.nanos ≤ latest.nanos) :
    log'.Dates latest (kept ++ (log.fitting [stored.word]).map
      (⟨·, stored.moment, stored.overdue⟩)) := by
  have hmem : Word.erased ∉ [stored.word] := fun h => hword (List.mem_singleton.mp h).symm
  have hentries := hstep.map_word_entries_pushed hp hmem
  have hused := hp.used_eq
  rw [List.length_singleton] at hused
  rw [hwords, fitting_singleton] at hentries
  rw [fitting_singleton]
  by_cases hroom : log.used < log.page.capacity g
  · rw [if_pos hroom] at hentries ⊢
    refine ⟨?_, hdated.concat fun h => hevent h hroom, fun _ => ?_, hreference⟩
    · rw [hentries, List.map_append]
      rfl
    · rw [List.map_append, ← hreckon hroom]
      exact reckoned_concat _ _
  · rw [if_neg hroom] at hentries ⊢
    rw [List.append_nil] at hentries
    rw [List.map_nil, List.append_nil]
    refine ⟨hentries, hdated, fun hroom' => absurd hroom' ?_, hreference⟩
    rw [hused, hp.page_eq]
    omega

/-- An anchor tells its own date. -/
theorem dates_pushed_anchor (hstep : log.InStep) (hp : log.Pushed log' [anchorWord now])
    (hreference : log'.reference = .ofSeconds now.seconds) (hseconds : now.seconds < 0x80000000)
    (hwords : log.entries.map Entry.word = kept.map Stored.word) (hdated : Dated kept)
    (overdue : Bool) :
    log'.Dates now (kept ++ (log.fitting [anchorWord now]).map (⟨·, now, overdue⟩)) := by
  refine dates_pushed hstep ⟨anchorWord now, now, overdue⟩ hp (anchorWord_ne_erased now) hwords
    hdated (fun hevent => ?_) (fun _ => ?_) ?_
  · cases (isAnchor_anchorWord now).isEvent_eq.symm.trans hevent
  · rw [hreference]
    exact reckon_anchorWord hseconds _
  · rw [hreference]
    exact now.ofSeconds_seconds.1

/-- The words written one after another are those that fit together. -/
theorem Pushed.fitting_append (hp : log.Pushed log' words) (more : List Word) :
    log.fitting (words ++ more) = log.fitting words ++ log'.fitting more := by
  have hroom : log'.page.capacity g - log'.used =
      log.page.capacity g - log.used - words.length := by
    rw [hp.used_eq, hp.page_eq]
    omega
  rw [fitting, fitting, fitting, hroom, List.take_append]

/-- An append first accounts for the time that has passed. -/
theorem Dates.writeElapsed (h : log.Dates latest kept) (hstep : log.InStep)
    (hlatest : latest.nanos ≤ now.nanos) (hseconds : now.seconds < 0x80000000) (overdue : Bool) :
    (log.writeElapsed now).Dates now
      (kept ++ (log.fitting (log.elapsedWords now)).map (⟨·, now, overdue⟩)) := by
  have hp := log.pushed_writeElapsed now
  have hreference := Nat.le_trans h.reference_le hlatest
  unfold elapsedWords Log.writeElapsed at hp ⊢
  dsimp only at hp ⊢
  by_cases hmax : Record.maxElapsed < now.millisSince log.reference
  · rw [if_pos hmax, if_pos hmax] at hp ⊢
    exact dates_pushed_anchor hstep hp (log.reference_writeAnchor now) hseconds h.words_eq h.dated
      overdue
  · rw [if_neg hmax, if_neg hmax] at hp ⊢
    by_cases hzero : now.millisSince log.reference = 0
    · rw [if_pos hzero, if_pos hzero, fitting, List.take_nil, List.map_nil, List.append_nil]
      exact ⟨h.words_eq, h.dated, h.reference_eq, hreference⟩
    · rw [if_neg hzero, if_neg hzero] at hp ⊢
      have hword := Record.encode_ne_erased
        (.elapsed (UInt32.ofNat (now.millisSince log.reference)))
      refine dates_pushed hstep ⟨_, now, overdue⟩ hp hword h.words_eq h.dated
        (fun hevent => ?_) (fun hroom => ?_) ?_
      · cases (isEvent_elapsed _).symm.trans hevent
      · rw [h.reference_eq hroom, reference_push]
        exact reckon_elapsed (Nat.not_lt.mp hmax) log.reference
      · rw [reference_push]
        exact (Instant.addMillis_millisSince hreference).1

/-- The new reference is the moment of the append, rounded down. -/
theorem reference_writeElapsed (hreference : log.reference.nanos ≤ now.nanos) (word : Word) :
    Stored.DatedBy ⟨word, now, log.isOverdue now (.append word)⟩
      (log.writeElapsed now).reference := by
  unfold Stored.DatedBy isOverdue Log.writeElapsed
  dsimp only
  by_cases hmax : Record.maxElapsed < now.millisSince log.reference
  · rw [if_pos hmax, decide_eq_true hmax, reference_writeAnchor]
    exact now.ofSeconds_seconds
  · have hround := Instant.addMillis_millisSince hreference
    rw [if_neg hmax, decide_eq_false hmax]
    by_cases hzero : now.millisSince log.reference = 0
    · rw [if_pos hzero]
      rw [hzero] at hround
      exact hround
    · rw [if_neg hzero, reference_push]
      exact hround

theorem Dates.append (h : log.Dates latest kept) (hstep : log.InStep)
    (hlatest : latest.nanos ≤ now.nanos) (hseconds : now.seconds < 0x80000000) {word : Word}
    (hword : word.isEvent) :
    (log.append now word).Dates now (kept ++ log.stored now (.append word)) := by
  have hp := log.pushed_writeElapsed now
  have helapsed := h.writeElapsed hstep hlatest hseconds (log.isOverdue now (.append word))
  have hdate := reference_writeElapsed (Nat.le_trans h.reference_le hlatest) word
  have hstep' := hstep.pushed hp (log.erased_not_mem_elapsedWords now)
  have hlast := (pushed_push (log.writeElapsed now) word).requestRotation
  have hfitting := hp.fitting_append [word]
  rw [stored, prepared, written, hfitting, List.map_append, ← List.append_assoc]
  refine dates_pushed hstep' ⟨word, now, log.isOverdue now (.append word)⟩ hlast
    (Word.ne_erased_of_isEvent hword) helapsed.words_eq helapsed.dated (fun _ hroom => ?_)
    (fun hroom => ?_) ?_
  · exact ⟨_, helapsed.reference_eq hroom, hdate⟩
  · rw [reckon_of_isEvent hword, helapsed.reference_eq hroom, reference_append]
  · rw [reference_append]
    exact helapsed.reference_le

/-! ## Pages -/

theorem head?_flatMap_isAnchor {slots : List Nat} {words : Nat → List Word}
    (h : ∀ slot ∈ slots, ∀ word ∈ (words slot).head?, word.IsAnchor) :
    ∀ word ∈ (slots.flatMap words).head?, word.IsAnchor := by
  induction slots with
  | nil =>
    intro word hword
    cases hword
  | cons slot rest ih =>
    intro word hword
    rw [List.flatMap_cons, List.head?_append] at hword
    cases hfirst : (words slot).head? with
    | none =>
      rw [hfirst] at hword
      exact ih (fun other hother => h other (List.mem_cons_of_mem _ hother)) word hword
    | some first =>
      rw [hfirst] at hword
      exact h slot List.mem_cons_self word (hfirst ▸ hword)

/-- The words of every slot start with an anchor. -/
theorem Recalls.isAnchor_head? (h : log.Recalls history) (hopens : history.Opens) {slot : Nat}
    (hslot : slot < g.pages) : ∀ word ∈ (log.medium.wordsAt slot).head?, word.IsAnchor := by
  have hshows := h.shows.shows slot hslot
  intro word hword
  cases hleaf : history.leaves[g.distance slot log.page.slot]? with
  | none =>
    rw [hleaf] at hshows
    rw [hshows] at hword
    cases hword
  | some leaf =>
    rw [hleaf] at hshows
    obtain ⟨now, rest, hleafWords⟩ := hopens leaf (List.mem_of_getElem? hleaf)
    rw [hshows.2, hleafWords] at hword
    cases hword
    exact isAnchor_anchorWord now

/-- Behind the page that a rotation recycles, the words start with an anchor. -/
theorem Recalls.isAnchor_turned (h : log.Recalls history) (hopens : history.Opens) :
    ∀ word ∈ (log.turned.entries.map Entry.word).head?, word.IsAnchor := by
  have hstep := h.shows.onRing.toInStep
  rw [hstep.turned.map_word_entries]
  refine head?_flatMap_isAnchor fun slot hmem => ?_
  have hpage : log.turned.page.slot = g.next log.page.slot := rfl
  by_cases hnext : slot = g.next log.page.slot
  · intro word hword
    have hnone := hstep.holds_turned.wordsAt_eq
    have hslot : log.rotatedPage.slot = g.next log.page.slot := rfl
    rw [hnext, ← hslot, hnone] at hword
    cases hword
  · rw [Medium.wordsAt_congr (hstep.read_turned hnext)]
    refine h.isAnchor_head? hopens ?_
    rcases List.mem_append.mp hmem with hlap | hactive
    · exact ((Geometry.mem_lap log.turned.slot_lt log.two_le_pages).mp hlap).1
    · rw [List.mem_singleton.mp hactive]
      exact log.turned.slot_lt

/-- All pages that are read start with an anchor. -/
theorem Recalls.isAnchor_page (h : log.Recalls history) (hopens : history.Opens) {page : Page}
    (hpage : page ∈ log.olderPages ++ [log.page]) :
    ∀ word ∈ (page.stored log.medium).head?, word.IsAnchor := by
  have hfull := h.shows.full
  have hdistance := Geometry.distance_next_self log.slot_lt log.two_le_pages
  have hload : ∃ slot < g.pages, page = Page.load log.medium slot := by
    rcases List.mem_append.mp hpage with holder | hactive
    · rw [olderPages, oldestPage, hfull.walk_eq log.next_slot_lt (by omega)] at holder
      obtain ⟨slot, hslot, rfl⟩ := List.mem_map.mp holder
      exact ⟨slot, ((Geometry.mem_lap log.slot_lt log.two_le_pages).mp hslot).1, rfl⟩
    · rw [List.mem_singleton.mp hactive]
      exact ⟨log.page.slot, log.slot_lt, hfull.load_eq.symm⟩
  obtain ⟨slot, hslot, rfl⟩ := hload
  exact h.isAnchor_head? hopens hslot

/-! ## Actions -/

/-- What is left before an operation writes its records is dated. -/
theorem Dates.prepared (h : log.Dates latest kept) (hrecalls : log.Recalls history)
    (hopens : history.Opens) (operation : Operation) :
    (log.prepared operation).entries.map Entry.word =
        (kept.drop (log.recycled operation)).map Stored.word ∧
      Dated (kept.drop (log.recycled operation)) := by
  have hring := hrecalls.shows.onRing
  have hfull := hrecalls.shows.full
  have hwords : (log.prepared operation).entries.map Entry.word =
      (kept.drop (log.recycled operation)).map Stored.word := by
    rw [hring.entries_prepared hfull, List.map_drop, h.words_eq, List.map_drop]
  refine ⟨hwords, ?_⟩
  cases operation with
  | append word => exact h.dated
  | anchor => exact h.dated
  | rotate =>
    refine h.dated.drop _ fun first hfirst => hrecalls.isAnchor_turned hopens _ ?_
    have hturned : log.turned.entries.map Entry.word = _ := hwords
    rw [hturned, List.head?_map, hfirst]
    rfl
  | eraseAll =>
    have hlength := congrArg List.length h.words_eq
    rw [List.length_map, List.length_map] at hlength
    rw [recycled, hlength, List.drop_length]
    exact dated_nil

theorem Dates.perform (h : log.Dates latest kept) (hrecalls : log.Recalls history)
    (hopens : history.Opens) {operation : Operation}
    (hevents : (Action.perform now operation).recordsEvents) (hlatest : latest.nanos ≤ now.nanos)
    (hseconds : now.seconds < 0x80000000) : (log.perform now operation).Dates now
      (kept.drop (log.recycled operation) ++ log.stored now operation) := by
  have hstep := hrecalls.shows.onRing.toInStep
  obtain ⟨hwords, hdated⟩ := h.prepared hrecalls hopens operation
  have hanchor : log.written now operation = [anchorWord now] →
      (log.perform now operation).reference = .ofSeconds now.seconds →
      (log.perform now operation).Dates now (kept.drop (log.recycled operation) ++
        ((log.prepared operation).fitting [anchorWord now]).map (⟨·, now, false⟩)) := by
    intro hwritten hreference
    have hpushed := log.pushed_perform now operation
    rw [hwritten] at hpushed
    exact dates_pushed_anchor (hstep.prepared operation) hpushed hreference hseconds hwords hdated
      false
  cases operation with
  | append word => exact h.append hstep hlatest hseconds hevents
  | anchor => exact hanchor rfl (log.reference_anchorTime now)
  | rotate => exact hanchor rfl (log.turned.reference_writeAnchor now)
  | eraseAll => exact hanchor rfl (log.cleared.reference_writeAnchor now)

end Log

namespace Device

variable {log : Log g} {history : History} {latest now : Instant} {kept : List Stored}

/-- An action keeps what is left of the journal dated, and adds to it what it stores. -/
theorem dates_act (h : log.Dates latest kept) (hrecalls : log.Recalls history)
    (hopens : history.Opens) (hpages : g.pages < 65536) {action : Action}
    (haction : action.Regular g) (hevents : action.recordsEvents)
    (hlatest : latest.nanos ≤ action.moment.nanos)
    (hseconds : action.moment.seconds < 0x80000000) : ∃ log' kept',
      (running log).act action = running log' ∧ log'.Recalls (history.act g action) ∧
        log'.Dates action.moment (kept' ++ (running log).stored action) ∧ kept' <:+ kept := by
  obtain ⟨log', hlog', hrecalls'⟩ := recalls_act hrecalls hpages haction
  cases action with
  | boot config now =>
    obtain ⟨hstep, hentries⟩ := hrecalls.shows.onRing.entries_found hrecalls.shows.full haction
    obtain ⟨_, hboot, hpushed⟩ := boot_of_fits log.chip haction now
    have hact : (running log).act (.boot config now) = _ := act_boot hboot
    rw [hact] at hlog'
    cases hlog'
    refine ⟨_, kept, hact, hrecalls', ?_, List.suffix_rfl⟩
    rw [stored, dif_pos haction.accepted]
    refine Log.dates_pushed_anchor hstep hpushed (Log.reference_boot hboot) hseconds ?_ h.dated
      false
    rw [hentries, h.words_eq]
  | perform now operation =>
    cases hlog'
    exact ⟨_, _, rfl, hrecalls', h.perform hrecalls hopens hevents hlatest hseconds,
      List.drop_suffix _ _⟩

theorem dates_start (hpages : g.pages < 65536) {config : Config} (hfits : config.Fits g)
    (hseconds : now.seconds < 0x80000000) : ∃ log,
      (new g).act (.boot config now) = running log ∧
        log.Recalls (.start config.headerSize now) ∧
        log.Dates now ((new g).stored (.boot config now)) := by
  obtain ⟨log, hlog, hrecalls⟩ := recalls_start hpages hfits now
  obtain ⟨_, hboot, hpushed⟩ := boot_of_fits (new g).chip hfits now
  rw [act_boot hboot] at hlog
  cases hlog
  have hunformatted : (new g).chip.medium.isUnformatted := Medium.isUnformatted_blank g
  obtain ⟨hstep, -, -, hnone⟩ := Log.fullRing_recover_format rfl hfits hpages
    (Log.found_of_unformatted hunformatted hfits.accepted)
  have hwords : (Log.found (new g).chip config hfits.accepted).entries.map Entry.word =
      ([] : List Stored).map Stored.word := by
    rw [hstep.entries_eq_nil hnone]
    rfl
  refine ⟨log, act_boot hboot, hrecalls, ?_⟩
  rw [stored, dif_pos hfits.accepted]
  exact Log.dates_pushed_anchor hstep hpushed (Log.reference_boot hboot) hseconds
    hwords dated_nil false

theorem dates_actAll (h : log.Dates latest kept) (hrecalls : log.Recalls history)
    (hopens : history.Opens) (hpages : g.pages < 65536) {actions : List Action}
    (hactions : ∀ action ∈ actions, action.Regular g ∧ action.recordsEvents)
    (hclock : (latest :: actions.map Action.moment).Pairwise fun earlier later =>
      earlier.nanos ≤ later.nanos)
    (hseconds : ∀ action ∈ actions, action.moment.seconds < 0x80000000) :
    ∃ log' history' latest' kept', (running log).actAll actions = running log' ∧
      log'.Recalls history' ∧ history'.Opens ∧ log'.Dates latest' kept' ∧
      kept' <:+ kept ++ (running log).journal actions := by
  induction actions generalizing log history latest kept with
  | nil =>
    refine ⟨log, history, latest, kept, rfl, hrecalls, hopens, h, ?_⟩
    rw [journal, List.append_nil]
  | cons action rest ih =>
    obtain ⟨haction, hevents⟩ := hactions action List.mem_cons_self
    obtain ⟨hlatest, hlater⟩ := List.pairwise_cons.mp hclock
    obtain ⟨log', kept', hact, hrecalls', hdates, hkept⟩ := dates_act h hrecalls hopens hpages
      haction hevents (hlatest _ List.mem_cons_self) (hseconds action List.mem_cons_self)
    obtain ⟨log'', history'', latest'', kept'', hlog, hrecalls'', hopens'', hdates'', hkept''⟩ :=
      ih hdates hrecalls' (hopens.act action)
        (fun other hother => hactions other (List.mem_cons_of_mem _ hother)) hlater
        (fun other hother => hseconds other (List.mem_cons_of_mem _ hother))
    refine ⟨log'', history'', latest'', kept'', ?_, hrecalls'', hopens'', hdates'', ?_⟩
    · rw [actAll, List.foldl_cons, hact]
      exact hlog
    · rw [journal, hact, ← List.append_assoc]
      obtain ⟨gone, hgone⟩ := hkept
      refine hkept''.trans ⟨gone, ?_⟩
      simp only [← hgone, List.append_assoc]

/-- A device is opened and then used without interruption, opened again now and then. It appends
events only, and its clock never goes backwards and stays below 2^31 seconds. Then the words of its
log are the end of its journal, each page that is read starts with an anchor, and the words before
each event tell its date: the moment at which it was stored, rounded down to milliseconds, or to
seconds if that append recorded an anchor. -/
theorem events_dated (hpages : g.pages < 65536) {config : Config} (hfits : config.Fits g)
    (now : Instant) {actions : List Action}
    (hactions : ∀ action ∈ actions, action.Regular g ∧ action.recordsEvents)
    (hclock : (now :: actions.map Action.moment).Pairwise fun earlier later =>
      earlier.nanos ≤ later.nanos)
    (hseconds : ∀ moment ∈ now :: actions.map Action.moment, moment.seconds < 0x80000000) :
    ∃ log kept, (new g).actAll (.boot config now :: actions) = running log ∧
      kept <:+ (new g).journal (.boot config now :: actions) ∧
      log.entries.map Entry.word = kept.map Stored.word ∧
      (∀ page ∈ log.olderPages ++ [log.page],
        ∀ word ∈ (page.stored log.medium).head?, word.IsAnchor) ∧
      Dated kept := by
  obtain ⟨log₀, hboot, hstart, hdates₀⟩ :=
    dates_start hpages hfits (hseconds now List.mem_cons_self)
  obtain ⟨log, history, latest, kept, hlog, hrecalls, hopens, hdates, hkept⟩ :=
    dates_actAll hdates₀ hstart (History.opens_start _ _) hpages hactions hclock
      fun action haction => hseconds _ (List.mem_cons_of_mem _ (List.mem_map_of_mem haction))
  refine ⟨log, kept, ?_, ?_, hdates.words_eq, fun page hpage => ?_, hdates.dated⟩
  · rw [actAll, List.foldl_cons, hboot]
    exact hlog
  · rw [journal, hboot]
    exact hkept
  · exact hrecalls.isAnchor_page hopens hpage

/-- Two pages for four words each. The second event comes late and is dropped behind its anchor;
the third one comes late as well; the fourth is dropped, and a boot finds the page full. -/
theorem events_dated_overdue :
    let now : Instant := ⟨100000500000⟩
    let actions : List Action := [.perform ⟨100002500000⟩ (.append 0x81000003),
      .perform ⟨20100700000000⟩ (.append 0x82010005), .perform ⟨20101000000000⟩ .rotate,
      .perform ⟨40200250900000⟩ (.append 0x82010006),
      .perform ⟨40200501800000⟩ (.append 0x82010007), .boot ⟨1, 2⟩ ⟨40201000000000⟩]
    (∀ action ∈ actions, action.Regular ⟨2, 5⟩ ∧ action.recordsEvents) ∧
      (now :: actions.map Action.moment).Pairwise
        (fun earlier later => earlier.nanos ≤ later.nanos) ∧
      (∀ moment ∈ now :: actions.map Action.moment, moment.seconds < 0x80000000) ∧
      ∃ log kept, (new ⟨2, 5⟩).actAll (.boot ⟨0, 1⟩ now :: actions) = running log ∧
        kept <:+ (new ⟨2, 5⟩).journal (.boot ⟨0, 1⟩ now :: actions) ∧
        kept.map Stored.word = [100, 0x80000002, 0x81000003, 20100, 20101, 40200, 0x82010006,
          0x800001f5] ∧ Dated kept := by
  intro now actions
  have hactions : ∀ action ∈ actions, action.Regular ⟨2, 5⟩ ∧ action.recordsEvents := by decide
  have hclock : (now :: actions.map Action.moment).Pairwise
      fun earlier later => earlier.nanos ≤ later.nanos := by decide
  have hseconds : ∀ moment ∈ now :: actions.map Action.moment, moment.seconds < 0x80000000 := by
    decide
  obtain ⟨log, kept, hlog, hkept, hwords, -, hdated⟩ := events_dated (by decide)
    (by decide : (⟨0, 1⟩ : Config).Fits ⟨2, 5⟩) now hactions hclock hseconds
  have hentries : (match (new ⟨2, 5⟩).actAll (.boot ⟨0, 1⟩ now :: actions) with
      | running log => log.entries.map Entry.word
      | off _ => []) = [100, 0x80000002, 0x81000003, 20100, 20101, 40200, 0x82010006,
        0x800001f5] := by decide +kernel
  rw [hlog] at hentries
  exact ⟨hactions, hclock, hseconds, log, kept, hlog, hkept, hwords.symm.trans hentries, hdated⟩

end Device

end RingLog

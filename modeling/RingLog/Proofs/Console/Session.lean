import RingLog.Console.Report
import RingLog.Proofs.Log.Places
import RingLog.Proofs.Log.Reader

/-!
# A report in steps and a report in one go

A session that is asked again and again, with nothing happening to the log meanwhile, moves a cursor
over the places of the log as a walk in one go does. In between it compares the number of the page
where it stands with that of the oldest page, since a reader whose page has been recycled has to
begin anew.

That comparison is made of every page, whether anything was recycled or not. If no page of the walk
looks older than the first one (`Log.InAge`), the session gives the entries of the log and then
`none`. If one does, the session never gives `none`: it begins anew whenever it comes to that page.
The pages of a walk are numbered from the header of the first slot, so this depends on what the
header of the slot behind the active one says, also when that slot is erased.

Main statements: `Session.reports_start`, `Session.reports_of_fullRing` and `Session.not_reports`.
-/

namespace RingLog

variable {g : Geometry}

/-- The entries that a session gives, one in each call, until it gives none. -/
inductive Session.Reports (log : Log g) : Session → List Entry → Prop
  | done {session : Session} (hnone : (session.next log).1 = none) : Reports log session []
  | entry {session : Session} {entry : Entry} {rest : List Entry}
      (hsome : (session.next log).1 = some entry)
      (hrest : Reports log (session.next log).2.1 rest) : Reports log session (entry :: rest)

/-- What a session gives is determined. -/
theorem Session.Reports.unique {log : Log g} {session : Session} {entries other : List Entry}
    (h : session.Reports log entries) (h' : session.Reports log other) : entries = other := by
  induction h generalizing other with
  | done hnone =>
    cases h' with
    | done _ => rfl
    | entry hsome _ =>
      rw [hnone] at hsome
      cases hsome
  | entry hsome _ ih =>
    cases h' with
    | done hnone =>
      rw [hnone] at hsome
      cases hsome
    | entry hsome' hrest =>
      rw [hsome] at hsome'
      cases hsome'
      rw [ih hrest]

namespace Log

variable {log : Log g} {page : Page} {place : Cursor}

/-! ## The age of the pages -/

/-- The pages that a walk comes to: the older ones with a record, and the one being written. -/
def pagesRead (log : Log g) : List Page :=
  log.olderPages.filter (fun page => page.stored log.medium ≠ []) ++ [log.page]

/-- No page of the walk looks older than the page of the oldest record. -/
def InAge (log : Log g) : Prop :=
  ∀ page ∈ log.pagesRead, Cursor.isBehind ⟨page, 0⟩ log.oldest = false

instance (log : Log g) : Decidable log.InAge :=
  inferInstanceAs (Decidable (∀ page ∈ log.pagesRead, _))

theorem mem_pagesRead (log : Log g) : page ∈ log.pagesRead ↔
    ∃ index, Cursor.Visits log.medium log.frontier log.oldest ⟨page, index⟩ := by
  simp only [visits_oldest, pagesRead, List.mem_append, List.mem_filter, List.mem_singleton,
    decide_eq_true_eq, exists_or, exists_and_left]
  refine or_congr (and_congr_right fun _ => ?_) ?_
  · rw [← List.length_pos_iff]
    exact ⟨fun h => ⟨0, h⟩, fun ⟨_, h⟩ => Nat.lt_of_le_of_lt (Nat.zero_le _) h⟩
  · exact ⟨fun h => ⟨h, 0, Nat.zero_le _⟩, And.left⟩

theorem inAge_iff (log : Log g) : log.InAge ↔ ∀ place,
    Cursor.Visits log.medium log.frontier log.oldest place →
      place.isBehind log.oldest = false := by
  constructor
  · intro h place hplace
    exact h place.page (log.mem_pagesRead.mpr ⟨place.index, hplace⟩)
  · intro h page hpage
    obtain ⟨index, hplace⟩ := log.mem_pagesRead.mp hpage
    exact h ⟨page, index⟩ hplace

/-- Where each slot holds the page of its turn, a walk finds the number of that turn. -/
theorem number_of_visits (hfull : log.medium.FullRing log.page)
    (h : Cursor.Visits log.medium log.frontier log.oldest place) :
    place.page.slot < g.pages ∧ place.page.number =
      log.page.number - UInt16.ofNat (g.distance place.page.slot log.page.slot) := by
  rcases (log.visits_oldest place).mp h with ⟨hmem, -⟩ | ⟨hactive, -⟩
  · have hcount := Geometry.distance_next_self log.slot_lt log.two_le_pages
    rw [olderPages, oldestPage, hfull.walk_eq log.next_slot_lt (by omega)] at hmem
    obtain ⟨slot, hslot, hload⟩ := List.mem_map.mp hmem
    have hlt := ((Geometry.mem_lap log.slot_lt log.two_le_pages).mp hslot).1
    rw [← hload]
    exact ⟨hlt, (hfull.inTurn slot hlt).2⟩
  · rw [hactive]
    exact ⟨log.slot_lt, (Medium.numberAt_self g log.page).symm⟩

/-- Where each of up to 2^15 slots holds the page of its turn, no page looks older. -/
theorem inAge_of_fullRing (hfull : log.medium.FullRing log.page) (hpages : g.pages ≤ 32768) :
    log.InAge := by
  rw [inAge_iff]
  intro place hplace
  obtain ⟨-, hnumber⟩ := number_of_visits hfull hplace
  obtain ⟨hslot, holdest⟩ := number_of_visits hfull (.here log.oldest)
  have hfar := Geometry.distance_lt hslot log.slot_lt
  have hle : g.distance place.page.slot log.page.slot ≤
      g.distance log.oldest.page.slot log.page.slot := hplace.distance_le hslot log.slot_lt
  rw [Cursor.isBehind_eq hnumber holdest (by omega) (by omega), decide_eq_false_iff_not]
  omega

theorem isBehind_oldest (log : Log g) : log.oldest.isBehind log.oldest = false := by
  simp [Cursor.isBehind]

end Log

namespace Session

variable {log : Log g} {place : Cursor} {entries : List Entry}

/-! ## One call -/

/-- At a place that does not look lapped a session gives the entry there, if there is one, and goes
on to the next place. -/
theorem next_of_visits (hplace : Cursor.Visits log.medium log.frontier log.oldest place)
    (hage : place.isBehind log.oldest = false) : Session.next ⟨place⟩ log =
      if place.reached log.frontier then (none, ⟨place⟩, [])
      else (some (place.entry log.medium), ⟨place.advance log.medium log.frontier⟩, []) := by
  have hsettle := Log.settle_of_visits hplace
  unfold next Log.step
  simp only [hage, hsettle, Bool.false_eq_true, if_false]
  split <;> rfl

/-- At a place that looks lapped a session does what it does at the start. -/
theorem next_of_isBehind (hage : place.isBehind log.oldest = true) :
    (Session.next ⟨place⟩ log).1 = ((Session.start log).next log).1 ∧
      (Session.next ⟨place⟩ log).2.1 = ((Session.start log).next log).2.1 := by
  unfold next Log.step start
  simp only [hage, log.isBehind_oldest, Bool.false_eq_true, if_true, if_false]
  split <;> exact ⟨rfl, rfl⟩

theorem Reports.of_isBehind (hage : place.isBehind log.oldest = true)
    (h : Session.Reports log ⟨place⟩ entries) : (Session.start log).Reports log entries := by
  obtain ⟨hfound, hsession⟩ := next_of_isBehind hage
  cases h with
  | done hnone => exact .done (hfound ▸ hnone)
  | entry hsome hrest => exact .entry (hfound ▸ hsome) (hsession ▸ hrest)

/-! ## The whole report -/

/-- Where no page looks lapped a session reads on as a walk does. -/
theorem reports_of_reads (hage : log.InAge)
    (hplace : Cursor.Visits log.medium log.frontier log.oldest place)
    (h : Cursor.Reads log.medium log.frontier place entries) :
    Session.Reports log ⟨place⟩ entries := by
  induction h with
  | stop hreached =>
    have hnext := next_of_visits hplace (log.inAge_iff.mp hage _ hplace)
    rw [if_pos hreached] at hnext
    exact .done (by rw [hnext])
  | entry hreached _ ih =>
    have hnext := next_of_visits hplace (log.inAge_iff.mp hage _ hplace)
    rw [hreached, if_neg Bool.false_ne_true] at hnext
    refine .entry (by rw [hnext]) ?_
    rw [hnext]
    exact ih (hplace.advance hreached)

/-- Before a place that looks lapped a session has to give the whole report once more. -/
theorem Reports.length_le {whole : List Entry} (hwhole : (Session.start log).Reports log whole)
    {lapped : Cursor} (hlapped : lapped.isBehind log.oldest = true)
    (hway : Cursor.Visits log.medium log.frontier place lapped)
    (hplace : Cursor.Visits log.medium log.frontier log.oldest place)
    (h : Session.Reports log ⟨place⟩ entries) :
    whole.length ≤ entries.length ∧
      (place.isBehind log.oldest = false → whole.length < entries.length) := by
  -- induction on the way to the lapped place
  induction hway generalizing entries with
  | here =>
    rw [hwhole.unique (h.of_isBehind hlapped), hlapped]
    exact ⟨Nat.le_refl _, fun hage => by cases hage⟩
  | @onward place _ hreached _ ih =>
    cases hage : place.isBehind log.oldest with
    | true =>
      rw [hwhole.unique (h.of_isBehind hage)]
      exact ⟨Nat.le_refl _, fun hfalse => by cases hfalse⟩
    | false =>
      have hnext := next_of_visits hplace hage
      rw [hreached, if_neg Bool.false_ne_true] at hnext
      cases h with
      | done hnone =>
        rw [hnext] at hnone
        cases hnone
      | entry _ hrest =>
        rw [hnext] at hrest
        have hle := (ih hlapped (hplace.advance hreached) hrest).1
        rw [List.length_cons]
        exact ⟨by omega, fun _ => by omega⟩

theorem reports_of_inAge (hage : log.InAge) : (Session.start log).Reports log log.entries :=
  reports_of_reads hage (.here log.oldest) log.reads_oldest

/-- Where each slot holds the page of its turn, a session gives the entries of the log. -/
theorem reports_of_fullRing (hfull : log.medium.FullRing log.page) (hpages : g.pages ≤ 32768) :
    (Session.start log).Reports log log.entries :=
  reports_of_inAge (log.inAge_of_fullRing hfull hpages)

/-- A session does not come to an end if a page on its way looks older than the first one. -/
theorem Reports.inAge (h : (Session.start log).Reports log entries) : log.InAge := by
  rw [Log.inAge_iff]
  intro place hplace
  refine Bool.eq_false_iff.mpr fun hlapped => ?_
  have hlt := (h.length_le hlapped hplace (.here log.oldest) h).2 log.isBehind_oldest
  exact Nat.lt_irrefl _ hlt

/-- A session comes to an end just when no page on its way looks older than the first one, and has
then given the entries of the log. -/
theorem reports_start (log : Log g) (entries : List Entry) :
    (Session.start log).Reports log entries ↔ entries = log.entries ∧ log.InAge := by
  constructor
  · intro h
    exact ⟨h.unique (reports_of_inAge h.inAge), h.inAge⟩
  · rintro ⟨rfl, hage⟩
    exact reports_of_inAge hage

/-- Three pages behind a rotation that was cut when it had erased its slot: the walk takes that
slot for number 0xffff, so the next page for number 0, and page 0x8001 looks older than that. -/
theorem not_reports :
    let medium := ((((Medium.blank ⟨3, 8⟩).program 0 0 0x01018001).program 0 1 100).program
      2 0 0x01018000).program 2 1 100
    ∃ log, Log.boot ⟨medium, none, []⟩ ⟨2, 1⟩ (.ofSeconds 101) = .ok log ∧
      log.entries.map Entry.shown = [(0, 100), (262152, 100), (262153, 101)] ∧
      ∀ entries, ¬(Session.start log).Reports log entries := by
  refine ⟨_, rfl, by decide +kernel, fun entries h => ?_⟩
  exact absurd h.inAge (by decide +kernel)

end Session

end RingLog

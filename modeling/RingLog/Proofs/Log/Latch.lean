import Mathlib.Data.List.Basic
import Mathlib.Data.List.Induction
import RingLog.Proofs.Log.Calls

/-!
# The latch of a rotation request

A log asks its owner for a rotation when no more than the reserve is left on its page (`Log.Low`).
The latch that it sets then keeps it from asking again until a boot, a rotation or an erasure has
cleared it. A boot sets it anew if the page that it finds is low already; a rotation and an erasure
leave the latch open without a look at the new page.

Between two looks the page only fills up, so the latch is never set on a page that is not low. From
this one invariant (`Log.Latched`) follows what a run observes: a `Latch` keeps account of the
requests of a log, and of how many there had been when the latch was last cleared.

Main statement: `Latch.requests_run`.
-/

namespace RingLog

variable {g : Geometry}

namespace Log

variable {log log' : Log g} {now : Instant} {word : Word} {words : List Word}

/-- Record slots that are left on the page being written. -/
def free (log : Log g) : Nat :=
  log.page.capacity g - log.used

/-- No more than the reserve is left on the page being written. -/
def Low (log : Log g) : Prop :=
  log.free ≤ log.config.reserve.toNat

instance (log : Log g) : Decidable log.Low :=
  inferInstanceAs (Decidable (_ ≤ _))

/-- The test of fullness asks whether the page is low, whatever the size of its header. -/
theorem isNearlyFull_iff (log : Log g) :
    log.page.isNearlyFull g log.used log.config.reserve = true ↔ log.Low := by
  have hused := log.used_le
  simp only [Page.isNearlyFull, decide_eq_true_eq, Low, free, Page.capacity] at *
  omega

theorem Pushed.free_eq (hp : log.Pushed log' words) : log'.free = log.free - words.length := by
  have hused := log.used_le
  rw [free, free, hp.page_eq, hp.used_eq]
  omega

/-! ## The latch while records are written -/

@[simp]
theorem rotationPending_push (log : Log g) (word : Word) :
    (log.push word).rotationPending = log.rotationPending := by
  unfold push
  split <;> rfl

@[simp]
theorem outbox_push (log : Log g) (word : Word) : (log.push word).outbox = log.outbox := by
  unfold push
  split <;> rfl

@[simp]
theorem rotationPending_writeAnchor (log : Log g) (now : Instant) :
    (log.writeAnchor now).rotationPending = log.rotationPending :=
  rotationPending_push _ _

@[simp]
theorem outbox_writeAnchor (log : Log g) (now : Instant) :
    (log.writeAnchor now).outbox = log.outbox :=
  outbox_push _ _

@[simp]
theorem rotationPending_writeElapsed (log : Log g) (now : Instant) :
    (log.writeElapsed now).rotationPending = log.rotationPending := by
  unfold writeElapsed
  dsimp only
  split
  · simp
  · split <;> simp

@[simp]
theorem outbox_writeElapsed (log : Log g) (now : Instant) :
    (log.writeElapsed now).outbox = log.outbox := by
  unfold writeElapsed
  dsimp only
  split
  · simp
  · split <;> simp

/-! ## Looking at the room that is left -/

theorem rotationPending_requestRotation (log : Log g) : log.requestRotation.rotationPending =
    (log.rotationPending || log.page.isNearlyFull g log.used log.config.reserve) := by
  unfold requestRotation
  cases hpending : log.rotationPending <;>
    cases hfull : log.page.isNearlyFull g log.used log.config.reserve <;> simp [hpending]

/-- A request is made just when the latch is set. -/
theorem requests_requestRotation (log : Log g) :
    log.requestRotation.outbox.rotationRequests + log.rotationPending.toNat =
      log.outbox.rotationRequests + log.requestRotation.rotationPending.toNat := by
  unfold requestRotation
  cases hpending : log.rotationPending <;>
    cases hfull : log.page.isNearlyFull g log.used log.config.reserve <;> simp [hpending]

/-- `log'` is `log` after some records and a look at the room that is left: the latch is set if
the page is low then, and the requests have grown by one if it was not set before. -/
structure Checked (log log' : Log g) : Prop where
  config_eq : log'.config = log.config
  free_le : log'.free ≤ log.free
  pending_iff : log'.rotationPending = true ↔ log.rotationPending = true ∨ log'.Low
  requests_eq : log'.outbox.rotationRequests + log.rotationPending.toNat =
    log.outbox.rotationRequests + log'.rotationPending.toNat

theorem Pushed.checked {middle : Log g} (hp : log.Pushed middle.requestRotation words)
    (hmiddle : log.Pushed middle words) (hpending : middle.rotationPending = log.rotationPending)
    (houtbox : middle.outbox = log.outbox) : log.Checked middle.requestRotation where
  config_eq := hp.config_eq
  free_le := hp.free_eq ▸ Nat.sub_le _ _
  pending_iff := by
    have hlow : middle.requestRotation.Low ↔ middle.Low := by
      rw [Low, Low, hp.free_eq, hmiddle.free_eq, hp.config_eq, hmiddle.config_eq]
    rw [rotationPending_requestRotation, Bool.or_eq_true, hpending, isNearlyFull_iff, hlow]
  requests_eq := by
    have hrequests := middle.requests_requestRotation
    rwa [hpending, houtbox] at hrequests

theorem checked_append (log : Log g) (now : Instant) (word : Word) :
    log.Checked (log.append now word) :=
  (log.pushed_append now word).checked
    ((log.pushed_writeElapsed now).trans (pushed_push _ word)) (by simp) (by simp)

theorem checked_anchorTime (log : Log g) (now : Instant) : log.Checked (log.anchorTime now) :=
  (log.pushed_anchorTime now).checked (log.pushed_writeAnchor now) (by simp) (by simp)

/-- A boot looks at the page that it goes on with, as a log that has asked for nothing yet. -/
theorem checked_boot {chip : Chip g} {config : Config} (h : boot chip config now = .ok log) :
    ∃ start : Log g, start.config = config ∧ start.rotationPending = false ∧
      start.outbox.rotationRequests = 0 ∧ start.Checked log := by
  have accepted := accepted_of_boot h
  have hresume : ∀ chip : Chip g, ∃ start : Log g, start.config = config ∧
      start.rotationPending = false ∧ start.outbox.rotationRequests = 0 ∧
      start.Checked (resume chip config accepted now) := by
    intro chip
    have hempty : (recover chip config accepted).rotationPending = false ∧
        (recover chip config accepted).outbox.rotationRequests = 0 := by
      unfold recover
      dsimp only
      split <;> exact ⟨rfl, rfl⟩
    refine ⟨_, ?_, ?_, ?_, checked_anchorTime _ now⟩
    · exact (recover_spec chip config accepted).2.1
    · exact hempty.1
    · exact hempty.2
  unfold boot at h
  split at h
  · cases h
  · split at h
    · cases h
      obtain ⟨start, hconfig, hpending, hrequests, hchecked⟩ :=
        hresume (chip.format config.headerSize)
      exact ⟨start, hconfig, hpending, hrequests, ⟨hchecked.config_eq, hchecked.free_le,
        hchecked.pending_iff, hchecked.requests_eq⟩⟩
    · cases h
      exact hresume chip

/-! ## Clearing the latch -/

theorem cleared_rotate (log : Log g) (now : Instant) :
    (log.rotate now).rotationPending = false ∧
      (log.rotate now).outbox.rotationRequests = log.outbox.rotationRequests := by
  simp [rotate, note]

theorem cleared_eraseAll (log : Log g) (now : Instant) :
    (log.eraseAll now).rotationPending = false ∧
      (log.eraseAll now).outbox.rotationRequests = log.outbox.rotationRequests := by
  simp [eraseAll, note]

end Log

/-- The operation goes on with a new page, for which no rotation was asked yet. -/
def Operation.clears : Operation → Bool
  | append _ | anchor => false
  | rotate | eraseAll => true

namespace Log

variable {log : Log g} {operation : Operation}

theorem config_perform (log : Log g) (now : Instant) (operation : Operation) :
    (log.perform now operation).config = log.config := by
  rw [(log.pushed_perform now operation).config_eq]
  cases operation <;> rfl

theorem checked_perform (log : Log g) (now : Instant) (hclears : operation.clears = false) :
    log.Checked (log.perform now operation) := by
  cases operation with
  | append word => exact log.checked_append now word
  | anchor => exact log.checked_anchorTime now
  | rotate | eraseAll => cases hclears

theorem cleared_perform (log : Log g) (now : Instant) (hclears : operation.clears = true) :
    (log.perform now operation).rotationPending = false ∧
      (log.perform now operation).outbox.rotationRequests = log.outbox.rotationRequests := by
  cases operation with
  | append word | anchor => cases hclears
  | rotate => exact log.cleared_rotate now
  | eraseAll => exact log.cleared_eraseAll now

/-! ## The invariant -/

/-- The latch is set on a low page only. -/
structure Latched (log : Log g) : Prop where
  low : log.rotationPending = true → log.Low

/-- Behind a look the latch says whether the page is low. -/
theorem Latched.pending_iff {log' : Log g} (h : log.Latched) (hchecked : log.Checked log') :
    log'.rotationPending = true ↔ log'.Low := by
  rw [hchecked.pending_iff, or_iff_right_iff_imp]
  intro hpending
  have hlow := h.low hpending
  rw [Low, hchecked.config_eq]
  exact Nat.le_trans hchecked.free_le hlow

theorem Latched.checked {log' : Log g} (h : log.Latched) (hchecked : log.Checked log') :
    log'.Latched where
  low := (h.pending_iff hchecked).mp

theorem Latched.perform (h : log.Latched) (now : Instant) (operation : Operation) :
    (log.perform now operation).Latched := by
  cases hclears : operation.clears with
  | false => exact h.checked (log.checked_perform now hclears)
  | true =>
    refine ⟨fun hpending => ?_⟩
    rw [(log.cleared_perform now hclears).1] at hpending
    cases hpending

/-- A boot sets the latch, and asks for a rotation, just when it finds a low page. -/
theorem latched_boot {chip : Chip g} {config : Config} {now : Instant}
    (h : boot chip config now = .ok log) : log.Latched ∧ log.config = config ∧
      (log.rotationPending = true ↔ log.Low) ∧
      log.outbox.rotationRequests = log.rotationPending.toNat := by
  obtain ⟨start, hconfig, hpending, hrequests, hchecked⟩ := checked_boot h
  have hstart : start.Latched := ⟨fun hset => by simp [hpending] at hset⟩
  refine ⟨hstart.checked hchecked, hchecked.config_eq.trans hconfig,
    hstart.pending_iff hchecked, ?_⟩
  have heq := hchecked.requests_eq
  rwa [hpending, hrequests, Bool.toNat_false, Nat.add_zero, Nat.zero_add] at heq

end Log

/-! ## Runs -/

/-- Something that happens to a log. A boot may find any medium. -/
inductive Turn (g : Geometry) where
  | boot (chip : Chip g) (config : Config) (now : Instant)
  | perform (now : Instant) (operation : Operation)

namespace Turn

/-- A boot has a configuration that fits. -/
def Regular : Turn g → Prop
  | boot _ config _ => config.Fits g
  | perform _ _ => True

instance (t : Turn g) : Decidable t.Regular :=
  match t with
  | boot _ config _ => inferInstanceAs (Decidable (config.Fits g))
  | perform _ _ => inferInstanceAs (Decidable True)

/-- At the end of the turn the log looks at the room that is left on its page. -/
def checks : Turn g → Bool
  | boot _ _ _ => true
  | perform _ operation => !operation.clears

end Turn

/-- A log with an account of its requests for a rotation. -/
structure Latch (g : Geometry) where
  log : Log g
  /-- The requests that had been made when the latch was last cleared. -/
  settled : Nat

namespace Latch

/-- Takes a turn. A boot starts a new account, a rotation or an erasure settles the old one. -/
def turn (latch? : Option (Latch g)) : Turn g → Option (Latch g)
  | .boot chip config now =>
    match Log.boot chip config now with
    | .ok log => some ⟨log, 0⟩
    | .error _ => latch?
  | .perform now operation =>
    latch?.map fun latch =>
      ⟨latch.log.perform now operation,
        if operation.clears then latch.log.outbox.rotationRequests else latch.settled⟩

/-- The log behind a list of turns. There is none before the first boot. -/
def run (turns : List (Turn g)) : Option (Latch g) :=
  turns.foldl turn none

/-- Since the latch was last cleared one request was made if it is set, and none if it is not. -/
structure Holds (latch : Latch g) : Prop where
  latched : latch.log.Latched
  requests_eq :
    latch.log.outbox.rotationRequests = latch.settled + latch.log.rotationPending.toNat

variable {latch? : Option (Latch g)} {latch' : Latch g} {t : Turn g}

/-- What a turn leaves of the account, and what it says of the page. -/
theorem holds_turn (h : ∀ latch, latch? = some latch → latch.Holds) (ht : t.Regular)
    (hturn : turn latch? t = some latch') : latch'.Holds ∧
      (t.checks = true → (latch'.log.rotationPending = true ↔ latch'.log.Low)) := by
  cases t with
  | boot chip config now =>
    obtain ⟨log, hboot, -⟩ := Log.boot_ok chip ht.accepted now
    obtain ⟨hlatched, -, hiff, hrequests⟩ := Log.latched_boot hboot
    rw [turn, hboot] at hturn
    cases hturn
    exact ⟨⟨hlatched, hrequests.trans (Nat.zero_add _).symm⟩, fun _ => hiff⟩
  | perform now operation =>
    obtain ⟨latch, rfl, rfl⟩ := Option.map_eq_some_iff.mp hturn
    obtain ⟨hlatched, hrequests⟩ := h latch rfl
    refine ⟨⟨hlatched.perform now operation, ?_⟩, fun hchecks => ?_⟩
    · cases hclears : operation.clears with
      | false =>
        have heq := (latch.log.checked_perform now hclears).requests_eq
        simp only [Bool.false_eq_true, if_false]
        omega
      | true =>
        obtain ⟨hpending, heq⟩ := latch.log.cleared_perform now hclears
        simp [hpending, heq]
    · refine hlatched.pending_iff (latch.log.checked_perform now ?_)
      simpa [Turn.checks] using hchecks

theorem holds_run {turns : List (Turn g)} (hturns : ∀ t ∈ turns, t.Regular) {latch : Latch g}
    (hrun : run turns = some latch) : latch.Holds := by
  induction turns using List.reverseRecOn generalizing latch with
  | nil => cases hrun
  | append_singleton before t ih =>
    rw [run, List.foldl_concat] at hrun
    refine (holds_turn (fun latch hlatch => ih (fun other hother => ?_) hlatch) ?_ hrun).1
    · exact hturns other (List.mem_append_left _ hother)
    · exact hturns t (List.mem_append_right _ List.mem_cons_self)

/-- Boots on any media and operations of any kind, with any words and clocks, one after another. At
each moment the log has made one request since the latch was last cleared if the latch is set, and
none if it is not. Behind every boot, append and anchor the latch is set just when no more record
slots are free on the page than the reserve. -/
theorem requests_run {turns : List (Turn g)} (hturns : ∀ t ∈ turns, t.Regular) {latch : Latch g}
    (hrun : run turns = some latch) :
    latch.log.outbox.rotationRequests = latch.settled + latch.log.rotationPending.toNat ∧
      ∀ t ∈ turns.getLast?, t.checks = true → (latch.log.rotationPending = true ↔
        latch.log.free ≤ latch.log.config.reserve.toNat) := by
  refine ⟨(holds_run hturns hrun).requests_eq, fun t ht hchecks => ?_⟩
  obtain ⟨before, rfl⟩ := List.getLast?_eq_some_iff.mp ht
  rw [run, List.foldl_concat] at hrun
  have hbefore : ∀ other ∈ before, other.Regular := fun other hother =>
    hturns other (List.mem_append_left _ hother)
  refine (holds_turn (fun latch hlatch => holds_run hbefore hlatch) ?_ hrun).2 hchecks
  exact hturns t (List.mem_append_right _ List.mem_cons_self)

/-- With a reserve of three slots, the second append takes the page from four free slots to two. The
third one finds the latch set, and a rotation and another append settle the only request. -/
theorem requests_run_jump :
    let turns : List (Turn ⟨2, 8⟩) := [.boot { medium := Medium.blank _ } ⟨3, 1⟩ ⟨0⟩,
      .perform (.ofSeconds 1) (.append 7), .perform (.ofSeconds 2) (.append 7),
      .perform (.ofSeconds 3) (.append 7)]
    let more : List (Turn ⟨2, 8⟩) := [.perform (.ofSeconds 4) .rotate,
      .perform (.ofSeconds 4) (.append 7)]
    (∀ t ∈ turns ++ more, t.Regular) ∧
      (∃ latch, run turns = some latch ∧ latch.log.rotationPending = true ∧
        latch.log.outbox.rotationRequests = 1) ∧
      ∃ latch, run (turns ++ more) = some latch ∧ latch.log.rotationPending = false ∧
        latch.log.outbox.rotationRequests = 1 := by
  intro turns more
  have hturns : ∀ t ∈ turns ++ more, t.Regular := by decide
  obtain ⟨latch, hrun, hsettled, hfree⟩ : ∃ latch, run turns = some latch ∧ latch.settled = 0 ∧
      latch.log.free ≤ latch.log.config.reserve.toNat :=
    ⟨_, rfl, by decide +kernel, by decide +kernel⟩
  obtain ⟨later, hrun', hsettled', hfree'⟩ : ∃ later, run (turns ++ more) = some later ∧
      later.settled = 1 ∧ ¬later.log.free ≤ later.log.config.reserve.toNat :=
    ⟨_, rfl, by decide +kernel, by decide +kernel⟩
  obtain ⟨hrequests, hlast⟩ :=
    requests_run (fun t ht => hturns t (List.mem_append_left _ ht)) hrun
  obtain ⟨hrequests', hlast'⟩ := requests_run hturns hrun'
  have hpending := (hlast _ rfl rfl).mpr hfree
  have hpending' := Bool.eq_false_iff.mpr fun h => hfree' ((hlast' _ rfl rfl).mp h)
  refine ⟨hturns, ⟨latch, hrun, hpending, ?_⟩, later, hrun', hpending', ?_⟩
  · rw [hrequests, hsettled, hpending]
    rfl
  · rw [hrequests', hsettled', hpending']
    rfl

end Latch

end RingLog

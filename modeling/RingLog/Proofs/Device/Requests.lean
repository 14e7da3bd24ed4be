import RingLog.Console.Command
import RingLog.Device.Station
import RingLog.Proofs.Log.Latch

/-!
# Requests for a rotation on their way

A log asks for a rotation through a message to the system task, and its latch keeps it from asking
for the same page again. The message waits in the mailbox while other tasks append and the console
carries out commands. A command that goes on with a new page clears the latch, but the message stays
where it is: it has become an orphan, a request for a page that was left already.

The system task serves all requests alike. Each rotation uses up one of them, so the rotations that
find the latch open and the orphans still waiting are together as many as the commands that found
the latch set. Where no rotation finds the latch open, each page that is left because of a message
was low (`Station.Heeds`).

Main statements: `Station.heeds_follow` and `Station.not_heeds`.
-/

namespace RingLog

variable {g : Geometry}

/-- Something that happens around a shared log. -/
inductive Activity where
  /-- A task appends a word. -/
  | append (now : Instant) (word : Word)
  /-- A task sends a message to the system task. -/
  | post (message : Message)
  /-- The console carries out a command. -/
  | command (now : Instant) (what : Command)
  /-- The system task takes the oldest message and handles it. -/
  | receive (now : Instant)
  deriving DecidableEq, Repr

namespace Activity

/-- Nobody but the log sends requests for a rotation. -/
def Regular : Activity → Prop
  | post message => message ≠ .rotatePages
  | append _ _ | command _ _ | receive _ => True

instance (activity : Activity) : Decidable activity.Regular :=
  match activity with
  | post message => inferInstanceAs (Decidable (message ≠ .rotatePages))
  | append _ _ | command _ _ | receive _ => inferInstanceAs (Decidable True)

/-- The console goes on with a new page, asked or not. -/
def renews : Activity → Bool
  | command _ what => what.operation?.any Operation.clears
  | append _ _ | post _ | receive _ => false

end Activity

namespace Station

/-! ## The account of the requests -/

/-- The station with these messages in its mailbox. -/
def withQueue (station : Station g) (queue : List Message) : Station g :=
  { station with mailbox.queue := queue }

/-- What an activity leaves. -/
def proceed (station : Station g) : Activity → Station g
  | .append now word => station.perform now (.append word)
  | .post message => station.post message
  | .command now what =>
    let ⟨log, lock, mailbox, notices⟩ := station
    deliver ⟨log.execute now what, lock, mailbox, notices⟩
  | .receive now =>
    match station.receive now with
    | some (_, next) => next
    | none => station

/-- What activities leave, one after another. -/
def follow (station : Station g) (activities : List Activity) : Station g :=
  activities.foldl proceed station

/-- The requests for a rotation in the mailbox. -/
def waiting (station : Station g) : Nat :=
  station.mailbox.queue.count .rotatePages

/-- The waiting requests for pages that were left already: all but the one that the latch is set
for. -/
def orphans (station : Station g) : Nat :=
  station.waiting - station.log.rotationPending.toNat

/-- The activity is a rotation that a message asks for. -/
def rotates (station : Station g) : Activity → Bool
  | .receive _ => station.mailbox.queue.head? == some .rotatePages
  | .append _ _ | .post _ | .command _ _ => false

/-- Rotations by a message for which the log, as it was just before, had not asked. -/
def unasked : Station g → List Activity → Nat
  | _, [] => 0
  | station, activity :: rest =>
    (station.rotates activity && !station.log.rotationPending).toNat +
      (station.proceed activity).unasked rest

/-- Commands that left a page for which a rotation had been asked. -/
def revoked : Station g → List Activity → Nat
  | _, [] => 0
  | station, activity :: rest =>
    (activity.renews && station.log.rotationPending).toNat +
      (station.proceed activity).revoked rest

/-- Each rotation by a message leaves a page for which the log had asked, with no more than the
reserve free. -/
def Heeds : Station g → List Activity → Prop
  | _, [] => True
  | station, activity :: rest =>
    (station.rotates activity = true → station.log.rotationPending = true ∧ station.log.Low) ∧
      (station.proceed activity).Heeds rest

instance decidableHeeds : (station : Station g) → (activities : List Activity) →
    Decidable (station.Heeds activities)
  | _, [] => inferInstanceAs (Decidable True)
  | station, activity :: rest =>
    have := decidableHeeds (station.proceed activity) rest
    inferInstanceAs (Decidable (_ ∧ _))

variable {station : Station g} {operation : Operation} {activity : Activity}

/-! ## Operations -/

/-- The latch is right, the mailbox takes requests, and the log has handed in all it had. -/
structure Wired (station : Station g) : Prop where
  latched : station.log.Latched
  isOpen : station.mailbox.isOpen = true
  collected : station.log.outbox.rotationRequests = 0

theorem waiting_deliver (hopen : station.mailbox.isOpen = true) :
    station.deliver.waiting = station.waiting + station.log.outbox.rotationRequests := by
  obtain ⟨log, lock, ⟨queue, isOpen⟩, notices⟩ := station
  cases hopen
  simp [deliver, waiting, Log.collect, Mailbox.sendAll_of_open]

theorem wired_deliver (hlatched : station.log.Latched) (hopen : station.mailbox.isOpen = true) :
    station.deliver.Wired := by
  obtain ⟨log, lock, ⟨queue, isOpen⟩, notices⟩ := station
  cases hopen
  refine ⟨⟨hlatched.low⟩, ?_, rfl⟩
  simp [deliver, Log.collect, Mailbox.sendAll_of_open]

theorem perform_eq (station : Station g) (now : Instant) (operation : Operation) :
    station.perform now operation =
      deliver { station with log := station.log.perform now operation } := rfl

theorem Wired.perform (h : station.Wired) (now : Instant) (operation : Operation) :
    (station.perform now operation).Wired := by
  rw [perform_eq]
  exact wired_deliver (h.latched.perform now operation) h.isOpen

theorem Wired.waiting_perform_eq (h : station.Wired) (now : Instant) (operation : Operation) :
    (station.perform now operation).waiting =
      station.waiting + (station.log.perform now operation).outbox.rotationRequests := by
  rw [perform_eq]
  exact waiting_deliver h.isOpen

/-- An operation that looks at its page sends a request just when it sets the latch. -/
theorem Wired.waiting_perform (h : station.Wired) (now : Instant)
    (hclears : operation.clears = false) :
    (station.perform now operation).waiting + station.log.rotationPending.toNat =
      station.waiting + (station.perform now operation).log.rotationPending.toNat := by
  have hrequests := (station.log.checked_perform now hclears).requests_eq
  have hpending : (station.perform now operation).log.rotationPending =
      (station.log.perform now operation).rotationPending := rfl
  rw [h.collected] at hrequests
  rw [h.waiting_perform_eq now operation, hpending]
  omega

/-- An operation that clears the latch sends nothing. -/
theorem Wired.waiting_perform_of_clears (h : station.Wired) (now : Instant)
    (hclears : operation.clears = true) :
    (station.perform now operation).waiting = station.waiting ∧
      (station.perform now operation).log.rotationPending = false := by
  obtain ⟨hpending, hrequests⟩ := station.log.cleared_perform now hclears
  refine ⟨?_, hpending⟩
  rw [h.waiting_perform_eq now operation, hrequests, h.collected, Nat.add_zero]

/-! ## The invariant -/

/-- While the latch is set the request that it is set for waits. -/
structure Orderly (station : Station g) : Prop extends station.Wired where
  pending_le : station.log.rotationPending.toNat ≤ station.waiting

theorem Orderly.waiting_eq (h : station.Orderly) :
    station.waiting = station.orphans + station.log.rotationPending.toNat :=
  (Nat.sub_add_cancel h.pending_le).symm

theorem Orderly.perform (h : station.Orderly) (now : Instant) (operation : Operation) :
    (station.perform now operation).Orderly ∧ (station.perform now operation).orphans =
      station.orphans + (operation.clears && station.log.rotationPending).toNat := by
  have hle := h.pending_le
  cases hclears : operation.clears with
  | false =>
    have hwaiting := h.waiting_perform now hclears
    refine ⟨⟨h.toWired.perform now operation, by omega⟩, ?_⟩
    rw [orphans, orphans, Bool.false_and, Bool.toNat_false]
    omega
  | true =>
    obtain ⟨hwaiting, hpending⟩ := h.waiting_perform_of_clears now hclears
    refine ⟨⟨h.toWired.perform now operation, by simp [hpending]⟩, ?_⟩
    rw [orphans, hwaiting, hpending, h.waiting_eq]
    simp

/-- To hand in nothing changes nothing. -/
theorem Orderly.deliver (h : station.Orderly) :
    station.deliver.Orderly ∧ station.deliver.orphans = station.orphans := by
  have hwaiting := waiting_deliver h.isOpen
  rw [h.collected, Nat.add_zero] at hwaiting
  have hpending : station.deliver.log.rotationPending = station.log.rotationPending := rfl
  refine ⟨⟨wired_deliver h.latched h.isOpen, ?_⟩, ?_⟩
  · rw [hpending, hwaiting]
    exact h.pending_le
  · rw [orphans, orphans, hpending, hwaiting]

/-- Messages of other kinds come and go. -/
theorem Orderly.exchange (h : station.Orderly) {queue : List Message}
    (hcount : queue.count .rotatePages = station.waiting) :
    (station.withQueue queue).Orderly ∧ (station.withQueue queue).orphans = station.orphans := by
  have hwaiting : (station.withQueue queue).waiting = station.waiting := hcount
  have hpending : (station.withQueue queue).log.rotationPending =
      station.log.rotationPending := rfl
  refine ⟨⟨⟨h.latched, h.isOpen, h.collected⟩, ?_⟩, ?_⟩
  · rw [hwaiting, hpending]
    exact h.pending_le
  · rw [orphans, orphans, hwaiting, hpending]

theorem Orderly.post (h : station.Orderly) {message : Message} (hother : message ≠ .rotatePages) :
    (station.post message).Orderly ∧ (station.post message).orphans = station.orphans := by
  have hpost : station.post message =
      station.withQueue (station.mailbox.queue ++ [message]) := by
    rw [Station.post, Mailbox.send, if_pos h.isOpen]
    rfl
  rw [hpost]
  refine h.exchange ?_
  rw [List.count_append, List.count_singleton, if_neg (by simpa using hother)]
  rfl

end Station

theorem Message.clears_eq_false {message : Message} {operation : Operation}
    (hother : message ≠ .rotatePages) (h : message.operation? = some operation) :
    operation.clears = false := by
  cases message with
  | rotatePages => exact absurd rfl hother
  | chargingChanged charging =>
    cases charging <;> cases h <;> rfl
  | shutdown => cases h
  | _ =>
    cases h
    rfl

namespace Station

variable {station : Station g} {activity : Activity}

/-- A request that is served is used up, whether the latch is set for it or not. -/
theorem Orderly.receive_request (h : station.Orderly) {rest : List Message}
    (hqueue : station.mailbox.queue = .rotatePages :: rest) (now : Instant) :
    ((station.withQueue rest).handle now .rotatePages).Orderly ∧
      (!station.log.rotationPending).toNat +
        ((station.withQueue rest).handle now .rotatePages).orphans =
          station.orphans := by
  have hwired : (station.withQueue rest).Wired :=
    ⟨h.latched, h.isOpen, h.collected⟩
  have hwaiting : station.waiting =
      (station.withQueue rest).waiting + 1 := by
    rw [waiting, hqueue, List.count_cons_self]
    rfl
  have hlatch : (!station.log.rotationPending).toNat + station.log.rotationPending.toNat = 1 := by
    cases station.log.rotationPending <;> rfl
  have horphans := h.waiting_eq
  have hhandle : (station.withQueue rest).handle now .rotatePages =
      (station.withQueue rest).perform now .rotate := rfl
  obtain ⟨hleft, hpending⟩ :=
    hwired.waiting_perform_of_clears now (show Operation.rotate.clears = true from rfl)
  rw [hhandle]
  refine ⟨⟨hwired.perform now .rotate, by simp [hpending]⟩, ?_⟩
  rw [orphans, hleft, hpending, Bool.toNat_false]
  omega

theorem Orderly.receive_other (h : station.Orderly) {message : Message} {rest : List Message}
    (hqueue : station.mailbox.queue = message :: rest) (hother : message ≠ .rotatePages)
    (now : Instant) :
    ((station.withQueue rest).handle now message).Orderly ∧
      ((station.withQueue rest).handle now message).orphans =
        station.orphans := by
  have hcount : rest.count .rotatePages = station.waiting := by
    rw [waiting, hqueue, List.count_cons_of_ne hother]
  obtain ⟨hnext, horphans⟩ := h.exchange hcount
  rw [← horphans, handle]
  split
  · rename_i operation hoperation
    obtain ⟨hdone, hsame⟩ := hnext.perform now operation
    rw [Message.clears_eq_false hother hoperation] at hsame
    exact ⟨hdone, hsame⟩
  · exact ⟨hnext, rfl⟩

theorem Orderly.receive (h : station.Orderly) (now : Instant) :
    (station.proceed (.receive now)).Orderly ∧
      (station.rotates (.receive now) && !station.log.rotationPending).toNat +
        (station.proceed (.receive now)).orphans = station.orphans := by
  cases hqueue : station.mailbox.queue with
  | nil =>
    have hnone : station.proceed (.receive now) = station := by
      simp [Station.proceed, Station.receive, hqueue]
    rw [hnone]
    exact ⟨h, by simp [rotates, hqueue]⟩
  | cons message rest =>
    have hsome : station.proceed (.receive now) = (station.withQueue rest).handle now message := by
      simp [Station.proceed, Station.receive, hqueue, withQueue]
    rw [hsome]
    by_cases hrequest : message = .rotatePages
    · subst hrequest
      obtain ⟨hnext, horphans⟩ := h.receive_request hqueue now
      exact ⟨hnext, by simpa [rotates, hqueue] using horphans⟩
    · obtain ⟨hnext, horphans⟩ := h.receive_other hqueue hrequest now
      have hrotates : station.rotates (.receive now) = false := by
        simp [rotates, hqueue, hrequest]
      refine ⟨hnext, ?_⟩
      rw [hrotates, Bool.false_and, Bool.toNat_false, Nat.zero_add, horphans]

/-- A command that renews the page while the latch is set makes an orphan of the request. -/
theorem Orderly.command (h : station.Orderly) (now : Instant) (what : Command) :
    (station.proceed (.command now what)).Orderly ∧
      (station.proceed (.command now what)).orphans = station.orphans +
        ((Activity.command now what).renews && station.log.rotationPending).toNat := by
  cases hoperation : what.operation? with
  | none =>
    have hexecute : station.proceed (.command now what) = station.deliver := by
      simp [Station.proceed, Log.execute, hoperation]
    have hrenews : (Activity.command now what).renews = false := by
      simp [Activity.renews, hoperation]
    rw [hexecute, hrenews]
    exact h.deliver
  | some operation =>
    have hexecute : station.proceed (.command now what) = station.perform now operation := by
      simp [Station.proceed, Log.execute, hoperation, Station.perform]
    have hrenews : (Activity.command now what).renews = operation.clears := by
      simp [Activity.renews, hoperation]
    rw [hexecute, hrenews]
    exact h.perform now operation

/-- What an activity does to the account. -/
theorem Orderly.proceed (h : station.Orderly) (hregular : activity.Regular) :
    (station.proceed activity).Orderly ∧
      (station.rotates activity && !station.log.rotationPending).toNat +
          (station.proceed activity).orphans =
        (activity.renews && station.log.rotationPending).toNat + station.orphans := by
  cases activity with
  | append now word =>
    obtain ⟨hnext, horphans⟩ := h.perform now (.append word)
    refine ⟨hnext, ?_⟩
    show 0 + (station.perform now (.append word)).orphans = 0 + station.orphans
    rw [horphans]
    rfl
  | post message =>
    obtain ⟨hnext, horphans⟩ := h.post hregular
    refine ⟨hnext, ?_⟩
    show 0 + (station.post message).orphans = 0 + station.orphans
    rw [horphans]
  | command now what =>
    obtain ⟨hnext, horphans⟩ := h.command now what
    refine ⟨hnext, ?_⟩
    rw [rotates, Bool.false_and, Bool.toNat_false, horphans]
    omega
  | receive now =>
    obtain ⟨hnext, horphans⟩ := h.receive now
    refine ⟨hnext, ?_⟩
    rw [Activity.renews, Bool.false_and, Bool.toNat_false, Nat.zero_add]
    exact horphans

/-! ## Runs -/

theorem Orderly.unasked_add (h : station.Orderly) {activities : List Activity}
    (hregular : ∀ activity ∈ activities, activity.Regular) :
    station.unasked activities + (station.follow activities).orphans =
      station.revoked activities + station.orphans := by
  induction activities generalizing station with
  | nil => rfl
  | cons activity rest ih =>
    rw [List.forall_mem_cons] at hregular
    obtain ⟨hnext, hstep⟩ := h.proceed hregular.1
    have hrest := ih hnext hregular.2
    have hfollow : station.follow (activity :: rest) = (station.proceed activity).follow rest := rfl
    rw [unasked, revoked, hfollow]
    omega

/-- A latch that is set says that the page is low. -/
theorem Orderly.heeds_iff (h : station.Orderly) {activities : List Activity}
    (hregular : ∀ activity ∈ activities, activity.Regular) :
    station.Heeds activities ↔ station.unasked activities = 0 := by
  induction activities generalizing station with
  | nil => exact ⟨fun _ => rfl, fun _ => trivial⟩
  | cons activity rest ih =>
    rw [List.forall_mem_cons] at hregular
    have hlow := h.latched.low
    rw [Heeds, unasked, Nat.add_eq_zero_iff, ih (h.proceed hregular.1).1 hregular.2]
    refine and_congr_left fun _ => ?_
    cases hrotates : station.rotates activity with
    | false => simp
    | true =>
      cases hpending : station.log.rotationPending with
      | false => simp
      | true => simp [hlow hpending]

/-- Behind a boot one request waits if the latch is set, and none if it is not. -/
theorem orderly_share {chip : Chip g} {config : Config} {now : Instant} {log : Log g}
    (hboot : Log.boot chip config now = .ok log) :
    (share log).Orderly ∧ (share log).orphans = 0 := by
  obtain ⟨hlatched, -, -, hrequests⟩ := Log.latched_boot hboot
  have hwaiting : (share log).waiting = log.rotationPending.toNat := by
    rw [share, waiting_deliver rfl, ← hrequests]
    exact Nat.zero_add _
  have hpending : (share log).log.rotationPending = log.rotationPending := rfl
  refine ⟨⟨wired_deliver hlatched rfl, Nat.le_of_eq (hpending ▸ hwaiting.symm)⟩, ?_⟩
  rw [orphans, hwaiting, hpending, Nat.sub_self]

/-- Tasks append and send messages, the console carries out commands and the system task handles one
message after another, in any order and at any times. The rotations by a message that the log had
not asked for and the orphans still waiting are together as many as the commands that left a page
for which a rotation had been asked. Where no such rotation has happened, and only there, each page
left because of a message was low, and the log had asked for that. -/
theorem heeds_follow {chip : Chip g} {config : Config} {now : Instant} {log : Log g}
    (hboot : Log.boot chip config now = .ok log)
    {activities : List Activity} (hregular : ∀ activity ∈ activities, activity.Regular) :
    (share log).unasked activities + ((share log).follow activities).orphans =
        (share log).revoked activities ∧
      ((share log).Heeds activities ↔ (share log).unasked activities = 0) := by
  obtain ⟨horderly, horphans⟩ := orderly_share hboot
  have hcount := horderly.unasked_add hregular
  rw [horphans, Nat.add_zero] at hcount
  exact ⟨hcount, horderly.heeds_iff hregular⟩

/-- The console rotates a page for which a rotation was asked. The orphan is served in time for the
next page, and the request for that page becomes the orphan. -/
theorem heeds_follow_orphan :
    let now : Instant := .ofSeconds 100
    let fill : List Activity := List.replicate 4 (.append now 0x81000003)
    let activities := fill ++ [.command now .forceRotation] ++ fill ++ [.receive now]
    (∀ activity ∈ activities, activity.Regular) ∧ Config.Fits ⟨2, 1⟩ ⟨2, 8⟩ ∧
      ∃ log, Log.boot { medium := Medium.blank ⟨2, 8⟩ } ⟨2, 1⟩ now = .ok log ∧
        (share log).revoked activities = 1 ∧ ((share log).follow activities).orphans = 1 ∧
        (share log).Heeds activities := by
  intro now fill activities
  have hregular : ∀ activity ∈ activities, activity.Regular := by decide
  obtain ⟨log, hboot, hrevoked, horphans⟩ : ∃ log,
      Log.boot { medium := Medium.blank ⟨2, 8⟩ } ⟨2, 1⟩ now = .ok log ∧
        (share log).revoked activities = 1 ∧ ((share log).follow activities).orphans = 1 :=
    ⟨_, rfl, by decide +kernel, by decide +kernel⟩
  obtain ⟨hcount, hiff⟩ := heeds_follow hboot hregular
  exact ⟨hregular, by decide, log, hboot, hrevoked, horphans, hiff.mpr (by omega)⟩

/-- The console rotates the first of two pages, for which a rotation was asked. The orphan then
rotates the second one, which holds its anchor only, and recycles the first one. -/
theorem not_heeds :
    let now : Instant := .ofSeconds 100
    let activities := List.replicate 4 (Activity.append now 0x81000003) ++
      [.command now .forceRotation]
    (∀ activity ∈ activities ++ [.receive now], activity.Regular) ∧
      ∃ log, Log.boot { medium := Medium.blank ⟨2, 8⟩ } ⟨2, 1⟩ now = .ok log ∧
        ((share log).follow activities).log.rotationPending = false ∧
        ((share log).follow activities).log.free = 6 ∧
        ((share log).follow activities).log.entries.map Entry.word =
          [100, 0x81000003, 0x81000003, 0x81000003, 0x81000003, 100] ∧
        ((share log).follow (activities ++ [.receive now])).log.entries.map Entry.word =
          [100, 100] ∧
        ¬(share log).Heeds (activities ++ [.receive now]) := by
  intro now activities
  exact ⟨by decide, _, rfl, by decide +kernel, by decide +kernel, by decide +kernel,
    by decide +kernel, by decide +kernel⟩

end Station

end RingLog

import Mathlib.Data.List.Infix
import Mathlib.Data.List.TakeWhile
import RingLog.Proofs.Device.Requests
import RingLog.Proofs.Log.OnRing

/-!
# A shutdown behind a burst of records

The producer of the simulated device appends enough records to fill a page as far as the reserve,
and then asks the system task to stop. In between other tasks append and send messages, and the
system task takes messages and handles them, in any order.

The log asks for a rotation through the mailbox that the producer's last message goes to. Until it
has asked, no page was left, so every record has used up room on the first one (`Crew.Asked`). By
the time the producer has made its appends there is therefore a request in the mailbox, ahead of its
last message, and the system task comes to it first.

Main statements: `Crew.atWork_act` and `Crew.rotations_stopped`.
-/

namespace RingLog

variable {g : Geometry}

namespace Message

variable {messages more : List Message} {message : Message}

/-- The messages ahead of the first one that asks the system task to stop. -/
def untilShutdown (messages : List Message) : List Message :=
  messages.takeWhile (· != .shutdown)

theorem untilShutdown_of_not_mem (h : .shutdown ∉ messages) :
    untilShutdown messages = messages := by
  refine List.takeWhile_eq_self_iff.mpr fun message hmessage => bne_iff_ne.mpr ?_
  rintro rfl
  exact h hmessage

theorem untilShutdown_append (h : .shutdown ∉ messages) (more : List Message) :
    untilShutdown (messages ++ .shutdown :: more) = messages := by
  rw [untilShutdown, List.takeWhile_append_of_pos, List.takeWhile_cons_of_neg (by simp),
    List.append_nil]
  intro message hmessage
  refine bne_iff_ne.mpr ?_
  rintro rfl
  exact h hmessage

theorem mem_untilShutdown_append (h : message ∈ untilShutdown messages) (more : List Message) :
    message ∈ untilShutdown (messages ++ more) := by
  unfold untilShutdown at h ⊢
  rw [List.takeWhile_append]
  split
  · exact List.mem_append_left _ ((List.takeWhile_prefix _).subset h)
  · exact h

theorem operation?_eq_none : message.operation? = none ↔ message = .shutdown := by
  constructor
  · intro h
    cases message with
    | shutdown => rfl
    | chargingChanged charging => cases charging <;> cases h
    | _ => cases h
  · rintro rfl
    rfl

/-- Only a request for a rotation asks for a rotation. -/
theorem operation?_eq_rotate : message.operation? = some .rotate ↔ message = .rotatePages := by
  constructor
  · intro h
    by_contra hother
    have hclears := clears_eq_false hother h
    cases hclears
  · rintro rfl
    rfl

theorem count_filterMap_operation? (messages : List Message) :
    (messages.filterMap operation?).count .rotate = messages.count .rotatePages := by
  rw [List.count_filterMap, List.count_eq_countP]
  refine List.countP_congr fun message _ => ?_
  rw [beq_iff_eq, beq_iff_eq, operation?_eq_rotate]

/-- No message asks for an erasure. -/
theorem operation_ne_eraseAll {operation : Operation} (h : message.operation? = some operation) :
    operation ≠ .eraseAll := by
  rintro rfl
  by_cases hrequest : message = .rotatePages
  · rw [hrequest] at h
    cases h
  · have hclears := clears_eq_false hrequest h
    cases hclears

end Message

/-! ## The tasks -/

/-- What the system task is at. -/
inductive Duty where
  | waiting
  /-- It took a message and has not handled it yet. -/
  | holding (message : Message)
  | stopped
  deriving DecidableEq, Repr

/-- A station with its system task at work, and an account of what that has done. -/
structure Crew (g : Geometry) where
  station : Station g
  duty : Duty := .waiting
  /-- The messages that the system task is done with, in order. -/
  handled : List Message := []
  /-- The operations that it carried out, in order. -/
  done : List Operation := []

/-- A step of one of the tasks. -/
inductive Deed where
  /-- The producer appends a word. -/
  | produce (now : Instant) (word : Word)
  /-- The producer asks the system task to stop. -/
  | finish
  /-- Another task appends a word. -/
  | append (now : Instant) (word : Word)
  /-- Another task sends a message. -/
  | post (message : Message)
  /-- The system task takes the oldest message, if it is waiting and there is one. -/
  | take
  /-- The system task handles the message that it took. -/
  | handle (now : Instant)
  deriving DecidableEq, Repr

namespace Deed

/-- Other tasks neither ask for rotations nor stop the system task. -/
def Regular : Deed → Prop
  | post message => message ≠ .rotatePages ∧ message ≠ .shutdown
  | produce _ _ | finish | append _ _ | take | handle _ => True

instance (deed : Deed) : Decidable deed.Regular :=
  match deed with
  | post message => inferInstanceAs (Decidable (message ≠ .rotatePages ∧ message ≠ .shutdown))
  | produce _ _ | finish | append _ _ | take | handle _ => inferInstanceAs (Decidable True)

/-- The producer appends a word. -/
def produces : Deed → Bool
  | produce _ _ => true
  | finish | append _ _ | post _ | take | handle _ => false

end Deed

namespace Duty

/-- The message in the hands of the system task. -/
def held : Duty → List Message
  | holding message => [message]
  | waiting | stopped => []

end Duty

namespace Crew

/-- The tasks around a log that was just opened. -/
def start (log : Log g) : Crew g :=
  { station := .share log }

/-- The system task handles a message. It stops, and the mailbox is closed, if that asks it to. -/
def attend (crew : Crew g) (now : Instant) (message : Message) : Crew g :=
  match message.operation? with
  | some operation =>
    { station := crew.station.perform now operation
      handled := crew.handled ++ [message]
      done := crew.done ++ [operation] }
  | none =>
    { crew with
      station.mailbox := crew.station.mailbox.close
      duty := .stopped
      handled := crew.handled ++ [message] }

/-- The system task takes the oldest message, if it is waiting and there is one. -/
def take (crew : Crew g) : Crew g :=
  match crew.duty, crew.station.mailbox.queue with
  | .waiting, message :: rest =>
    { crew with station := crew.station.withQueue rest, duty := .holding message }
  | _, _ => crew

/-- What a step leaves. -/
def act (crew : Crew g) : Deed → Crew g
  | .produce now word | .append now word =>
    { crew with station := crew.station.perform now (.append word) }
  | .finish => { crew with station := crew.station.post .shutdown }
  | .post message => { crew with station := crew.station.post message }
  | .take => crew.take
  | .handle now =>
    match crew.duty with
    | .holding message => crew.attend now message
    | .waiting | .stopped => crew

/-- What steps leave, one after another, in whatever order the tasks make them. -/
def follow (crew : Crew g) (deeds : List Deed) : Crew g :=
  deeds.foldl act crew

/-- All messages that were sent, in order: those handled, the one taken and those in the mailbox. -/
def sent (crew : Crew g) : List Message :=
  crew.handled ++ crew.duty.held ++ crew.station.mailbox.queue

variable {crew : Crew g} {now : Instant} {message : Message} {operation : Operation}

/-- To take a message and to handle it at once is to receive it. -/
theorem station_act_handle (hduty : crew.duty = .waiting) {station : Station g}
    (hreceive : crew.station.receive now = some (message, station))
    (hmessage : message ≠ .shutdown) :
    ((crew.act .take).act (.handle now)).station = station := by
  unfold Station.receive at hreceive
  split at hreceive
  · cases hreceive
  · rename_i rest hqueue
    cases hreceive
    simp only [act, take, hduty, hqueue, attend, Station.handle]
    cases hoperation : message.operation? with
    | none => exact absurd (Message.operation?_eq_none.mp hoperation) hmessage
    | some operation => rfl

end Crew

/-! ## What an operation sends -/

namespace Station

variable {station : Station g} {now : Instant} {operation : Operation}

/-- An operation puts the requests that the log makes in it behind the other messages. -/
theorem Wired.queue_perform (h : station.Wired) (now : Instant) (operation : Operation) :
    (station.perform now operation).mailbox.queue = station.mailbox.queue ++
      List.replicate (station.log.perform now operation).outbox.rotationRequests .rotatePages := by
  obtain ⟨log, lock, ⟨queue, isOpen⟩, notices⟩ := station
  have hopen : isOpen = true := h.isOpen
  subst hopen
  simp [Station.perform, deliver, Log.collect, Mailbox.sendAll_of_open]

theorem Wired.post (h : station.Wired) (message : Message) :
    (station.post message).Wired ∧
      (station.post message).mailbox.queue = station.mailbox.queue ++ [message] := by
  have hopen := h.isOpen
  refine ⟨⟨h.latched, ?_, h.collected⟩, ?_⟩
  · rw [Station.post, Mailbox.send, if_pos hopen]
    exact hopen
  · rw [Station.post, Mailbox.send, if_pos hopen]

/-- A rotation takes the next number, other operations but an erasure keep it. -/
theorem number_perform (station : Station g) (now : Instant) (hkeeps : operation ≠ .eraseAll) :
    (station.perform now operation).log.page.number =
      station.log.page.number + UInt16.ofNat ([operation].count .rotate) := by
  have hpage : (station.perform now operation).log.page =
      (station.log.perform now operation).page := rfl
  rw [hpage, (station.log.pushed_perform now operation).page_eq]
  cases operation with
  | append word | anchor => exact (UInt16.add_zero _).symm
  | rotate => rfl
  | eraseAll => exact absurd rfl hkeeps

end Station

namespace Crew

/-! ## The invariant -/

/-- A request for a rotation was sent ahead of any message that stops the system task; or no such
message was sent, the log has not run low, and each append of the producer has used up room. -/
def Asked (config : Config) (log : Log g) (sent : List Message) (produced : Nat) : Prop :=
  .rotatePages ∈ Message.untilShutdown sent ∨
    .shutdown ∉ sent ∧ config.reserve.toNat < log.free ∧
      log.free + produced < g.pageSize - config.headerSize.toNat

/-- The system task has not stopped, and what it has done is what the messages asked for. -/
structure AtWork (config : Config) (crew : Crew g) (produced : Nat) : Prop where
  wired : crew.station.Wired
  config_eq : crew.station.log.config = config
  number_eq : crew.station.log.page.number = UInt16.ofNat (crew.done.count .rotate)
  done_eq : crew.done = crew.handled.filterMap Message.operation?
  duty_ne : crew.duty ≠ .stopped
  not_mem : .shutdown ∉ crew.handled
  asked : Asked config crew.station.log crew.sent produced

/-- The system task has stopped behind these messages, with a rotation for each request in them. -/
structure Stopped (crew : Crew g) (before : List Message) : Prop where
  duty_eq : crew.duty = .stopped
  number_eq : crew.station.log.page.number = UInt16.ofNat (crew.done.count .rotate)
  done_eq : crew.done = before.filterMap Message.operation?
  handled_eq : crew.handled = before ++ [.shutdown]
  not_mem : .shutdown ∉ before
  request_mem : .rotatePages ∈ before

variable {config : Config} {log : Log g} {sent more : List Message} {produced : Nat}
  {crew : Crew g} {now : Instant} {message : Message} {operation : Operation}
  {before : List Message} {deed : Deed}

theorem Asked.of_succ (h : Asked config log sent (produced + 1)) :
    Asked config log sent produced := by
  rcases h with hrequest | ⟨hnot, hfree, hroom⟩
  · exact .inl hrequest
  · exact .inr ⟨hnot, hfree, by omega⟩

theorem Asked.append (h : Asked config log sent produced) (hnot : .shutdown ∉ more) :
    Asked config log (sent ++ more) produced := by
  rcases h with hrequest | ⟨hsent, hfree, hroom⟩
  · exact .inl (Message.mem_untilShutdown_append hrequest more)
  · refine .inr ⟨?_, hfree, hroom⟩
    rw [List.mem_append, not_or]
    exact ⟨hsent, hnot⟩

/-- Where no request was sent, none of the messages is one. -/
theorem Asked.request_mem (h : Asked config log sent produced)
    (hmem : .rotatePages ∈ sent ∨ .shutdown ∈ sent) :
    .rotatePages ∈ Message.untilShutdown sent := by
  rcases h with hrequest | ⟨hnot, -, -⟩
  · exact hrequest
  · rcases hmem with hrequest | hshutdown
    · rwa [Message.untilShutdown_of_not_mem hnot]
    · exact absurd hshutdown hnot

/-- A record makes the room smaller, and the log asks for a rotation if little is left. -/
theorem Asked.perform {station : Station g} (h : Asked config station.log sent produced)
    (hwired : station.Wired) (hconfig : station.log.config = config) (now : Instant)
    (hclears : operation.clears = false) :
    Asked config (station.perform now operation).log (sent ++ List.replicate
      (station.log.perform now operation).outbox.rotationRequests .rotatePages) (produced + 1) := by
  rcases h with hrequest | ⟨hnot, hfree, hroom⟩
  · exact .inl (Message.mem_untilShutdown_append hrequest _)
  · have hchecked := station.log.checked_perform now hclears
    have hprepared : station.log.prepared operation = station.log := by
      cases operation with
      | append word | anchor => rfl
      | rotate | eraseAll => cases hclears
    have hless := (station.log.pushed_perform now operation).free_eq
    have hwritten := List.length_pos_of_ne_nil (station.log.written_ne_nil now operation)
    rw [hprepared] at hless
    by_cases hlow : (station.log.perform now operation).Low
    · -- the latch was open, so it is set now and the request is made
      have hopen : station.log.rotationPending = false := by
        refine Bool.eq_false_iff.mpr fun hpending => ?_
        have := hwired.latched.low hpending
        rw [Log.Low, hconfig] at this
        omega
      have hset := hchecked.pending_iff.mpr (.inr hlow)
      have hrequests := hchecked.requests_eq
      rw [hopen, hset, hwired.collected, Bool.toNat_false, Bool.toNat_true] at hrequests
      left
      rw [show (station.log.perform now operation).outbox.rotationRequests = 1 by omega,
        Message.untilShutdown_of_not_mem]
      · exact List.mem_append_right _ List.mem_cons_self
      · rw [List.mem_append, not_or]
        exact ⟨hnot, by simp⟩
    · right
      have hlog : (station.perform now operation).log.free =
          (station.log.perform now operation).free := rfl
      rw [Log.Low, hchecked.config_eq, hconfig] at hlow
      refine ⟨?_, by rw [hlog]; omega, by rw [hlog]; omega⟩
      rw [List.mem_append, not_or]
      exact ⟨hnot, by simp [List.mem_replicate]⟩

/-! ## The steps of the tasks -/

theorem AtWork.of_succ (h : crew.AtWork config (produced + 1)) : crew.AtWork config produced :=
  { h with asked := h.asked.of_succ }

theorem AtWork.append (h : crew.AtWork config produced) (now : Instant) (word : Word) :
    AtWork config { crew with station := crew.station.perform now (.append word) }
      (produced + 1) := by
  have hnumber :=
    crew.station.number_perform now (show Operation.append word ≠ .eraseAll by simp)
  have hasked := h.asked.perform h.wired h.config_eq now
    (show (Operation.append word).clears = false from rfl)
  refine ⟨h.wired.perform now _, ?_, ?_, h.done_eq, h.duty_ne, h.not_mem, ?_⟩
  · exact (Log.config_perform ..).trans h.config_eq
  · rw [hnumber, h.number_eq]
    exact UInt16.add_zero _
  · rw [sent, h.wired.queue_perform, ← List.append_assoc]
    exact hasked

theorem AtWork.post (h : crew.AtWork config produced)
    (hasked : Asked config crew.station.log (crew.sent ++ [message]) produced) :
    AtWork config { crew with station := crew.station.post message } produced := by
  obtain ⟨hwired, hqueue⟩ := h.wired.post message
  refine ⟨hwired, h.config_eq, h.number_eq, h.done_eq, h.duty_ne, h.not_mem, ?_⟩
  rw [sent, hqueue, ← List.append_assoc]
  exact hasked

/-- Behind enough appends a request was sent. -/
theorem AtWork.finish (h : crew.AtWork config produced)
    (hquota : g.pageSize - config.headerSize.toNat - config.reserve.toNat ≤ produced) :
    (crew.act .finish).AtWork config produced := by
  refine h.post (.inl ?_)
  rcases h.asked with hrequest | ⟨-, hfree, hroom⟩
  · exact Message.mem_untilShutdown_append hrequest _
  · omega

/-- A message that is taken is still one of those that were sent. -/
theorem AtWork.take (h : crew.AtWork config produced) : crew.take.AtWork config produced := by
  unfold Crew.take
  split
  · rename_i message rest hduty hqueue
    have hsent : sent { crew with
        station := crew.station.withQueue rest, duty := .holding message } = crew.sent := by
      simp [sent, hduty, hqueue, Duty.held, Station.withQueue]
    refine ⟨⟨h.wired.latched, h.wired.isOpen, h.wired.collected⟩, h.config_eq, h.number_eq,
      h.done_eq, ?_, h.not_mem, ?_⟩
    · exact Duty.noConfusion
    · rw [hsent]
      exact h.asked
  · exact h

/-- The system task does what a message asks for. -/
theorem AtWork.attend (h : crew.AtWork config produced) (hduty : crew.duty = .holding message)
    (now : Instant) (hoperation : message.operation? = some operation) :
    (crew.attend now message).AtWork config produced := by
  have hne : message ≠ .shutdown := fun hshutdown => by
    rw [Message.operation?_eq_none.mpr hshutdown] at hoperation
    cases hoperation
  have hnumber := crew.station.number_perform now (Message.operation_ne_eraseAll hoperation)
  have hattend : crew.attend now message =
      ⟨crew.station.perform now operation, .waiting, crew.handled ++ [message],
        crew.done ++ [operation]⟩ := by
    rw [Crew.attend, hoperation]
  have hsent : crew.sent = crew.handled ++ [message] ++ crew.station.mailbox.queue := by
    rw [sent, hduty]
    rfl
  rw [hattend]
  refine ⟨h.wired.perform now _, ?_, ?_, ?_, Duty.noConfusion, ?_, ?_⟩
  · exact (Log.config_perform ..).trans h.config_eq
  · rw [hnumber, h.number_eq, List.count_append, UInt16.ofNat_add]
  · rw [List.filterMap_append, ← h.done_eq, List.filterMap_cons_some hoperation,
      List.filterMap_nil]
  · rw [List.mem_append, List.mem_singleton, not_or]
    exact ⟨h.not_mem, hne.symm⟩
  · have hgrown : sent ⟨crew.station.perform now operation, .waiting, crew.handled ++ [message],
        crew.done ++ [operation]⟩ = crew.sent ++ List.replicate
          (crew.station.log.perform now operation).outbox.rotationRequests .rotatePages := by
      rw [hsent, sent, h.wired.queue_perform]
      simp [Duty.held]
    rw [hgrown]
    by_cases hrequest : message = .rotatePages
    · refine .inl (Message.mem_untilShutdown_append (h.asked.request_mem (.inl ?_)) _)
      rw [hsent, hrequest]
      simp
    · exact (h.asked.perform h.wired h.config_eq now
        (Message.clears_eq_false hrequest hoperation)).of_succ

/-- The message that stops the system task finds a request handled already. -/
theorem AtWork.attend_shutdown (h : crew.AtWork config produced)
    (hduty : crew.duty = .holding .shutdown) (now : Instant) :
    (crew.attend now .shutdown).Stopped crew.handled := by
  have hsent : crew.sent = crew.handled ++ .shutdown :: crew.station.mailbox.queue := by
    rw [sent, hduty]
    simp [Duty.held]
  have hrequest := h.asked.request_mem (.inr (by rw [hsent]; simp))
  rw [hsent, Message.untilShutdown_append h.not_mem] at hrequest
  exact ⟨rfl, h.number_eq, h.done_eq, rfl, h.not_mem, hrequest⟩

/-- What each step leaves of the invariant. Before the producer asks the system task to stop, it has
made its appends. -/
theorem atWork_act (h : crew.AtWork config produced) (hdeed : deed.Regular)
    (hquota : deed = .finish →
      g.pageSize - config.headerSize.toNat - config.reserve.toNat ≤ produced) :
    (crew.act deed).AtWork config (produced + deed.produces.toNat) ∨
      ∃ before, (crew.act deed).Stopped before := by
  cases deed with
  | produce now word => exact .inl (h.append now word)
  | finish => exact .inl (h.finish (hquota rfl))
  | append now word => exact .inl (h.append now word).of_succ
  | post message =>
    refine .inl (h.post (h.asked.append ?_))
    rw [List.mem_singleton]
    exact hdeed.2.symm
  | take => exact .inl h.take
  | handle now =>
    cases hduty : crew.duty with
    | waiting =>
      simp only [act, hduty]
      exact .inl h
    | holding message =>
      simp only [act, hduty]
      cases hoperation : message.operation? with
      | some operation => exact .inl (h.attend hduty now hoperation)
      | none =>
        have hshutdown := Message.operation?_eq_none.mp hoperation
        subst hshutdown
        exact .inr ⟨_, h.attend_shutdown hduty now⟩
    | stopped => exact absurd hduty h.duty_ne

/-- Once the system task has stopped, nothing adds to its account. -/
theorem Stopped.act (h : crew.Stopped before) (deed : Deed) : (crew.act deed).Stopped before := by
  have happend : ∀ now word,
      Stopped { crew with station := crew.station.perform now (.append word) } before := by
    intro now word
    have hnumber :=
      crew.station.number_perform now (show Operation.append word ≠ .eraseAll by simp)
    refine ⟨h.duty_eq, ?_, h.done_eq, h.handled_eq, h.not_mem, h.request_mem⟩
    rw [hnumber, h.number_eq]
    exact UInt16.add_zero _
  have hpost : ∀ message, Stopped { crew with station := crew.station.post message } before :=
    fun _ => ⟨h.duty_eq, h.number_eq, h.done_eq, h.handled_eq, h.not_mem, h.request_mem⟩
  cases deed with
  | produce now word | append now word => exact happend now word
  | finish => exact hpost _
  | post message => exact hpost _
  | take | handle now =>
    simp only [Crew.act, Crew.take, h.duty_eq]
    exact h

theorem atWork_follow (hstart : crew.AtWork config 0) {deeds : List Deed}
    (hdeeds : ∀ deed ∈ deeds, deed.Regular)
    (hquota : ∀ steps ∈ deeds.inits, steps.getLast? = some .finish →
      g.pageSize - config.headerSize.toNat - config.reserve.toNat ≤
        steps.countP Deed.produces) :
    (crew.follow deeds).AtWork config (deeds.countP Deed.produces) ∨
      ∃ before, (crew.follow deeds).Stopped before := by
  induction deeds using List.reverseRecOn with
  | nil => exact .inl hstart
  | append_singleton earlier deed ih =>
    have hbefore := ih (fun other hother => hdeeds other (List.mem_append_left _ hother))
      fun steps hsteps => hquota steps ((List.mem_inits _ _).mpr
        (((List.mem_inits _ _).mp hsteps).trans (List.prefix_append _ _)))
    have hfollow : crew.follow (earlier ++ [deed]) = (crew.follow earlier).act deed := by
      rw [follow, List.foldl_concat, ← follow]
    have hcount : (earlier ++ [deed]).countP Deed.produces =
        earlier.countP Deed.produces + deed.produces.toNat := by
      rw [List.countP_append, List.countP_singleton]
      cases deed.produces <;> rfl
    rw [hfollow, hcount]
    rcases hbefore with hwork | ⟨before, hstopped⟩
    · refine atWork_act hwork (hdeeds deed List.mem_concat_self) ?_
      rintro rfl
      have hmade := hquota (earlier ++ [.finish])
        ((List.mem_inits _ _).mpr (List.prefix_refl _)) List.getLast?_concat
      rw [hcount] at hmade
      exact hmade
    · exact .inr ⟨before, hstopped.act deed⟩

/-! ## The start and the stop -/

theorem atWork_start (hpages : g.pages < 65536) (hfits : config.Fits g) (now : Instant) :
    ∃ log, Log.boot { medium := Medium.blank g } config now = .ok log ∧
      (start log).AtWork config 0 := by
  obtain ⟨log, hboot, hpushed⟩ :=
    Device.boot_of_fits ({ medium := Medium.blank g } : Chip g) hfits now
  obtain ⟨hlatched, hconfig, hiff, hrequests⟩ := Log.latched_boot hboot
  have hunformatted : ({ medium := Medium.blank g } : Chip g).medium.isUnformatted :=
    Medium.isUnformatted_blank g
  have hfound := Log.found_of_unformatted hunformatted hfits.accepted
  obtain ⟨hstep, -, hpage, hnone⟩ := Log.fullRing_recover_format rfl hfits hpages hfound
  have hfree : log.free = g.pageSize - config.headerSize.toNat - 1 := by
    have hused := hstep.used_eq
    rw [hnone _ (Log.slot_lt _), List.length_nil] at hused
    rw [hpushed.free_eq, Log.free, hused, hpage]
    rfl
  have hqueue : (start log).sent = List.replicate log.outbox.rotationRequests .rotatePages := by
    simp [sent, start, Station.share, Station.deliver, Log.collect, Mailbox.sendAll_of_open,
      Duty.held]
  have hnumber : log.page.number = 0 := by
    rw [hpushed.page_eq, hpage]
    rfl
  have hwired : Station.Wired (Station.deliver { log }) := Station.wired_deliver hlatched rfl
  refine ⟨log, hboot, hwired, hconfig, hnumber, rfl, Duty.noConfusion, List.not_mem_nil,
    ?_⟩
  rw [hqueue, hrequests]
  by_cases hlow : log.Low
  · left
    rw [hiff.mpr hlow]
    exact List.mem_cons_self
  · right
    have hlog : (start log).station.log.free = log.free := rfl
    have hneeded := hfits.needed_le
    rw [Log.Low, hconfig] at hlow
    refine ⟨by simp, ?_, ?_⟩ <;> rw [hlog] <;> omega

/-- When the system task stops, it has carried out what each message asks for that was sent ahead of
the one that stops it. Among these is a request for a rotation, so it has rotated the log once for
each of them, and at least once. -/
theorem Stopped.account (h : crew.Stopped before) :
    crew.done = (Message.untilShutdown crew.sent).filterMap Message.operation? ∧
      crew.done.count .rotate = (Message.untilShutdown crew.sent).count .rotatePages ∧
      1 ≤ crew.done.count .rotate := by
  have hbefore : Message.untilShutdown crew.sent = before := by
    rw [sent, h.handled_eq, List.append_assoc, List.append_assoc, List.singleton_append,
      Message.untilShutdown_append h.not_mem]
  rw [hbefore, h.done_eq, Message.count_filterMap_operation?]
  exact ⟨rfl, rfl, List.one_le_count_iff.mpr h.request_mem⟩

/-- A device is started for the first time. Its producer appends words, at least as many as a page
has room for beside the reserve, and then asks the system task to stop; other tasks append and send
messages, and the system task takes and handles messages, in whatever order these steps are made. If
the system task has stopped, it has carried out what each message asked for that was sent before it
was asked to stop. So it has rotated the log once for each request among them, and at least once, as
the number of the page being written says. -/
theorem rotations_stopped (hpages : g.pages < 65536) {config : Config} (hfits : config.Fits g)
    (now : Instant) : ∃ log, Log.boot { medium := Medium.blank g } config now = .ok log ∧
      ∀ deeds : List Deed, (∀ deed ∈ deeds, deed.Regular) →
        (∀ steps ∈ deeds.inits, steps.getLast? = some .finish →
          g.pageSize - config.headerSize.toNat - config.reserve.toNat ≤
            steps.countP Deed.produces) →
        ∀ crew, (start log).follow deeds = crew → crew.duty = .stopped →
          crew.done = (Message.untilShutdown crew.sent).filterMap Message.operation? ∧
          crew.done.count .rotate = (Message.untilShutdown crew.sent).count .rotatePages ∧
          1 ≤ crew.done.count .rotate ∧
          crew.station.log.page.number = UInt16.ofNat (crew.done.count .rotate) := by
  obtain ⟨log, hboot, hstart⟩ := atWork_start hpages hfits now
  refine ⟨log, hboot, fun deeds hdeeds hquota crew hcrew hduty => ?_⟩
  rcases atWork_follow hstart hdeeds hquota with hwork | ⟨before, hstopped⟩
  · rw [hcrew] at hwork
    exact absurd hduty hwork.duty_ne
  · rw [hcrew] at hstopped
    obtain ⟨hdone, hcount, hpos⟩ := hstopped.account
    exact ⟨hdone, hcount, hpos, hstopped.number_eq⟩

/-- The first request is handled in the middle of the burst, the second one waits ahead of the
shutdown, and a third one comes too late. -/
theorem rotations_stopped_burst :
    let deeds : List Deed := [.produce ⟨0⟩ 7, .take, .post .bleConnected, .handle ⟨0⟩,
      .produce ⟨0⟩ 8, .finish, .take, .handle ⟨0⟩, .take, .handle ⟨0⟩, .append ⟨0⟩ 9, .take,
      .handle ⟨0⟩]
    (∀ deed ∈ deeds, deed.Regular) ∧
      (∀ steps ∈ deeds.inits, steps.getLast? = some .finish → 4 - 1 - 1 ≤
        steps.countP Deed.produces) ∧
      ∃ log, Log.boot { medium := Medium.blank ⟨2, 4⟩ } ⟨1, 1⟩ ⟨0⟩ = .ok log ∧
        ((start log).follow deeds).duty = .stopped ∧
        ((start log).follow deeds).done = [.rotate, .occurred .bleConnect, .rotate] ∧
        ((start log).follow deeds).station.log.page.number = 2 := by
  intro deeds
  have hdeeds : ∀ deed ∈ deeds, deed.Regular := by decide
  have hquota : ∀ steps ∈ deeds.inits, steps.getLast? = some .finish →
      4 - 1 - 1 ≤ steps.countP Deed.produces := by decide
  have hfits : (⟨1, 1⟩ : Config).Fits ⟨2, 4⟩ := by decide
  obtain ⟨log, hboot, hstops⟩ := rotations_stopped (by decide) hfits ⟨0⟩
  obtain ⟨other, hother, hduty, hsent⟩ : ∃ log,
      Log.boot { medium := Medium.blank ⟨2, 4⟩ } ⟨1, 1⟩ ⟨0⟩ = .ok log ∧
      ((start log).follow deeds).duty = .stopped ∧
      Message.untilShutdown ((start log).follow deeds).sent =
        [.rotatePages, .bleConnected, .rotatePages] :=
    ⟨_, rfl, by decide +kernel, by decide +kernel⟩
  rw [hboot] at hother
  cases hother
  obtain ⟨hdone, -, -, hnumber⟩ := hstops deeds hdeeds hquota _ rfl hduty
  rw [hsent] at hdone
  rw [hdone] at hnumber
  exact ⟨hdeeds, hquota, log, hboot, hduty, hdone, hnumber⟩

end Crew

end RingLog

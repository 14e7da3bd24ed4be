import Mathlib.Data.List.Forall2
import RingLog.Proofs.Device.Shutdown
import RingLog.Proofs.Format.Codec
import RingLog.Proofs.Log.Spare

/-!
# What the system task leaves in the log

A message that tells something leaves a record of that in the log, perhaps behind a record of the
time, and a message that the clock was set leaves an anchor (`Message.Yields`). The system task
heeds the messages of its channel up to the first one that asks it to stop, and the log grows by
what each of these leaves, in order (`Station.Serves`).

That takes two slots for each message, and they have to be erased. On a device that was given the
erased word as a record a slot that is free may hold another record, and what a message leaves there
is merged with that.

Main statements: `Station.serves_run` and `Station.not_serves`.
-/

namespace RingLog

variable {g : Geometry}

namespace Message

/-- The record of what a message tells, if it tells anything. -/
def record? : Message → Option Record
  | chargingChanged true => some (.ofOccurrence .chargeStart)
  | chargingChanged false => some (.ofOccurrence .chargeStop)
  | batteryMillivolts millivolts => some (.ofSample .batteryVoltage millivolts)
  | stepCount steps => some (.ofSample .steps steps)
  | bleConnected => some (.ofOccurrence .bleConnect)
  | bleDisconnected => some (.ofOccurrence .bleDisconnect)
  | dfuStarted => some (.ofOccurrence .dfuStart)
  | dfuFinished => some (.ofOccurrence .dfuStop)
  | rotatePages | timeSynced | shutdown => none

end Message

/-- The anchor of a moment, as it is read back. -/
def Record.anchorAt (now : Instant) : Record :=
  (Record.anchor (UInt32.ofNat now.seconds)).reduced

/-- The records that a message leaves in a log: of what it tells, with at most one record of the
time ahead, or a single anchor if the clock was set. -/
inductive Message.Yields (now : Instant) : Message → List Record → Prop
  | told {message : Message} {record : Record} (htells : message.record? = some record) :
    Yields now message [record]
  | behindElapsed {message : Message} {record : Record} {millis : Nat}
    (htells : message.record? = some record) (hpos : 0 < millis)
    (hle : millis ≤ Record.maxElapsed) :
    Yields now message [.elapsed (UInt32.ofNat millis), record]
  | behindAnchor {message : Message} {record : Record}
    (htells : message.record? = some record) :
    Yields now message [.anchorAt now, record]
  | synced : Yields now .timeSynced [.anchorAt now]

/-- Messages leave groups of records, one after another. -/
def Message.YieldAll (sent : List (Instant × Message)) (groups : List (List Record)) : Prop :=
  List.Forall₂ (fun sent records => sent.2.Yields sent.1 records) sent groups

/-! ## Records and words -/

namespace Record

/-- The word of a record says no more than what is read back. -/
theorem encode_reduced (record : Record) : record.reduced.encode = record.encode := by
  have hdescribes := describes_decode record.encode
  rw [decode_encode] at hdescribes
  exact hdescribes.2.2

theorem encode_anchorAt (now : Instant) : (anchorAt now).encode = anchorWord now :=
  encode_reduced _

end Record

namespace Message

variable {message : Message} {record : Record} {records : List Record} {now : Instant}
  {sent : List (Instant × Message)} {groups : List (List Record)}

theorem inRange_of_record? (h : message.record? = some record) : record.InRange := by
  cases message with
  | chargingChanged charging => cases charging <;> cases h <;> decide
  | batteryMillivolts millivolts | stepCount steps =>
    cases h
    trivial
  | rotatePages | timeSynced | shutdown => cases h
  | _ =>
    cases h
    decide

theorem Yields.length_le (h : message.Yields now records) : records.length ≤ 2 := by
  cases h <;> simp

/-- The record of what a message tells comes last. -/
theorem Yields.getLast?_eq (h : message.Yields now records)
    (htells : message.record? = some record) : records.getLast? = some record := by
  cases h with
  | told hsame | behindElapsed hsame | behindAnchor hsame =>
    rw [htells] at hsame
    cases hsame
    rfl
  | synced => cases htells

/-- What a message leaves is read back as it is. -/
theorem Yields.inRange (h : message.Yields now records) : ∀ record ∈ records, record.InRange := by
  have hanchor := (Record.anchor (UInt32.ofNat now.seconds)).inRange_reduced
  cases h with
  | told htells =>
    rw [List.forall_mem_singleton]
    exact inRange_of_record? htells
  | behindElapsed htells hpos hle =>
    rw [List.forall_mem_cons, List.forall_mem_singleton]
    refine ⟨?_, inRange_of_record? htells⟩
    rw [Record.maxElapsed] at hle
    rw [Record.InRange, UInt32.toNat_ofNat']
    omega
  | behindAnchor htells =>
    rw [List.forall_mem_cons, List.forall_mem_singleton]
    exact ⟨hanchor, inRange_of_record? htells⟩
  | synced =>
    rw [List.forall_mem_singleton]
    exact hanchor

/-- A message takes at most two slots. -/
theorem YieldAll.length_flatten_le (h : YieldAll sent groups) :
    groups.flatten.length ≤ 2 * sent.length := by
  induction h with
  | nil => exact Nat.le_refl _
  | cons hyields _ ih =>
    have hlength := hyields.length_le
    rw [List.flatten_cons, List.length_append, List.length_cons]
    omega

theorem YieldAll.inRange (h : YieldAll sent groups) :
    ∀ record ∈ groups.flatten, record.InRange := by
  induction h with
  | nil => exact fun _ hmem => by cases hmem
  | cons hyields _ ih =>
    rw [List.flatten_cons, List.forall_mem_append]
    exact ⟨hyields.inRange, ih⟩

end Message

/-! ## One message -/

namespace Log

variable {message : Message} {operation : Operation}

/-- A record behind the time since the reference is what a message leaves that tells of it. -/
theorem exists_yields_record (log : Log g) (now : Instant) {record : Record}
    (htells : message.record? = some record) : ∃ records, message.Yields now records ∧
      log.Pushed (log.perform now (.record record)) (records.map Record.encode) := by
  have hpushed := log.pushed_append now record.encode
  unfold elapsedWords at hpushed
  dsimp only at hpushed
  split at hpushed
  · refine ⟨_, .behindAnchor htells, ?_⟩
    rw [List.map_cons, Record.encode_anchorAt]
    exact hpushed
  · split at hpushed
    · exact ⟨_, .told htells, hpushed⟩
    · exact ⟨_, .behindElapsed htells (by omega) (by omega), hpushed⟩

/-- An operation that a message asks for, other than a rotation, writes what the message leaves. -/
theorem exists_yields_perform (log : Log g) (now : Instant) (hother : message ≠ .rotatePages)
    (hoperation : message.operation? = some operation) :
    ∃ records, message.Yields now records ∧
      log.Pushed (log.perform now operation) (records.map Record.encode) := by
  cases message with
  | rotatePages => exact absurd rfl hother
  | shutdown => cases hoperation
  | timeSynced =>
    cases hoperation
    refine ⟨_, .synced, ?_⟩
    rw [List.map_singleton, Record.encode_anchorAt]
    exact log.pushed_anchorTime now
  | chargingChanged charging =>
    cases charging <;>
    · cases hoperation
      exact log.exists_yields_record now rfl
  | _ =>
    cases hoperation
    exact log.exists_yields_record now rfl

end Log

namespace Station

variable {station : Station g} {channel : List (Instant × Message)} {groups : List (List Record)}

/-- The messages of a channel ahead of the first one that asks the task to stop. -/
def heeded (channel : List (Instant × Message)) : List (Instant × Message) :=
  channel.takeWhile (·.2 ≠ .shutdown)

/-- The system task adds to the log what each of the messages leaves that it heeds, and ends. The
messages behind these make no difference to the log. -/
structure Serves (station : Station g) (channel : List (Instant × Message))
    (groups : List (List Record)) : Prop where
  yields : Message.YieldAll (heeded channel) groups
  decode_eq : ∀ record ∈ groups.flatten, Record.decode record.encode = .valid record
  entries_eq : (station.serve channel).log.entries = station.log.entries ++
    groups.flatten.mapIdx fun index record =>
      ⟨station.log.page.position g (station.log.used + index), record.encode⟩
  log_eq : (station.serve channel).log = (station.serve (heeded channel)).log
  ends : (station.serve channel).notices.getLast? =
    some (if .shutdown ∈ channel.map Prod.snd then .taskStopping else .channelClosed)

/-! ## One message after another -/

/-- The cases of the task's loop: the channel is at its end, the next message asks the task to stop,
or the task carries it out and goes on. -/
theorem channel_induction {P : List (Instant × Message) → Prop} (closed : P [])
    (stopped : ∀ now rest, P ((now, .shutdown) :: rest))
    (heeded : ∀ now message operation rest, message ≠ .shutdown →
      message.operation? = some operation → P rest → P ((now, message) :: rest)) :
    ∀ channel, P channel := by
  intro channel
  induction channel with
  | nil => exact closed
  | cons sent rest ih =>
    obtain ⟨now, message⟩ := sent
    cases hoperation : message.operation? with
    | none =>
      rw [Message.operation?_eq_none.mp hoperation]
      exact stopped now rest
    | some operation =>
      refine heeded now message operation rest ?_ hoperation ih
      rintro rfl
      cases hoperation

theorem heeded_cons {message : Message} (h : message ≠ .shutdown) (now : Instant)
    (rest : List (Instant × Message)) :
    heeded ((now, message) :: rest) = (now, message) :: heeded rest :=
  List.takeWhile_cons_of_pos (decide_eq_true h)

/-- A message that does not ask the task to stop is carried out, and the task goes on. -/
theorem serveAll_cons {now : Instant} {message : Message} {operation : Operation}
    (hoperation : message.operation? = some operation) (rest : List (Instant × Message))
    (station : Station g) : serveAll ((now, message) :: rest) station =
      serveAll rest (station.perform now operation) := by
  rw [serveAll, hoperation]

/-- What the task heeds is all that it writes. -/
theorem exists_yields_serveAll (hmessages : ∀ sent ∈ channel, sent.2 ≠ .rotatePages)
    (station : Station g) : ∃ groups, Message.YieldAll (heeded channel) groups ∧
      station.log.Pushed (serveAll channel station).log (groups.flatten.map Record.encode) := by
  -- what is written for one message is followed by what is written for the others
  induction channel using channel_induction generalizing station with
  | closed => exact ⟨[], .nil, .refl _⟩
  | stopped now rest => exact ⟨[], .nil, .refl _⟩
  | heeded now message operation rest hmessage hoperation ih =>
    rw [List.forall_mem_cons] at hmessages
    obtain ⟨records, hyields, hpushed⟩ :=
      station.log.exists_yields_perform now hmessages.1 hoperation
    obtain ⟨groups, hrest, hpushed'⟩ := ih hmessages.2 (station.perform now operation)
    have hperform : station.log.Pushed (station.perform now operation).log
        (records.map Record.encode) :=
      hpushed.of_eq ⟨rfl, rfl, rfl, rfl⟩ ⟨rfl, rfl, rfl, rfl⟩
    refine ⟨records :: groups, ?_, ?_⟩
    · rw [heeded_cons hmessage]
      exact .cons hyields hrest
    · rw [serveAll_cons hoperation, List.flatten_cons, List.map_append]
      exact hperform.trans hpushed'

theorem log_serveAll_heeded (channel : List (Instant × Message)) (station : Station g) :
    (serveAll channel station).log = (serveAll (heeded channel) station).log := by
  induction channel using channel_induction generalizing station with
  | closed => rfl
  | stopped now rest => rfl
  | heeded now message operation rest hmessage hoperation ih =>
    rw [heeded_cons hmessage, serveAll_cons hoperation, serveAll_cons hoperation]
    exact ih _

theorem getLast?_tell (station : Station g) (notice : Notice) :
    (station.tell [notice]).notices.getLast? = some notice :=
  List.getLast?_concat

/-- The task says in the end why it ended. -/
theorem getLast?_serveAll (channel : List (Instant × Message)) (station : Station g) :
    (serveAll channel station).notices.getLast? =
      some (if .shutdown ∈ channel.map Prod.snd then .taskStopping else .channelClosed) := by
  induction channel using channel_induction generalizing station with
  | closed => exact getLast?_tell station _
  | stopped now rest =>
    rw [List.map_cons, if_pos List.mem_cons_self]
    exact getLast?_tell station _
  | heeded now message operation rest hmessage hoperation ih =>
    rw [serveAll_cons hoperation, ih, List.map_cons]
    simp only [List.mem_cons, Ne.symm hmessage, false_or]

theorem length_heeded_le (channel : List (Instant × Message)) :
    (heeded channel).length ≤ channel.length :=
  (List.takeWhile_prefix _).length_le

theorem mapIdx_map_encode (records : List Record) (entry : Nat → Word → Entry) :
    (records.map Record.encode).mapIdx entry =
      records.mapIdx fun index record => entry index record.encode :=
  List.ext_getElem (by simp) fun _ _ _ => by simp

theorem map_word_mapIdx (records : List Record) (position : Nat → Position) :
    (records.mapIdx fun index record => (⟨position index, record.encode⟩ : Entry)).map Entry.word =
      records.map Record.encode :=
  List.ext_getElem (by simp) fun _ _ _ => by simp

/-- A log with enough erased slots ahead takes what the task writes. -/
theorem exists_serves (hguarded : station.log.Guarded)
    (hmessages : ∀ sent ∈ channel, sent.2 ≠ .rotatePages)
    (hfree : 2 * channel.length ≤ station.log.free)
    (hclean : station.log.Clean (2 * channel.length)) :
    ∃ groups, station.Serves channel groups := by
  obtain ⟨groups, hyields, hpushed⟩ :=
    exists_yields_serveAll hmessages (station.tell [.taskStarted])
  have hlength : groups.flatten.length ≤ 2 * channel.length :=
    hyields.length_flatten_le.trans (Nat.mul_le_mul_left 2 (length_heeded_le channel))
  refine ⟨groups, hyields, fun record hmem => ?_, ?_, log_serveAll_heeded channel _,
    getLast?_serveAll channel _⟩
  · rw [Record.decode_encode, Record.reduced_of_inRange (hyields.inRange record hmem)]
  · have hentries := hguarded.entries_pushed hpushed
      (by rw [List.length_map]; exact hlength.trans hfree)
      (fun index hindex => hclean index (by rw [List.length_map] at hindex; omega))
    rw [mapIdx_map_encode] at hentries
    exact hentries

theorem Serves.map_word_entries (h : station.Serves channel groups) :
    (station.serve channel).log.entries.map Entry.word =
      station.log.entries.map Entry.word ++ groups.flatten.map Record.encode := by
  rw [h.entries_eq, List.map_append, map_word_mapIdx]

/-- The system task is given messages, none of which asks for a rotation, on a device that has come
through any events. The page has two free slots for each message, and no event gave the log an
erased word, or these slots are erased all the same. Then the log grows by what each message leaves
that the task heeds, in order, and by nothing else. -/
theorem serves_run {events : List Event} {outbox : Outbox}
    (hrun : (Device.new g).run events = .running { station.log with outbox })
    (hmessages : ∀ sent ∈ channel, sent.2 ≠ .rotatePages)
    (hfree : 2 * channel.length ≤ station.log.free)
    (herased : (∀ event ∈ events, event.action.Regular g) ∨
      station.log.Clean (2 * channel.length)) :
    ∃ groups, station.Serves channel groups := by
  have hguarded := Device.guarded_run hrun
  refine exists_serves ⟨hguarded.powered, hguarded.behind_header, hguarded.dropped_le⟩ hmessages
    hfree ?_
  rcases herased with hevents | hclean
  · exact Device.clean_run hevents hrun _
  · exact hclean

/-- The task is told of the charger, that the clock was set and of steps, and then to stop. -/
theorem serves_run_stopped :
    let start : Instant := .ofSeconds 100
    let later : Instant := .ofSeconds 101
    let events : List Event := [⟨.boot ⟨2, 1⟩ start, none⟩]
    let channel : List (Instant × Message) :=
      [(start.addMillis 5, .chargingChanged true), (later, .timeSynced), (later, .stepCount 7),
        (later, .shutdown), (later, .bleConnected)]
    (∀ event ∈ events, event.action.Regular ⟨2, 16⟩) ∧
      (∀ sent ∈ channel, sent.2 ≠ .rotatePages) ∧
      ∃ log, (Device.new ⟨2, 16⟩).run events = .running log ∧
        2 * channel.length ≤ (share log).log.free ∧
        ∃ groups, (share log).Serves channel groups ∧
          groups.flatten.map Record.encode = [0x80000005, 0x81000005, 101, 0x82030007] := by
  intro start later events channel
  have hevents : ∀ event ∈ events, event.action.Regular ⟨2, 16⟩ := by decide
  have hmessages : ∀ sent ∈ channel, sent.2 ≠ .rotatePages := by decide
  obtain ⟨log, hrun, hfree, hbefore, hafter⟩ :
      ∃ log, (Device.new ⟨2, 16⟩).run events = .running log ∧
        2 * channel.length ≤ (share log).log.free ∧
        (share log).log.entries.map Entry.word = [100] ∧
        ((share log).serve channel).log.entries.map Entry.word =
          [100, 0x80000005, 0x81000005, 101, 0x82030007] :=
    ⟨_, rfl, by decide +kernel, by decide +kernel, by decide +kernel⟩
  have hstation : (Device.new ⟨2, 16⟩).run events =
      .running { (share log).log with outbox := log.outbox } := hrun
  obtain ⟨groups, hserves⟩ := serves_run hstation hmessages hfree (.inl hevents)
  have hwords := hserves.map_word_entries
  rw [hafter, hbefore] at hwords
  exact ⟨hevents, hmessages, log, hrun, hfree, groups, hserves, (List.cons.inj hwords).2.symm⟩

/-- A log is given the erased word and then a record that a connection was made. Behind the next
boot the slot of this record is free, and with its word a record that the charger started makes one
of a software reset. -/
theorem not_serves : ¬∀ (g : Geometry) (actions : List Action) (log : Log g), g.pages < 65536 →
    (∀ action ∈ actions, ∀ config now, action = .boot config now → config.Fits g) →
    (Device.new g).actAll actions = .running log →
    ∀ channel : List (Instant × Message), (∀ sent ∈ channel, sent.2 ≠ .rotatePages) →
      2 * channel.length ≤ log.free → ∃ groups, (share log).Serves channel groups := by
  intro hserves
  let now : Instant := .ofSeconds 100
  let actions : List Action := [.boot ⟨2, 1⟩ now, .perform now (.append Word.erased),
    .perform now (.occurred .bleConnect), .boot ⟨2, 1⟩ now]
  let channel : List (Instant × Message) := [(now, .chargingChanged true)]
  have hview : (match (Device.new ⟨2, 16⟩).actAll actions with
      | .running log => some (log.free, (share log).log.entries.map Entry.word,
          ((share log).serve channel).log.entries.map Entry.word)
      | .off _ => none) = some (13, [100, 100], [100, 100, 0x81000001]) := by decide +kernel
  have hactions : ∀ action ∈ actions, ∀ config now, action = .boot config now →
      config.Fits ⟨2, 16⟩ := by
    have hfits : (⟨2, 1⟩ : Config).Fits ⟨2, 16⟩ := by decide
    rintro action hmem config now rfl
    simp only [actions, List.mem_cons, List.not_mem_nil, or_false, Action.boot.injEq,
      reduceCtorEq, false_or] at hmem
    rcases hmem with ⟨rfl, -⟩ | ⟨rfl, -⟩ <;> exact hfits
  cases hrun : (Device.new ⟨2, 16⟩).actAll actions with
  | off chip =>
    rw [hrun] at hview
    cases hview
  | running log =>
    rw [hrun] at hview
    simp only [Option.some.injEq, Prod.mk.injEq] at hview
    obtain ⟨hfree, hbefore, hafter⟩ := hview
    obtain ⟨groups, hserved⟩ :=
      hserves _ actions log (by decide) hactions hrun channel (by decide) (hfree ▸ by decide)
    have hwords := hserved.map_word_entries
    rw [hafter, hbefore] at hwords
    have hgroups : Message.YieldAll channel groups := hserved.yields
    obtain ⟨records, others, hyields, hnone, rfl⟩ := List.forall₂_cons_left_iff.mp hgroups
    obtain rfl := List.forall₂_nil_left_iff.mp hnone
    have hlast : (records.map Record.encode).getLast? = some 0x81000001 := by
      rw [List.flatten_singleton] at hwords
      exact congrArg List.getLast? (@List.append_cancel_left _ [100, 100] _ _ hwords).symm
    rw [List.getLast?_map, hyields.getLast?_eq rfl] at hlast
    exact absurd hlast (by decide)

end Station

end RingLog

import Mathlib.Data.List.Chain
import RingLog.Device.Battery

/-!
# What is told of charger and battery

A watch makes a burst of messages of each sample: none, one or two. What it knows is what it has
told so far (`ChargeWatch.recalled`), so the messages of a sample are determined by the messages
before it.

`ChargeWatch.Summarises` says of the bursts what somebody who receives them relies on. It leaves no
choice: bursts that summarise some samples are those that the watch makes of them.

Main statement: `ChargeWatch.summarises_iff`.
-/

namespace RingLog

/-- A sample of battery and charger. -/
structure ChargeSample where
  millivolts : UInt16
  charging : Bool
  deriving DecidableEq, Repr

namespace Message

/-- What the messages tell of the charger, in order. -/
def edges (messages : List Message) : List Bool :=
  messages.filterMap fun
    | chargingChanged charging => some charging
    | _ => none

/-- What the messages tell of the battery, in order. -/
def voltages (messages : List Message) : List UInt16 :=
  messages.filterMap fun
    | batteryMillivolts millivolts => some millivolts
    | _ => none

/-- The messages that tell of the charger first and then of the battery, of either or none. -/
def burst (edge : Option Bool) (voltage : Option UInt16) : List Message :=
  edge.toList.map chargingChanged ++ voltage.toList.map batteryMillivolts

variable {edge : Option Bool} {voltage : Option UInt16}

@[simp] theorem edges_append (first second : List Message) :
    edges (first ++ second) = edges first ++ edges second :=
  List.filterMap_append

@[simp] theorem voltages_append (first second : List Message) :
    voltages (first ++ second) = voltages first ++ voltages second :=
  List.filterMap_append

@[simp] theorem edges_burst (edge : Option Bool) (voltage : Option UInt16) :
    edges (burst edge voltage) = edge.toList := by
  cases edge <;> cases voltage <;> rfl

@[simp] theorem voltages_burst (edge : Option Bool) (voltage : Option UInt16) :
    voltages (burst edge voltage) = voltage.toList := by
  cases edge <;> cases voltage <;> rfl

end Message

namespace ChargeWatch

open Message (edges voltages burst)

/-- The bursts of messages that samples give rise to, one after another. -/
def bursts (watch : ChargeWatch) : List ChargeSample → List (List Message)
  | [] => []
  | sample :: rest =>
    let (messages, watch) := watch.sample sample.millivolts sample.charging
    messages :: watch.bursts rest

/-- Takes a sample and puts its messages into a mailbox. -/
def report (state : ChargeWatch × Mailbox) (sample : ChargeSample) : ChargeWatch × Mailbox :=
  let (messages, watch) := state.1.sample sample.millivolts sample.charging
  (watch, state.2.sendAll messages)

/-- Behind each sample, `P` holds of the messages sent up to then and the sample. -/
def BehindEach (P : List Message → ChargeSample → Prop) (samples : List ChargeSample)
    (bursts : List (List Message)) : Prop :=
  ∀ earlier sample, earlier ++ [sample] <+: samples →
    P (bursts.take (earlier.length + 1)).flatten sample

/-- Two voltages lie at least so far apart that the second one is news. -/
def Apart (earlier later : UInt16) : Prop :=
  50 ≤ ((later.toNat : Int) - earlier.toNat).natAbs

/-- There is a burst for each sample, with the charger ahead of the battery. The charger is told of
in turns, at first when it starts, and always as it was last sampled. The voltage is told of at the
first sample, as it was sampled, each time far from the one told before; and the one that was last
told is close to the one last sampled. -/
structure Summarises (samples : List ChargeSample) (bursts : List (List Message)) : Prop where
  length_eq : bursts.length = samples.length
  ordered : ∀ messages ∈ bursts, ∃ edge voltage, messages = burst edge voltage
  starts : ∀ edge ∈ (edges bursts.flatten).head?, edge = true
  alternate : (edges bursts.flatten).IsChain (· ≠ ·)
  current : BehindEach
    (fun sent sample => (edges sent).getLastD false = sample.charging) samples bursts
  first : ∀ sample ∈ samples.head?, ∀ messages ∈ bursts.head?,
    voltages messages = [sample.millivolts]
  caused : ∀ pair ∈ samples.zip bursts, ∀ millivolts ∈ voltages pair.2,
    millivolts = pair.1.millivolts
  far : (voltages bursts.flatten).IsChain Apart
  near : BehindEach (fun sent sample => ∃ last ∈ (voltages sent).getLast?,
    ¬Apart last sample.millivolts) samples bursts

/-- The watch that has told of charger and battery what the messages tell. -/
def recalled (sent : List Message) : ChargeWatch :=
  ⟨(edges sent).getLastD false, (voltages sent).getLast?⟩

variable {watch : ChargeWatch} {edge : Option Bool} {voltage : Option UInt16}
  {samples : List ChargeSample} {sample : ChargeSample} {told : List (List Message)}
  {messages : List Message} {P : List Message → ChargeSample → Prop}

/-! ## One sample -/

/-- The news of the charger. -/
def edge? (watch : ChargeWatch) (charging : Bool) : Option Bool :=
  if charging = watch.charging then none else some charging

/-- The news of the battery. -/
def voltage? (watch : ChargeWatch) (millivolts : UInt16) : Option UInt16 :=
  if watch.hasMoved millivolts then some millivolts else none

theorem sample_eq (watch : ChargeWatch) (millivolts : UInt16) (charging : Bool) :
    watch.sample millivolts charging =
      (burst (watch.edge? charging) (watch.voltage? millivolts),
        ⟨charging, (watch.voltage? millivolts).or watch.reported⟩) := by
  unfold sample edge? voltage?
  split <;> split <;> rfl

theorem apart_iff (earlier later : UInt16) :
    Apart earlier later ↔ reportDelta ≤ apart earlier later := by
  rw [Apart, apart, reportDelta]
  omega

theorem hasMoved_iff (watch : ChargeWatch) (millivolts : UInt16) :
    watch.hasMoved millivolts ↔ ∀ last ∈ watch.reported, Apart last millivolts := by
  unfold hasMoved
  cases watch.reported with
  | none => simp
  | some last => simp [apart_iff]

theorem edge?_eq_iff (watch : ChargeWatch) (charging : Bool) : edge = watch.edge? charging ↔
    (∀ told ∈ edge, watch.charging ≠ told) ∧ edge.getD watch.charging = charging := by
  unfold edge?
  by_cases hsame : charging = watch.charging
  · rw [if_pos hsame, hsame]
    cases edge with
    | none => simp
    | some told => simpa using fun hne => Ne.symm hne
  · rw [if_neg hsame]
    cases edge with
    | none => simpa using Ne.symm hsame
    | some told =>
      simp only [Option.some.injEq, Option.mem_some_iff, forall_eq', Option.getD_some,
        iff_and_self]
      rintro rfl
      exact Ne.symm hsame

theorem voltage?_eq_iff (watch : ChargeWatch) (millivolts : UInt16) :
    voltage = watch.voltage? millivolts ↔ (∀ told ∈ voltage, told = millivolts) ∧
      (∀ last ∈ watch.reported, ∀ told ∈ voltage, Apart last told) ∧
      ∃ last ∈ voltage.or watch.reported, ¬Apart last millivolts := by
  have hself : ¬Apart millivolts millivolts := by
    rw [Apart]
    omega
  unfold voltage?
  by_cases hmoved : watch.hasMoved millivolts
  · rw [if_pos hmoved]
    rw [hasMoved_iff] at hmoved
    cases voltage with
    | none => simpa using hmoved
    | some told =>
      simp only [Option.some.injEq, Option.mem_some_iff, forall_eq', Option.some_or,
        exists_eq_left', iff_self_and]
      rintro rfl
      exact ⟨hmoved, hself⟩
  · rw [if_neg hmoved]
    rw [hasMoved_iff] at hmoved
    push Not at hmoved
    cases voltage with
    | none => simpa using hmoved
    | some told =>
      obtain ⟨last, hlast, hclose⟩ := hmoved
      simp only [reduceCtorEq, Option.mem_some_iff, forall_eq', false_iff, not_and]
      rintro rfl hfar
      exact absurd (hfar last hlast) hclose

/-! ## What was told before -/

theorem getLastD_append_toList {α : Type} (list : List α) (option : Option α) (default : α) :
    (list ++ option.toList).getLastD default = option.getD (list.getLastD default) := by
  cases option <;> simp

theorem getLast?_append_toList {α : Type} (list : List α) (option : Option α) :
    (list ++ option.toList).getLast? = option.or list.getLast? := by
  cases option <;> simp

theorem isChain_append_toList {α : Type} {R : α → α → Prop} (list : List α) (option : Option α) :
    (list ++ option.toList).IsChain R ↔
      list.IsChain R ∧ ∀ last ∈ list.getLast?, ∀ next ∈ option, R last next := by
  have hchain : option.toList.IsChain R := by
    cases option with
    | none => exact .nil
    | some next => exact .singleton next
  rw [List.isChain_append, Option.head?_toList]
  exact ⟨fun h => ⟨h.1, h.2.2⟩, fun h => ⟨h.1, hchain, h.2⟩⟩

theorem recalled_append_burst (sent : List Message) (edge : Option Bool)
    (voltage : Option UInt16) : recalled (sent ++ burst edge voltage) =
      ⟨edge.getD (recalled sent).charging, voltage.or (recalled sent).reported⟩ := by
  rw [recalled, Message.edges_append, Message.voltages_append, Message.edges_burst,
    Message.voltages_burst, getLastD_append_toList, getLast?_append_toList]
  rfl

/-- What is told of a sample is what the watch then knows. -/
theorem recalled_append_sample (sent : List Message) (sample : ChargeSample) :
    recalled (sent ++ ((recalled sent).sample sample.millivolts sample.charging).1) =
      ((recalled sent).sample sample.millivolts sample.charging).2 := by
  rw [sample_eq, recalled_append_burst, ((edge?_eq_iff _ sample.charging).mp rfl).2]

/-! ## One sample after another -/

theorem bursts_cons (watch : ChargeWatch) (sample : ChargeSample) (rest : List ChargeSample) :
    watch.bursts (sample :: rest) =
      (watch.sample sample.millivolts sample.charging).1 ::
        (watch.sample sample.millivolts sample.charging).2.bursts rest :=
  rfl

/-- The watch goes on from what it has told. -/
theorem bursts_append (sent : List Message) (earlier later : List ChargeSample) :
    (recalled sent).bursts (earlier ++ later) = (recalled sent).bursts earlier ++
      (recalled (sent ++ ((recalled sent).bursts earlier).flatten)).bursts later := by
  induction earlier generalizing sent with
  | nil => simp [bursts]
  | cons sample rest ih =>
    rw [List.cons_append, bursts_cons, bursts_cons, ← recalled_append_sample, ih,
      List.flatten_cons, List.append_assoc, List.cons_append]

theorem bursts_concat (samples : List ChargeSample) (sample : ChargeSample) :
    (recalled []).bursts (samples ++ [sample]) = (recalled []).bursts samples ++
      [((recalled ((recalled []).bursts samples).flatten).sample sample.millivolts
        sample.charging).1] :=
  bursts_append [] samples [sample]

theorem behindEach_concat_iff (hlength : told.length = samples.length) :
    BehindEach P (samples ++ [sample]) (told ++ [messages]) ↔
      BehindEach P samples told ∧ P (told.flatten ++ messages) sample := by
  have hall : (told ++ [messages]).take (samples.length + 1) = told ++ [messages] :=
    List.take_of_length_le (by simp [hlength])
  have hflatten : (told ++ [messages]).flatten = told.flatten ++ messages := by simp
  constructor
  · intro h
    refine ⟨fun earlier last hwithin => ?_, ?_⟩
    · have hlater := h earlier last (hwithin.trans (List.prefix_append _ _))
      have hle := hwithin.length_le
      rw [List.length_append, List.length_singleton] at hle
      rwa [List.take_append_of_le_length (by omega)] at hlater
    · have hlast := h samples sample List.prefix_rfl
      rwa [hall, hflatten] at hlast
  · rintro ⟨hbefore, hlast⟩ earlier last hwithin
    rcases List.prefix_concat_iff.mp hwithin with heq | hwithin
    · obtain ⟨rfl, rfl⟩ := List.append_singleton_inj.mp heq
      rwa [hall, hflatten]
    · have hle := hwithin.length_le
      rw [List.length_append, List.length_singleton] at hle
      rw [List.take_append_of_le_length (by omega)]
      exact hbefore earlier last hwithin

/-! ## Summaries -/

/-- What turns of the charger are, for a device that starts off the charger. -/
theorem isChain_false_cons_iff (told : List Bool) : (false :: told).IsChain (· ≠ ·) ↔
    (∀ edge ∈ told.head?, edge = true) ∧ told.IsChain (· ≠ ·) := by
  rw [List.isChain_cons]
  simp only [ne_eq, Bool.false_eq, Bool.not_eq_false]

theorem isChain_false_cons_append_iff (told : List Bool) (edge : Option Bool) :
    (false :: (told ++ edge.toList)).IsChain (· ≠ ·) ↔
      (false :: told).IsChain (· ≠ ·) ∧ ∀ next ∈ edge, told.getLastD false ≠ next := by
  rw [← List.cons_append, isChain_append_toList, List.getLast?_cons]
  simp only [Option.mem_some_iff, forall_eq', List.getLastD_eq_getLast?]

theorem Summarises.turns (h : Summarises samples told) :
    (false :: edges told.flatten).IsChain (· ≠ ·) :=
  (isChain_false_cons_iff _).mpr ⟨h.starts, h.alternate⟩

theorem flatten_concat_burst (told : List (List Message)) (edge : Option Bool)
    (voltage : Option UInt16) :
    (told ++ [burst edge voltage]).flatten = told.flatten ++ burst edge voltage := by
  simp

theorem edges_concat_burst (told : List (List Message)) (edge : Option Bool)
    (voltage : Option UInt16) :
    edges (told ++ [burst edge voltage]).flatten = edges told.flatten ++ edge.toList := by
  rw [flatten_concat_burst, Message.edges_append, Message.edges_burst]

theorem voltages_concat_burst (told : List (List Message)) (edge : Option Bool)
    (voltage : Option UInt16) :
    voltages (told ++ [burst edge voltage]).flatten = voltages told.flatten ++ voltage.toList := by
  rw [flatten_concat_burst, Message.voltages_append, Message.voltages_burst]

/-- A summary goes on with what the watch makes of the next sample. -/
theorem Summarises.concat (h : Summarises samples told) :
    Summarises (samples ++ [sample])
      (told ++ [((recalled told.flatten).sample sample.millivolts sample.charging).1]) := by
  rw [sample_eq]
  obtain ⟨hturn, hcharging⟩ :=
    (edge?_eq_iff (recalled told.flatten) sample.charging).mp rfl
  obtain ⟨hcaused, hfar, hnear⟩ :=
    (voltage?_eq_iff (recalled told.flatten) sample.millivolts).mp rfl
  generalize (recalled told.flatten).edge? sample.charging = edge at *
  generalize hvoltage : (recalled told.flatten).voltage? sample.millivolts = voltage at *
  have hturns : (false :: edges (told ++ [burst edge voltage]).flatten).IsChain (· ≠ ·) := by
    rw [edges_concat_burst, isChain_false_cons_append_iff]
    exact ⟨h.turns, hturn⟩
  rw [isChain_false_cons_iff] at hturns
  exact
    { length_eq := by simp [h.length_eq]
      ordered := by
        intro messages hmem
        rcases List.mem_append.mp hmem with hmem | hmem
        · exact h.ordered messages hmem
        · exact ⟨edge, voltage, List.mem_singleton.mp hmem⟩
      starts := hturns.1
      alternate := hturns.2
      current := by
        rw [behindEach_concat_iff h.length_eq, Message.edges_append, Message.edges_burst,
          getLastD_append_toList]
        exact ⟨h.current, hcharging⟩
      first := by
        cases samples with
        | nil =>
          obtain rfl := List.eq_nil_of_length_eq_zero h.length_eq
          obtain ⟨last, hlast, -⟩ := hnear
          rw [show (recalled [].flatten).reported = none from rfl, Option.or_none] at hlast
          obtain rfl := hcaused last hlast
          obtain rfl := Option.mem_def.mp hlast
          simp
        | cons first rest =>
          obtain ⟨messages, later, rfl⟩ := List.exists_cons_of_length_eq_add_one h.length_eq
          exact h.first
      caused := by
        rw [List.zip_append h.length_eq.symm]
        intro pair hmem millivolts htold
        rcases List.mem_append.mp hmem with hmem | hmem
        · exact h.caused pair hmem millivolts htold
        · obtain rfl := List.mem_singleton.mp hmem
          rw [Message.voltages_burst, Option.mem_toList] at htold
          exact hcaused millivolts htold
      far := by
        rw [voltages_concat_burst, isChain_append_toList]
        exact ⟨h.far, hfar⟩
      near := by
        rw [behindEach_concat_iff h.length_eq, Message.voltages_append, Message.voltages_burst,
          getLast?_append_toList]
        exact ⟨h.near, hnear⟩ }

theorem Summarises.of_concat (h : Summarises (samples ++ [sample]) (told ++ [messages])) :
    Summarises samples told := by
  have hlength : told.length = samples.length := by simpa using h.length_eq
  obtain ⟨edge, voltage, rfl⟩ := h.ordered messages (by simp)
  have hturns := h.turns
  rw [edges_concat_burst, isChain_false_cons_append_iff, isChain_false_cons_iff] at hturns
  have hfar := h.far
  rw [voltages_concat_burst, isChain_append_toList] at hfar
  exact
    { length_eq := hlength
      ordered := fun messages hmem => h.ordered messages (List.mem_append_left _ hmem)
      starts := hturns.1.1
      alternate := hturns.1.2
      current := ((behindEach_concat_iff hlength).mp h.current).1
      first := fun first hfirst messages hmessages =>
        h.first first (by simp [Option.mem_def.mp hfirst]) messages
          (by simp [Option.mem_def.mp hmessages])
      caused := fun pair hmem => h.caused pair (by
        rw [List.zip_append hlength.symm]
        exact List.mem_append_left _ hmem)
      far := hfar.1
      near := ((behindEach_concat_iff hlength).mp h.near).1 }

/-- What a summary goes on with is what the watch makes of the next sample. -/
theorem Summarises.eq_sample (h : Summarises (samples ++ [sample]) (told ++ [messages])) :
    messages = ((recalled told.flatten).sample sample.millivolts sample.charging).1 := by
  have hlength : told.length = samples.length := by simpa using h.length_eq
  obtain ⟨edge, voltage, rfl⟩ := h.ordered messages (by simp)
  have hturns := h.turns
  rw [edges_concat_burst, isChain_false_cons_append_iff] at hturns
  have hcurrent := ((behindEach_concat_iff hlength).mp h.current).2
  rw [Message.edges_append, Message.edges_burst, getLastD_append_toList] at hcurrent
  have hcaused := h.caused (sample, burst edge voltage) (by
    rw [List.zip_append hlength.symm]
    exact List.mem_append_right _ (List.mem_singleton_self _))
  simp only [Message.voltages_burst, Option.mem_toList] at hcaused
  have hfar := h.far
  rw [voltages_concat_burst, isChain_append_toList] at hfar
  have hnear := ((behindEach_concat_iff hlength).mp h.near).2
  rw [Message.voltages_append, Message.voltages_burst, getLast?_append_toList] at hnear
  have hedge : edge = (recalled told.flatten).edge? sample.charging :=
    (edge?_eq_iff _ _).mpr ⟨hturns.2, hcurrent⟩
  have hvoltage : voltage = (recalled told.flatten).voltage? sample.millivolts :=
    (voltage?_eq_iff _ _).mpr ⟨hcaused, hfar.2, hnear⟩
  rw [sample_eq, hedge, hvoltage]

theorem summarises_nil : Summarises [] [] where
  length_eq := rfl
  ordered := by simp
  starts := by simp [edges]
  alternate := .nil
  current := by simp [BehindEach]
  first := by simp
  caused := by simp
  far := .nil
  near := by simp [BehindEach]

theorem summarises_iff_eq_bursts (samples : List ChargeSample) :
    ∀ told, Summarises samples told ↔ told = (recalled []).bursts samples := by
  -- induction from the last sample, whose messages depend on all that was told before
  induction samples using List.reverseRecOn with
  | nil =>
    intro told
    constructor
    · exact fun h => List.eq_nil_of_length_eq_zero h.length_eq
    · rintro rfl
      exact summarises_nil
  | append_singleton samples sample ih =>
    intro told
    rw [bursts_concat]
    constructor
    · intro h
      obtain ⟨told, messages, rfl⟩ : ∃ earlier messages, told = earlier ++ [messages] := by
        have hne : told ≠ [] := by
          rintro rfl
          simpa using h.length_eq
        exact ⟨told.dropLast, told.getLast hne, (List.dropLast_append_getLast hne).symm⟩
      obtain rfl := (ih told).mp h.of_concat
      rw [h.eq_sample]
    · rintro rfl
      exact ((ih _).mpr rfl).concat

/-! ## What is sent -/

theorem queue_report (samples : List ChargeSample) (watch : ChargeWatch) (queue : List Message) :
    (samples.foldl report (watch, ⟨queue, true⟩)).2.queue =
      queue ++ (watch.bursts samples).flatten := by
  induction samples generalizing watch queue with
  | nil => simp [bursts]
  | cons sample rest ih =>
    rw [List.foldl_cons, bursts_cons, List.flatten_cons, ← List.append_assoc, ← ih]
    simp only [report, Mailbox.sendAll_of_open]

/-- What a watch that starts anew sends of some samples through an open mailbox is a summary of
them, burst by burst, and there is no other summary of them. -/
theorem summarises_iff (samples : List ChargeSample) :
    (samples.foldl report ({}, {})).2.queue = (({} : ChargeWatch).bursts samples).flatten ∧
      ∀ told, Summarises samples told ↔ told = ({} : ChargeWatch).bursts samples :=
  ⟨queue_report samples {} [], summarises_iff_eq_bursts samples⟩

/-- A slow drift is told of once it has come far enough from the voltage told last. -/
example : ({} : ChargeWatch).bursts [⟨4000, false⟩, ⟨3970, true⟩, ⟨3951, true⟩, ⟨3950, false⟩] =
    [[.batteryMillivolts 4000], [.chargingChanged true], [],
      [.chargingChanged false, .batteryMillivolts 3950]] := by
  decide

end ChargeWatch

end RingLog

import RingLog.Proofs.Log.Headroom
import RingLog.Proofs.Log.Renewal

/-!
# The reserve at a request

A log asks for a rotation when no more than its reserve is left on the page. It looks once for each
append, at its end, so an append that also writes a record of the time can take two slots at once
and leave one less than the reserve. And a rotation or an erasure does not look at all: the page
that it starts may have no more than the reserve left behind its anchor, and then the first append
takes its slots from the reserve before the request is made.

Where no request is pending, the reserve itself is always there (`Log.Stocked`). So all that a
request can find missing are the slots of the append that makes it.

Main statements: `Log.reserve_at_request` and `Log.not_sparesReserve`.
-/

namespace RingLog

variable {g : Geometry}

namespace Log

variable {log log' : Log g} {config : Config} {start now : Instant} {operation : Operation}

/-- The operation makes a request for a rotation. -/
def Asks (log : Log g) (now : Instant) (operation : Operation) : Prop :=
  log.rotationPending = false ∧ (log.perform now operation).rotationPending = true

/-- If the operation makes a request, the whole reserve is still free. -/
def SparesReserve (log : Log g) (now : Instant) (operation : Operation) : Prop :=
  log.Asks now operation → log.config.reserve.toNat ≤ (log.perform now operation).free

/-- A log that has just looked at its page and does not ask has more than the reserve left. -/
theorem reserve_lt_free_of_pending_iff (hiff : log.rotationPending = true ↔ log.Low)
    (hopen : log.rotationPending = false) : log.config.reserve.toNat < log.free := by
  refine Nat.lt_of_not_le fun hlow => ?_
  have hpending := hiff.mpr hlow
  rw [hopen] at hpending
  cases hpending

/-! ## The invariant -/

/-- Where no request is pending, at least the reserve is left. -/
structure Stocked (log : Log g) : Prop extends log.Latched where
  powered : log.chip.supply = none
  stock : log.rotationPending = false → log.config.reserve.toNat ≤ log.free

theorem Stocked.perform (h : log.Stocked) (now : Instant) (operation : Operation) :
    (log.perform now operation).Stocked where
  toLatched := h.toLatched.perform now operation
  powered := by rw [chip_perform, Chip.supply_performAll_powered h.powered]
  stock := by
    have hlooks (hclears : operation.clears = false) (hopen) :=
      Nat.le_of_lt (reserve_lt_free_of_pending_iff
        (h.pending_iff (log.checked_perform now hclears)) hopen)
    cases operation with
    | append word => exact hlooks rfl
    | anchor => exact hlooks rfl
    | rotate => exact fun _ => log.reserve_le_free_rotate now
    | eraseAll => exact fun _ => reserve_le_free_eraseAll h.powered now

theorem Stocked.run (h : log.Stocked) (operations : List (Instant × Operation)) :
    (log.run operations).Stocked := by
  induction operations generalizing log with
  | nil => exact h
  | cons operation rest ih => exact ih (h.perform operation.1 operation.2)

theorem stocked_boot {chip : Chip g} (hpowered : chip.supply = none)
    (h : boot chip config now = .ok log) : log.Stocked := by
  obtain ⟨hlatched, -, hiff, -⟩ := latched_boot h
  refine ⟨hlatched, ?_, fun hopen => Nat.le_of_lt (reserve_lt_free_of_pending_iff hiff hopen)⟩
  rw [chip_boot h, Chip.supply_performAll_powered hpowered]

/-- Unless its page was just started, a log that does not ask has more than the reserve left. -/
theorem reserve_lt_free_run {chip : Chip g} (hpowered : chip.supply = none)
    (h : boot chip config start = .ok log) {operations : List (Instant × Operation)}
    (hlast : ∀ last ∈ operations.getLast?, last.2.clears = false)
    (hopen : (log.run operations).rotationPending = false) :
    (log.run operations).config.reserve.toNat < (log.run operations).free := by
  rcases operations.eq_nil_or_concat' with rfl | ⟨earlier, last, rfl⟩
  · exact reserve_lt_free_of_pending_iff (latched_boot h).2.2.1 hopen
  · have hearlier := (stocked_boot hpowered h).run earlier
    have hclears : last.2.clears = false := hlast last (by simp)
    have hrun : log.run (earlier ++ [last]) = (log.run earlier).perform last.1 last.2 :=
      log.run_append earlier [last]
    rw [hrun] at hopen ⊢
    exact reserve_lt_free_of_pending_iff
      (hearlier.pending_iff (checked_perform _ last.1 hclears)) hopen

/-! ## Requests -/

theorem free_perform (log : Log g) (now : Instant) (hclears : operation.clears = false) :
    (log.perform now operation).free = log.free - (log.written now operation).length := by
  have hpushed := log.pushed_perform now operation
  cases operation with
  | append word | anchor => exact hpushed.free_eq
  | rotate | eraseAll => cases hclears

theorem length_written_le (log : Log g) (now : Instant) (operation : Operation) :
    (log.written now operation).length ≤ 2 := by
  cases operation with
  | append word =>
    have helapsed := log.length_elapsedWords_le now
    rw [written, List.length_append, List.length_singleton]
    omega
  | anchor | rotate | eraseAll => exact Nat.le_succ 1

/-- A request is made with no more than the reserve left. -/
theorem Stocked.free_le_of_asks (h : log.Stocked) (hclears : operation.clears = false)
    (hasks : log.Asks now operation) :
    (log.perform now operation).free ≤ log.config.reserve.toNat := by
  have hlow := (h.pending_iff (log.checked_perform now hclears)).mp hasks.2
  rwa [Low, config_perform] at hlow

/-- A log is opened on any medium and then used in any way, when an append or an anchor makes a
request for a rotation. The reserve is whole then just if the page had as many slots more than the
reserve as the operation took, one or two. The request comes no earlier than that. The slots that
are missing are among those that the operation took, and unless the page was just started by a
rotation or an erasure, they are fewer. -/
theorem reserve_at_request {medium : Medium g} (h : boot { medium } config start = .ok log)
    (hreserve : 1 ≤ config.reserve.toNat) (operations : List (Instant × Operation))
    (hclears : operation.clears = false) (hasks : (log.run operations).Asks now operation) :
    let before := log.run operations
    let after := before.perform now operation
    let taken := (before.written now operation).length
    after.free = before.free - taken ∧ taken ≤ 2 ∧
      (config.reserve.toNat ≤ after.free ↔ before.free = config.reserve.toNat + taken) ∧
      after.free ≤ config.reserve.toNat ∧ config.reserve.toNat ≤ before.free ∧
      ((∀ last ∈ operations.getLast?, last.2.clears = false) →
        config.reserve.toNat < before.free) := by
  intro before after taken
  have hconfig : before.config = config := (log.config_run operations).trans (config_boot h)
  have hfree : after.free = before.free - taken := before.free_perform now hclears
  have htaken : taken ≤ 2 := before.length_written_le now operation
  have hstocked : before.Stocked := (stocked_boot rfl h).run operations
  have hlow : after.free ≤ config.reserve.toNat :=
    hconfig ▸ hstocked.free_le_of_asks hclears hasks
  have hstock : config.reserve.toNat ≤ before.free := hconfig ▸ hstocked.stock hasks.1
  refine ⟨hfree, htaken, by omega, hlow, hstock, fun hlast => ?_⟩
  exact hconfig ▸ reserve_lt_free_run rfl h hlast hasks.1

/-- Two pages of eight words with a reserve of two. After three events in the second of the boot
three slots are left. The fourth event comes five milliseconds later, takes two of them, and makes
the request with one left. -/
theorem reserve_at_request_elapsed :
    let append : Operation := .append 0x81000003
    let second : Instant := .ofSeconds 100
    let later : Instant := ⟨100005000000⟩
    ∃ log, boot { medium := .blank ⟨2, 8⟩ } ⟨2, 1⟩ second = .ok log ∧
      let before := log.run (List.replicate 3 (second, append))
      before.Asks later append ∧ before.free = 3 ∧ (before.written later append).length = 2 ∧
        (before.perform later append).free = 1 ∧
        ¬(2 : UInt64).toNat ≤ (before.perform later append).free := by
  intro append second later
  obtain ⟨log, hboot, hopen, hset, hfree, htaken⟩ :
      ∃ log, boot { medium := .blank ⟨2, 8⟩ } ⟨2, 1⟩ second = .ok log ∧
        let before := log.run (List.replicate 3 (second, append))
        before.rotationPending = false ∧ (before.perform later append).rotationPending = true ∧
          before.free = 3 ∧ (before.written later append).length = 2 :=
    ⟨_, rfl, by decide +kernel, by decide +kernel, by decide +kernel, by decide +kernel⟩
  obtain ⟨hafter, -, hiff, -⟩ := reserve_at_request hboot (by decide)
    (List.replicate 3 (second, append)) rfl ⟨hopen, hset⟩
  rw [hfree, htaken] at hafter hiff
  exact ⟨log, hboot, ⟨hopen, hset⟩, hfree, htaken, hafter,
    fun hle => absurd (hiff.mp hle) (by decide)⟩

/-- Not every request spares the reserve. -/
theorem not_sparesReserve : ¬∀ (g : Geometry) (config : Config) (start : Instant) (log : Log g),
    boot { medium := .blank g } config start = .ok log → 1 ≤ config.reserve.toNat →
      ∀ (operations : List (Instant × Operation)) (now : Instant) (operation : Operation),
        operation.clears = false → (log.run operations).SparesReserve now operation := by
  intro hspares
  have hspared := hspares ⟨2, 8⟩ ⟨2, 1⟩ (.ofSeconds 100) _ rfl (by decide)
    (List.replicate 3 (.ofSeconds 100, .append 0x81000003)) ⟨100005000000⟩ (.append 0x81000003) rfl
    ⟨by decide +kernel, by decide +kernel⟩
  exact absurd hspared (by decide +kernel)

end Log

end RingLog

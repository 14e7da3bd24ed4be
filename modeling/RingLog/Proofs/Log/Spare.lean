import RingLog.Proofs.Log.Footprint
import RingLog.Proofs.Log.WriteOnce

/-!
# Free slots that are erased

Words given to a log are stored as they are if the next slots of its page are erased (`Log.Clean`).
So they are on a device that was never given the erased word as a record. A log takes a slot for
such a word and leaves it as it is, the next boot goes on there, and comes upon the records behind
it.

Main statements: `Log.Guarded.entries_pushed`, and `Device.guarded_run` and `Device.clean_run` for
the log of a device.
-/

namespace RingLog

variable {g : Geometry}

namespace Page

variable {page : Page} {medium : Medium g} {index count : Nat} {words : List Word}

/-- Records that are written to erased slots are read back. -/
theorem read_recordCalls_of_erased (hslot : page.slot < g.pages)
    (hroom : index + words.length ≤ page.capacity g)
    (herased : ∀ count < words.length, page.read medium (index + count) = Word.erased)
    (hcount : count < words.length) :
    page.read (medium.applyAll (recordCalls g page index words)) (index + count) =
      words[count] := by
  -- the first word goes into the first slot, and the words behind it leave that slot alone
  induction words generalizing medium index count with
  | nil => cases hcount
  | cons word rest ih =>
    rw [List.length_cons] at hroom herased hcount
    have hwritten : index < page.capacity g := by omega
    have hcontains : g.Contains page.slot (page.headerSize.toNat + index) := by
      refine ⟨hslot, ?_⟩
      unfold capacity at hwritten
      omega
    have hread := herased 0 (Nat.succ_pos _)
    rw [Nat.add_zero, read, if_pos hwritten] at hread
    have hprogram : ∀ offset, (medium.apply (page.recordCall index word)).read page.slot offset =
        if offset = page.headerSize.toNat + index then word
        else medium.read page.slot offset := Medium.read_apply_program hcontains hread
    rw [recordCalls, if_pos hwritten, Medium.applyAll_cons]
    cases count with
    | zero =>
      have hfirst : read (medium.apply (page.recordCall index word)) page index = word := by
        rw [read, if_pos hwritten, hprogram, if_pos rfl]
      rw [read, if_pos hwritten] at hfirst
      exact (if_pos hwritten).trans ((read_recordCalls _ (by omega)).trans hfirst)
    | succ count =>
      rw [← Nat.add_assoc, Nat.add_right_comm, List.getElem_cons_succ]
      refine ih (by omega) (fun count hlt => ?_) (by omega)
      have hlater := herased (count + 1) (by omega)
      have hwithin : index + 1 + count < page.capacity g := by omega
      rw [← Nat.add_assoc, Nat.add_right_comm, read, if_pos hwithin] at hlater
      rw [read, if_pos hwithin, hprogram, if_neg (by omega), hlater]

end Page

namespace Log

variable {log log' : Log g} {words : List Word} {count : Nat}

/-- The next slots of the page are erased. -/
def Clean (log : Log g) (count : Nat) : Prop :=
  ∀ index < count, log.page.read log.medium (log.used + index) = Word.erased

/-- A log in step has nothing but erased slots ahead. -/
theorem InStep.clean (h : log.InStep) (count : Nat) : log.Clean count := by
  intro index _
  have hbeyond : (log.medium.wordsAt log.page.slot).length ≤ log.used + index :=
    h.used_eq ▸ Nat.le_add_right _ _
  rw [h.holds.read_record, List.getElem?_eq_none hbeyond, Option.getD_none]

theorem activeWords_eq_map_range (log : Log g) :
    log.activeWords = (List.range log.used).map (log.page.read log.medium) := by
  rw [activeWords, Page.words, ← List.map_take, List.take_range, Nat.min_eq_left log.used_le]

/-- Words that are stored in erased slots become the last words of the page. -/
theorem Pushed.activeWords_eq (hp : log.Pushed log' words) (hpowered : log.chip.supply = none)
    (hfree : words.length ≤ log.free) (hclean : log.Clean words.length) :
    log'.activeWords = log.activeWords ++ words := by
  have hused : log'.used = log.used + words.length := by
    rw [hp.used_eq]
    unfold free at hfree
    omega
  have hbefore : (List.range log.used).map (log.page.read log'.medium) = log.activeWords := by
    rw [activeWords_eq_map_range]
    refine List.map_congr_left fun index hindex => ?_
    have hlt := List.mem_range.mp hindex
    rw [Page.read, Page.read, hp.read_eq hpowered (.inr (.inl (by omega)))]
  have hbehind : (List.range words.length).map (fun index =>
      log.page.read log'.medium (log.used + index)) = words := by
    refine List.ext_getElem (by simp) fun index hindex hlt => ?_
    rw [List.getElem_map, List.getElem_range, hp.medium_eq hpowered]
    have hroom := log.used_le
    unfold free at hfree
    exact Page.read_recordCalls_of_erased log.slot_lt (by omega) hclean hlt
  rw [log'.activeWords_eq_map_range, hp.page_eq, hused, List.range_add, List.map_append, hbefore,
    List.map_map]
  exact congrArg (log.activeWords ++ ·) hbehind

/-- Words that are stored in erased slots become the last entries, whatever the medium holds
otherwise. -/
theorem Guarded.entries_pushed (h : log.Guarded) (hp : log.Pushed log' words)
    (hfree : words.length ≤ log.free) (hclean : log.Clean words.length) :
    log'.entries = log.entries ++
      words.mapIdx fun index word => ⟨log.page.position g (log.used + index), word⟩ := by
  have hload : ∀ slot, Page.load log'.medium slot = Page.load log.medium slot := by
    intro slot
    rw [Page.load, Page.load, hp.read_eq h.powered (.inr (.inl h.behind_header))]
  have holder : log'.olderPages = log.olderPages := by
    rw [olderPages, olderPages, oldestPage, oldestPage, hp.page_eq, hload]
    exact Page.walk_congr hload _ _
  have hstored : ∀ page ∈ log.olderPages, page.stored log'.medium = page.stored log.medium :=
    fun page hmem => Page.stored_congr (hp.read_of_ne h.powered (slot_of_mem_olderPages hmem).2)
  have hlength : log.activeWords.length = log.used := by
    rw [activeWords_eq_map_range, List.length_map, List.length_range]
  rw [entries, entries, holder, hp.page_eq, hp.activeWords_eq h.powered hfree hclean,
    Page.entries, Page.entries, List.mapIdx_append, ← List.append_assoc, hlength]
  simp only [Nat.add_comm]
  refine congrArg (· ++ _ ++ _) (List.flatMap_congr fun page hmem => ?_)
  rw [hstored page hmem]

end Log

namespace Device

variable {events : List Event} {log : Log g}

/-- A device that is switched off has power again, and the log of a running one leaves headers
alone. -/
structure Ready (device : Device g) : Prop where
  powered : device.chip.supply = none
  guarded : ∀ log, device = running log → log.Guarded

theorem ready_off {chip : Chip g} (h : chip.supply = none) : (off chip).Ready :=
  ⟨h, fun _ hlog => by cases hlog⟩

theorem ready_running (h : log.Guarded) : (running log).Ready :=
  ⟨h.powered, fun _ hlog => running.inj hlog ▸ h⟩

theorem Ready.act {device : Device g} (h : device.Ready) (action : Action) :
    (device.act action).Ready := by
  cases action with
  | boot config now =>
    cases hboot : Log.boot device.chip config now with
    | ok log =>
      rw [act_boot hboot]
      exact ready_running (Log.guarded_boot h.powered hboot)
    | error fault =>
      rw [Device.act, hboot]
      exact ready_off h.powered
  | perform now operation =>
    cases device with
    | off chip => exact h
    | running log => exact ready_running ((h.guarded log rfl).perform now operation)

/-- Whatever happened to a device, its log is guarded. -/
theorem guarded_run (hrun : (new g).run events = running log) : log.Guarded := by
  have hready : ((new g).run events).Ready := by
    refine run_induction (ready_off rfl) fun device event _ h => ?_
    unfold step
    split
    · exact h.act event.action
    · exact ready_off rfl
  exact hready.guarded log hrun

/-- The slots ahead are erased if no event gave the log an erased word. -/
theorem clean_run (hevents : ∀ event ∈ events, event.action.Regular g)
    (hrun : (new g).run events = running log) (count : Nat) : log.Clean count :=
  ((accounted_run hevents).sound.inStep log hrun).clean count

end Device

end RingLog

import Mathlib.Data.List.Induction
import Mathlib.Data.List.Infix
import RingLog.Proofs.Log.Refinement

/-!
# The leaves of a history

Every leaf starts with an anchor (`History.Opens`): a boot, a rotation and an erasure begin the
page that they start with one, and nothing but the page being written is written to. As long as
the page numbers have not wrapped, there are as many leaves as numbers were given out, up to the
number of pages (`History.Counts`).

Main statement: `Device.recalls_of_actAll`, both hold of what a device remembers.
-/

namespace RingLog

variable {g : Geometry}

/-- The words of the leaf start with an anchor. -/
def Leaf.Opens (leaf : Leaf) : Prop :=
  ∃ now rest, leaf.words = anchorWord now :: rest

theorem Leaf.Opens.words_ne_nil {leaf : Leaf} (h : leaf.Opens) : leaf.words ≠ [] := by
  obtain ⟨now, rest, hwords⟩ := h
  rw [hwords]
  exact List.cons_ne_nil _ _

theorem Leaf.Opens.addAll {leaf : Leaf} (h : leaf.Opens) (words : List Word) :
    (leaf.addAll g words).Opens := by
  obtain ⟨now, rest, hwords⟩ := h
  rw [Leaf.addAll_eq]
  refine ⟨now, rest ++ words.take (leaf.room g), ?_⟩
  dsimp only
  rw [hwords, List.cons_append]

namespace History

variable {history : History} {action : Action}

/-- Every leaf starts with an anchor. -/
def Opens (history : History) : Prop :=
  ∀ leaf ∈ history.leaves, leaf.Opens

/-- There is a leaf for each number up to that of the last one, as far as there are pages. -/
def Counts (g : Geometry) (history : History) : Prop :=
  history.leaves.length = min (history.last.number.toNat + 1) g.pages

theorem length_leaves_append (history : History) (now : Instant) (word : Word) :
    (history.append g now word).leaves.length = history.leaves.length := by
  unfold History.append
  dsimp only
  split
  · rfl
  · split <;> rfl

theorem length_leaves_rotate (history : History) (now : Instant) :
    (history.rotate g now).leaves.length = min (g.pages - 1) history.leaves.length + 1 := by
  rw [leaves, History.rotate, List.length_cons, List.length_take]

theorem opens_start (headerSize : UInt8) (now : Instant) : (start headerSize now).Opens := by
  intro leaf hleaf
  rw [List.mem_singleton.mp hleaf]
  exact ⟨now, [], rfl⟩

theorem Opens.write (h : history.Opens) (words : List Word) (reference : Instant) :
    (history.write g words reference).Opens := by
  intro leaf hleaf
  rcases List.mem_cons.mp hleaf with rfl | hearlier
  · exact (h _ List.mem_cons_self).addAll words
  · exact h leaf (List.mem_cons_of_mem _ hearlier)

theorem Opens.rotate (h : history.Opens) (now : Instant) : (history.rotate g now).Opens := by
  intro leaf hleaf
  rcases List.mem_cons.mp hleaf with rfl | hearlier
  · exact ⟨now, [], rfl⟩
  · exact h leaf (List.mem_of_mem_take hearlier)

theorem Opens.append (h : history.Opens) (now : Instant) (word : Word) :
    (history.append g now word).Opens := by
  unfold History.append
  dsimp only
  split
  · exact h.write _ _
  · split <;> exact h.write _ _

theorem Opens.act (h : history.Opens) (action : Action) : (history.act g action).Opens := by
  cases action with
  | boot config now => exact h.write (g := g) [anchorWord now] (.ofSeconds now.seconds)
  | perform now operation =>
    cases operation with
    | append word => exact h.append now word
    | anchor => exact h.write _ _
    | rotate => exact h.rotate now
    | eraseAll => exact opens_start _ _

theorem Opens.leaves_ne_nil (h : history.Opens) : ∀ leaf ∈ history.leaves, leaf.words ≠ [] :=
  fun leaf hleaf => (h leaf hleaf).words_ne_nil

theorem counts_start (hpages : 0 < g.pages) (headerSize : UInt8) (now : Instant) :
    (start headerSize now).Counts g := by
  have hzero : (start headerSize now).last.number.toNat = 0 := rfl
  rw [Counts, hzero, leaves, start, List.length_singleton]
  omega

theorem Counts.write (h : history.Counts g) (words : List Word) (reference : Instant) :
    (history.write g words reference).Counts g := by
  have hnumber : (history.write g words reference).last.number = history.last.number := by
    rw [History.write, Leaf.addAll_eq]
  rw [Counts, hnumber, ← h]
  rfl

/-- A rotation gives out the next number. -/
theorem Counts.rotate (h : history.Counts g) (hpages : 2 ≤ g.pages)
    (hnumber : history.last.number.toNat + 1 < 65536) (now : Instant) :
    (history.rotate g now).Counts g := by
  have hnext : (history.rotate g now).last.number.toNat = history.last.number.toNat + 1 := by
    rw [History.rotate, UInt16.toNat_add, UInt16.toNat_one]
    omega
  rw [Counts, hnext, length_leaves_rotate, h]
  omega

theorem Counts.append (h : history.Counts g) (now : Instant) (word : Word) :
    (history.append g now word).Counts g := by
  unfold History.append
  dsimp only
  split
  · exact h.write _ _
  · split <;> exact h.write _ _

theorem Counts.act (h : history.Counts g) (hpages : 2 ≤ g.pages)
    (hnumber : history.last.number.toNat + 1 < 65536) (action : Action) :
    (history.act g action).Counts g := by
  cases action with
  | boot config now => exact h.write [anchorWord now] (.ofSeconds now.seconds)
  | perform now operation =>
    cases operation with
    | append word => exact h.append now word
    | anchor => exact h.write _ _
    | rotate => exact h.rotate hpages hnumber now
    | eraseAll => exact counts_start (by omega) _ _

end History

namespace Device

/-- The page that a running device writes has a number below the bound. -/
def NumberBelow (bound : Nat) : Device g → Prop
  | off _ => True
  | running log => log.page.number.toNat < bound

instance (bound : Nat) (device : Device g) : Decidable (device.NumberBelow bound) :=
  match device with
  | .off _ => inferInstanceAs (Decidable True)
  | .running log => inferInstanceAs (Decidable (log.page.number.toNat < bound))

/-- At no moment of the actions, carried out one after another by a new device, has a page number
reached the bound. -/
def StaysBelow (g : Geometry) (bound : Nat) (actions : List Action) : Prop :=
  ∀ earlier ∈ actions.inits, ((new g).actAll earlier).NumberBelow bound

instance (g : Geometry) (bound : Nat) (actions : List Action) :
    Decidable (StaysBelow g bound actions) :=
  inferInstanceAs (Decidable (∀ _ ∈ _, _))

/-- Behind any actions a device is new still, or it remembers a history whose leaves start with
anchors and are counted by the page number unless that has wrapped. -/
theorem recalls_of_actAll (hpages : g.pages < 65536) {actions : List Action}
    (hactions : ∀ action ∈ actions, action.Regular g) :
    (new g).actAll actions = new g ∨ ∃ log history, (new g).actAll actions = running log ∧
      log.Recalls history ∧ history.Opens ∧
      (∀ bound < 65536, StaysBelow g bound actions → history.Counts g) := by
  induction actions using List.reverseRec with
  | nil => exact .inl rfl
  | append_singleton earlier last ih =>
    have hlast : last.Regular g := hactions last List.mem_concat_self
    have hbefore := ih fun action haction => hactions action (List.mem_append_left _ haction)
    have hrun : (new g).actAll (earlier ++ [last]) = ((new g).actAll earlier).act last :=
      actAll_append ..
    rw [hrun]
    rcases hbefore with hnew | ⟨log, history, hlog, hrecalls, hopens, hcounts⟩
    · rw [hnew]
      cases last with
      | boot config now =>
        obtain ⟨log, hboot, hrecalls⟩ := recalls_start hpages hlast now
        exact .inr ⟨log, _, hboot, hrecalls, History.opens_start _ _,
          fun _ _ _ => History.counts_start log.pages_pos _ _⟩
      | perform now operation => exact .inl rfl
    · rw [hlog]
      obtain ⟨log', hact, hrecalls'⟩ := recalls_act hrecalls hpages hlast
      refine .inr ⟨log', _, hact, hrecalls', hopens.act last, fun bound hbound hbelow => ?_⟩
      have hearlier : StaysBelow g bound earlier := fun first hfirst =>
        hbelow first ((List.mem_inits _ _).mpr
          (((List.mem_inits _ _).mp hfirst).trans (List.prefix_append _ _)))
      have hnumber := hbelow earlier ((List.mem_inits _ _).mpr (List.prefix_append _ _))
      have hlt : log.page.number.toNat < bound := by
        rw [hlog] at hnumber
        exact hnumber
      rw [hrecalls.shows.last.1] at hlt
      exact (hcounts bound hbound hearlier).act log.two_le_pages (by dsimp only at hlt; omega) last

theorem recalls_of_running (hpages : g.pages < 65536) {actions : List Action}
    (hactions : ∀ action ∈ actions, action.Regular g) {log : Log g}
    (hlog : (new g).actAll actions = running log) : ∃ history, log.Recalls history ∧
      history.Opens ∧ (∀ bound < 65536, StaysBelow g bound actions → history.Counts g) := by
  rcases recalls_of_actAll hpages hactions with hnew | ⟨_, history, hlog', hrecalls⟩
  · rw [hlog] at hnew
    cases hnew
  · rw [hlog] at hlog'
    cases hlog'
    exact ⟨history, hrecalls⟩

end Device

end RingLog

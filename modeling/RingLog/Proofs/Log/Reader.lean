import RingLog.Proofs.Log.Standing
import RingLog.Proofs.Ring.Age

/-!
# Readers that keep their place

A reader takes a cursor at the oldest record and looks from time to time while the log goes on. A
`Watch` is a log with such a reader. Beside them it keeps account of all entries that were written,
of how many of these are gone with recycled pages, and of how many the reader has passed: it has
found them, or they were gone before it came to them.

Each look finds the first entry that is neither passed nor gone (`Watch.Served`), if fewer than
2^15 rotations have happened since the last look, or since the cursor was taken. Numbers wrap, so a
reader that stays away for longer may take a page written later for an older one.

Main statements: `Device.served_follow` and `Device.not_served_late`.
-/

namespace RingLog

variable {g : Geometry}

/-- Ages that are less than 2^15 apart are told apart by the numbers of the pages. -/
theorem Cursor.isBehind_eq {cursor other : Cursor} {number : UInt16} {age limit : Nat}
    (hcursor : cursor.page.number = number - UInt16.ofNat age)
    (hother : other.page.number = number - UInt16.ofNat limit) (hlimit : limit < 32768)
    (hage : age < limit + 32768) : cursor.isBehind other = decide (limit < age) := by
  rw [Bool.eq_iff_iff, isBehind_iff_lag, hcursor, hother, decide_eq_true_eq]
  simp only [UInt16.toNat_sub, UInt16.toNat_ofNat']
  omega

/-- Something that happens to a log with a reader. -/
inductive Move where
  | operate (now : Instant) (operation : Operation)
  /-- The reader takes a step. -/
  | look
  deriving DecidableEq, Repr

namespace Move

/-- The log records something that is not an erased word, and the reader does anything. -/
def Regular (g : Geometry) : Move → Prop
  | operate now operation => (Action.perform now operation).Regular g ∧
      (Action.perform now operation).isRecording
  | look => True

instance (g : Geometry) (move : Move) : Decidable (move.Regular g) :=
  match move with
  | .operate _ _ => inferInstanceAs (Decidable (_ ∧ _))
  | .look => inferInstanceAs (Decidable True)

/-- The rotations since the last look, when a move follows. -/
def countTurn (turns : Nat) : Move → Nat
  | operate _ .rotate => turns + 1
  | operate _ _ => turns
  | look => 0

/-- The rotations among the moves since the last look, or since the first move. -/
def turns (moves : List Move) : Nat :=
  moves.foldl countTurn 0

/-- The rotations before each look, since the look before it or since `turns` rotations ago. -/
def gapsFrom (turns : Nat) : List Move → List Nat
  | [] => []
  | look :: rest => turns :: gapsFrom 0 rest
  | operate now operation :: rest => gapsFrom (countTurn turns (operate now operation)) rest

/-- The rotations before each look, since the look before it or since the first move. -/
def gaps (moves : List Move) : List Nat :=
  gapsFrom 0 moves

/-- No look comes behind 2^15 rotations or more without a look. -/
def Paced (moves : List Move) : Prop :=
  ∀ gap ∈ gaps moves, gap < 32768

instance (moves : List Move) : Decidable (Paced moves) :=
  inferInstanceAs (Decidable (∀ _ ∈ _, _))

theorem turns_concat (moves : List Move) (move : Move) :
    turns (moves ++ [move]) = move.countTurn (turns moves) := by
  rw [turns, List.foldl_concat]
  rfl

theorem gapsFrom_append (count : Nat) (first second : List Move) :
    gapsFrom count (first ++ second) =
      gapsFrom count first ++ gapsFrom (first.foldl countTurn count) second := by
  induction first generalizing count with
  | nil => rfl
  | cons move rest ih =>
    cases move with
    | operate now operation => exact ih _
    | look => exact congrArg (count :: ·) (ih 0)

theorem gapsFrom_map_operate (count : Nat) (operations : List (Instant × Operation)) :
    gapsFrom count (operations.map fun operation => operate operation.1 operation.2) = [] := by
  induction operations generalizing count with
  | nil => rfl
  | cons operation rest ih => exact ih _

theorem Paced.left {moves more : List Move} (h : Paced (moves ++ more)) : Paced moves := by
  intro gap hgap
  refine h gap ?_
  rw [gaps, gapsFrom_append]
  exact List.mem_append_left _ hgap

theorem Paced.turns_lt {moves : List Move} (h : Paced (moves ++ [look])) : turns moves < 32768 := by
  refine h _ ?_
  rw [gaps, gapsFrom_append]
  exact List.mem_append_right _ List.mem_cons_self

end Move

/-- A log and a reader that has taken a cursor of it. -/
structure Watch (g : Geometry) where
  log : Log g
  cursor : Cursor
  /-- All entries that the log has held since the reader started, in the order of writing. -/
  written : List Entry
  /-- How many of them were on pages that have been recycled. -/
  gone : Nat := 0
  /-- What the reader has found. -/
  found : List Entry := []
  /-- How many entries the reader has found, or missed. -/
  passed : Nat := 0
  /-- How many entries were gone before the reader came to them. -/
  missed : Nat := 0

namespace Watch

/-- The reader starts at the oldest record. -/
def start (log : Log g) : Watch g where
  log
  cursor := log.oldest
  written := log.entries

/-- What an operation makes of the log and of the account. -/
def operate (watch : Watch g) (now : Instant) (operation : Operation) : Watch g :=
  { watch with
    log := watch.log.perform now operation
    written := watch.written ++ watch.log.recorded now operation
    gone := watch.gone + watch.log.recycled operation }

/-- What a step makes of the reader and of the account. -/
def look (watch : Watch g) : Watch g :=
  let step := watch.log.step watch.cursor
  { watch with
    cursor := step.cursor
    found := watch.found ++ step.found.toList
    passed := min (max watch.passed watch.gone + 1) watch.written.length
    missed := watch.missed + (watch.gone - watch.passed) }

/-- What a move makes of log and reader. -/
def move (watch : Watch g) : Move → Watch g
  | .operate now operation => watch.operate now operation
  | .look => watch.look

/-- What moves make of log and reader, one after another. -/
def follow (watch : Watch g) (moves : List Move) : Watch g :=
  moves.foldl move watch

/-- A look finds the first entry that is neither passed nor gone. It finds none only if there is no
such entry, and then it leaves the cursor at the frontier. -/
def Served (watch : Watch g) : Prop :=
  (watch.log.step watch.cursor).found = watch.written[max watch.passed watch.gone]? ∧
    ((watch.log.step watch.cursor).found = none →
      (watch.log.step watch.cursor).cursor = watch.log.frontier)

theorem follow_append (watch : Watch g) (moves more : List Move) :
    watch.follow (moves ++ more) = (watch.follow moves).follow more :=
  List.foldl_append

theorem follow_concat (watch : Watch g) (moves : List Move) (move : Move) :
    watch.follow (moves ++ [move]) = (watch.follow moves).move move :=
  List.foldl_concat ..

/-! ## The account -/

/-- What was found and what was missed add up to what the reader has passed. -/
structure Accounts (watch : Watch g) : Prop where
  entries_eq : watch.log.entries = watch.written.drop watch.gone
  gone_le : watch.gone ≤ watch.written.length
  passed_le : watch.passed ≤ watch.written.length
  sublist : watch.found.Sublist (watch.written.take watch.passed)
  count_eq : watch.found.length + watch.missed = watch.passed

variable {watch : Watch g}

theorem accounts_start (log : Log g) : (start log).Accounts :=
  ⟨rfl, Nat.zero_le _, Nat.zero_le _, List.nil_sublist _, rfl⟩

theorem Accounts.recycled_le (h : watch.Accounts)
    (hfull : watch.log.medium.FullRing watch.log.page) (operation : Operation) :
    watch.gone + watch.log.recycled operation ≤ watch.written.length := by
  have hgone := h.gone_le
  have hlength := congrArg List.length h.entries_eq
  have hrecycled := Log.recycled_le_length hfull operation
  rw [List.length_drop] at hlength
  omega

theorem Accounts.operate (h : watch.Accounts) (hring : watch.log.OnRing)
    (hfull : watch.log.medium.FullRing watch.log.page) {now : Instant} {operation : Operation}
    (hoperation : (Action.perform now operation).Regular g) :
    (watch.operate now operation).Accounts := by
  have hpassed := h.passed_le
  have hrecycled := h.recycled_le hfull operation
  unfold Watch.operate
  refine ⟨?_, ?_, ?_, ?_, h.count_eq⟩
  · dsimp only
    rw [hring.entries_perform hfull hoperation, h.entries_eq, List.drop_drop,
      List.drop_append_of_le_length hrecycled]
  · dsimp only
    rw [List.length_append]
    omega
  · dsimp only
    rw [List.length_append]
    omega
  · dsimp only
    rw [List.take_append_of_le_length hpassed]
    exact h.sublist

theorem Accounts.look (h : watch.Accounts) (hserved : watch.Served) : watch.look.Accounts := by
  have hgone := h.gone_le
  have hpassed := h.passed_le
  have hcount := h.count_eq
  -- what was passed is passed still, and what is gone comes to it
  have hsublist : watch.found.Sublist (watch.written.take (max watch.passed watch.gone)) :=
    h.sublist.trans (List.take_sublist_take_left (Nat.le_max_left _ _))
  unfold Watch.look
  dsimp only
  rw [hserved.1]
  by_cases hend : max watch.passed watch.gone < watch.written.length
  · rw [List.getElem?_eq_getElem hend, Option.toList_some]
    refine ⟨h.entries_eq, hgone, Nat.min_le_right _ _, ?_, ?_⟩
    · dsimp only
      rw [Nat.min_eq_left hend, List.take_succ_eq_append_getElem hend]
      exact hsublist.append (List.Sublist.refl _)
    · dsimp only
      rw [List.length_append, List.length_singleton]
      omega
  · rw [List.getElem?_eq_none (by omega), Option.toList_none, List.append_nil]
    refine ⟨h.entries_eq, hgone, Nat.min_le_right _ _, ?_, ?_⟩
    · dsimp only
      rw [Nat.min_eq_right (by omega), List.take_length]
      rwa [List.take_of_length_le (by omega)] at hsublist
    · dsimp only
      omega

/-! ## Where the reader is -/

/-- The page of the reader's cursor was written `age` rotations ago, on a ring with some number of
leaves. -/
inductive Place (watch : Watch g) (leaves age : Nat) : Prop
  /-- The page is there still, and what is not passed is ahead. -/
  | standing (hage : age < leaves) (hstands : watch.log.Stands watch.cursor)
      (hdistance : g.distance watch.cursor.page.slot watch.log.page.slot = age)
      (hahead : watch.log.ahead watch.cursor = watch.written.drop watch.passed)
  /-- The page has been recycled, with all that was passed. -/
  | lapped (hage : g.pages ≤ age) (hleaves : leaves = g.pages)
      (hpassed : watch.passed ≤ watch.gone)

theorem Place.pushed {leaves age : Nat} (h : watch.Place leaves age) {log' : Log g}
    {words : List Word} (hstep : watch.log.InStep)
    (hfull : watch.log.medium.FullRing watch.log.page) (hp : watch.log.Pushed log' words)
    (hwords : Word.erased ∉ words) (hpassed : watch.passed ≤ watch.written.length) :
    Place { watch with log := log', written := watch.written ++ watch.log.added words }
      leaves age := by
  cases h with
  | standing hage hstands hdistance hahead =>
    obtain ⟨hstands', hahead'⟩ := hstands.pushed hstep hfull hp hwords
    refine .standing hage hstands' ?_ ?_
    · dsimp only
      rw [hp.page_eq]
      exact hdistance
    · dsimp only
      rw [hahead', hahead, List.drop_append_of_le_length hpassed]
  | lapped hage hleaves hpassed => exact .lapped hage hleaves hpassed

/-- A rotation recycles the page of a reader that stands on the oldest one. -/
theorem Place.turned {leaves age : Nat} (h : watch.Place leaves age) (haccounts : watch.Accounts)
    (hring : watch.log.OnRing) (hfull : watch.log.medium.FullRing watch.log.page)
    (hleaves : leaves ≤ g.pages) :
    Place { watch with log := watch.log.turned, gone := watch.gone + watch.log.recycled .rotate }
      (min (g.pages - 1) leaves + 1) (age + 1) := by
  have htwo := watch.log.two_le_pages
  cases h with
  | standing hage hstands hdistance hahead =>
    by_cases holdest : watch.cursor.page.slot = g.next watch.log.page.slot
    · -- what was ahead began on the page that is gone now
      have hnext := Geometry.next_ne_self watch.log.slot_lt htwo
      have hindex := hstands.index_le
      have hrecycled := haccounts.recycled_le hfull .rotate
      have hlength := congrArg List.length hahead
      have hpassed := haccounts.passed_le
      rw [hstands.ahead_of_ne hfull (holdest ▸ hnext), holdest] at hlength
      have hentries := congrArg List.length haccounts.entries_eq
      rw [Log.entries_eq_oldest hfull] at hentries
      rw [holdest] at hindex hdistance
      rw [Geometry.distance_next_self watch.log.slot_lt htwo] at hdistance
      rw [Log.recycled] at hrecycled
      simp only [List.length_append, List.length_drop, Medium.length_entriesAt] at hlength hentries
      refine .lapped (by omega) (by omega) ?_
      dsimp only [Log.recycled]
      omega
    · obtain ⟨hstands', hahead'⟩ := hstands.turned hring hfull holdest
      have hlt := Geometry.distance_lt hstands.slot_lt watch.log.next_slot_lt
      have hstep := Geometry.distance_to_next hstands.slot_lt watch.log.slot_lt holdest
      refine .standing (by omega) hstands' ?_ ?_
      · rw [← hdistance]
        exact hstep
      · exact hahead'.trans hahead
  | lapped hage hleaves hpassed =>
    exact .lapped (by omega) (by omega) (Nat.le_trans hpassed (Nat.le_add_right _ _))

/-- The account is right, and the number of the reader's page tells how old that is, as long as
there were not too many turns since the last look. -/
structure Tracks (watch : Watch g) (history : History) (turns age : Nat) : Prop where
  accounts : watch.Accounts
  recalls : watch.log.Recalls history
  opens : history.Opens
  number_eq : watch.cursor.page.number = watch.log.page.number - UInt16.ofNat age
  age_lt : age < history.leaves.length + turns
  place : watch.Place history.leaves.length age

variable {history : History} {turns age : Nat}

theorem Tracks.number_oldest (h : watch.Tracks history turns age) :
    watch.log.oldest.page.number =
      watch.log.page.number - UInt16.ofNat (history.leaves.length - 1) := by
  have hshows := h.recalls.shows
  have hstands := (Log.stands_oldest hshows.onRing.toInStep hshows.full).1
  have hdistance := hshows.distance_oldest h.opens.leaves_ne_nil (List.cons_ne_nil _ _)
  rw [hstands.number_eq hshows.full, ← hdistance, Nat.add_sub_cancel]

/-- Where a step starts, the entries that are neither passed nor gone are ahead. -/
theorem Tracks.start (h : watch.Tracks history turns age) (hpages : g.pages ≤ 32768)
    (hturns : turns < 32768) : ∃ start,
      start = (if watch.cursor.isBehind watch.log.oldest then watch.log.oldest else watch.cursor) ∧
      watch.log.Stands start ∧
      watch.log.ahead start = watch.written.drop (max watch.passed watch.gone) := by
  refine ⟨_, rfl, ?_⟩
  have hshows := h.recalls.shows
  have hlength := hshows.length_le
  have hage := h.age_lt
  have hgone := h.accounts.gone_le
  have hpassed := h.accounts.passed_le
  have hbehind := Cursor.isBehind_eq h.number_eq h.number_oldest (by omega) (by omega)
  cases h.place with
  | standing hage hstands _ hahead =>
    -- the entries ahead are not gone
    have hsuffix := (hstands.ahead_suffix hshows.full).length_le
    rw [hahead, h.accounts.entries_eq, List.length_drop, List.length_drop] at hsuffix
    rw [decide_eq_false (by omega)] at hbehind
    rw [hbehind, if_neg Bool.false_ne_true, Nat.max_eq_left (by omega)]
    exact ⟨hstands, hahead⟩
  | lapped hage hleaves hpassed =>
    have htwo := watch.log.two_le_pages
    obtain ⟨hstands, hahead⟩ := Log.stands_oldest hshows.onRing.toInStep hshows.full
    rw [decide_eq_true (by omega)] at hbehind
    rw [hbehind, if_pos rfl, Nat.max_eq_right hpassed, ← h.accounts.entries_eq]
    exact ⟨hstands, hahead⟩

theorem Tracks.served (h : watch.Tracks history turns age) (hpages : g.pages ≤ 32768)
    (hturns : turns < 32768) : watch.Served := by
  have hshows := h.recalls.shows
  obtain ⟨start, hstart, hstands, hahead⟩ := h.start hpages hturns
  obtain ⟨-, -, hfound, -, hend⟩ := hstands.step hstart hshows.onRing.toInStep hshows.full
  rw [hahead, List.head?_drop] at hfound
  exact ⟨hfound, hend⟩

theorem Tracks.look (h : watch.Tracks history turns age) (hpages : g.pages ≤ 32768)
    (hturns : turns < 32768) : ∃ age', watch.look.Tracks history 0 age' := by
  have hshows := h.recalls.shows
  obtain ⟨start, hstart, hstands, hahead⟩ := h.start hpages hturns
  obtain ⟨hstands', hsettled, -, htail, -⟩ :=
    hstands.step hstart hshows.onRing.toInStep hshows.full
  have hlt := hshows.distance_lt (List.cons_ne_nil _ _) hstands' hsettled
  have haccounts := h.accounts.look (h.served hpages hturns)
  rw [hahead, List.tail_drop] at htail
  unfold Watch.look at haccounts ⊢
  generalize watch.log.step watch.cursor = step at hstands' hlt htail haccounts ⊢
  refine ⟨_, haccounts, h.recalls, h.opens, hstands'.number_eq hshows.full, hlt,
    .standing hlt hstands' rfl ?_⟩
  refine htail.trans ?_
  dsimp only
  rcases Nat.le_total (max watch.passed watch.gone + 1) watch.written.length with hle | hle
  · rw [Nat.min_eq_left hle]
  · rw [Nat.min_eq_right hle, List.drop_of_length_le hle, List.drop_length]

theorem Tracks.operate (h : watch.Tracks history turns age) (hpages : g.pages ≤ 32768)
    {now : Instant} {operation : Operation} (hmove : (Move.operate now operation).Regular g) :
    ∃ history' age', (watch.operate now operation).Tracks history'
      (Move.countTurn turns (.operate now operation)) age' := by
  obtain ⟨hoperation, hrecording⟩ := hmove
  have hshows := h.recalls.shows
  have hstep := hshows.onRing.toInStep
  have hage := h.age_lt
  have haccounts := h.accounts.operate hshows.onRing hshows.full hoperation
  have hpushed := watch.log.pushed_perform now operation
  have hwords := watch.log.erased_not_mem_written hoperation
  obtain ⟨log', hlog', hrecalls⟩ :=
    Device.recalls_act h.recalls (Nat.lt_of_le_of_lt hpages (by decide)) hoperation
  cases hlog'
  have hopens := h.opens.act (g := g) (.perform now operation)
  cases operation with
  | append word =>
    have hcount := history.length_leaves_append (g := g) now word
    have hplace := h.place.pushed hstep hshows.full hpushed hwords h.accounts.passed_le
    rw [← hcount] at hage hplace
    exact ⟨_, age, haccounts, hrecalls, hopens, hpushed.page_eq ▸ h.number_eq, hage, hplace⟩
  | anchor =>
    have hplace := h.place.pushed hstep hshows.full hpushed hwords h.accounts.passed_le
    exact ⟨_, age, haccounts, hrecalls, hopens, hpushed.page_eq ▸ h.number_eq, hage, hplace⟩
  | rotate =>
    have hcount := history.length_leaves_rotate (g := g) now
    have hlength := hshows.length_le
    have hturned := h.place.turned h.accounts hshows.onRing hshows.full hlength
    have hplace := hturned.pushed hstep.turned hshows.onRing.fullRing_turned hpushed hwords
      h.accounts.passed_le
    rw [← hcount] at hplace
    refine ⟨_, age + 1, haccounts, hrecalls, hopens, ?_, ?_, hplace⟩
    · have hnumber : watch.log.turned.page.number = watch.log.page.number + 1 := rfl
      rw [Watch.operate]
      dsimp only
      rw [hpushed.page_eq]
      exact h.number_eq.trans ((congrArg (· - _) hnumber).trans (add_one_sub_succ _ _)).symm
    · have hcount' : (history.act g (.perform now .rotate)).leaves.length = _ := hcount
      rw [hcount', Move.countTurn]
      omega
  | eraseAll => cases hrecording

theorem tracks_start {log : Log g} (h : log.Recalls history) (hopens : history.Opens) :
    ∃ age, (start log).Tracks history 0 age := by
  have hshows := h.shows
  obtain ⟨hstands, hahead⟩ := Log.stands_oldest hshows.onRing.toInStep hshows.full
  have hdistance := hshows.distance_oldest hopens.leaves_ne_nil (List.cons_ne_nil _ _)
  have hlt := Nat.lt_of_lt_of_eq (Nat.lt_succ_self _) hdistance
  exact ⟨_, accounts_start log, h, hopens, hstands.number_eq hshows.full, hlt,
    .standing hlt hstands rfl hahead⟩

theorem tracks_follow {log : Log g} (h : log.Recalls history) (hopens : history.Opens)
    (hpages : g.pages ≤ 32768) {moves : List Move} (hmoves : ∀ move ∈ moves, move.Regular g)
    (hpaced : Move.Paced moves) : ∃ history' age,
      ((start log).follow moves).Tracks history' (Move.turns moves) age := by
  induction moves using List.reverseRec with
  | nil => exact ⟨history, tracks_start h hopens⟩
  | append_singleton before last ih =>
    obtain ⟨history', age, htracks⟩ :=
      ih (fun move hmove => hmoves move (List.mem_append_left _ hmove)) hpaced.left
    have hlast := hmoves last List.mem_concat_self
    rw [follow_concat, Move.turns_concat]
    cases last with
    | operate now operation => exact htracks.operate hpages hlast
    | look => exact ⟨history', htracks.look hpages hpaced.turns_lt⟩

end Watch

namespace Device

/-- A reader takes a cursor of any log that was written to without interruption, and takes steps
while records are written and pages rotated, on at most 2^15 pages. If fewer than 2^15 rotations
come before each step, each step finds the first entry that is neither passed nor gone, or there is
none and the cursor is at the frontier. So the reader finds the entries in the order of writing,
each of them once, and all of them if none is gone before it comes to them. -/
theorem served_follow (hpages : g.pages ≤ 32768) {actions : List Action}
    (hactions : ∀ action ∈ actions, action.Regular g) {log : Log g}
    (hlog : (new g).actAll actions = running log) {moves : List Move}
    (hmoves : ∀ move ∈ moves, move.Regular g) (hpaced : Move.Paced moves) :
    let watch := (Watch.start log).follow moves
    (∀ before after, moves = before ++ .look :: after →
      ((Watch.start log).follow before).Served) ∧
      watch.log.entries = watch.written.drop watch.gone ∧
      watch.found.Sublist (watch.written.take watch.passed) ∧
      watch.found.length + watch.missed = watch.passed ∧
      (watch.missed = 0 → watch.found = watch.written.take watch.passed) := by
  intro watch
  have hbound : g.pages < 65536 := Nat.lt_of_le_of_lt hpages (by decide)
  obtain ⟨history, hrecalls, hopens, -⟩ := recalls_of_running hbound hactions hlog
  refine ⟨?_, ?_⟩
  · rintro before after rfl
    have hbefore : ∀ move ∈ before, move.Regular g := fun move hmove =>
      hmoves move (List.mem_append_left _ hmove)
    rw [← List.singleton_append, ← List.append_assoc] at hpaced
    obtain ⟨_, _, htracks⟩ := Watch.tracks_follow hrecalls hopens hpages hbefore hpaced.left.left
    exact htracks.served hpages hpaced.left.turns_lt
  · obtain ⟨_, _, htracks⟩ := Watch.tracks_follow hrecalls hopens hpages hmoves hpaced
    have haccounts := htracks.accounts
    refine ⟨haccounts.entries_eq, haccounts.sublist, haccounts.count_eq, fun hmissed => ?_⟩
    refine haccounts.sublist.eq_of_length ?_
    have hcount := haccounts.count_eq
    rw [hmissed, Nat.add_zero] at hcount
    rw [hcount, List.length_take, Nat.min_eq_left haccounts.passed_le]

/-- Two rotations on two pages lap a reader, which misses one entry. -/
theorem served_follow_lapped :
    let moves : List Move := [.operate ⟨0⟩ (.append 7), .look, .operate ⟨0⟩ .rotate,
      .operate ⟨0⟩ .rotate, .look, .look, .look]
    (∀ move ∈ moves, move.Regular ⟨2, 4⟩) ∧ Move.Paced moves ∧
      ∃ log, (new ⟨2, 4⟩).actAll [.boot ⟨0, 1⟩ ⟨0⟩] = running log ∧
        ((Watch.start log).follow (moves.take 4)).Served ∧
        let watch := (Watch.start log).follow moves
        watch.found = [⟨⟨0⟩, 0⟩, ⟨⟨4⟩, 0⟩, ⟨⟨8⟩, 0⟩] ∧ watch.missed = 1 ∧ watch.passed = 4 ∧
          watch.found.Sublist (watch.written.take watch.passed) ∧
          watch.log.entries = watch.written.drop watch.gone := by
  intro moves
  have hmoves : ∀ move ∈ moves, move.Regular ⟨2, 4⟩ := by decide
  have hpaced : Move.Paced moves := by decide
  have hactions : ∀ action ∈ [Action.boot ⟨0, 1⟩ ⟨0⟩], action.Regular ⟨2, 4⟩ := by decide
  obtain ⟨log, hlog, hfound, hmissed, hpassed⟩ :
      ∃ log, (new ⟨2, 4⟩).actAll [.boot ⟨0, 1⟩ ⟨0⟩] = running log ∧
        ((Watch.start log).follow moves).found = [⟨⟨0⟩, 0⟩, ⟨⟨4⟩, 0⟩, ⟨⟨8⟩, 0⟩] ∧
        ((Watch.start log).follow moves).missed = 1 ∧
        ((Watch.start log).follow moves).passed = 4 :=
    ⟨_, rfl, by decide +kernel, by decide +kernel, by decide +kernel⟩
  obtain ⟨hserved, hentries, hsublist, -⟩ :=
    served_follow (by decide) hactions hlog hmoves hpaced
  exact ⟨hmoves, hpaced, log, hlog, hserved _ _ rfl, hfound, hmissed, hpassed, hsublist, hentries⟩

end Device

/-! ## Readers that stay away for too long -/

/-- A reader in the slot being written reads there, whatever page it came from, unless it is taken
for a reader behind the oldest record. -/
theorem Log.step_of_slot_eq (log : Log g) {cursor : Cursor}
    (hslot : cursor.page.slot = log.page.slot) (hbehind : cursor.isBehind log.oldest = false) :
    log.step cursor =
      if log.used ≤ cursor.index then ⟨none, cursor, []⟩
      else ⟨some (cursor.entry log.medium), ⟨cursor.page, cursor.index + 1⟩, []⟩ := by
  have hsettle : ∀ index, Cursor.settle log.medium ⟨cursor.page, index⟩ log.frontier =
      ⟨cursor.page, index⟩ := by
    intro index
    rw [Cursor.settle, Log.frontier, hslot, Geometry.distance_self]
    rfl
  have hreached : cursor.reached log.frontier = decide (log.used ≤ cursor.index) := by
    rw [Cursor.reached, Log.frontier, hslot, beq_self_eq_true, Bool.true_and]
  unfold Log.step
  dsimp only
  rw [hbehind, if_neg Bool.false_ne_true, if_neg Bool.false_ne_true, hsettle]
  by_cases hread : log.used ≤ cursor.index
  · rw [decide_eq_true hread] at hreached
    rw [if_pos hread, if_pos hreached]
  · rw [decide_eq_false hread] at hreached
    rw [if_neg hread, Cursor.advance, hreached, if_neg Bool.false_ne_true,
      if_neg Bool.false_ne_true, hsettle]

namespace Watch

theorem follow_map_operate (watch : Watch g) (operations : List (Instant × Operation)) :
    let watch' := watch.follow (operations.map fun operation => .operate operation.1 operation.2)
    watch'.log = watch.log.run operations ∧ watch'.cursor = watch.cursor ∧
      watch'.found = watch.found := by
  induction operations generalizing watch with
  | nil => exact ⟨rfl, rfl, rfl⟩
  | cons operation rest ih => exact ih (watch.operate operation.1 operation.2)

end Watch

theorem Watch.look_of_step {watch : Watch g} {step : Step}
    (h : watch.log.step watch.cursor = step) :
    watch.look.log = watch.log ∧ watch.look.cursor = step.cursor ∧
      watch.look.found = watch.found ++ step.found.toList := by
  unfold Watch.look
  rw [h]
  exact ⟨rfl, rfl, rfl⟩

/-- After some rotations, two pages hold nothing but the anchors of the last two. -/
theorem Log.recalls_rotations {log : Log g} {headerSize : UInt8} {now : Instant}
    (h : log.Recalls (.start headerSize now)) (hpages : g.pages = 2) (hslot : log.page.slot = 0)
    (count : Nat) :
    (log.run (.replicate (count + 1) (now, .rotate))).page.slot = (count + 1) % 2 ∧
      (log.run (.replicate (count + 1) (now, .rotate))).Recalls
        ⟨⟨UInt16.ofNat count + 1, headerSize, [anchorWord now]⟩,
          [⟨UInt16.ofNat count, headerSize, [anchorWord now]⟩], headerSize,
          .ofSeconds now.seconds⟩ := by
  have hbound : g.pages < 65536 := by omega
  have hslots : ∀ log : Log g, (log.rotate now).page.slot = (log.page.slot + 1) % 2 := by
    intro log
    rw [(log.pushed_rotate now).page_eq, ← hpages, ← Geometry.next_eq_mod log.slot_lt]
    rfl
  have hrotate : ∀ {history : History} {number : UInt16} {log : Log g}, log.Recalls history →
      history.last = ⟨number, headerSize, [anchorWord now]⟩ → history.headerSize = headerSize →
      (log.rotate now).Recalls ⟨⟨number + 1, headerSize, [anchorWord now]⟩,
        [⟨number, headerSize, [anchorWord now]⟩], headerSize, .ofSeconds now.seconds⟩ := by
    intro history number log h hlast hsize
    have hrotated : (log.rotate now).Recalls (history.rotate g now) := h.rotate hbound
    unfold History.rotate at hrotated
    rwa [hlast, hsize, hpages, History.leaves, hlast] at hrotated
  induction count with
  | zero => exact ⟨(hslots log).trans (by rw [hslot]), hrotate h rfl rfl⟩
  | succ count ih =>
    have hrun : log.run (.replicate (count + 2) (now, .rotate)) =
        (log.run (.replicate (count + 1) (now, .rotate))).rotate now := by
      rw [List.replicate_succ', Log.run_append]
      rfl
    rw [hrun]
    refine ⟨?_, ?_⟩
    · rw [hslots, ih.1]
      omega
    · rw [UInt16.ofNat_add]
      exact hrotate ih.2 rfl rfl

/-- Behind these rotations, a record on the page before the last one. -/
theorem Log.recalls_rotations_append {log : Log ⟨2, 4⟩} (h : log.Recalls (.start 1 ⟨0⟩))
    (hslot : log.page.slot = 0) {count before : Nat} (hcount : count = before + 1) :
    ∃ log', log.run (.replicate count (⟨0⟩, .rotate) ++
        [(⟨0⟩, .append 7), (⟨0⟩, .rotate)]) = log' ∧ log'.page.slot = before % 2 ∧ log'.Recalls
      ⟨⟨UInt16.ofNat before + 1 + 1, 1, [0]⟩, [⟨UInt16.ofNat before + 1, 1, [0, 7]⟩], 1, ⟨0⟩⟩ := by
  have hrotations := recalls_rotations h rfl hslot before
  rw [← hcount] at hrotations
  rw [run_append]
  generalize log.run _ = log at hrotations ⊢
  obtain ⟨hslot, hrecalls⟩ := hrotations
  have hword : (7 : Word) ≠ Word.erased := by decide
  have happended : (log.append ⟨0⟩ 7).Recalls _ := hrecalls.append hword
  have hrecalls' : ((log.append ⟨0⟩ 7).rotate ⟨0⟩).Recalls _ := happended.rotate (by decide)
  have helapsed : (Instant.mk 0).millisSince (.ofSeconds (Instant.mk 0).seconds) = 0 := by decide
  have hanchor : anchorWord ⟨0⟩ = 0 := by decide
  have hreference : Instant.ofSeconds (Instant.mk 0).seconds = ⟨0⟩ := by decide
  rw [History.append, helapsed, if_pos rfl, History.write, Leaf.addAll_eq, hanchor,
    hreference] at hrecalls'
  refine ⟨_, rfl, ?_, hrecalls'⟩
  have hrotate := congrArg Page.slot ((log.append ⟨0⟩ 7).pushed_rotate ⟨0⟩).page_eq
  have hturned : (log.append ⟨0⟩ 7).turned.page.slot =
      Geometry.next ⟨2, 4⟩ (log.append ⟨0⟩ 7).page.slot := rfl
  have happend := congrArg Page.slot (log.pushed_append ⟨0⟩ 7).page_eq
  refine hrotate.trans ?_
  rw [hturned, happend, Geometry.next_eq_mod log.slot_lt, hslot]
  dsimp only
  omega

/-- Two pages around the number at which the comparison of numbers turns over. -/
theorem Log.steps_stale {log : Log ⟨2, 4⟩} (hslot : log.page.slot = 0)
    (h : log.Recalls ⟨⟨32770, 1, [0]⟩, [⟨32769, 1, [0, 7]⟩], 1, ⟨0⟩⟩) :
    log.step ⟨⟨0, 0, 1⟩, 0⟩ = ⟨some ⟨⟨0⟩, 0⟩, ⟨⟨0, 0, 1⟩, 1⟩, []⟩ ∧
      log.step ⟨⟨0, 0, 1⟩, 1⟩ = ⟨none, ⟨⟨0, 0, 1⟩, 1⟩, []⟩ ∧
      log.entries.map Entry.shown = [(131076, 0), (131077, 7), (131080, 0)] ∧
      log.page.number = 32770 := by
  have hshows := h.shows
  have hstep := hshows.onRing.toInStep
  obtain ⟨hpage, hwords⟩ := hshows.last
  rw [hslot] at hpage
  have hused : log.used = 1 := by
    rw [hstep.used_eq, hwords]
    rfl
  have hbehind : ∀ index, Cursor.isBehind ⟨⟨0, 0, 1⟩, index⟩ log.oldest = false := by
    intro index
    have hnumber := (Log.stands_oldest hstep hshows.full).1.number_eq hshows.full
    have hdistance := hshows.distance_oldest (by decide) (by decide)
    have hone : Geometry.distance ⟨2, 4⟩ log.oldest.page.slot log.page.slot = 1 :=
      Nat.succ.inj hdistance
    rw [hone, hpage] at hnumber
    have hlag : log.oldest.page.number = 32769 := hnumber
    simp [Cursor.isBehind, hlag]
  have hvalue : Cursor.value log.medium ⟨⟨0, 0, 1⟩, 0⟩ = 0 := by
    have hread := hstep.holds.read_record 0
    rw [hwords, hpage] at hread
    exact hread
  refine ⟨?_, ?_, ?_, by rw [hpage]⟩
  · rw [log.step_of_slot_eq hslot.symm (hbehind 0), if_neg (by rw [hused]; decide), Cursor.entry,
      hvalue]
    rfl
  · rw [log.step_of_slot_eq hslot.symm (hbehind 1), if_pos (by rw [hused])]
  · rw [hshows.entries_eq]
    decide

namespace Device

/-- A reader in slot zero that has slept through a half of the numbers. -/
theorem stale_reader {log log' : Log ⟨2, 4⟩} {operations : List (Instant × Operation)}
    (holdest : log.oldest = ⟨⟨0, 0, 1⟩, 0⟩) (hrun : log.run operations = log')
    (hslot : log'.page.slot = 0)
    (h : log'.Recalls ⟨⟨32770, 1, [0]⟩, [⟨32769, 1, [0, 7]⟩], 1, ⟨0⟩⟩) :
    let watch := (Watch.start log).follow
      (operations.map (fun operation => .operate operation.1 operation.2) ++ [.look, .look])
    watch.log.entries.map Entry.shown = [(131076, 0), (131077, 7), (131080, 0)] ∧
      watch.found = [⟨⟨0⟩, 0⟩] ∧ watch.cursor ≠ watch.log.frontier := by
  obtain ⟨hlook, hcursor, hfound⟩ := Watch.follow_map_operate (Watch.start log) operations
  obtain ⟨hfirst, hsecond, hentries, hnumber⟩ := Log.steps_stale hslot h
  have hcursor' : (Watch.start log).cursor = ⟨⟨0, 0, 1⟩, 0⟩ := holdest
  rw [hcursor'] at hcursor
  have hlog : (Watch.start log).log.run operations = log' := hrun
  rw [hlog] at hlook
  rw [Watch.follow_append]
  generalize (Watch.start log).follow _ = watch at hlook hcursor hfound ⊢
  rw [← hcursor, ← hlook] at hfirst
  obtain ⟨hlog₁, hcursor₁, hfound₁⟩ := Watch.look_of_step hfirst
  dsimp only at hcursor₁
  rw [← hcursor₁, ← hlook, ← hlog₁] at hsecond
  obtain ⟨hlog₂, hcursor₂, hfound₂⟩ := Watch.look_of_step hsecond
  have hlooked : watch.follow [.look, .look] = watch.look.look := rfl
  dsimp only
  rw [hlooked, hlog₂, hlog₁, hlook]
  refine ⟨hentries, ?_, fun hend => ?_⟩
  · rw [hfound₂, hfound₁, hfound]
    rfl
  · have hstale := congrArg (·.page.number) (hcursor₂.symm.trans hend)
    rw [Log.frontier, hnumber, hcursor₁] at hstale
    exact absurd hstale (by decide)

/-- On two pages, a reader comes for its first step after 32770 rotations. Between its two steps
there is none, but the page in its slot now has a number so far ahead of the reader's that it
counts as older. The reader finds the anchor of that page and gives it the position of a record of
long ago, misses the two records before it, which are not gone, and stops short of the frontier. -/
theorem not_served_late :
    let late : List (Instant × Operation) :=
      .replicate 32769 (⟨0⟩, .rotate) ++ [(⟨0⟩, .append 7), (⟨0⟩, .rotate)]
    let moves : List Move :=
      late.map (fun operation => .operate operation.1 operation.2) ++ [.look, .look]
    (∀ move ∈ moves, move.Regular ⟨2, 4⟩) ∧ (∀ gap ∈ (Move.gaps moves).tail, gap < 32768) ∧
      ∃ log, (new ⟨2, 4⟩).actAll [.boot ⟨0, 1⟩ ⟨0⟩] = running log ∧
        let watch := (Watch.start log).follow moves
        watch.log.entries.map Entry.shown = [(131076, 0), (131077, 7), (131080, 0)] ∧
          watch.found = [⟨⟨0⟩, 0⟩] ∧ watch.cursor ≠ watch.log.frontier := by
  intro late moves
  have hregular : ∀ move ∈ moves, move.Regular ⟨2, 4⟩ := by
    intro move hmove
    simp only [moves, late, List.map_append, List.map_replicate, List.mem_append,
      List.mem_replicate, List.map_cons, List.map_nil, List.mem_cons, List.not_mem_nil,
      or_false] at hmove
    rcases hmove with (⟨-, rfl⟩ | rfl | rfl) | rfl | rfl <;> decide
  have hgaps : ∀ gap ∈ (Move.gaps moves).tail, gap < 32768 := by
    rw [Move.gaps, Move.gapsFrom_append, Move.gapsFrom_map_operate]
    simp [Move.gapsFrom]
  obtain ⟨log, hlog, holdest, hslot⟩ : ∃ log,
      (new ⟨2, 4⟩).actAll [.boot ⟨0, 1⟩ ⟨0⟩] = running log ∧ log.oldest = ⟨⟨0, 0, 1⟩, 0⟩ ∧
        log.page.slot = 0 := ⟨_, rfl, by decide +kernel, by decide +kernel⟩
  obtain ⟨log', hlog', hstart⟩ := recalls_start (g := ⟨2, 4⟩) (by decide)
    (by decide : (⟨0, 1⟩ : Config).Fits ⟨2, 4⟩) ⟨0⟩
  cases running.inj (hlog.symm.trans hlog')
  have hanchor : log.Recalls (.start 1 ⟨0⟩) := hstart
  obtain ⟨log', hrun, hslot', hrecalls⟩ :=
    Log.recalls_rotations_append hanchor hslot (by decide : 32769 = 32768 + 1)
  have hnumbers : UInt16.ofNat 32768 + 1 = 32769 ∧ (32769 : UInt16) + 1 = 32770 := by decide
  rw [hnumbers.1, hnumbers.2] at hrecalls
  exact ⟨hregular, hgaps, log, hlog, stale_reader holdest hrun hslot' hrecalls⟩

end Device

end RingLog

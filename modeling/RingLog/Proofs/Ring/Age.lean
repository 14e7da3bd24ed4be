import Mathlib.Data.Set.Insert
import RingLog.Ring.Cursor

/-!
# The age of pages

A page is begun after a certain count of others, and its number is what sixteen bits keep of that
count (`Cursor.OnPage`). Two numbers differ by the lag of one page behind the other, as far as
sixteen bits keep it, and a cursor is behind if the lag is neither zero nor 2^15 or more. So the
numbers tell which of two pages was begun first as long as the counts are at most 2^15 apart, except
that a page just 2^15 ahead is not seen to be so.

Cursors that are all less than 2^15 pages apart (`Cursor.Near`) are in the order of their pages,
also where the numbers wrap.

Main statement: `Cursor.isBehind_order`.
-/

namespace RingLog

namespace Cursor

variable {cursor other : Cursor} {x y : Nat} {cursors : Set Cursor} {count : Cursor → Nat}

/-- The cursor stands on the page that was begun after so many others. -/
def OnPage (cursor : Cursor) (count : Nat) : Prop :=
  cursor.page.number = UInt16.ofNat count

instance (cursor : Cursor) (count : Nat) : Decidable (cursor.OnPage count) :=
  inferInstanceAs (Decidable (_ = _))

/-- The cursors stand on the pages of the given counts, which are less than 2^15 apart. -/
structure Near (cursors : Set Cursor) (count : Cursor → Nat) : Prop where
  onPage : ∀ cursor ∈ cursors, cursor.OnPage (count cursor)
  lt_add : ∀ cursor ∈ cursors, ∀ other ∈ cursors, count cursor < count other + 32768

/-- A cursor is behind if there is some lag, and less than half of all numbers. -/
theorem isBehind_iff_lag (cursor other : Cursor) : cursor.isBehind other ↔
    0 < (other.page.number - cursor.page.number).toNat ∧
      (other.page.number - cursor.page.number).toNat < 32768 := by
  rw [isBehind, Bool.and_eq_true, bne_iff_ne, decide_eq_true_eq, ← UInt16.toNat_inj.ne,
    UInt16.lt_iff_toNat_lt, Nat.pos_iff_ne_zero]
  rfl

/-- What is left of the lag of two counts when their numbers are subtracted. -/
theorem OnPage.lag_eq (hx : cursor.OnPage x) (hy : other.OnPage y) (hle : x ≤ y + 65536) :
    (other.page.number - cursor.page.number).toNat = (y + 65536 - x) % 65536 := by
  rw [hx, hy, UInt16.toNat_sub, UInt16.toNat_ofNat', UInt16.toNat_ofNat']
  omega

/-- Up to half of all numbers apart, the earlier page is behind and the later one is not. -/
theorem OnPage.isBehind_iff (hx : cursor.OnPage x) (hy : other.OnPage y) (hle : x ≤ y + 32768)
    (hlt : y < x + 32768) : cursor.isBehind other ↔ x < y := by
  rw [isBehind_iff_lag, hx.lag_eq hy (by omega)]
  omega

/-- Half of all numbers ahead is too far to be seen. -/
example : isBehind ⟨⟨0, 0xffff, 1⟩, 5⟩ ⟨⟨1, 0x7fff, 1⟩, 0⟩ = false := by decide

namespace Near

theorem isBehind_iff (h : Near cursors count) (hcursor : cursor ∈ cursors)
    (hother : other ∈ cursors) : cursor.isBehind other ↔ count cursor < count other :=
  (h.onPage _ hcursor).isBehind_iff (h.onPage _ hother)
    (Nat.le_of_lt (h.lt_add _ hcursor _ hother)) (h.lt_add _ hother _ hcursor)

theorem not_isBehind_self (h : Near cursors count) (hcursor : cursor ∈ cursors) :
    ¬cursor.isBehind cursor := by
  rw [h.isBehind_iff hcursor hcursor]
  exact Nat.lt_irrefl _

theorem not_isBehind_of_isBehind (h : Near cursors count) (hcursor : cursor ∈ cursors)
    (hother : other ∈ cursors) (hbehind : cursor.isBehind other) : ¬other.isBehind cursor := by
  rw [h.isBehind_iff hcursor hother] at hbehind
  rw [h.isBehind_iff hother hcursor]
  exact Nat.lt_asymm hbehind

theorem isBehind_trans (h : Near cursors count) {third : Cursor} (hcursor : cursor ∈ cursors)
    (hother : other ∈ cursors) (hthird : third ∈ cursors) (hbehind : cursor.isBehind other)
    (hbehind' : other.isBehind third) : cursor.isBehind third := by
  rw [h.isBehind_iff hcursor hother] at hbehind
  rw [h.isBehind_iff hother hthird] at hbehind'
  rw [h.isBehind_iff hcursor hthird]
  exact Nat.lt_trans hbehind hbehind'

end Near

/-- Numbers tell which of two pages was begun first if the counts are at most 2^15 apart and the
other page is not just so far ahead. On cursors that are all less than 2^15 pages apart this is a
strict order. -/
theorem isBehind_order :
    (∀ (cursor other : Cursor) (x y : Nat), cursor.OnPage x → other.OnPage y →
      x ≤ y + 32768 → y ≤ x + 32768 → y ≠ x + 32768 → (cursor.isBehind other ↔ x < y)) ∧
    ∀ (cursors : Set Cursor) (count : Cursor → Nat), Near cursors count →
      (∀ cursor ∈ cursors, ¬cursor.isBehind cursor) ∧
      (∀ cursor ∈ cursors, ∀ other ∈ cursors,
        cursor.isBehind other → ¬other.isBehind cursor) ∧
      ∀ cursor ∈ cursors, ∀ other ∈ cursors, ∀ third ∈ cursors,
        cursor.isBehind other → other.isBehind third → cursor.isBehind third := by
  refine ⟨fun cursor other x y hx hy hle hle' hne => ?_, fun cursors count hnear => ⟨?_, ?_, ?_⟩⟩
  · exact hx.isBehind_iff hy hle (Nat.lt_of_le_of_ne hle' hne)
  · exact fun cursor hcursor => hnear.not_isBehind_self hcursor
  · exact fun cursor hcursor other hother => hnear.not_isBehind_of_isBehind hcursor hother
  · exact fun cursor hcursor other hother third hthird =>
      hnear.isBehind_trans hcursor hother hthird

/-- Three pages in a row are in order although the numbers wrap behind the first of them. -/
theorem isBehind_order_wrap :
    let old : Cursor := ⟨⟨0, 0xffff, 1⟩, 5⟩
    let middle : Cursor := ⟨⟨1, 0, 1⟩, 3⟩
    let young : Cursor := ⟨⟨2, 1, 1⟩, 0⟩
    Near {old, middle, young} (fun cursor => cursor.page.slot + 0xffff) ∧
      old.isBehind middle ∧ middle.isBehind young ∧ old.isBehind young ∧
      ¬young.isBehind old ∧ ¬old.isBehind old := by
  intro old middle young
  have hnear : Near {old, middle, young} (fun cursor => cursor.page.slot + 0xffff) := by
    refine ⟨?_, ?_⟩
    · rintro cursor (rfl | rfl | rfl) <;> decide
    · rintro cursor (rfl | rfl | rfl) other (rfl | rfl | rfl) <;> decide
  obtain ⟨hirrefl, hasymm, htrans⟩ := isBehind_order.2 _ _ hnear
  have hfirst : old.isBehind middle := (isBehind_order.1 old middle 0xffff 0x10000 rfl rfl
    (by decide) (by decide) (by decide)).mpr (by decide)
  have hsecond : middle.isBehind young := (isBehind_order.1 middle young 0x10000 0x10001 rfl rfl
    (by decide) (by decide) (by decide)).mpr (by decide)
  have hboth : old.isBehind young :=
    htrans old (by simp) middle (by simp) young (by simp) hfirst hsecond
  exact ⟨hnear, hfirst, hsecond, hboth, hasymm old (by simp) young (by simp) hboth,
    hirrefl old (by simp)⟩

end Cursor

end RingLog

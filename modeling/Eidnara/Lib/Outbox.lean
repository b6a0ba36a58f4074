import Mathlib.Data.List.Nodup
import Mathlib.Data.List.Perm.Basic

/-!
# Outboxes with an order constraint

An outbox takes items in and lets them out, not always in the order in which
they came.  A relation says which earlier item holds a later one back.  If no
item leaves while a pending one holds it back, then along the whole run related
items leave in the order in which they came.
-/

namespace Eidnara.Lib

open List

variable {α : Type*}

/-! ## Order of two items in a list without repetition -/

theorem not_pair_sublist_swap {xs : List α} {x y : α} (hnodup : xs.Nodup)
    (hxy : [x, y] <+ xs) : ¬ [y, x] <+ xs := by
  induction xs with
  | nil => cases hxy
  | cons z xs ih =>
    intro hyx
    have hz : z ∉ xs := (nodup_cons.mp hnodup).1
    cases hxy with
    | cons _ hxy =>
      cases hyx with
      | cons _ hyx => exact ih (nodup_cons.mp hnodup).2 hxy hyx
      | cons_cons _ hyx => exact hz (hxy.subset (by simp))
    | cons_cons _ hy =>
      cases hyx with
      | cons _ hyx => exact hz (hyx.subset (by simp))
      | cons_cons _ _ => exact hz (singleton_sublist.mp hy)

theorem pair_sublist_of_append_singleton {xs : List α} {x y z : α}
    (h : [x, y] <+ xs ++ [z]) (hne : y ≠ z) : [x, y] <+ xs := by
  obtain ⟨left, right, hsplit, hleft, hright⟩ := sublist_append_iff.mp h
  rcases right with _ | ⟨r, right⟩
  · rw [append_nil] at hsplit
    rwa [hsplit]
  · -- a nonempty right part ends with the appended item
    have hlast : (left ++ r :: right).getLast? = some y := by rw [← hsplit]; rfl
    have hz : r :: right = [z] := sublist_singleton.mp hright |>.resolve_left (by simp)
    rw [hz] at hlast
    simp only [getLast?_append, getLast?_singleton, Option.some_or,
      Option.some.injEq] at hlast
    exact absurd hlast.symm hne

/-! ## Outboxes -/

/-- What waits, what has left and what ever came, each in its order. -/
structure Outbox (α : Type*) where
  pending : List α
  published : List α
  pushed : List α

namespace Outbox

def empty : Outbox α := ⟨[], [], []⟩

/-- One item comes in, or one leaves that no earlier pending item holds back. -/
inductive Step (holds : α → α → Prop) : Outbox α → Outbox α → Prop
  | push (box : Outbox α) (item : α) (hfresh : item ∉ box.pushed) :
      Step holds box
        ⟨box.pending ++ [item], box.published, box.pushed ++ [item]⟩
  | publish (box : Outbox α) (earlier later : List α) (item : α)
      (hpending : box.pending = earlier ++ item :: later)
      (hfree : ∀ other ∈ earlier, ¬ holds other item) :
      Step holds box ⟨earlier ++ later, box.published ++ [item], box.pushed⟩

/-- Nothing is lost or doubled, and held items leave after those that hold them. -/
structure Ordered (holds : α → α → Prop) (box : Outbox α) : Prop where
  nodup : box.pushed.Nodup
  perm : (box.published ++ box.pending).Perm box.pushed
  sublist : box.pending <+ box.pushed
  order : ∀ x y, holds x y → [x, y] <+ box.pushed → y ∈ box.published →
    [x, y] <+ box.published

theorem ordered_empty (holds : α → α → Prop) : Ordered holds (empty : Outbox α) where
  nodup := nodup_nil
  perm := List.Perm.refl _
  sublist := List.Sublist.refl _
  order := by
    intro x y _ _ hy
    simp [empty] at hy

variable {holds : α → α → Prop} {box : Outbox α}

theorem Ordered.push (h : Ordered holds box) {item : α} (hfresh : item ∉ box.pushed) :
    Ordered holds ⟨box.pending ++ [item], box.published, box.pushed ++ [item]⟩ where
  nodup := nodup_append.mpr ⟨h.nodup, nodup_singleton _, by
    intro x hx y hy hxy
    rw [mem_singleton.mp hy] at hxy
    exact hfresh (hxy ▸ hx)⟩
  perm := by
    rw [← append_assoc]
    exact h.perm.append_right _
  sublist := h.sublist.append (List.Sublist.refl _)
  order := by
    intro x y hxy hpair hy
    have hpushed : y ∈ box.pushed := h.perm.subset (mem_append_left _ hy)
    have hne : y ≠ item := fun heq => hfresh (heq ▸ hpushed)
    exact h.order x y hxy (pair_sublist_of_append_singleton hpair hne) hy

theorem Ordered.publish (h : Ordered holds box) {earlier later : List α} {item : α}
    (hpending : box.pending = earlier ++ item :: later)
    (hfree : ∀ other ∈ earlier, ¬ holds other item) :
    Ordered holds ⟨earlier ++ later, box.published ++ [item], box.pushed⟩ where
  nodup := h.nodup
  perm := by
    refine List.Perm.trans ?_ h.perm
    have hmiddle : item :: (earlier ++ later) ~ earlier ++ item :: later :=
      perm_middle.symm
    rw [hpending, append_assoc]
    exact List.Perm.append_left _ hmiddle
  sublist := by
    refine List.Sublist.trans ?_ (hpending ▸ h.sublist)
    exact (List.Sublist.refl _).append (sublist_cons_self _ _)
  order := by
    intro x y hxy hpair hy
    rcases mem_append.mp hy with hold | hnew
    · exact (h.order x y hxy hpair hold).trans (sublist_append_left _ _)
    · obtain rfl : y = item := mem_singleton.mp hnew
      have hx : x ∈ box.published ++ box.pending :=
        h.perm.symm.subset (hpair.subset mem_cons_self)
      rcases mem_append.mp hx with hleft | hwaits
      · exact (singleton_sublist.mpr hleft).append (List.Sublist.refl _)
      · -- a pending item that came earlier would stand in front and hold it back
        rw [hpending] at hwaits
        rcases mem_append.mp hwaits with hearlier | hrest
        · exact absurd hxy (hfree x hearlier)
        · have hsub : earlier ++ y :: later <+ box.pushed := hpending ▸ h.sublist
          have hne : x ≠ y := by
            intro heq
            rw [heq] at hpair
            exact not_nodup_pair y (hpair.nodup h.nodup)
          have hlater : x ∈ later := (mem_cons.mp hrest).resolve_left hne
          have hswap : [y, x] <+ box.pushed := by
            have htail : [y] ++ [x] <+ earlier ++ y :: later :=
              ((singleton_sublist.mpr hlater).cons_cons y).trans
                (sublist_append_right _ _)
            exact htail.trans hsub
          exact absurd hswap (not_pair_sublist_swap h.nodup hpair)

theorem Ordered.step {box' : Outbox α} (h : Ordered holds box) (hstep : Step holds box box') :
    Ordered holds box' := by
  cases hstep with
  | push item hfresh => exact h.push hfresh
  | publish earlier later item hpending hfree => exact h.publish hpending hfree

theorem Ordered.run {box' : Outbox α} (h : Ordered holds box)
    (hrun : Relation.ReflTransGen (Step holds) box box') : Ordered holds box' := by
  induction hrun with
  | refl => exact h
  | tail _ hstep ih => exact ih.step hstep

end Outbox

end Eidnara.Lib

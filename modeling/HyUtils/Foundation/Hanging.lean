import Mathlib.Data.List.Nodup
import Mathlib.Logic.Function.Basic

/-!
# Lists that hang from a head

A head has one pointer, to the first node of its list. Each node points to the node behind it, and
back to the pointer that leads to it: the one of the head, or the one in the node before it.

## Main definitions

* `Place`: where a pointer to a node is
* `Hooks`: the pointers of the heads and of the nodes
* `setFirst`, `setNext`, `setPprev`, `store`: the writes of one pointer
* `Hangs m h l`: the nodes of `l`, all different, hang from the head `h`
* `Frame m m' h l`: between `m` and `m'` only the head `h` and the nodes of `l` are written

## Main results

* `Hangs.cons`, `Hangs.remove`: the edits of a list
* `Frame.hangs`: what is written elsewhere leaves a list alone
-/

namespace Hanging

variable {β α : Type*}

/-- Where a pointer to a node is: in a head, or in the node before it. -/
inductive Place (β α : Type*)
  | first (h : β)
  | next (a : α)

/-- The pointers of a node. A null pointer is no value. -/
structure Links (β α : Type*) where
  next : Option α
  pprev : Option (Place β α)

/-- The pointers of the heads and of the nodes; where there is no memory there is none. -/
@[ext] structure Hooks (β α : Type*) where
  first : β → Option (Option α)
  links : α → Option (Links β α)

/-- The place of the pointer behind the nodes of `l`. -/
def placeAfter (h : β) (l : List α) : Place β α := l.getLast?.elim (.first h) .next

@[simp] theorem placeAfter_nil (h : β) : placeAfter h ([] : List α) = .first h := rfl

theorem placeAfter_append_cons (h : β) (l₁ : List α) (a : α) (l₂ : List α) :
    placeAfter h (l₁ ++ a :: l₂) = placeAfter h (a :: l₂) := by
  rw [placeAfter, placeAfter, List.getLast?_append_cons]

theorem placeAfter_concat (h : β) (l : List α) (a : α) : placeAfter h (l ++ [a]) = .next a := by
  rw [placeAfter_append_cons]
  rfl

/-! ## Writes -/

section Writes

variable [DecidableEq β] [DecidableEq α]

/-- Write the pointer of a head. -/
def setFirst (m : Hooks β α) (h : β) (p : Option α) : Option (Hooks β α) :=
  (m.first h).map fun _ => { m with first := Function.update m.first h (some p) }

/-- Write the pointer of a node to the one behind it. -/
def setNext (m : Hooks β α) (a : α) (p : Option α) : Option (Hooks β α) :=
  (m.links a).map fun links =>
    { m with links := Function.update m.links a (some { links with next := p }) }

/-- Write the pointer of a node back to the pointer that leads to it. -/
def setPprev (m : Hooks β α) (a : α) (place : Option (Place β α)) : Option (Hooks β α) :=
  (m.links a).map fun links =>
    { m with links := Function.update m.links a (some { links with pprev := place }) }

/-- Write the pointer at a place. -/
def store (m : Hooks β α) (place : Place β α) (p : Option α) : Option (Hooks β α) :=
  match place with
  | .first h => setFirst m h p
  | .next a => setNext m a p

end Writes

/-! ## Lists -/

/-- Different nodes, one behind the other, the first of them at the head. -/
structure Hangs (m : Hooks β α) (h : β) (l : List α) : Prop where
  first : m.first h = some l.head?
  links : ∀ l₁ a l₂, l = l₁ ++ a :: l₂ → m.links a = some ⟨l₂.head?, some (placeAfter h l₁)⟩
  nodup : l.Nodup

/-- Only the head `h` and the nodes of `l` are written. -/
structure Frame (m m' : Hooks β α) (h : β) (l : List α) : Prop where
  first : ∀ h' ≠ h, m'.first h' = m.first h'
  links : ∀ a ∉ l, m'.links a = m.links a

section Lists

variable {m m' : Hooks β α} {h h' : β} {l l' l₁ l₂ : List α} {n : α}

theorem Hangs.nil (hfirst : m.first h = some none) : Hangs m h [] where
  first := hfirst
  links := fun l₁ a l₂ heq =>
    absurd heq.symm (List.append_ne_nil_of_right_ne_nil l₁ (List.cons_ne_nil a l₂))
  nodup := List.nodup_nil

/-- A list that is not written still hangs. -/
theorem Frame.hangs (hframe : Frame m m' h l) (hl : Hangs m h' l') (hne : h' ≠ h)
    (hdisjoint : List.Disjoint l' l) : Hangs m' h' l' where
  first := (hframe.first h' hne).trans hl.first
  links := by
    rintro l₁ a l₂ rfl
    have ha : a ∉ l := hdisjoint (List.mem_append_right _ List.mem_cons_self)
    exact (hframe.links a ha).trans (hl.links _ _ _ rfl)
  nodup := hl.nodup

/-- **A node more at the head** of a list. -/
theorem Hangs.cons (hl : Hangs m h l) (hn : n ∉ l) (hfirst : m'.first h = some (some n))
    (hnew : m'.links n = some ⟨l.head?, some (.first h)⟩)
    (hhead : ∀ a ∈ l.head?, m'.links a = (m.links a).map ({ · with pprev := some (.next n) }))
    (hrest : ∀ a ∈ l.tail, m'.links a = m.links a) : Hangs m' h (n :: l) where
  first := hfirst
  links := by
    intro l₁ a l₂ heq
    rcases List.cons_eq_append_iff.mp heq with ⟨rfl, hcons⟩ | ⟨l₁, rfl, rfl⟩
    · obtain ⟨rfl, rfl⟩ := List.cons_eq_cons.mp hcons
      exact hnew
    · have hlinks := hl.links _ _ _ rfl
      cases l₁ with
      | nil =>
        -- the node that was the first one
        rw [hhead a rfl, hlinks]
        rfl
      | cons b l₁ =>
        have hafter : placeAfter h (n :: b :: l₁) = placeAfter h (b :: l₁) :=
          placeAfter_append_cons h [n] b l₁
        rw [hrest a (List.mem_append_right _ List.mem_cons_self), hlinks, hafter]
  nodup := List.nodup_cons.mpr ⟨hn, hl.nodup⟩

/-- **A node less** in a list: the pointer that led to it leads to the node behind it, which points
back to that pointer. -/
theorem Hangs.remove (hl : Hangs m h (l₁ ++ n :: l₂))
    (hfirst : m'.first h = if l₁ = [] then some l₂.head? else m.first h)
    (hlast : ∀ a ∈ l₁.getLast?, m'.links a = (m.links a).map ({ · with next := l₂.head? }))
    (hhead : ∀ a ∈ l₂.head?,
      m'.links a = (m.links a).map ({ · with pprev := some (placeAfter h l₁) }))
    (hrest : ∀ a ∈ l₁.dropLast ++ l₂.tail, m'.links a = m.links a) : Hangs m' h (l₁ ++ l₂) where
  first := by
    rw [hfirst, hl.first]
    cases l₁ with
    | nil => rfl
    | cons b l₁ => rfl
  links := by
    intro r₁ a r₂ heq
    rcases List.append_eq_append_iff.mp heq with ⟨t, rfl, rfl⟩ | ⟨t, rfl, hcons⟩
    · -- behind the node that is removed
      have hlinks := hl.links (l₁ ++ n :: t) a r₂ (by simp)
      cases t with
      | nil =>
        rw [hhead a rfl, hlinks, List.append_nil]
        rfl
      | cons b t =>
        have ha : a ∈ l₁.dropLast ++ (b :: t ++ a :: r₂).tail := by simp
        have hafter : placeAfter h (n :: b :: t) = placeAfter h (b :: t) :=
          placeAfter_append_cons h [n] b t
        rw [hrest a ha, hlinks, placeAfter_append_cons, placeAfter_append_cons, hafter]
    · cases t with
      | nil =>
        -- the node that is now the first one behind it
        obtain rfl : a :: r₂ = l₂ := by simpa using hcons
        have hlinks := hl.links (r₁ ++ [n]) a r₂ (by simp)
        rw [hhead a rfl, hlinks, List.append_nil]
        rfl
      | cons b t =>
        obtain ⟨rfl, rfl⟩ := List.cons_eq_cons.mp hcons
        have hlinks := hl.links r₁ a (t ++ n :: l₂) (by simp)
        cases t with
        | nil =>
          -- before the node that is removed
          rw [hlast a (by simp), hlinks]
          rfl
        | cons b t =>
          have ha : a ∈ (r₁ ++ a :: b :: t).dropLast ++ l₂.tail := by
            rw [List.dropLast_append_of_ne_nil (List.cons_ne_nil _ _)]
            simp
          rw [hrest a ha, hlinks]
          rfl
  nodup := (List.nodup_middle.mp hl.nodup).of_cons

end Lists

end Hanging

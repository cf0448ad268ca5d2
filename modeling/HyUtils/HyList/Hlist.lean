import HyUtils.Foundation.Hanging
import HyUtils.HyList.Model

/-!
# Lists with one pointer in the head

The `hlist` part of `include/hy_list.h`, as far as the hash table uses it. A head and a node are at
addresses, and an access to an address without one is a missing result.

## Main definitions

* `initHlistHead`, `hlistAddHead`, `hlistDel`: the functions
* `hlistForEachSafe`: the loop, with a bound on its rounds

## Main results

* `hlistAddHead_hangs`, `hlistDel_hangs`: what the functions make of a list
* `forEachSafe_pass`, `forEachSafe_break`: a loop over a list that its body leaves alone
* `forEachSafe_consume`: a loop whose body takes out each node it is at
-/

namespace HyUtils.HyList

open Hanging

variable {β α : Type} [DecidableEq β] [DecidableEq α]

/-- `INIT_HLIST_HEAD`. -/
def initHlistHead (m : Hooks β α) (ptr : β) : Option (Hooks β α) := setFirst m ptr none

/-- `hlist_add_head`. -/
def hlistAddHead (m : Hooks β α) (n : α) (h : β) : Option (Hooks β α) := do
  let first ← m.first h
  let m ← setNext m n first
  let m ← match first with
    | none => some m
    | some first => setPprev m first (some (.next n))
  let m ← setFirst m h (some n)
  setPprev m n (some (.first h))

/-- `__hlist_del`. -/
def hlistDelBetween (m : Hooks β α) (n : α) : Option (Hooks β α) := do
  let links ← m.links n
  let m ← store m (← links.pprev) links.next
  match links.next with
  | none => some m
  | some next => setPprev m next links.pprev

/-- `hlist_del`. There is no node at the poison. -/
def hlistDel (poison : ListPoison α) (m : Hooks β α) (n : α) : Option (Hooks β α) := do
  let m ← hlistDelBetween m n
  let m ← setNext m n (some poison.poison1)
  setPprev m n (some (.next poison.poison2))

/-! ## Loops -/

section Loops

variable {σ γ : Type} (hooks : σ → Hooks β α) (body : σ → α → Option (σ × Option γ))

/-- `hlist_for_each_entry_safe` from `pos` on. The body may write any part of a state that has the
pointers in it; with a value it breaks. -/
def forEachHlistFrom : ℕ → σ → Option α → Option (σ × Option γ)
  | _, s, none => some (s, none)
  | 0, _, some _ => none
  | fuel + 1, s, some pos => do
    -- the node behind is read before the body runs
    let links ← (hooks s).links pos
    let (s, out) ← body s pos
    match out with
    | some out => some (s, some out)
    | none => forEachHlistFrom fuel s links.next

/-- `hlist_for_each_entry_safe` in at most `fuel` rounds. -/
def hlistForEachSafe (fuel : ℕ) (s : σ) (head : β) : Option (σ × Option γ) := do
  forEachHlistFrom hooks body fuel s (← (hooks s).first head)

end Loops

/-! ## What the functions make of a list -/

section Lists

variable {m : Hooks β α} {h : β} {l l₁ l₂ : List α} {a n : α}

/-- `hlist_add_head` on a node that is on no list. -/
theorem hlistAddHead_hangs (hl : Hangs m h l) (hn : n ∉ l) (hnode : (m.links n).isSome) :
    ∃ m', hlistAddHead m n h = some m' ∧ Hangs m' h (n :: l) ∧ Frame m m' h (n :: l) := by
  obtain ⟨links, hlinks⟩ := Option.isSome_iff_exists.mp hnode
  cases l with
  | nil =>
    refine ⟨⟨Function.update m.first h (some (some n)),
      Function.update m.links n (some ⟨none, some (.first h)⟩)⟩, ?_, hl.cons hn ?_ ?_ ?_ ?_, ?_, ?_⟩
    · simp [hlistAddHead, setNext, setFirst, setPprev, hl.first, hlinks]
    · simp
    · simp
    · simp
    · simp
    · intro h' hne
      simp [hne]
    · intro a ha
      rw [List.mem_singleton] at ha
      simp [ha]
  | cons b l =>
    obtain ⟨hnb, hnl⟩ : n ≠ b ∧ n ∉ l := by simpa using hn
    have hb := hl.links [] b l rfl
    refine ⟨⟨Function.update m.first h (some (some n)),
      Function.update (Function.update (Function.update m.links n
        (some ⟨some b, links.pprev⟩)) b (some ⟨l.head?, some (.next n)⟩)) n
          (some ⟨some b, some (.first h)⟩)⟩, ?_, hl.cons hn ?_ ?_ ?_ ?_, ?_, ?_⟩
    · simp [hlistAddHead, setNext, setFirst, setPprev, hl.first, hlinks, hb, hnb, Ne.symm hnb]
    · simp
    · simp
    · simp [hb, Ne.symm hnb]
    · intro a ha
      have hna : a ≠ n := fun heq => hnl (heq ▸ ha)
      have hba : a ≠ b := fun heq => (List.nodup_cons.mp hl.nodup).1 (heq ▸ ha)
      simp [hna, hba]
    · intro h' hne
      simp [hne]
    · intro a ha
      rw [List.mem_cons, List.mem_cons, not_or, not_or] at ha
      simp [ha.1, ha.2.1]

/-- `hlist_del` of the first node: the pointer in the head is written. -/
theorem hlistDel_hangs_first (poison : ListPoison α) (hl : Hangs m h (n :: l₂)) :
    ∃ m', hlistDel poison m n = some m' ∧ Hangs m' h l₂ ∧ Frame m m' h (n :: l₂) := by
  have hn := hl.links [] n l₂ rfl
  have hfirst := hl.first
  cases l₂ with
  | nil =>
    refine ⟨⟨Function.update m.first h (some none),
      Function.update m.links n (some ⟨some poison.poison1, some (.next poison.poison2)⟩)⟩,
      ?_, .nil ?_, ?_, ?_⟩
    · simp [hlistDel, hlistDelBetween, store, setNext, setFirst, setPprev, hfirst, hn]
    · simp
    · intro h' hne
      simp [hne]
    · intro c hc
      rw [List.mem_singleton] at hc
      simp [hc]
  | cons b l₂ =>
    have hl' : Hangs m h ([] ++ n :: b :: l₂) := hl
    have hb := hl.links [n] b l₂ rfl
    obtain ⟨⟨hnb, hnl⟩, hbl, -⟩ : (n ≠ b ∧ n ∉ l₂) ∧ b ∉ l₂ ∧ l₂.Nodup := by simpa using hl.nodup
    refine ⟨⟨Function.update m.first h (some (some b)),
      Function.update (Function.update m.links b (some ⟨l₂.head?, some (.first h)⟩)) n
        (some ⟨some poison.poison1, some (.next poison.poison2)⟩)⟩,
      ?_, hl'.remove ?_ ?_ ?_ ?_, ?_, ?_⟩
    · simp [hlistDel, hlistDelBetween, store, setNext, setFirst, setPprev, hfirst, hn, hb, hnb]
    · simp
    · simp
    · simp [hb, Ne.symm hnb]
    · intro c hc
      have hcn : c ≠ n := fun heq => hnl (heq ▸ hc)
      have hcb : c ≠ b := fun heq => hbl (heq ▸ hc)
      simp [hcn, hcb]
    · intro h' hne
      simp [hne]
    · intro c hc
      rw [List.mem_cons, List.mem_cons, not_or, not_or] at hc
      simp [hc.1, hc.2.1]

/-- `hlist_del` of a node behind another: the pointer in that one is written. -/
theorem hlistDel_hangs_behind (poison : ListPoison α) (hl : Hangs m h (l₁ ++ a :: n :: l₂)) :
    ∃ m', hlistDel poison m n = some m' ∧ Hangs m' h (l₁ ++ a :: l₂) ∧
      Frame m m' h (l₁ ++ a :: n :: l₂) := by
  have hl' : Hangs m h (l₁ ++ [a] ++ n :: l₂) := by simpa using hl
  rw [List.append_cons l₁ a l₂]
  have hnodup := hl.nodup
  have ha := hl.links l₁ a (n :: l₂) rfl
  have hn := hl'.links (l₁ ++ [a]) n l₂ rfl
  rw [placeAfter_concat] at hn
  -- the two nodes and the rest are all different
  have hdistinct : ∀ c ∈ l₁ ++ l₂, c ≠ a ∧ c ≠ n := by grind
  have han : a ≠ n := by grind
  cases l₂ with
  | nil =>
    refine ⟨⟨m.first,
      Function.update (Function.update m.links a (some ⟨none, some (placeAfter h l₁)⟩)) n
        (some ⟨some poison.poison1, some (.next poison.poison2)⟩)⟩,
      ?_, hl'.remove ?_ ?_ ?_ ?_, ?_, ?_⟩
    · simp [hlistDel, hlistDelBetween, store, setNext, setPprev, ha, hn, Ne.symm han]
    · simp
    · simp [ha, han]
    · simp
    · intro c hc
      obtain ⟨hca, hcn⟩ := hdistinct c (by simpa using hc)
      simp [hcn, hca]
    · exact fun h' _ => rfl
    · intro c hc
      simp only [List.mem_append, List.mem_cons, not_or] at hc
      simp [hc.2.1, hc.2.2.1]
  | cons b l₂ =>
    have hb := hl'.links (l₁ ++ [a] ++ [n]) b l₂ (by simp)
    obtain ⟨hba, hbn⟩ := hdistinct b (by simp)
    refine ⟨⟨m.first,
      Function.update (Function.update (Function.update m.links a
        (some ⟨some b, some (placeAfter h l₁)⟩)) b (some ⟨l₂.head?, some (.next a)⟩)) n
          (some ⟨some poison.poison1, some (.next poison.poison2)⟩)⟩,
      ?_, hl'.remove ?_ ?_ ?_ ?_, ?_, ?_⟩
    · simp [hlistDel, hlistDelBetween, store, setNext, setPprev, ha, hn, hb, hba,
        Ne.symm hbn, Ne.symm han]
    · simp
    · simp [ha, han, Ne.symm hba]
    · simp [hb, hbn, placeAfter_concat]
    · intro c hc
      have hc : c ∈ l₁ ∨ c ∈ l₂ := by simpa using hc
      have hcb : c ≠ b := by grind
      obtain ⟨hca, hcn⟩ := hdistinct c (by grind)
      simp [hcn, hca, hcb]
    · exact fun h' _ => rfl
    · intro c hc
      simp only [List.mem_append, List.mem_cons, not_or] at hc
      simp [hc.2.1, hc.2.2.1, hc.2.2.2.1]

/-- `hlist_del` of a node of a list. -/
theorem hlistDel_hangs (poison : ListPoison α) (hl : Hangs m h (l₁ ++ n :: l₂)) :
    ∃ m', hlistDel poison m n = some m' ∧ Hangs m' h (l₁ ++ l₂) ∧
      Frame m m' h (l₁ ++ n :: l₂) := by
  -- the pointer that leads to the node is in the head, or in the node before it
  rcases List.eq_nil_or_concat l₁ with rfl | ⟨l₁, a, rfl⟩
  · exact hlistDel_hangs_first poison hl
  · rw [List.concat_eq_append, List.append_assoc, List.append_assoc] at *
    exact hlistDel_hangs_behind poison hl

end Lists

/-! ## The rules of the loop -/

section Rules

omit [DecidableEq β] [DecidableEq α]

variable {σ γ : Type} {hooks : σ → Hooks β α} {body : σ → α → Option (σ × Option γ)} {fuel : ℕ}
  {s : σ} {h : β} {l l₁ l₂ : List α} {a : α}

/-- A body that leaves the nodes of `l₁` alone is run at each of them. -/
theorem forEachHlistFrom_append (l₀ l₂ : List α) (hl : Hangs (hooks s) h (l₀ ++ (l₁ ++ l₂)))
    (hskip : ∀ b ∈ l₁, body s b = some (s, none)) (hfuel : l₁.length ≤ fuel) :
    forEachHlistFrom hooks body fuel s (l₁ ++ l₂).head? =
      forEachHlistFrom hooks body (fuel - l₁.length) s l₂.head? := by
  induction l₁ generalizing l₀ fuel with
  | nil => rfl
  | cons b l₁ ih =>
    obtain ⟨fuel, rfl⟩ := Nat.exists_eq_succ_of_ne_zero (Nat.ne_of_gt (Nat.lt_of_lt_of_le
      (Nat.succ_pos _) hfuel))
    have hb := hskip b List.mem_cons_self
    have hrest := ih (l₀ ++ [b]) (by simpa using hl)
      (fun c hc => hskip c (List.mem_cons_of_mem b hc)) (Nat.le_of_succ_le_succ hfuel)
    have hlinks := hl.links l₀ b (l₁ ++ l₂) (by simp)
    rw [List.cons_append, List.head?_cons, forEachHlistFrom, hlinks]
    simp only [Option.bind_eq_bind, Option.bind_some, hb]
    rw [hrest, List.length_cons, Nat.succ_sub_succ]

/-- A loop that goes over the whole list. -/
theorem forEachSafe_pass (hl : Hangs (hooks s) h l)
    (hskip : ∀ b ∈ l, body s b = some (s, none)) (hfuel : l.length ≤ fuel) :
    hlistForEachSafe hooks body fuel s h = some (s, none) := by
  have hfrom := forEachHlistFrom_append [] [] (by simpa using hl) hskip hfuel
  rw [List.append_nil] at hfrom
  rw [hlistForEachSafe, hl.first, Option.bind_eq_bind, Option.bind_some, hfrom, List.head?_nil,
    forEachHlistFrom]

/-- A loop that breaks, or is undefined, at a node. -/
theorem forEachSafe_break (hl : Hangs (hooks s) h (l₁ ++ a :: l₂))
    (hskip : ∀ b ∈ l₁, body s b = some (s, none)) (ha : ∀ s', body s a ≠ some (s', none))
    (hfuel : l₁.length < fuel) : hlistForEachSafe hooks body fuel s h = body s a := by
  have hfrom := forEachHlistFrom_append [] (a :: l₂) (by simpa using hl) hskip hfuel.le
  obtain ⟨n, hn⟩ := Nat.exists_eq_succ_of_ne_zero (Nat.sub_ne_zero_of_lt hfuel)
  rw [hlistForEachSafe, hl.first, Option.bind_eq_bind, Option.bind_some, hfrom, hn,
    List.head?_cons, forEachHlistFrom, hl.links _ _ _ rfl, Option.bind_eq_bind, Option.bind_some]
  cases hbody : body s a with
  | none => rfl
  | some r =>
    obtain ⟨s', out⟩ := r
    cases out with
    | none => exact absurd hbody (ha s')
    | some out => rfl

/-- A loop whose body takes out the node it is at, until the list is empty. -/
theorem forEachSafe_consume {P : σ → List α → Prop} (hP : ∀ {s l}, P s l → Hangs (hooks s) h l)
    (hbody : ∀ {s a l}, P s (a :: l) → ∃ s', body s a = some (s', none) ∧ P s' l)
    (hs : P s l) (hfuel : l.length ≤ fuel) :
    ∃ s', hlistForEachSafe hooks body fuel s h = some (s', none) ∧ P s' [] := by
  have hfrom : ∃ s', forEachHlistFrom hooks body fuel s l.head? = some (s', none) ∧ P s' [] := by
    induction l generalizing s fuel with
    | nil =>
      refine ⟨s, ?_, hs⟩
      rw [List.head?_nil, forEachHlistFrom]
    | cons a l ih =>
      obtain ⟨fuel, rfl⟩ := Nat.exists_eq_succ_of_ne_zero (Nat.ne_of_gt (Nat.lt_of_lt_of_le
        (Nat.succ_pos _) hfuel))
      obtain ⟨s₁, hs₁, h₁⟩ := hbody hs
      obtain ⟨s', hs', h'⟩ := ih h₁ (Nat.le_of_succ_le_succ hfuel)
      refine ⟨s', ?_, h'⟩
      rw [List.head?_cons, forEachHlistFrom, (hP hs).links [] a l rfl]
      simp only [Option.bind_eq_bind, Option.bind_some, hs₁]
      exact hs'
  obtain ⟨s', hs', h'⟩ := hfrom
  refine ⟨s', ?_, h'⟩
  rw [hlistForEachSafe, (hP hs).first, Option.bind_eq_bind, Option.bind_some, hs']

end Rules

end HyUtils.HyList

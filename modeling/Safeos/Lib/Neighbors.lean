import Mathlib.Data.List.Nodup

/-!
# Neighbours in a list

`Neighbors.next l a` is the element right after `a` in `l`, and `Neighbors.prev l b` the element
right before `b`: a step of an iterator of an ordered container, forward (`++it`) and back
(`--it`), with the container as the list of its elements in order. In a list without
repetitions the two steps undo each other (`prev_next`, `next_prev`).

The searches of such a container are `find?` for `lower_bound`, and the last element of a
`takeWhile` for `upper_bound` followed by `--it`: in a list sorted by `r`, the first is the
`r`-least element that passes the test (`find?_eq_or_rel`), and the second the `r`-greatest of
a test closed downwards (`mem_takeWhile_of_rel`, `getLast?_eq_or_rel`).
-/

namespace Neighbors

variable {α : Type*}

section Steps

variable [DecidableEq α]

/-- The element after the first `a`. -/
def next (l : List α) (a : α) : Option α := ((l.dropWhile (· != a)).drop 1).head?

/-- The element before the first `b`. -/
def prev (l : List α) (b : α) : Option α := (l.takeWhile (· != b)).getLast?

@[simp] theorem next_nil (a : α) : next [] a = none := rfl

@[simp] theorem prev_nil (b : α) : prev [] b = none := rfl

theorem next_cons (x : α) (l : List α) (a : α) :
    next (x :: l) a = if x = a then l.head? else next l a := by
  by_cases h : x = a
  · subst h
    simp [next]
  · simp [next, h]

theorem prev_cons (x : α) (l : List α) (b : α) :
    prev (x :: l) b = if x = b then none else some ((prev l b).getD x) := by
  by_cases h : x = b
  · subst h
    simp [prev]
  · simp [prev, h, List.getLast?_cons]

theorem mem_of_next {l : List α} {a b : α} (h : next l a = some b) : b ∈ l := by
  induction l with
  | nil => simp at h
  | cons x l ih =>
    rw [next_cons] at h
    split_ifs at h
    · exact List.mem_cons_of_mem _ (List.mem_of_mem_head? h)
    · exact List.mem_cons_of_mem _ (ih h)

theorem mem_of_prev {l : List α} {a b : α} (h : prev l b = some a) : a ∈ l :=
  (List.takeWhile_sublist _).subset (List.mem_of_getLast? h)

/-- Nothing is before the first element. -/
theorem head?_of_prev_eq_none {l : List α} {b : α} (hb : b ∈ l) (h : prev l b = none) :
    l.head? = some b := by
  cases l with
  | nil => simp at hb
  | cons y l =>
    rw [prev_cons] at h
    split_ifs at h with hy
    · rw [hy]
      rfl

/-- Going back from the element after `a` gives `a`. -/
theorem prev_next {l : List α} (hl : l.Nodup) {a b : α} (h : next l a = some b) :
    prev l b = some a := by
  induction l with
  | nil => simp at h
  | cons x l ih =>
    obtain ⟨hx, hl⟩ := List.nodup_cons.1 hl
    rw [next_cons] at h
    split_ifs at h with hxa
    · -- `b` heads the rest, and `x` is right before it
      obtain ⟨l', rfl⟩ : ∃ l', l = b :: l' := by
        cases l with
        | nil => simp at h
        | cons y l' => exact ⟨l', by simpa using h⟩
      have hxb : x ≠ b := fun hxb => hx (hxb ▸ List.mem_cons_self ..)
      rw [prev_cons, if_neg hxb, prev_cons, if_pos rfl, ← hxa]
      rfl
    · have hxb : x ≠ b := fun hxb => hx (hxb ▸ mem_of_next h)
      rw [prev_cons, if_neg hxb, ih hl h]
      rfl

/-- Going forward from the element before `b` gives `b`, when `b` is in the list. -/
theorem next_prev {l : List α} (hl : l.Nodup) {a b : α} (hb : b ∈ l) (h : prev l b = some a) :
    next l a = some b := by
  induction l with
  | nil => simp at hb
  | cons x l ih =>
    obtain ⟨hx, hl⟩ := List.nodup_cons.1 hl
    rw [prev_cons] at h
    split_ifs at h with hxb
    have hbl : b ∈ l := (List.mem_cons.1 hb).resolve_left fun h => hxb h.symm
    cases hp : prev l b with
    | none =>
      -- `b` heads the rest: `a` is `x`
      rw [hp] at h
      obtain rfl : x = a := Option.some_inj.1 h
      rw [next_cons, if_pos rfl]
      exact head?_of_prev_eq_none hbl hp
    | some a' =>
      rw [hp] at h
      obtain rfl : a' = a := Option.some_inj.1 h
      have hxa : x ≠ a' := fun hxa => hx (hxa ▸ mem_of_prev hp)
      rw [next_cons, if_neg hxa]
      exact ih hl hbl hp

/-- The list around `a` and the element after it. -/
theorem exists_append_of_next {l : List α} {a b : α} (h : next l a = some b) :
    ∃ as bs, l = as ++ a :: b :: bs ∧ a ∉ as := by
  induction l with
  | nil => simp at h
  | cons x l ih =>
    rw [next_cons] at h
    split_ifs at h with hxa
    · obtain ⟨bs, rfl⟩ : ∃ bs, l = b :: bs := by
        cases l with
        | nil => simp at h
        | cons y bs => exact ⟨bs, by simpa using h⟩
      exact ⟨[], bs, by rw [hxa]; rfl, List.not_mem_nil⟩
    · obtain ⟨as, bs, rfl, has⟩ := ih h
      exact ⟨x :: as, bs, rfl, by simp [has, Ne.symm hxa]⟩

/-- Nothing after `a`: it is the last element. -/
theorem exists_append_of_next_eq_none {l : List α} {a : α} (ha : a ∈ l) (h : next l a = none) :
    ∃ as, l = as ++ [a] ∧ a ∉ as := by
  induction l with
  | nil => simp at ha
  | cons x l ih =>
    rw [next_cons] at h
    split_ifs at h with hxa
    · subst hxa
      exact ⟨[], by simp [List.head?_eq_none_iff.1 h], List.not_mem_nil⟩
    · obtain ⟨as, rfl, has⟩ := ih ((List.mem_cons.1 ha).resolve_left fun h => hxa h.symm) h
      exact ⟨x :: as, rfl, by simp [has, Ne.symm hxa]⟩

/-- The list around `b` and the element before it, when `b` is in the list. -/
theorem exists_append_of_prev {l : List α} {a b : α} (hb : b ∈ l) (h : prev l b = some a) :
    ∃ as bs, l = as ++ a :: b :: bs ∧ b ∉ as := by
  induction l with
  | nil => simp at hb
  | cons x l ih =>
    rw [prev_cons] at h
    split_ifs at h with hxb
    have hbl : b ∈ l := (List.mem_cons.1 hb).resolve_left fun h => hxb h.symm
    cases hp : prev l b with
    | none =>
      -- `b` heads the rest, right after `x`
      rw [hp] at h
      obtain rfl : x = a := Option.some_inj.1 h
      obtain ⟨bs, rfl⟩ : ∃ bs, l = b :: bs := by
        have := head?_of_prev_eq_none hbl hp
        cases l with
        | nil => simp at this
        | cons y bs => exact ⟨bs, by simpa using this⟩
      exact ⟨[], bs, rfl, List.not_mem_nil⟩
    | some a' =>
      rw [hp] at h
      obtain rfl : a' = a := Option.some_inj.1 h
      obtain ⟨as, bs, rfl, has⟩ := ih hbl hp
      exact ⟨x :: as, bs, rfl, by simp [has, Ne.symm hxb]⟩

end Steps

/-! ### Searches in a sorted list -/

section Sorted

variable {r : α → α → Prop} {l : List α} {x y : α}

/-- What `find?` returns comes first, in the order, of all that pass the test. -/
theorem find?_eq_or_rel (hl : l.Pairwise r) {p : α → Bool} (h : l.find? p = some x) (hy : y ∈ l)
    (hpy : p y) : y = x ∨ r x y := by
  obtain ⟨-, as, bs, rfl, has⟩ := List.find?_eq_some_iff_append.1 h
  rcases List.mem_append.1 hy with hy | hy
  · -- what precedes the result fails the test
    simpa [hpy] using has y hy
  · rcases List.mem_cons.1 hy with rfl | hy
    · exact .inl rfl
    · exact .inr (List.rel_of_pairwise_cons (List.pairwise_append.1 hl).2.1 hy)

/-- The last element comes after all the others. -/
theorem getLast?_eq_or_rel (hl : l.Pairwise r) (h : l.getLast? = some x) (hy : y ∈ l) :
    y = x ∨ r y x := by
  obtain ⟨ys, rfl⟩ := List.getLast?_eq_some_iff.1 h
  rcases List.mem_append.1 hy with hy | hy
  · exact .inr ((List.pairwise_append.1 hl).2.2 y hy x (List.mem_singleton_self x))
  · exact .inl (List.mem_singleton.1 hy)

/-- `takeWhile` of a test closed downwards keeps all that pass it. -/
theorem mem_takeWhile_of_rel (hl : l.Pairwise r) {p : α → Bool} (hp : ∀ a b, r a b → p b → p a)
    (hy : y ∈ l) (hpy : p y) : y ∈ l.takeWhile p := by
  induction l with
  | nil => simp at hy
  | cons z l ih =>
    obtain ⟨hz, hl⟩ := List.pairwise_cons.1 hl
    rw [List.takeWhile_cons]
    rcases List.mem_cons.1 hy with rfl | hy
    · simp [hpy]
    · -- `z` comes before `y`, so it passes too
      rw [if_pos (hp z y (hz y hy) hpy)]
      exact List.mem_cons_of_mem _ (ih hl hy)

/-- Around two neighbours `a` and `b` of a sorted list: every element comes before `a`, is one of
the two, or comes after `b`. -/
theorem rel_of_mem_split {as bs : List α} {a b : α} (hl : (as ++ a :: b :: bs).Pairwise r)
    (hy : y ∈ as ++ a :: b :: bs) : r y a ∨ y = a ∨ y = b ∨ r b y := by
  obtain ⟨-, hab, has⟩ := List.pairwise_append.1 hl
  simp only [List.mem_append, List.mem_cons] at hy
  rcases hy with hy | rfl | rfl | hy
  · exact .inl (has y hy a (List.mem_cons_self ..))
  · exact .inr (.inl rfl)
  · exact .inr (.inr (.inl rfl))
  · exact .inr (.inr (.inr ((List.pairwise_cons.1 (List.pairwise_cons.1 hab).2).1 y hy)))

theorem ne_of_nodup_split {as bs : List α} {a b : α} (hl : (as ++ a :: b :: bs).Nodup) : a ≠ b :=
  fun hab => (List.nodup_cons.1 (hl.sublist (List.sublist_append_right _ _))).1
    (hab ▸ List.mem_cons_self ..)

theorem rel_of_split {as bs : List α} {a b : α} (hl : (as ++ a :: b :: bs).Pairwise r) : r a b :=
  (List.pairwise_cons.1 (List.pairwise_append.1 hl).2.1).1 b (List.mem_cons_self ..)

end Sorted

end Neighbors

import Ish.Lib.Machine

set_option autoImplicit false

/-! # Locks

What a piece of code does with locks is the list of the locks that it takes and gives back, in
order, on one of its paths. `Follows` says that such a list keeps to a rule for taking locks, gives
back only what is held, and ends as it should.

`Threads` is a set of threads that each have such a list before them: one that wants a lock that is
taken waits for its holder. A rule that orders the locks keeps threads from waiting for each other
in a circle (`Disciplined.not_deadlocked`), and so does any other number that gets larger along a
chain of waiting threads (`not_deadlocked_of_rank`).
-/

namespace Ish.Lib

open Option Function Relation.TransGen

/-- A step of a path through the code, as far as locks are concerned. -/
inductive LockEvent (L A : Type) where
  | acquire (l : L)
  | release (l : L)
  /-- Something else that is done in between. -/
  | work (a : A)
deriving DecidableEq

namespace LockEvent

variable {L A : Type}

/-- The locks in hand after a step. -/
def next (H : Set L) : LockEvent L A → Set L
  | .acquire l => insert l H
  | .release l => H \ {l}
  | .work _ => H

/-- With the locks `H` in hand a lock `l` may be taken if `ok H l`, a lock may be given back if it
is in hand, and `a` may be done if `act H a`. -/
def Allowed (ok : Set L → L → Prop) (act : Set L → A → Prop) (H : Set L) :
    LockEvent L A → Prop
  | .acquire l => ok H l
  | .release l => l ∈ H
  | .work a => act H a

/-- The path keeps to the rule, and at the end `rest` holds of what is in hand. -/
def Follows (ok : Set L → L → Prop) (act : Set L → A → Prop) (rest : Set L → Prop) :
    Set L → List (LockEvent L A) → Prop
  | H, [] => rest H
  | H, e :: es => Allowed ok act H e ∧ Follows ok act rest (next H e) es

/-- The path keeps to the rule and ends with the locks that it started with. -/
def Neutral (ok : Set L → L → Prop) (act : Set L → A → Prop) (H : Set L)
    (es : List (LockEvent L A)) : Prop :=
  Follows ok act (fun H' => H' = H) H es

section Rule

variable {ok : Set L → L → Prop} {act : Set L → A → Prop} {rest : Set L → Prop} {H : Set L}
  {es es' : List (LockEvent L A)}

theorem follows_append :
    Follows ok act rest H (es ++ es') ↔
      Follows ok act (fun H' => Follows ok act rest H' es') H es := by
  induction es generalizing H with
  | nil => exact Iff.rfl
  | cons e es ih => exact and_congr_right fun _ => ih

theorem Follows.imp {rest' : Set L → Prop} (h : Follows ok act rest H es)
    (hrest : ∀ H, rest H → rest' H) : Follows ok act rest' H es := by
  induction es generalizing H with
  | nil => exact hrest H h
  | cons e es ih => exact ⟨h.1, ih h.2⟩

/-- The end of a path is determined by its start. -/
theorem Follows.unique {K : Set L} {rest' : Set L → Prop}
    (h : Follows ok act (fun H' => H' = K) H es) (h' : Follows ok act rest' H es) : rest' K := by
  induction es generalizing H with
  | nil => exact (show H = K from h) ▸ h'
  | cons e es ih => exact ih h.2 h'.2

theorem neutral_nil : Neutral ok act H [] := rfl

/-- A neutral path may be skipped. -/
theorem Neutral.append_iff (h : Neutral ok act H es) :
    Follows ok act rest H (es ++ es') ↔ Follows ok act rest H es' := by
  rw [follows_append]
  constructor
  · intro h'
    exact Follows.unique h h'
  intro h'
  refine Follows.imp h ?_
  rintro H' rfl
  exact h'

theorem Neutral.append (h : Neutral ok act H es) (h' : Neutral ok act H es') :
    Neutral ok act H (es ++ es') :=
  h.append_iff.mpr h'

theorem neutral_flatMap {α : Type} {f : α → List (LockEvent L A)} {xs : List α}
    (h : ∀ x ∈ xs, Neutral ok act H (f x)) : Neutral ok act H (xs.flatMap f) := by
  induction xs with
  | nil => exact neutral_nil
  | cons x xs ih =>
    rw [List.flatMap_cons]
    have hrest : Neutral ok act H (xs.flatMap f) := ih fun y hy => h y (List.mem_cons_of_mem x hy)
    exact (h x List.mem_cons_self).append hrest

/-- A lock around a path. -/
def locked (l : L) (es : List (LockEvent L A)) : List (LockEvent L A) :=
  .acquire l :: (es ++ [.release l])

theorem Neutral.locked {l : L} (hok : ok H l) (hl : l ∉ H) (h : Neutral ok act (insert l H) es) :
    Neutral ok act H (locked l es) := by
  refine ⟨hok, ?_⟩
  rw [next, h.append_iff]
  refine ⟨Set.mem_insert l H, ?_⟩
  exact Set.insert_sdiff_self_of_notMem hl

/-- A second lock is taken under the first one, which is given back before it. -/
def handOver (a b : L) (es es' : List (LockEvent L A)) : List (LockEvent L A) :=
  .acquire a :: .acquire b :: (es ++ .release a :: (es' ++ [.release b]))

theorem Neutral.handOver {a b : L} (ha : ok H a) (hb : ok (insert a H) b) (hna : a ∉ insert b H)
    (hnb : b ∉ H) (h : Neutral ok act (insert b (insert a H)) es)
    (h' : Neutral ok act (insert b H) es') : Neutral ok act H (handOver a b es es') := by
  have hout : insert b (insert a H) \ {a} = insert b H := by
    rw [Set.insert_comm, Set.insert_sdiff_self_of_notMem hna]
  refine ⟨ha, hb, ?_⟩
  rw [next, next, h.append_iff]
  refine ⟨Set.mem_insert_of_mem b (Set.mem_insert a H), ?_⟩
  rw [next, hout, h'.append_iff]
  exact ⟨Set.mem_insert b H, Set.insert_sdiff_self_of_notMem hnb⟩

end Rule

/-! ### An order of the locks -/

section Order

variable {rank : L → ℕ} {H : Set L} {a l : L}

/-- The lock comes after all of those in hand. -/
def Above (rank : L → ℕ) (H : Set L) (l : L) : Prop := ∀ m ∈ H, rank m < rank l

theorem above_empty (l : L) : Above rank ∅ l := by
  intro m hm
  cases hm

theorem Above.insert (ha : rank a < rank l) (h : Above rank H l) : Above rank (insert a H) l := by
  rintro m (rfl | hm)
  · exact ha
  · exact h m hm

theorem Above.le (h : Above rank H a) (ha : rank a ≤ rank l) : Above rank H l :=
  fun m hm => (h m hm).trans_le ha

theorem Above.not_mem (h : Above rank H l) : l ∉ H := fun hmem => lt_irrefl _ (h l hmem)

theorem above_singleton (h : rank a < rank l) : Above rank {a} l := by
  rintro m rfl
  exact h

end Order

end LockEvent

open LockEvent

/-! ## Threads that share locks -/

/-- Who holds each lock, and what each thread has before it. -/
structure Threads (T L A : Type) where
  holder : L → Option T
  todo : T → List (LockEvent L A)

namespace Threads

variable {T L A : Type}
variable {s : Threads T L A} {i j : T} {l : L} {ok : T → Set L → L → Prop}
  {act : T → Set L → A → Prop} {rest : T → Set L → Prop} {es : List (LockEvent L A)}

def held (s : Threads T L A) (i : T) : Set L := {l | s.holder l = some i}

theorem held_unique (hi : l ∈ s.held i) (hj : l ∈ s.held j) : i = j :=
  some.inj (Eq.trans (Eq.symm hi) hj)

/-- The thread waits for a lock that the other has. -/
def Waits (s : Threads T L A) (i j : T) : Prop :=
  ∃ l es, s.todo i = .acquire l :: es ∧ s.holder l = some j

/-- Some threads wait for each other in a circle. -/
def Deadlocked (s : Threads T L A) : Prop := ∃ i, Relation.TransGen s.Waits i i

/-- Nobody waits in a circle if a number grows from each waiting thread to the next one that
waits. -/
theorem not_deadlocked_of_rank (ρ : T → ℕ) (h : ∀ i j k, s.Waits i j → s.Waits j k → ρ i < ρ j) :
    ¬ s.Deadlocked := by
  -- along the chain, up to a last thread that itself waits
  have hchain : ∀ i j, Relation.TransGen s.Waits i j → ∀ k, s.Waits j k → ρ i < ρ j := by
    intro i j hij
    induction hij with
    | single hij =>
      intro k hk
      exact h _ _ k hij hk
    | tail hij hjk ih =>
      intro k hk
      exact (ih _ hjk).trans (h _ _ k hjk hk)
  rintro ⟨i, hi⟩
  obtain ⟨k, hk, -⟩ := head'_iff.mp hi
  exact absurd (hchain i i hi k hk) (lt_irrefl _)

/-- A circle of two. -/
theorem deadlocked_of_two (hij : s.Waits i j) (hji : s.Waits j i) : s.Deadlocked :=
  ⟨i, head hij (single hji)⟩

/-- A circle of three. -/
theorem deadlocked_of_three {k : T} (hij : s.Waits i j) (hjk : s.Waits j k) (hki : s.Waits k i) :
    s.Deadlocked :=
  ⟨i, head hij (head hjk (single hki))⟩

/-! ### Keeping to a rule -/

/-- Every thread keeps to its rule, in what it has before it. -/
def Disciplined (ok : T → Set L → L → Prop) (act : T → Set L → A → Prop)
    (rest : T → Set L → Prop) (s : Threads T L A) : Prop :=
  ∀ i, Follows (ok i) (act i) (rest i) (s.held i) (s.todo i)

/-- A thread that waits asks for a lock that its rule allows. -/
theorem Disciplined.ok_of_wants (h : s.Disciplined ok act rest)
    (htodo : s.todo i = .acquire l :: es) : ok i (s.held i) l := by
  have hi := h i
  rw [htodo] at hi
  exact hi.1

/-- A thread that keeps to its rule gives back what it has. -/
theorem Disciplined.mem_of_release (h : s.Disciplined ok act rest) (l : L)
    (es : List (LockEvent L A)) (htodo : s.todo i = .release l :: es) : l ∈ s.held i := by
  have hi := h i
  rw [htodo] at hi
  exact hi.1

/-- The place of the lock that a thread wants. -/
def wants (s : Threads T L A) (rank : L → ℕ) (i : T) : ℕ :=
  match s.todo i with
  | .acquire l :: _ => rank l
  | _ => 0

theorem wants_eq {rank : L → ℕ} (h : s.todo i = .acquire l :: es) : s.wants rank i = rank l := by
  unfold wants
  rw [h]

/-- **A rule that orders the locks.** If every lock that may be taken comes after those in hand,
nobody waits in a circle. -/
theorem Disciplined.not_deadlocked (h : s.Disciplined ok act rest) (rank : L → ℕ)
    (hrank : ∀ i H l, ok i H l → ∀ m ∈ H, rank m < rank l) : ¬ s.Deadlocked := by
  refine not_deadlocked_of_rank (s.wants rank) ?_
  rintro i j k ⟨l, es, hi, hl⟩ ⟨l', es', hj, -⟩
  rw [wants_eq hi, wants_eq hj]
  exact hrank j _ l' (h.ok_of_wants hj) l hl

/-- No lock is taken and no thread has anything to do. -/
def idle : Threads T L A := ⟨fun _ => none, fun _ => []⟩

theorem idle_held (i : T) : (idle : Threads T L A).held i = ∅ := by
  ext l
  simp [held, idle]

theorem idle_disciplined :
    (idle : Threads T L A).Disciplined ok act (fun _ H => H = ∅) := fun i => idle_held i

/-! ### Steps -/

variable [DecidableEq T]

/-- The thread is given a path to go. -/
def start (s : Threads T L A) (i : T) (es : List (LockEvent L A)) : Threads T L A :=
  { s with todo := update s.todo i es }

theorem start_held (s : Threads T L A) (i j : T) (es : List (LockEvent L A)) :
    (s.start i es).held j = s.held j := rfl

theorem start_todo_self (s : Threads T L A) (i : T) (es : List (LockEvent L A)) :
    (s.start i es).todo i = es := by
  exact update_self i es s.todo

theorem start_todo_of_ne (s : Threads T L A) (h : j ≠ i) (es : List (LockEvent L A)) :
    (s.start i es).todo j = s.todo j := by
  exact update_of_ne h es s.todo

theorem Disciplined.start (h : s.Disciplined ok act rest)
    (hes : Follows (ok i) (act i) (rest i) (s.held i) es) :
    (s.start i es).Disciplined ok act rest := by
  intro j
  rw [start_held]
  unfold Threads.start
  dsimp only
  by_cases hj : j = i
  · subst hj
    rw [update_self]
    exact hes
  · rw [update_of_ne hj]
    exact h j

variable [DecidableEq L]

/-- The next thing that a thread does. A lock that is taken cannot be taken. -/
def exec (s : Threads T L A) (i : T) : Option (Threads T L A × Option A) :=
  match s.todo i with
  | [] => none
  | .acquire l :: es =>
    if (s.holder l).isNone then
      some (⟨update s.holder l (some i), update s.todo i es⟩, none)
    else none
  | .release l :: es =>
    some (⟨update s.holder l none, update s.todo i es⟩, none)
  | .work a :: es => some (⟨s.holder, update s.todo i es⟩, some a)

section Disciplined

variable {ok : T → Set L → L → Prop} {act : T → Set L → A → Prop} {rest : T → Set L → Prop}
variable {s s' : Threads T L A} {i : T}

theorem held_acquire {l : L} (hl : s.holder l = none) (es : List (LockEvent L A)) (j : T) :
    held ⟨update s.holder l (some i), update s.todo i es⟩ j =
      if j = i then insert l (s.held i) else s.held j := by
  ext m
  unfold held
  by_cases hm : m = l
  · subst hm
    by_cases hj : j = i
    · simp [hj]
    · simp [hj, hl, Ne.symm hj]
  by_cases hj : j = i
  · simp [hj, hm]
  · simp [hj, hm]

theorem held_release {l : L} (hl : s.holder l = some i) (es : List (LockEvent L A)) (j : T) :
    held ⟨update s.holder l none, update s.todo i es⟩ j =
      if j = i then s.held i \ {l} else s.held j := by
  ext m
  unfold held
  by_cases hm : m = l
  · subst hm
    by_cases hj : j = i
    · simp [hj]
    · simp [hj, hl, Ne.symm hj]
  by_cases hj : j = i
  · simp [hj, hm]
  · simp [hj, hm]

/-- What a step can be. -/
theorem exec_cases {o : Option A} (h : s.exec i = some (s', o)) :
    ∃ e es, s.todo i = e :: es ∧
      ((∃ l, e = .acquire l ∧ s.holder l = none ∧ o = none ∧
          s' = ⟨update s.holder l (some i), update s.todo i es⟩) ∨
        (∃ l, e = .release l ∧ o = none ∧
          s' = ⟨update s.holder l none, update s.todo i es⟩) ∨
        ∃ a, e = .work a ∧ o = some a ∧ s' = ⟨s.holder, update s.todo i es⟩) := by
  unfold exec at h
  rcases htodo : s.todo i with _ | ⟨e, es⟩
  · simp [htodo] at h
  refine ⟨e, es, rfl, ?_⟩
  cases e with
  | acquire l =>
    simp only [htodo, ite_none_right_eq_some, isNone_iff_eq_none, some.injEq, Prod.mk.injEq] at h
    exact .inl ⟨l, rfl, h.1, h.2.2.symm, h.2.1.symm⟩
  | release l =>
    simp only [htodo, some.injEq, Prod.mk.injEq] at h
    exact .inr (.inl ⟨l, rfl, h.2.symm, h.1.symm⟩)
  | work a =>
    simp only [htodo, some.injEq, Prod.mk.injEq] at h
    exact .inr (.inr ⟨a, rfl, h.2.symm, h.1.symm⟩)

/-- What a step does, to all threads: the one that takes it goes on on its path with the locks that
the step leaves it, and the others are as they were. -/
theorem exec_frame {o : Option A} (h : s.exec i = some (s', o))
    (hrelease : ∀ l es, s.todo i = .release l :: es → l ∈ s.held i) :
    ∃ e es, s.todo i = e :: es ∧ s'.todo = update s.todo i es ∧
      (∀ a, o = some a ↔ e = .work a) ∧
      ∀ j, s'.held j = if j = i then next (s.held i) e else s.held j := by
  obtain ⟨e, es, htodo, hcases⟩ := exec_cases h
  refine ⟨e, es, htodo, ?_⟩
  rcases hcases with ⟨l, rfl, hl, rfl, rfl⟩ | ⟨l, rfl, rfl, rfl⟩ | ⟨a, rfl, rfl, rfl⟩
  · exact ⟨rfl, by simp, held_acquire hl es⟩
  · exact ⟨rfl, by simp, held_release (hrelease l es htodo) es⟩
  refine ⟨rfl, ?_, ?_⟩
  · intro a'
    constructor
    · intro h'
      rw [some.inj h']
    intro h'
    cases h'
    rfl
  intro j
  by_cases hj : j = i
  · rw [if_pos hj, hj]
    rfl
  rw [if_neg hj]
  rfl

/-- **One step.** Who keeps to the rule goes on keeping to it. -/
theorem Disciplined.exec {o : Option A} (h : s.Disciplined ok act rest)
    (hexec : s.exec i = some (s', o)) : s'.Disciplined ok act rest := by
  obtain ⟨e, es, htodo, htodo', -, hheld⟩ := exec_frame hexec h.mem_of_release
  have hi := h i
  rw [htodo] at hi
  intro j
  rw [htodo', hheld]
  by_cases hj : j = i
  · subst hj
    rw [if_pos rfl, update_self]
    exact hi.2
  · rw [if_neg hj, update_of_ne hj]
    exact h j

end Disciplined

/-! ### Threads that make calls -/

/-- A thread with nothing before it makes a call, or a thread goes on. -/
inductive Sched (T C : Type) where
  | call (i : T) (c : C)
  | run (i : T)

/-- The threads make any calls, one after the other; `path` is the path of a call. -/
def callMachine {C : Type} (path : T → C → List (LockEvent L A)) :
    Machine (Threads T L A) (Sched T C) (Option A) where
  step s
    | .call i c => if (s.todo i).isEmpty then some (s.start i (path i c), none) else none
    | .run i => s.exec i

/-- Calls that keep to the rule keep everybody to it. -/
theorem run_disciplined {C : Type} {path : T → C → List (LockEvent L A)} {P : T → C → Prop}
    (hpath : ∀ i c, P i c → Follows (ok i) (act i) (fun H => H = ∅) ∅ (path i c))
    {sched : List (Sched T C)} (hP : ∀ i c, Sched.call i c ∈ sched → P i c) {os : List (Option A)}
    (hrun : (callMachine path).run idle sched = some (s, os)) :
    s.Disciplined ok act (fun _ H => H = ∅) := by
  have halong : (callMachine path).Along
      (fun _ e => ∀ i c, e = Sched.call i c → P i c) (idle : Threads T L A) sched := by
    refine Machine.along_of_forall ?_ idle
    rintro e he _ i c rfl
    exact hP i c he
  refine Machine.run_inv (I := fun s => s.Disciplined ok act (fun _ H => H = ∅)) ?_ idle_disciplined
    halong hrun
  intro s e s' o hs hPe hstep
  cases e with
  | call i c =>
    simp only [callMachine, ite_none_right_eq_some, List.isEmpty_iff, some.injEq,
      Prod.mk.injEq] at hstep
    obtain ⟨hempty, rfl, -⟩ := hstep
    -- a thread with nothing before it holds nothing
    have hheld : s.held i = ∅ := by
      have hi := hs i
      rw [hempty] at hi
      exact hi
    refine hs.start ?_
    rw [hheld]
    exact hpath i c (hPe i c rfl)
  | run i => exact hs.exec hstep

end Threads

end Ish.Lib

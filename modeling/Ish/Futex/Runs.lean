import Ish.Futex.Invariant

set_option autoImplicit false

/-! # Every interleaving keeps the references

The invariant of the references needs two more facts about a state. `futex_lock` is held by the one
thread that is between taking it and giving it back. The pointers of a loop over a queue are the
first and the second of its waiters, so that the waiter a turn takes is in the queue: nobody else
changes a queue while the loop has the lock. A requeue to the same futex turns the queue round, and
the pointers stay at its front.
-/

namespace Ish.Futexes

open Option List Function Ish.Lib State

variable {τ μ : Type} {mem : τ → μ} {hash : μ → UInt32 → Nat} {f fresh : FId} {m : μ} {a : UInt32}
  {σ σ' : State τ μ} {x x' : List FId} {t : τ} {p p0 : Pc τ}

/-! ## The lock -/

def Locked (σ : State τ μ) : Prop := ∀ t, σ.lock = some t ↔ (σ.pc t).locked = true

theorem Locked.of_ne (h : Locked σ) (ht : (σ.pc t).locked = true) {u : τ} (hu : u ≠ t) :
    (σ.pc u).locked = false := by
  have hnot : ¬ (σ.pc u).locked = true := by
    rw [← h u, (h t).mpr ht]
    simp [Ne.symm hu]
  simpa using hnot

theorem afterWake_locked (f : FId) (c : WakeCall) (woken : Nat) :
    (afterWake f c woken : Pc τ).locked = true := by
  unfold afterWake
  split <;> rfl

/-- `futex_put_unlocked` has nothing to do with the threads. -/
theorem put_sameThreads (σ : State τ μ) (f : FId) : SameThreads σ (σ.put f) := by
  unfold put
  split
  · exact ⟨rfl, rfl, rfl, rfl, rfl, rfl⟩
  · split <;> exact ⟨rfl, rfl, rfl, rfl, rfl, rfl⟩

theorem get_sameThreads [DecidableEq μ] (h : Inv mem hash σ x)
    (hget : σ.get hash m a fresh = some (f, σ')) : SameThreads σ σ' := (h.get hget).2.2

/-- The queue of the futex that the call gets is the one it looks up, or a new one. -/
theorem queue_of_get [DecidableEq μ] (h : Inv mem hash σ [])
    (hget : σ.get hash m a fresh = some (f, σ')) :
    (σ.lookup hash m a).elim [] σ.queue = σ'.queue f := by
  have hqueue := (h.get hget).2.2.queue
  unfold State.get at hget
  cases hlook : σ.lookup hash m a with
  | some f0 =>
    simp only [hlook, some.injEq, Prod.mk.injEq] at hget
    rw [hqueue, ← hget.1]
    rfl
  | none =>
    simp only [hlook, ite_none_left_eq_some, some.injEq, Prod.mk.injEq] at hget
    rw [← hget.2.2, ← hget.2.1]
    show [] = update σ.queue fresh [] fresh
    rw [update_self]

/-! ## The pointers of a loop -/

/-- `list_for_each_entry_safe` at the front of the list. -/
def Ahead (l : List τ) (wait tmp : Option τ) : Prop :=
  wait = l.head? ∧ (wait ≠ none → tmp = l.tail.head?)

theorem Ahead.cons {l : List τ} {w : τ} {tmp : Option τ} (h : Ahead l (some w) tmp) :
    ∃ r, l = w :: r ∧ tmp = r.head? := by
  obtain ⟨hhead, htmp⟩ := h
  cases l with
  | nil => simp at hhead
  | cons v r =>
    rw [head?_cons, some.injEq] at hhead
    exact ⟨r, by rw [hhead], htmp (by simp)⟩

def Pc.Pointers (queue : FId → List τ) : Pc τ → Prop
  | .wakeLoop f _ wait tmp _ => Ahead (queue f) wait tmp
  | .requeueLoop f _ _ _ wait tmp _ _ => wait = none ∨ Ahead (queue f) wait tmp
  | _ => True

theorem Pc.pointers_of_unlocked {queue : FId → List τ} {p : Pc τ} (h : p.locked = false) :
    p.Pointers queue := by
  cases p <;> simp_all [Pc.locked, Pc.Pointers]

theorem afterWake_pointers (queue : FId → List τ) (f : FId) (c : WakeCall) (woken : Nat) :
    (afterWake f c woken).Pointers queue := by
  unfold afterWake
  split <;> trivial

def Loops (σ : State τ μ) : Prop := ∀ t, (σ.pc t).Pointers σ.queue

theorem Loops.pointers (h : Loops σ) (hpc : σ.pc t = p) : p.Pointers σ.queue := hpc ▸ h t

/-! ## What holds between the steps -/

structure Consistent (mem : τ → μ) (hash : μ → UInt32 → Nat) (σ : State τ μ) : Prop where
  refs : Inv mem hash σ []
  lock : Locked σ
  loops : Loops σ

theorem init_consistent (memory : μ → UInt32 → Option UInt32) :
    Consistent mem hash (init memory : State τ μ) := by
  refine ⟨?_, ?_, fun _ => trivial⟩
  · constructor <;> simp [init, refs, Pc.waits, Pc.held, Pc.target]
  intro t
  simp [init, Pc.locked]

/-- The waiters of a futex and the references of the calls. -/
theorem references_eq (σ : State τ μ) (f : FId) :
    references σ.calls σ.refs f =
      (σ.calls.filter fun t => σ.wait t = some f).card +
        ∑ t ∈ σ.calls, (σ.pc t).held.count f := by
  have hone : ∀ t, (σ.wait t).toList.count f = if σ.wait t = some f then 1 else 0 := by
    intro t
    cases σ.wait t with
    | none => simp
    | some f' => simp [count_singleton]
  calc references σ.calls σ.refs f
      = ∑ t ∈ σ.calls, ((σ.wait t).toList.count f + (σ.pc t).held.count f) :=
        Finset.sum_congr rfl fun t _ => count_append
    _ = ∑ t ∈ σ.calls, (σ.wait t).toList.count f + ∑ t ∈ σ.calls, (σ.pc t).held.count f :=
        Finset.sum_add_distrib
    _ = _ := by
        rw [Finset.card_filter]
        simp only [hone]

theorem Inv.of_lock (h : Inv mem hash σ x) (owner : Option τ) :
    Inv mem hash { σ with lock := owner } x :=
  { h with }

/-! ## One thread -/

variable [DecidableEq τ]

theorem Locked.acquire (h : Locked σ) (hfree : σ.lock = none) (hlock : σ'.lock = some t)
    (hpc : σ'.pc = update σ.pc t p) (hp : p.locked = true) : Locked σ' := by
  intro u
  rw [hlock, hpc]
  by_cases hu : u = t
  · simp [hu, hp]
  have hnot : ¬ (σ.pc u).locked = true := by
    rw [← h u, hfree]
    simp
  rw [update_of_ne hu]
  simp [hnot, Ne.symm hu]

theorem Locked.release (h : Locked σ) (hheld : (σ.pc t).locked = true) (hlock : σ'.lock = none)
    (hpc : σ'.pc = update σ.pc t p) (hp : p.locked = false) : Locked σ' := by
  intro u
  rw [hlock, hpc]
  by_cases hu : u = t
  · simp [hu, hp]
  rw [update_of_ne hu, h.of_ne hheld hu]
  simp

theorem Locked.goto (h : Locked σ) (hlock : σ'.lock = σ.lock) (hpc : σ'.pc = update σ.pc t p)
    (hp : p.locked = (σ.pc t).locked) : Locked σ' := by
  intro u
  rw [hlock, h u, hpc]
  by_cases hu : u = t
  · rw [hu, update_self, hp]
  · rw [update_of_ne hu]

theorem notify_locked (σ : State τ μ) (w u : τ) : ((σ.notify w).pc u).locked = (σ.pc u).locked := by
  show (update σ.pc w _ u).locked = _
  by_cases hw : u = w
  · rw [hw, update_self]
    cases σ.pc w <;> rfl
  · rw [update_of_ne hw]

theorem Locked.notify (h : Locked σ) (w : τ) : Locked (σ.notify w) :=
  h.goto rfl rfl (by cases σ.pc w <;> rfl)

theorem SameThreads.update_pc (h : SameThreads σ σ') : update σ'.pc t p = update σ.pc t p := by
  rw [h.pc]

theorem ahead_first (l : List τ) : Ahead l (nextOf l none) (nextOf l (nextOf l none)) := by
  cases l with
  | nil => simp [Ahead, nextOf]
  | cons w l => simp [Ahead, nextOf]

/-- The turn takes the first waiter off the queue. -/
theorem ahead_next (r : List τ) : Ahead r r.head? (nextOf r r.head?) := ahead_first r

/-- The turn puts the first waiter at the end of the same queue. -/
theorem ahead_rotate (r : List τ) (w : τ) :
    r.head? = none ∨ Ahead (r ++ [w]) r.head? (nextOf (r ++ [w]) r.head?) := by
  cases r with
  | nil => exact .inl rfl
  | cons v r => exact .inr (by simp [Ahead, nextOf])

theorem Loops.of_update (hpc : σ'.pc = update σ.pc t p) (hp : p.Pointers σ'.queue)
    (hrest : ∀ u, u ≠ t → (σ.pc u).Pointers σ'.queue) : Loops σ' := by
  intro u
  rw [hpc]
  by_cases hu : u = t
  · rw [hu, update_self]
    exact hp
  rw [update_of_ne hu]
  exact hrest u hu

theorem Loops.goto (h : Loops σ) (hqueue : σ'.queue = σ.queue) (hpc : σ'.pc = update σ.pc t p)
    (hp : p.Pointers σ.queue) : Loops σ' :=
  Loops.of_update hpc (hqueue ▸ hp) fun u _ => hqueue ▸ h u

/-- A thread that has the lock may change the queues. -/
theorem Loops.of_locked (hlock : Locked σ) (ht : (σ.pc t).locked = true)
    (hpc : σ'.pc = update σ.pc t p) (hp : p.Pointers σ'.queue) : Loops σ' :=
  Loops.of_update hpc hp fun _ hu => Pc.pointers_of_unlocked (hlock.of_ne ht hu)

theorem put_leave (σ : State τ μ) (f : FId) (t : τ) : (σ.put f).leave t = (σ.leave t).put f := by
  unfold put leave
  cases σ.futexes f with
  | none => rfl
  | some F =>
    dsimp only
    split <;> rfl

theorem put_goto (σ : State τ μ) (f : FId) (t : τ) (p : Pc τ) :
    (σ.put f).goto t p = (σ.goto t p).put f := by
  unfold put goto
  cases σ.futexes f with
  | none => rfl
  | some F =>
    dsimp only
    split <;> rfl

/-- A thread that holds the same references before and after. -/
theorem Inv.goto_same (h : Inv mem hash σ x) (hpc : σ.pc t = p0) (hidle : p0 ≠ .idle)
    (hp : p ≠ .idle) (hwaits : p.waits = p0.waits) (hheld : p.held = p0.held)
    (hasleep : ∀ c, p ≠ .asleep c) (htarget : ∀ q, p.target = some q → p0.target = some q) :
    Inv mem hash (σ.goto t p) x := by
  subst hpc
  refine h.goto hidle hp hwaits (fun f => by rw [hheld]) hasleep ?_
  intro f a hf
  exact h.target t f a (htarget (f, a) hf)

/-! ## Steps -/

variable [DecidableEq μ] {l : Label τ μ} {out : Option (τ × Result)}

theorem Locked.step (hinv : Inv mem hash σ x) (h : Locked σ) (hmoves : Moves mem hash σ l σ' out) :
    Locked σ' := by
  cases hmoves with
  | call hpc | load hpc _ | declines hpc _ | unqueue hpc _ | requeueTurn hpc _ | requeueDone hpc _
  | timeout hpc _ | spurious hpc => exact h.goto rfl rfl (by rw [hpc]; rfl)
  | getWait hpc hlock hget | getWake hpc hlock hget =>
    exact h.acquire hlock rfl (get_sameThreads hinv hget).update_pc rfl
  | relock hpc hlock => exact h.acquire hlock rfl rfl rfl
  | sleeps hpc hword => exact h.release (by rw [hpc]; rfl) rfl rfl rfl
  | putWait hpc | put hpc =>
    exact h.release (by rw [hpc]; rfl) rfl (put_sameThreads σ _).update_pc rfl
  | wakeTurn hpc hmax => exact (h.notify _).goto rfl rfl (by rw [notify_locked, hpc]; rfl)
  | wakeDone hpc hend => exact h.goto rfl rfl (by rw [hpc, afterWake_locked]; rfl)
  | requeueGet hpc hget =>
    have hsame := get_sameThreads hinv hget
    exact h.goto hsame.lock hsame.update_pc (by rw [hpc]; rfl)
  | put2 hpc =>
    exact h.goto (put_sameThreads σ _).lock (put_sameThreads σ _).update_pc (by rw [hpc]; rfl)
  | loadFreed hpc hF | store => exact h

theorem Loops.step (hinv : Inv mem hash σ x) (hlock : Locked σ) (h : Loops σ)
    (hmoves : Moves mem hash σ l σ' out) : Loops σ' := by
  cases hmoves with
  | call hpc | load hpc _ | declines hpc _ | relock hpc _ | requeueDone hpc _ | timeout hpc _
  | spurious hpc => exact h.goto rfl rfl trivial
  | getWait hpc hfree hget =>
    have hsame := get_sameThreads hinv hget
    exact h.goto hsame.queue hsame.update_pc trivial
  | getWake hpc hfree hget =>
    have hsame := get_sameThreads hinv hget
    exact h.goto hsame.queue hsame.update_pc (by rw [hsame.queue]; exact ahead_first _)
  | sleeps hpc _ | unqueue hpc _ => exact Loops.of_locked hlock (by rw [hpc]; rfl) rfl trivial
  | putWait hpc | put2 hpc | put hpc =>
    exact h.goto (put_sameThreads σ _).queue (put_sameThreads σ _).update_pc trivial
  | wakeTurn hpc hmax =>
    rename_i t w fresh f c tmp woken
    obtain ⟨r, hr, rfl⟩ := Ahead.cons (h.pointers hpc)
    refine Loops.of_locked (hlock.notify w) (by rw [notify_locked, hpc]; rfl) rfl ?_
    show Ahead (unlink σ.queue w f) r.head? (nextOf (unlink σ.queue w f) r.head?)
    rw [unlink_head hr (hinv.nodup f)]
    exact ahead_next r
  | wakeDone hpc hend => exact h.goto rfl rfl (afterWake_pointers _ _ _ _)
  | requeueGet hpc hget =>
    have hsame := get_sameThreads hinv hget
    exact h.goto hsame.queue hsame.update_pc (by rw [hsame.queue]; exact .inr (ahead_first _))
  | requeueTurn hpc hmax =>
    rename_i t w fresh f f2 c q tmp woken requeued
    obtain ⟨r, hr, rfl⟩ := Ahead.cons ((h.pointers hpc).resolve_left (by simp))
    refine Loops.of_locked hlock (by rw [hpc]; rfl) rfl ?_
    show r.head? = none ∨ Ahead ((σ.move f f2 w).queue f) r.head?
      (nextOf ((σ.move f f2 w).queue f) r.head?)
    -- to the other futex the queue loses its first waiter, to the same one it turns round
    have hrest := unlink_head hr (hinv.nodup f)
    by_cases hf : f = f2
    · subst hf
      rw [move_queue_self, hrest]
      exact ahead_rotate r w
    · rw [move_queue_of_ne hf, hrest]
      exact .inr (ahead_next r)
  | loadFreed hpc hF | store => exact h

theorem Inv.step (h : Inv mem hash σ []) (hloops : Loops σ) (hmoves : Moves mem hash σ l σ' out) :
    Inv mem hash σ' [] := by
  -- the end of a call that holds one reference
  have hleave : ∀ {t : τ} {f : FId}, (σ.pc t).held = [f] → (σ.pc t).waits = false →
      Inv mem hash ((σ.put f).leave t) [] := by
    intro t f hheld hwaits
    have hidle : σ.pc t ≠ .idle := by
      intro hidle
      simp [hidle, Pc.held] at hheld
    have h1 := h.leave hidle hwaits
    rw [hheld] at h1
    rw [put_leave]
    exact h1.put
  cases hmoves with
  | call hpc => exact h.enter hpc _
  | getWait hpc hlock hget | getWake hpc hlock hget =>
    rename_i t fresh f c σ1
    obtain ⟨h1, hkey, hsame⟩ := h.get hget
    rw [← hsame.pc] at hpc
    refine (h1.of_lock (some t)).goto (by simp [hpc]) (by simp) (by rw [hpc]; rfl) ?_ (by simp) ?_
    · intro f'
      rw [hpc]
      simp [Pc.held]
    intro f' a hf'
    cases hf'
    exact hkey
  | load hpc hF =>
    rename_i t fresh f c F
    obtain ⟨F', hF', hmem, -⟩ := h.target t f c.uaddr (by rw [hpc]; rfl)
    obtain rfl := Option.mem_unique hF hF'
    have h1 : Inv mem hash { σ with failed := σ.failed || !decide (F.mem = mem t) } [] :=
      { h with sound := by simp [h.sound, hmem] }
    exact h1.goto_same hpc (by simp) (by simp) rfl rfl (by simp) fun _ hq => hq
  | loadFreed hpc hF =>
    rename_i t fresh f c
    obtain ⟨F, hF', -⟩ := h.target t f c.uaddr (by rw [hpc]; rfl)
    rw [hF] at hF'
    cases hF'
  | declines hpc _ | requeueDone hpc _ | timeout hpc _ | spurious hpc =>
    exact h.goto_same hpc (by simp) (by simp) rfl rfl (by simp) (by simp [Pc.target])
  | sleeps hpc hword => exact h.sleep hpc
  | relock hpc hlock =>
    exact (h.of_lock _).goto_same hpc (by simp) (by simp) rfl rfl (by simp) (by simp [Pc.target])
  | unqueue hpc hwait => exact h.unqueue hpc hwait
  | putWait hpc | put hpc => exact hleave (by rw [hpc]; rfl) (by rw [hpc]; rfl)
  | wakeTurn hpc hmax =>
    rename_i t w fresh f c tmp woken
    obtain ⟨r, hr, -⟩ := Ahead.cons (hloops.pointers hpc)
    have hne : t ≠ w := by
      rintro rfl
      have hwait := h.queued f t (by rw [hr]; exact mem_cons_self)
      have hwaits := h.waits t
      rw [hwait, hpc] at hwaits
      simp [Pc.waits] at hwaits
    have hpc1 : (σ.notify w).pc t = .wakeLoop f c (some w) tmp woken := by
      rw [← hpc]
      exact update_of_ne hne _ _
    exact (h.wake w).goto_same hpc1 (by simp) (by simp) rfl rfl (by simp) fun _ hq => hq
  | wakeDone hpc hend =>
    rename_i t fresh f c wait tmp woken
    unfold afterWake
    cases c.requeue with
    | none =>
      exact h.goto_same hpc (by simp) (by simp) rfl rfl (by simp) (by simp [Pc.target])
    | some q => exact h.goto_same hpc (by simp) (by simp) rfl rfl (by simp) fun _ hq => hq
  | requeueGet hpc hget =>
    rename_i t fresh f f2 c q woken σ1
    obtain ⟨h1, -, hsame⟩ := h.get hget
    rw [← hsame.pc] at hpc
    refine h1.goto (by simp [hpc]) (by simp) (by rw [hpc]; rfl) ?_ (by simp) (by simp [Pc.target])
    intro f'
    rw [hpc]
    show [f, f2].count f' + 0 = [f].count f' + [f2].count f'
    rw [← count_append]
    rfl
  | requeueTurn hpc hmax =>
    rename_i t w fresh f f2 c q tmp woken requeued
    obtain ⟨r, hr, -⟩ := Ahead.cons ((hloops.pointers hpc).resolve_left (by simp))
    have hheld : (σ.pc t).held = [f, f2] := by rw [hpc]; rfl
    have h1 : Inv mem hash (σ.move f f2 w) [] :=
      h.move (t := t) (by rw [hr]; exact mem_cons_self) (by simp [hheld]) (by simp [hheld])
    exact h1.goto_same hpc (by simp) (by simp) rfl rfl (by simp) (by simp [Pc.target])
  | put2 hpc =>
    rw [put_goto]
    refine Inv.put (h.goto (by simp [hpc]) (by simp) (by rw [hpc]; rfl) ?_ (by simp)
      (by simp [Pc.target]))
    intro f'
    rw [hpc, ← count_append]
    rfl
  | store => exact { h with }

theorem Consistent.step (h : Consistent mem hash σ)
    (hstep : (machine mem hash).step σ l = some (σ', out)) : Consistent mem hash σ' := by
  have hmoves := step_moves hstep
  exact ⟨h.refs.step h.loops hmoves, h.lock.step h.refs hmoves, h.loops.step h.refs h.lock hmoves⟩

/-! ## Runs -/

theorem run_consistent (h : Consistent mem hash σ) {labels : List (Label τ μ)}
    {outs : List (Option (τ × Result))}
    (hrun : (machine mem hash).run σ labels = some (σ', outs)) : Consistent mem hash σ' :=
  Machine.run_inv (P := fun _ _ => True) (I := Consistent mem hash)
    (fun _ _ _ _ h _ hstep => h.step hstep) h
    (Machine.along_of_forall (fun _ _ _ => trivial) _) hrun

/-- **References of futexes.** In every interleaving, the count of a futex in the hash table is the
number of its waiters plus the references of the calls in progress; a queued waiter is in the queue
of its `wait.futex`, once, and in no other; no two futexes have one address; and no assertion
fails. -/
theorem refcount_eq_waiters_add_held {τ μ : Type} [DecidableEq τ] [DecidableEq μ] (mem : τ → μ)
    (hash : μ → UInt32 → Nat) (memory : μ → UInt32 → Option UInt32)
    {labels : List (Label τ μ)} {σ : State τ μ} {outs : List (Option (τ × Result))}
    (hrun : (machine mem hash).run (init memory) labels = some (σ, outs)) :
    (∀ b f, f ∈ σ.buckets b → ∃ F, σ.futexes f = some F ∧
      F.refcount = (σ.calls.filter fun t => σ.wait t = some f).card +
        ∑ t ∈ σ.calls, (σ.pc t).held.count f) ∧
    (∀ t, σ.wait t ≠ none → t ∈ σ.calls) ∧
    (∀ f t, t ∈ σ.queue f → σ.wait t = some f ∧ (σ.queue f).count t = 1) ∧
    (∀ b b' f f' F F', f ∈ σ.buckets b → f' ∈ σ.buckets b' → σ.futexes f = some F →
      σ.futexes f' = some F' → F.mem = F'.mem → F.addr = F'.addr → f = f') ∧
    σ.failed = false := by
  have h := (run_consistent (init_consistent memory) hrun).refs
  refine ⟨?count, ?waiters, ?queued, ?unique, h.sound⟩
  case count =>
    intro b f hf
    obtain ⟨F, hF, -⟩ := (h.chain b f).mp hf
    refine ⟨F, hF, ?_⟩
    rw [h.count f F hF, references_eq σ f]
    simp
  case waiters =>
    intro t ht
    obtain ⟨f, hf⟩ := ne_none_iff_exists'.mp ht
    exact h.mem_calls_of_refs (Inv.mem_refs_of_wait hf)
  case queued =>
    intro f t ht
    exact ⟨h.queued f t ht, count_eq_one_of_mem (h.nodup f) ht⟩
  case unique =>
    intro b b' f f' F F' _ _ hF hF' hmem haddr
    exact h.unique f f' F F' hF hF' hmem haddr

/-- A waiter that is being moved: the other futex has it and the call. -/
theorem refcount_eq_waiters_add_held_requeue :
    ∃ (σ : State (Fin 2) Unit) (outs : List (Option (Fin 2 × Result))),
      (machine (fun _ => ()) (fun _ a => a.toNat)).run (init fun _ _ => some 0)
        [.call 0 (.wait ⟨8, 0, false⟩), .step 0 0, .step 0 0, .step 0 0,
          .call 1 (.wake ⟨8, 0, some ⟨1, 12⟩⟩), .step 1 0, .step 1 0, .step 1 1, .step 1 1] =
        some (σ, outs) ∧
      σ.queue 1 = [0] ∧ (σ.futexes 1).map Futex.refcount = some 2 ∧
      (∀ b f, f ∈ σ.buckets b → ∃ F, σ.futexes f = some F ∧
        F.refcount = (σ.calls.filter fun t => σ.wait t = some f).card +
          ∑ t ∈ σ.calls, (σ.pc t).held.count f) := by
  exact (fun hrun => ⟨_, _, hrun, by rfl, by rfl,
    (refcount_eq_waiters_add_held (fun _ => ()) (fun _ a => a.toNat) _ hrun).1⟩) rfl

end Ish.Futexes

import Ish.Futex.Runs

set_option autoImplicit false

/-! # What a wake returns

`futex_wakelike` (`kernel/futex.c`) counts its turns. The history of a run keeps, for the call of
each thread, the queue it found when it took the lock and the waiters that its two loops took since,
in order. A waiter counts as woken from the turn of the first loop that took it to its next call.

There are two ways in which the count is not that of distinct waiters from the front of the queue. A
requeue to the same futex puts a waiter at the end of the list that the loop goes through, so it
comes round and is counted again, until `requeue_max` is reached. A waiter whose time is up stays in
the queue until it has the lock again; a wake in between counts it, and it returns the timeout all
the same.
-/

namespace Ish.Futexes

open List Function Ish.Lib State Pc Machine

/-! ## The history -/

/-- The call of a thread: the queue when it took the lock, and what its turns took. -/
structure Taking (τ : Type) where
  queue0 : List τ
  woken : List τ
  moved : List τ

structure Tally (τ : Type) where
  taking : τ → Taking τ
  /-- The thread was counted as woken, and has not begun another call. -/
  counted : τ → Bool

def Tally.init {τ : Type} : Tally τ := ⟨fun _ => ⟨[], [], []⟩, fun _ => false⟩

section Model

variable {τ μ : Type} [DecidableEq τ] [DecidableEq μ]

def Tally.wake (H : Tally τ) (t w : τ) : Tally τ where
  taking := update H.taking t
    { H.taking t with woken := (H.taking t).woken ++ [w] }
  counted := update H.counted w true

def Tally.move (H : Tally τ) (t w : τ) : Tally τ :=
  { H with
    taking := update H.taking t
      { H.taking t with moved := (H.taking t).moved ++ [w] } }

def noteTurn (mem : τ → μ) (hash : μ → UInt32 → Nat) (H : Tally τ) (σ : State τ μ) :
    Label τ μ → Tally τ
  | .call t _ => { H with counted := update H.counted t false }
  | .step t _ =>
    match σ.pc t with
    | .start (.wake c) =>
      { H with
        taking := update H.taking t
          ⟨(σ.lookup hash (mem t) c.uaddr).elim [] σ.queue, [], []⟩ }
    | .wakeLoop _ c (some w) _ woken =>
      if woken < c.wakeMax.toNat then H.wake t w else H
    | .requeueLoop _ _ _ q (some w) _ _ requeued =>
      if requeued < q.max.toNat then H.move t w else H
    | _ => H
  | _ => H

def tallyMachine (mem : τ → μ) (hash : μ → UInt32 → Nat) :
    Machine (State τ μ × Tally τ) (Label τ μ) (Option (τ × Result)) :=
  (machine mem hash).record (noteTurn mem hash)

/-! ## What a turn finds -/

/-- The thread is out of the condition variable, and not because it was notified. -/
def Pc.expired : Pc τ → Bool
  | .waking _ r => decide (r ≠ .ok)
  | _ => false

/-- The waiter that a wake takes has not run out of time. A requeue to the same futex has one waiter
to go round at most, or goes round once at most. -/
def StepCounts (σ : State τ μ) : Label τ μ → Prop
  | .step t _ =>
    match σ.pc t with
    | .wakeLoop _ c (some w) _ woken => woken < c.wakeMax.toNat → (σ.pc w).expired = false
    | .requeueGet f c q _ =>
      q.addr = c.uaddr → (σ.queue f).length ≤ 1 ∨ q.max.toNat ≤ (σ.queue f).length
    | _ => True
  | _ => True

end Model

section Counts

variable {τ μ : Type}
variable {e : Taking τ} {queue queue' : FId → List τ} {p : Pc τ} {f : FId} {c : WakeCall} {w : τ}
  {tmp tmp' wait : Option τ} {r : List τ} {woken : Nat} {l : Label τ μ} {out : Option (τ × Result)}

def Taking.InOrder (e : Taking τ) : Prop := e.queue0.Nodup ∧ (e.woken ++ e.moved) <+: e.queue0

def Taking.turns (e : Taking τ) : Nat := e.woken.length + e.moved.length

theorem Taking.InOrder.turns_le (h : e.InOrder) : e.turns ≤ e.queue0.length := by
  have hle := h.2.length_le
  rwa [length_append] at hle

theorem Taking.InOrder.nodup (h : e.InOrder) : (e.woken ++ e.moved).Nodup :=
  h.1.sublist h.2.sublist

/-- The turns took distinct waiters. -/
theorem Taking.InOrder.turns_eq_card [DecidableEq τ] (h : e.InOrder) :
    e.turns = e.woken.toFinset.card + e.moved.toFinset.card := by
  have hnodup := nodup_append.mp h.nodup
  rw [toFinset_card_of_nodup hnodup.1, toFinset_card_of_nodup hnodup.2.1]
  rfl

/-- Where the call is, by what it took and what is left. `rest` are the waiters that were not taken
yet; a requeue to the same futex has the ones it took behind them. -/
def Pc.Taken (queue : FId → List τ) (e : Taking τ) : Pc τ → Prop
  | .wakeLoop f _ _ _ woken | .requeueGet f _ _ woken =>
    e.queue0 = e.woken ++ queue f ∧ e.moved = [] ∧ woken = e.woken.length
  | .requeueLoop f f2 _ q wait _ woken requeued =>
    woken = e.woken.length ∧ requeued = e.moved.length ∧
    ∃ rest, e.queue0 = e.woken ++ e.moved ++ rest ∧
      queue f = rest ++ (if f = f2 then e.moved else []) ∧
      (rest = [] → wait = none ∨ q.max.toNat ≤ requeued) ∧
      (f = f2 → (e.moved ++ rest).length ≤ 1 ∨ q.max.toNat ≤ (e.moved ++ rest).length)
  | .put2 _ _ _ woken | .put _ _ woken => woken = e.turns
  | _ => True

theorem Pc.taken_of_unlocked (h : p.locked = false) : p.Taken queue e := by
  cases p <;> simp_all [locked, Pc.Taken]

def Tallied (σ : State τ μ) (H : Tally τ) : Prop :=
  ∀ t, (H.taking t).InOrder ∧ (σ.pc t).Taken σ.queue (H.taking t)

variable {σ σ' : State τ μ} {H H' : Tally τ} {t : τ} {mem : τ → μ} {hash : μ → UInt32 → Nat}

theorem Tallied.taken (h : Tallied σ H) (hpc : σ.pc t = p) : p.Taken σ.queue (H.taking t) :=
  hpc ▸ (h t).2

/-! ## A turn -/

/-- The first loop takes the front of the queue. -/
theorem taken_wake (hr : queue f = w :: r) (hr' : queue' f = r) (hin : e.InOrder)
    (h : (wakeLoop f c (some w) tmp woken).Taken queue e) :
    ({ e with woken := e.woken ++ [w] } : Taking τ).InOrder ∧
      (wakeLoop f c wait tmp' (woken + 1)).Taken queue'
        { e with woken := e.woken ++ [w] } := by
  obtain ⟨hqueue0, hmoved, hwoken⟩ := h
  have hall : e.queue0 = e.woken ++ [w] ++ r := by
    rw [hqueue0, hr, append_assoc, singleton_append]
  refine ⟨⟨hin.1, ?_⟩, ?_, hmoved, ?_⟩
  · rw [hmoved, append_nil, hall]
    exact prefix_append _ _
  · rw [hr']
    exact hall
  rw [hwoken, length_append]
  rfl

/-- So does the second one. When the other futex is the same one, the waiters are taken once as long
as `rest` lasts, and what the step has met says that the loop is over by then. -/
theorem taken_move {f2 : FId} {q : Requeue} {requeued : Nat} (hr : queue f = w :: r)
    (hr' : queue' f = if f = f2 then r ++ [w] else r) (hmax : requeued < q.max.toNat)
    (hin : e.InOrder) (h : (requeueLoop f f2 c q (some w) tmp woken requeued).Taken queue e) :
    ({ e with moved := e.moved ++ [w] } : Taking τ).InOrder ∧
      (requeueLoop f f2 c q r.head? tmp' woken (requeued + 1)).Taken queue'
        { e with moved := e.moved ++ [w] } := by
  obtain ⟨hwoken, hrequeued, rest, hqueue0, hqueue, hend, hsame⟩ := h
  cases rest with
  | nil =>
    rcases hend rfl with hnone | hle
    · cases hnone
    · omega
  | cons v rest =>
    rw [hr, cons_append] at hqueue
    obtain ⟨rfl, rfl⟩ := cons.inj hqueue
    have hall : e.queue0 = e.woken ++ (e.moved ++ [w]) ++ rest := by
      rw [hqueue0]
      simp only [append_assoc, singleton_append]
    have hlength : ((e.moved ++ [w]) ++ rest).length = (e.moved ++ w :: rest).length := by
      rw [append_assoc, singleton_append]
    refine ⟨⟨hin.1, ?_⟩, hwoken, ?_, rest, hall, ?_, ?_, ?_⟩
    · rw [hall]
      exact prefix_append _ _
    · rw [hrequeued, length_append]
      rfl
    · rw [hr']
      by_cases hf : f = f2
      · rw [if_pos hf, if_pos hf, if_pos hf, append_assoc]
      · rw [if_neg hf, if_neg hf, if_neg hf]
    · rintro rfl
      by_cases hf : f = f2
      · -- the waiters are all taken
        rcases hsame hf with hone | hle
        · have hmoved : e.moved = [] := by
            rw [length_append, length_singleton] at hone
            exact length_eq_zero_iff.mp (by omega)
          left
          rw [if_pos hf, hmoved]
          rfl
        right
        rw [length_append, length_singleton] at hle
        omega
      · left
        rw [if_neg hf]
        rfl
    · intro hf
      rw [show (({ e with moved := e.moved ++ [w] } : Taking τ).moved ++ rest).length =
        (e.moved ++ w :: rest).length from hlength]
      exact hsame hf

theorem taken_afterWake (h : (wakeLoop f c wait tmp woken).Taken queue e) :
    (afterWake f c woken : Pc τ).Taken queue e := by
  unfold afterWake
  cases c.requeue with
  | some q => exact h
  | none =>
    show woken = e.turns
    rw [Taking.turns, h.2.1, length_nil]
    exact h.2.2

/-- The thread has come out of the condition variable without a timeout, or has returned. -/
def Pc.settled : Pc τ → Bool
  | .idle | .waking _ .ok | .back _ .ok | .putWait _ _ .ok => true
  | _ => false

def Told (σ : State τ μ) (H : Tally τ) : Prop :=
  ∀ t, H.counted t = true → (σ.pc t).settled = true

/-- A waiter in a queue is in the condition variable or on its way out of it, while another thread
has the lock. -/
theorem notified_settled (hinv : Inv mem hash σ []) (hlock : Locked σ) (ht : (σ.pc t).locked = true)
    (hne : w ≠ t) (hw : w ∈ σ.queue f) (hexpired : (σ.pc w).expired = false) :
    (σ.pc w).notified.settled = true := by
  have hwaits := hinv.waits w
  rw [hinv.queued f w hw, Option.isSome_some] at hwaits
  have hunlocked := hlock.of_ne ht hne
  cases hpc : σ.pc w with
  | asleep c => rfl
  | waking c r =>
    rw [hpc] at hexpired
    have hr : r = .ok := by simpa [expired] using hexpired
    rw [hr]
    rfl
  | back c r =>
    rw [hpc] at hunlocked
    simp [locked] at hunlocked
  | _ =>
    rw [hpc] at hwaits
    simp [waits] at hwaits

def Pc.looping : Pc τ → Bool
  | .wakeLoop _ _ _ _ _ | .requeueLoop _ _ _ _ _ _ _ _ => true
  | _ => false

theorem afterWake_looping (f : FId) (c : WakeCall) (woken : Nat) :
    (afterWake f c woken : Pc τ).looping = false := by
  unfold afterWake
  cases c.requeue <;> rfl

/-- What a run whose steps meet the condition keeps. -/
structure Counting (mem : τ → μ) (hash : μ → UInt32 → Nat) (s : State τ μ × Tally τ) : Prop where
  consistent : Consistent mem hash s.1
  tallied : Tallied s.1 s.2
  told : Told s.1 s.2

theorem init_counting (memory : μ → UInt32 → Option UInt32) :
    Counting mem hash ((init memory, .init) : State τ μ × Tally τ) := by
  refine ⟨init_consistent memory, ?_, ?_⟩
  · intro t
    exact ⟨⟨nodup_nil, List.nil_prefix⟩, trivial⟩
  intro t ht
  cases ht

variable [DecidableEq τ]

/-- A step of one thread: nothing else changes, or the thread has the lock, and nobody else is in a
loop. -/
theorem Tallied.goto (h : Tallied σ H)
    (hothers : σ'.queue = σ.queue ∨ Locked σ ∧ (σ.pc t).locked = true)
    (hpc : σ'.pc = update σ.pc t p) (hH : ∀ u, u ≠ t → H'.taking u = H.taking u)
    (ht : (H'.taking t).InOrder ∧ p.Taken σ'.queue (H'.taking t)) : Tallied σ' H' := by
  intro u
  rw [hpc]
  by_cases hu : u = t
  · rw [hu, update_self]
    exact ht
  rw [hH u hu, update_of_ne hu]
  rcases hothers with hqueue | ⟨hlock, hlocked⟩
  · rw [hqueue]
    exact h u
  · exact ⟨(h u).1, taken_of_unlocked (hlock.of_ne hlocked hu)⟩

/-- And the history stays. -/
theorem Tallied.goto_same (h : Tallied σ H) (hqueue : σ'.queue = σ.queue)
    (hpc : σ'.pc = update σ.pc t p) (hp : p.Taken σ.queue (H.taking t)) : Tallied σ' H :=
  h.goto (.inl hqueue) hpc (fun _ _ => rfl) ⟨(h t).1, by rwa [hqueue]⟩

/-! ## The history and the calls -/

theorem Told.goto (h : Told σ H) (hcounted : H'.counted = H.counted)
    (hpc : σ'.pc = update σ.pc t p) (hp : (σ.pc t).settled = true → p.settled = true) :
    Told σ' H' := by
  intro u hu
  rw [hcounted] at hu
  rw [hpc]
  by_cases hut : u = t
  · subst hut
    rw [update_self]
    exact hp (h u hu)
  · rw [update_of_ne hut]
    exact h u hu

variable [DecidableEq μ]

/-- The places where the history does not note anything. -/
def Pc.quiet : Pc τ → Bool
  | .start (.wake _) | .wakeLoop _ _ (some _) _ _ | .requeueLoop _ _ _ _ (some _) _ _ _ => false
  | _ => true

theorem noteTurn_of_quiet {fresh : FId} (hpc : σ.pc t = p) (hquiet : p.quiet = true) :
    noteTurn mem hash H σ (.step t fresh) = H := by
  unfold noteTurn
  dsimp only
  rw [hpc]
  split <;> simp_all [quiet]

theorem noteTurn_wake {fresh : FId} (hpc : σ.pc t = .wakeLoop f c (some w) tmp woken) :
    noteTurn mem hash H σ (.step t fresh) = if woken < c.wakeMax.toNat then H.wake t w else H := by
  simp [noteTurn, hpc]

theorem noteTurn_move {fresh f2 : FId} {q : Requeue} {requeued : Nat}
    (hpc : σ.pc t = .requeueLoop f f2 c q (some w) tmp woken requeued) :
    noteTurn mem hash H σ (.step t fresh) = if requeued < q.max.toNat then H.move t w else H := by
  simp [noteTurn, hpc]

theorem Tallied.step (hcons : Consistent mem hash σ) (h : Tallied σ H) (hcond : StepCounts σ l)
    (hmoves : Moves mem hash σ l σ' out) : Tallied σ' (noteTurn mem hash H σ l) := by
  cases hmoves with
  | call hpc => exact h.goto_same rfl rfl trivial
  | getWait hpc hfree hget =>
    rw [noteTurn_of_quiet hpc rfl]
    have hsame := get_sameThreads hcons.refs hget
    exact h.goto_same hsame.queue hsame.update_pc trivial
  | getWake hpc hfree hget =>
    rename_i t fresh f c σ1
    have hsame := get_sameThreads hcons.refs hget
    have hnote : noteTurn mem hash H σ (.step t fresh) =
        { H with taking := update H.taking t ⟨σ1.queue f, [], []⟩ } := by
      simp [noteTurn, hpc, queue_of_get hcons.refs hget]
    rw [hnote]
    refine h.goto (.inl hsame.queue) hsame.update_pc (fun u hu => update_of_ne hu _ _) ?_
    dsimp only
    rw [update_self]
    refine ⟨⟨?_, List.nil_prefix⟩, rfl, rfl, rfl⟩
    rw [hsame.queue]
    exact hcons.refs.nodup f
  | load hpc _ | declines hpc _ | relock hpc _ =>
    rw [noteTurn_of_quiet hpc rfl]
    exact h.goto_same rfl rfl trivial
  | loadFreed hpc hF =>
    rw [noteTurn_of_quiet hpc rfl]
    exact h
  | sleeps hpc _ | unqueue hpc _ =>
    rw [noteTurn_of_quiet hpc rfl]
    exact h.goto (.inr ⟨hcons.lock, by rw [hpc]; rfl⟩) rfl (fun _ _ => rfl) ⟨(h _).1, trivial⟩
  | putWait hpc | put hpc =>
    rw [noteTurn_of_quiet hpc rfl]
    exact h.goto_same (put_sameThreads σ _).queue (put_sameThreads σ _).update_pc trivial
  | wakeTurn hpc hmax =>
    rename_i t w fresh f c tmp woken
    rw [noteTurn_wake hpc, if_pos hmax]
    obtain ⟨r, hr, rfl⟩ := Ahead.cons (hcons.loops.pointers hpc)
    -- the waiter that is notified has neither the lock nor a history
    have hnotify : Tallied (σ.notify w) H := by
      refine h.goto_same rfl rfl ?_
      have hw := (h w).2
      cases hpcw : σ.pc w <;> rw [hpcw] at hw <;> exact hw
    refine hnotify.goto (.inr ⟨hcons.lock.notify w, by rw [notify_locked, hpc]; rfl⟩) rfl
      (fun u hu => update_of_ne hu _ _) ?_
    show (update H.taking t _ t).InOrder ∧ Pc.Taken (unlink σ.queue w) (update H.taking t _ t) _
    rw [update_self]
    exact taken_wake hr (unlink_head hr (hcons.refs.nodup f)) (h t).1 (h.taken hpc)
  | wakeDone hpc hend =>
    rename_i t fresh f c wait tmp woken
    have hnote : noteTurn mem hash H σ (.step t fresh) = H := by
      cases wait with
      | none => exact noteTurn_of_quiet hpc rfl
      | some w => rw [noteTurn_wake hpc, if_neg (by simpa using hend)]
    rw [hnote]
    exact h.goto_same rfl rfl (taken_afterWake (h.taken hpc))
  | requeueGet hpc hget =>
    rename_i t fresh f f2 c q woken σ1
    rw [noteTurn_of_quiet hpc rfl]
    have hcond' : q.addr = c.uaddr → (σ.queue f).length ≤ 1 ∨ q.max.toNat ≤ (σ.queue f).length := by
      simpa [StepCounts, hpc] using hcond
    obtain ⟨h1, ⟨F2, hF2, -, haddr2⟩, hsame⟩ := hcons.refs.get hget
    refine h.goto_same hsame.queue hsame.update_pc ?_
    rw [hsame.queue]
    obtain ⟨hqueue0, hmoved, hwoken⟩ := h.taken hpc
    refine ⟨hwoken, by rw [hmoved]; rfl, σ.queue f, ?_, ?_, ?_, ?_⟩
    · rw [hmoved, append_nil]
      exact hqueue0
    · rw [hmoved, ite_self, append_nil]
    · intro hempty
      left
      rw [hempty]
      rfl
    rintro rfl
    -- one futex has one address
    obtain ⟨F, hF, -, haddr⟩ := h1.target t f c.uaddr (by rw [hsame.pc, hpc]; rfl)
    obtain rfl := Option.mem_unique hF hF2
    rw [hmoved, nil_append]
    exact hcond' (haddr2.symm.trans haddr)
  | requeueTurn hpc hmax =>
    rename_i t w fresh f f2 c q tmp woken requeued
    rw [noteTurn_move hpc, if_pos hmax]
    obtain ⟨r, hr, rfl⟩ := Ahead.cons ((hcons.loops.pointers hpc).resolve_left (by simp))
    have hrest := unlink_head hr (hcons.refs.nodup f)
    have hr' : (σ.move f f2 w).queue f = if f = f2 then r ++ [w] else r := by
      by_cases hf : f = f2
      · subst hf
        rw [if_pos rfl, move_queue_self, hrest]
      · rw [if_neg hf, move_queue_of_ne hf, hrest]
    refine h.goto (.inr ⟨hcons.lock, by rw [hpc]; rfl⟩) rfl (fun u hu => update_of_ne hu _ _) ?_
    show (update H.taking t _ t).InOrder ∧
      Pc.Taken (σ.move f f2 w).queue (update H.taking t _ t) _
    rw [update_self]
    exact taken_move hr hr' hmax (h t).1 (h.taken hpc)
  | requeueDone hpc hend =>
    rename_i t fresh f f2 c q wait tmp woken requeued
    have hnote : noteTurn mem hash H σ (.step t fresh) = H := by
      cases wait with
      | none => exact noteTurn_of_quiet hpc rfl
      | some w => rw [noteTurn_move hpc, if_neg (by simpa using hend)]
    have ht := h.taken hpc
    rw [hnote]
    refine h.goto_same rfl rfl ?_
    rw [ht.1, ht.2.1]
    rfl
  | put2 hpc =>
    rw [noteTurn_of_quiet hpc rfl]
    have ht := h.taken hpc
    exact h.goto_same (put_sameThreads σ _).queue (put_sameThreads σ _).update_pc ht
  | timeout hpc _ | spurious hpc => exact h.goto_same rfl rfl trivial
  | store => exact h

/-! ## The waiters that were counted -/

/-- Outside the first loop and the begin of a call, the history counts nobody. -/
theorem noteTurn_counted {fresh : FId}
    (hpc : ∀ f c w tmp n, σ.pc t = .wakeLoop f c (some w) tmp n → ¬ n < c.wakeMax.toNat) :
    (noteTurn mem hash H σ (.step t fresh)).counted = H.counted := by
  cases hp : σ.pc t with
  | start c => cases c <;> simp [noteTurn, hp]
  | wakeLoop f c wait tmp n =>
    cases wait with
    | none => simp [noteTurn, hp]
    | some w => simp [noteTurn, hp, hpc f c w tmp n hp]
  | requeueLoop f f2 c q wait tmp n m =>
    cases wait with
    | none => simp [noteTurn, hp]
    | some w =>
      simp only [noteTurn, hp]
      by_cases hm : m < q.max.toNat
      · rw [if_pos hm]
        rfl
      · rw [if_neg hm]
  | _ => simp [noteTurn, hp]

theorem Told.step (hcons : Consistent mem hash σ) (h : Told σ H) (hcond : StepCounts σ l)
    (hmoves : Moves mem hash σ l σ' out) : Told σ' (noteTurn mem hash H σ l) := by
  -- a step of one thread outside the first loop
  have hquiet : ∀ {t : τ} {fresh : FId} {σ' : State τ μ} {p p' : Pc τ}, σ.pc t = p →
      σ'.pc = update σ.pc t p' → (p.settled = true → p'.settled = true) →
      (∀ f c w tmp n, p = .wakeLoop f c (some w) tmp n → ¬ n < c.wakeMax.toNat) →
      Told σ' (noteTurn mem hash H σ (.step t fresh)) := by
    intro t fresh σ' p p' hp hpc hsettled hloop
    subst hp
    exact h.goto (noteTurn_counted hloop) hpc hsettled
  cases hmoves with
  | call hpc =>
    rename_i t c
    intro u hu
    change update H.counted t false u = true at hu
    by_cases hut : u = t
    · subst hut
      simp at hu
    rw [update_of_ne hut] at hu
    show (update σ.pc t _ u).settled = true
    rw [update_of_ne hut]
    exact h u hu
  | getWait hpc hfree hget | getWake hpc hfree hget | requeueGet hpc hget =>
    have hsame := get_sameThreads hcons.refs hget
    exact hquiet hpc hsame.update_pc (by simp [settled]) (by simp)
  | load hpc hF | declines hpc hword | sleeps hpc hword | requeueTurn hpc hmax
  | requeueDone hpc hend => exact hquiet hpc rfl (by simp [settled]) (by simp)
  | loadFreed hpc hF =>
    rw [noteTurn_of_quiet hpc rfl]
    exact h
  | @relock _ _ _ r hpc | @unqueue _ _ _ _ r hpc =>
    refine hquiet hpc rfl ?_ (by simp)
    cases r <;> simp [settled]
  | putWait hpc | put hpc =>
    exact hquiet hpc (put_sameThreads σ _).update_pc (fun _ => rfl) (by simp)
  | wakeTurn hpc hmax =>
    rename_i t w fresh f c tmp woken
    obtain ⟨r, hr, rfl⟩ := Ahead.cons (hcons.loops.pointers hpc)
    have hmem : w ∈ σ.queue f := by
      rw [hr]
      exact mem_cons_self
    have hexpired : (σ.pc w).expired = false := by
      simp only [StepCounts, hpc] at hcond
      exact hcond hmax
    have hlocked : (σ.pc t).locked = true := by
      rw [hpc]
      rfl
    have hne : w ≠ t := by
      rintro rfl
      have hwaits := hcons.refs.waits w
      rw [hcons.refs.queued f w hmem, hpc] at hwaits
      simp [waits] at hwaits
    rw [noteTurn_wake hpc, if_pos hmax]
    intro u hu
    change update H.counted w true u = true at hu
    show (update (update σ.pc w (σ.pc w).notified) t _ u).settled = true
    by_cases huw : u = w
    · rw [huw, update_of_ne hne, update_self]
      exact notified_settled hcons.refs hcons.lock hlocked hne hmem hexpired
    rw [update_of_ne huw] at hu
    have hold := h u hu
    by_cases hut : u = t
    · rw [hut, hpc] at hold
      simp [settled] at hold
    rw [update_of_ne hut, update_of_ne huw]
    exact hold
  | wakeDone hpc hend =>
    refine hquiet hpc rfl (by simp [settled]) ?_
    intro f' c' w tmp' n heq
    cases heq
    simpa using hend
  | put2 hpc =>
    exact hquiet hpc (put_sameThreads σ _).update_pc (by simp [settled]) (by simp)
  | timeout hpc htimed | spurious hpc =>
    exact h.goto rfl rfl (by rw [hpc]; simp [settled])
  | store => exact h

/-! ## Runs -/

/-- A thread in a loop can go on, and the history has each turn after which it is still there. -/
theorem loop_turn (mem : τ → μ) (hash : μ → UInt32 → Nat) (H : Tally τ) (fresh : FId)
    (ht : (σ.pc t).looping = true) :
    ∃ σ', (machine mem hash).step σ (.step t fresh) = some (σ', none) ∧
      ((σ'.pc t).looping = true →
        ((noteTurn mem hash H σ (.step t fresh)).taking t).turns = (H.taking t).turns + 1) := by
  show ∃ σ', σ.advance mem hash t fresh = some (σ', none) ∧ _
  cases hpc : σ.pc t with
  | wakeLoop f c wait tmp woken =>
    -- when the loop is over, the thread is elsewhere
    have hover : ((σ.goto t (afterWake f c woken)).pc t).looping = false := by
      rw [← afterWake_looping (τ := τ) f c woken]
      exact congrArg looping (update_self _ _ _)
    cases wait with
    | none =>
      simp only [advance, hpc]
      exact ⟨_, rfl, by simp [hover]⟩
    | some w =>
      simp only [advance, hpc]
      split_ifs with hend
      · exact ⟨_, rfl, by simp [hover]⟩
      refine ⟨_, rfl, fun _ => ?_⟩
      rw [noteTurn_wake hpc, if_pos (Nat.lt_of_not_le hend)]
      simp only [Tally.wake, update_self, Taking.turns, length_append, length_singleton]
      omega
  | requeueLoop f f2 c q wait tmp woken requeued =>
    have hover : ((σ.goto t (.put2 f f2 c (woken + requeued))).pc t).looping = false :=
      congrArg looping (update_self t _ σ.pc)
    cases wait with
    | none =>
      simp only [advance, hpc]
      exact ⟨_, rfl, by simp [hover]⟩
    | some w =>
      simp only [advance, hpc]
      split_ifs with hend
      · exact ⟨_, rfl, by simp [hover]⟩
      refine ⟨_, rfl, fun _ => ?_⟩
      rw [noteTurn_move hpc, if_pos (Nat.lt_of_not_le hend)]
      simp only [Tally.move, update_self, Taking.turns, length_append, length_singleton]
      omega
  | _ => simp [hpc, looping] at ht

theorem Counting.step {s s' : State τ μ × Tally τ} (h : Counting mem hash s)
    (hcond : StepCounts s.1 l) (hstep : (tallyMachine mem hash).step s l = some (s', out)) :
    Counting mem hash s' := by
  obtain ⟨hstep', hnote⟩ := record_step.mp hstep
  have hmoves := step_moves hstep'
  refine ⟨h.consistent.step hstep', ?_, ?_⟩
  · rw [hnote]
    exact h.tallied.step h.consistent hcond hmoves
  rw [hnote]
  exact h.told.step h.consistent hcond hmoves

/-- What a call returns is in the state before its last step. -/
theorem step_result {r : Result} (hstep : (machine mem hash).step σ l = some (σ', some (t, r))) :
    (∃ f c r', σ.pc t = .putWait f c r' ∧ r = .wait r') ∨
      (∃ f c woken, σ.pc t = .put f c woken ∧ r = .count (woken % 2 ^ 32)) := by
  have hmoves := step_moves hstep
  cases hmoves with
  | putWait hpc => exact .inl ⟨_, _, _, hpc, rfl⟩
  | put hpc => exact .inr ⟨_, _, _, hpc, rfl⟩

/-- **The count of a wake.** In a run in which no wake takes a waiter whose time is up, and no
requeue to the same futex goes round more than once, the turns of a call take distinct waiters from
the front of the queue that it found, in order, and each loop can go on and is over when they are
all taken. A call returns the number of distinct waiters it woke and moved, and a waiter that was
counted as woken returns 0. -/
theorem wake_returns_distinct_count {τ μ : Type} [DecidableEq τ] [DecidableEq μ] (mem : τ → μ)
    (hash : μ → UInt32 → Nat) (memory : μ → UInt32 → Option UInt32)
    {labels : List (Label τ μ)} {σ : State τ μ} {H : Tally τ}
    {outs : List (Option (τ × Result))}
    (hcond : (tallyMachine mem hash).Along (fun s l => StepCounts s.1 l)
      (init memory, .init) labels)
    (hrun : (tallyMachine mem hash).run (init memory, .init) labels =
      some ((σ, H), outs)) :
    (∀ t, (H.taking t).queue0.Nodup ∧
      ((H.taking t).woken ++ (H.taking t).moved) <+: (H.taking t).queue0 ∧
      (H.taking t).turns ≤ (H.taking t).queue0.length) ∧
    (∀ t fresh, (σ.pc t).looping = true →
      ∃ σ', (machine mem hash).step σ (.step t fresh) = some (σ', none) ∧
        ((σ'.pc t).looping = true →
          ((noteTurn mem hash H σ (.step t fresh)).taking t).turns =
            (H.taking t).turns + 1)) ∧
    (∀ l σ' t n, (machine mem hash).step σ l = some (σ', some (t, .count n)) →
      n = ((H.taking t).woken.toFinset.card + (H.taking t).moved.toFinset.card) % 2 ^ 32) ∧
    (∀ l σ' t r, (machine mem hash).step σ l = some (σ', some (t, .wait r)) →
      H.counted t = true → r = .ok) := by
  have h : Counting mem hash (σ, H) :=
    run_inv (fun _ _ _ _ hs hP hstep => hs.step hP hstep) (init_counting memory) hcond hrun
  refine ⟨?order, fun t fresh ht => loop_turn mem hash H fresh ht, ?count, ?told⟩
  case order =>
    intro t
    have hin := (h.tallied t).1
    exact ⟨hin.1, hin.2, hin.turns_le⟩
  case count =>
    intro l σ' t n hstep
    rcases step_result hstep with ⟨f, c, r', -, hr⟩ | ⟨f, c, woken, hpc, hr⟩
    · cases hr
    obtain ⟨hin, htaken⟩ := h.tallied t
    have hwoken : woken = (H.taking t).turns := by
      simpa only [hpc, Pc.Taken] using htaken
    obtain rfl : n = woken % 2 ^ 32 := Result.count.inj hr
    rw [← hin.turns_eq_card, hwoken]
  case told =>
    intro l σ' t r hstep hcounted
    rcases step_result hstep with ⟨f, c, r', hpc, hr⟩ | ⟨f, c, woken, -, hr⟩
    · have hsettled := h.told t hcounted
      obtain rfl : r = r' := Result.wait.inj hr
      cases r <;> simp_all [settled]
    · cases hr

/-- One waiter is woken and another is moved. -/
theorem wake_returns_distinct_count_two :
    ∃ (σ : State (Fin 3) Unit) (H : Tally (Fin 3)) (outs : List (Option (Fin 3 × Result))),
      (tallyMachine (fun _ => ()) (fun _ a => a.toNat)).run
        (init fun _ _ => some 0, .init)
        [.call 0 (.wait ⟨8, 0, false⟩), .step 0 0, .step 0 0, .step 0 0,
          .call 1 (.wait ⟨8, 0, false⟩), .step 1 0, .step 1 0, .step 1 0,
          .call 2 (.wake ⟨8, 1, some ⟨5, 12⟩⟩), .step 2 0, .step 2 0, .step 2 0, .step 2 1,
          .step 2 1, .step 2 1, .step 2 1] = some ((σ, H), outs) ∧
      (H.taking 2).woken = [0] ∧ (H.taking 2).moved = [1] ∧
      (∃ l σ', (machine (fun _ => ()) (fun _ a => a.toNat)).step σ l =
        some (σ', some (2, .count 2))) ∧
      (∀ l σ' t n, (machine (fun _ => ()) (fun _ a => a.toNat)).step σ l =
          some (σ', some (t, .count n)) →
        n = ((H.taking t).woken.toFinset.card + (H.taking t).moved.toFinset.card) % 2 ^ 32) := by
  refine (fun hrun => ⟨_, _, _, hrun, by rfl, by rfl, ⟨.step 2 0, _, by rfl⟩,
    (wake_returns_distinct_count (fun _ => ()) (fun _ a => a.toNat) (fun _ _ => some 0)
      ?_ hrun).2.2.1⟩) rfl
  iterate 10 refine (along_cons_of_step rfl _).mpr ⟨trivial, ?_⟩
  -- the waiters are asleep, and the other futex is another one
  iterate 2 refine (along_cons_of_step rfl _).mpr ⟨fun _ => rfl, ?_⟩
  refine (along_cons_of_step rfl _).mpr ⟨fun h => absurd h (by decide), ?_⟩
  iterate 3 refine (along_cons_of_step rfl _).mpr ⟨trivial, ?_⟩
  exact along_nil _ _ _

/-- Two waiters are requeued to where they are, and counted three times; and a waiter whose time is
up is counted as woken and returns the timeout. -/
theorem requeue_counts_twice_and_timeout_is_counted :
    (∃ (σ : State (Fin 3) Unit) (H : Tally (Fin 3)) (outs : List (Option (Fin 3 × Result))),
      (tallyMachine (fun _ => ()) (fun _ a => a.toNat)).run
        (init fun _ _ => some 0, .init)
        [.call 0 (.wait ⟨8, 0, false⟩), .step 0 0, .step 0 0, .step 0 0,
          .call 1 (.wait ⟨8, 0, false⟩), .step 1 0, .step 1 0, .step 1 0,
          .call 2 (.wake ⟨8, 0, some ⟨3, 8⟩⟩), .step 2 0, .step 2 0, .step 2 0, .step 2 0,
          .step 2 0, .step 2 0, .step 2 0, .step 2 0, .step 2 0] = some ((σ, H), outs) ∧
      outs.getLast? = some (some (2, .count 3)) ∧ (H.taking 2).queue0 = [0, 1] ∧
      (H.taking 2).woken = [] ∧ (H.taking 2).moved = [0, 1, 0]) ∧
    (∃ (σ : State (Fin 2) Unit) (H : Tally (Fin 2)) (outs : List (Option (Fin 2 × Result))),
      (tallyMachine (fun _ => ()) (fun _ a => a.toNat)).run
        (init fun _ _ => some 0, .init)
        [.call 0 (.wait ⟨8, 0, true⟩), .step 0 0, .step 0 0, .step 0 0, .timeout 0,
          .call 1 (.wake ⟨8, 1, none⟩), .step 1 0, .step 1 0, .step 1 0, .step 1 0,
          .step 0 0, .step 0 0, .step 0 0] = some ((σ, H), outs) ∧
      some (1, .count 1) ∈ outs ∧ (H.taking 1).woken = [0] ∧ H.counted 0 = true ∧
      outs.getLast? = some (some (0, .wait .timedOut))) := by
  refine ⟨⟨_, _, _, rfl, rfl, rfl, rfl, rfl⟩, ⟨_, _, _, rfl, ?_, rfl, rfl, rfl⟩⟩
  decide

end Counts

end Ish.Futexes

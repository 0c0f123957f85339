import Ish.Futex.Runs

set_option autoImplicit false

/-! # No wakeup is missed

A thread calls `futex_wait` on an address with a value. Another one, of the same address space, has
stored something else there and calls `futex_wake` for as many waiters as there are. The load of the
word and the begin of the sleep are under `futex_lock` together, and so is the whole wake: the
waiter is in the queue by then and is woken, or it loads the word later and does not go to sleep.

`Passed` is what holds from the last turn of the wake on, against any other calls and stores but one
of the old value: nobody sleeps on the address for the old value, and nobody who has the lock has
loaded it. A requeue would take a waiter to a queue that the wake does not look at, so there are
none here, and a waiter is in the queue of the address it was called with.
-/

namespace Ish.Futexes

open Option List Function Ish.Lib State

variable {τ μ : Type} {mem : τ → μ} {hash : μ → UInt32 → Nat}
  {σ σ' : State τ μ} {t w : τ}
variable {m : μ} {a n val : UInt32} {f g fresh : FId} {F F' : Futex μ} {l : Label τ μ}
  {out : Option (τ × Result)} {p : Pc τ} {c : WaitCall} {word : Option UInt32} {tmp wait : Option τ}
  {k : Nat} {labels : List (Label τ μ)} {outs : List (Option (τ × Result))} {r : WaitResult}

/-! ## Calls without a requeue -/

def Call.plain : Call → Bool
  | .wait _ => true
  | .wake c => c.requeue.isNone

def Label.plain : Label τ μ → Bool
  | .call _ c => c.plain
  | _ => true

def Pc.plain : Pc τ → Bool
  | .start c => c.plain
  | .wakeLoop _ c _ _ _ => c.requeue.isNone
  | .requeueGet _ _ _ _ | .requeueLoop _ _ _ _ _ _ _ _ | .put2 _ _ _ _ => false
  | _ => true

def Plain (σ : State τ μ) : Prop := ∀ t, (σ.pc t).plain = true

theorem Plain.plain (h : Plain σ) (hpc : σ.pc t = p) : p.plain = true := hpc ▸ h t

/-- A sleeping thread is in the queue of the address it was called with. -/
def Home (mem : τ → μ) (σ : State τ μ) : Prop :=
  ∀ w c f, σ.pc w = .asleep c → σ.wait w = some f →
    ∃ F, σ.futexes f = some F ∧ F.mem = mem w ∧ F.addr = c.uaddr

/-- What a run without a requeue keeps. -/
structure Settled (mem : τ → μ) (hash : μ → UInt32 → Nat) (σ : State τ μ) : Prop where
  consistent : Consistent mem hash σ
  plain : Plain σ
  home : Home mem σ

theorem init_settled (memory : μ → UInt32 → Option UInt32) :
    Settled mem hash (init memory : State τ μ) := by
  refine ⟨init_consistent memory, fun _ => rfl, ?_⟩
  intro w c f hw
  cases hw

/-! ## The wake -/

/-- Nobody sleeps on the address for the value, and nobody will. -/
structure Passed (mem : τ → μ) (m : μ) (a val : UInt32) (σ : State τ μ) : Prop where
  word : σ.memory m a ≠ some val
  loaded : ∀ u f c word, mem u = m → σ.pc u = .loaded f c word → c.uaddr = a → c.val = val →
    word ≠ some val
  asleep : ∀ u c, mem u = m → σ.pc u = .asleep c → c.uaddr = a → c.val ≠ val

/-- The thread is in the loop of `futex_wake`, and may take as many waiters as there are. -/
structure WakingAll (mem : τ → μ) (t : τ) (a n val : UInt32) (σ : State τ μ) : Prop where
  word : σ.memory (mem t) a ≠ some val
  loop : ∃ f wait tmp k, σ.pc t = .wakeLoop f ⟨a, n, none⟩ wait tmp k ∧
    k + (σ.queue f).length ≤ n.toNat

/-- With the queue empty and the lock held by the wake, the value has passed. -/
theorem WakingAll.passed (h : Settled mem hash σ) (hword : σ.memory (mem t) a ≠ some val)
    (hpc : σ.pc t = .wakeLoop f ⟨a, n, none⟩ wait tmp k) (hqueue : σ.queue f = []) :
    Passed mem (mem t) a val σ := by
  refine ⟨hword, ?_, ?_⟩
  · intro u f' c word hu hu' ha hval
    -- nobody else has the lock
    have hlock := (h.consistent.lock t).mpr (by rw [hpc]; rfl)
    have hlock' := (h.consistent.lock u).mpr (by rw [hu']; rfl)
    obtain rfl := Option.mem_unique hlock hlock'
    rw [hpc] at hu'
    cases hu'
  intro u c hu hu' ha hval
  have hinv := h.consistent.refs
  have hwaits := hinv.waits u
  rw [hu'] at hwaits
  obtain ⟨f', hf'⟩ := isSome_iff_exists.mp hwaits
  -- it sleeps on the futex of the wake
  obtain ⟨F', hF', hm', ha'⟩ := h.home u c f' hu' hf'
  obtain ⟨F, hF, hm, haddr⟩ := hinv.target t f a (by rw [hpc]; rfl)
  have hf : f' = f := hinv.unique f' f F' F hF' hF (by rw [hm', hm, hu]) (by rw [ha', ha, haddr])
  have hmem := hinv.asleep u c f' hu' hf'
  rw [hf, hqueue] at hmem
  cases hmem

/-- The queue is empty when the loop is over. -/
theorem Ahead.eq_nil {l : List τ} {n : Nat} (h : Ahead l wait tmp) (hk : k + l.length ≤ n)
    (hend : wait = none ∨ n ≤ k) : l = [] := by
  rcases hend with hnone | hle
  · rw [h.1, head?_eq_none_iff] at hnone
    exact hnone
  · exact length_eq_zero_iff.mp (by omega)

/-! ## The waiter -/

/-- The `futex_wait` that the thread is in. -/
def Pc.waitCall : Pc τ → Option WaitCall
  | .start (.wait c) | .load _ c | .loaded _ c _ | .asleep c | .waking c _ | .back c _
  | .putWait _ c _ => some c
  | _ => none

/-- While nobody has the lock, the waiter has yet to begin, sleeps or has been woken. -/
theorem waitCall_unlocked (hlock : Locked σ) (hfree : σ.lock = none)
    (hw : (σ.pc w).waitCall = some c) :
    σ.pc w = .start (.wait c) ∨ (∃ r, σ.pc w = .waking c r) ∨ σ.pc w = .asleep c := by
  have hnot : ¬ (σ.pc w).locked = true := by
    rw [← hlock w, hfree]
    simp
  cases hpc : σ.pc w with
  | start call => cases call <;> simp_all [Pc.waitCall]
  | idle | asleep | waking => simp_all [Pc.waitCall]
  | _ => simp [hpc, Pc.locked] at hnot

theorem verdict_none (h : verdict c word = none) : word = some c.val := by
  cases word with
  | none => simp [verdict] at h
  | some v =>
    rw [verdict, ite_eq_right_iff] at h
    by_contra hne
    cases h (by simpa using hne)

/-! ## The address of a futex stays -/

theorem put_key (hF : σ.futexes g = some F) (hF' : (σ.put f).futexes g = some F') :
    F'.mem = F.mem ∧ F'.addr = F.addr := by
  unfold put at hF'
  rcases hf : σ.futexes f with _ | G
  · simp only [hf] at hF'
    obtain rfl := Option.mem_unique hF hF'
    exact ⟨rfl, rfl⟩
  simp only [hf] at hF'
  -- what is left of `f`, if it is not freed, has one reference less
  obtain ⟨new, hnew, heq⟩ : ∃ new : Option (Futex μ),
      (∀ F', new = some F' → F'.mem = G.mem ∧ F'.addr = G.addr) ∧
        update σ.futexes f new g = some F' := by
    by_cases hlast : G.refcount = 1
    · rw [if_pos hlast] at hF'
      exact ⟨none, by simp, hF'⟩
    rw [if_neg hlast] at hF'
    refine ⟨some { G with refcount := G.refcount - 1 }, ?_, hF'⟩
    rintro F' ⟨⟩
    exact ⟨rfl, rfl⟩
  rcases update_cases heq with ⟨rfl, hself⟩ | ⟨-, hold⟩
  · obtain rfl := Option.mem_unique hF hf
    exact hnew F' hself
  obtain rfl := Option.mem_unique hF hold
  exact ⟨rfl, rfl⟩

variable [DecidableEq μ]

theorem get_key (hget : σ.get hash m a fresh = some (f, σ')) (hF : σ.futexes g = some F)
    (hF' : σ'.futexes g = some F') : F'.mem = F.mem ∧ F'.addr = F.addr := by
  unfold State.get at hget
  cases hlook : σ.lookup hash m a with
  | some f0 =>
    simp only [hlook, some.injEq, Prod.mk.injEq] at hget
    have hk : SameKeys σ σ' := sameKeys_update (by rw [← hget.2])
    obtain ⟨G, hG, hm, ha⟩ := hk.get hF'
    obtain rfl := Option.mem_unique hF hG
    exact ⟨hm.symm, ha.symm⟩
  | none =>
    simp only [hlook, ite_none_left_eq_some, some.injEq, Prod.mk.injEq] at hget
    obtain ⟨hfree, -, rfl⟩ := hget
    have hne : g ≠ fresh := by
      rintro rfl
      simp [hF] at hfree
    change update σ.futexes fresh _ g = some F' at hF'
    rw [update_of_ne hne] at hF'
    obtain rfl := Option.mem_unique hF hF'
    exact ⟨rfl, rfl⟩

theorem Inv.lookup_eq {x : List FId} (h : Inv mem hash σ x) (hF : σ.futexes f = some F) :
    σ.lookup hash F.mem F.addr = some f := by
  cases hlook : σ.lookup hash F.mem F.addr with
  | none => exact absurd ⟨rfl, rfl⟩ (h.lookup_none hlook hF)
  | some g =>
    obtain ⟨G, hG, hm, ha⟩ := lookup_some hlook
    rw [h.unique g f G F hG hF hm ha]

theorem get_of_free (hash : μ → UInt32 → Nat) (m : μ) (a : UInt32) (hfree : σ.futexes fresh = none)
    : ∃ f σ1, σ.get hash m a fresh = some (f, σ1) := by
  unfold State.get
  cases σ.lookup hash m a with
  | some f => exact ⟨_, _, rfl⟩
  | none => exact ⟨_, _, by simp [hfree]; exact ⟨rfl, rfl⟩⟩

variable [DecidableEq τ]

theorem step_key (hmoves : Moves mem hash σ l σ' out) (hF : σ.futexes g = some F)
    (hF' : σ'.futexes g = some F') : F'.mem = F.mem ∧ F'.addr = F.addr := by
  have hsame : σ'.futexes g = σ.futexes g → F'.mem = F.mem ∧ F'.addr = F.addr := by
    intro heq
    obtain rfl : F = F' := some.inj (hF.symm.trans (heq.symm.trans hF'))
    exact ⟨rfl, rfl⟩
  cases hmoves with
  | getWait _ _ hget | getWake _ _ hget | requeueGet _ hget => exact get_key hget hF hF'
  | putWait | put2 | put => exact put_key hF hF'
  | requeueTurn hpc hmax =>
    rename_i t w fresh f f2 c q tmp woken requeued
    have hk : SameKeys σ (σ.move f f2 w) := move_sameKeys f f2 w
    obtain ⟨G, hG, hm, ha⟩ := hk.get hF'
    obtain rfl := Option.mem_unique hF hG
    exact ⟨hm.symm, ha.symm⟩
  | _ => exact hsame rfl

/-! ## One step -/

omit [DecidableEq μ] in
theorem Plain.update (h : Plain σ) (hpc : σ'.pc = update σ.pc t p) (hp : p.plain = true) :
    Plain σ' := by
  intro u
  rw [hpc]
  by_cases hu : u = t
  · rw [hu, update_self]
    exact hp
  rw [update_of_ne hu]
  exact h u

theorem Plain.step (hinv : Inv mem hash σ []) (h : Plain σ) (hl : l.plain = true)
    (hmoves : Moves mem hash σ l σ' out) : Plain σ' := by
  cases hmoves with
  | call hpc => exact h.update rfl hl
  | getWait hpc hfree hget => exact h.update (get_sameThreads hinv hget).update_pc rfl
  | getWake hpc hfree hget =>
    have ht := h.plain hpc
    exact h.update (get_sameThreads hinv hget).update_pc ht
  | load | declines | sleeps | relock | unqueue | timeout | spurious => exact h.update rfl rfl
  | putWait hpc | put hpc => exact h.update (put_sameThreads σ _).update_pc rfl
  | wakeTurn hpc hmax =>
    rename_i t w fresh f c tmp woken
    have hnotify : Plain (σ.notify w) := by
      refine h.update rfl ?_
      rw [← h w]
      cases σ.pc w <;> rfl
    have ht := h.plain hpc
    exact hnotify.update rfl ht
  | wakeDone hpc hend =>
    have hnone := isNone_iff_eq_none.mp (h.plain hpc)
    refine h.update rfl ?_
    simp [afterWake, hnone, Pc.plain]
  | requeueGet hpc | requeueTurn hpc | requeueDone hpc | put2 hpc => exact nomatch h.plain hpc
  | loadFreed | store => exact h

theorem of_update {pc pc' : τ → Pc τ} {q : Pc τ} (hpc : pc' = update pc t p) (hp : p ≠ q)
    (hw : pc' w = q) : w ≠ t ∧ pc w = q := by
  have hne : w ≠ t := by
    rintro rfl
    rw [hpc, update_self] at hw
    exact hp hw
  rw [hpc, update_of_ne hne] at hw
  exact ⟨hne, hw⟩

/-- A thread in the condition variable was there, with the same futex, or has loaded the value that
it was called with. -/
theorem step_asleep (hinv : Inv mem hash σ []) (hplain : Plain σ)
    (hmoves : Moves mem hash σ l σ' out) (hw : σ'.pc w = .asleep c) :
    (σ.pc w = .asleep c ∧ σ'.wait w = σ.wait w) ∨
      ∃ f word, σ.pc w = .loaded f c word ∧ verdict c word = none ∧ σ'.wait w = some f := by
  cases hmoves with
  | call | load | declines | relock | requeueDone | timeout | spurious =>
    exact .inl ⟨(of_update rfl (by simp) hw).2, rfl⟩
  | getWait _ _ hget | getWake _ _ hget | requeueGet _ hget =>
    have hsame := get_sameThreads hinv hget
    exact .inl ⟨(of_update hsame.update_pc (by simp) hw).2, congrFun hsame.wait w⟩
  | sleeps hpc hword =>
    rename_i t fresh f c' word
    by_cases hwt : w = t
    · subst hwt
      have hc : (.asleep c' : Pc τ) = .asleep c := by
        rw [← hw]
        exact (update_self w _ σ.pc).symm
      obtain rfl := Pc.asleep.inj hc
      exact .inr ⟨f, word, hpc, hword, update_self _ _ _⟩
    left
    refine ⟨?_, update_of_ne hwt _ _⟩
    rw [← hw]
    exact (update_of_ne hwt _ _).symm
  | unqueue hpc hwait =>
    obtain ⟨hne, hold⟩ := of_update rfl (by simp) hw
    exact .inl ⟨hold, update_of_ne hne _ _⟩
  | putWait | put2 | put =>
    have hsame := put_sameThreads σ
    exact .inl ⟨(of_update (hsame _).update_pc (by simp) hw).2, congrFun (hsame _).wait w⟩
  | wakeTurn hpc hmax =>
    obtain ⟨-, hold⟩ := of_update rfl (by simp) hw
    obtain ⟨-, hold⟩ := of_update rfl ((Pc.notified_spec _).2.2.2.2 c) hold
    exact .inl ⟨hold, rfl⟩
  | wakeDone hpc hend =>
    refine .inl ⟨(of_update rfl ?_ hw).2, rfl⟩
    unfold afterWake
    split <;> simp
  | requeueTurn hpc hmax => exact nomatch hplain.plain hpc
  | loadFreed | store => exact .inl ⟨hw, rfl⟩

theorem Home.step (hinv : Inv mem hash σ []) (hinv' : Inv mem hash σ' []) (hplain : Plain σ)
    (h : Home mem σ) (hmoves : Moves mem hash σ l σ' out) : Home mem σ' := by
  intro w c f hw hwait
  obtain ⟨F', hF'⟩ := ne_none_iff_exists'.mp (hinv'.alive f (.inr ⟨w, Inv.mem_refs_of_wait hwait⟩))
  -- the futex has the address it had when the thread got it
  have hold : ∃ F, σ.futexes f = some F ∧ F.mem = mem w ∧ F.addr = c.uaddr := by
    rcases step_asleep hinv hplain hmoves hw with ⟨hpc, hsame⟩ | ⟨f', word, hpc, -, hf'⟩
    · exact h w c f hpc (hsame.symm.trans hwait)
    obtain rfl := Option.mem_unique hf' hwait
    exact hinv.target w f' c.uaddr (by rw [hpc]; rfl)
  obtain ⟨F, hF, hm, ha⟩ := hold
  obtain ⟨hm', ha'⟩ := step_key hmoves hF hF'
  exact ⟨F', hF', hm'.trans hm, ha'.trans ha⟩

/-- A word that a thread has loaded was in memory, at the address of the futex. -/
theorem step_loaded (hinv : Inv mem hash σ []) (hmoves : Moves mem hash σ l σ' out)
    (hw : σ'.pc w = .loaded f c word) : σ.pc w = .loaded f c word ∨
      (σ.pc w = .load f c ∧ ∃ F, σ.futexes f = some F ∧ word = σ.memory (mem w) F.addr) := by
  cases hmoves with
  | getWait _ _ hget | getWake _ _ hget | requeueGet _ hget =>
    exact .inl (of_update (get_sameThreads hinv hget).update_pc (by simp) hw).2
  | load hpc hF =>
    rename_i t fresh f' c' F
    by_cases hwt : w = t
    · subst hwt
      have heq : (.loaded f' c' (σ.memory (mem w) F.addr) : Pc τ) = .loaded f c word := by
        rw [← hw]
        exact (update_self w _ σ.pc).symm
      obtain ⟨rfl, rfl, rfl⟩ := Pc.loaded.inj heq
      exact .inr ⟨hpc, F, hF, rfl⟩
    left
    rw [← hw]
    exact (update_of_ne hwt _ _).symm
  | putWait | put2 | put => exact .inl (of_update (put_sameThreads σ _).update_pc (by simp) hw).2
  | wakeTurn hpc hmax =>
    rename_i t w' fresh f' c' tmp woken
    obtain ⟨-, hold⟩ := of_update rfl (by simp) hw
    by_cases hww : w = w'
    · subst hww
      change update σ.pc w (σ.pc w).notified w = _ at hold
      rw [update_self] at hold
      left
      cases hpc' : σ.pc w <;> simp_all [Pc.notified]
    left
    rw [← hold]
    exact (update_of_ne hww _ _).symm
  | wakeDone hpc hend =>
    refine .inl (of_update rfl ?_ hw).2
    unfold afterWake
    split <;> simp
  | loadFreed | store => exact .inl hw
  | _ => exact .inl (of_update rfl (by simp) hw).2

/-! ## The word -/

/-- The label is not a store of the value at the address. -/
def Label.keepsOff (m : μ) (a val : UInt32) : Label τ μ → Prop
  | .store m' a' v => m' = m → a' = a → v ≠ some val
  | _ => True

theorem step_word (hinv : Inv mem hash σ []) (hmoves : Moves mem hash σ l σ' out)
    (hl : l.keepsOff m a val) (h : σ.memory m a ≠ some val) : σ'.memory m a ≠ some val := by
  have hsame : σ'.memory = σ.memory → σ'.memory m a ≠ some val := by
    intro hmem
    rw [hmem]
    exact h
  cases hmoves with
  | getWait hpc hfree hget | getWake hpc hfree hget | requeueGet hpc hget =>
    exact hsame (get_sameThreads hinv hget).memory
  | putWait hpc | put2 hpc | put hpc => exact hsame (put_sameThreads σ _).memory
  | store =>
    rename_i m' a' v
    show update σ.memory m' (update (σ.memory m') a' v) m a ≠ some val
    by_cases hm : m = m'
    · subst hm
      rw [update_self]
      by_cases ha : a = a'
      · subst ha
        rw [update_self]
        exact hl rfl rfl
      · rw [update_of_ne ha]
        exact h
    · rw [update_of_ne hm]
      exact h
  | _ => exact h

theorem Passed.step (hinv : Inv mem hash σ []) (hplain : Plain σ) (h : Passed mem m a val σ)
    (hl : l.keepsOff m a val) (hmoves : Moves mem hash σ l σ' out) : Passed mem m a val σ' := by
  refine ⟨step_word hinv hmoves hl h.word, ?_, ?_⟩
  · intro u f c word hu hpc ha hval
    rcases step_loaded hinv hmoves hpc with hold | ⟨hload, F, hF, rfl⟩
    · exact h.loaded u f c word hu hold ha hval
    -- it has just been loaded
    obtain ⟨F', hF', -, haddr⟩ := hinv.target u f c.uaddr (by rw [hload]; rfl)
    obtain rfl := Option.mem_unique hF hF'
    rw [hu, haddr, ha]
    exact h.word
  intro u c hu hpc ha hval
  rcases step_asleep hinv hplain hmoves hpc with ⟨hold, -⟩ | ⟨f, word, hold, hword, -⟩
  · exact h.asleep u c hu hold ha hval
  refine h.loaded u f c word hu hold ha hval ?_
  rw [verdict_none hword, hval]

/-- A thread that needs the lock waits for the one that has it. -/
theorem step_holder (hlock : Locked σ) (ht : (σ.pc t).locked = true) {u : τ}
    (hmoves : Moves mem hash σ (.step u fresh) σ' out) : u = t := by
  have hholder := (hlock t).mpr ht
  by_contra hne
  have hnot := hlock.of_ne ht hne
  cases hmoves with
  | getWait hpc hfree | getWake hpc hfree | relock hpc hfree => simp [hholder] at hfree
  | load hpc | loadFreed hpc | declines hpc | sleeps hpc | unqueue hpc | putWait hpc | wakeTurn hpc
  | wakeDone hpc | requeueGet hpc | requeueTurn hpc | requeueDone hpc | put2 hpc | put hpc =>
    simp [hpc, Pc.locked] at hnot

theorem Settled.step (h : Settled mem hash σ) (hl : l.plain = true)
    (hstep : (machine mem hash).step σ l = some (σ', out)) : Settled mem hash σ' := by
  have hmoves := step_moves hstep
  have hcons := h.consistent.step hstep
  exact ⟨hcons, h.plain.step h.consistent.refs hl hmoves,
    h.home.step h.consistent.refs hcons.refs h.plain hmoves⟩

theorem WakingAll.step (hset : Settled mem hash σ) (h : WakingAll mem t a n val σ)
    (hkeep : l.keepsOff (mem t) a val) (hstep : (machine mem hash).step σ l = some (σ', out)) :
    (WakingAll mem t a n val σ' ∨ Passed mem (mem t) a val σ') ∧ ∀ r, out ≠ some (t, r) := by
  have hmoves := step_moves hstep
  have hinv := hset.consistent.refs
  have hword := step_word hinv hmoves hkeep h.word
  obtain ⟨f, wait, tmp, k, hloop, hk⟩ := h.loop
  -- what other threads can do without the lock
  have hother : ∀ {u : τ} {p : Pc τ}, u ≠ t → σ'.pc = update σ.pc u p →
      σ'.queue = σ.queue → WakingAll mem t a n val σ' := by
    intro u p hu hpc hqueue
    refine ⟨hword, f, wait, tmp, k, ?_, ?_⟩
    · rw [hpc, update_of_ne (Ne.symm hu)]
      exact hloop
    rw [hqueue]
    exact hk
  cases l with
  | call | timeout | spurious =>
    cases hmoves
    refine ⟨.inl (hother ?_ rfl rfl), by simp⟩
    rintro rfl
    simp_all
  | store m' a' v =>
    cases hmoves
    exact ⟨.inl ⟨hword, f, wait, tmp, k, hloop, hk⟩, by simp⟩
  | step u fresh =>
    obtain rfl := step_holder hset.consistent.lock (t := t) (by rw [hloop]; rfl) hmoves
    have hahead : Ahead (σ.queue f) wait tmp := hset.consistent.loops.pointers hloop
    cases hmoves with
    | wakeTurn hpc hmax =>
      rename_i w f' c tmp' woken
      obtain ⟨rfl, rfl, rfl, rfl, rfl⟩ := Pc.wakeLoop.inj (hloop.symm.trans hpc)
      obtain ⟨r, hr, -⟩ := hahead.cons
      refine ⟨.inl ⟨hword, f, tmp, nextOf (unlink σ.queue w f) tmp, k + 1, ?_, ?_⟩, by simp⟩
      · exact update_self _ _ _
      show k + 1 + (unlink σ.queue w f).length ≤ n.toNat
      rw [unlink_head hr (hinv.nodup f)]
      rw [hr, length_cons] at hk
      omega
    | wakeDone hpc hend =>
      obtain ⟨rfl, rfl, rfl, rfl, rfl⟩ := Pc.wakeLoop.inj (hloop.symm.trans hpc)
      have hpassed := WakingAll.passed hset h.word hloop (hahead.eq_nil hk hend)
      exact ⟨.inr (hpassed.step hinv hset.plain hkeep (step_moves hstep)), by simp⟩
    | getWait hpc | getWake hpc | relock hpc | load hpc | loadFreed hpc | declines hpc
    | sleeps hpc | unqueue hpc | putWait hpc | requeueGet hpc | requeueTurn hpc
    | requeueDone hpc | put2 hpc | put hpc => simp [hloop] at hpc

/-! ## Whole runs -/

theorem Settled.run (h : Settled mem hash σ) (hlabels : ∀ l ∈ labels, l.plain = true)
    (hrun : (machine mem hash).run σ labels = some (σ', outs)) : Settled mem hash σ' :=
  Machine.run_inv (P := fun _ l => l.plain = true) (I := Settled mem hash)
    (fun _ _ _ _ h hl hstep => h.step hl hstep) h
    (Machine.along_of_forall (fun l hl _ => hlabels l hl) _) hrun

theorem Passed.run (hset : Settled mem hash σ) (h : Passed mem m a val σ)
    (hlabels : ∀ l ∈ labels, l.plain = true ∧ l.keepsOff m a val)
    (hrun : (machine mem hash).run σ labels = some (σ', outs)) : Passed mem m a val σ' := by
  have hboth : Settled mem hash σ' ∧ Passed mem m a val σ' :=
    Machine.run_inv (P := fun _ l => l.plain = true ∧ l.keepsOff m a val)
      (I := fun σ => Settled mem hash σ ∧ Passed mem m a val σ)
      (fun _ _ _ _ h hl hstep => ⟨h.1.step hl.1 hstep,
        h.2.step h.1.consistent.refs h.1.plain hl.2 (step_moves hstep)⟩)
      ⟨hset, h⟩ (Machine.along_of_forall (fun l hl _ => hlabels l hl) _) hrun
  exact hboth.2

/-- By the time the wake has returned, the value has passed. -/
theorem WakingAll.run (hset : Settled mem hash σ) (h : WakingAll mem t a n val σ)
    (hlabels : ∀ l ∈ labels, l.plain = true ∧ l.keepsOff (mem t) a val)
    (hrun : (machine mem hash).run σ labels = some (σ', outs)) {r : Result}
    (hreturned : some (t, r) ∈ outs) : Passed mem (mem t) a val σ' := by
  induction labels generalizing σ outs with
  | nil =>
    rw [Machine.run_nil, some.injEq, Prod.mk.injEq] at hrun
    rw [← hrun.2] at hreturned
    cases hreturned
  | cons l labels ih =>
    obtain ⟨σ1, o, outs', hstep, hrest, rfl⟩ := Machine.run_cons_eq_some.mp hrun
    obtain ⟨hplain, hkeep⟩ := hlabels l mem_cons_self
    have hset1 := hset.step hplain hstep
    have hlabels' := fun l' hl' => hlabels l' (mem_cons_of_mem l hl')
    obtain ⟨hnext, hout⟩ := h.step hset hkeep hstep
    rcases hnext with hwaking | hpassed
    · -- this step is not the return
      have hlater : some (t, r) ∈ outs' :=
        (mem_cons.mp hreturned).resolve_left fun heq => hout r heq.symm
      exact ih hset1 hwaking hlabels' hrest hlater
    · exact hpassed.run hset1 hlabels' hrest

/-! ## The wake comes to an end -/

/-- The thread is in `futex_wake`, with the lock. -/
def Pc.inWake : Pc τ → Bool
  | .wakeLoop _ _ _ _ _ | .put _ _ _ => true
  | _ => false

omit [DecidableEq τ] in
theorem Pc.notified_inWake (p : Pc τ) : p.notified.inWake = p.inWake := by cases p <;> rfl

/-- A wake in progress stays so until it returns. -/
theorem step_inWake (hset : Settled mem hash σ) (h : (σ.pc t).inWake = true)
    (hmoves : Moves mem hash σ l σ' out) : (σ'.pc t).inWake = true ∨ ∃ r, out = some (t, r) := by
  have hinv := hset.consistent.refs
  -- the thread that takes the step is not in a wake
  have hother : ∀ {u : τ} {p p0 : Pc τ}, σ'.pc = update σ.pc u p → σ.pc u = p0 →
      p0.inWake = false → (σ'.pc t).inWake = true ∨ ∃ r, out = some (t, r) := by
    intro u p p0 hpc hu hp0
    have hne : t ≠ u := by
      rintro rfl
      rw [hu, hp0] at h
      cases h
    rw [hpc, update_of_ne hne]
    exact .inl h
  cases hmoves with
  | call hpc | load hpc | declines hpc | sleeps hpc | relock hpc | unqueue hpc | timeout hpc
  | spurious hpc => exact hother rfl hpc rfl
  | getWait hpc _ hget | getWake hpc _ hget | requeueGet hpc hget =>
    exact hother (get_sameThreads hinv hget).update_pc hpc rfl
  | putWait hpc | put2 hpc => exact hother (put_sameThreads σ _).update_pc hpc rfl
  | requeueTurn hpc | requeueDone hpc => exact nomatch hset.plain.plain hpc
  | loadFreed | store => exact .inl h
  | wakeTurn hpc hmax =>
    rename_i u w fresh f c tmp woken
    left
    show (update (update σ.pc w (σ.pc w).notified) u _ t).inWake = true
    by_cases hu : t = u
    · rw [hu, update_self]
      rfl
    rw [update_of_ne hu]
    by_cases hw : t = w
    · rw [hw, update_self, Pc.notified_inWake, ← hw]
      exact h
    · rw [update_of_ne hw]
      exact h
  | wakeDone hpc hend =>
    rename_i u fresh f c wait tmp woken
    left
    show (update σ.pc u (afterWake f c woken) t).inWake = true
    by_cases hu : t = u
    · have hnone := isNone_iff_eq_none.mp (hset.plain.plain hpc)
      rw [hu, update_self, afterWake, hnone]
      rfl
    · rw [update_of_ne hu]
      exact h
  | put hpc =>
    rename_i u fresh f c woken
    by_cases hu : t = u
    · exact .inr ⟨_, by rw [hu]⟩
    left
    show (update (σ.put f).pc u .idle t).inWake = true
    rw [update_of_ne hu, (put_sameThreads σ f).pc]
    exact h

theorem run_inWake (hset : Settled mem hash σ) (h : (σ.pc t).inWake = true)
    (hlabels : ∀ l ∈ labels, l.plain = true)
    (hrun : (machine mem hash).run σ labels = some (σ', outs)) :
    (σ'.pc t).inWake = true ∨ ∃ r, some (t, r) ∈ outs := by
  induction labels generalizing σ outs with
  | nil =>
    rw [Machine.run_nil, some.injEq, Prod.mk.injEq] at hrun
    exact .inl (hrun.1 ▸ h)
  | cons l labels ih =>
    obtain ⟨σ1, o, outs', hstep, hrest, rfl⟩ := Machine.run_cons_eq_some.mp hrun
    rcases step_inWake hset h (step_moves hstep) with hin | ⟨r, rfl⟩
    · refine (ih (hset.step (hlabels l mem_cons_self) hstep) hin
        (fun l' hl' => hlabels l' (mem_cons_of_mem l hl')) hrest).imp_right ?_
      rintro ⟨r, hr⟩
      exact ⟨r, mem_cons_of_mem o hr⟩
    · exact .inr ⟨r, mem_cons_self⟩

/-- The thread returns after so many steps of its own. -/
def Returns (mem : τ → μ) (hash : μ → UInt32 → Nat) (w : τ) (fresh : FId) (r : Result) (k : Nat)
    (σ : State τ μ) : Prop :=
  ∃ σ' outs, (machine mem hash).run σ (replicate k (.step w fresh)) = some (σ', outs) ∧
    some (w, r) ∈ outs

theorem Returns.succ {r : Result}
    (hstep : (machine mem hash).step σ (.step w fresh) = some (σ', out))
    (h : Returns mem hash w fresh r k σ') : Returns mem hash w fresh r (k + 1) σ := by
  obtain ⟨σ2, outs, hrun, hmem⟩ := h
  exact ⟨σ2, out :: outs, Machine.run_cons hstep hrun, mem_cons_of_mem out hmem⟩

theorem put_returns {c : WakeCall} (hpc : σ.pc t = .put f c k) :
    Returns mem hash t 0 (.count (k % 2 ^ 32)) 1 σ := by
  refine ⟨(σ.put f).leave t, [some (t, .count (k % 2 ^ 32))], ?_, mem_singleton_self _⟩
  refine Machine.run_cons ?_ rfl
  simp only [machine, step, advance, hpc]

theorem wakeDone_returns {c : WakeCall} (hnone : c.requeue = none)
    (hpc : σ.pc t = .wakeLoop f c wait tmp k) (hend : wait = none ∨ c.wakeMax.toNat ≤ k) :
    Returns mem hash t 0 (.count (k % 2 ^ 32)) 2 σ := by
  have hstep : (machine mem hash).step σ (.step t 0) = some (σ.goto t (.put f c k), none) := by
    cases wait with
    | none => simp only [machine, step, advance, hpc, afterWake, hnone]
    | some w =>
      have hle := hend.resolve_left (by simp)
      simp only [machine, step, advance, hpc, afterWake, hnone, if_pos hle]
  exact .succ hstep (put_returns (update_self _ _ _))

/-- The own steps of a wake end it, one for each waiter that it may still take and two more. -/
theorem wakeLoop_returns {c : WakeCall} (hnone : c.requeue = none)
    (hpc : σ.pc t = .wakeLoop f c wait tmp k) : ∃ k' r, Returns mem hash t 0 r k' σ := by
  -- on the number of waiters that it may still take
  induction hn : c.wakeMax.toNat - k generalizing σ wait tmp k with
  | zero => exact ⟨2, _, wakeDone_returns hnone hpc (.inr (by omega))⟩
  | succ n ih =>
    cases wait with
    | none => exact ⟨2, _, wakeDone_returns hnone hpc (.inl rfl)⟩
    | some w =>
      have hlt : ¬ c.wakeMax.toNat ≤ k := by omega
      obtain ⟨σ1, hstep, hpc1⟩ : ∃ σ1, (machine mem hash).step σ (.step t 0) = some (σ1, none) ∧
          σ1.pc t = .wakeLoop f c tmp (nextOf (unlink σ.queue w f) tmp) (k + 1) := by
        simp only [machine, step, advance, hpc, if_neg hlt]
        exact ⟨_, rfl, update_self _ _ _⟩
      obtain ⟨k', r, hreturns⟩ := ih hpc1 (by omega)
      exact ⟨k' + 1, r, .succ hstep hreturns⟩

theorem inWake_returns (mem : τ → μ) (hash : μ → UInt32 → Nat) (hplain : Plain σ)
    (h : (σ.pc t).inWake = true) : ∃ k r, Returns mem hash t 0 r k σ := by
  cases hpc : σ.pc t with
  | put f c woken => exact ⟨1, _, put_returns hpc⟩
  | wakeLoop f c wait tmp woken =>
    exact wakeLoop_returns (isNone_iff_eq_none.mp (hplain.plain hpc)) hpc
  | _ => simp [hpc, Pc.inWake] at h

theorem putWait_returns (hpc : σ.pc w = .putWait f c r) (fresh : FId) :
    Returns mem hash w fresh (.wait r) 1 σ := by
  refine ⟨(σ.put f).leave w, [some (w, .wait r)], ?_, mem_singleton_self _⟩
  refine Machine.run_cons ?_ rfl
  simp only [machine, step, advance, hpc]

theorem waking_returns (h : Consistent mem hash σ) (hfree : σ.lock = none)
    (hpc : σ.pc w = .waking c r) (fresh : FId) : Returns mem hash w fresh (.wait r) 3 σ := by
  have hwaits := h.refs.waits w
  rw [hpc] at hwaits
  obtain ⟨f, hf⟩ := isSome_iff_exists.mp hwaits
  have hlock : (machine mem hash).step σ (.step w fresh) =
      some ({ σ with lock := some w }.goto w (.back c r), none) := by
    simp [machine, step, advance, hpc, hfree]
  refine .succ hlock ?_
  apply Returns.succ
  · simp only [machine, step, advance, goto, update_self, hf, map_some]
    rfl
  · exact putWait_returns (update_self _ _ _) fresh

/-- A thread that has yet to begin sees another value than it was called with. -/
theorem start_returns (h : Consistent mem hash σ) (hfree : σ.lock = none)
    (hpc : σ.pc w = .start (.wait c)) (hword : σ.memory (mem w) c.uaddr ≠ some c.val)
    (hfresh : σ.futexes fresh = none) :
    ∃ r, verdict c (σ.memory (mem w) c.uaddr) = some r ∧
      Returns mem hash w fresh (.wait r) 4 σ := by
  obtain ⟨r, hr⟩ : ∃ r, verdict c (σ.memory (mem w) c.uaddr) = some r := by
    refine ne_none_iff_exists'.mp ?_
    intro hnone
    exact hword (verdict_none hnone)
  refine ⟨r, hr, ?_⟩
  obtain ⟨f, σ1, hget⟩ := get_of_free hash (mem w) c.uaddr hfresh
  obtain ⟨-, ⟨F, hF, -, haddr⟩, hsame⟩ := h.refs.get hget
  have hlock : (machine mem hash).step σ (.step w fresh) =
      some ({ σ1 with lock := some w }.goto w (.load f c), none) := by
    simp [machine, step, advance, hpc, hfree, hget]
  refine .succ hlock ?_
  apply Returns.succ
  · simp only [machine, step, advance, goto, update_self, hF, hsame.memory, haddr]
    rfl
  apply Returns.succ
  · simp only [machine, step, advance, goto, update_self, hr]
    rfl
  · exact putWait_returns (update_self _ _ _) fresh

/-- The wake takes the lock, and finds the queue of its address. -/
theorem wake_takes_lock (hinv : Inv mem hash σ []) {c : WakeCall}
    (hcall : σ.pc t = .start (.wake c))
    (hstep : (machine mem hash).step σ (.step t fresh) = some (σ', out)) :
    σ.lock = none ∧ ∃ f wait tmp, σ'.pc t = .wakeLoop f c wait tmp 0 ∧
      (σ.lookup hash (mem t) c.uaddr).elim [] σ.queue = σ'.queue f ∧ σ'.memory = σ.memory := by
  have hmoves := step_moves hstep
  cases hmoves with
  | getWake hpc hfree hget =>
    rename_i f c' σ1
    rw [hcall] at hpc
    obtain rfl := Call.wake.inj (Pc.start.inj hpc)
    have hqueue := queue_of_get hinv hget
    exact ⟨hfree, f, _, _, update_self _ _ _, hqueue, (get_sameThreads hinv hget).memory⟩
  | getWait hpc | relock hpc | load hpc | loadFreed hpc | declines hpc | sleeps hpc | unqueue hpc
  | putWait hpc | wakeTurn hpc | wakeDone hpc | requeueGet hpc | requeueTurn hpc | requeueDone hpc
  | put2 hpc | put hpc => simp [hcall] at hpc

/-- **No missed wakeup.** The wake of `t` takes the lock when the word is not the value any more,
for at least as many waiters as are queued. A thread that is in `futex_wait` on the address by then
has yet to begin, has come out of the condition variable or is in the queue. Whatever was called and
stored meanwhile but the value itself, the wake has returned or its own steps end it, and then no
thread that waits on the address for the value is asleep. Its own steps end the call when the lock
is free, with `_EAGAIN` if it had yet to begin and the word can be read. -/
theorem no_missed_wakeup {τ μ : Type} [DecidableEq τ] [DecidableEq μ] (mem : τ → μ)
    (hash : μ → UInt32 → Nat) (memory : μ → UInt32 → Option UInt32)
    {before after : List (Label τ μ)} {σ0 σ1 σ2 : State τ μ}
    {outs0 outs2 : List (Option (τ × Result))} {t : τ} {a n val : UInt32} {fresh : FId}
    (hbefore : ∀ l ∈ before, l.plain = true)
    (hrun0 : (machine mem hash).run (init memory) before = some (σ0, outs0))
    (hcall : σ0.pc t = .start (.wake ⟨a, n, none⟩))
    (hstored : σ0.memory (mem t) a ≠ some val)
    (hall : ((σ0.lookup hash (mem t) a).elim [] σ0.queue).length ≤ n.toNat)
    (hlock : (machine mem hash).step σ0 (.step t fresh) = some (σ1, none))
    (hafter : ∀ l ∈ after, l.plain = true ∧ l.keepsOff (mem t) a val)
    (hrun : (machine mem hash).run σ1 after = some (σ2, outs2)) :
    (∀ w c, mem w = mem t → (σ0.pc w).waitCall = some c → c.uaddr = a →
      σ0.pc w = .start (.wait c) ∨ (∃ r, σ0.pc w = .waking c r) ∨
        (σ0.pc w = .asleep c ∧ w ∈ (σ0.lookup hash (mem t) a).elim [] σ0.queue)) ∧
    ∃ k σ3 outs3, (machine mem hash).run σ2 (replicate k (.step t 0)) = some (σ3, outs3) ∧
      (∃ r, some (t, r) ∈ outs2 ++ outs3) ∧ ((∃ r, some (t, r) ∈ outs2) → k = 0) ∧
      ∀ w c, mem w = mem t → c.uaddr = a → c.val = val →
        σ3.pc w ≠ .asleep c ∧
        (σ3.lock = none → (σ3.pc w).waitCall = some c → ∀ fresh, σ3.futexes fresh = none →
          ∃ k r', Returns mem hash w fresh (.wait r') k σ3 ∧
            (σ3.pc w = .start (.wait c) → σ3.memory (mem w) a ≠ none → r' = .eagain)) := by
  have hset0 := (init_settled memory).run hbefore hrun0
  have hset1 : Settled mem hash σ1 := hset0.step rfl hlock
  have hinv0 := hset0.consistent.refs
  obtain ⟨hfree, f, wait, tmp, hpc1, hqueue, hmem⟩ := wake_takes_lock hinv0 hcall hlock
  have hwaking : WakingAll mem t a n val σ1 := by
    refine ⟨by rw [hmem]; exact hstored, f, wait, tmp, 0, hpc1, ?_⟩
    rw [← hqueue, Nat.zero_add]
    exact hall
  refine ⟨?found, ?woken⟩
  case found =>
    intro w c hw hwait ha
    rcases waitCall_unlocked hset0.consistent.lock hfree hwait with hpc | hpc | hpc
    · exact .inl hpc
    · exact .inr (.inl hpc)
    refine .inr (.inr ⟨hpc, ?_⟩)
    have hwaits := hinv0.waits w
    rw [hpc] at hwaits
    obtain ⟨g, hg⟩ := isSome_iff_exists.mp hwaits
    obtain ⟨G, hG, hm, haddr⟩ := hset0.home w c g hpc hg
    have hlook := hinv0.lookup_eq hG
    rw [hm, haddr, hw, ha] at hlook
    rw [hlook]
    exact hinv0.asleep w c g hpc hg
  case woken =>
    have hset2 := hset1.run (fun l hl => (hafter l hl).1) hrun
    -- the wake goes on until it has returned
    obtain ⟨k, σ3, outs3, hrun3, ⟨r, hreturned⟩, hzero⟩ : ∃ k σ3 outs3,
        (machine mem hash).run σ2 (replicate k (.step t 0)) = some (σ3, outs3) ∧
        (∃ r, some (t, r) ∈ outs2 ++ outs3) ∧ ((∃ r, some (t, r) ∈ outs2) → k = 0) := by
      by_cases hreturned : ∃ r, some (t, r) ∈ outs2
      · obtain ⟨r, hr⟩ := hreturned
        exact ⟨0, σ2, [], rfl, ⟨r, mem_append_left _ hr⟩, fun _ => rfl⟩
      have hin := (run_inWake hset1 (by rw [hpc1]; rfl) (fun l hl => (hafter l hl).1) hrun
        ).resolve_right hreturned
      obtain ⟨k, r, σ3, outs3, hrun3, hr⟩ := inWake_returns mem hash hset2.plain hin
      exact ⟨k, σ3, outs3, hrun3, ⟨r, mem_append_right _ hr⟩, fun h => absurd h hreturned⟩
    refine ⟨k, σ3, outs3, hrun3, ⟨r, hreturned⟩, hzero, ?_⟩
    intro w c hw ha hval
    have hall3 : ∀ l ∈ after ++ replicate k (.step t 0),
        l.plain = true ∧ l.keepsOff (mem t) a val := by
      intro l hl
      rcases mem_append.mp hl with hl | hl
      · exact hafter l hl
      · rw [(mem_replicate.mp hl).2]
        exact ⟨rfl, trivial⟩
    have hrun13 := Machine.run_append hrun hrun3
    have hset3 := hset1.run (fun l hl => (hall3 l hl).1) hrun13
    have hpassed := hwaking.run hset1 hall3 hrun13 hreturned
    have hawake : σ3.pc w ≠ .asleep c := by
      intro hpc
      exact hpassed.asleep w c hw hpc ha hval
    refine ⟨hawake, ?_⟩
    intro hfree3 hwait fresh' hfresh'
    rcases waitCall_unlocked hset3.consistent.lock hfree3 hwait with hpc | ⟨r', hpc⟩ | hpc
    · have hword : σ3.memory (mem w) c.uaddr ≠ some c.val := by
        rw [hw, ha, hval]
        exact hpassed.word
      obtain ⟨r', hr', hreturns⟩ := start_returns hset3.consistent hfree3 hpc hword hfresh'
      refine ⟨4, r', hreturns, ?_⟩
      intro _ hreadable
      obtain ⟨v, hv⟩ := ne_none_iff_exists'.mp hreadable
      rw [ha, hv] at hr'
      rw [ha, hv] at hword
      have hne : v ≠ c.val := fun heq => hword (congrArg some heq)
      rw [verdict, if_pos hne] at hr'
      exact (some.inj hr').symm
    · refine ⟨3, r', waking_returns hset3.consistent hfree3 hpc fresh', ?_⟩
      intro hstart
      rw [hpc] at hstart
      cases hstart
    · exact absurd hpc hawake

/-- Three threads of one address space. -/
def oneSpace : Machine (State (Fin 3) Unit) (Label (Fin 3) Unit) (Option (Fin 3 × Result)) :=
  machine (fun _ => ()) fun _ a => a.toNat

/-- A thread sleeps on the old value, another is about to begin, and a third one to wake. -/
def beforeWake : List (Label (Fin 3) Unit) :=
  [.call 0 (.wait ⟨8, 0, false⟩), .step 0 0, .step 0 0, .step 0 0, .call 1 (.wait ⟨8, 0, false⟩),
    .store () 8 (some 1), .call 2 (.wake ⟨8, 1, none⟩)]

/-- The wake takes one waiter. -/
theorem no_missed_wakeup_one :
    ∃ σ0 σ1 σ2 outs0 outs2,
      oneSpace.run (init fun _ _ => some 0) beforeWake = some (σ0, outs0) ∧
      oneSpace.step σ0 (.step 2 0) = some (σ1, none) ∧
      oneSpace.run σ1 [.step 2 0, .step 2 0, .step 2 0] = some (σ2, outs2) ∧
      some (2, .count 1) ∈ outs2 ∧
      σ0.pc 0 = .asleep ⟨8, 0, false⟩ ∧ σ2.pc 0 ≠ .asleep ⟨8, 0, false⟩ ∧
      ∃ k, Returns (fun _ => ()) (fun _ a => a.toNat) 1 1 (.wait .eagain) k σ2 := by
  obtain ⟨σ0, σ1, σ2, outs0, outs2, hrun0, hlock, hrun, houts, hcall, hword, hall, hasleep, hfree,
      hstart, hfresh, hword2⟩ :
      ∃ σ0 σ1 σ2 outs0 outs2,
      oneSpace.run (init fun _ _ => some 0) beforeWake = some (σ0, outs0) ∧
      oneSpace.step σ0 (.step 2 0) = some (σ1, none) ∧
      oneSpace.run σ1 [.step 2 0, .step 2 0, .step 2 0] = some (σ2, outs2) ∧
      outs2 = [none, none, some (2, .count 1)] ∧
      σ0.pc 2 = .start (.wake ⟨8, 1, none⟩) ∧ σ0.memory () 8 = some 1 ∧
      (σ0.lookup (fun _ a => a.toNat) () 8).elim [] σ0.queue = [0] ∧
      σ0.pc 0 = .asleep ⟨8, 0, false⟩ ∧ σ2.lock = none ∧
      σ2.pc 1 = .start (.wait ⟨8, 0, false⟩) ∧ σ2.futexes 1 = none ∧
      σ2.memory () 8 = some 1 :=
    ⟨_, _, _, _, _, rfl, rfl, rfl, rfl, rfl, rfl, rfl, rfl, rfl, rfl, rfl, rfl⟩
  have hmem : some (2, .count 1) ∈ outs2 := by
    rw [houts]
    decide
  have hplain : ∀ l ∈ [Label.step (2 : Fin 3) 0, .step 2 0, .step 2 0],
      l.plain = true ∧ l.keepsOff () 8 0 := by
    intro l hl
    fin_cases hl <;> exact ⟨rfl, trivial⟩
  obtain ⟨-, k3, σ3, outs3, hrun3, -, hzero, hwoken⟩ :=
    no_missed_wakeup (fun _ => ()) (fun _ a => a.toNat) (fun _ _ => some 0)
    (t := 2) (a := 8) (n := 1) (by decide) hrun0 hcall (by rw [hword]; decide)
    (by rw [hall]; decide) hlock hplain hrun
  obtain rfl := hzero ⟨_, hmem⟩
  obtain ⟨rfl, -⟩ := Prod.mk.inj (some.inj hrun3)
  obtain ⟨k, r', hreturns, hagain⟩ :=
    (hwoken 1 ⟨8, 0, false⟩ rfl rfl rfl).2 hfree (by rw [hstart]; rfl) 1 hfresh
  obtain rfl := hagain hstart (by rw [hword2]; simp)
  exact ⟨σ0, σ1, σ2, outs0, outs2, hrun0, hlock, hrun, hmem, hasleep,
    (hwoken 0 ⟨8, 0, false⟩ rfl rfl rfl).1, k, hreturns⟩

end Ish.Futexes

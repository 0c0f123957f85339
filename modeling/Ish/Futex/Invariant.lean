import Ish.Lib.Counted
import Ish.Futex.Basic

set_option autoImplicit false

/-! # The references to a futex

In every state of every interleaving, the reference count of a futex is the number of waiters whose
`wait.futex` it is, plus the references that calls in progress hold. A waiter in a queue is in that
of its `wait.futex`, there is one futex for each address of an address space, and no assertion
fails.

The count does not hold inside a step: `futex_get_unlocked` has counted a reference before the call
has stored it, and a call forgets its reference when `futex_put_unlocked` is to count it. `Inv σ x`
is what holds with the references `x` on their way.
-/

namespace Ish.Futexes

open Option List Function Ish.Lib State Pc

/-! ## What a thread holds -/

section Held

variable {τ : Type}

/-- The references of the call itself. -/
def Pc.held : Pc τ → List FId
  | .load f _ | .loaded f _ _ | .putWait f _ _ | .wakeLoop f _ _ _ _ | .requeueGet f _ _ _
  | .put f _ _ => [f]
  | .requeueLoop f f2 _ _ _ _ _ _ | .put2 f f2 _ _ => [f, f2]
  | _ => []

/-- The thread has a `struct futex_wait`. -/
def Pc.waits : Pc τ → Bool
  | .asleep _ | .waking _ _ | .back _ _ => true
  | _ => false

def Pc.locked : Pc τ → Bool
  | .idle | .start _ | .asleep _ | .waking _ _ => false
  | _ => true

/-- The futex that the call has looked up, and its address. -/
def Pc.target : Pc τ → Option (FId × UInt32)
  | .load f c | .loaded f c _ => some (f, c.uaddr)
  | .wakeLoop f c _ _ _ | .requeueGet f c _ _ => some (f, c.uaddr)
  | _ => none

theorem Pc.held_of_waits {p : Pc τ} (h : p.waits = true) : p.held = [] := by
  cases p <;> simp_all [waits, held]

theorem Pc.mem_held_of_target {p : Pc τ} {f : FId} {a : UInt32} (h : p.target = some (f, a)) :
    f ∈ p.held := by
  cases p <;> simp_all [target, held]

end Held

section Inv

variable {τ μ : Type} (mem : τ → μ) (hash : μ → UInt32 → Nat)
variable {f : FId} {F : Futex μ} {m : μ} {a : UInt32}

def State.refs (σ : State τ μ) (t : τ) : List FId := (σ.wait t).toList ++ (σ.pc t).held

structure Inv (σ : State τ μ) (x : List FId) : Prop where
  calls : ∀ t, t ∈ σ.calls ↔ σ.pc t ≠ .idle
  waits : ∀ t, (σ.wait t).isSome = (σ.pc t).waits
  chain : ∀ b f, f ∈ σ.buckets b ↔ ∃ F, σ.futexes f = some F ∧ hash F.mem F.addr = b
  unique : ∀ f f' F F', σ.futexes f = some F → σ.futexes f' = some F' → F.mem = F'.mem →
    F.addr = F'.addr → f = f'
  count : ∀ f F, σ.futexes f = some F → F.refcount = references σ.calls σ.refs f + x.count f
  alive : ∀ f, f ∈ x ∨ (∃ t, f ∈ σ.refs t) → σ.futexes f ≠ none
  queued : ∀ f t, t ∈ σ.queue f → σ.wait t = some f
  nodup : ∀ f, (σ.queue f).Nodup
  asleep : ∀ t c f, σ.pc t = .asleep c → σ.wait t = some f → t ∈ σ.queue f
  target : ∀ t f a, (σ.pc t).target = some (f, a) →
    ∃ F, σ.futexes f = some F ∧ F.mem = mem t ∧ F.addr = a
  sound : σ.failed = false

variable {mem hash} {σ σ' : State τ μ} {x x' : List FId} {t : τ}

/-! ## Reading the invariant -/

theorem State.mem_calls (hcalls : ∀ t, t ∈ σ.calls ↔ σ.pc t ≠ .idle)
    (hwaits : ∀ t, (σ.wait t).isSome = (σ.pc t).waits) (hf : f ∈ σ.refs t) : t ∈ σ.calls := by
  rw [hcalls]
  intro hidle
  have hwait : σ.wait t = none := by
    have hw := hwaits t
    rw [hidle] at hw
    simpa [waits] using hw
  simp [refs, hidle, hwait, held] at hf

theorem Inv.mem_calls_of_refs (h : Inv mem hash σ x) (hf : f ∈ σ.refs t) : t ∈ σ.calls :=
  mem_calls h.calls h.waits hf

theorem Inv.mem_refs_of_wait (hwait : σ.wait t = some f) : f ∈ σ.refs t := by
  simp [refs, hwait]

theorem Inv.mem_refs_of_held (hf : f ∈ (σ.pc t).held) : f ∈ σ.refs t := by
  simp [refs, hf]

/-- A thread that waits holds nothing else. -/
theorem Inv.refs_of_wait (h : Inv mem hash σ x) (hwait : σ.wait t = some f) : σ.refs t = [f] := by
  have hw := h.waits t
  rw [hwait, isSome_some] at hw
  simp [refs, hwait, held_of_waits hw.symm]

theorem Inv.wait_of_not_waits (h : Inv mem hash σ x) (hpc : (σ.pc t).waits = false) :
    σ.wait t = none := by
  have hw := h.waits t
  rw [hpc] at hw
  simpa using hw

/-- The queue of a freed futex is empty. -/
theorem Inv.queue_of_freed (h : Inv mem hash σ x) (hf : σ.futexes f = none) : σ.queue f = [] := by
  rw [eq_nil_iff_forall_not_mem]
  intro t ht
  exact h.alive f (.inr ⟨t, Inv.mem_refs_of_wait (h.queued f t ht)⟩) hf

/-- Two threads that refer to a futex are both counted. -/
theorem Inv.two_le [DecidableEq τ] (h : Inv mem hash σ x) (hF : σ.futexes f = some F) {u : τ}
    (ht : f ∈ σ.refs t) (hu : f ∈ σ.refs u) (hne : u ≠ t) : 2 ≤ F.refcount := by
  have hle := count_add_count_le_references σ.refs f (h.mem_calls_of_refs ht)
    (h.mem_calls_of_refs hu) hne
  have hpos := one_le_count_iff.mpr ht
  have hpos' := one_le_count_iff.mpr hu
  rw [h.count f F hF]
  omega

/-! ## A reference on its way -/

variable [DecidableEq μ]

/-- The futex that a lookup finds is the one of the address. -/
theorem lookup_some (hf : σ.lookup hash m a = some f) :
    ∃ F, σ.futexes f = some F ∧ F.mem = m ∧ F.addr = a := by
  have hp := find?_some hf
  rw [Option.any_eq_true] at hp
  obtain ⟨F, hF, hkey⟩ := hp
  simp only [Bool.and_eq_true, decide_eq_true_eq] at hkey
  exact ⟨F, hF, hkey.2, hkey.1⟩

theorem Inv.lookup_none (h : Inv mem hash σ x) (hnone : σ.lookup hash m a = none)
    (hF : σ.futexes f = some F) : ¬ (F.mem = m ∧ F.addr = a) := by
  rintro ⟨rfl, rfl⟩
  have hmem : f ∈ σ.buckets (hash F.mem F.addr) := (h.chain _ f).mpr ⟨F, hF, rfl⟩
  have hnot := find?_eq_none.mp hnone f hmem
  simp [hF] at hnot

/-- The same futexes, up to their counts. -/
def SameKeys (σ σ' : State τ μ) : Prop :=
  ∀ f, (σ'.futexes f).map (fun F => (F.mem, F.addr)) =
    (σ.futexes f).map (fun F => (F.mem, F.addr))

section Keys

omit [DecidableEq μ]

theorem SameKeys.symm (hk : SameKeys σ σ') : SameKeys σ' σ := fun f => (hk f).symm

theorem SameKeys.trans {σ'' : State τ μ} (hk : SameKeys σ σ') (hk' : SameKeys σ' σ'') :
    SameKeys σ σ'' := fun f => (hk' f).trans (hk f)

theorem SameKeys.get (hk : SameKeys σ σ') {f : FId} {G : Futex μ} (hG : σ'.futexes f = some G) :
    ∃ F, σ.futexes f = some F ∧ F.mem = G.mem ∧ F.addr = G.addr := by
  have hf := hk f
  rw [hG, map_some] at hf
  obtain ⟨F, hF, heq⟩ := map_eq_some_iff.mp hf.symm
  exact ⟨F, hF, (Prod.mk.inj heq).1, (Prod.mk.inj heq).2⟩

/-- An update of the count of one futex. -/
theorem sameKeys_update {f : FId} {g : Futex μ → Nat}
    (hfutexes : σ'.futexes = update σ.futexes f
      ((σ.futexes f).map fun F => { F with refcount := g F })) : SameKeys σ σ' := by
  intro f'
  rw [hfutexes]
  by_cases hf : f' = f
  · subst hf
    rw [update_self, Option.map_map]
    rfl
  · rw [update_of_ne hf]

theorem SameKeys.alive (hk : SameKeys σ σ') {f : FId} (hf : σ.futexes f ≠ none) :
    σ'.futexes f ≠ none := by
  obtain ⟨F, hF⟩ := ne_none_iff_exists'.mp hf
  obtain ⟨G, hG, -⟩ := hk.symm.get hF
  simp [hG]

/-- The invariant of a state with other counts, queues and waiters. -/
theorem Inv.of_keys (h : Inv mem hash σ x) (hk : SameKeys σ σ') (hbuckets : σ'.buckets = σ.buckets)
    (hcalls : σ'.calls = σ.calls) (hpc : σ'.pc = σ.pc)
    (hwaits : ∀ t, (σ'.wait t).isSome = (σ'.pc t).waits)
    (hcount : ∀ f F, σ'.futexes f = some F →
      F.refcount = references σ'.calls σ'.refs f + x'.count f)
    (halive : ∀ f, f ∈ x' ∨ (∃ t, f ∈ σ'.refs t) → σ.futexes f ≠ none)
    (hqueued : ∀ f t, t ∈ σ'.queue f → σ'.wait t = some f) (hnodup : ∀ f, (σ'.queue f).Nodup)
    (hasleep : ∀ t c f, σ'.pc t = .asleep c → σ'.wait t = some f → t ∈ σ'.queue f)
    (hsound : σ'.failed = false) : Inv mem hash σ' x' := by
  refine ⟨?_, hwaits, ?_, ?_, hcount, fun f hf => hk.alive (halive f hf), hqueued, hnodup, hasleep,
    ?_, hsound⟩
  · rw [hcalls, hpc]
    exact h.calls
  · intro b f
    rw [hbuckets, h.chain]
    constructor
    · rintro ⟨F, hF, hb⟩
      obtain ⟨G, hG, hm, ha⟩ := hk.symm.get hF
      exact ⟨G, hG, by rw [hm, ha, hb]⟩
    rintro ⟨G, hG, hb⟩
    obtain ⟨F, hF, hm, ha⟩ := hk.get hG
    exact ⟨F, hF, by rw [hm, ha, hb]⟩
  · intro f f' G G' hG hG' hmem haddr
    obtain ⟨F, hF, hm, ha⟩ := hk.get hG
    obtain ⟨F', hF', hm', ha'⟩ := hk.get hG'
    exact h.unique f f' F F' hF hF' (by rw [hm, hm', hmem]) (by rw [ha, ha', haddr])
  intro u f a hu
  rw [hpc] at hu
  obtain ⟨F, hF, hm, ha⟩ := h.target u f a hu
  obtain ⟨G, hG, hmG, haG⟩ := hk.symm.get hF
  exact ⟨G, hG, hmG.trans hm, haG.trans ha⟩

/-- One more reference to a futex that is there. -/
theorem Inv.retain (h : Inv mem hash σ x) {f : FId} (hf : σ.futexes f ≠ none) :
    Inv mem hash
      { σ with
        futexes := update σ.futexes f
          ((σ.futexes f).map fun F => { F with refcount := F.refcount + 1 }) } (f :: x) := by
  refine h.of_keys (sameKeys_update rfl) rfl rfl rfl h.waits ?_ ?_ h.queued h.nodup h.asleep h.sound
  · intro f' G hG
    show G.refcount = references σ.calls σ.refs f' + (f :: x).count f'
    rcases update_cases hG with ⟨rfl, hnew⟩ | ⟨hf', hold⟩
    · obtain ⟨F, hF, rfl⟩ := map_eq_some_iff.mp hnew
      show F.refcount + 1 = _
      rw [count_cons_self, h.count f' F hF]
      omega
    · rw [h.count f' G hold, count_cons_of_ne (Ne.symm hf')]
  rintro f' (hmem | hrefs)
  · rcases mem_cons.mp hmem with rfl | hmem
    · exact hf
    · exact h.alive f' (.inl hmem)
  · exact h.alive f' (.inr hrefs)

/-- A new futex, at a free address and for an address that has none. -/
theorem Inv.create (h : Inv mem hash σ x) {m : μ} {a : UInt32} {fresh : FId}
    (hfree : σ.futexes fresh = none)
    (hnone : ∀ f F, σ.futexes f = some F → ¬ (F.mem = m ∧ F.addr = a)) :
    Inv mem hash
      { σ with
        futexes := update σ.futexes fresh (some ⟨1, m, a⟩)
        queue := update σ.queue fresh []
        buckets := link σ.buckets (hash m a) fresh } (fresh :: x) := by
  have hqueue : update σ.queue fresh [] = σ.queue := by
    rw [← h.queue_of_freed hfree, update_eq_self]
  have hnew : ∀ F, update σ.futexes fresh (some ⟨1, m, a⟩) fresh = some F → F = ⟨1, m, a⟩ := by
    intro F hF
    simpa using hF.symm
  have hold : ∀ f F, f ≠ fresh →
      (update σ.futexes fresh (some ⟨1, m, a⟩) f = some F ↔ σ.futexes f = some F) := by
    intro f F hf
    rw [update_of_ne hf]
  refine ⟨h.calls, h.waits, ?chain, ?unique, ?count, ?alive, ?queued, ?nodup, ?asleep, ?target,
    h.sound⟩
  case chain =>
    intro b f
    by_cases hf : f = fresh
    · subst hf
      have hnot : f ∉ σ.buckets b := by
        intro hb
        obtain ⟨F, hF, -⟩ := (h.chain b f).mp hb
        simp [hfree] at hF
      by_cases hb : b = hash m a
      · simp [link, hb]
      · simp [link, hb, hnot, Ne.symm hb]
    have hlink : f ∈ link σ.buckets (hash m a) fresh b ↔ f ∈ σ.buckets b := by
      by_cases hb : b = hash m a
      · simp [link, hb, hf]
      · simp [link, hb]
    rw [hlink, h.chain]
    simp only [hold f _ hf]
  case unique =>
    intro f f' F F' hF hF' hmem haddr
    by_cases hf : f = fresh
    · by_cases hf' : f' = fresh
      · rw [hf, hf']
      -- no other futex has the address
      subst hf
      obtain rfl := hnew F hF
      exact absurd ⟨hmem.symm, haddr.symm⟩ (hnone f' F' ((hold f' F' hf').mp hF'))
    by_cases hf' : f' = fresh
    · subst hf'
      obtain rfl := hnew F' hF'
      exact absurd ⟨hmem, haddr⟩ (hnone f F ((hold f F hf).mp hF))
    · exact h.unique f f' F F' ((hold f F hf).mp hF) ((hold f' F' hf').mp hF') hmem haddr
  case count =>
    intro f F hF
    show F.refcount = references σ.calls σ.refs f + (fresh :: x).count f
    by_cases hf : f = fresh
    · subst hf
      obtain rfl := hnew F hF
      have hrefs : references σ.calls σ.refs f = 0 := Finset.sum_eq_zero fun u _ =>
          count_eq_zero.mpr fun hu => h.alive f (.inr ⟨u, hu⟩) hfree
      have hx : x.count f = 0 := count_eq_zero.mpr fun hmem => h.alive f (.inl hmem) hfree
      rw [count_cons_self, hrefs, hx]
    · rw [h.count f F ((hold f F hf).mp hF), count_cons_of_ne (Ne.symm hf)]
  case alive =>
    intro f hf
    show update σ.futexes fresh _ f ≠ none
    by_cases hfresh : f = fresh
    · simp [hfresh]
    rw [update_of_ne hfresh]
    refine h.alive f (hf.imp ?_ id)
    exact fun hmem => (mem_cons.mp hmem).resolve_left hfresh
  case queued =>
    rw [hqueue]
    exact h.queued
  case nodup =>
    rw [hqueue]
    exact h.nodup
  case asleep =>
    rw [hqueue]
    exact h.asleep
  case target =>
    intro u f b hu
    obtain ⟨F, hF, hmem, haddr⟩ := h.target u f b hu
    have hne : f ≠ fresh := by
      rintro rfl
      simp [hfree] at hF
    exact ⟨F, (hold f F hne).mpr hF, hmem, haddr⟩

end Keys

/-- What `futex_get_unlocked` leaves alone. -/
structure SameThreads (σ σ' : State τ μ) : Prop where
  queue : σ'.queue = σ.queue
  wait : σ'.wait = σ.wait
  lock : σ'.lock = σ.lock
  calls : σ'.calls = σ.calls
  pc : σ'.pc = σ.pc
  memory : σ'.memory = σ.memory

/-- `futex_get_unlocked` counts a reference that nobody has yet. -/
theorem Inv.get (h : Inv mem hash σ x) {fresh : FId} (hget : σ.get hash m a fresh = some (f, σ')) :
    Inv mem hash σ' (f :: x) ∧ (∃ F, σ'.futexes f = some F ∧ F.mem = m ∧ F.addr = a) ∧
      SameThreads σ σ' := by
  unfold State.get at hget
  cases hlook : σ.lookup hash m a with
  | some f0 =>
    simp only [hlook] at hget
    cases hget
    obtain ⟨F, hF, hm, ha⟩ := lookup_some hlook
    refine ⟨h.retain (by simp [hF]), ?_, ⟨rfl, rfl, rfl, rfl, rfl, rfl⟩⟩
    exact ⟨{ F with refcount := F.refcount + 1 }, by simp [hF], hm, ha⟩
  | none =>
    simp only [hlook, ite_none_left_eq_some, some.injEq, Prod.mk.injEq] at hget
    obtain ⟨hfree, rfl, rfl⟩ := hget
    have hfree : σ.futexes fresh = none := by simpa using hfree
    refine ⟨h.create hfree fun f F hF => h.lookup_none hlook hF, ?_, ⟨?_, rfl, rfl, rfl, rfl, rfl⟩⟩
    · exact ⟨⟨1, m, a⟩, by simp, rfl, rfl⟩
    · rw [← h.queue_of_freed hfree, update_eq_self]

section Threads

variable {f f' f2 : FId} {F : Futex μ} {c : WaitCall} {w : τ}

omit [DecidableEq μ]

/-- The last reference: nobody waits any more, so the futex can go. -/
theorem Inv.free (h : Inv mem hash σ (f :: x)) (hF : σ.futexes f = some F) (hlast : F.refcount = 1)
    : σ.queue f = [] ∧
      Inv mem hash
        { σ with
          futexes := update σ.futexes f none
          buckets := unlink σ.buckets f } x := by
  have hcount := h.count f F hF
  rw [hlast, count_cons_self] at hcount
  have hx : f ∉ x := count_eq_zero.mp (by omega)
  have hrefs : ∀ u, f ∉ σ.refs u := by
    intro u hu
    have hle := Finset.single_le_sum (fun v _ => Nat.zero_le ((σ.refs v).count f))
      (h.mem_calls_of_refs hu)
    have hpos := one_le_count_iff.mpr hu
    unfold references at hcount
    omega
  have hold : ∀ f' F', update σ.futexes f none f' = some F' ↔ f' ≠ f ∧ σ.futexes f' = some F' := by
    intro f' F'
    by_cases hf' : f' = f
    · simp [hf']
    · simp [hf']
  refine ⟨?_, h.calls, h.waits, ?chain, ?unique, ?count, ?alive, h.queued, h.nodup, h.asleep,
    ?target, h.sound⟩
  · rw [eq_nil_iff_forall_not_mem]
    intro u hu
    exact hrefs u (Inv.mem_refs_of_wait (h.queued f u hu))
  case chain =>
    intro b f'
    simp only [unlink, mem_filter, decide_eq_true_eq, h.chain, hold]
    constructor
    · rintro ⟨⟨F', hF', hb⟩, hne⟩
      exact ⟨F', ⟨hne, hF'⟩, hb⟩
    rintro ⟨F', ⟨hne, hF'⟩, hb⟩
    exact ⟨⟨F', hF', hb⟩, hne⟩
  case unique =>
    intro f1 f₂ F1 F2 hF1 hF2
    exact h.unique f1 f₂ F1 F2 ((hold f1 F1).mp hF1).2 ((hold f₂ F2).mp hF2).2
  case count =>
    intro f' F' hF'
    obtain ⟨hne, hF'⟩ := (hold f' F').mp hF'
    rw [h.count f' F' hF', count_cons_of_ne (Ne.symm hne)]
    rfl
  case alive =>
    intro f' hf'
    have hne : f' ≠ f := by
      rintro rfl
      rcases hf' with hmem | ⟨u, hu⟩
      · exact hx hmem
      · exact hrefs u hu
    show update σ.futexes f none f' ≠ none
    rw [update_of_ne hne]
    exact h.alive f' (hf'.imp (mem_cons_of_mem f) id)
  case target =>
    intro u f' a hu
    obtain ⟨F', hF', hkey⟩ := h.target u f' a hu
    have hne : f' ≠ f := by
      rintro rfl
      exact hrefs u (Inv.mem_refs_of_held (mem_held_of_target hu))
    exact ⟨F', (hold f' F').mpr ⟨hne, hF'⟩, hkey⟩

/-- `futex_put_unlocked` of a reference that nobody has any more. -/
theorem Inv.put (h : Inv mem hash σ (f :: x)) : Inv mem hash (σ.put f) x := by
  obtain ⟨F, hF⟩ := ne_none_iff_exists'.mp (h.alive f (.inl mem_cons_self))
  have hcount := h.count f F hF
  rw [count_cons_self] at hcount
  unfold State.put
  simp only [hF]
  by_cases hlast : F.refcount = 1
  · rw [if_pos hlast]
    obtain ⟨hqueue, hfree⟩ := h.free hF hlast
    refine { hfree with sound := ?_ }
    simp [hqueue, h.sound]
  rw [if_neg hlast]
  have hmap : (some { F with refcount := F.refcount - 1 } : Option (Futex μ)) =
      (σ.futexes f).map fun F => { F with refcount := F.refcount - 1 } := by
    rw [hF]
    rfl
  rw [hmap]
  refine h.of_keys (sameKeys_update rfl) rfl rfl rfl h.waits ?_ ?_ h.queued h.nodup h.asleep h.sound
  · intro f' G hG
    show G.refcount = references σ.calls σ.refs f' + x.count f'
    rcases update_cases hG with ⟨rfl, hnew⟩ | ⟨hf', hold⟩
    · rw [hF, map_some] at hnew
      rw [← some.inj hnew]
      show F.refcount - 1 = _
      omega
    · rw [h.count f' G hold, count_cons_of_ne (Ne.symm hf')]
  · exact fun f' hf' => h.alive f' (hf'.imp (mem_cons_of_mem f) id)

/-! ## A thread that goes on -/

theorem refs_congr (hpc : σ'.pc t = σ.pc t) (hwait : σ'.wait t = σ.wait t) :
    σ'.refs t = σ.refs t := by
  unfold refs
  rw [hpc, hwait]

/-- A step of one thread that leaves the futexes alone, and no reference is lost: the thread has it
now, or it is on its way. -/
theorem Inv.of_count (h : Inv mem hash σ x) (hfutexes : σ'.futexes = σ.futexes)
    (hbuckets : σ'.buckets = σ.buckets) (hfailed : σ'.failed = σ.failed)
    (hpc : ∀ u, u ≠ t → σ'.pc u = σ.pc u) (hwait : ∀ u, u ≠ t → σ'.wait u = σ.wait u)
    (hcalls : ∀ u, u ≠ t → (u ∈ σ'.calls ↔ u ∈ σ.calls))
    (hqueue : ∀ f u, u ≠ t → (u ∈ σ'.queue f ↔ u ∈ σ.queue f)) (hnodup : ∀ f, (σ'.queue f).Nodup)
    (hcall : t ∈ σ'.calls ↔ σ'.pc t ≠ .idle)
    (hcount : ∀ f, references σ'.calls σ'.refs f + x'.count f =
      references σ.calls σ.refs f + x.count f)
    (htarget : ∀ f a, (σ'.pc t).target = some (f, a) →
      ∃ F, σ.futexes f = some F ∧ F.mem = mem t ∧ F.addr = a)
    (hwaits : (σ'.wait t).isSome = (σ'.pc t).waits)
    (hqueued : ∀ f, t ∈ σ'.queue f → σ'.wait t = some f)
    (hasleep : ∀ c f, σ'.pc t = .asleep c → σ'.wait t = some f → t ∈ σ'.queue f) :
    Inv mem hash σ' x' := by
  have hcalls' : ∀ u, u ∈ σ'.calls ↔ σ'.pc u ≠ .idle := by
    intro u
    by_cases hu : u = t
    · rw [hu]
      exact hcall
    · rw [hcalls u hu, hpc u hu, h.calls]
  have hwaits' : ∀ u, (σ'.wait u).isSome = (σ'.pc u).waits := by
    intro u
    by_cases hu : u = t
    · rw [hu, hwaits]
    · rw [hpc u hu, hwait u hu, h.waits]
  refine ⟨hcalls', hwaits', ?chain, ?unique, ?count, ?alive, ?queued, hnodup, ?asleep, ?target,
    hfailed.trans h.sound⟩
  case chain => simpa only [hbuckets, hfutexes] using h.chain
  case unique => simpa only [hfutexes] using h.unique
  case count =>
    intro f F hF
    rw [hfutexes] at hF
    rw [h.count f F hF, hcount f]
  case alive =>
    intro f hf
    rw [hfutexes]
    refine h.alive f ?_
    have hpos : 0 < references σ'.calls σ'.refs f + x'.count f := by
      rcases hf with hf | ⟨u, hu⟩
      · exact Nat.add_pos_right _ (count_pos_iff.mpr hf)
      · exact Nat.add_pos_left (references_pos_iff.mpr ⟨u, mem_calls hcalls' hwaits' hu, hu⟩) _
    rw [hcount f] at hpos
    rcases Nat.add_pos_iff_pos_or_pos.mp hpos with hpos | hpos
    · obtain ⟨u, -, hu⟩ := references_pos_iff.mp hpos
      exact .inr ⟨u, hu⟩
    · exact .inl (count_pos_iff.mp hpos)
  case queued =>
    intro f u hu
    by_cases hut : u = t
    · subst hut
      exact hqueued f hu
    rw [hwait u hut]
    exact h.queued f u ((hqueue f u hut).mp hu)
  case asleep =>
    intro u c f hu hw
    by_cases hut : u = t
    · subst hut
      exact hasleep c f hu hw
    rw [hpc u hut] at hu
    rw [hwait u hut] at hw
    exact (hqueue f u hut).mpr (h.asleep u c f hu hw)
  case target =>
    intro u f a hu
    rw [hfutexes]
    by_cases hut : u = t
    · subst hut
      exact htarget f a hu
    rw [hpc u hut] at hu
    exact h.target u f a hu

/-- A thread whose references stay the same ones, whether its call or its waiter has them. -/
theorem Inv.of_thread (h : Inv mem hash σ x) (hfutexes : σ'.futexes = σ.futexes)
    (hbuckets : σ'.buckets = σ.buckets) (hcalls : σ'.calls = σ.calls)
    (hfailed : σ'.failed = σ.failed) (hpc : ∀ u, u ≠ t → σ'.pc u = σ.pc u)
    (hwait : ∀ u, u ≠ t → σ'.wait u = σ.wait u)
    (hqueue : ∀ f u, u ≠ t → (u ∈ σ'.queue f ↔ u ∈ σ.queue f)) (hnodup : ∀ f, (σ'.queue f).Nodup)
    (hidle : σ'.pc t = .idle ↔ σ.pc t = .idle) (hrefs : σ'.refs t = σ.refs t)
    (htarget : ∀ q, (σ'.pc t).target = some q → (σ.pc t).target = some q)
    (hwaits : (σ'.wait t).isSome = (σ'.pc t).waits)
    (hqueued : ∀ f, t ∈ σ'.queue f → σ'.wait t = some f)
    (hasleep : ∀ c f, σ'.pc t = .asleep c → σ'.wait t = some f → t ∈ σ'.queue f) :
    Inv mem hash σ' x := by
  have hrefs : σ'.refs = σ.refs := by
    funext u
    by_cases hu : u = t
    · rw [hu, hrefs]
    · exact refs_congr (hpc u hu) (hwait u hu)
  refine h.of_count hfutexes hbuckets hfailed hpc hwait (fun u _ => by rw [hcalls]) hqueue hnodup
    ?_ (fun f => by rw [hcalls, hrefs]) ?_ hwaits hqueued hasleep
  · rw [hcalls, h.calls]
    exact hidle.not.symm
  · exact fun f a hq => h.target t f a (htarget _ hq)

variable [DecidableEq τ]

/-- A thread in a call goes on, and its references are those it had and those on their way. -/
theorem Inv.goto (h : Inv mem hash σ x) {p : Pc τ} (ht : σ.pc t ≠ .idle) (hp : p ≠ .idle)
    (hwaits : p.waits = (σ.pc t).waits)
    (hheld : ∀ f, p.held.count f + x'.count f = (σ.pc t).held.count f + x.count f)
    (hasleep : ∀ c, p ≠ .asleep c)
    (htarget : ∀ f a, p.target = some (f, a) →
      ∃ F, σ.futexes f = some F ∧ F.mem = mem t ∧ F.addr = a) :
    Inv mem hash (σ.goto t p) x' := by
  have hpc : ∀ u, u ≠ t → (σ.goto t p).pc u = σ.pc u := fun u hu => update_of_ne hu _ _
  have hpct : (σ.goto t p).pc t = p := update_self _ _ _
  refine h.of_count (t := t) rfl rfl rfl hpc (fun _ _ => rfl) (fun _ _ => Iff.rfl)
    (fun _ _ _ => Iff.rfl) h.nodup ?call ?count ?target ?waits (fun f => h.queued f t) ?asleep
  case call =>
    rw [hpct]
    exact iff_of_true ((h.calls t).mpr ht) hp
  case count =>
    intro f
    have hchange := references_change ((h.calls t).mpr ht) (fun u hu => refs_congr (hpc u hu) rfl) f
    have hmoved := hheld f
    simp only [refs, hpct, count_append] at hchange
    change references σ.calls (σ.goto t p).refs f + _ = references σ.calls σ.refs f +
      ((σ.wait t).toList.count f + p.held.count f) at hchange
    show references σ.calls (σ.goto t p).refs f + _ = _
    omega
  case target =>
    rw [hpct]
    exact htarget
  case waits =>
    rw [hpct, hwaits]
    exact h.waits t
  case asleep =>
    intro c f hu
    rw [hpct] at hu
    exact absurd hu (hasleep c)

theorem Inv.enter (h : Inv mem hash σ x) (ht : σ.pc t = .idle) (c : Call) :
    Inv mem hash (σ.enter t c) x := by
  have hnot : t ∉ σ.calls := by
    rw [h.calls]
    exact not_not_intro ht
  have hwait : σ.wait t = none := h.wait_of_not_waits (by rw [ht]; rfl)
  have hnil : (σ.enter t c).refs t = [] := by
    simp [State.refs, State.enter, hwait, held]
  have hpc : ∀ u, u ≠ t → (σ.enter t c).pc u = σ.pc u := fun u hu => update_of_ne hu _ _
  refine h.of_count (t := t) rfl rfl rfl hpc (fun _ _ => rfl)
    (fun u hu => by simp [State.enter, hu]) (fun _ _ _ => Iff.rfl) h.nodup
    (by simp [State.enter]) ?count (by simp [State.enter, Pc.target])
    (by simp [State.enter, hwait, Pc.waits]) (fun f => h.queued f t) (by simp [State.enter])
  intro f
  show references (insert t σ.calls) (σ.enter t c).refs f + _ = _
  rw [references_insert _ _ hnot, hnil, count_nil, zero_add]
  congr 1
  refine references_congr fun u hu => ?_
  rw [refs_congr (hpc u (ne_of_mem_of_not_mem hu hnot)) rfl]

/-- A thread leaves its call, and its references are on their way. -/
theorem Inv.leave (h : Inv mem hash σ x) (ht : σ.pc t ≠ .idle)
    (hwaits : (σ.pc t).waits = false) : Inv mem hash (σ.leave t) ((σ.pc t).held ++ x) := by
  have hpc : ∀ u, u ≠ t → (σ.leave t).pc u = σ.pc u := fun u hu => update_of_ne hu _ _
  have hwait := h.wait_of_not_waits hwaits
  have hself : σ.refs t = (σ.pc t).held := by simp [State.refs, hwait]
  refine h.of_count (t := t) rfl rfl rfl hpc (fun _ _ => rfl)
    (fun u hu => by simp [State.leave, hu]) (fun _ _ _ => Iff.rfl) h.nodup
    (by simp [State.leave]) ?count (by simp [State.leave, Pc.target])
    (by simp [State.leave, hwait, Pc.waits]) (fun f => h.queued f t) (by simp [State.leave])
  intro f
  have hrest : references (σ.calls.erase t) (σ.leave t).refs f =
      references (σ.calls.erase t) σ.refs f := by
    refine references_congr fun u hu => ?_
    rw [refs_congr (hpc u (Finset.ne_of_mem_erase hu)) rfl]
  show references (σ.calls.erase t) (σ.leave t).refs f + _ = _
  rw [hrest, references_eq_erase σ.refs f ((h.calls t).mpr ht), hself, count_append]
  omega

/-! ## Waiters -/

/-- The reference of the call becomes that of the waiter, in the queue. -/
theorem Inv.sleep (h : Inv mem hash σ x) {word : Option UInt32} (hpc : σ.pc t = .loaded f c word) :
    Inv mem hash
      ({ σ with
          wait := update σ.wait t (some f)
          queue := update σ.queue f (σ.queue f ++ [t])
          lock := none }.goto t (.asleep c)) x := by
  have hwait : σ.wait t = none := h.wait_of_not_waits (by rw [hpc]; rfl)
  -- it was in no queue
  have hnot : ∀ f', t ∉ σ.queue f' := by
    intro f' hmem
    have hsome := h.queued f' t hmem
    simp [hwait] at hsome
  have hqueue : ∀ f' u, u ∈ update σ.queue f (σ.queue f ++ [t]) f' ↔
      u ∈ σ.queue f' ∨ (u = t ∧ f' = f) := by
    intro f' u
    by_cases hf : f' = f
    · simp [hf]
    · simp [hf]
  refine h.of_thread (t := t) rfl rfl rfl rfl (fun u hu => update_of_ne hu _ _)
    (fun u hu => update_of_ne hu _ _) ?queue ?nodup (by simp [State.goto, hpc])
    (by simp [State.refs, State.goto, hpc, hwait, Pc.held]) (by simp [State.goto, Pc.target])
    (by simp [State.goto, Pc.waits]) ?queued ?asleep
  case queue =>
    intro f' u hu
    exact (hqueue f' u).trans (by simp [hu])
  case nodup =>
    intro f'
    show (update σ.queue f (σ.queue f ++ [t]) f').Nodup
    by_cases hf : f' = f
    · rw [hf, update_self, nodup_append]
      refine ⟨h.nodup f, nodup_singleton t, ?_⟩
      rintro u hu v hv rfl
      rw [mem_singleton] at hv
      exact hnot f (hv ▸ hu)
    · rw [update_of_ne hf]
      exact h.nodup f'
  case queued =>
    intro f' hmem
    rcases (hqueue f' t).mp hmem with hold | ⟨-, rfl⟩
    · exact absurd hold (hnot f')
    · simp [State.goto]
  case asleep =>
    intro c' f' _ hwait'
    refine (hqueue f' t).mpr (.inr ⟨rfl, ?_⟩)
    simpa [State.goto] using hwait'.symm

omit [DecidableEq μ] in
theorem mem_unlink_queue {u : τ} : u ∈ unlink σ.queue w f ↔ u ∈ σ.queue f ∧ u ≠ w := by
  simp [unlink]

/-- And back. -/
theorem Inv.unqueue (h : Inv mem hash σ x) {r : WaitResult} (hpc : σ.pc t = .back c r)
    (hwait : σ.wait t = some f) : Inv mem hash
      ({ σ with
          wait := update σ.wait t none
          queue := unlink σ.queue t }.goto t (.putWait f c r)) x := by
  refine h.of_thread (t := t) rfl rfl rfl rfl (fun u hu => update_of_ne hu _ _)
    (fun u hu => update_of_ne hu _ _) ?_ (fun f => (h.nodup f).filter _)
    (by simp [State.goto, hpc]) (by simp [State.refs, State.goto, hpc, hwait, Pc.held])
    (by simp [State.goto, Pc.target]) (by simp [State.goto, Pc.waits]) ?_ (by simp [State.goto])
  · intro f' u hu
    exact mem_unlink_queue.trans (and_iff_left hu)
  intro f' hmem
  exact absurd rfl (mem_unlink_queue.mp hmem).2

/-! ### A waiter that is notified -/

omit [DecidableEq τ] in
/-- A notification does not change what the waiter holds. -/
theorem Pc.notified_spec (p : Pc τ) :
    p.notified.waits = p.waits ∧ p.notified.held = p.held ∧ p.notified.target = p.target ∧
      (p.notified = .idle ↔ p = .idle) ∧ ∀ c, p.notified ≠ .asleep c := by
  cases p <;> simp [notified, waits, held, target]

/-- The waiter is out of the condition variable and out of its queue. -/
theorem Inv.wake (h : Inv mem hash σ x) (w : τ) :
    Inv mem hash { σ.notify w with queue := unlink σ.queue w } x := by
  obtain ⟨hwaits, hheld, htarget, hidle, hasleep⟩ := (σ.pc w).notified_spec
  have hpcw : { σ.notify w with queue := unlink σ.queue w }.pc w = (σ.pc w).notified :=
    update_self _ _ _
  refine h.of_thread (t := w) rfl rfl rfl rfl (fun u hu => update_of_ne hu _ _)
    (fun _ _ => rfl) ?queue (fun f => (h.nodup f).filter _) ?idle ?refs ?target ?waits ?queued
    ?asleep
  case queue =>
    intro f u hu
    exact mem_unlink_queue.trans (and_iff_left hu)
  case idle => rw [hpcw, hidle]
  case refs =>
    unfold refs
    rw [hpcw, hheld]
    rfl
  case target =>
    rw [hpcw, htarget]
    exact fun q hq => hq
  case waits =>
    rw [hpcw, hwaits]
    exact h.waits w
  case queued =>
    intro f hmem
    exact absurd rfl (mem_unlink_queue.mp hmem).2
  case asleep =>
    intro c f hw
    rw [hpcw] at hw
    exact absurd hw (hasleep c)

/-- The counts after a waiter has gone from one futex to another. -/
theorem move_refcount {G : Futex μ} (hF : σ.futexes f = some F) (hpos : 1 ≤ F.refcount)
    (hG : (σ.move f f2 w).futexes f' = some G) : ∃ F', σ.futexes f' = some F' ∧
      G.refcount + (if f' = f then 1 else 0) = F'.refcount + (if f' = f2 then 1 else 0) := by
  unfold move at hG
  dsimp only at hG
  -- the decrement, before the increment
  have hdec : ∀ F1, update σ.futexes f ((σ.futexes f).map fun F =>
      { F with refcount := F.refcount - 1 }) f' = some F1 → ∃ F', σ.futexes f' = some F' ∧
        F1.refcount + (if f' = f then 1 else 0) = F'.refcount := by
    intro F1 hF1
    rcases update_cases hF1 with ⟨rfl, hnew⟩ | ⟨hf, hold⟩
    · rw [hF, map_some] at hnew
      rw [← some.inj hnew, if_pos rfl]
      exact ⟨F, hF, Nat.sub_add_cancel hpos⟩
    · exact ⟨F1, hold, by rw [if_neg hf]; rfl⟩
  rcases update_cases hG with ⟨rfl, hnew⟩ | ⟨h2, hold⟩
  · obtain ⟨F1, hF1, rfl⟩ := map_eq_some_iff.mp hnew
    obtain ⟨F', hF', heq⟩ := hdec F1 hF1
    refine ⟨F', hF', ?_⟩
    show F1.refcount + 1 + _ = _
    rw [if_pos rfl, ← heq]
    omega
  · obtain ⟨F', hF', heq⟩ := hdec G hold
    exact ⟨F', hF', by rw [if_neg h2, heq]; rfl⟩

theorem move_sameKeys (f f2 : FId) (w : τ) : SameKeys σ (σ.move f f2 w) := by
  have hfirst : SameKeys σ
      { σ with
        futexes := update σ.futexes f
          ((σ.futexes f).map fun F => { F with refcount := F.refcount - 1 }) } :=
    sameKeys_update rfl
  exact hfirst.trans (sameKeys_update rfl)

theorem move_queue_self : (σ.move f f w).queue f = unlink σ.queue w f ++ [w] := update_self _ _ _

theorem move_queue_of_ne (hf : f' ≠ f2) :
    (σ.move f f2 w).queue f' = unlink σ.queue w f' := update_of_ne hf _ _

theorem mem_move_queue {u : τ} :
    u ∈ (σ.move f f2 w).queue f' ↔ (u ∈ σ.queue f' ∧ u ≠ w) ∨ (u = w ∧ f' = f2) := by
  show u ∈ update (unlink σ.queue w) f2 (unlink σ.queue w f2 ++ [w]) f' ↔ _
  by_cases hf : f' = f2
  · subst hf
    rw [update_self, mem_append, mem_unlink_queue, mem_singleton]
    simp
  · rw [update_of_ne hf, mem_unlink_queue]
    simp [hf]

/-- One waiter goes from one futex to another, with its reference. The call that moves it has a
reference of its own, so the first futex stays. -/
theorem Inv.move (h : Inv mem hash σ x) (hw : w ∈ σ.queue f) (ht : f ∈ (σ.pc t).held)
    (ht2 : f2 ∈ (σ.pc t).held) : Inv mem hash (σ.move f f2 w) x := by
  have hwait : σ.wait w = some f := h.queued f w hw
  have hrefsw := h.refs_of_wait hwait
  have hne : w ≠ t := by
    rintro rfl
    have hwaits := h.waits w
    rw [hwait, isSome_some] at hwaits
    simp [held_of_waits hwaits.symm] at ht
  obtain ⟨F, hF⟩ := ne_none_iff_exists'.mp (h.alive f (.inr ⟨t, Inv.mem_refs_of_held ht⟩))
  have htwo : 2 ≤ F.refcount :=
    h.two_le hF (Inv.mem_refs_of_held ht) (Inv.mem_refs_of_wait hwait) hne
  have hother : ∀ u, u ≠ w → (σ.move f f2 w).refs u = σ.refs u := by
    intro u hu
    simp [State.refs, State.move, hu]
  have hself : (σ.move f f2 w).refs w = [f2] := by
    have hheld : (σ.pc w).held = [] := by
      have hwaits := h.waits w
      rw [hwait, isSome_some] at hwaits
      exact held_of_waits hwaits.symm
    simp [State.refs, State.move, hheld]
  have hwait' : ∀ u, u ≠ w → (σ.move f f2 w).wait u = σ.wait u := fun u hu =>
    update_of_ne hu _ _
  have hwaitw : (σ.move f f2 w).wait w = some f2 := update_self _ _ _
  refine h.of_keys (move_sameKeys f f2 w) rfl rfl rfl ?waits ?count ?alive ?queued ?nodup ?asleep
    ?sound
  case waits =>
    intro u
    show _ = (σ.pc u).waits
    rw [← h.waits]
    by_cases hu : u = w
    · rw [hu, hwaitw, hwait]
      rfl
    · rw [hwait' u hu]
  case count =>
    intro f' G hG
    obtain ⟨F', hF', hcount⟩ := move_refcount hF (by omega) hG
    have hin : w ∈ σ.calls := h.mem_calls_of_refs (Inv.mem_refs_of_wait hwait)
    have hchange := references_change hin hother f'
    rw [hself, hrefsw] at hchange
    have hold := h.count f' F' hF'
    simp only [count_singleton, beq_iff_eq] at hchange
    show G.refcount = references σ.calls (σ.move f f2 w).refs f' + _
    simp only [eq_comm (a := f) (b := f'), eq_comm (a := f2) (b := f')] at hchange
    omega
  case alive =>
    rintro f' (hmem | ⟨u, hu⟩)
    · exact h.alive f' (.inl hmem)
    by_cases huw : u = w
    · rw [huw, hself, mem_singleton] at hu
      rw [hu]
      exact h.alive f2 (.inr ⟨t, Inv.mem_refs_of_held ht2⟩)
    · rw [hother u huw] at hu
      exact h.alive f' (.inr ⟨u, hu⟩)
  case queued =>
    intro f' u hmem
    rcases mem_move_queue.mp hmem with ⟨hold, hu⟩ | ⟨rfl, rfl⟩
    · rw [hwait' u hu]
      exact h.queued f' u hold
    · exact hwaitw
  case nodup =>
    intro f'
    have hunlink : ∀ f', (unlink σ.queue w f').Nodup := fun f' => (h.nodup f').filter _
    show (update (unlink σ.queue w) f2 (unlink σ.queue w f2 ++ [w]) f').Nodup
    by_cases hf : f' = f2
    · rw [hf, update_self, nodup_append]
      refine ⟨hunlink f2, nodup_singleton w, ?_⟩
      rintro u hu v hv rfl
      rw [mem_singleton] at hv
      simp [unlink, hv] at hu
    · rw [update_of_ne hf]
      exact hunlink f'
  case asleep =>
    intro u c f' hu hwait1
    refine mem_move_queue.mpr ?_
    by_cases huw : u = w
    · rw [huw, hwaitw] at hwait1
      exact .inr ⟨huw, (some.inj hwait1).symm⟩
    rw [hwait' u huw] at hwait1
    exact .inl ⟨h.asleep u c f' hu hwait1, huw⟩
  case sound =>
    have hgt : 1 < F.refcount := by omega
    show (σ.failed || !((σ.futexes f).any fun F => decide (1 < F.refcount))) = false
    simp [h.sound, hF, hgt]

end Threads

end Inv

end Ish.Futexes

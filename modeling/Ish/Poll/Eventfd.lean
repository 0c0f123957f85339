import Ish.Lib.Machine
import Ish.Poll.Basic

set_option autoImplicit false

/-! # Counters behind a descriptor

`kernel/eventfd.c`. A call has `fd->lock` from its first look at the counter until it returns or
sleeps on `fd->cond`, so one step is one turn of the loop of `eventfd_read` or `eventfd_write`.
Readers and writers sleep on the same condition and `notify` wakes all of them; a sleeper may also
wake for no reason or be interrupted. `O_NONBLOCK_` is looked at in every turn.
-/

namespace Ish.Polling.Eventfd

open Function Option Ish.Lib

def UINT64_MAX : UInt64 := 0xffffffffffffffff

inductive Call where
  | read (bufsize : Nat)
  | write (bufsize : Nat) (increment : UInt64)

inductive Out where
  | slept
  | read (value : UInt64)
  | wrote (increment : UInt64)
  | einval
  | eagain
  | eintr

def Out.written : Out → Nat
  | .wrote increment => increment.toNat
  | _ => 0

def Out.got : Out → Nat
  | .read value => value.toNat
  | _ => 0

/-- What is refused before the lock is taken. -/
def Call.invalid : Call → Bool
  | .read bufsize => bufsize < 8
  | .write bufsize increment => bufsize < 8 || increment = UINT64_MAX

/-- The condition of the loop. -/
def Call.blocks (val : UInt64) : Call → Bool
  | .read _ => val = 0
  | .write _ increment => UINT64_MAX - increment ≤ val

/-- The counter, and the calls that sleep, each with whether it has been notified. -/
structure State (τ : Type) where
  val : UInt64
  asleep : τ → Option (Call × Bool)

inductive Label (τ : Type) where
  | call (t : τ) (call : Call) (nonblock : Bool)
  | wake (t : τ) (nonblock : Bool)
  | interrupt (t : τ)

/-- `eventfd_poll`. -/
def eventfdPoll (val : UInt64) : UInt32 :=
  (if val > 0 then POLL_READ else 0) ||| (if val < UINT64_MAX - 1 then POLL_WRITE else 0)

variable {τ : Type} {s s' : State τ} {o : Out} [DecidableEq τ]

def turn (s : State τ) (t : τ) (call : Call) (nonblock : Bool) : State τ × Out :=
  if call.blocks s.val then
    if nonblock then (⟨s.val, update s.asleep t none⟩, .eagain)
    else (⟨s.val, update s.asleep t (some (call, false))⟩, .slept)
  else
    let notified := fun u => (update s.asleep t none u).map fun w => (w.1, true)
    match call with
    | .read _ => (⟨0, notified⟩, .read s.val)
    | .write _ increment => (⟨s.val + increment, notified⟩, .wrote increment)

def step (s : State τ) : Label τ → Option (State τ × Out)
  | .call t call nonblock =>
    if (s.asleep t).isSome then none
    else some (if call.invalid then (s, .einval) else turn s t call nonblock)
  | .wake t nonblock => (s.asleep t).map fun w => turn s t w.1 nonblock
  | .interrupt t => (s.asleep t).map fun _ => (⟨s.val, update s.asleep t none⟩, .eintr)

def machine : Machine (State τ) (Label τ) Out := ⟨step⟩

def init (initval : UInt32) : State τ := ⟨initval.toUInt64, fun _ => none⟩

structure Inv (s : State τ) : Prop where
  le : s.val.toNat ≤ 2 ^ 64 - 2
  told : ∀ t n, s.asleep t = some (.read n, false) → s.val = 0

/-- A thread leaves, or goes to sleep; a reader because there is nothing to read. -/
theorem Inv.put (h : Inv s) (t : τ) {w : Option (Call × Bool)}
    (hw : ∀ n, w = some (.read n, false) → s.val = 0) : Inv ⟨s.val, update s.asleep t w⟩ := by
  refine ⟨h.le, ?_⟩
  intro u n hu
  rcases update_cases hu with ⟨-, hnew⟩ | ⟨-, hold⟩
  · exact hw n hnew
  · exact h.told u n hold

theorem Inv.turn (h : Inv s) {t : τ} {call : Call} {nonblock : Bool}
    (hturn : turn s t call nonblock = (s', o)) :
    Inv s' ∧ s.val.toNat + o.written = s'.val.toNat + o.got := by
  unfold Eventfd.turn at hturn
  split at hturn
  · rename_i hblocks
    split at hturn
    · cases hturn
      exact ⟨h.put t nofun, rfl⟩
    cases hturn
    refine ⟨h.put t ?_, rfl⟩
    intro n hread
    cases hread
    exact of_decide_eq_true hblocks
  rename_i hblocks
  -- everybody who sleeps now has been notified
  have htold : ∀ u n, (update s.asleep t none u).map (fun w => (w.1, true)) ≠
      some (Call.read n, false) := by
    intro u n hu
    obtain ⟨w, -, hw⟩ := map_eq_some_iff.mp hu
    exact absurd (congrArg Prod.snd hw) (by simp)
  cases call with
  | read n =>
    cases hturn
    exact ⟨⟨Nat.zero_le _, fun u n hu => absurd hu (htold u n)⟩, Nat.add_comm _ 0⟩
  | write n increment =>
    cases hturn
    have hlt : s.val < UINT64_MAX - increment := by simpa [Call.blocks] using hblocks
    have hmax : UINT64_MAX.toNat = 2 ^ 64 - 1 := rfl
    have hinc : increment.toNat < 2 ^ 64 := increment.toNat_lt
    rw [UInt64.lt_iff_toNat_lt, UInt64.toNat_sub_of_le _ _ (UInt64.le_iff_toNat_le.mpr (by omega))]
      at hlt
    have hsum : (s.val + increment).toNat = s.val.toNat + increment.toNat := by
      rw [UInt64.toNat_add, Nat.mod_eq_of_lt (by omega)]
    exact ⟨⟨hsum ▸ by omega, fun u n hu => absurd hu (htold u n)⟩, hsum.symm⟩

theorem Inv.step {l : Label τ} (h : Inv s) (hstep : machine.step s l = some (s', o)) :
    Inv s' ∧ s.val.toNat + o.written = s'.val.toNat + o.got := by
  cases l with
  | call t call nonblock =>
    obtain ⟨-, heq⟩ := ite_none_left_eq_some.mp hstep
    rw [some.injEq] at heq
    split at heq
    · cases heq
      exact ⟨h, rfl⟩
    · exact h.turn heq
  | wake t nonblock =>
    obtain ⟨w, -, heq⟩ := map_eq_some_iff.mp hstep
    exact h.turn heq
  | interrupt t =>
    obtain ⟨w, -, heq⟩ := map_eq_some_iff.mp hstep
    cases heq
    exact ⟨h.put t nofun, rfl⟩

theorem run_balanced {labels : List (Label τ)} {outs : List Out} (h : Inv s)
    (hrun : machine.run s labels = some (s', outs)) :
    Inv s' ∧ s.val.toNat + (outs.map Out.written).sum = s'.val.toNat + (outs.map Out.got).sum := by
  induction labels generalizing s outs with
  | nil =>
    cases hrun
    exact ⟨h, rfl⟩
  | cons l labels ih =>
    obtain ⟨s1, o, os, hs1, hrest, rfl⟩ := Machine.run_cons_eq_some.mp hrun
    obtain ⟨h1, heq⟩ := h.step hs1
    obtain ⟨h', heq'⟩ := ih h1 hrest
    refine ⟨h', ?_⟩
    rw [List.map_cons, List.sum_cons, List.map_cons, List.sum_cons]
    omega

theorem eventfdPoll_iff (val : UInt64) (n : Nat) :
    (eventfdPoll val &&& POLL_READ ≠ 0 ↔ (Call.read n).blocks val = false) ∧
      (eventfdPoll val &&& POLL_WRITE ≠ 0 ↔ (Call.write n 1).blocks val = false) := by
  unfold eventfdPoll Call.blocks
  rw [decide_eq_false_iff_not, decide_eq_false_iff_not, UInt64.not_le]
  simp only [gt_iff_lt, UInt64.pos_iff_ne_zero]
  by_cases hread : val = 0 <;> by_cases hwrite : val < UINT64_MAX - 1 <;>
    simp only [hread, hwrite, ne_eq, not_true, not_false_iff, if_true, if_false] <;> decide

/-- **Nothing is lost or made up**, `poll` says who would sleep, and nobody sleeps who could
read. -/
theorem eventfd_conserves (initval : UInt32) {labels : List (Label τ)} {outs : List Out}
    (hrun : machine.run (init initval) labels = some (s, outs)) :
    s.val.toNat ≤ 2 ^ 64 - 2 ∧
      initval.toNat + (outs.map Out.written).sum = s.val.toNat + (outs.map Out.got).sum ∧
      (∀ n, (eventfdPoll s.val &&& POLL_READ ≠ 0 ↔ (Call.read n).blocks s.val = false) ∧
        (eventfdPoll s.val &&& POLL_WRITE ≠ 0 ↔ (Call.write n 1).blocks s.val = false)) ∧
      ∀ t n, s.asleep t = some (.read n, false) → s.val = 0 := by
  have hinit : (init initval : State τ).val.toNat = initval.toNat := UInt32.toNat_toUInt64 initval
  have hlt : initval.toNat < 2 ^ 32 := initval.toNat_lt
  obtain ⟨hinv, hsum⟩ := run_balanced ⟨by omega, nofun⟩ hrun
  exact ⟨hinv.le, hinit ▸ hsum, eventfdPoll_iff s.val, hinv.told⟩

/-- A reader sleeps, a writer adds 5, and the reader takes it. -/
theorem eventfd_conserves_five :
    ∃ s outs, machine.run (init 0) [.call 0 (.read 8) false, .call 1 (.write 8 5) false,
        .wake (0 : Fin 2) false] = some (s, outs) ∧
      (outs.map Out.got).sum = 5 ∧ ∀ t n, s.asleep t = some (.read n, false) → s.val = 0 := by
  refine (fun hrun => ⟨_, _, hrun, by rfl, (eventfd_conserves 0 hrun).2.2.2⟩) rfl

end Ish.Polling.Eventfd

import Ish.Poll.SysPoll

set_option autoImplicit false

/-! # The system calls select and pselect

`select_common` (`kernel/poll.c`) folds the three sets into one mask for each descriptor, waits with
`poll_wait`, and unfolds what is reported in `select_event_callback`. A set is a function on bit
numbers; the arrays of the source have `BITS_SIZE(nfds)` bytes, and no bit behind `nfds` is used. A
set whose address is null is empty and is not written. The sets do not overlap.

The unfolding does not look at what was asked for. `poll_wait` reports a hangup and an error in any
case, and these make a descriptor readable, and an error makes it writable. The result is the number
of descriptors and not of bits.
-/

namespace Ish.Polling

open Function Ish.Lib Ish.Descriptors Finset Masks

def POLL_PRI : UInt32 := 2

inductive Kind where
  | read
  | write
  | except
deriving DecidableEq

/-- `SELECT_READ`, `SELECT_WRITE` and `SELECT_EX`. -/
def Kind.mask : Kind → UInt32
  | .read => POLL_READ ||| POLL_HUP ||| POLL_ERR
  | .write => POLL_WRITE ||| POLL_ERR
  | .except => POLL_PRI

theorem Kind.mem_all (k : Kind) : k ∈ ({.read, .write, .except} : Finset Kind) := by
  cases k <;> decide

instance : Fintype Kind := ⟨{.read, .write, .except}, Kind.mem_all⟩

abbrev FdSet := Nat → Bool

/-- The three sets at the guest's addresses, if these are not null. -/
abbrev Sets := Kind → Option FdSet

def Sets.has (s : Sets) (k : Kind) (i : Nat) : Bool :=
  match s k with
  | none => false
  | some set => set i

/-- What the call meets: the sets that can be read and written to, what else can fail, and the
descriptors that `poll_add_fd` takes. -/
structure SelectWorld where
  readable : Kind → Bool
  writable : Kind → Bool
  create : Option Errno
  pipe : Option Errno
  ok : Nat → Bool

/-- What the call returns, and the sets after it. -/
structure Selected where
  ret : Int
  sets : Sets

/-- What comes before `select_common`: where the timeout and the signal mask are null addresses or
can be read. -/
inductive SelectCall where
  | select (timeout : Option Bool)
  | pselect (timeout : Option Bool) (sigmask : Bool) (mask : Option (UInt32 × Bool))

def SelectCall.error : SelectCall → Option Int
  | .select timeout => if timeout = some false then some EFAULT else none
  | .pselect timeout sigmask mask =>
    if timeout = some false then some EFAULT
    else if sigmask = false then some EFAULT
    else
      match mask with
      | none => none
      | some (size, readable) =>
        if size ≠ 8 then some EINVAL else if readable = false then some EFAULT else none

section Model

variable {φ : Type} [DecidableEq φ]

def selectEventCallback : Callback Nat (Kind → FdSet) := fun c types i =>
  (fun k => if types &&& k.mask ≠ 0 then update (c k) i true else c k,
    decide (types &&& (Kind.read.mask ||| Kind.write.mask ||| Kind.except.mask) ≠ 0))

/-- The mask of a descriptor. -/
def events (s : Sets) (i : Nat) : UInt32 :=
  (if s.has .read i then Kind.read.mask else 0) |||
    (if s.has .write i then Kind.write.mask else 0) |||
    (if s.has .except i then Kind.except.mask else 0)

/-- The loop over the descriptors from `i` on; `none` is `_EBADF`. -/
def addFds (ok : Nat → Bool) (T : Table φ) (s : Sets) :
    Nat → Nat → List (PollFd φ Nat) → Option (List (PollFd φ Nat))
  | 0, _, es => some es
  | n + 1, i, es =>
    if events s i = 0 then addFds ok T s n (i + 1) es
    else
      match fGet T (Int32.ofNat i) with
      | none => none
      | some f =>
        addFds ok T s n (i + 1) (if ok i then ⟨f, events s i, i, 0⟩ :: es else es)

/-- The end of `select_common`: the sets are written in turn. -/
def writeSets (w : SelectWorld) (s : Sets) (ret : Int) (c : Kind → FdSet) : Selected :=
  let out : Sets := fun k => (s k).map fun _ => c k
  if (s .read).isSome ∧ w.writable .read = false then ⟨EFAULT, s⟩
  else if (s .write).isSome ∧ w.writable .write = false then
    ⟨EFAULT, update s .read (out .read)⟩
  else if (s .except).isSome ∧ w.writable .except = false then
    ⟨EFAULT, update out .except (s .except)⟩
  else ⟨ret, out⟩

/-- `select_common`; `none` if it has not returned after these rounds. -/
def selectCommon (w : SelectWorld) (T : Table φ) (nfds : Nat) (s : Sets)
    (rounds : List (Round φ)) : Option Selected :=
  if ∃ k ∈ [Kind.read, .write, .except], (s k).isSome ∧ w.readable k = false then
    some ⟨EFAULT, s⟩
  else
    match w.create with
    | some err => some ⟨err, s⟩
    | none =>
      match addFds w.ok T s nfds 0 [] with
      | none => some ⟨EBADF, s⟩
      | some es =>
        match w.pipe with
        | some err => some ⟨err, s⟩
        | none =>
          (pollWait selectEventCallback rounds es (fun _ _ => false) 0).map fun r =>
            if r.ret < 0 then ⟨r.ret, s⟩ else writeSets w s r.ret r.ctx

/-- `sys_select` and `sys_pselect`. -/
def sysSelect (call : SelectCall) (w : SelectWorld) (T : Table φ) (nfds : Nat) (s : Sets)
    (rounds : List (Round φ)) : Option Selected :=
  match call.error with
  | some err => some ⟨err, s⟩
  | none => selectCommon w T nfds s rounds

end Model

/-! ## Masks -/

section Masks

variable {s : Sets} {i : Nat}

/-- A mask has something of the descriptor's events when it has something of a kind that was asked
for. -/
theorem and_events_eq_zero (r : UInt32) :
    r &&& events s i = 0 ↔ ∀ k, s.has k i = true → r &&& k.mask = 0 := by
  have hif : ∀ k, r &&& (if s.has k i then k.mask else 0) = 0 ↔
      (s.has k i = true → r &&& k.mask = 0) := by
    intro k
    cases s.has k i <;> simp
  unfold events
  rw [and_or_eq_zero, and_or_eq_zero, hif, hif, hif]
  constructor
  · rintro ⟨⟨hread, hwrite⟩, hexcept⟩ k
    cases k
    · exact hread
    · exact hwrite
    · exact hexcept
  · intro h
    exact ⟨⟨h .read, h .write⟩, h .except⟩

theorem events_eq_zero : events s i = 0 ↔ ∀ k, s.has k i = false := by
  have h := and_events_eq_zero (s := s) (i := i) (~~~0)
  rw [UInt32.not_zero, UInt32.neg_one_and] at h
  rw [h]
  refine forall_congr' fun k => ?_
  cases s.has k i
  · simp
  refine iff_of_false ?_ nofun
  intro hk
  exact absurd (hk rfl) (by cases k <;> decide)

/-- The kinds have no flags in common but the hangup and the error, and none is a flag of the
poll. -/
theorem mask_and_mask {k k' : Kind} (h : k ≠ k') :
    k.mask &&& k'.mask &&& ~~~(POLL_HUP ||| POLL_ERR) = 0 := by
  cases k <;> cases k' <;> first | exact absurd rfl h | decide

theorem events_and (m : UInt32) (hm : ∀ k : Kind, m &&& k.mask = 0) : events s i &&& m = 0 := by
  rw [UInt32.and_comm, and_events_eq_zero]
  exact fun k _ => hm k

/-- Of the flags that an entry listens for, a kind that was asked for has all of its own. -/
theorem mask_and_listened {k : Kind} (h : s.has k i = true) :
    k.mask &&& (events s i ||| POLL_HUP ||| POLL_ERR) = k.mask := by
  apply and_eq_left_of_forall
  intro r hr
  rw [and_or_eq_zero, and_or_eq_zero, and_events_eq_zero] at hr
  exact hr.1.1 k h

/-- A kind that was not asked for has only the hangup and the error. -/
theorem mask_and_listened_of_not {k : Kind} (h : s.has k i = false) :
    k.mask &&& (events s i ||| POLL_HUP ||| POLL_ERR) = k.mask &&& (POLL_HUP ||| POLL_ERR) := by
  have hevents : k.mask &&& ~~~(POLL_HUP ||| POLL_ERR) &&& events s i = 0 := by
    rw [and_events_eq_zero]
    intro k' hk'
    have hne : k ≠ k' := by
      rintro rfl
      rw [h] at hk'
      cases hk'
    rw [UInt32.and_assoc, UInt32.and_comm (~~~_), ← UInt32.and_assoc]
    exact mask_and_mask hne
  apply ext_has
  intro j
  have hj := eq_zero_iff.mp hevents j
  simp only [has_and, has_or, has_not] at hj ⊢
  generalize has k.mask j = a, has POLL_HUP j = b, has POLL_ERR j = c,
    has (events s i) j = d at hj ⊢
  revert hj
  cases a <;> cases b <;> cases c <;> cases d <;> decide

end Masks

/-! ## The list of the poll -/

section Entries

variable {φ : Type} {ok : Nat → Bool} {T : Table φ} {s : Sets}

/-- The entry of a descriptor. -/
def entryOf (ok : Nat → Bool) (T : Table φ) (s : Sets) (i : Nat) : Option (PollFd φ Nat) :=
  if events s i ≠ 0 ∧ ok i = true then
    (fGet T (Int32.ofNat i)).map fun f => ⟨f, events s i, i, 0⟩
  else none

/-- **The loop over the descriptors** adds their entries at the front. -/
theorem addFds_eq_some {n i : Nat} {es es' : List (PollFd φ Nat)}
    (h : addFds ok T s n i es = some es') :
    es' = ((List.range' i n).filterMap (entryOf ok T s)).reverse ++ es := by
  induction n generalizing i es with
  | zero => exact (Option.some.inj h).symm
  | succ n ih =>
    have hrest : ∀ es1, addFds ok T s n (i + 1) es1 = some es' →
        es1 = (entryOf ok T s i).toList ++ es →
        es' = ((List.range' i (n + 1)).filterMap (entryOf ok T s)).reverse ++ es := by
      intro es1 h1 hes1
      rw [ih h1, hes1, List.range'_succ, List.filterMap_cons]
      cases entryOf ok T s i with
      | none => rfl
      | some e => simp
    unfold addFds at h
    by_cases hzero : events s i = 0
    · rw [if_pos hzero] at h
      apply hrest es h
      rw [entryOf, if_neg fun hboth => hboth.1 hzero]
      rfl
    rw [if_neg hzero] at h
    split at h
    · cases h
    rename_i f hfile
    apply hrest _ h
    rw [entryOf]
    by_cases hok : ok i = true
    · rw [if_pos hok, if_pos ⟨hzero, hok⟩, hfile]
      rfl
    rw [if_neg hok, if_neg fun hboth => hok hboth.2]
    rfl

/-- What the file of a descriptor is ready for. -/
def readiness (T : Table φ) (poll : φ → UInt32) (i : Nat) : UInt32 :=
  ((fGet T (Int32.ofNat i)).map poll).getD 0

/-- What `poll_wait` finds for the descriptor. -/
def found (T : Table φ) (s : Sets) (poll : φ → UInt32) (i : Nat) : UInt32 :=
  readiness T poll i &&& (events s i ||| POLL_HUP ||| POLL_ERR)

/-- The descriptor is reported, for a kind that was asked for or for a hangup or an error. -/
def Reported (ok : Nat → Bool) (T : Table φ) (s : Sets) (poll : φ → UInt32) (i : Nat) : Prop :=
  ok i = true ∧ events s i ≠ 0 ∧
    readiness T poll i &&& (events s i ||| POLL_HUP ||| POLL_ERR) ≠ 0

instance (poll : φ → UInt32) : DecidablePred (Reported ok T s poll) :=
  fun _ => inferInstanceAs (Decidable (_ ∧ _ ∧ _))

theorem entryOf_eq_some {i : Nat} {e : PollFd φ Nat} (h : entryOf ok T s i = some e) :
    ok i = true ∧ events s i ≠ 0 ∧ e.types = events s i ∧ e.info = i ∧ e.triggered = 0 ∧
      fGet T (Int32.ofNat i) = some e.fd := by
  unfold entryOf at h
  split at h
  case isTrue hboth =>
    obtain ⟨f, hf, rfl⟩ := Option.map_eq_some_iff.mp h
    exact ⟨hboth.2, hboth.1, rfl, rfl, rfl, hf⟩
  case isFalse => cases h

theorem entryOf_plain {i : Nat} {e : PollFd φ Nat} (h : entryOf ok T s i = some e) :
    ¬ e.Edge ∧ ¬ e.Oneshot := by
  obtain ⟨-, -, htypes, -, -, -⟩ := entryOf_eq_some h
  unfold PollFd.Edge PollFd.Oneshot
  rw [htypes]
  constructor
  · exact not_not_intro (events_and _ fun k => by cases k <;> decide)
  · exact not_not_intro (events_and _ fun k => by cases k <;> decide)

theorem pollTypes_of_entryOf {i : Nat} {e : PollFd φ Nat} (h : entryOf ok T s i = some e)
    (poll : φ → UInt32) :
    e.pollTypes poll = found T s poll i := by
  obtain ⟨-, -, htypes, -, -, hfile⟩ := entryOf_eq_some h
  unfold PollFd.pollTypes found readiness
  rw [if_neg (entryOf_plain h).1, htypes, hfile]
  rfl

/-- A descriptor is reported when its entry is pending. -/
theorem reported_iff (poll : φ → UInt32) (i : Nat) :
    Reported ok T s poll i ↔ ∃ e, entryOf ok T s i = some e ∧ e.Pending poll := by
  constructor
  · rintro ⟨hok, hevents, hready⟩
    cases hfile : fGet T (Int32.ofNat i) with
    | none =>
      have hzero : readiness T poll i = 0 := by
        unfold readiness
        rw [hfile]
        rfl
      rw [hzero, UInt32.zero_and] at hready
      exact absurd rfl hready
    | some f =>
      have hentry : entryOf ok T s i = some ⟨f, events s i, i, 0⟩ := by
        rw [entryOf, if_pos ⟨hevents, hok⟩, hfile]
        rfl
      refine ⟨_, hentry, ?_⟩
      unfold PollFd.Pending
      rwa [pollTypes_of_entryOf hentry]
  · rintro ⟨e, he, hpending⟩
    obtain ⟨hok, hevents, -⟩ := entryOf_eq_some he
    unfold PollFd.Pending at hpending
    rw [pollTypes_of_entryOf he] at hpending
    exact ⟨hok, hevents, hpending⟩

/-- The calls of a turn: one for each descriptor that is reported. -/
theorem length_calls (poll : φ → UInt32) (n : Nat) :
    (calls poll (((List.range n).filterMap (entryOf ok T s)).reverse ++ [])).length
      = ((range n).filter (Reported ok T s poll)).card := by
  have hcard : ((range n).filter (Reported ok T s poll)).card
      = ((List.range n).filter fun i => decide (Reported ok T s poll i)).length := rfl
  rw [hcard, ← List.countP_eq_length_filter]
  unfold calls
  rw [List.length_map, ← List.countP_eq_length_filter, List.append_nil, List.countP_reverse,
    List.countP_filterMap]
  apply List.countP_congr
  intro i _
  rw [decide_eq_true_iff, reported_iff]
  cases entryOf ok T s i with
  | none => simp
  | some e => simp

/-- A descriptor's call, if it has one. -/
theorem mem_calls (poll : φ → UInt32) (n i : Nat) (t : UInt32) :
    (t, i) ∈ calls poll (((List.range n).filterMap (entryOf ok T s)).reverse ++ []) ↔
      i < n ∧ Reported ok T s poll i ∧ t = found T s poll i := by
  unfold calls
  rw [List.append_nil, List.mem_map]
  constructor
  · rintro ⟨e, he, heq⟩
    obtain ⟨hmem, hpending⟩ := List.mem_filter.mp he
    obtain ⟨j, hj, hentry⟩ := List.mem_filterMap.mp (List.mem_reverse.mp hmem)
    cases heq
    obtain ⟨-, -, -, hinfo, -⟩ := entryOf_eq_some hentry
    rw [hinfo]
    exact ⟨List.mem_range.mp hj, (reported_iff poll j).mpr ⟨e, hentry, of_decide_eq_true hpending⟩,
      pollTypes_of_entryOf hentry poll⟩
  rintro ⟨hi, hreported, rfl⟩
  obtain ⟨e, hentry, hpending⟩ := (reported_iff poll i).mp hreported
  obtain ⟨-, -, -, hinfo, -⟩ := entryOf_eq_some hentry
  refine ⟨e, List.mem_filter.mpr ⟨?_, decide_eq_true hpending⟩, ?_⟩
  · rw [List.mem_reverse, List.mem_filterMap]
    exact ⟨i, List.mem_range.mpr hi, hentry⟩
  · rw [pollTypes_of_entryOf hentry, hinfo]

end Entries

/-! ## The callback -/

section Unfolding

variable {k : Kind} {i : Nat}

/-- A bit is set by a call for the descriptor with something of the kind. -/
theorem foldl_call_fst (as : List (UInt32 × Nat)) (c : Kind → FdSet) (n : Nat) :
    (as.foldl (call selectEventCallback) (c, n)).1 k i = true ↔
      c k i = true ∨ ∃ t, (t, i) ∈ as ∧ t &&& k.mask ≠ 0 := by
  induction as generalizing c n with
  | nil => simp
  | cons a as ih =>
    have hone : (call selectEventCallback (c, n) a).1 k i = true ↔
        c k i = true ∨ a.2 = i ∧ a.1 &&& k.mask ≠ 0 := by
      change (if a.1 &&& k.mask ≠ 0 then update (c k) a.2 true else c k) i = true ↔ _
      by_cases hmask : a.1 &&& k.mask ≠ 0
      · rw [if_pos hmask]
        by_cases hi : i = a.2
        · rw [hi, update_self]
          simp [hmask]
        rw [update_of_ne hi]
        simp [Ne.symm hi]
      · rw [if_neg hmask]
        simp [hmask]
    rw [List.foldl_cons, ih, hone, or_assoc]
    apply or_congr_right
    constructor
    · rintro (⟨rfl, hmask⟩ | ⟨t, ht, hmask⟩)
      · exact ⟨a.1, List.mem_cons_self, hmask⟩
      · exact ⟨t, List.mem_cons_of_mem a ht, hmask⟩
    rintro ⟨t, ht, hmask⟩
    rcases List.mem_cons.mp ht with rfl | ht
    · exact .inl ⟨rfl, hmask⟩
    · exact .inr ⟨t, ht, hmask⟩

/-- Calls with something of a kind are all counted. -/
theorem foldl_call_snd (as : List (UInt32 × Nat)) (c : Kind → FdSet) (n : Nat)
    (h : ∀ a ∈ as, a.1 &&& (Kind.read.mask ||| Kind.write.mask ||| Kind.except.mask) ≠ 0) :
    (as.foldl (call selectEventCallback) (c, n)).2 = n + as.length := by
  induction as generalizing c n with
  | nil => rfl
  | cons a as ih =>
    have hone : (call selectEventCallback (c, n) a).2 = n + 1 :=
      if_pos (decide_eq_true (h a List.mem_cons_self))
    rw [List.foldl_cons, ih _ _ fun b hb => h b (List.mem_cons_of_mem a hb), hone, List.length_cons]
    omega

end Unfolding

/-! ## The result -/

section Result

variable {φ : Type} {w : SelectWorld} {T : Table φ} {nfds : Nat} {s : Sets}
  {poll : φ → UInt32}

/-- `BITS_SIZE`. -/
def fdsetSize (nfds : Nat) : Nat := (nfds - 1) / 8 + 1

/-- The number of bits in the three sets. -/
def Sets.count (s : Sets) (n : Nat) : Nat :=
  ∑ k : Kind, ((range n).filter fun i => s.has k i = true).card

/-- **A right result** of a call on the sets `s`, when the files are ready for `poll`. -/
structure Selects (T : Table φ) (nfds : Nat) (s : Sets) (poll : φ → UInt32) (r : Selected) :
    Prop where
  subset : ∀ k i, r.sets.has k i = true → s.has k i = true
  ready : ∀ k i, r.sets.has k i = true ↔
    i < nfds ∧ s.has k i = true ∧ readiness T poll i &&& k.mask ≠ 0
  count : r.ret = r.sets.count (8 * fdsetSize nfds)

/-- In how many of the sets that ask for it the descriptor is ready. -/
def readyKinds (T : Table φ) (s : Sets) (poll : φ → UInt32) (i : Nat) : Nat :=
  (univ.filter fun k => s.has k i = true ∧ readiness T poll i &&& k.mask ≠ 0).card

/-- When a call is right. -/
structure Selectable (ok : Nat → Bool) (T : Table φ) (nfds : Nat) (s : Sets)
    (poll : φ → UInt32) : Prop where
  /-- A descriptor that `poll_add_fd` refuses is ready for nothing that was asked for. -/
  refused : ∀ i < nfds, ok i = false → ∀ k, s.has k i = true →
    readiness T poll i &&& k.mask = 0
  /-- A descriptor that was not asked for in a set has no hangup and no error that would put it
  there. -/
  unasked : ∀ i < nfds, ok i = true → events s i ≠ 0 → ∀ k, (s k).isSome = true →
    s.has k i = false → readiness T poll i &&& (k.mask &&& (POLL_HUP ||| POLL_ERR)) = 0
  /-- As many bits are missing from the count, of descriptors in more than one set, as there are
  descriptors that are reported and are in none. -/
  count : ∑ i ∈ range nfds, (readyKinds T s poll i - 1) =
    ((range nfds).filter fun i =>
      Reported ok T s poll i ∧ readyKinds T s poll i = 0).card

theorem found_and_all (i : Nat) :
    found T s poll i &&& (Kind.read.mask ||| Kind.write.mask ||| Kind.except.mask)
      = found T s poll i := by
  have hsub : (events s i ||| POLL_HUP ||| POLL_ERR) &&&
      (Kind.read.mask ||| Kind.write.mask ||| Kind.except.mask)
      = events s i ||| POLL_HUP ||| POLL_ERR := by
    apply and_eq_left_of_forall
    intro r hr
    rw [and_or_eq_zero, and_or_eq_zero] at hr
    obtain ⟨⟨hread, hwrite⟩, hexcept⟩ := hr
    have hflags := hread
    unfold Kind.mask at hflags
    rw [and_or_eq_zero, and_or_eq_zero] at hflags
    rw [and_or_eq_zero, and_or_eq_zero, and_events_eq_zero]
    refine ⟨⟨?_, hflags.1.2⟩, hflags.2⟩
    intro k _
    cases k
    · exact hread
    · exact hwrite
    · exact hexcept
  rw [found, UInt32.and_assoc, hsub]

theorem found_and (k : Kind) (i : Nat) : found T s poll i &&& k.mask
    = readiness T poll i &&& (k.mask &&& (events s i ||| POLL_HUP ||| POLL_ERR)) := by
  rw [found, UInt32.and_assoc, UInt32.and_comm k.mask]

theorem writeSets_of_nonneg {ret : Int} {c : Kind → FdSet} (h : 0 ≤ (writeSets w s ret c).ret) :
    writeSets w s ret c = ⟨ret, fun k => (s k).map fun _ => c k⟩ := by
  have hneg : ¬ 0 ≤ EFAULT := by decide
  unfold writeSets at h ⊢
  split_ifs at h ⊢
  · exact absurd h hneg
  · exact absurd h hneg
  · exact absurd h hneg
  · rfl

theorem has_map (c : Kind → FdSet) (k : Kind) (i : Nat) :
    Sets.has (fun k => (s k).map fun _ => c k) k i = true ↔
      (s k).isSome = true ∧ c k i = true := by
  unfold Sets.has
  cases hs : s k <;> simp [hs]

/-- A call that comes to its wait. -/
theorem sysSelect_eq_wait [DecidableEq φ] {call : SelectCall} {idle : List (Round φ)}
    (hidle : sysSelect call w T nfds s idle = none) :
    ∃ es, addFds w.ok T s nfds 0 [] = some es ∧ ∀ rounds, sysSelect call w T nfds s rounds =
      (pollWait selectEventCallback rounds es (fun _ _ => false) 0).map fun r =>
        if r.ret < 0 then ⟨r.ret, s⟩ else writeSets w s r.ret r.ctx := by
  unfold sysSelect selectCommon at hidle ⊢
  split at hidle
  · cases hidle
  split at hidle
  · cases hidle
  rename_i hreadable
  split at hidle
  · cases hidle
  split at hidle
  · cases hidle
  rename_i es hadd
  split at hidle
  · cases hidle
  refine ⟨es, hadd, ?_⟩
  intro rounds
  rw [if_neg hreadable]

/-- **What a call returns**: the number of descriptors that are reported in its last turn, with a
bit in each set that is written for each kind in the report. -/
theorem sysSelect_last [DecidableEq φ] {call : SelectCall} {idle : List (Round φ)} {last : Round φ}
    {r : Selected} (hidle : sysSelect call w T nfds s idle = none)
    (h : sysSelect call w T nfds s (idle ++ [last]) = some r) (hret : 0 ≤ r.ret) :
    r.ret = ((range nfds).filter (Reported w.ok T s last.poll)).card ∧
      ∀ k i, r.sets.has k i = true ↔
        (s k).isSome = true ∧ i < nfds ∧ Reported w.ok T s last.poll i ∧
          found T s last.poll i &&& k.mask ≠ 0 := by
  obtain ⟨es, hadd, hwait⟩ := sysSelect_eq_wait hidle
  have hes := addFds_eq_some hadd
  rw [← List.range_eq_range'] at hes
  rw [hwait, Option.map_eq_none_iff] at hidle
  rw [hwait, Option.map_eq_some_iff] at h
  obtain ⟨waited, hwaited, rfl⟩ := h
  have hplain : ∀ e ∈ es, ¬ e.Edge ∧ ¬ e.Oneshot := by
    intro e he
    rw [hes, List.append_nil, List.mem_reverse, List.mem_filterMap] at he
    obtain ⟨i, -, hentry⟩ := he
    exact entryOf_plain hentry
  have htakes : ∀ poll, (turn poll selectEventCallback es (fun _ _ => false) 0).res
      = (calls poll es).length := by
    intro poll
    rw [turn_res, foldl_call_snd, Nat.zero_add]
    rintro ⟨t, i⟩ ha
    rw [hes, mem_calls] at ha
    obtain ⟨-, hreported, rfl⟩ := ha
    rw [found_and_all]
    exact hreported.2.2
  by_cases hneg : waited.ret < 0
  · rw [if_pos hneg] at hret
    exact absurd hret (not_le.mpr hneg)
  rw [if_neg hneg] at hret ⊢
  rw [writeSets_of_nonneg hret]
  obtain ⟨hres, hctx⟩ := pollWait_last hplain htakes hidle hwaited (not_lt.mp hneg)
  refine ⟨?_, ?_⟩
  · rw [hres, hes, length_calls]
  intro k i
  rw [has_map, hctx, foldl_call_fst, hes]
  simp only [mem_calls, Bool.false_eq_true, false_or]
  apply and_congr_right
  intro _
  constructor
  · rintro ⟨t, ⟨hi, hreported, rfl⟩, hmask⟩
    exact ⟨hi, hreported, hmask⟩
  rintro ⟨hi, hreported, hmask⟩
  exact ⟨_, ⟨hi, hreported, rfl⟩, hmask⟩

/-- The bits of the sets `o` are right. -/
def RightBits (T : Table φ) (nfds : Nat) (s : Sets) (poll : φ → UInt32) (o : Sets) : Prop :=
  ∀ k i, o.has k i = true ↔ i < nfds ∧ s.has k i = true ∧ readiness T poll i &&& k.mask ≠ 0

/-- The bits are right when no report is lost and none goes where it was not asked for. -/
theorem bits_iff {ok : Nat → Bool} {o : Sets}
    (ho : ∀ k i, o.has k i = true ↔
      (s k).isSome = true ∧ i < nfds ∧ Reported ok T s poll i ∧ found T s poll i &&& k.mask ≠ 0) :
    RightBits T nfds s poll o ↔
      (∀ i < nfds, ok i = false → ∀ k, s.has k i = true → readiness T poll i &&& k.mask = 0) ∧
        ∀ i < nfds, ok i = true → events s i ≠ 0 → ∀ k, (s k).isSome = true →
          s.has k i = false → readiness T poll i &&& (k.mask &&& (POLL_HUP ||| POLL_ERR)) = 0 := by
  have hasked : ∀ {k i}, s.has k i = true → (s k).isSome = true ∧ events s i ≠ 0 := by
    intro k i hk
    refine ⟨?_, ?_⟩
    · unfold Sets.has at hk
      split at hk
      · cases hk
      rename_i hs
      rw [hs]
      rfl
    intro hzero
    rw [events_eq_zero.mp hzero k] at hk
    cases hk
  have hreported : ∀ {k : Kind} {i}, ok i = true → events s i ≠ 0 →
      found T s poll i &&& k.mask ≠ 0 → Reported ok T s poll i := by
    intro k i hok hevents hmask
    refine ⟨hok, hevents, ?_⟩
    intro hzero
    rw [found, hzero, UInt32.zero_and] at hmask
    exact hmask rfl
  constructor
  · intro h
    refine ⟨?_, ?_⟩
    · intro i hi hok k hk
      by_contra hready
      have hout := (ho k i).mp ((h k i).mpr ⟨hi, hk, hready⟩)
      rw [hout.2.2.1.1] at hok
      cases hok
    intro i hi hok hevents k hsome hk
    by_contra hflags
    rw [← mask_and_listened_of_not hk, ← found_and] at hflags
    have hout := (h k i).mp ((ho k i).mpr ⟨hsome, hi, hreported hok hevents hflags, hflags⟩)
    rw [hout.2.1] at hk
    cases hk
  · rintro ⟨hrefused, hunasked⟩ k i
    rw [ho]
    constructor
    · rintro ⟨hsome, hi, hrep, hmask⟩
      cases hk : s.has k i with
      | false =>
        rw [found_and, mask_and_listened_of_not hk] at hmask
        exact absurd (hunasked i hi hrep.1 hrep.2.1 k hsome hk) hmask
      | true =>
        rw [found_and, mask_and_listened hk] at hmask
        exact ⟨hi, rfl, hmask⟩
    rintro ⟨hi, hk, hready⟩
    have hok : ok i = true := by
      by_contra hno
      exact hready (hrefused i hi (Bool.eq_false_iff.mpr hno) k hk)
    obtain ⟨hsome, hevents⟩ := hasked hk
    have hmask : found T s poll i &&& k.mask ≠ 0 := by
      rwa [found_and, mask_and_listened hk]
    exact ⟨hsome, hi, hreported hok hevents hmask, hmask⟩

/-- Numbers `a i` against a count of indices: what is over 1 against what is 0. -/
theorem sum_eq_card_iff {α : Type} (I : Finset α) (a : α → Nat) (P : α → Prop) [DecidablePred P]
    (h : ∀ i ∈ I, a i ≠ 0 → P i) :
    ∑ i ∈ I, a i = (I.filter P).card ↔
      ∑ i ∈ I, (a i - 1) = (I.filter fun i => P i ∧ a i = 0).card := by
  have hsum : ∑ i ∈ I, a i + (I.filter fun i => P i ∧ a i = 0).card
      = ∑ i ∈ I, (a i - 1) + (I.filter P).card := by
    rw [card_filter, card_filter, ← sum_add_distrib, ← sum_add_distrib]
    apply sum_congr rfl
    intro i hi
    by_cases hzero : a i = 0
    · simp [hzero]
    have hP : P i := h i hi hzero
    simp only [hP, hzero, and_false, if_true, if_false]
    omega
  omega

/-- The bits of right sets, counted descriptor by descriptor. -/
theorem count_eq_sum {o : Sets} {n : Nat} (hn : nfds ≤ n) (h : RightBits T nfds s poll o) :
    o.count n = ∑ i ∈ range nfds, readyKinds T s poll i := by
  unfold Sets.count readyKinds
  have hrow : ∀ k, ((range n).filter fun i => o.has k i = true) = (range nfds).filter fun i =>
          s.has k i = true ∧ readiness T poll i &&& k.mask ≠ 0 := by
    intro k
    ext i
    rw [mem_filter, mem_filter, mem_range, mem_range, h]
    constructor
    · rintro ⟨-, hi, hbit⟩
      exact ⟨hi, hbit⟩
    rintro ⟨hi, hbit⟩
    exact ⟨by omega, hi, hbit⟩
  simp only [hrow, card_filter]
  exact sum_comm

theorem le_fdsetSize (nfds : Nat) : nfds ≤ 8 * fdsetSize nfds := by
  unfold fdsetSize
  omega

/-- **When select is right.** The call has returned a number in the turn `last`. -/
theorem select_iff [DecidableEq φ] (call : SelectCall) (w : SelectWorld) (T : Table φ)
    (nfds : Nat) (s : Sets) (idle : List (Round φ)) (last : Round φ) (r : Selected)
    (hidle : sysSelect call w T nfds s idle = none)
    (h : sysSelect call w T nfds s (idle ++ [last]) = some r) (hret : 0 ≤ r.ret) :
    Selects T nfds s last.poll r ↔ Selectable w.ok T nfds s last.poll := by
  obtain ⟨hcount, hbits⟩ := sysSelect_last hidle h hret
  have hiff := bits_iff hbits
  -- with right bits, every descriptor with a bit is reported
  have hsum : RightBits T nfds s last.poll r.sets →
      (r.ret = r.sets.count (8 * fdsetSize nfds) ↔
        ∑ i ∈ range nfds, (readyKinds T s last.poll i - 1) =
          ((range nfds).filter fun i =>
            Reported w.ok T s last.poll i ∧ readyKinds T s last.poll i = 0).card) := by
    intro hready
    rw [count_eq_sum (le_fdsetSize nfds) hready, hcount, Nat.cast_inj, eq_comm]
    apply sum_eq_card_iff
    intro i hi hsome
    obtain ⟨k, hk⟩ := card_ne_zero.mp hsome
    obtain ⟨-, hk⟩ := mem_filter.mp hk
    exact ((hbits k i).mp ((hready k i).mpr ⟨mem_range.mp hi, hk⟩)).2.2.1
  constructor
  · rintro ⟨-, hready, hnum⟩
    obtain ⟨hrefused, hunasked⟩ := hiff.mp hready
    exact ⟨hrefused, hunasked, (hsum hready).mp hnum⟩
  rintro ⟨hrefused, hunasked, hnum⟩
  have hready := hiff.mpr ⟨hrefused, hunasked⟩
  exact ⟨fun k i hbit => ((hready k i).mp hbit).2.1, hready, (hsum hready).mpr hnum⟩

/-- All sets can be read and written, and `poll_add_fd` takes everything. -/
def selectWorks : SelectWorld := ⟨fun _ => true, fun _ => true, none, none, fun _ => true⟩

/-- The sets for reading and for writing, as lists of descriptors. -/
def readWrite (read write : List Nat) : Sets
  | .read => some fun i => decide (i ∈ read)
  | .write => some fun i => decide (i ∈ write)
  | .except => none

/-- A call that waits once, on a pipe to read from and a file to write to; the pipe is ready in the
second turn. -/
theorem select_iff_pipe :
    ∃ r, sysSelect (.select none) selectWorks twoFiles 2 (readWrite [0] [1])
        ([⟨fun _ => 0, .notified [] none⟩] ++
          [⟨fun f => if f = 7 then POLL_READ else 0, .timeout⟩]) = some r ∧
      Selects twoFiles 2 (readWrite [0] [1]) (fun f => if f = 7 then POLL_READ else 0) r := by
  refine (fun h => ⟨_, h, (select_iff _ _ _ _ _ _ _ _ rfl h (by decide +kernel)).mpr
    ⟨?_, ?_, ?_⟩⟩) rfl
  · decide +kernel
  · intro i hi _ _ k _ _
    interval_cases i <;> cases k <;> decide +kernel
  · decide +kernel

/-- A pipe without a reader, asked about for writing only: it has an error, and comes back in the
set for reading as well. A socket that can be read and written, asked about for both: two bits are
set and the call returns 1. -/
theorem select_sets_unasked_and_counts_files :
    (∃ r, sysSelect (.select none) selectWorks twoFiles 2 (readWrite [] [1])
        [⟨fun f => if f = 8 then POLL_WRITE ||| POLL_ERR else 0, .timeout⟩] = some r ∧
      r.ret = 1 ∧ r.sets.has .read 1 = true ∧ (readWrite [] [1]).has .read 1 = false ∧
      ¬ Selects twoFiles 2 (readWrite [] [1])
        (fun f => if f = 8 then POLL_WRITE ||| POLL_ERR else 0) r) ∧
    ∃ r, sysSelect (.select none) selectWorks twoFiles 1 (readWrite [0] [0])
        [⟨fun _ => POLL_READ ||| POLL_WRITE, .timeout⟩] = some r ∧
      r.ret = 1 ∧ r.sets.has .read 0 = true ∧ r.sets.has .write 0 = true ∧
      ¬ Selects twoFiles 1 (readWrite [0] [0]) (fun _ => POLL_READ ||| POLL_WRITE) r := by
  refine ⟨⟨_, rfl, rfl, rfl, rfl, ?unasked⟩, ⟨_, rfl, rfl, rfl, rfl, ?count⟩⟩
  case unasked =>
    intro h
    exact absurd (h.subset .read 1) (by decide +kernel)
  case count =>
    intro h
    exact absurd h.count (by decide +kernel)

end Result

end Ish.Polling

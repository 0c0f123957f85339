import Ish.Lock.Basic

set_option autoImplicit false

/-! # Acquiring a lock

`file_lock_acquire` of `fs/lock.c`: a request that conflicts with no lock of another owner is
worked into the locks of its owner in one pass over the list. Locks of the request's type that
touch it are merged into it, and the request grows; locks of other types are cut back where the
request lies over them. What is left of the request is put behind the owner's locks.

At every lock, the grown request covers the bytes of the request it began with, and otherwise
only bytes the owner holds with the same type already; so a lock of another type, which shares no
byte with those, loses exactly the bytes of the request. `JoinsAcross` is where the wrapping of
`off_t_` comes in: a request at one end of the offsets meets a lock at the other end, and is merged
with it although there are bytes between them.
-/

namespace Ish.Lock

open List Ish.Lib Int64 FileLock Range

def EAGAIN : Int := -11

variable {ω : Type} {g l request : FileLock ω} {own before after locks : List (FileLock ω)}

/-! ## The pass over the list -/

/-- What becomes of one lock of the owner: the locks left in its place, the request afterwards,
whether `notify` was called and whether the assertions held. -/
structure Placed (ω : Type) where
  kept : List (FileLock ω)
  request : FileLock ω
  notified : Bool
  asserts : Bool

/-- The request extended until it covers the lock. -/
def FileLock.extend (request lock : FileLock ω) : FileLock ω :=
  let request :=
    if lock.start < request.start then { request with start := lock.start } else request
  if lock.end_ > request.end_ then { request with end_ := lock.end_ } else request

/-- The body of the loop of `file_lock_acquire`, for a lock of the request's owner. -/
def placeLock (request lock : FileLock ω) : Placed ω :=
  if request.type = lock.type then
    if !fileLocksOverlap lock request && !fileLocksAdjacent request lock then
      ⟨[lock], request, false, true⟩
    else ⟨[], request.extend lock, false, true⟩
  else if !fileLocksOverlap lock request then ⟨[lock], request, false, true⟩
  else if request.start > lock.start ∧ request.end_ < lock.end_ then
    let lock1 := { lock with end_ := request.start - 1 }
    let lock2 := { lock with start := request.end_ + 1 }
    ⟨[lock1, lock2], request, true, true⟩
  else if request.start ≤ lock.start ∧ request.end_ ≥ lock.end_ then ⟨[], request, true, true⟩
  else if lock.start < request.start then
    ⟨[{ lock with end_ := request.start - 1 }], request, true, decide (lock.end_ ≥ request.start)⟩
  else if lock.end_ > request.end_ then
    ⟨[{ lock with start := request.end_ + 1 }], request, true, decide (lock.start ≤ request.end_)⟩
  else ⟨[lock], request, true, true⟩

/-- The list when the loop ends, split where `lock` stands: new locks go between the two. -/
structure Walk (ω : Type) where
  before : List (FileLock ω)
  after : List (FileLock ω)
  request : FileLock ω
  notified : Bool
  asserts : Bool

/-- The loop of `file_lock_acquire`, with `found_our_locks`. -/
def acquireLoop [DecidableEq ω] : Bool → FileLock ω → List (FileLock ω) → Walk ω
  | _, request, [] => ⟨[], [], request, false, true⟩
  | found, request, lock :: rest =>
    if lock.owner ≠ request.owner then
      if found then ⟨[], lock :: rest, request, false, true⟩
      else
        let w := acquireLoop false request rest
        { w with before := lock :: w.before }
    else
      let p := placeLock request lock
      let w := acquireLoop true p.request rest
      { before := p.kept ++ w.before
        after := w.after
        request := w.request
        notified := p.notified || w.notified
        asserts := p.asserts && w.asserts }

/-- What a call returns and leaves. -/
structure Acquired (ω : Type) where
  err : Int
  locks : List (FileLock ω)
  notified : Bool
  asserts : Bool

/-- `file_lock_acquire`. -/
def fileLockAcquire [DecidableEq ω] (locks : List (FileLock ω)) (request : FileLock ω) :
    Acquired ω :=
  if request.type ≠ .unlck ∧ locks.any (fun lock => fileLocksConflict lock request) then
    ⟨EAGAIN, locks, false, true⟩
  else
    let w := acquireLoop false request locks
    let new := if request.type ≠ .unlck then [w.request] else []
    ⟨0, w.before ++ new ++ w.after, w.notified, w.asserts⟩

/-! ## One lock -/

theorem extend_range (g l : FileLock ω) : (g.extend l).range = g.range.hull l.range := by
  have hmin : (g.extend l).range.lo = min g.range.lo l.range.lo := by
    unfold FileLock.extend FileLock.range
    dsimp only
    split <;> split <;> simp_all only [lt_iff_toInt_lt, gt_iff_lt] <;> omega
  have hmax : (g.extend l).range.hi = max g.range.hi l.range.hi := by
    unfold FileLock.extend FileLock.range
    dsimp only
    split <;> split <;> simp_all only [lt_iff_toInt_lt, gt_iff_lt] <;> omega
  calc (g.extend l).range = ⟨(g.extend l).range.lo, (g.extend l).range.hi⟩ := rfl
    _ = g.range.hull l.range := by rw [hmin, hmax]; rfl

theorem extend_fields (g l : FileLock ω) :
    (g.extend l).type = g.type ∧ (g.extend l).owner = g.owner ∧ (g.extend l).pid = g.pid := by
  unfold extend
  dsimp only
  split <;> split <;> exact ⟨rfl, rfl, rfl⟩

theorem covers_extend (hg : g.start ≤ g.end_) (h : g.range.Touches l.range)
    (x : OffT) : (g.extend l).Covers x ↔ g.Covers x ∨ l.Covers x := by
  have hproper : g.range.lo ≤ g.range.hi := le_iff_toInt_le.mp hg
  rw [covers_iff, covers_iff, covers_iff, extend_range]
  exact mem_hull hproper h x.toInt

theorem covers_extend_left {x : OffT} (hx : g.Covers x) : (g.extend l).Covers x := by
  rw [covers_iff] at hx ⊢
  rw [extend_range]
  exact mem_hull_left hx

theorem covers_extend_right {x : OffT} (hx : l.Covers x) : (g.extend l).Covers x := by
  rw [covers_iff] at hx ⊢
  rw [extend_range]
  exact mem_hull_right hx

/-- A merge across the ends covers everything. -/
theorem covers_extend_across (h : AcrossEnds g l) (x : OffT) : (g.extend l).Covers x := by
  have hmin : minValue.toInt = -2 ^ 63 := by decide
  have hmax := toInt_OFF_T_MAX
  have hge := le_toInt x
  have hlt := toInt_lt x
  rw [FileLock.covers_iff, extend_range, mem_def]
  simp only [hull, FileLock.range]
  rcases h with ⟨hs, he⟩ | ⟨he, hs⟩
  · rw [hs, he]
    omega
  rw [hs, he]
  omega

theorem extend_proper (l : FileLock ω) (hg : g.start ≤ g.end_) :
    (g.extend l).start ≤ (g.extend l).end_ := by
  have hrange := extend_range g l
  rw [le_iff_toInt_le] at hg ⊢
  change (g.extend l).range.lo ≤ (g.extend l).range.hi
  rw [hrange]
  simp only [hull, FileLock.range]
  omega

/-- **A lock of the request's type**: merged if it touches the request or lies across the ends,
left alone otherwise. -/
theorem placeLock_same (ht : l.type = g.type) :
    placeLock g l
      = if g.range.Touches l.range ∨ AcrossEnds g l then ⟨[], g.extend l, false, true⟩
        else ⟨[l], g, false, true⟩ := by
  have hcond : (!fileLocksOverlap l g && !fileLocksAdjacent g l) = true ↔
      ¬ (g.range.Touches l.range ∨ AcrossEnds g l) := by
    rw [Bool.and_eq_true, Bool.not_eq_true', Bool.not_eq_true', ← Bool.not_eq_true,
      ← Bool.not_eq_true, fileLocksOverlap_iff, fileLocksAdjacent_iff, Range.Touches]
    rw [← not_or, overlaps_comm]
    simp only [or_assoc]
  unfold placeLock
  rw [if_pos ht.symm]
  by_cases h : g.range.Touches l.range ∨ AcrossEnds g l
  · rw [if_pos h, if_neg (fun hc => hcond.mp hc h)]
  · rw [if_neg h, if_pos (hcond.mpr h)]

/-- The locks of `kept` are parts of the lock `l`: what is left of it outside the request. -/
structure Cut (g l : FileLock ω) (p : Placed ω) : Prop where
  request : p.request = g
  asserts : p.asserts = true
  fields : ∀ k ∈ p.kept, k.owner = l.owner ∧ k.type = l.type ∧ k.pid = l.pid
  bytes : ∀ x, (∃ k ∈ p.kept, k.Covers x) ↔ l.Covers x ∧ ¬ g.Covers x
  proper : l.start ≤ l.end_ → ∀ k ∈ p.kept, k.start ≤ k.end_

theorem Cut.single {k : FileLock ω} {notified asserts : Bool} (hasserts : asserts = true)
    (hfields : k.owner = l.owner ∧ k.type = l.type ∧ k.pid = l.pid)
    (hbytes : ∀ x, k.Covers x ↔ l.Covers x ∧ ¬ g.Covers x)
    (hproper : l.start ≤ l.end_ → k.start ≤ k.end_) : Cut g l ⟨[k], g, notified, asserts⟩ where
  request := rfl
  asserts := hasserts
  fields := forall_mem_singleton.mpr hfields
  bytes x := by
    simp only [mem_singleton, exists_eq_left]
    exact hbytes x
  proper hl := forall_mem_singleton.mpr (hproper hl)

/-- **A lock of another type** loses the bytes of the request. -/
theorem placeLock_other (ht : l.type ≠ g.type) : Cut g l (placeLock g l) := by
  have hov := fileLocksOverlap_iff l g
  simp only [Range.Overlaps, FileLock.range] at hov
  unfold placeLock
  rw [if_neg (Ne.symm ht)]
  split_ifs with hapart hboth hall hlow hhigh
  · rw [Bool.not_eq_true', ← Bool.not_eq_true, hov] at hapart
    refine Cut.single rfl ⟨rfl, rfl, rfl⟩ (fun x => ?_) id
    simp only [FileLock.Covers, le_iff_toInt_le]
    omega
  all_goals
    rw [Bool.not_eq_true', Bool.not_eq_false, hov] at hapart
  · have hsub := toInt_sub_one_of_lt hboth.1
    have hadd := toInt_add_one_of_lt hboth.2
    simp only [gt_iff_lt, lt_iff_toInt_lt] at hboth
    refine ⟨rfl, rfl,
      forall_mem_cons.mpr ⟨⟨rfl, rfl, rfl⟩, forall_mem_singleton.mpr ⟨rfl, rfl, rfl⟩⟩,
      fun x => ?_, fun _ => forall_mem_cons.mpr ⟨?_, forall_mem_singleton.mpr ?_⟩⟩
    · simp only [mem_cons, not_mem_nil, or_false, exists_eq_or_imp, exists_eq_left,
        FileLock.Covers, le_iff_toInt_le, hsub, hadd]
      omega
    all_goals
      simp only [le_iff_toInt_le, hsub, hadd]
      omega
  · refine ⟨rfl, rfl, by simp, fun x => ?_, by simp⟩
    simp only [not_mem_nil, false_and, exists_false, FileLock.Covers, le_iff_toInt_le,
      ge_iff_le, false_iff] at hall ⊢
    omega
  · have hsub := toInt_sub_one_of_lt hlow
    have hend : l.end_ ≥ g.start := le_iff_toInt_le.mpr hapart.2
    simp only [gt_iff_lt, lt_iff_toInt_lt] at hboth hlow
    refine Cut.single (decide_eq_true hend) ⟨rfl, rfl, rfl⟩ (fun x => ?_) (fun _ => ?_)
    all_goals
      simp only [FileLock.Covers, le_iff_toInt_le, hsub]
      omega
  · have hadd := toInt_add_one_of_lt hhigh
    have hstart : l.start ≤ g.end_ := le_iff_toInt_le.mpr hapart.1
    simp only [gt_iff_lt, lt_iff_toInt_lt] at hlow hhigh
    refine Cut.single (decide_eq_true hstart) ⟨rfl, rfl, rfl⟩ (fun x => ?_) (fun _ => ?_)
    all_goals
      simp only [FileLock.Covers, le_iff_toInt_le, hadd]
      omega
  · -- then the request covers the whole lock
    simp only [gt_iff_lt, ge_iff_le, le_iff_toInt_le, lt_iff_toInt_lt] at hall hlow hhigh
    omega

/-! ## The locks of the owner -/

/-- The pass over the owner's locks alone. -/
def placeOwn : FileLock ω → List (FileLock ω) → Placed ω
  | g, [] => ⟨[], g, false, true⟩
  | g, l :: rest =>
    let p := placeLock g l
    let q := placeOwn p.request rest
    ⟨p.kept ++ q.kept, q.request, p.notified || q.notified, p.asserts && q.asserts⟩

/-- Growing over the locks of its type that touch it, in the order of the list, the request meets
a lock at the other end of the offsets that does not touch it. -/
def JoinsAcross : FileLock ω → List (FileLock ω) → Prop
  | _, [] => False
  | g, l :: rest =>
    if l.type = g.type then
      if g.range.Touches l.range then JoinsAcross (g.extend l) rest
      else AcrossEnds g l ∨ JoinsAcross g rest
    else JoinsAcross g rest

theorem placeLock_request_cases (g l : FileLock ω) :
    (placeLock g l).request = g ∨ (placeLock g l).request = g.extend l := by
  by_cases ht : l.type = g.type
  · rw [placeLock_same ht]
    split
    · exact .inr rfl
    · exact .inl rfl
  · exact .inl (placeLock_other ht).request

/-- The request only ever grows. -/
theorem placeLock_request (g l : FileLock ω) :
    ((placeLock g l).request.owner = g.owner ∧ (placeLock g l).request.type = g.type ∧
      (placeLock g l).request.pid = g.pid) ∧
    ∀ x, g.Covers x → (placeLock g l).request.Covers x := by
  rcases placeLock_request_cases g l with h | h
  · rw [h]
    exact ⟨⟨rfl, rfl, rfl⟩, fun x hx => hx⟩
  rw [h]
  obtain ⟨htype, howner, hpid⟩ := extend_fields g l
  exact ⟨⟨howner, htype, hpid⟩, fun x hx => covers_extend_left hx⟩

theorem placeOwn_request (g : FileLock ω) (own : List (FileLock ω)) :
    ((placeOwn g own).request.owner = g.owner ∧ (placeOwn g own).request.type = g.type ∧
      (placeOwn g own).request.pid = g.pid) ∧
    ∀ x, g.Covers x → (placeOwn g own).request.Covers x := by
  induction own generalizing g with
  | nil => exact ⟨⟨rfl, rfl, rfl⟩, fun x hx => hx⟩
  | cons l rest ih =>
    obtain ⟨⟨ho, ht, hp⟩, hgrow⟩ := placeLock_request g l
    obtain ⟨⟨ho', ht', hp'⟩, hgrow'⟩ := ih (placeLock g l).request
    exact ⟨⟨ho'.trans ho, ht'.trans ht, hp'.trans hp⟩, fun x hx => hgrow' x (hgrow x hx)⟩

/-- The first lock is passed, or is the one at the other end. -/
theorem joinsAcross_cons {rest : List (FileLock ω)} :
    JoinsAcross g (l :: rest) ↔ JoinsAcross (placeLock g l).request rest ∨
      l.type = g.type ∧ ¬ g.range.Touches l.range ∧ AcrossEnds g l := by
  rw [JoinsAcross]
  by_cases ht : l.type = g.type
  · rw [if_pos ht, placeLock_same ht]
    by_cases htouch : g.range.Touches l.range
    · simp [htouch]
    · by_cases hacross : AcrossEnds g l <;> simp [ht, htouch, hacross]
  · rw [if_neg ht, (placeLock_other ht).request]
    simp [ht]

/-- **A request that joins across the ends ends up covering everything.** -/
theorem placeOwn_of_joinsAcross
    (h : JoinsAcross g own) (x : OffT) : (placeOwn g own).request.Covers x := by
  induction own generalizing g with
  | nil => exact h.elim
  | cons l rest ih =>
    show (placeOwn (placeLock g l).request rest).request.Covers x
    rcases joinsAcross_cons.mp h with h | ⟨ht, -, hacross⟩
    · exact ih h
    rw [placeLock_same ht, if_pos (.inr hacross)]
    exact (placeOwn_request _ rest).2 x (covers_extend_across hacross x)

/-- What the pass over the owner's locks `own` comes to, for a request that began as the bytes
`R` with the owner holding the bytes `H` with its type. -/
structure PassSpec (R H : OffT → Prop) (g : FileLock ω) (own : List (FileLock ω))
    (p : Placed ω) : Prop where
  owners : ∀ k ∈ p.kept, k.owner = g.owner
  covered : ∀ x, g.Covers x ∨ Holds own g.owner g.type x →
    p.request.Covers x ∨ Holds p.kept g.owner g.type x
  onlyHeld : ∀ x, p.request.Covers x → R x ∨ H x
  keptHeld : ∀ x, Holds p.kept g.owner g.type x → Holds own g.owner g.type x
  others : ∀ t x, t ≠ g.type → (Holds p.kept g.owner t x ↔ Holds own g.owner t x ∧ ¬ R x)

section Pass

variable {R H : OffT → Prop} {g l : FileLock ω} {rest : List (FileLock ω)} {q : Placed ω}

/-- One lock and then the others. -/
theorem PassSpec.cons {p : Placed ω} (h : PassSpec R H g [l] p) (howner : p.request.owner = g.owner)
    (htype : p.request.type = g.type) (h' : PassSpec R H p.request rest q)
    (notified asserts : Bool) :
    PassSpec R H g (l :: rest) ⟨p.kept ++ q.kept, q.request, notified, asserts⟩ := by
  have hsplit : ∀ t x, Holds (l :: rest) g.owner t x ↔
      Holds [l] g.owner t x ∨ Holds rest g.owner t x := fun t x => holds_append [l] rest _ t x
  obtain ⟨hown, hcov, honly, hkept, hoth⟩ := h'
  rw [howner] at hown hcov hkept hoth
  rw [htype] at hcov hkept hoth
  refine ⟨forall_mem_append.mpr ⟨h.owners, hown⟩, ?_, honly, ?_, ?_⟩
  · intro x hx
    rw [hsplit, ← or_assoc] at hx
    rw [holds_append]
    rcases hx with hx | hx
    · rcases h.covered x hx with hx | hx
      · exact (hcov x (.inl hx)).imp id .inr
      · exact .inr (.inl hx)
    · exact (hcov x (.inr hx)).imp id .inr
  · intro x hx
    rw [holds_append] at hx
    rw [hsplit]
    exact hx.imp (h.keptHeld x) (hkept x)
  · intro t x hne
    rw [holds_append, h.others t x hne, hoth t x hne, hsplit, or_and_right]

/-- **One lock.** A merge across the ends keeps the request to the bytes of `R` and `H` only if
there are no others. -/
theorem placeLock_spec (hg : g.start ≤ g.end_) (hRg : ∀ x, R x → g.Covers x)
    (hgR : ∀ x, g.Covers x → R x ∨ H x) (ho : l.owner = g.owner)
    (hsame : l.type = g.type → ∀ x, l.Covers x → H x)
    (hother : l.type ≠ g.type → ∀ x, l.Covers x → ¬ H x)
    (hjoin : l.type = g.type ∧ ¬ g.range.Touches l.range ∧ AcrossEnds g l → ∀ x, R x ∨ H x) :
    PassSpec R H g [l] (placeLock g l) := by
  by_cases ht : l.type = g.type
  · have hnone : ∀ t x, t ≠ g.type → ¬ Holds [l] g.owner t x := by
      intro t x hne hx
      rw [holds_singleton] at hx
      exact hne (hx.2.1.symm.trans ht)
    rw [placeLock_same ht]
    by_cases hm : g.range.Touches l.range ∨ AcrossEnds g l
    · rw [if_pos hm]
      refine ⟨by simp, ?_, ?_, by simp [Holds], fun t x hne => ?_⟩
      · rintro x (hx | hx)
        · exact .inl (covers_extend_left hx)
        · exact .inl (covers_extend_right ((holds_singleton l _ _ x).mp hx).2.2)
      · intro x hx
        by_cases htouch : g.range.Touches l.range
        · exact ((covers_extend hg htouch x).mp hx).elim (hgR x) fun hx => .inr (hsame ht x hx)
        · exact hjoin ⟨ht, htouch, hm.resolve_left htouch⟩ x
      · exact iff_of_false (by simp [Holds]) fun hx => hnone t x hne hx.1
    rw [if_neg hm]
    refine ⟨forall_mem_singleton.mpr ho, fun x => id, hgR, fun x => id, fun t x hne => ?_⟩
    exact iff_of_false (hnone t x hne) fun hx => hnone t x hne hx.1
  · have hcut := placeLock_other ht
    have hkept : ∀ t x, Holds (placeLock g l).kept g.owner t x ↔
        Holds [l] g.owner t x ∧ ¬ g.Covers x := by
      intro t x
      rw [holds_singleton]
      constructor
      · rintro ⟨k, hk, hok, htk, hx⟩
        obtain ⟨hlx, hgx⟩ := (hcut.bytes x).mp ⟨k, hk, hx⟩
        exact ⟨⟨ho, (hcut.fields k hk).2.1.symm.trans htk, hlx⟩, hgx⟩
      rintro ⟨⟨-, rfl, hlx⟩, hgx⟩
      obtain ⟨k, hk, hx⟩ := (hcut.bytes x).mpr ⟨hlx, hgx⟩
      obtain ⟨hok, htk, -⟩ := hcut.fields k hk
      exact ⟨k, hk, hok.trans ho, htk, hx⟩
    refine ⟨fun k hk => (hcut.fields k hk).1.trans ho, fun x hx => ?_, ?_,
      fun x hx => ((hkept _ x).mp hx).1, fun t x hne => ?_⟩
    · rw [hcut.request]
      exact hx.imp id fun hx => absurd ((holds_singleton l _ _ x).mp hx).2.1 ht
    · rwa [hcut.request]
    -- on the bytes of the lock the request is what it began with
    rw [hkept]
    refine and_congr_right fun hx => not_congr ?_
    have hH := hother ht x ((holds_singleton l _ _ x).mp hx).2.2
    exact ⟨fun hgx => (hgR x hgx).resolve_right hH, hRg x⟩

/-- **The pass.** The invariant is that the request covers `R` and otherwise only bytes of `H`. -/
theorem placeOwn_spec (hg : g.start ≤ g.end_)
    (hRg : ∀ x, R x → g.Covers x) (hgR : ∀ x, g.Covers x → R x ∨ H x)
    (howner : ∀ l ∈ own, l.owner = g.owner)
    (hsame : ∀ l ∈ own, l.type = g.type → ∀ x, l.Covers x → H x)
    (hother : ∀ l ∈ own, l.type ≠ g.type → ∀ x, l.Covers x → ¬ H x)
    (hjoin : JoinsAcross g own → ∀ x, R x ∨ H x) : PassSpec R H g own (placeOwn g own) := by
  induction own generalizing g with
  | nil =>
    refine ⟨nofun, fun x hx => hx, hgR, fun x hx => hx, fun t x _ => ?_⟩
    simp [Holds, placeOwn]
  | cons l rest ih =>
    obtain ⟨ho, howner'⟩ := forall_mem_cons.mp howner
    obtain ⟨hsame, hsame'⟩ := forall_mem_cons.mp hsame
    obtain ⟨hother, hother'⟩ := forall_mem_cons.mp hother
    obtain ⟨⟨hown, htype, -⟩, hgrow⟩ := placeLock_request g l
    have hone : PassSpec R H g [l] (placeLock g l) :=
      placeLock_spec hg hRg hgR ho hsame hother fun h => hjoin (joinsAcross_cons.mpr (.inr h))
    have hproper : (placeLock g l).request.start ≤ (placeLock g l).request.end_ := by
      rcases placeLock_request_cases g l with h | h
      · rwa [h]
      rw [h]
      exact extend_proper l hg
    refine hone.cons hown htype ?_ _ _
    rw [← hown] at howner'
    rw [← htype] at hsame' hother'
    exact ih hproper (fun x hx => hgrow x (hRg x hx)) hone.onlyHeld howner' hsame'
      hother' fun h => hjoin (joinsAcross_cons.mpr (.inl h))

end Pass

theorem exists_type_of_joinsAcross (h : JoinsAcross g own) : ∃ l ∈ own, l.type = g.type := by
  induction own generalizing g with
  | nil => exact h.elim
  | cons l rest ih =>
    rcases joinsAcross_cons.mp h with h | ⟨ht, -⟩
    · obtain ⟨k, hk, hkt⟩ := ih h
      exact ⟨k, mem_cons_of_mem l hk, hkt.trans (placeLock_request g l).1.2.1⟩
    · exact ⟨l, mem_cons_self, ht⟩

/-! ## Locks inside the file -/

/-- `0 <= start <= end`. -/
def InFile (l : FileLock ω) : Prop := 0 ≤ l.start ∧ l.start ≤ l.end_

theorem InFile.extend (hg : InFile g) (hl : InFile l) : InFile (g.extend l) := by
  refine ⟨?_, extend_proper l hg.2⟩
  have hlo : (g.extend l).start.toInt = min g.start.toInt l.start.toInt :=
    congrArg lo (extend_range g l)
  have hg' := le_iff_toInt_le.mp hg.1
  have hl' := le_iff_toInt_le.mp hl.1
  rw [le_iff_toInt_le, hlo]
  omega

theorem not_acrossEnds (hg : InFile g) (hl : InFile l) : ¬ AcrossEnds g l := by
  rintro (⟨h, -⟩ | ⟨-, h⟩)
  · exact absurd (h ▸ hg.1) (by decide)
  · exact absurd (h ▸ hl.1) (by decide)

theorem placeLock_inFile (hg : InFile g) (hl : InFile l) :
    InFile (placeLock g l).request ∧ ∀ k ∈ (placeLock g l).kept, InFile k := by
  by_cases ht : l.type = g.type
  · rw [placeLock_same ht]
    split
    · exact ⟨hg.extend hl, nofun⟩
    · exact ⟨hg, forall_mem_singleton.mpr hl⟩
  have hcut := placeLock_other ht
  rw [hcut.request]
  refine ⟨hg, ?_⟩
  intro k hk
  have hproper := hcut.proper hl.2 k hk
  -- the first byte of the part is a byte of the lock
  have hfirst : l.Covers k.start := ((hcut.bytes k.start).mp ⟨k, hk, Int64.le_refl _, hproper⟩).1
  exact ⟨Int64.le_trans hl.1 hfirst.1, hproper⟩

theorem not_joinsAcross (hg : InFile g) (hown : ∀ l ∈ own, InFile l) : ¬ JoinsAcross g own := by
  induction own generalizing g with
  | nil => exact not_false
  | cons l rest ih =>
    obtain ⟨hl, hrest⟩ := forall_mem_cons.mp hown
    rw [joinsAcross_cons]
    rintro (h | ⟨-, -, h⟩)
    · exact ih (placeLock_inFile hg hl).1 hrest h
    · exact not_acrossEnds hg hl h

/-! ## The whole list -/

variable [DecidableEq ω]

/-- From the first lock of the owner on, the loop goes over the owner's locks and stops. -/
theorem acquireLoop_own (found : Bool) (hstart : found = true ∨ own ≠ [])
    (hown : ∀ l ∈ own, l.owner = g.owner) (hafter : ∀ l ∈ after, l.owner ≠ g.owner) :
    acquireLoop found g (own ++ after)
      = ⟨(placeOwn g own).kept, after, (placeOwn g own).request, (placeOwn g own).notified,
          (placeOwn g own).asserts⟩ := by
  induction own generalizing g found with
  | nil =>
    obtain rfl : found = true := hstart.resolve_right (not_not_intro rfl)
    cases after with
    | nil => rfl
    | cons l rest =>
      have hl := hafter l mem_cons_self
      rw [nil_append, acquireLoop, if_pos hl, if_pos rfl]
      rfl
  | cons l rest ih =>
    obtain ⟨⟨ho, -, -⟩, -⟩ := placeLock_request g l
    have hl : l.owner = g.owner := hown l mem_cons_self
    have hrest := ih true (.inl rfl)
      (fun k hk => (hown k (mem_cons_of_mem l hk)).trans ho.symm)
      (fun k hk heq => hafter k hk (heq.trans ho))
    rw [cons_append, acquireLoop, if_neg (not_not.mpr hl)]
    dsimp only
    rw [hrest]
    rfl

theorem acquireLoop_before
    (hbefore : ∀ l ∈ before, l.owner ≠ g.owner) (rest : List (FileLock ω)) :
    acquireLoop false g (before ++ rest)
      = { acquireLoop false g rest with
          before := before ++ (acquireLoop false g rest).before } := by
  induction before with
  | nil => rfl
  | cons l before ih =>
    have hl := hbefore l mem_cons_self
    have hrest := ih (fun k hk => hbefore k (mem_cons_of_mem l hk))
    rw [cons_append, acquireLoop, if_pos hl, if_neg (by decide), hrest]
    rfl

/-- **The loop** replaces the owner's locks by what the pass leaves of them. -/
theorem acquireLoop_grouped
    (hown : ∀ l ∈ own, l.owner = g.owner) (hbefore : ∀ l ∈ before, l.owner ≠ g.owner)
    (hafter : ∀ l ∈ after, l.owner ≠ g.owner) :
    let w := acquireLoop false g (before ++ own ++ after)
    w.before ++ w.after = before ++ (placeOwn g own).kept ++ after ∧
      w.request = (placeOwn g own).request := by
  intro w
  have hw : w = { acquireLoop false g (own ++ after) with
      before := before ++ (acquireLoop false g (own ++ after)).before } := by
    rw [← acquireLoop_before hbefore, ← append_assoc]
  cases own with
  | nil =>
    -- without a lock of the owner the loop runs to the end of the list
    have hend : acquireLoop false g after = ⟨after, [], g, false, true⟩ := by
      have h := acquireLoop_before hafter []
      rw [append_nil] at h
      rw [h, acquireLoop, append_nil]
    rw [nil_append, hend] at hw
    rw [hw]
    refine ⟨?_, rfl⟩
    rw [placeOwn, append_nil, append_nil]
  | cons l rest =>
    rw [acquireLoop_own false (.inr (cons_ne_nil l rest)) hown hafter] at hw
    rw [hw]
    exact ⟨rfl, rfl⟩

/-! ## What a call does -/

/-- A lock of another owner overlaps the request, and one of the two is for writing. -/
def Refused (locks : List (FileLock ω)) (request : FileLock ω) : Prop :=
  request.type ≠ .unlck ∧ ∃ l ∈ locks, l.owner ≠ request.owner ∧
    l.range.Overlaps request.range ∧ (l.type = .wrlck ∨ request.type = .wrlck)

/-- **What `file_lock_acquire` is for.** It refuses what conflicts and changes nothing then;
otherwise the owner holds the request's type on the bytes of the request and what it held
before on all others, and nobody else is affected. -/
structure AcquireSpec (locks : List (FileLock ω)) (request : FileLock ω) (r : Acquired ω) :
    Prop where
  refused : r.err = EAGAIN ↔ Refused locks request
  unchanged : r.err = EAGAIN → r.locks = locks
  granted : ¬ Refused locks request → r.err = 0 ∧ ∀ o t x,
    Holds r.locks o t x ↔
      if o = request.owner ∧ request.Covers x then t = request.type ∧ t ≠ .unlck
      else Holds locks o t x

theorem any_conflict_iff (locks : List (FileLock ω)) (request : FileLock ω) :
    (request.type ≠ .unlck ∧ locks.any (fun lock => fileLocksConflict lock request) = true)
      ↔ Refused locks request := by
  simp only [Refused, any_eq_true, fileLocksConflict_iff]

theorem fileLockAcquire_refused
    (h : Refused locks request) : fileLockAcquire locks request = ⟨EAGAIN, locks, false, true⟩ := by
  rw [fileLockAcquire, if_pos ((any_conflict_iff locks request).mpr h)]

theorem fileLockAcquire_granted
    (h : ¬ Refused locks request) :
    fileLockAcquire locks request
      = let w := acquireLoop false request locks
        ⟨0, w.before ++ (if request.type ≠ .unlck then [w.request] else []) ++ w.after,
          w.notified, w.asserts⟩ := by
  rw [fileLockAcquire, if_neg (fun hc => h ((any_conflict_iff locks request).mp hc))]

/-- The locks of one owner, in the order of the list. -/
def ownLocks (locks : List (FileLock ω)) (o : ω) : List (FileLock ω) :=
  locks.filter (fun l => l.owner = o)

theorem holds_ownLocks (locks : List (FileLock ω)) (o : ω) (t : LockType) (x : OffT) :
    Holds (ownLocks locks o) o t x ↔ Holds locks o t x := by
  constructor
  · rintro ⟨l, hl, h⟩
    exact ⟨l, (mem_filter.mp hl).1, h⟩
  rintro ⟨l, hl, h⟩
  exact ⟨l, mem_filter.mpr ⟨hl, decide_eq_true h.1⟩, h⟩

theorem ownLocks_grouped {o : ω}
    (hown : ∀ l ∈ own, l.owner = o) (hbefore : ∀ l ∈ before, l.owner ≠ o)
    (hafter : ∀ l ∈ after, l.owner ≠ o) : ownLocks (before ++ own ++ after) o = own := by
  have hb : before.filter (fun l => l.owner = o) = [] :=
    filter_eq_nil_iff.mpr (fun l hl h => hbefore l hl (of_decide_eq_true h))
  have ha : after.filter (fun l => l.owner = o) = [] :=
    filter_eq_nil_iff.mpr (fun l hl h => hafter l hl (of_decide_eq_true h))
  have ho : own.filter (fun l => l.owner = o) = own :=
    filter_eq_self.mpr (fun l hl => decide_eq_true (hown l hl))
  rw [ownLocks, filter_append, filter_append, hb, ho, ha, nil_append, append_nil]

/-- What an owner holds after a granted request, in terms of the pass over the requester's
locks. -/
theorem holds_granted
    (hgroup : Grouped locks) (h : ¬ Refused locks request) {p : Placed ω}
    (hp : p = placeOwn request (ownLocks locks request.owner)) (o : ω) (t : LockType) (x : OffT) :
    Holds (fileLockAcquire locks request).locks o t x ↔
      (Holds p.kept o t x ∨ (o ≠ request.owner ∧ Holds locks o t x)) ∨
        (o = request.owner ∧ t = request.type ∧ t ≠ .unlck ∧ p.request.Covers x) := by
  obtain ⟨before, own, after, rfl, hown, hbefore, hafter⟩ := hgroup request.owner
  rw [ownLocks_grouped hown hbefore hafter] at hp
  obtain ⟨hlocks, hreq⟩ := acquireLoop_grouped hown hbefore hafter
  set w := acquireLoop false request (before ++ own ++ after) with hw
  obtain ⟨⟨hro, hrt, -⟩, -⟩ := placeOwn_request request own
  have hnew : Holds (if request.type ≠ .unlck then [w.request] else []) o t x ↔
      o = request.owner ∧ t = request.type ∧ t ≠ .unlck ∧ (placeOwn request own).request.Covers x
      := by
    split
    · rename_i hne
      rw [holds_singleton, hreq, hro, hrt]
      constructor
      · rintro ⟨rfl, rfl, hx⟩
        exact ⟨rfl, rfl, hne, hx⟩
      rintro ⟨rfl, rfl, -, hx⟩
      exact ⟨rfl, rfl, hx⟩
    rename_i hun
    constructor
    · rintro ⟨l, hl, -⟩
      exact absurd hl not_mem_nil
    rintro ⟨-, rfl, hne, -⟩
    exact absurd hne hun
  have hrest : Holds (w.before ++ w.after) o t x ↔ Holds (placeOwn request own).kept o t x ∨
      (o ≠ request.owner ∧ Holds (before ++ own ++ after) o t x) := by
    rw [hlocks]
    simp only [holds_append]
    by_cases ho : o = request.owner
    · subst ho
      have hb := not_holds_of_owner_ne hbefore t x
      have ha := not_holds_of_owner_ne hafter t x
      simp [hb, ha]
    have hk : ¬ Holds own o t x :=
      not_holds_of_owner_ne (fun l hl heq => ho (heq.symm.trans (hown l hl))) t x
    simp only [hk, ho, or_false, ne_eq, not_false_eq_true, true_and]
    rw [or_comm (a := Holds before o t x), or_assoc]
  rw [fileLockAcquire_granted h, hp, ← hnew, ← hrest]
  simp only [holds_append, ← hw]
  exact or_right_comm

/-- The pass over the requester's locks in an ordered list. -/
theorem LocksOk.pass (hok : LocksOk locks)
    (hreq : request.start ≤ request.end_)
    (hjoin : JoinsAcross request (ownLocks locks request.owner) →
      ∀ x, request.Covers x ∨ Holds locks request.owner request.type x) :
    PassSpec request.Covers (Holds locks request.owner request.type) request
      (ownLocks locks request.owner) (placeOwn request (ownLocks locks request.owner)) := by
  have hmem : ∀ l ∈ ownLocks locks request.owner, l ∈ locks ∧ l.owner = request.owner := by
    intro l hl
    obtain ⟨hl, ho⟩ := mem_filter.mp hl
    exact ⟨hl, of_decide_eq_true ho⟩
  apply placeOwn_spec hreq
  · intro x hx
    exact hx
  · intro x hx
    exact .inl hx
  · intro l hl
    exact (hmem l hl).2
  · intro l hl ht x hx
    exact ⟨l, (hmem l hl).1, (hmem l hl).2, ht, hx⟩
  · rintro l hl ht x hx ⟨k, hk, hko, hkt, hkx⟩
    have hne : l.type ≠ k.type := fun h => ht (h.trans hkt)
    exact hok.apart_of_type_ne (hmem l hl).1 hk ((hmem l hl).2.trans hko.symm) hne x ⟨hx, hkx⟩
  · exact hjoin

/-- What the pass leaves, read byte by byte. -/
theorem PassSpec.holds_iff {p : Placed ω}
    (hok : LocksOk locks)
    (h : PassSpec request.Covers (Holds locks request.owner request.type) request
      (ownLocks locks request.owner) p) (o : ω) (t : LockType) (x : OffT) :
    (Holds p.kept o t x ∨ (o ≠ request.owner ∧ Holds locks o t x)) ∨
        (o = request.owner ∧ t = request.type ∧ t ≠ .unlck ∧ p.request.Covers x)
      ↔ if o = request.owner ∧ request.Covers x then t = request.type ∧ t ≠ .unlck
        else Holds locks o t x := by
  have hheld : ∀ o t x, Holds locks o t x → t ≠ .unlck := by
    rintro o t x ⟨l, hl, -, rfl, -⟩
    exact hok.types l hl
  by_cases ho : o = request.owner
  · subst ho
    simp only [ne_eq, not_true_eq_false, false_and, or_false, true_and]
    by_cases ht : t = request.type
    · subst ht
      have hkept := h.keptHeld x
      have hcov := h.covered x
      rw [holds_ownLocks] at hkept hcov
      split
      · rename_i hx
        constructor
        · rintro (hk | hk)
          · exact ⟨rfl, hheld _ _ x (hkept hk)⟩
          · exact ⟨rfl, hk.2.1⟩
        rintro ⟨-, hun⟩
        rcases hcov (.inl hx) with hc | hk
        · exact .inr ⟨rfl, hun, hc⟩
        · exact .inl hk
      rename_i hx
      constructor
      · rintro (hk | hk)
        · exact hkept hk
        · exact (h.onlyHeld x hk.2.2).resolve_left hx
      intro hH
      rcases hcov (.inr hH) with hc | hk
      · exact .inr ⟨rfl, hheld _ _ x hH, hc⟩
      · exact .inl hk
    · rw [h.others t x ht, holds_ownLocks]
      simp only [ht, false_and, or_false]
      split
      · rename_i hx
        constructor
        · rintro ⟨-, hnot⟩
          exact absurd hx hnot
        · exact False.elim
      · next hx => exact ⟨fun hk => hk.1, fun hk => ⟨hk, hx⟩⟩
  · have hkept : ¬ Holds p.kept o t x :=
      not_holds_of_owner_ne (fun k hk heq => ho (heq.symm.trans (h.owners k hk))) t x
    simp [ho, hkept]

theorem acquireSpec_refused (h : Refused locks request) :
    AcquireSpec locks request (fileLockAcquire locks request) := by
  rw [fileLockAcquire_refused h]
  exact ⟨⟨fun _ => h, fun _ => rfl⟩, fun _ => rfl, fun h' => absurd h h'⟩

/-- The request is worked in as it should be when it does not join across the ends, or when no
byte is lost that way. -/
theorem LocksOk.acquireSpec
    (hok : LocksOk locks) (hreq : request.start ≤ request.end_)
    (hjoin : JoinsAcross request (ownLocks locks request.owner) →
      ∀ x, request.Covers x ∨ Holds locks request.owner request.type x) :
    AcquireSpec locks request (fileLockAcquire locks request) := by
  by_cases href : Refused locks request
  · exact acquireSpec_refused href
  have herr : (fileLockAcquire locks request).err = 0 := by rw [fileLockAcquire_granted href]
  have hneq : (fileLockAcquire locks request).err ≠ EAGAIN := by
    rw [herr]
    decide
  refine ⟨⟨fun h => absurd h hneq, fun h => absurd h href⟩, fun h => absurd h hneq,
    fun _ => ⟨herr, ?_⟩⟩
  intro o t x
  rw [holds_granted hok.grouped href rfl]
  exact (hok.pass hreq hjoin).holds_iff hok o t x

/-- **`file_lock_acquire` does what it is for** exactly when the request is refused, or does not
join across the ends of the offsets, or there is no byte to be lost that way. -/
theorem fileLockAcquire_correct_iff
    (hok : LocksOk locks) (hreq : request.start ≤ request.end_) :
    AcquireSpec locks request (fileLockAcquire locks request) ↔
      Refused locks request ∨
        (JoinsAcross request (ownLocks locks request.owner) →
          ∀ x, request.Covers x ∨ Holds locks request.owner request.type x) := by
  constructor
  · intro hspec
    by_cases href : Refused locks request
    · exact .inl href
    right
    intro hjoin x
    by_cases hx : request.Covers x
    · exact .inl hx
    right
    -- the grown request covers the byte, so the owner holds it afterwards
    have hcov := placeOwn_of_joinsAcross hjoin x
    have hun : request.type ≠ .unlck := by
      obtain ⟨l, hl, ht⟩ := exists_type_of_joinsAcross hjoin
      rw [← ht]
      exact hok.types l (mem_filter.mp hl).1
    have hheld := (holds_granted hok.grouped href rfl request.owner request.type x).mpr
      (.inr ⟨rfl, rfl, hun, hcov⟩)
    rw [(hspec.granted href).2, if_neg (fun h => hx h.2)] at hheld
    exact hheld
  · rintro (href | hjoin)
    · exact acquireSpec_refused href
    · exact hok.acquireSpec hreq hjoin

theorem acquireLoop_inFile (found : Bool)
    (hg : InFile g) (hlocks : ∀ l ∈ locks, InFile l) :
    let w := acquireLoop found g locks
    InFile w.request ∧ ∀ l ∈ w.before ++ w.after, InFile l := by
  induction locks generalizing found g with
  | nil =>
    rw [acquireLoop]
    exact ⟨hg, nofun⟩
  | cons l rest ih =>
    obtain ⟨hl, hrest⟩ := forall_mem_cons.mp hlocks
    rw [acquireLoop]
    split
    · split
      · exact ⟨hg, hlocks⟩
      obtain ⟨hreq, hall⟩ := ih false hg hrest
      exact ⟨hreq, forall_mem_cons.mpr ⟨hl, hall⟩⟩
    obtain ⟨hreq, hkept⟩ := placeLock_inFile hg hl
    obtain ⟨hreq', hall⟩ := ih true hreq hrest
    refine ⟨hreq', ?_⟩
    rw [append_assoc]
    exact forall_mem_append.mpr ⟨hkept, hall⟩

/-- A request inside the file leaves all locks inside the file. -/
theorem fileLockAcquire_inFile
    (hreq : InFile request) (hlocks : ∀ l ∈ locks, InFile l) :
    ∀ l ∈ (fileLockAcquire locks request).locks, InFile l := by
  unfold fileLockAcquire
  split
  · exact hlocks
  obtain ⟨hreq', hall⟩ := acquireLoop_inFile false hreq hlocks
  obtain ⟨hbefore, hafter⟩ := forall_mem_append.mp hall
  refine forall_mem_append.mpr ⟨forall_mem_append.mpr ⟨hbefore, ?_⟩, hafter⟩
  split
  · exact forall_mem_singleton.mpr hreq'
  · exact nofun

/-- Inside the file nothing joins across the ends, and every request is worked in as it
should. -/
theorem LocksOk.acquireSpec_inFile
    (hok : LocksOk locks) (hlocks : ∀ l ∈ locks, InFile l) (hreq : InFile request) :
    AcquireSpec locks request (fileLockAcquire locks request) := by
  apply hok.acquireSpec hreq.2
  intro hjoin
  exact absurd hjoin (not_joinsAcross hreq (fun l hl => hlocks l (mem_filter.mp hl).1))

/-- A list of one lock. -/
theorem locksOk_singleton (ht : l.type ≠ .unlck) : LocksOk [l] := by
  refine ⟨forall_mem_singleton.mpr ht, fun o => ?_, pairwise_singleton _ _, pairwise_singleton _ _⟩
  by_cases ho : l.owner = o
  · exact ⟨[], [l], [], rfl, forall_mem_singleton.mpr ho, nofun, nofun⟩
  · exact ⟨[l], [], [], rfl, nofun, forall_mem_singleton.mpr ho, nofun⟩

section Ends

/-- A read lock from byte 5 to the largest offset. -/
def upperLock : FileLock Unit := ⟨5, OFF_T_MAX, .rdlck, 1, ()⟩

/-- A request of the same owner for the byte at the smallest offset. -/
def lowestByte : FileLock Unit := ⟨minValue, minValue, .rdlck, 1, ()⟩

/-- The two are merged, and the owner then holds byte 0, which it never asked for. -/
theorem acquire_lowest_byte_locks_everything :
    LocksOk [upperLock] ∧ lowestByte.start ≤ lowestByte.end_ ∧
      ¬ AcquireSpec [upperLock] lowestByte (fileLockAcquire [upperLock] lowestByte) := by
  refine ⟨locksOk_singleton (by decide), by decide, ?_⟩
  intro hspec
  have hlocks : (fileLockAcquire [upperLock] lowestByte).locks
      = [⟨minValue, OFF_T_MAX, .rdlck, 1, ()⟩] := by decide
  have hgranted : ¬ Refused [upperLock] lowestByte := by
    rintro ⟨-, l, hl, ho, -⟩
    rw [mem_singleton.mp hl] at ho
    exact ho rfl
  have hzero := (hspec.granted hgranted).2 () .rdlck 0
  rw [hlocks, holds_singleton, if_neg (by decide), holds_singleton] at hzero
  have hnow : upperLock.Covers 0 := (hzero.mp ⟨rfl, rfl, by decide, by decide⟩).2.2
  exact absurd hnow (by decide)

/-- A write lock asked for in the middle of a read lock. -/
theorem fileLockAcquire_correct_middle :
    AcquireSpec [upperLock] ⟨10, 20, .wrlck, 1, ()⟩
      (fileLockAcquire [upperLock] ⟨10, 20, .wrlck, 1, ()⟩) := by
  refine (fileLockAcquire_correct_iff (locksOk_singleton (by decide)) (by decide)).mpr ?_
  right
  intro hjoin
  exact absurd hjoin id

end Ends

end Ish.Lock

import Ish.Fs.Normalize

set_option autoImplicit false

/-! # The buffers of path normalization

The loop of `__path_normalize` keeps in `n` the bytes left in `out`, less the one of the NUL, and
stops with `_ENAMETOOLONG` when it finds zero there. The counter is decremented for the slash and
again before each byte, so with one byte left it goes from one to minus one and the test is
passed. The two places where a link is expanded test nothing: the NUL behind a target that
fills the buffer is written one byte behind it, and the target and the rest of the path are
joined whatever their lengths.

`Turn.Room` says that a turn does none of these.
-/

namespace Ish.Fs

open List Ish.Lib Ish.Fakefs Turn Norm

/-- A component is copied in this turn. -/
def Turn.Copies (t : Turn) : Prop := t.p.rest ≠ [] ∧ component t.p.rest = .name

/-- The path with the next component and the terminator fits in `out`. -/
def Turn.Fits (t : Turn) : Prop :=
  t.Copies → t.out.length + 1 + (nextName t.p.rest).length < MAX_PATH

/-- The target that the turn reads, if it asks for one and gets one. -/
def Turn.asked (call : Call) (T : Tree) (t : Turn) : Option Blob :=
  if t.out.length + 2 + (nextName t.p.rest).length < MAX_PATH ∧
      (call.follow ∨ t.copied.p.rest ≠ []) ∧ pathIsNormalized t.copied.out then
    (T.findMountAndTrimPath t.copied.out).bind (fun r =>
      if pathIsNormalized r.2 then r.1.tryReadlink r.2 (MAX_PATH - (t.out.length + 1)) else none)
  else none

/-- There is room for a slash, a byte and the NUL; a target that is read is shorter than the
buffer given for it, and fits into the other buffer together with what is before and behind it. -/
structure Turn.Room (call : Call) (T : Tree) (t : Turn) : Prop where
  component : t.out.length + 2 < MAX_PATH
  target : ∀ target ∈ t.asked call T, t.levels < 5 → t.out.length + 1 + target.length < MAX_PATH
  expanded : ∀ target ∈ t.asked call T, t.levels < 5 →
    (expandedPath t.copied (t.out.length + 1) target).length < MAX_PATH

/-- What every turn starts with. -/
structure Turn.Ok (t : Turn) : Prop where
  counts : t.Counts
  out_lt : t.out.length < MAX_PATH
  slash : AtSlash t.out
  rest_lt : t.p.rest.length < MAX_PATH
  head : ∀ b ∈ t.p.rest.head?, b ≠ SLASH

def Norm.Ok : Norm → Prop
  | .turn t => t.Ok
  | .outOfBounds => False
  | _ => True

/-! ## Turns that copy nothing -/

section Turns

variable {call : Call} {T : Tree} {t : Turn}

theorem endsHere_of_atSlash {b : Blob} (h : AtSlash b) : endsHere b = true := by
  cases b with
  | nil => rfl
  | cons c b =>
    have hc : c = SLASH := h c rfl
    simp [endsHere, hc]

theorem normalizeStart_ok {at_path : Option Blob} {path : Blob} (levels : Nat)
    (hat : ∀ a ∈ at_path, AtSlash a ∧ a.length < MAX_PATH) (hpath : path.length < MAX_PATH) :
    (normalizeStart at_path path levels).Ok := by
  have hle := eatSlashes_length_le ⟨[], path⟩
  have hrest : (Cursor.eatSlashes ⟨[], path⟩).rest.length < MAX_PATH := lt_of_le_of_lt hle hpath
  have hhead := eatSlashes_head ⟨[], path⟩
  have hnil : AtSlash [] := by
    intro b hb
    cases hb
  unfold normalizeStart
  split
  · trivial
  dsimp only
  split
  · exact ⟨by simp [Turn.Counts], by simp [MAX_PATH], hnil, hrest, hhead⟩
  cases at_path with
  | none => exact ⟨by simp [Turn.Counts], by simp [MAX_PATH], hnil, hrest, hhead⟩
  | some a =>
    obtain ⟨hslash, hlt⟩ := hat a rfl
    rw [if_pos (by exact hlt)]
    exact ⟨rfl, hlt, hslash, hrest, hhead⟩

theorem skip_eatSlashes_ok (h : t.Ok) (k : Nat) :
    (t.p.skip k).eatSlashes.rest.length < MAX_PATH ∧
      ∀ b ∈ (t.p.skip k).eatSlashes.rest.head?, b ≠ SLASH := by
  refine ⟨?_, eatSlashes_head _⟩
  have hle := eatSlashes_length_le (t.p.skip k)
  have hskip := skip_length t.p k
  have hlt := h.rest_lt
  omega

theorem dotDotTurn_ok (h : t.Ok) : (dotDotTurn t).Ok := by
  obtain ⟨hrest, hhead⟩ := skip_eatSlashes_ok h 2
  unfold dotDotTurn
  split
  · exact ⟨h.counts, h.out_lt, h.slash, hrest, hhead⟩
  rename_i hne
  have hmem : SLASH ∈ t.out := by
    cases hout : t.out with
    | nil => exact absurd hout hne
    | cons b r =>
      have hb : b = SLASH := h.slash b (by rw [hout]; rfl)
      simp [hb]
  obtain ⟨a, x, hax, hx⟩ := exists_last_slash hmem
  have hlen : t.out.length = a.length + 1 + x.length := by
    rw [hax]
    simp
    omega
  rw [hax, popComponent_append a hx]
  refine ⟨?_, ?_, ?_, hrest, hhead⟩
  · have hcount : t.n = MAX_PATH - 1 - t.out.length := h.counts
    show t.n + ((a ++ SLASH :: x).length - a.length) = MAX_PATH - 1 - a.length
    rw [← hax]
    omega
  · show a.length < MAX_PATH
    have := h.out_lt
    omega
  intro b hb
  refine h.slash b ?_
  cases a with
  | nil => cases hb
  | cons c a =>
    rw [hax]
    exact hb

theorem normalizeEnd_ok (h : t.Ok) : (normalizeEnd t).Ok := by
  unfold normalizeEnd
  rw [if_neg (Nat.not_le.mpr h.out_lt)]
  split
  · trivial
  · trivial

/-! ## The turn that copies -/

theorem copied_ok (h : t.Ok) (hfit : t.out.length + 2 + (nextName t.p.rest).length < MAX_PATH) :
    t.copied.Ok := by
  obtain ⟨hrest, hhead⟩ := skip_eatSlashes_ok h (nextName t.p.rest).length
  have hcount : t.n = MAX_PATH - 1 - t.out.length := h.counts
  refine ⟨?_, ?_, ?_, hrest, hhead⟩
  · simp only [Turn.Counts, copied, length_append, length_cons]
    omega
  · simp only [copied, length_append, length_cons]
    omega
  intro b hb
  cases hout : t.out with
  | nil =>
    simp only [copied, hout, nil_append, head?_cons] at hb
    exact (Option.some.inj hb).symm
  | cons c r =>
    refine h.slash b ?_
    simp only [copied, hout, cons_append, head?_cons] at hb
    simpa [hout] using hb

theorem copied_rest_lt (hcopies : t.Copies) (hhead : ∀ b ∈ t.p.rest.head?, b ≠ SLASH) :
    t.copied.p.rest.length < t.p.rest.length := by
  have hname : 0 < (nextName t.p.rest).length :=
    length_pos_iff.mpr (nextName_ne_nil hcopies.1 hhead)
  have hrest : 0 < t.p.rest.length := length_pos_iff.mpr hcopies.1
  have hle := eatSlashes_length_le (t.p.skip (nextName t.p.rest).length)
  have hskip := skip_length t.p (nextName t.p.rest).length
  show (t.p.skip (nextName t.p.rest).length).eatSlashes.rest.length < _
  omega

theorem copied_before (hcopies : t.Copies) (hhead : ∀ b ∈ t.p.rest.head?, b ≠ SLASH) :
    t.copied.p.before ≠ [] := by
  obtain ⟨x, hx⟩ := eatSlashes_before (t.p.skip (nextName t.p.rest).length)
  have hname := nextName_ne_nil hcopies.1 hhead
  have htake : t.p.rest.take (nextName t.p.rest).length = nextName t.p.rest :=
    (prefix_iff_eq_take.mp (List.takeWhile_prefix _)).symm
  show (t.p.skip (nextName t.p.rest).length).eatSlashes.before ≠ []
  rw [hx]
  simp [Cursor.skip, htake, hname]

/-- What a turn does with a component that fits. -/
theorem nameTurn_cases (call : Call) (T : Tree) (h : t.Ok) (hcopies : t.Copies)
    (hfit : t.out.length + 2 + (nextName t.p.rest).length < MAX_PATH) :
    (∃ target, t.asked call T = some target ∧
      nameTurn call T t = expand t.copied (t.out.length + 1) target) ∨
    (t.asked call T = none ∧ (nameTurn call T t = .turn t.copied ∨ nameTurn call T t = .aborted ∨
      ∃ e, nameTurn call T t = .failed e)) := by
  have hok := copied_ok h hfit
  rw [nameTurn_fits h.counts hfit]
  unfold asked
  by_cases hask : call.follow ∨ t.copied.p.rest ≠ []
  · rw [if_pos hask]
    unfold checkSymlink
    rw [if_neg (Nat.not_le.mpr hok.out_lt)]
    obtain ⟨⟨fs, path⟩, hfind⟩ := T.findMountAndTrimPath_isSome (endsHere_of_atSlash hok.slash)
    rcases hnorm : pathIsNormalized t.copied.out with _ | _
    · simp
    rw [if_pos ⟨hfit, hask, rfl⟩, hfind]
    rcases hpath : pathIsNormalized path with _ | _
    · simp [hpath]
    simp only [hpath, Bool.not_true, Bool.false_eq_true, if_false, if_true, Option.bind_some]
    cases hread : fs.tryReadlink path (MAX_PATH - (t.out.length + 1)) with
    | some target => exact .inl ⟨target, rfl, rfl⟩
    | none =>
      refine .inr ⟨rfl, ?_⟩
      have hbefore := copied_before hcopies h.head
      rcases checkSearch_cases call.cred fs path t.copied with
        ⟨hnil, -⟩ | ⟨⟨e, -, hs⟩, -⟩ | ⟨hs, -⟩
      · exact absurd hnil hbefore
      · exact .inr (.inr ⟨e, hs⟩)
      · exact .inl hs
  · refine .inr ⟨?_, .inl ?_⟩
    · rw [if_neg (fun hc => hask hc.2.1)]
    · rw [if_neg hask]

theorem next_of_copies (hcopies : t.Copies) : t.next call T = nameTurn call T t := by
  rw [Turn.next, if_neg hcopies.1, hcopies.2]

theorem next_ok_of_not_copies (h : t.Ok) (hcopies : ¬ t.Copies) : (t.next call T).Ok := by
  unfold Turn.next
  split
  · exact normalizeEnd_ok h
  rename_i hne
  cases hc : component t.p.rest with
  | dot =>
    obtain ⟨hrest, hhead⟩ := skip_eatSlashes_ok h 1
    exact ⟨h.counts, h.out_lt, h.slash, hrest, hhead⟩
  | dotDot => exact dotDotTurn_ok h
  | name => exact absurd ⟨hne, hc⟩ hcopies

/-! ## A turn with room -/

theorem next_ok_of_room (h : t.Ok) (hroom : t.Copies → t.Room call T) :
    (t.next call T).Ok ∧ (¬ t.Fits → t.next call T = .failed .ENAMETOOLONG) := by
  by_cases hcopies : t.Copies
  · have hr := hroom hcopies
    rw [next_of_copies hcopies]
    by_cases hfit : t.out.length + 2 + (nextName t.p.rest).length < MAX_PATH
    · refine ⟨?_, fun hnot => absurd (fun _ => by omega) hnot⟩
      have hok := copied_ok h hfit
      rcases nameTurn_cases call T h hcopies hfit with
        ⟨target, hasked, hturn⟩ | ⟨-, hturn | hturn | ⟨e, hturn⟩⟩
      · rw [hturn]
        unfold expand
        by_cases hlevels : 5 ≤ t.copied.levels
        · rw [if_pos hlevels]
          trivial
        have hlt : t.levels < 5 := Nat.not_le.mp hlevels
        rw [if_neg hlevels, if_neg (Nat.not_le.mpr (hr.target target hasked hlt)),
          if_neg (Nat.not_le.mpr (hr.expanded target hasked hlt))]
        exact normalizeStart_ok _ (fun a ha => by cases ha) (hr.expanded target hasked hlt)
      · rw [hturn]
        exact hok
      · rw [hturn]
        trivial
      · rw [hturn]
        trivial
    · have hfull := nameTurn_full call T h.counts hr.component (by omega)
      rw [hfull]
      exact ⟨trivial, fun _ => rfl⟩
  · exact ⟨next_ok_of_not_copies h hcopies, fun hnot => absurd (fun hc => absurd hc hcopies) hnot⟩

/-! ## A turn without room -/

theorem checkSymlink_ne_tooLong (cred : Cred) (T : Tree) (t : Turn) (c : Nat) :
    checkSymlink cred T t c ≠ .failed .ENAMETOOLONG := by
  have hstart : ∀ a p l, normalizeStart a p l ≠ .failed .ENAMETOOLONG :=
    fun a p l => normalizeStart_ind (P := (· ≠ _)) a p l (by simp) (by simp) (by simp)
  refine checkSymlink_ind (P := (· ≠ _)) cred T t c ?_ (by simp) (by simp) ?_ (by simp)
  · intro e he
    simpa using he
  intro target
  exact expand_ind (P := (· ≠ _)) t c target (by simp) (by simp) fun _ _ _ => hstart _ _ _

theorem asked_fits {target : Blob} (hasked : t.asked call T = some target) :
    t.out.length + 2 + (nextName t.p.rest).length < MAX_PATH := by
  unfold asked at hasked
  split at hasked
  · rename_i h
    exact h.1
  · cases hasked

theorem room_of_next (h : t.Ok) (hcopies : t.Copies) (hin : t.next call T ≠ .outOfBounds)
    (hlong : ¬ t.Fits → t.next call T = .failed .ENAMETOOLONG) : t.Room call T := by
  rw [next_of_copies hcopies] at hin hlong
  -- a target is read only for a component that fits, so the turn is the one that expands it
  have hexpand : ∀ target ∈ t.asked call T, t.levels < 5 →
      t.out.length + 1 + target.length < MAX_PATH ∧
        (expandedPath t.copied (t.out.length + 1) target).length < MAX_PATH := by
    intro target hasked hlevels
    rcases nameTurn_cases call T h hcopies (asked_fits hasked) with
      ⟨target', hasked', hturn⟩ | ⟨hnone, -⟩
    · obtain rfl := Option.mem_unique hasked hasked'
      have hcopied : ¬ 5 ≤ t.copied.levels := Nat.not_le.mpr hlevels
      rw [hturn, expand, if_neg hcopied] at hin
      by_cases h1 : MAX_PATH ≤ t.out.length + 1 + target.length
      · rw [if_pos h1] at hin
        exact absurd rfl hin
      rw [if_neg h1] at hin
      by_cases h2 : MAX_PATH ≤ (expandedPath t.copied (t.out.length + 1) target).length
      · rw [if_pos h2] at hin
        exact absurd rfl hin
      · exact ⟨Nat.not_le.mp h1, Nat.not_le.mp h2⟩
    · rw [hasked] at hnone
      cases hnone
  refine ⟨?_, fun target ht hl => (hexpand target ht hl).1,
    fun target ht hl => (hexpand target ht hl).2⟩
  by_contra hroom
  have hname : 0 < (nextName t.p.rest).length :=
    length_pos_iff.mpr (nextName_ne_nil hcopies.1 h.head)
  have hnot : ¬ t.Fits := by
    intro hfits
    have hlt := hfits hcopies
    omega
  have hturn := hlong hnot
  rw [nameTurn_stuck call T h.counts h.out_lt (by omega) hcopies.1 h.head] at hturn
  exact checkSymlink_ne_tooLong _ _ _ _ hturn

/-! ## The number of turns -/

/-- A turn reads on in its path, or starts a path in the other buffer one level deeper. -/
def Norm.turnsLeft : Norm → Nat
  | .turn t => (6 - t.levels) * (MAX_PATH + 1) + t.p.rest.length + 1
  | _ => 0

theorem normalizeStart_turnsLeft (at_path : Option Blob) (path : Blob) (levels : Nat) :
    (normalizeStart at_path path levels).turnsLeft
      ≤ (6 - levels) * (MAX_PATH + 1) + path.length + 1 := by
  have hle := eatSlashes_length_le ⟨[], path⟩
  refine normalizeStart_ind (P := (·.turnsLeft ≤ _)) at_path path levels (Nat.zero_le _)
    (Nat.zero_le _) ?_
  intro out n
  simpa [turnsLeft] using hle

theorem turnsLeft_skip (hne : t.p.rest ≠ []) {k : Nat} (hk : 0 < k) (out : Blob) (n : Int) :
    (turn ⟨t.levels, out, n, (t.p.skip k).eatSlashes⟩).turnsLeft
      < (turn t).turnsLeft := by
  have hpos : 0 < t.p.rest.length := length_pos_iff.mpr hne
  have hle := eatSlashes_length_le (t.p.skip k)
  have hskip := skip_length t.p k
  show (6 - t.levels) * (MAX_PATH + 1) + (t.p.skip k).eatSlashes.rest.length + 1
    < (6 - t.levels) * (MAX_PATH + 1) + t.p.rest.length + 1
  omega

theorem turnsLeft_expand (target : Blob) (c : Nat) :
    (expand t.copied c target).turnsLeft < (turn t).turnsLeft := by
  have hpos : 0 < (turn t).turnsLeft := Nat.succ_pos _
  refine expand_ind (P := (·.turnsLeft < _)) t.copied c target hpos hpos ?_
  intro hlt _ hlen
  have hlt : t.levels < 5 := hlt
  refine lt_of_le_of_lt (normalizeStart_turnsLeft none _ (t.copied.levels + 1)) ?_
  show (6 - (t.levels + 1)) * (MAX_PATH + 1) + _ + 1
    < (6 - t.levels) * (MAX_PATH + 1) + t.p.rest.length + 1
  have hmul : (6 - t.levels) * (MAX_PATH + 1)
      = (6 - (t.levels + 1)) * (MAX_PATH + 1) + (MAX_PATH + 1) := by
    rw [← Nat.succ_mul]
    congr 1
    omega
  omega

theorem turnsLeft_next (h : t.Ok) (hroom : t.Copies → t.Room call T) :
    (t.next call T).turnsLeft < (turn t).turnsLeft := by
  have hpos : 0 < (turn t).turnsLeft := Nat.succ_pos _
  by_cases hcopies : t.Copies
  · have hr := hroom hcopies
    rw [next_of_copies hcopies]
    by_cases hfit : t.out.length + 2 + (nextName t.p.rest).length < MAX_PATH
    · rcases nameTurn_cases call T h hcopies hfit with
        ⟨target, -, hturn⟩ | ⟨-, hturn | hturn | ⟨e, hturn⟩⟩
      · rw [hturn]
        exact turnsLeft_expand target _
      · have hlt := copied_rest_lt hcopies h.head
        rw [hturn]
        show (6 - t.levels) * (MAX_PATH + 1) + t.copied.p.rest.length + 1
          < (6 - t.levels) * (MAX_PATH + 1) + t.p.rest.length + 1
        omega
      · rw [hturn]
        exact hpos
      · rw [hturn]
        exact hpos
    · rw [nameTurn_full call T h.counts hr.component (by omega)]
      exact hpos
  · unfold Turn.next
    split
    · unfold normalizeEnd
      split
      · exact hpos
      split
      · exact hpos
      · exact hpos
    rename_i hne
    cases hc : component t.p.rest with
    | dot => exact turnsLeft_skip hne one_pos t.out t.n
    | dotDot =>
      unfold dotDotTurn
      dsimp only
      split
      · exact turnsLeft_skip hne two_pos t.out t.n
      split
      · exact hpos
      · exact turnsLeft_skip hne two_pos _ _
    | name => exact absurd ⟨hne, hc⟩ hcopies

end Turns

/-! ## Whole calls -/

/-- A call that ends, writes inside its buffers, and reports a path that does not fit. -/
structure StaysInBounds (run : Nat → Norm) : Prop where
  ends : ∃ k, (run k).Final
  inBounds : ∀ k, run k ≠ .outOfBounds
  tooLong : ∀ k t, run k = .turn t → ¬ t.Fits → run (k + 1) = .failed .ENAMETOOLONG

theorem atSlash_of_pathIsNormalized {a : Blob} (h : pathIsNormalized a = true) : AtSlash a := by
  cases a with
  | nil =>
    intro b hb
    cases hb
  | cons c a =>
    intro b hb
    simp only [pathIsNormalized, pathIsNormalizedFrom, Bool.and_eq_true, beq_iff_eq] at h
    rw [← h.1]
    exact (Option.some.inj hb).symm

/-- **The buffers of a call.** For every base path, path, flag and every sequence of answers: the
call ends, stays inside its buffers and reports what does not fit exactly when every turn that
copies a component has room. -/
theorem normalize_staysInBounds_iff (call : Call) (trees : Nat → Tree) (at_path : Option Blob)
    (path : Blob) (levels : Nat)
    (hat : ∀ a ∈ at_path, pathIsNormalized a = true ∧ a.length < MAX_PATH)
    (hpath : path.length < MAX_PATH) :
    StaysInBounds (pathNormalizeFrom call trees at_path path levels) ↔
      ∀ k t, pathNormalizeFrom call trees at_path path levels k = .turn t → t.Copies →
        t.Room call (trees k) := by
  have hstart : (normalizeStart at_path path levels).Ok :=
    normalizeStart_ok levels
      (fun a ha => ⟨atSlash_of_pathIsNormalized (hat a ha).1, (hat a ha).2⟩) hpath
  set run := pathNormalizeFrom call trees at_path path levels
  have hstep : ∀ k t, run k = .turn t → run (k + 1) = t.next call (trees k) := by
    intro k t hk
    show normalizeTurn call (run k) (trees k) = _
    rw [hk]
    rfl
  -- either side lets one turn after the other start well
  have hok : (∀ k t, run k = .turn t → t.Ok → t.Copies → t.Room call (trees k)) →
      ∀ k, (run k).Ok := by
    intro hroom
    refine after_inv hstart ?_
    intro k (hk : (run k).Ok)
    show (normalizeTurn call (run k) (trees k)).Ok
    cases hs : run k with
    | turn t =>
      rw [hs] at hk
      exact (next_ok_of_room hk (hroom k t hs hk)).1
    | _ =>
      rw [hs] at hk
      exact hk
  constructor
  · intro hin
    have hroom : ∀ k t, run k = .turn t → t.Ok → t.Copies → t.Room call (trees k) := by
      intro k t hk ht hcopies
      refine room_of_next ht hcopies ?_ ?_
      · rw [← hstep k t hk]
        exact hin.inBounds (k + 1)
      intro hnot
      rw [← hstep k t hk]
      exact hin.tooLong k t hk hnot
    intro k t hk
    have hkok := hok hroom k
    rw [hk] at hkok
    exact hroom k t hk hkok
  · intro hroom
    have hall := hok (fun k t hk _ => hroom k t hk)
    have hturn : ∀ k t, run k = .turn t → t.Ok := by
      intro k t hk
      have hkok := hall k
      rw [hk] at hkok
      exact hkok
    refine ⟨?_, ?_, ?_⟩
    · have hend : ∃ k ≤ (normalizeStart at_path path levels).turnsLeft, (run k).Final := by
        refine after_final turnsLeft ?_
        intro k (hk : ¬ (run k).Final)
        show (normalizeTurn call (run k) (trees k)).turnsLeft < (run k).turnsLeft
        cases hs : run k with
        | turn t => exact turnsLeft_next (hturn k t hs) (hroom k t hs)
        | _ =>
          rw [hs] at hk
          exact absurd (fun t ht => by cases ht) hk
      obtain ⟨k, -, hk⟩ := hend
      exact ⟨k, hk⟩
    · intro k hk
      have hkok := hall k
      rw [hk] at hkok
      exact hkok
    · intro k t hk hnot
      rw [hstep k t hk]
      exact (next_ok_of_room (hturn k t hk) (hroom k t hk)).2 hnot

/-- One file system, mounted at the root. -/
def rootTree (fs : FsOps) : Tree := ⟨[⟨[], fs⟩], ⟨_, mem_singleton_self _, rfl⟩⟩

/-- Every name is a link with a target as long as the buffer. -/
def longLinks : FsOps where
  readlink := some (fun _ size => some (replicate size 97))
  stat _ := none
  readlink_le := by
    rintro f ⟨rfl⟩ path size b hb
    obtain rfl := Option.some.inj hb
    simp

def noLinks : FsOps where
  readlink := none
  stat _ := none
  readlink_le := FsOps.none_readlink_le

/-- The link `/a/l` to `b`. -/
def linkBelow : FsOps where
  readlink := some (fun path size =>
    if path = [SLASH, 97, SLASH, 108] then some (take size [98]) else none)
  stat _ := none
  readlink_le := by
    rintro f ⟨rfl⟩ path size b hb
    dsimp only at hb
    split at hb
    · obtain rfl := Option.some.inj hb
      exact length_take_le size [98]
    · cases hb

def rootFollow : Call := ⟨true, ⟨0, 0⟩⟩

/-- Looking up `/a`, whose target fills the buffer it is read to: the NUL goes behind it. -/
theorem full_target_out_of_bounds :
    pathNormalizeFrom rootFollow (fun _ => rootTree longLinks) none [97] 0 1 = .outOfBounds ∧
      ¬ StaysInBounds (pathNormalizeFrom rootFollow (fun _ => rootTree longLinks) none [97] 0) := by
  have hout : pathNormalizeFrom rootFollow (fun _ => rootTree longLinks) none [97] 0 1
      = .outOfBounds := by
    have hturn : ∀ fs, pathNormalizeFrom rootFollow (fun _ => rootTree fs) none [97] 0 1
        = checkSymlink ⟨0, 0⟩ (rootTree fs) ⟨0, [SLASH, 97], 4093, ⟨[97], []⟩⟩ 1 :=
      fun _ => rfl
    have hmount : ∀ fs, (rootTree fs).findMountAndTrimPath [SLASH, 97]
        = some (fs, [SLASH, 97]) := fun _ => rfl
    have hread : longLinks.tryReadlink [SLASH, 97] (MAX_PATH - 1)
        = some (replicate (MAX_PATH - 1) 97) := rfl
    have hlen : MAX_PATH ≤ 1 + (replicate (MAX_PATH - 1) (97 : UInt8)).length := by
      rw [length_replicate]
      decide
    rw [hturn, checkSymlink, if_neg (by decide), if_neg (by decide), hmount]
    dsimp only
    rw [if_neg (by decide), hread]
    dsimp only
    rw [expand, if_neg (by simp), if_pos hlen]
  exact ⟨hout, fun h => h.inBounds 1 hout⟩

theorem Turn.Room.of_none {call : Call} {T : Tree} {t : Turn}
    (hroom : t.out.length + 2 < MAX_PATH) (hnone : t.asked call T = none) : t.Room call T := by
  refine ⟨hroom, ?_, ?_⟩
  all_goals
    intro target htarget
    rw [hnone] at htarget
    cases htarget

/-- From `/a`: a name, `..` and the link. -/
theorem normalize_staysInBounds_link :
    StaysInBounds (pathNormalizeFrom rootFollow (fun _ => rootTree linkBelow) (some [SLASH, 97])
      [98, SLASH, DOT, DOT, SLASH, 108] 0) := by
  refine (normalize_staysInBounds_iff rootFollow (fun _ => rootTree linkBelow) (some [SLASH, 97])
    [98, SLASH, DOT, DOT, SLASH, 108] 0 (fun a ha => by cases ha; decide) (by decide)).mpr ?_
  intro k t hk hcopies
  match k with
  | 0 =>
    obtain rfl := turn.inj hk
    exact .of_none (by decide) rfl
  | 1 =>
    obtain rfl := turn.inj hk
    exact absurd hcopies.2 (by decide)
  | 2 =>
    obtain rfl := turn.inj hk
    refine ⟨by decide, ?_, ?_⟩
    · rintro target ⟨rfl⟩ -
      decide
    · rintro target ⟨rfl⟩ -
      decide
  | 3 =>
    obtain rfl := turn.inj hk
    exact .of_none (by decide) rfl
  | 4 =>
    obtain rfl := turn.inj hk
    exact .of_none (by decide) rfl
  | 5 =>
    obtain rfl := turn.inj hk
    exact absurd rfl hcopies.1
  | k + 6 =>
    have hend : after (normalizeTurn rootFollow) (fun _ => rootTree linkBelow)
        (normalizeStart (some [SLASH, 97]) [98, SLASH, DOT, DOT, SLASH, 108] 0) 6
          = .returned [SLASH, 97, SLASH, 98] := rfl
    have hstay := after_stays (fun _ => rfl) (Nat.le_add_left 6 k) hend
    cases hstay.symm.trans hk

end Ish.Fs

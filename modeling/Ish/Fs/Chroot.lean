import Ish.Fs.Resolve

set_option autoImplicit false

/-! # A changed root directory

`sys_chroot` (`kernel/fs.c`) replaces the directory that `path_normalize` starts from when a path
begins with a slash. It is only a start: the loop copies the path of the root to the buffer like
any base path, `..` takes its last name away like any other, and a link to an absolute path
begins at the root of the mount table.

A call whose turns do neither stays below the root. A link to a relative path starts again at the
root of the mount table, with the directory of the link in front: the names of the root are walked
once more, and `Turn.Inside` holds on the way too.
-/

namespace Ish.Fs

open List Ish.Lib Ish.Fakefs

/-- An open directory: its mount and what `getpath` of the file system gives. -/
structure Fd where
  point : Blob
  getpath : Except Errno Blob

def genericGetpath (fd : Fd) : Except Errno Blob :=
  match fd.getpath with
  | .error e => .error e
  | .ok buf =>
    if MAX_PATH ≤ buf.length + fd.point.length then .error .ENAMETOOLONG
    else .ok (if fd.point ++ buf = [] then [SLASH] else fd.point ++ buf)

structure FsInfo where
  root : Fd
  pwd : Fd

/-- The argument `at`: `AT_PWD`, or a directory. -/
inductive At where
  | pwd
  | fd (dir : Fd)

def FsInfo.startDir (fs : FsInfo) (dir : At) (path : Blob) : Fd :=
  if path.head? = some SLASH then fs.root
  else
    match dir with
    | .pwd => fs.pwd
    | .fd d => d

/-- `path_normalize`, after `k` turns of the loop. -/
def pathNormalize (call : Call) (fs : FsInfo) (trees : Nat → Tree) (dir : At) (path : Blob)
    (k : Nat) : Norm :=
  if path = [] then .failed .ENOENT
  else
    match genericGetpath (fs.startDir dir path) with
    | .error e => .failed e
    | .ok at_path =>
      if !pathIsNormalized at_path then .aborted
      else pathNormalizeFrom call trees (some at_path) path 0 k

/-- `sys_chroot`, given what `open_dir` returned. -/
def sysChroot (fs : FsInfo) (dir : Except Errno Fd) : FsInfo × Except Errno Unit :=
  match dir with
  | .error e => (fs, .error e)
  | .ok d => ({ fs with root := d }, .ok ())

/-- The string that `generic_getpath` gives for a path. -/
def getpathOf (q : Path) : Blob := if q = [] then [SLASH] else encode q

/-- The path itself, or one below it. -/
def Below (R : Path) (out : Blob) : Prop := out = encode R ∨ ∃ z, out = encode R ++ SLASH :: z

/-! ## The condition -/

/-- What a link is followed from: its directory, or its own target when that starts with a
slash. -/
def Turn.followedFrom (t : Turn) (target : Blob) : Blob :=
  let link := target.takeWhile (· != 0)
  if link.head? = some SLASH then link else t.out

/-- **The condition.** No `..` from the root itself, and every link that is followed is below the
root and relative, or leads to a path that starts with the one of the root. -/
structure Turn.Stays (call : Call) (T : Tree) (R : Path) (t : Turn) : Prop where
  dotDot : t.p.rest ≠ [] → component t.p.rest = .dotDot → t.out ≠ encode R
  followed : ∀ target ∈ t.asked call T, t.levels < 5 → Below R (t.followedFrom target)

theorem pathIsNormalized_getpathOf (q : Path) : pathIsNormalized (getpathOf q) = true := by
  unfold getpathOf
  split
  · decide
  · exact pathIsNormalized_encode q

/-- A path that starts with a slash is normalized from the root. -/
theorem pathNormalize_of_slash {call : Call} {fs : FsInfo} {trees : Nat → Tree} {dir : At}
    {path : Blob} {R : Path} (hroot : genericGetpath fs.root = .ok (getpathOf R))
    (hslash : path.head? = some SLASH) (k : Nat) :
    pathNormalize call fs trees dir path k
      = pathNormalizeFrom call trees (some (getpathOf R)) path 0 k := by
  have hne : path ≠ [] := by
    rintro rfl
    cases hslash
  have hstart : fs.startDir dir path = fs.root := if_pos hslash
  rw [pathNormalize, if_neg hne, hstart, hroot]
  dsimp only
  rw [pathIsNormalized_getpathOf]
  rfl

/-! ## Below the root -/

section Below

variable {R : Path} {out : Blob}

theorem below_iff : Below R out ↔ ∃ x, out = encode R ++ x ∧ AtSlash x := by
  constructor
  · rintro (rfl | ⟨z, rfl⟩)
    · exact ⟨[], (append_nil _).symm, fun c hc => by cases hc⟩
    · exact ⟨SLASH :: z, rfl, atSlash_cons z⟩
  · rintro ⟨x, rfl, hx⟩
    cases x with
    | nil => exact .inl (append_nil _)
    | cons b z =>
      obtain rfl : b = SLASH := hx b rfl
      exact .inr ⟨z, rfl⟩

theorem Below.append (h : Below R out) (x : Blob) : Below R (out ++ SLASH :: x) := by
  rcases h with rfl | ⟨z, rfl⟩
  · exact .inr ⟨x, rfl⟩
  · exact .inr ⟨z ++ SLASH :: x, by simp⟩

/-- `..` from below the root. -/
theorem Below.pop (h : Below R out) (hne : out ≠ encode R) :
    ∃ out', popComponent out = some out' ∧ Below R out' := by
  rcases h with rfl | ⟨z, rfl⟩
  · exact absurd rfl hne
  by_cases hz : SLASH ∈ z
  · obtain ⟨a, x, rfl, hx⟩ := exists_last_slash hz
    refine ⟨encode R ++ SLASH :: a, ?_, .inr ⟨a, rfl⟩⟩
    have hsplit : encode R ++ SLASH :: (a ++ SLASH :: x)
        = (encode R ++ SLASH :: a) ++ SLASH :: x := by simp
    rw [hsplit, popComponent_append _ hx]
  · exact ⟨encode R, popComponent_append _ hz, .inl rfl⟩

end Below

/-! ## One turn -/

/-- On the way to the root, with the rest of its names ahead. -/
def Turn.Approaches (R : Path) (t : Turn) : Prop :=
  ∃ done n todo x, R = done ++ n :: todo ∧ t.out = encode done ∧
    SLASH :: t.p.rest = encode (n :: todo) ++ x ∧ AtSlash x

/-- The invariant of the loop. -/
structure Turn.Inside (R : Path) (t : Turn) : Prop where
  counts : t.Counts
  head : ∀ b ∈ t.p.rest.head?, b ≠ SLASH
  path : Below R t.out ∨ t.Approaches R

def Norm.Inside (R : Path) : Norm → Prop
  | .turn t => t.Inside R ∨ t.Stuck
  | .returned out => Below R out
  | _ => True

section Turn

variable {call : Call} {T : Tree} {R : Path} {t : Turn}

theorem Norm.Lost.inside {s : Norm} (h : s.Lost) : s.Inside R := by
  cases s with
  | turn t => exact .inr h
  | returned out => exact h.elim
  | _ => trivial

/-- What can come of a component that fits. -/
theorem nameTurn_ind {P : Norm → Prop} (hcounts : t.Counts)
    (hfit : t.out.length + 2 + (nextName t.p.rest).length < MAX_PATH)
    (hfailed : ∀ e, P (.failed e)) (hout : P .outOfBounds) (habort : P .aborted)
    (hexpand : ∀ target ∈ t.asked call T, P (expand t.copied (t.out.length + 1) target))
    (hturn : P (.turn t.copied)) : P (nameTurn call T t) := by
  rw [nameTurn_fits hcounts hfit]
  by_cases hask : call.follow ∨ t.copied.p.rest ≠ []
  · rw [if_pos hask]
    unfold checkSymlink
    split
    · exact hout
    cases hnorm : pathIsNormalized t.copied.out with
    | false => exact habort
    | true =>
      cases hfind : T.findMountAndTrimPath t.copied.out with
      | none => exact hout
      | some r =>
        obtain ⟨fs, path⟩ := r
        cases hpath : pathIsNormalized path with
        | false =>
          simp only [hpath, Bool.not_false, Bool.not_true, Bool.false_eq_true, if_true, if_false]
          exact habort
        | true =>
          simp only [hpath, Bool.not_true, Bool.false_eq_true, if_false]
          cases hread : fs.tryReadlink path (MAX_PATH - (t.out.length + 1)) with
          | some target =>
            refine hexpand target ?_
            simp [Turn.asked, hfit, hask, hnorm, hfind, hpath, hread]
          | none =>
            rcases checkSearch_cases call.cred fs path t.copied with
              ⟨-, hs⟩ | ⟨⟨e, -, hs⟩, -⟩ | ⟨hs, -⟩
            · exact hs ▸ hout
            · exact hs ▸ hfailed e
            · exact hs ▸ hturn
  · rw [if_neg hask]
    exact hturn

theorem atSlash_encode_append (q : Path) {x : Blob} (hx : AtSlash x) : AtSlash (encode q ++ x) := by
  cases q with
  | nil => exact hx
  | cons n q => exact atSlash_cons _

/-- One slash before a name is eaten. -/
theorem eatSlashes_encode (before : Blob) (n : Name) (q : Path) (x : Blob) :
    SLASH :: (Cursor.eatSlashes ⟨before, encode (n :: q) ++ x⟩).rest = encode (n :: q) ++ x := by
  obtain ⟨c, b, hcb⟩ := exists_cons_of_ne_nil n.ne_nil
  have hc : c ≠ SLASH := by
    rintro rfl
    exact n.noSlash (by rw [hcb]; exact mem_cons_self)
  rw [eatSlashes_rest]
  simp [encode_cons, hcb, hc]

theorem below_expandedPath {target : Blob} (h : Below R (t.followedFrom target)) :
    Below R (expandedPath t.copied (t.out.length + 1) target) := by
  have htake : t.copied.out.take (t.out.length + 1) = t.out ++ [SLASH] := by
    show (t.out ++ SLASH :: nextName t.p.rest).take _ = _
    rw [take_append]
    simp
  have hbase : Below R (if (target.takeWhile (· != 0)).head? = some SLASH
      then target.takeWhile (· != 0)
      else t.copied.out.take (t.out.length + 1) ++ target.takeWhile (· != 0)) := by
    unfold Turn.followedFrom at h
    dsimp only at h
    split
    next habs =>
      rwa [if_pos habs] at h
    next habs =>
      rw [if_neg habs] at h
      rw [htake, append_assoc]
      exact h.append _
  unfold expandedPath
  dsimp only
  split
  · exact hbase
  · exact hbase.append _

theorem normalizeStart_inside {path : Blob} (hpath : R ≠ [] → Below R path) (levels : Nat) :
    (normalizeStart none path levels).Inside R := by
  unfold normalizeStart
  split
  · trivial
  dsimp only [Option.getD_none]
  rw [if_neg (by simp), if_pos (by decide)]
  refine .inl ⟨rfl, eatSlashes_head _, ?_⟩
  cases R with
  | nil => exact .inl (.inl rfl)
  | cons n todo =>
    obtain ⟨x, rfl, hx⟩ := below_iff.mp (hpath (by simp))
    exact .inr ⟨[], n, todo, x, rfl, rfl, eatSlashes_encode [] n todo x, hx⟩

/-- The next name of the root is copied. -/
theorem Turn.Approaches.copied (h : t.Approaches R) :
    Below R t.copied.out ∨ t.copied.Approaches R := by
  obtain ⟨done, n, todo, x, hR, hout, hrest, hx⟩ := h
  rw [encode_cons, cons_append, cons.injEq, append_assoc] at hrest
  have hname : nextName t.p.rest = n.bytes := by
    rw [hrest.2]
    exact nextName_append n.noSlash (atSlash_encode_append todo hx)
  have hcopied : t.copied.out = encode (done ++ [n]) := by
    show t.out ++ SLASH :: nextName t.p.rest = _
    rw [hout, hname, encode_append, encode_cons]
    simp
  have hskip : (t.p.skip (nextName t.p.rest).length).rest = encode todo ++ x := by
    show t.p.rest.drop _ = _
    rw [hname, hrest.2, drop_left]
  cases todo with
  | nil => exact .inl (.inl (by rw [hcopied, hR]))
  | cons m todo =>
    refine .inr ⟨done ++ [n], m, todo, x, by rw [hR]; simp, hcopied, ?_, hx⟩
    show SLASH :: (Cursor.eatSlashes ⟨_, (t.p.skip (nextName t.p.rest).length).rest⟩).rest = _
    rw [hskip]
    exact eatSlashes_encode _ m todo x

/-- Names ahead are copied. -/
theorem Turn.Approaches.copies (h : t.Approaches R) : t.Copies := by
  obtain ⟨done, n, todo, x, -, -, hrest, -⟩ := h
  rw [encode_cons, cons_append, cons.injEq, append_assoc] at hrest
  refine ⟨?_, ?_⟩
  · rw [hrest.2]
    simp [n.ne_nil]
  · rw [hrest.2]
    exact component_name n _

theorem nameTurn_inside (h : t.Inside R) (hstays : R ≠ [] → t.Stays call T R)
    (hfit : t.out.length + 2 + (nextName t.p.rest).length < MAX_PATH) :
    (nameTurn call T t).Inside R := by
  have hcounts : t.copied.Counts := by
    have hcount : t.n = MAX_PATH - 1 - t.out.length := h.counts
    simp only [Turn.Counts, Turn.copied, length_append, length_cons]
    omega
  refine nameTurn_ind h.counts hfit (fun _ => trivial) trivial trivial ?_ ?_
  · intro target htarget
    refine expand_ind _ _ target trivial trivial ?_
    intro hlevels _ _
    exact normalizeStart_inside
      (fun hR => below_expandedPath ((hstays hR).followed target htarget hlevels)) _
  · refine .inl ⟨hcounts, eatSlashes_head _, ?_⟩
    rcases h.path with hbelow | happroaches
    · exact .inl (hbelow.append _)
    · exact happroaches.copied

theorem dotDotTurn_inside (h : t.Inside R) (hbelow : Below R t.out)
    (hstays : R ≠ [] → t.out ≠ encode R) : (dotDotTurn t).Inside R := by
  have hhead := eatSlashes_head (t.p.skip 2)
  unfold dotDotTurn
  dsimp only
  split
  · exact .inl ⟨h.counts, hhead, .inl hbelow⟩
  next hne =>
    have hroot : t.out ≠ encode R := by
      intro heq
      refine hstays ?_ heq
      rintro rfl
      exact hne heq
    obtain ⟨out, hpop, hout⟩ := hbelow.pop hroot
    rw [hpop]
    refine .inl ⟨?_, hhead, .inl hout⟩
    have hcount : t.n = MAX_PATH - 1 - t.out.length := h.counts
    show t.n + (t.out.length - out.length) = MAX_PATH - 1 - out.length
    omega

theorem next_inside (h : t.Inside R) (hstays : R ≠ [] → t.Stays call T R) :
    (t.next call T).Inside R := by
  by_cases hcopies : t.Copies
  · rw [next_of_copies hcopies]
    by_cases hroom : t.out.length + 2 < MAX_PATH
    · by_cases hfit : t.out.length + 2 + (nextName t.p.rest).length < MAX_PATH
      · exact nameTurn_inside h hstays hfit
      · rw [nameTurn_full call T h.counts hroom (by omega)]
        trivial
    · exact (nameTurn_lost call T h.counts hcopies h.head (by omega)).inside
  -- the names of the root are all copied, so the rest starts below it
  have hbelow : Below R t.out := h.path.resolve_right fun happ => hcopies happ.copies
  unfold Turn.next
  split
  · unfold normalizeEnd
    split
    · trivial
    split
    · exact hbelow
    · trivial
  next hne =>
    cases hc : component t.p.rest with
    | dot => exact .inl ⟨h.counts, eatSlashes_head _, .inl hbelow⟩
    | dotDot => exact dotDotTurn_inside h hbelow fun hR => (hstays hR).dotDot hne hc
    | name => exact absurd ⟨hne, hc⟩ hcopies

end Turn

/-! ## Whole calls -/

theorem normalizeStart_getpathOf (R : Path) (path : Blob) (levels : Nat) :
    (normalizeStart (some (getpathOf R)) path levels).Inside R := by
  have hhead := eatSlashes_head ⟨[], path⟩
  unfold normalizeStart
  split
  · trivial
  dsimp only [Option.getD_some]
  unfold getpathOf
  split
  next hR =>
    rw [if_pos rfl, hR]
    exact .inl ⟨by simp [Turn.Counts], hhead, .inl (.inl rfl)⟩
  next hR =>
    split
    next hslash =>
      -- a lone slash is no encoded path
      obtain ⟨n, q, rfl⟩ := exists_cons_of_ne_nil hR
      rw [encode_cons, cons.injEq, append_eq_nil_iff] at hslash
      exact absurd hslash.2.1 n.ne_nil
    split
    · exact .inl ⟨rfl, hhead, .inl (.inl rfl)⟩
    · trivial

/-- **Confinement.** After `chroot` to a directory with the path `R`, a path that starts with a
slash is normalized to `R` or a path below it, for every tree, flag and caller, if `R` is the root
of the mount table or every turn of the call meets the condition. -/
theorem chroot_confines (call : Call) (fs : FsInfo) (dir : Fd) (R : Path) (trees : Nat → Tree)
    (d : At) (path : Blob) (k : Nat) (out : Blob)
    (hdir : genericGetpath dir = .ok (getpathOf R)) (hslash : path.head? = some SLASH)
    (hstays : R ≠ [] → ∀ i < k, ∀ t,
      pathNormalize call (sysChroot fs (.ok dir)).1 trees d path i = .turn t →
        t.Stays call (trees i) R)
    (hout : pathNormalize call (sysChroot fs (.ok dir)).1 trees d path k = .returned out) :
    Below R out := by
  have hroot : genericGetpath (sysChroot fs (.ok dir)).1.root = .ok (getpathOf R) := hdir
  simp only [pathNormalize_of_slash hroot hslash] at hstays hout
  have hinside : ∀ i ≤ k,
      (pathNormalizeFrom call trees (some (getpathOf R)) path 0 i).Inside R := by
    intro i
    induction i with
    | zero => exact fun _ => normalizeStart_getpathOf R path 0
    | succ i ih =>
      intro hi
      have hprev := ih (by omega)
      show (normalizeTurn call (pathNormalizeFrom call trees _ path 0 i) (trees i)).Inside R
      cases hs : pathNormalizeFrom call trees (some (getpathOf R)) path 0 i with
      | turn t =>
        rw [hs] at hprev
        rcases hprev with hturn | hstuck
        · exact next_inside hturn fun hR => hstays hR i hi t hs
        · show (t.next call (trees i)).Inside R
          rw [stuck_next hstuck]
          trivial
      | returned _ | failed _ | aborted | outOfBounds =>
        rw [hs] at hprev
        exact hprev
  have hend := hinside k le_rfl
  rw [hout] at hend
  exact hend

/-- A root directory below the root of the mount table, `/a`. -/
def jail : Fd := ⟨[], .ok (encode [nameA])⟩

theorem Turn.Stays.of_none {call : Call} {T : Tree} {R : Path} {t : Turn}
    (hdotDot : component t.p.rest = .dotDot → t.out ≠ encode R) (hnone : t.asked call T = none) :
    t.Stays call T R := by
  refine ⟨fun _ => hdotDot, ?_⟩
  intro target htarget
  rw [hnone] at htarget
  cases htarget

/-- In the jail: a name, `..` and a relative link. -/
theorem chroot_confines_link :
    genericGetpath jail = .ok (getpathOf [nameA]) ∧
      pathNormalize rootFollow (sysChroot ⟨jail, jail⟩ (.ok jail)).1 (fun _ => rootTree linkBelow)
        .pwd [SLASH, 98, SLASH, DOT, DOT, SLASH, 108] 6 = .returned [SLASH, 97, SLASH, 98] ∧
      Below [nameA] [SLASH, 97, SLASH, 98] := by
  refine ⟨rfl, rfl, chroot_confines rootFollow ⟨jail, jail⟩ jail [nameA]
    (fun _ => rootTree linkBelow) .pwd [SLASH, 98, SLASH, DOT, DOT, SLASH, 108] 6 _ rfl rfl ?_ rfl⟩
  intro _ i hi t hturn
  match i with
  | 0 | 1 | 3 | 4 | 5 =>
    obtain rfl := Norm.turn.inj hturn
    exact .of_none (by decide) rfl
  | 2 =>
    obtain rfl := Norm.turn.inj hturn
    refine ⟨by decide, ?_⟩
    rintro target ⟨rfl⟩ -
    exact .inl rfl

theorem not_below_parent (R : Path) (n : Name) : ¬ Below (R ++ [n]) (encode R) := by
  have hlen : (encode (R ++ [n])).length = (encode R).length + 1 + n.bytes.length := by
    rw [encode_append, encode_cons]
    simp
    omega
  rintro (h | ⟨z, h⟩)
  · have := congrArg length h
    omega
  have hl := congrArg length h
  rw [length_append, length_cons] at hl
  omega

/-- In the jail `/..` is the root of the mount table. -/
theorem chroot_is_left :
    genericGetpath jail = .ok (getpathOf [nameA]) ∧
      pathNormalize rootFollow (sysChroot ⟨jail, jail⟩ (.ok jail)).1 (fun _ => rootTree noLinks)
        .pwd [SLASH, DOT, DOT] 2 = .returned [] ∧
      ¬ Below [nameA] [] := by
  refine ⟨rfl, rfl, ?_⟩
  exact not_below_parent [] nameA

end Ish.Fs
